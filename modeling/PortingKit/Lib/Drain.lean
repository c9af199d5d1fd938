import Mathlib.Algebra.BigOperators.Group.Finset.Basic
import Mathlib.Algebra.Order.BigOperators.Group.Finset
import PortingKit.Lib.Runs
/-!
# Runs that use something up

Each of many parties has a number of things left to do, finitely many have any,
and every step takes from what one of them has. Such a run is no longer than
what was left at its start.
-/

namespace PortingKit.Lib

variable {U : Type}

/-- One party has less, the others what they had. -/
def Takes (m m' : U → ℕ) : Prop := ∃ u, (∀ v, v ≠ u → m' v = m v) ∧ m' u < m u

/-- Only the parties of `us` have anything left. -/
def OnlyIn (us : Finset U) (m : U → ℕ) : Prop := ∀ u, u ∉ us → m u = 0

variable {us : Finset U} {m m' : U → ℕ}

theorem OnlyIn.insert [DecidableEq U] (h : OnlyIn us m) {u : U} (hsame : ∀ v, v ≠ u → m' v = m v) :
    OnlyIn (insert u us) m' := by
  intro v hv
  rw [Finset.mem_insert, not_or] at hv
  rw [hsame v hv.1]
  exact h v hv.2

theorem Takes.sum_lt (h : Takes m m') (hw : OnlyIn us m) : OnlyIn us m' ∧ ∑ u ∈ us, m' u < ∑ u ∈ us, m u := by
  obtain ⟨u, hsame, hlt⟩ := h
  have hu : u ∈ us := by
    by_contra hno
    rw [hw u hno] at hlt
    exact absurd hlt (Nat.not_lt_zero _)
  refine ⟨fun v hv => ?_, Finset.sum_lt_sum (fun v _ => ?_) ⟨u, hu, hlt⟩⟩
  · rw [hsame v fun e => hv (e ▸ hu)]
    exact hw v hv
  · by_cases e : v = u
    · exact e ▸ hlt.le
    · exact (hsame v e).le

/-- A run of such steps is bounded by what is left at its start. -/
theorem Run.length_le {S A : Type} {step : S → A → S → Prop} {s₀ s : S} {tr : List (Tr S A)} (m : S → U → ℕ)
    (hw : OnlyIn us (m s₀)) (h : Run step s₀ tr s) (ht : ∀ t ∈ tr, Takes (m t.pre) (m t.post)) :
    OnlyIn us (m s) ∧ tr.length + ∑ u ∈ us, m s u ≤ ∑ u ∈ us, m s₀ u := by
  induction h with
  | nil => exact ⟨hw, by simp⟩
  | @snoc tr s a s' _ _ ih =>
    obtain ⟨hw₁, hle⟩ := ih fun t h => ht t (List.mem_append_left _ h)
    have htakes : Takes (m s) (m s') := ht ⟨s, a, s'⟩ (List.mem_append_right _ List.mem_cons_self)
    obtain ⟨hw₂, hlt⟩ := htakes.sum_lt hw₁
    refine ⟨hw₂, ?_⟩
    rw [List.length_append, List.length_singleton]
    omega

end PortingKit.Lib
