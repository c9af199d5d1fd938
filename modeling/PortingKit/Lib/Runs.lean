import Mathlib.Data.List.Basic
/-!
# Runs of a transition system

A `Run` records every transition it took, with the states around it, so a
property of whole histories is a property of a list. `Run.inv` carries an
invariant along a run; `Run.forall_iff` compares a property of the transitions
with a condition on the states the actions are taken in.
-/

namespace PortingKit.Lib

universe u

/-- Where a list taken apart ends. -/
theorem snoc_eq_append_cons {α : Type u} {l l₁ l₂ : List α} {a b : α} :
    l ++ [a] = l₁ ++ b :: l₂ ↔ l = l₁ ∧ a = b ∧ l₂ = [] ∨ ∃ l₃, l = l₁ ++ b :: l₃ ∧ l₂ = l₃ ++ [a] := by
  constructor
  · intro h
    rcases List.eq_nil_or_concat l₂ with rfl | ⟨l₃, c, rfl⟩
    · obtain ⟨rfl, hab⟩ := List.append_inj' h rfl
      exact .inl ⟨rfl, List.singleton_inj.1 hab, rfl⟩
    · rw [List.concat_eq_append, ← List.cons_append, ← List.append_assoc] at h
      obtain ⟨rfl, hac⟩ := List.append_inj' h rfl
      rw [List.singleton_inj] at hac
      exact .inr ⟨l₃, rfl, by rw [hac, List.concat_eq_append]⟩
  · rintro (⟨rfl, rfl, rfl⟩ | ⟨l₃, rfl, rfl⟩)
    · rfl
    · simp

/-- One transition: the state before, the action, the state after. -/
structure Tr (S : Type u) (A : Type u) where
  pre : S
  act : A
  post : S

/-- Finite runs from `s₀`: the transitions in order, and the last state. -/
inductive Run {S : Type u} {A : Type u} (step : S → A → S → Prop) (s₀ : S) : List (Tr S A) → S → Prop
  | nil : Run step s₀ [] s₀
  | snoc {tr s a s'} : Run step s₀ tr s → step s a s' → Run step s₀ (tr ++ [⟨s, a, s'⟩]) s'

variable {S : Type u} {A : Type u} {step : S → A → S → Prop} {s₀ s : S} {tr : List (Tr S A)}

/-- The states some run from `s₀` ends in. -/
def Reachable (step : S → A → S → Prop) (s₀ s : S) : Prop := ∃ tr, Run step s₀ tr s

theorem Reachable.refl : Reachable step s₀ s₀ := ⟨[], .nil⟩

theorem Reachable.snoc {a : A} {s' : S} (h : Reachable step s₀ s) (hs : step s a s') : Reachable step s₀ s' := by
  obtain ⟨tr, hr⟩ := h
  exact ⟨_, hr.snoc hs⟩

namespace Run

/-! ## Invariants -/

/-- An invariant kept by every step taken where `cond` holds, along a run
whose steps all meet `cond`. -/
theorem inv_of_cond (I : S → Prop) (cond : S → A → Prop) (h0 : I s₀)
    (hs : ∀ s a s', I s → cond s a → step s a s' → I s') (h : Run step s₀ tr s)
    (hc : ∀ t ∈ tr, cond t.pre t.act) :
    I s ∧ ∀ t ∈ tr, I t.pre ∧ step t.pre t.act t.post ∧ I t.post := by
  induction h with
  | nil => exact ⟨h0, by simp⟩
  | @snoc tr s a s' hr hst ih =>
    obtain ⟨hi, ht⟩ := ih fun t h => hc t (List.mem_append_left _ h)
    have hi' := hs s a s' hi (hc ⟨s, a, s'⟩ (by simp)) hst
    refine ⟨hi', fun t h => ?_⟩
    rcases List.mem_append.1 h with h | h
    · exact ht t h
    · rw [List.mem_singleton] at h; subst h; exact ⟨hi, hst, hi'⟩

/-- An invariant kept by every step. -/
theorem inv (I : S → Prop) (h0 : I s₀) (hs : ∀ s a s', I s → step s a s' → I s') (h : Run step s₀ tr s) :
    I s ∧ ∀ t ∈ tr, I t.pre ∧ step t.pre t.act t.post ∧ I t.post :=
  h.inv_of_cond I (fun _ _ => True) h0 (fun s a s' hi _ => hs s a s' hi) (fun _ _ => trivial)

/-- An invariant that may also look at the transitions taken so far. -/
theorem inv_history (I : List (Tr S A) → S → Prop) (h0 : I [] s₀)
    (hs : ∀ tr s a s', I tr s → step s a s' → I (tr ++ [⟨s, a, s'⟩]) s') (h : Run step s₀ tr s) : I tr s := by
  induction h with
  | nil => exact h0
  | snoc _ hst ih => exact hs _ _ _ _ ih hst

/-- If every step taken where `cond` holds is, seen through `abs`, a step of another
system or none, then what a run of such steps ends in is reached there too. -/
theorem simulate {B C : Type u} {step' : B → C → B → Prop} (abs : S → B) (I : S → Prop) (cond : S → A → Prop) (h0 : I s₀)
    (hs : ∀ s a s', I s → Reachable step' (abs s₀) (abs s) → cond s a → step s a s' →
      I s' ∧ (abs s' = abs s ∨ ∃ b, step' (abs s) b (abs s')))
    (h : Run step s₀ tr s) (hc : ∀ t ∈ tr, cond t.pre t.act) : I s ∧ Reachable step' (abs s₀) (abs s) := by
  refine (h.inv_of_cond (fun s => I s ∧ Reachable step' (abs s₀) (abs s)) cond ⟨h0, .refl⟩ ?_ hc).1
  rintro s a s' ⟨hi, hr⟩ ha hst
  obtain ⟨hi', hsame | ⟨b, hb⟩⟩ := hs s a s' hi hr ha hst
  · exact ⟨hi', hsame ▸ hr⟩
  · exact ⟨hi', hr.snoc hb⟩

/-- Every transition of a run is a step of it. -/
theorem steps (h : Run step s₀ tr s) : ∀ t ∈ tr, step t.pre t.act t.post := fun t ht =>
  ((h.inv (fun _ => True) trivial fun _ _ _ _ _ => trivial).2 t ht).2.1

/-- If, from states satisfying `I`, a step meets `P` exactly when it is taken
where `cond` holds, then a run's transitions all meet `P` exactly when they are
all taken where `cond` holds. `I` need only survive steps that meet `cond`. -/
theorem forall_iff (I : S → Prop) (cond : S → A → Prop) (P : Tr S A → Prop) (h0 : I s₀)
    (hs : ∀ s a s', I s → cond s a → step s a s' → I s')
    (hP : ∀ s a s', I s → step s a s' → (P ⟨s, a, s'⟩ ↔ cond s a)) (h : Run step s₀ tr s) :
    (∀ t ∈ tr, P t) ↔ ∀ t ∈ tr, cond t.pre t.act := by
  induction h with
  | nil => simp
  | @snoc tr s a s' hr hst ih =>
    simp only [List.mem_append, List.mem_singleton, or_imp, forall_and, forall_eq, ih]
    apply and_congr_right
    intro hc
    exact hP s a s' (hr.inv_of_cond I cond h0 hs hc).1 hst

/-- A property `B` of the history holds after every transition of a run exactly
when all transitions are taken where `cond` holds, if a step from where `B`
holds leads to where `B` holds exactly when `cond` does. -/
theorem forall_prefix_iff (B : List (Tr S A) → S → Prop) (cond : Tr S A → Prop) (h0 : B [] s₀)
    (hs : ∀ tr s a s', Run step s₀ tr s → B tr s → step s a s' →
      (B (tr ++ [⟨s, a, s'⟩]) s' ↔ cond ⟨s, a, s'⟩)) (h : Run step s₀ tr s) :
    (∀ tr₁ t tr₂, tr = tr₁ ++ t :: tr₂ → B (tr₁ ++ [t]) t.post) ↔ ∀ t ∈ tr, cond t := by
  suffices key : ((∀ tr₁ t tr₂, tr = tr₁ ++ t :: tr₂ → B (tr₁ ++ [t]) t.post) ↔ ∀ t ∈ tr, cond t) ∧
      ((∀ t ∈ tr, cond t) → B tr s) from key.1
  induction h with
  | nil => simp [h0]
  | @snoc tr s a s' hr hst ih =>
    obtain ⟨hiff, hB⟩ := ih
    have hsplit : (∀ tr₁ t tr₂, tr ++ [⟨s, a, s'⟩] = tr₁ ++ t :: tr₂ → B (tr₁ ++ [t]) t.post) ↔
        (∀ tr₁ t tr₂, tr = tr₁ ++ t :: tr₂ → B (tr₁ ++ [t]) t.post) ∧ B (tr ++ [⟨s, a, s'⟩]) s' := by
      constructor
      · intro h
        refine ⟨fun tr₁ t tr₂ e => h tr₁ t (tr₂ ++ [⟨s, a, s'⟩]) ?_, h tr _ [] rfl⟩
        exact snoc_eq_append_cons.2 (.inr ⟨tr₂, e, rfl⟩)
      · rintro ⟨h, hlast⟩ tr₁ t tr₂ e
        rcases snoc_eq_append_cons.1 e with ⟨rfl, rfl, -⟩ | ⟨tr₃, e, -⟩
        · exact hlast
        · exact h tr₁ t tr₃ e
    simp only [hsplit, hiff, List.mem_append, List.mem_singleton, or_imp, forall_and, forall_eq]
    refine ⟨and_congr_right fun hc => hs tr s a s' hr (hB hc) hst, ?_⟩
    exact fun hc => (hs tr s a s' hr (hB hc.1) hst).2 hc.2

/-! ## Taking runs apart and together -/

theorem append {tr' : List (Tr S A)} {s' : S} (h : Run step s₀ tr s) (h' : Run step s tr' s') :
    Run step s₀ (tr ++ tr') s' := by
  induction h' with
  | nil => simpa using h
  | snoc _ hst ih => rw [← List.append_assoc]; exact ih.snoc hst

theorem cons {a : A} {s₁ : S} (hst : step s₀ a s₁) (h : Run step s₁ tr s) :
    Run step s₀ (⟨s₀, a, s₁⟩ :: tr) s := by
  have h1 : Run step s₀ [⟨s₀, a, s₁⟩] s₁ := Run.snoc .nil hst
  exact h1.append h

/-- A run stops at each of its transitions. -/
theorem split {tr₁ tr₂ : List (Tr S A)} {t : Tr S A} (h : Run step s₀ (tr₁ ++ t :: tr₂) s) :
    Run step s₀ tr₁ t.pre ∧ step t.pre t.act t.post ∧ Run step t.post tr₂ s := by
  generalize e : tr₁ ++ t :: tr₂ = l at h
  induction h generalizing tr₂ with
  | nil => simp at e
  | @snoc tr s a s' hr hst ih =>
    rcases snoc_eq_append_cons.1 e.symm with ⟨rfl, rfl, rfl⟩ | ⟨tr₃, rfl, rfl⟩
    · exact ⟨hr, hst, .nil⟩
    · obtain ⟨h1, h2, h3⟩ := ih rfl
      exact ⟨h1, h2, h3.snoc hst⟩

end Run

/-- Something that rules itself out from then on happens at most once. -/
theorem countP_le_one {p : A → Bool} {l : List A}
    (h : ∀ l₁ a l₂, l = l₁ ++ a :: l₂ → p a = true → ∀ b ∈ l₂, p b = false) : l.countP p ≤ 1 := by
  induction l with
  | nil => simp
  | cons a l ih =>
    have hl := ih fun l₁ b l₂ e => h (a :: l₁) b l₂ (by rw [e, List.cons_append])
    by_cases ha : p a = true
    · have h0 : l.countP p = 0 := List.countP_eq_zero.2 fun b hb => by simp [h [] a l rfl ha b hb]
      simp [List.countP_cons_of_pos ha, h0]
    · rwa [List.countP_cons_of_neg ha]

/-! ## Runs of a step function -/

/-- The transitions of a step function along a list of actions. -/
def exec (step : S → A → Option S) : S → List A → Option (List (Tr S A) × S)
  | s, [] => some ([], s)
  | s, a :: as => do
    let s' ← step s a
    let (tr, s'') ← exec step s' as
    return (⟨s, a, s'⟩ :: tr, s'')

theorem run_of_exec (step : S → A → Option S) (s : S) (as : List A) {s' : S} {tr : List (Tr S A)}
    (h : exec step s as = some (tr, s')) :
    Run (fun s a s' => step s a = some s') s tr s' ∧ tr.map (·.act) = as := by
  induction as generalizing s tr with
  | nil =>
    simp only [exec, Option.some.injEq, Prod.mk.injEq] at h
    obtain ⟨rfl, rfl⟩ := h
    exact ⟨.nil, rfl⟩
  | cons a as ih =>
    simp only [exec, Option.bind_eq_bind, Option.bind_eq_some_iff, Option.pure_def, Option.some.injEq,
      Prod.mk.injEq, Prod.exists] at h
    obtain ⟨s₁, hs, tr₁, s₂, he, rfl, rfl⟩ := h
    obtain ⟨hr, hm⟩ := ih s₁ he
    exact ⟨hr.cons hs, by simp [hm]⟩

theorem exec_snoc {step : S → A → Option S} {as : List A} {a : A} {s s' s'' : S} {tr : List (Tr S A)}
    (h : exec step s as = some (tr, s')) (ha : step s' a = some s'') :
    exec step s (as ++ [a]) = some (tr ++ [⟨s', a, s''⟩], s'') := by
  induction as generalizing s tr with
  | nil =>
    simp only [exec, Option.some.injEq, Prod.mk.injEq] at h
    obtain ⟨rfl, rfl⟩ := h
    simp [exec, ha]
  | cons b as ih =>
    simp only [exec, Option.bind_eq_bind, Option.bind_eq_some_iff, Option.pure_def, Option.some.injEq,
      Prod.mk.injEq, Prod.exists] at h
    obtain ⟨s₁, hs, tr₁, s₂, he, rfl, rfl⟩ := h
    simp [exec, hs, ih he]

end PortingKit.Lib
