import Mathlib.Logic.Function.Basic
import PortingKit.Lib.Runs
/-!
# Lazy initialisation

A party that needs the value of a key looks whether there is one; if not it makes
one and stores it, each in a step of its own. Values are numbered as they are
made. As long as no party finds that a key has no value while another makes one,
every value made is kept; whenever one does, a value will be lost.
-/

namespace PortingKit.Lib

structure Lazy (T K : Type) where
  val : K → Option ℕ
  made : ℕ
  /-- The key a party makes a value for, and the value when it has it. -/
  making : T → Option (K × Option ℕ)

namespace Lazy

inductive Act (T K : Type) where
  | find (t : T) (k : K)
  | make (t : T)
  | store (t : T)

variable {T K : Type} [DecidableEq T] [DecidableEq K]

def init : Lazy T K := ⟨fun _ => none, 0, fun _ => none⟩

inductive Step (s : Lazy T K) : Act T K → Lazy T K → Prop
  | find {t : T} {k : K} : s.making t = none → s.val k = none →
    Step s (.find t k) { s with making := Function.update s.making t (some (k, none)) }
  | make {t : T} {k : K} : s.making t = some (k, none) →
    Step s (.make t) { s with made := s.made + 1, making := Function.update s.making t (some (k, some s.made)) }
  | store {t : T} {k : K} {v : ℕ} : s.making t = some (k, some v) →
    Step s (.store t) { s with val := Function.update s.val k (some v), making := Function.update s.making t none }

/-- Nobody makes a value for the key that is found to have none. -/
def Alone (s : Lazy T K) : Act T K → Prop
  | .find _ k => ∀ t v, s.making t ≠ some (k, v)
  | _ => True

def Makes (s : Lazy T K) (t : T) (k : K) : Prop := ∃ v, s.making t = some (k, v)

/-- Where a value is: with a party that has just made it, or at a key. -/
def At (s : Lazy T K) (v : ℕ) : T ⊕ K → Prop
  | .inl t => ∃ k, s.making t = some (k, some v)
  | .inr k => s.val k = some v

variable {s s' : Lazy T K}

/-! ## No value in two places -/

structure Named (s : Lazy T K) : Prop where
  lt : ∀ v p, s.At v p → v < s.made
  sole : ∀ v p p', s.At v p → s.At v p' → p = p'

omit [DecidableEq T] [DecidableEq K] in
theorem named_init : Named (init : Lazy T K) where
  lt _ p h := by
    cases p with
    | inl t =>
      obtain ⟨k, hk⟩ := h
      cases hk
    | inr k => cases h
  sole _ p _ h := by
    cases p with
    | inl t =>
      obtain ⟨k, hk⟩ := h
      cases hk
    | inr k => cases h

omit [DecidableEq K] in
theorem at_find {t : T} {k : K} (ht : s.making t = none) {v : ℕ} {p : T ⊕ K} :
    At { s with making := Function.update s.making t (some (k, none)) } v p ↔ s.At v p := by
  cases p with
  | inl t' =>
    by_cases e : t' = t
    · subst e
      simp [At, ht]
    · simp [At, e]
  | inr k' => rfl

omit [DecidableEq K] in
theorem at_make {t : T} {k : K} (ht : s.making t = some (k, none)) {v : ℕ} {p : T ⊕ K} :
    At { s with made := s.made + 1, making := Function.update s.making t (some (k, some s.made)) } v p ↔
      s.At v p ∨ v = s.made ∧ p = .inl t := by
  cases p with
  | inl t' =>
    by_cases e : t' = t
    · subst e
      simp [At, ht, eq_comm]
    · simp [At, e]
  | inr k' => simp [At]

theorem at_store {t : T} {k : K} {v₀ : ℕ} {v : ℕ} {p : T ⊕ K} :
    At { s with val := Function.update s.val k (some v₀), making := Function.update s.making t none } v p ↔
      s.At v p ∧ p ≠ .inl t ∧ p ≠ .inr k ∨ v = v₀ ∧ p = .inr k := by
  cases p with
  | inl t' =>
    by_cases e : t' = t
    · subst e
      simp [At]
    · simp [At, e]
  | inr k' =>
    by_cases e : k' = k
    · subst e
      simp [At, eq_comm]
    · simp [At, e]

theorem named_step {a : Act T K} (h : Named s) (hst : Step s a s') : Named s' := by
  cases hst with
  | find ht _ =>
    refine ⟨fun v p hp => h.lt v p ((at_find ht).1 hp), fun v p p' hp hp' => ?_⟩
    exact h.sole v p p' ((at_find ht).1 hp) ((at_find ht).1 hp')
  | @make t k ht =>
    refine ⟨fun v p hp => ?_, fun v p p' hp hp' => ?_⟩
    · rcases (at_make ht).1 hp with hold | ⟨rfl, -⟩
      · exact Nat.lt_succ_of_lt (h.lt v p hold)
      · exact Nat.lt_succ_self _
    · rcases (at_make ht).1 hp with hold | ⟨hv, rfl⟩ <;> rcases (at_make ht).1 hp' with hold' | ⟨hv', rfl⟩
      · exact h.sole v p p' hold hold'
      · exact absurd (h.lt v p hold) (by omega)
      · exact absurd (h.lt v p' hold') (by omega)
      · rfl
  | @store t k v₀ ht =>
    have hwith : s.At v₀ (.inl t) := ⟨k, ht⟩
    refine ⟨fun v p hp => ?_, fun v p p' hp hp' => ?_⟩
    · rcases at_store.1 hp with ⟨hold, -⟩ | ⟨rfl, -⟩
      · exact h.lt v p hold
      · exact h.lt v _ hwith
    · rcases at_store.1 hp with ⟨hold, hne, -⟩ | ⟨hv, rfl⟩ <;> rcases at_store.1 hp' with ⟨hold', hne', -⟩ | ⟨hv', rfl⟩
      · exact h.sole v p p' hold hold'
      · exact absurd (h.sole v p _ hold (hv' ▸ hwith)) hne
      · exact absurd (h.sole v p' _ hold' (hv ▸ hwith)) hne'
      · rfl

/-! ## No value lost -/

/-- At most one party makes a value for a key, while it has none, and no value
that was made is lost. -/
structure Tidy (s : Lazy T K) : Prop where
  sole : ∀ t t' k, s.Makes t k → s.Makes t' k → t = t'
  vacant : ∀ t k, s.Makes t k → s.val k = none
  placed : ∀ v < s.made, ∃ p, s.At v p

omit [DecidableEq T] [DecidableEq K] in
theorem tidy_init : Tidy (init : Lazy T K) where
  sole _ _ _ h := by
    obtain ⟨v, hv⟩ := h
    cases hv
  vacant _ _ _ := rfl
  placed _ h := absurd h (Nat.not_lt_zero _)

omit [DecidableEq K] in
theorem makes_find {t t' : T} {k k' : K} (ht : s.making t = none) :
    Makes { s with making := Function.update s.making t (some (k, none)) } t' k' ↔ s.Makes t' k' ∨ t' = t ∧ k' = k := by
  by_cases e : t' = t
  · subst e
    simp [Makes, ht, eq_comm]
  · simp [Makes, e]

omit [DecidableEq K] in
theorem makes_make {t t' : T} {k k' : K} (ht : s.making t = some (k, none)) :
    Makes { s with made := s.made + 1, making := Function.update s.making t (some (k, some s.made)) } t' k' ↔
      s.Makes t' k' := by
  by_cases e : t' = t
  · subst e
    simp [Makes, ht]
  · simp [Makes, e]

theorem makes_store {t t' : T} {k k' : K} {v : ℕ} :
    Makes { s with val := Function.update s.val k (some v), making := Function.update s.making t none } t' k' ↔
      s.Makes t' k' ∧ t' ≠ t := by
  by_cases e : t' = t
  · subst e
    simp [Makes]
  · simp [Makes, e]

omit [DecidableEq K] in
theorem tidy_find {t : T} {k : K} (ht : s.making t = none) (hk : s.val k = none) :
    Tidy { s with making := Function.update s.making t (some (k, none)) } ↔ Tidy s ∧ s.Alone (.find t k) := by
  constructor
  · intro h
    refine ⟨⟨fun t₁ t₂ k' h₁ h₂ => ?_, fun t' k' h' => ?_, fun v hv => ?_⟩, fun t' v h' => ?_⟩
    · exact h.sole t₁ t₂ k' ((makes_find ht).2 (.inl h₁)) ((makes_find ht).2 (.inl h₂))
    · exact h.vacant t' k' ((makes_find ht).2 (.inl h'))
    · obtain ⟨p, hp⟩ := h.placed v hv
      exact ⟨p, (at_find ht).1 hp⟩
    · obtain rfl := h.sole t' t k ((makes_find ht).2 (.inl ⟨v, h'⟩)) ((makes_find ht).2 (.inr ⟨rfl, rfl⟩))
      rw [ht] at h'
      cases h'
  · rintro ⟨h, halone⟩
    refine ⟨fun t₁ t₂ k' h₁ h₂ => ?_, fun t' k' h' => ?_, fun v hv => ?_⟩
    · rcases (makes_find ht).1 h₁ with hold₁ | ⟨e₁, hk₁⟩ <;> rcases (makes_find ht).1 h₂ with hold₂ | ⟨e₂, hk₂⟩
      · exact h.sole t₁ t₂ k' hold₁ hold₂
      · obtain ⟨v, hv⟩ := hold₁
        exact absurd (hk₂ ▸ hv) (halone t₁ v)
      · obtain ⟨v, hv⟩ := hold₂
        exact absurd (hk₁ ▸ hv) (halone t₂ v)
      · exact e₁.trans e₂.symm
    · rcases (makes_find ht).1 h' with h' | ⟨-, rfl⟩
      · exact h.vacant t' k' h'
      · exact hk
    · obtain ⟨p, hp⟩ := h.placed v hv
      exact ⟨p, (at_find ht).2 hp⟩

omit [DecidableEq K] in
theorem tidy_make {t : T} {k : K} (ht : s.making t = some (k, none)) :
    Tidy { s with made := s.made + 1, making := Function.update s.making t (some (k, some s.made)) } ↔ Tidy s := by
  constructor
  · intro h
    refine ⟨fun t₁ t₂ k' h₁ h₂ => h.sole t₁ t₂ k' ((makes_make ht).2 h₁) ((makes_make ht).2 h₂),
      fun t' k' h' => h.vacant t' k' ((makes_make ht).2 h'), fun v hv => ?_⟩
    obtain ⟨p, hp⟩ := h.placed v (Nat.lt_succ_of_lt hv)
    rcases (at_make ht).1 hp with hold | ⟨hnew, -⟩
    · exact ⟨p, hold⟩
    · exact absurd hv (by omega)
  · intro h
    refine ⟨fun t₁ t₂ k' h₁ h₂ => h.sole t₁ t₂ k' ((makes_make ht).1 h₁) ((makes_make ht).1 h₂),
      fun t' k' h' => h.vacant t' k' ((makes_make ht).1 h'), fun v hv => ?_⟩
    rcases Nat.lt_succ_iff_lt_or_eq.1 hv with hlt | heq
    · obtain ⟨p, hp⟩ := h.placed v hlt
      exact ⟨p, (at_make ht).2 (.inl hp)⟩
    · exact ⟨.inl t, (at_make ht).2 (.inr ⟨heq, rfl⟩)⟩

theorem tidy_store {t : T} {k : K} {v₀ : ℕ} (hn : Named s) (ht : s.making t = some (k, some v₀)) :
    Tidy { s with val := Function.update s.val k (some v₀), making := Function.update s.making t none } ↔ Tidy s := by
  have hwith : s.At v₀ (.inl t) := ⟨k, ht⟩
  have hmakes : s.Makes t k := ⟨_, ht⟩
  constructor
  · intro h
    -- Who else makes one for the key will find that it has one.
    have hother : ∀ t', t' ≠ t → ¬ s.Makes t' k := fun t' hne h' => by
      have hvacant := h.vacant t' k (makes_store.2 ⟨h', hne⟩)
      simp at hvacant
    have hkey : ∀ t' k', s.Makes t' k' → t' = t ∧ k' = k ∨ t' ≠ t ∧ k' ≠ k := by
      intro t' k' h'
      by_cases e : t' = t
      · subst e
        obtain ⟨v, hv⟩ := h'
        rw [ht, Option.some.injEq, Prod.mk.injEq] at hv
        exact .inl ⟨rfl, hv.1.symm⟩
      · exact .inr ⟨e, fun e' => hother t' e (e' ▸ h')⟩
    refine ⟨fun t₁ t₂ k' h₁ h₂ => ?_, fun t' k' h' => ?_, fun v hv => ?_⟩
    · rcases hkey t₁ k' h₁ with ⟨rfl, rfl⟩ | ⟨hne₁, hk₁⟩ <;> rcases hkey t₂ k' h₂ with ⟨rfl, hk₂⟩ | ⟨hne₂, hk₂⟩
      · rfl
      · exact absurd rfl hk₂
      · exact absurd hk₂ hk₁
      · exact h.sole t₁ t₂ k' (makes_store.2 ⟨h₁, hne₁⟩) (makes_store.2 ⟨h₂, hne₂⟩)
    · rcases hkey t' k' h' with ⟨rfl, rfl⟩ | ⟨hne, hk⟩
      · -- A value the key had before would be nowhere now.
        by_contra hsome
        obtain ⟨v₁, hv₁⟩ := Option.ne_none_iff_exists'.1 hsome
        have hat : s.At v₁ (.inr k') := hv₁
        obtain ⟨p, hp⟩ := h.placed v₁ (hn.lt v₁ _ hat)
        rcases at_store.1 hp with ⟨hold, -, hne⟩ | ⟨rfl, -⟩
        · exact hne (hn.sole v₁ p _ hold hat)
        · cases hn.sole v₁ _ _ hwith hat
      · have hvacant := h.vacant t' k' (makes_store.2 ⟨h', hne⟩)
        simpa [Function.update_of_ne hk] using hvacant
    · obtain ⟨p, hp⟩ := h.placed v hv
      rcases at_store.1 hp with ⟨hold, -⟩ | ⟨rfl, -⟩
      · exact ⟨p, hold⟩
      · exact ⟨.inl t, hwith⟩
  · intro h
    refine ⟨fun t₁ t₂ k' h₁ h₂ => h.sole t₁ t₂ k' (makes_store.1 h₁).1 (makes_store.1 h₂).1, fun t' k' h' => ?_,
      fun v hv => ?_⟩
    · obtain ⟨h', hne⟩ := makes_store.1 h'
      have hk : k' ≠ k := fun e => hne (h.sole t' t k (e ▸ h') hmakes)
      simpa [Function.update_of_ne hk] using h.vacant t' k' h'
    · obtain ⟨p, hp⟩ := h.placed v hv
      by_cases hpt : p = .inl t
      · subst hpt
        obtain ⟨k', hk'⟩ := hp
        rw [ht] at hk'
        cases hk'
        exact ⟨.inr k, at_store.2 (.inr ⟨rfl, rfl⟩)⟩
      · refine ⟨p, at_store.2 (.inl ⟨hp, hpt, fun e => ?_⟩)⟩
        subst e
        have hnone := h.vacant t k hmakes
        have hsome : s.val k = some v := hp
        rw [hnone] at hsome
        cases hsome

/-- Tidy is left by overlapping steps alone, and for good. -/
theorem tidy_step {a : Act T K} (hn : Named s) (hst : Step s a s') : Tidy s' ↔ Tidy s ∧ s.Alone a := by
  cases hst with
  | find ht hk => exact tidy_find ht hk
  | make ht => exact (tidy_make ht).trans (and_iff_left trivial).symm
  | store ht => exact (tidy_store hn ht).trans (and_iff_left trivial).symm

/-! ## Runs -/

end Lazy

end PortingKit.Lib
