import Mathlib.Data.List.Basic
/-!
# Loops

`loop` runs `while (cond) body` for a bounded number of rounds. A loop that ends
has one result, whatever bound it is given (`loop_mono`), so a result is stated
for every large enough bound. `loop_consume` is the rule for a loop that works
off a list, `loop_map` compares two loops, `Ends` is for loops that may not end.
-/

namespace PortingKit.Lib

variable {S β : Type} {cond : S → Bool} {body : S → Option S}

/-- The state after the loop, `none` where the body faults or the rounds run out. -/
def loop (cond : S → Bool) (body : S → Option S) : Nat → S → Option S
  | 0, s => if cond s then none else some s
  | fuel + 1, s => if cond s then body s >>= loop cond body fuel else some s

theorem loop_stop {s : S} (h : cond s = false) (fuel : Nat) : loop cond body fuel s = some s := by
  cases fuel <;> simp [loop, h]

theorem loop_round {s s' : S} (h : cond s = true) (hb : body s = some s') (fuel : Nat) :
    loop cond body (fuel + 1) s = loop cond body fuel s' := by
  simp [loop, h, hb]

/-- More rounds do not change the result. -/
theorem loop_mono {s s' : S} {m n : Nat} (hmn : m ≤ n) (h : loop cond body m s = some s') :
    loop cond body n s = some s' := by
  induction m generalizing n s with
  | zero =>
    unfold loop at h
    split at h
    · cases h
    · rename_i hc
      cases h
      exact loop_stop (by simpa using hc) n
  | succ m ih =>
    obtain ⟨k, rfl⟩ : ∃ k, n = k + 1 := ⟨n - 1, by omega⟩
    unfold loop at h ⊢
    split at h
    · rename_i hc
      obtain ⟨s₁, hb, hl⟩ := Option.bind_eq_some_iff.1 h
      rw [if_pos hc, Option.bind_eq_bind, hb, Option.bind_some]
      exact ih (by omega) hl
    · rename_i hc
      rwa [if_neg hc]

/-- A loop over the images of another loop's states. -/
theorem loop_map {S' : Type} {cond' : S' → Bool} {body' : S' → Option S'} (f : S → S')
    (hc : ∀ s, cond' (f s) = cond s) (hb : ∀ s, body' (f s) = (body s).map f) (fuel : Nat) (s : S) :
    loop cond' body' fuel (f s) = (loop cond body fuel s).map f := by
  induction fuel generalizing s with
  | zero =>
    unfold loop
    rw [hc]
    split <;> rfl
  | succ fuel ih =>
    unfold loop
    rw [hc, hb]
    split
    · cases h : body s with
      | none => rfl
      | some s' => exact ih s'
    · rfl

/-- A loop each of whose rounds takes one off a list, and which stops at the
end of it, ends where the invariant holds of the empty list. -/
theorem loop_consume (I : List β → S → Prop) (hstop : ∀ s, I [] s → cond s = false)
    (hround : ∀ x xs s, I (x :: xs) s → cond s = true ∧ ∃ s', body s = some s' ∧ I xs s')
    (xs : List β) (s : S) (h : I xs s) :
    ∃ s', I [] s' ∧ ∀ fuel, xs.length ≤ fuel → loop cond body fuel s = some s' := by
  induction xs generalizing s with
  | nil => exact ⟨s, h, fun fuel _ => loop_stop (hstop s h) fuel⟩
  | cons x xs ih =>
    obtain ⟨hc, s₁, hb, h₁⟩ := hround x xs s h
    obtain ⟨s', h', hl⟩ := ih s₁ h₁
    refine ⟨s', h', fun fuel hf => ?_⟩
    apply loop_mono hf
    rw [List.length_cons, loop_round hc hb]
    exact hl xs.length (Nat.le_refl _)

/-! ## Whether a loop ends -/

/-- The loop ends in `r` if it is given enough rounds. -/
def Ends (cond : S → Bool) (body : S → Option S) (s r : S) : Prop := ∃ fuel, loop cond body fuel s = some r

theorem ends_stop {s r : S} (h : cond s = false) : Ends cond body s r ↔ r = s := by
  unfold Ends
  simp only [loop_stop h, Option.some.injEq, exists_const]
  exact eq_comm

theorem ends_round {s s' r : S} (h : cond s = true) (hb : body s = some s') :
    Ends cond body s r ↔ Ends cond body s' r := by
  constructor
  · rintro ⟨fuel, hl⟩
    cases fuel with
    | zero => simp [loop, h] at hl
    | succ fuel => exact ⟨fuel, by rwa [loop_round h hb] at hl⟩
  · rintro ⟨fuel, hl⟩
    exact ⟨fuel + 1, by rwa [loop_round h hb]⟩

/-- A loop whose next round faults does not end. -/
theorem not_ends_fault {s r : S} (h : cond s = true) (hb : body s = none) : ¬ Ends cond body s r := by
  rintro ⟨fuel, hl⟩
  cases fuel <;> simp [loop, h, hb] at hl

end PortingKit.Lib
