import PortingKit.Lib.Runs
/-!
# Programs that call out

A `Prog` stops at every call it makes to the outside and goes on with the
answer. `Exec` runs one in a world that answers and changes at each call, and
`Spec` is a rule of pre- and postconditions with a condition on every call; it
passes from a program to what is left of it after a call.
-/

namespace PortingKit.Lib

/-- A program that makes calls `c : C`, answered in `R c`. -/
inductive Prog {C : Type} (R : C → Type) (α : Type) where
  | ret (a : α)
  | call (c : C) (k : R c → Prog R α)

namespace Prog

variable {C : Type} {R : C → Type} {α β W : Type}

def bind (p : Prog R α) (f : α → Prog R β) : Prog R β :=
  match p with
  | .ret a => f a
  | .call c k => .call c fun r => (k r).bind f

instance : Monad (Prog R) where
  pure := .ret
  bind := .bind

def perform (c : C) : Prog R (R c) := .call c .ret

@[simp] theorem pure_eq (a : α) : (pure a : Prog R α) = .ret a := rfl
@[simp] theorem ret_bind (a : α) (f : α → Prog R β) : (.ret a : Prog R α) >>= f = f a := rfl
@[simp] theorem call_bind (c : C) (k : R c → Prog R α) (f : α → Prog R β) :
    (.call c k : Prog R α) >>= f = .call c fun r => k r >>= f := rfl
@[simp] theorem perform_bind (c : C) (f : R c → Prog R β) : perform c >>= f = .call c f := rfl

/-! ## Executions -/

/-- A complete execution, with the worlds before and after each call. -/
inductive Exec (step : W → (c : C) → R c → Option W) :
    Prog R α → W → List (Tr W (Σ c, R c)) → α → W → Prop
  | ret (a : α) (w : W) : Exec step (.ret a) w [] a w
  | call {c : C} {k : R c → Prog R α} {w w₁ w' : W} {r : R c} {tr : List (Tr W (Σ c, R c))} {a : α} :
    step w c r = some w₁ → Exec step (k r) w₁ tr a w' → Exec step (.call c k) w (⟨w, ⟨c, r⟩, w₁⟩ :: tr) a w'

variable {step : W → (c : C) → R c → Option W} {w w' : W} {tr : List (Tr W (Σ c, R c))}

theorem exec_ret {a b : α} : Exec step (.ret a) w tr b w' ↔ tr = [] ∧ b = a ∧ w' = w := by
  constructor
  · rintro ⟨⟩; exact ⟨rfl, rfl, rfl⟩
  · rintro ⟨rfl, rfl, rfl⟩; exact .ret _ _

theorem exec_call {c : C} {k : R c → Prog R α} {a : α} :
    Exec step (.call c k) w tr a w' ↔
      ∃ r w₁ tr', step w c r = some w₁ ∧ Exec step (k r) w₁ tr' a w' ∧ tr = ⟨w, ⟨c, r⟩, w₁⟩ :: tr' := by
  constructor
  · rintro ⟨⟩; exact ⟨_, _, _, ‹_›, ‹_›, rfl⟩
  · rintro ⟨r, w₁, tr', hs, he, rfl⟩; exact .call hs he

/-- A call that may be answered in any way. -/
theorem exec_call_any {c : C} {k : R c → Prog R α} {a : α} {f : R c → W} (hf : ∀ r, step w c r = some (f r))
    (h : Exec step (.call c k) w tr a w') :
    ∃ r tr', Exec step (k r) (f r) tr' a w' ∧ tr = ⟨w, ⟨c, r⟩, f r⟩ :: tr' := by
  obtain ⟨r, w₁, tr', hs, he, rfl⟩ := exec_call.1 h
  rw [hf r, Option.some.injEq] at hs
  subst hs
  exact ⟨r, tr', he, rfl⟩

/-- An execution of two programs in a row. -/
theorem exec_bind {p : Prog R α} {f : α → Prog R β} {b : β} (h : Exec step (p >>= f) w tr b w') :
    ∃ a w₁ tr₁ tr₂, Exec step p w tr₁ a w₁ ∧ Exec step (f a) w₁ tr₂ b w' ∧ tr = tr₁ ++ tr₂ := by
  induction p generalizing w tr with
  | ret a => exact ⟨a, w, [], tr, .ret a w, h, rfl⟩
  | call c k ih =>
    obtain ⟨r, w₁, tr', hs, he, rfl⟩ := exec_call.1 h
    obtain ⟨a, w₂, tr₁, tr₂, h₁, h₂, rfl⟩ := ih r he
    exact ⟨a, w₂, _, tr₂, .call hs h₁, h₂, rfl⟩

/-- Where every call has an answer, every program has an execution. -/
theorem exec_exists (htotal : ∀ w c, ∃ r w', step w c r = some w') (p : Prog R α) (w : W) :
    ∃ tr a w', Exec step p w tr a w' := by
  induction p generalizing w with
  | ret a => exact ⟨[], a, w, .ret a w⟩
  | call c k ih =>
    obtain ⟨r, w₁, hs⟩ := htotal w c
    obtain ⟨tr, a, w', he⟩ := ih r w₁
    exact ⟨_, a, w', .call hs he⟩

/-! ## Specifications -/

/-- Every execution makes its calls where `ok` allows them and ends in `Q`. -/
def Spec (step : W → (c : C) → R c → Option W) (ok : W → C → Prop) (p : Prog R α) (w : W) (Q : α → W → Prop) :
    Prop :=
  ∀ tr a w', Exec step p w tr a w' → (∀ t ∈ tr, ok t.pre t.act.1) ∧ Q a w'

namespace Spec

variable {ok : W → C → Prop} {Q : α → W → Prop}

theorem ret {a : α} (h : Spec step ok (.ret a) w Q) : Q a w := (h [] a w (.ret a w)).2

theorem of_ret {a : α} (h : Q a w) : Spec step ok (.ret a) w Q := by
  intro tr b w' he
  obtain ⟨rfl, rfl, rfl⟩ := exec_ret.1 he
  exact ⟨by simp, h⟩

/-- A call that is allowed, with what is left specified for every answer. -/
theorem of_call {c : C} {k : R c → Prog R α} (hok : ok w c)
    (hk : ∀ r w', step w c r = some w' → Spec step ok (k r) w' Q) : Spec step ok (.call c k) w Q := by
  intro tr a w' he
  obtain ⟨r, w₁, tr', hs, he', rfl⟩ := exec_call.1 he
  obtain ⟨hok', hQ⟩ := hk r w₁ hs tr' a w' he'
  exact ⟨List.forall_mem_cons.2 ⟨hok, hok'⟩, hQ⟩

theorem mono {p : Prog R α} {Q' : α → W → Prop} (hp : Spec step ok p w Q) (hQ : ∀ a w', Q a w' → Q' a w') :
    Spec step ok p w Q' := fun tr a w' he => ⟨(hp tr a w' he).1, hQ a w' (hp tr a w' he).2⟩

/-- Two programs in a row, the second specified from wherever the first ends. -/
theorem bind {p : Prog R α} {f : α → Prog R β} {Q' : β → W → Prop} (hp : Spec step ok p w Q)
    (hf : ∀ a w', Q a w' → Spec step ok (f a) w' Q') : Spec step ok (p >>= f) w Q' := by
  intro tr b w' he
  obtain ⟨a, w₁, tr₁, tr₂, h₁, h₂, rfl⟩ := exec_bind he
  obtain ⟨hok₁, hQ⟩ := hp tr₁ a w₁ h₁
  obtain ⟨hok₂, hQ'⟩ := hf a w₁ hQ tr₂ b w' h₂
  exact ⟨List.forall_mem_append.2 ⟨hok₁, hok₂⟩, hQ'⟩

/-- The call about to be made is allowed. -/
theorem call_ok {c : C} {k : R c → Prog R α} (h : Spec step ok (.call c k) w Q)
    (htotal : ∀ w c, ∃ r w', step w c r = some w') : ok w c := by
  obtain ⟨tr, a, w', he⟩ := exec_exists htotal (.call c k) w
  have hok := (h tr a w' he).1
  obtain ⟨r, w₁, tr', -, -, rfl⟩ := exec_call.1 he
  exact hok ⟨w, ⟨c, r⟩, w₁⟩ List.mem_cons_self

/-- What is left after a call meets the specification in the world after it. -/
theorem call_rest {c : C} {k : R c → Prog R α} {r : R c} (h : Spec step ok (.call c k) w Q)
    (hs : step w c r = some w') : Spec step ok (k r) w' Q := fun tr a w'' he => by
  obtain ⟨hok, hQ⟩ := h _ a w'' (.call hs he)
  exact ⟨fun t ht => hok t (List.mem_cons_of_mem _ ht), hQ⟩

end Spec

end Prog

end PortingKit.Lib
