import Mathlib.Data.Finset.Card
import PortingKit.Driver.NVIDIADriver
/-!
# NVIDIADriverUserClient.cpp

Any number of user clients on one driver object, and the owner of the driver. A
step begins a call of one client, answers one call it makes itself, or ends it,
so the calls of different clients interleave; one client is in one call at a
time. `P` is the type of object pointers.
-/
open PortingKit.Lib
open PortingKit.Lib.Prog (perform perform_bind call_bind Spec)

namespace PortingKit.Driver.UserClient

def kIOReturnBadArgument : KernReturn := 0xe00002c2

@[simp] theorem badArgument_ne_success : kIOReturnBadArgument ≠ kIOReturnSuccess := by decide

inductive Call (P : Type) where
  | superInit
  | superStart (provider : P)
  | osDynamicCast (provider : P)
  | retain (driver : P)
  | release (driver : P)
  | superStop (provider : P)
  deriving DecidableEq

variable {I P : Type}

/-- What a call is answered with. -/
abbrev Call.Resp : Call P → Type
  | .superInit => Bool
  | .superStart _ | .superStop _ => KernReturn
  | .osDynamicCast _ => Option P
  | .retain _ | .release _ => Unit

/-- Code of a user client. -/
abbrev Code (P : Type) := Prog (@Call.Resp P)

/-! ## The calls of a client

Each takes the member `m_driver` and answers what it is afterwards. -/

def init (m_driver : Option P) : Code P (Bool × Option P) := do
  let ok ← perform .superInit
  if !ok then
    return (false, m_driver)
  else
    return (true, none)

def start (provider : P) (m_driver : Option P) : Code P (KernReturn × Option P) := do
  let ret ← perform (.superStart provider)
  if ret ≠ kIOReturnSuccess then
    return (ret, m_driver)
  else
    -- A failed cast leaves NULL in `m_driver`.
    let m_driver : Option P ← perform (Call.osDynamicCast provider)
    match m_driver with
    | none => return (kIOReturnBadArgument, none)
    | some driver =>
      let _ ← perform (.retain driver)
      return (kIOReturnSuccess, some driver)

def stop (provider : P) (m_driver : Option P) : Code P (KernReturn × Option P) := do
  if let some driver := m_driver then
    let _ ← perform (.release driver)
  let ret ← perform (.superStop provider)
  return (ret, none)

inductive Request (P : Type) where
  | init
  | start (provider : P)
  | stop (provider : P)

/-- The code of a call, which says whether it succeeded. -/
def Request.code (m_driver : Option P) : Request P → Code P (Bool × Option P)
  | .init => UserClient.init m_driver
  | .start provider => do
    let (ret, m_driver) ← UserClient.start provider m_driver
    return (ret = kIOReturnSuccess, m_driver)
  | .stop provider => do
    let (ret, m_driver) ← UserClient.stop provider m_driver
    return (ret = kIOReturnSuccess, m_driver)

/-! ## Clients on one driver -/

structure Client (P : Type) where
  m_driver : Option P
  /-- `init` has run and succeeded. -/
  inited : Bool
  /-- The call it is in, and what is left of its code. -/
  running : Option (Request P × Code P (Bool × Option P))

structure State (I P : Type) where
  client : I → Client P
  /-- The clients whose Start succeeded and whose Stop has not begun since. -/
  connected : Finset I
  /-- The retain count of the driver. -/
  retainCount : ℕ
  /-- The references that do not belong to clients. -/
  others : ℕ
  /-- The driver has been freed. It stays so, even if the count goes up again. -/
  freed : Bool

inductive Act (I P : Type) where
  | begin (c : I) (req : Request P)
  | call (c : I) (e : Σ c : Call P, c.Resp)
  | finish (c : I)
  | ownerRetain
  | ownerRelease

/-- No client is initialised, and its `m_driver` is whatever is in its memory. -/
def fresh (m_driver : I → Option P) (others : ℕ) : State I P :=
  ⟨fun c => ⟨m_driver c, false, none⟩, ∅, others, others, decide (others = 0)⟩

variable [DecidableEq I]

def State.setClient (s : State I P) (c : I) (x : Client P) : State I P :=
  { s with client := Function.update s.client c x }

/-- A driver is freed when its count reaches zero. -/
def State.setCount (s : State I P) (n : ℕ) : State I P :=
  { s with retainCount := n, freed := s.freed || decide (n = 0) }

/-- A connected client is neither initialised nor started again, and only an
initialised one is started and stopped. -/
def State.MayBegin (s : State I P) (driver : P) (c : I) : Request P → Prop
  | .init => c ∉ s.connected
  | .start provider => (s.client c).inited = true ∧ c ∉ s.connected ∧ provider = driver
  | .stop _ => (s.client c).inited = true

def connectedAtBegin (connected : Finset I) (c : I) : Request P → Finset I
  | .stop _ => connected.erase c
  | .init | .start _ => connected

def connectedAtFinish (connected : Finset I) (c : I) (ok : Bool) : Request P → Finset I
  | .start _ => if ok then insert c connected else connected
  | .init | .stop _ => connected

def initedAtFinish (inited ok : Bool) : Request P → Bool
  | .init => ok
  | .start _ | .stop _ => inited

variable [DecidableEq P]

instance (s : State I P) (driver : P) (c : I) : (req : Request P) → Decidable (s.MayBegin driver c req)
  | .init => inferInstanceAs (Decidable (c ∉ s.connected))
  | .start provider => inferInstanceAs (Decidable ((s.client c).inited = true ∧ c ∉ s.connected ∧ provider = driver))
  | .stop _ => inferInstanceAs (Decidable ((s.client c).inited = true))

/-- What a call does to the retain count of the driver. A cast answers its provider or NULL. -/
def countAfter (driver : P) (n : ℕ) : (c : Call P) → c.Resp → Option ℕ
  | .osDynamicCast provider, r => if r = none ∨ r = some provider then some n else none
  | .retain p, _ => some (if p = driver then n + 1 else n)
  | .release p, _ => some (if p = driver then n - 1 else n)
  | .superInit, _ | .superStart _, _ | .superStop _, _ => some n

def step (driver : P) (s : State I P) : Act I P → Option (State I P)
  | .begin c req =>
    if (s.client c).running.isNone ∧ s.MayBegin driver c req then
      some { s.setClient c { s.client c with running := some (req, req.code (s.client c).m_driver) } with
        connected := connectedAtBegin s.connected c req }
    else none
  | .call c ⟨call, r⟩ =>
    match (s.client c).running with
    | some (req, .call call' k) =>
      if h : call = call' then do
        let n ← countAfter driver s.retainCount call r
        return (s.setClient c { s.client c with running := some (req, k (h ▸ r)) }).setCount n
      else none
    | _ => none
  | .finish c =>
    match (s.client c).running with
    | some (req, .ret (ok, m_driver)) =>
      some { s.setClient c ⟨m_driver, initedAtFinish (s.client c).inited ok req, none⟩ with
        connected := connectedAtFinish s.connected c ok req }
    | _ => none
  | .ownerRetain => some { s.setCount (s.retainCount + 1) with others := s.others + 1 }
  -- The owner gives back only references of its own.
  | .ownerRelease =>
    if 0 < s.others then some { s.setCount (s.retainCount - 1) with others := s.others - 1 } else none

abbrev Step (driver : P) (s : State I P) (a : Act I P) (s' : State I P) : Prop := step driver s a = some s'

/-- What a step does, by cases. -/
theorem step_cases {driver : P} {s s' : State I P} {a : Act I P} (h : Step driver s a s') :
    (∃ c req, a = .begin c req ∧ (s.client c).running = none ∧ s.MayBegin driver c req ∧
      s' = { s.setClient c { s.client c with running := some (req, req.code (s.client c).m_driver) } with
        connected := connectedAtBegin s.connected c req }) ∨
    (∃ c call r req k n, a = .call c ⟨call, r⟩ ∧ (s.client c).running = some (req, .call call k) ∧
      countAfter driver s.retainCount call r = some n ∧
      s' = (s.setClient c { s.client c with running := some (req, k r) }).setCount n) ∨
    (∃ c req ok m_driver, a = .finish c ∧ (s.client c).running = some (req, .ret (ok, m_driver)) ∧
      s' = { s.setClient c ⟨m_driver, initedAtFinish (s.client c).inited ok req, none⟩ with
        connected := connectedAtFinish s.connected c ok req }) ∨
    (a = .ownerRetain ∧ s' = { s.setCount (s.retainCount + 1) with others := s.others + 1 }) ∨
    (a = .ownerRelease ∧ 0 < s.others ∧
      s' = { s.setCount (s.retainCount - 1) with others := s.others - 1 }) := by
  cases a with
  | begin c req =>
    simp only [Step, step, Option.isNone_iff_eq_none, Option.ite_none_right_eq_some, Option.some.injEq] at h
    exact .inl ⟨c, req, rfl, h.1.1, h.1.2, h.2.symm⟩
  | call c e =>
    obtain ⟨call, r⟩ := e
    simp only [Step, step] at h
    split at h
    · rename_i req call' k hrun
      split at h
      · rename_i hc
        subst hc
        simp only [Option.bind_eq_bind, Option.pure_def, Option.bind_eq_some_iff, Option.some.injEq] at h
        obtain ⟨n, hn, rfl⟩ := h
        exact .inr (.inl ⟨c, call, r, req, k, n, rfl, hrun, hn, rfl⟩)
      · cases h
    · cases h
  | finish c =>
    simp only [Step, step] at h
    split at h
    · rename_i req ok m_driver hrun
      rw [Option.some.injEq] at h
      exact .inr (.inr (.inl ⟨c, req, ok, m_driver, rfl, hrun, h.symm⟩))
    · cases h
  | ownerRetain =>
    simp only [Step, step, Option.some.injEq] at h
    exact .inr (.inr (.inr (.inl ⟨rfl, h.symm⟩)))
  | ownerRelease =>
    simp only [Step, step, Option.ite_none_right_eq_some, Option.some.injEq] at h
    exact .inr (.inr (.inr (.inr ⟨rfl, h.1, h.2.symm⟩)))

/-! ## One client

Seen from one client the driver is only held or not held by it. -/

def heldAfter (held : Bool) : (c : Call P) → c.Resp → Option Bool
  | .osDynamicCast provider, r => if r = none ∨ r = some provider then some held else none
  | .retain _, _ => some true
  | .release _, _ => some false
  | .superInit, _ | .superStart _, _ | .superStop _, _ => some held

/-- A client takes its reference while it has none, and gives back only one it has. -/
def Fair (driver : P) (held : Bool) : Call P → Prop
  | .retain p => held = false ∧ p = driver
  | .release p => held = true ∧ p = driver
  | .superInit | .superStart _ | .osDynamicCast _ | .superStop _ => True

omit [DecidableEq I] in
theorem heldAfter_total (held : Bool) (c : Call P) : ∃ r held', heldAfter held c r = some held' := by
  cases c with
  | superInit => exact ⟨true, held, rfl⟩
  | superStart _ => exact ⟨kIOReturnSuccess, held, rfl⟩
  | osDynamicCast _ => exact ⟨none, held, by simp [heldAfter]⟩
  | retain _ => exact ⟨(), true, rfl⟩
  | release _ => exact ⟨(), false, rfl⟩
  | superStop _ => exact ⟨kIOReturnSuccess, held, rfl⟩

/-- What `m_driver` is while the driver is held, or not. -/
def pointer (driver : P) (held : Bool) : Option P := if held then some driver else none

/-- What a call leaves behind. -/
def Request.Done (driver : P) : Request P → Bool × Option P → Bool → Prop
  | .init, (ok, m_driver), held => held = false ∧ (ok = true → m_driver = none)
  | .start _, (ok, m_driver), held => held = ok ∧ m_driver = pointer driver held
  | .stop _, (_, m_driver), held => held = false ∧ m_driver = none

theorem init_spec {driver : P} {m_driver : Option P} :
    Spec heldAfter (Fair driver) (Request.init.code m_driver) false (Request.init.Done driver) := by
  simp only [Request.code, init, perform_bind]
  apply Spec.of_call trivial
  intro ok held hheld
  obtain rfl : false = held := Option.some.inj hheld
  cases ok with
  | false => exact Spec.of_ret ⟨rfl, by simp⟩
  | true => exact Spec.of_ret ⟨rfl, fun _ => rfl⟩

/-- A Start of a client that holds nothing holds the driver exactly if it succeeds. -/
theorem start_spec {driver : P} :
    Spec heldAfter (Fair driver) ((Request.start driver).code none) false ((Request.start driver).Done driver) := by
  simp only [Request.code, start, perform_bind, call_bind]
  apply Spec.of_call trivial
  intro ret held hheld
  obtain rfl : false = held := Option.some.inj hheld
  by_cases hret : ret = kIOReturnSuccess
  · rw [if_neg (not_not.2 hret), call_bind]
    apply Spec.of_call trivial
    intro m_driver held hheld
    simp only [heldAfter, Option.ite_none_right_eq_some, Option.some.injEq] at hheld
    obtain ⟨rfl | rfl, rfl⟩ := hheld
    · exact Spec.of_ret ⟨by simp, rfl⟩
    · apply Spec.of_call ⟨rfl, rfl⟩
      intro _ held hheld
      obtain rfl : true = held := Option.some.inj hheld
      exact Spec.of_ret ⟨by simp, rfl⟩
  · rw [if_pos hret]
    exact Spec.of_ret ⟨by simp [hret], rfl⟩

/-- A Stop lets go of the driver, if the client holds it. -/
theorem stop_spec {driver provider : P} {held : Bool} :
    Spec heldAfter (Fair driver) ((Request.stop provider).code (pointer driver held)) held
      ((Request.stop provider).Done driver) := by
  have hrest : Spec heldAfter (Fair driver)
      (.call (.superStop provider) fun ret => .ret (decide (ret = kIOReturnSuccess), none)) false
      ((Request.stop provider).Done driver) := by
    apply Spec.of_call trivial
    intro ret held hheld
    obtain rfl : false = held := Option.some.inj hheld
    exact Spec.of_ret ⟨rfl, rfl⟩
  cases held with
  | false => exact hrest
  | true =>
    apply Spec.of_call ⟨rfl, rfl⟩
    intro _ held hheld
    obtain rfl : false = held := Option.some.inj hheld
    exact hrest

/-! ## All of them -/

/-- A client between two calls has a driver exactly if it is connected; in a call
it is not connected, and what is left of the call is fair. -/
def Client.Ok (driver : P) (held connected : Bool) (x : Client P) : Prop :=
  match x.running with
  | none => held = connected ∧ (held = true → x.inited = true) ∧ (x.inited = true → x.m_driver = pointer driver held)
  | some (req, code) => connected = false ∧ initedAtFinish x.inited true req = true ∧
    Spec heldAfter (Fair driver) code held (req.Done driver)

/-- The references taken and given back by client `c` itself. -/
def Act.retains (c : I) : Act I P → Bool
  | .call c' ⟨.retain _, _⟩ => c = c'
  | _ => false

def Act.releases (c : I) : Act I P → Bool
  | .call c' ⟨.release _, _⟩ => c = c'
  | _ => false

def retains (tr : List (Tr (State I P) (Act I P))) (c : I) : ℕ := tr.countP (·.act.retains c)
def releases (tr : List (Tr (State I P) (Act I P))) (c : I) : ℕ := tr.countP (·.act.releases c)

/-- Each client in `holds` has one reference to the driver, and no other client has. -/
structure Inv (driver : P) (tr : List (Tr (State I P) (Act I P))) (s : State I P) (holds : Finset I) : Prop where
  count : s.retainCount = s.others + holds.card
  taken : ∀ c, retains tr c = releases tr c + (decide (c ∈ holds)).toNat
  client : ∀ c, (s.client c).Ok driver (c ∈ holds) (c ∈ s.connected)

theorem Client.Ok.idle {driver : P} {held connected : Bool} {x : Client P} (h : x.Ok driver held connected)
    (hrun : x.running = none) :
    held = connected ∧ (held = true → x.inited = true) ∧ (x.inited = true → x.m_driver = pointer driver held) := by
  unfold Client.Ok at h
  rw [hrun] at h
  exact h

theorem Client.Ok.busy {driver : P} {held connected : Bool} {x : Client P} (h : x.Ok driver held connected) {req code}
    (hrun : x.running = some (req, code)) :
    connected = false ∧ initedAtFinish x.inited true req = true ∧
      Spec heldAfter (Fair driver) code held (req.Done driver) := by
  unfold Client.Ok at h
  rw [hrun] at h
  exact h

omit [DecidableEq P] in
theorem counts_snoc (tr : List (Tr (State I P) (Act I P))) (s s' : State I P) (a : Act I P) (c : I) :
    retains (tr ++ [⟨s, a, s'⟩]) c = retains tr c + (a.retains c).toNat ∧
      releases (tr ++ [⟨s, a, s'⟩]) c = releases tr c + (a.releases c).toNat := by
  simp only [retains, releases, List.countP_append, List.countP_cons, List.countP_nil]
  cases a.retains c <;> cases a.releases c <;> exact ⟨rfl, rfl⟩

omit [DecidableEq P] in
theorem other_call {c c' : I} {e : Σ c : Call P, c.Resp} (h : c' ≠ c) :
    Act.retains c' (.call c e) = false ∧ Act.releases c' (.call c e) = false := by
  obtain ⟨call, r⟩ := e
  cases call <;> simp [Act.retains, Act.releases, h]

/-- A client that begins a call. -/
theorem begin_ok {driver : P} {s : State I P} {c : I} {req : Request P} {held : Bool}
    (hok : (s.client c).Ok driver held (c ∈ s.connected)) (hrun : (s.client c).running = none)
    (hreq : s.MayBegin driver c req) :
    ({ s.client c with running := some (req, req.code (s.client c).m_driver) } : Client P).Ok driver held
      (c ∈ connectedAtBegin s.connected c req) := by
  obtain ⟨hheld, hinited, hpointer⟩ := hok.idle hrun
  cases req with
  | init =>
    have hc : c ∉ s.connected := hreq
    obtain rfl : held = false := by simpa [hc] using hheld
    exact ⟨decide_eq_false hc, rfl, init_spec⟩
  | start provider =>
    obtain ⟨hin, hc, rfl⟩ := hreq
    obtain rfl : held = false := by simpa [hc] using hheld
    refine ⟨decide_eq_false hc, hin, ?_⟩
    rw [hpointer hin]
    exact start_spec
  | stop provider =>
    have hin : (s.client c).inited = true := hreq
    refine ⟨by simp [connectedAtBegin], hin, ?_⟩
    rw [hpointer hin]
    exact stop_spec

/-- A client that ends one. -/
theorem finish_ok {driver : P} {s : State I P} {c : I} {req : Request P} {ok held : Bool} {m_driver : Option P}
    (hok : (s.client c).Ok driver held (c ∈ s.connected))
    (hrun : (s.client c).running = some (req, .ret (ok, m_driver))) :
    (⟨m_driver, initedAtFinish (s.client c).inited ok req, none⟩ : Client P).Ok driver held
      (c ∈ connectedAtFinish s.connected c ok req) := by
  obtain ⟨hc, hin, hspec⟩ := hok.busy hrun
  have hdone := hspec.ret
  have hc : c ∉ s.connected := by simpa using hc
  cases req with
  | init =>
    obtain ⟨rfl, hm⟩ := hdone
    exact ⟨(decide_eq_false hc).symm, by simp, hm⟩
  | start provider =>
    obtain ⟨rfl, rfl⟩ := hdone
    refine ⟨?_, fun _ => hin, fun _ => rfl⟩
    cases held <;> simp [connectedAtFinish, hc]
  | stop provider =>
    obtain ⟨rfl, rfl⟩ := hdone
    exact ⟨(decide_eq_false hc).symm, by simp, fun _ => rfl⟩

/-- The other clients keep their memory and stay as connected as they are. -/
theorem setClient_ok {driver : P} {s : State I P} {c : I} {x : Client P} {connected : Finset I} (held : I → Bool)
    (hx : x.Ok driver (held c) (c ∈ connected))
    (hother : ∀ c', c' ≠ c → (s.client c').Ok driver (held c') (c' ∈ s.connected))
    (hconn : ∀ c', c' ≠ c → (c' ∈ connected ↔ c' ∈ s.connected)) (c' : I) :
    ((s.setClient c x).client c').Ok driver (held c') (c' ∈ connected) := by
  by_cases h : c' = c
  · subst h
    simpa only [State.setClient, Function.update_self] using hx
  · simpa only [State.setClient, Function.update_of_ne h, hconn c' h] using hother c' h

theorem inv_fresh {driver : P} {m_driver : I → Option P} {others : ℕ} : Inv driver [] (fresh m_driver others) ∅ where
  count := rfl
  taken c := by simp [retains, releases]
  client c := ⟨by simp [fresh], by simp, by simp [fresh]⟩

/-- The clients that hold the driver, with client `c` among them or not. -/
def setHeld (holds : Finset I) (c : I) (held : Bool) : Finset I := if held then insert c holds else holds.erase c

omit [DecidableEq P] in
theorem mem_setHeld {holds : Finset I} {c : I} {held : Bool} (c' : I) :
    decide (c' ∈ setHeld holds c held) = if c' = c then held else decide (c' ∈ holds) := by
  by_cases h : c' = c <;> cases held <;> simp [setHeld, h]

theorem card_setHeld (holds : Finset I) (c : I) (held : Bool) :
    (setHeld holds c held).card + (decide (c ∈ holds)).toNat = holds.card + held.toNat := by
  by_cases h : c ∈ holds
  · cases held with
    | false => simpa [setHeld, h] using Finset.card_erase_add_one h
    | true => simp [setHeld, h]
  · cases held <;> simp [setHeld, h]

/-- A fair call changes the retain count by what it changes for its client. -/
theorem fair_call {driver : P} {held : Bool} {c : I} {call : Call P} {r : call.Resp} {count n : ℕ}
    (hfair : Fair driver held call) (hpos : held.toNat ≤ count) (hn : countAfter driver count call r = some n) :
    ∃ held', heldAfter held call r = some held' ∧ n + held.toNat = count + held'.toNat ∧
      (Act.retains c (.call c ⟨call, r⟩)).toNat + held.toNat =
        (Act.releases c (.call c ⟨call, r⟩)).toNat + held'.toNat := by
  cases call with
  | retain p =>
    obtain ⟨rfl, rfl⟩ := hfair
    simp only [countAfter, if_true, Option.some.injEq] at hn
    exact ⟨true, rfl, by simp [← hn], by simp [Act.retains, Act.releases]⟩
  | release p =>
    obtain ⟨rfl, rfl⟩ := hfair
    simp only [countAfter, if_true, Option.some.injEq] at hn
    have hpos : 1 ≤ count := hpos
    exact ⟨false, rfl, by simp [← hn]; omega, by simp [Act.retains, Act.releases]⟩
  | osDynamicCast provider =>
    simp only [countAfter, Option.ite_none_right_eq_some, Option.some.injEq] at hn
    exact ⟨held, if_pos hn.1, by rw [hn.2], rfl⟩
  | superInit =>
    obtain rfl : count = n := Option.some.inj hn
    exact ⟨held, rfl, rfl, rfl⟩
  | superStart _ =>
    obtain rfl : count = n := Option.some.inj hn
    exact ⟨held, rfl, rfl, rfl⟩
  | superStop _ =>
    obtain rfl : count = n := Option.some.inj hn
    exact ⟨held, rfl, rfl, rfl⟩

/-- A call made by a client: it does to the count what it does to the clients that hold the driver. -/
theorem inv_call {driver : P} {tr : List (Tr (State I P) (Act I P))} {s s' : State I P} {holds : Finset I} {c : I}
    {call : Call P} {r : call.Resp} {req : Request P} {k : call.Resp → Code P (Bool × Option P)} {n : ℕ}
    (hi : Inv driver tr s holds) (hrun : (s.client c).running = some (req, .call call k))
    (hn : countAfter driver s.retainCount call r = some n)
    (hs' : s' = (s.setClient c { s.client c with running := some (req, k r) }).setCount n) :
    ∃ holds', Inv driver (tr ++ [⟨s, .call c ⟨call, r⟩, s'⟩]) s' holds' := by
  obtain ⟨hconn, hin, hspec⟩ := (hi.client c).busy hrun
  have hpos : (decide (c ∈ holds)).toNat ≤ s.retainCount := by
    have hcard := card_setHeld holds c false
    have := hi.count
    simp only [Bool.toNat_false] at hcard
    omega
  obtain ⟨held', hheld', hcount, htaken⟩ := fair_call (c := c) (hspec.call_ok heldAfter_total) hpos hn
  have hcard := card_setHeld holds c held'
  subst hs'
  refine ⟨setHeld holds c held', ?_, fun c' => ?_, fun c' => ?_⟩
  · have := hi.count
    show n = s.others + (setHeld holds c held').card
    omega
  · obtain ⟨h1, h2⟩ := counts_snoc tr s _ (.call c ⟨call, r⟩) c'
    have := hi.taken c'
    rw [h1, h2, mem_setHeld]
    by_cases h : c' = c
    · subst h
      rw [if_pos rfl]
      omega
    · obtain ⟨hretains, hreleases⟩ := other_call (e := ⟨call, r⟩) h
      rw [if_neg h, hretains, hreleases]
      exact this
  · have hx : ({ s.client c with running := some (req, k r) } : Client P).Ok driver
        (c ∈ setHeld holds c held') (c ∈ s.connected) := by
      rw [mem_setHeld, if_pos rfl]
      exact ⟨hconn, hin, hspec.call_rest hheld'⟩
    refine setClient_ok (fun c' => c' ∈ setHeld holds c held') hx (fun c' h => ?_) (fun _ _ => .rfl) c'
    simp only [mem_setHeld, if_neg h]
    exact hi.client c'

omit [DecidableEq P] in
/-- Steps other than calls leave every reference of the clients alone. -/
theorem taken_snoc {tr : List (Tr (State I P) (Act I P))} {s s' : State I P} {a : Act I P} {holds : Finset I}
    (h : ∀ c, retains tr c = releases tr c + (decide (c ∈ holds)).toNat)
    (ha : ∀ c e, a ≠ .call c e) (c : I) :
    retains (tr ++ [⟨s, a, s'⟩]) c = releases (tr ++ [⟨s, a, s'⟩]) c + (decide (c ∈ holds)).toNat := by
  obtain ⟨h1, h2⟩ := counts_snoc tr s s' a c
  have hquiet : a.retains c = false ∧ a.releases c = false := by
    cases a with
    | call c e => exact absurd rfl (ha c e)
    | _ => exact ⟨rfl, rfl⟩
  rw [h1, h2, hquiet.1, hquiet.2]
  exact h c

theorem inv_step {driver : P} {tr : List (Tr (State I P) (Act I P))} {s s' : State I P} {a : Act I P}
    {holds : Finset I} (hi : Inv driver tr s holds) (h : Step driver s a s') :
    ∃ holds', Inv driver (tr ++ [⟨s, a, s'⟩]) s' holds' := by
  rcases step_cases h with ⟨c, req, rfl, hrun, hreq, rfl⟩ | ⟨c, call, r, req, k, n, rfl, hrun, hn, hs'⟩ |
    ⟨c, req, ok, m_driver, rfl, hrun, rfl⟩ | ⟨rfl, rfl⟩ | ⟨rfl, hothers, rfl⟩
  · refine ⟨holds, hi.count, taken_snoc hi.taken (by simp), ?_⟩
    refine setClient_ok _ (begin_ok (hi.client c) hrun hreq) (fun c' _ => hi.client c') (fun c' hne => ?_)
    cases req <;> simp [connectedAtBegin, hne]
  · exact inv_call hi hrun hn hs'
  · refine ⟨holds, hi.count, taken_snoc hi.taken (by simp), ?_⟩
    refine setClient_ok _ (finish_ok (hi.client c) hrun) (fun c' _ => hi.client c') (fun c' hne => ?_)
    cases req <;> cases ok <;> simp [connectedAtFinish, hne]
  · refine ⟨holds, ?_, taken_snoc hi.taken (by simp), hi.client⟩
    have := hi.count
    show s.retainCount + 1 = s.others + 1 + holds.card
    omega
  · refine ⟨holds, ?_, taken_snoc hi.taken (by simp), hi.client⟩
    have := hi.count
    show s.retainCount - 1 = s.others - 1 + holds.card
    omega

theorem run_inv {driver : P} {m_driver : I → Option P} {others : ℕ} {tr : List (Tr (State I P) (Act I P))}
    {s : State I P} (h : Run (Step driver) (fresh m_driver others) tr s) : ∃ holds, Inv driver tr s holds :=
  h.inv_history (fun tr s => ∃ holds, Inv driver tr s holds) ⟨∅, inv_fresh⟩
    fun _ _ _ _ ⟨_, hi⟩ hst => inv_step hi hst

/-- A connected client is in no call, and holds the driver. -/
theorem Inv.connected_subset {driver : P} {tr : List (Tr (State I P) (Act I P))} {s : State I P} {holds : Finset I}
    (hi : Inv driver tr s holds) : s.connected ⊆ holds := by
  intro c hc
  cases hrun : (s.client c).running with
  | none =>
    have hheld := ((hi.client c).idle hrun).1
    simpa [hc] using hheld
  | some x =>
    have hconn := ((hi.client c).busy hrun).1
    simp [hc] at hconn

/-! ## The end of the driver -/

/-- The step makes a reference. -/
def Act.MakesReference : Act I P → Prop
  | .call _ ⟨.retain _, _⟩ | .ownerRetain => True
  | .begin _ _ | .call _ _ | .finish _ | .ownerRelease => False

instance : DecidablePred (Act.MakesReference : Act I P → Prop)
  | .call _ ⟨.retain _, _⟩ | .ownerRetain => isTrue trivial
  | .call _ ⟨.superInit, _⟩ | .call _ ⟨.superStart _, _⟩ | .call _ ⟨.osDynamicCast _, _⟩ | .call _ ⟨.release _, _⟩
  | .call _ ⟨.superStop _, _⟩ | .begin _ _ | .finish _ | .ownerRelease => isFalse id

/-- A driver that is retained only while its owner has a reference never comes
back: it is freed exactly while its count is zero. -/
theorem freed_step {driver : P} {tr : List (Tr (State I P) (Act I P))} {s s' : State I P} {a : Act I P}
    {holds : Finset I} (hi : Inv driver tr s holds) (hfreed : s.freed = true ↔ s.retainCount = 0)
    (hretain : a.MakesReference → 0 < s.others) (h : Step driver s a s') : s'.freed = true ↔ s'.retainCount = 0 := by
  have hcount := hi.count
  have hset : ∀ n, (s.retainCount = 0 → n = 0) → ((s.freed || decide (n = 0)) = true ↔ n = 0) := by
    intro n hn
    rw [Bool.or_eq_true, hfreed, decide_eq_true_iff]
    exact ⟨fun h => h.elim hn id, .inr⟩
  rcases step_cases h with ⟨c, req, rfl, -, -, rfl⟩ | ⟨c, call, r, req, k, n, rfl, -, hn, rfl⟩ |
    ⟨c, req, ok, m_driver, rfl, -, rfl⟩ | ⟨rfl, rfl⟩ | ⟨rfl, hothers, rfl⟩
  · exact hfreed
  · refine hset n fun hzero => ?_
    cases call with
    | retain p =>
      have hothers := hretain trivial
      omega
    | release p =>
      have hn : (if p = driver then s.retainCount - 1 else s.retainCount) = n := Option.some.inj hn
      split at hn <;> omega
    | osDynamicCast provider =>
      simp only [countAfter, Option.ite_none_right_eq_some, Option.some.injEq] at hn
      exact hn.2.symm.trans hzero
    | superInit | superStart _ | superStop _ => exact (Option.some.inj hn).symm.trans hzero
  · exact hfreed
  · have hothers := hretain trivial
    exact hset _ fun hzero => by omega
  · exact hset _ fun hzero => by omega

theorem run_freed {driver : P} {m_driver : I → Option P} {others : ℕ} {tr : List (Tr (State I P) (Act I P))}
    {s : State I P} (h : Run (Step driver) (fresh m_driver others) tr s)
    (hretain : ∀ x ∈ tr, x.act.MakesReference → 0 < x.pre.others) : s.freed = true ↔ s.retainCount = 0 := by
  refine (h.inv_of_cond (fun s => (∃ tr holds, Inv driver tr s holds) ∧ (s.freed = true ↔ s.retainCount = 0))
    (fun s a => a.MakesReference → 0 < s.others) ⟨⟨[], ∅, inv_fresh⟩, by simp [fresh]⟩ ?_ hretain).1.2
  rintro s a s' ⟨⟨tr, holds, hi⟩, hfreed⟩ ha hst
  exact ⟨⟨_, inv_step hi hst⟩, freed_step hi hfreed ha hst⟩

/-- No client runs one of its calls. -/
def State.Between (s : State I P) : Prop := ∀ c, (s.client c).running = none

/-- User clients keep the driver alive, exactly: its retain count never falls to
zero while one is connected, so that it is not freed if its owner holds it while
it starts them, and between calls it counts the connected clients, which are
those that have it in `m_driver` and have not given it back. -/
theorem clients_keep_driver_alive {driver : P} {m_driver : I → Option P} {others : ℕ}
    {tr : List (Tr (State I P) (Act I P))} {s : State I P}
    (h : Run (Step driver) (fresh m_driver others) tr s) :
    (∀ c, releases tr c ≤ retains tr c) ∧
      (s.connected.Nonempty → s.retainCount ≠ 0 ∧
        ((∀ x ∈ tr, x.act.MakesReference → 0 < x.pre.others) → s.freed = false)) ∧
      (s.Between → s.retainCount = s.others + s.connected.card ∧
        (∀ c, retains tr c = releases tr c + if c ∈ s.connected then 1 else 0) ∧
        (∀ c, (s.client c).inited = true → (s.client c).m_driver = if c ∈ s.connected then some driver else none) ∧
        (s.connected = ∅ → s.retainCount = s.others)) := by
  obtain ⟨holds, hi⟩ := run_inv h
  refine ⟨fun c => ?_, fun hne => ?_, fun hbetween => ?_⟩
  · rw [hi.taken c]
    exact Nat.le_add_right _ _
  · have hpos := Finset.card_pos.2 (hne.mono hi.connected_subset)
    have hcount := hi.count
    have halive : s.retainCount ≠ 0 := by omega
    exact ⟨halive, fun hretain => Bool.eq_false_iff.2 fun hfreed => halive ((run_freed h hretain).1 hfreed)⟩
  · have hheld : ∀ c, decide (c ∈ holds) = decide (c ∈ s.connected) := fun c =>
      ((hi.client c).idle (hbetween c)).1
    obtain rfl : holds = s.connected := by
      ext c
      simpa using hheld c
    refine ⟨hi.count, fun c => ?_, fun c hin => ?_, fun hempty => ?_⟩
    · rw [hi.taken c]
      by_cases hc : c ∈ s.connected <;> simp [hc]
    · rw [((hi.client c).idle (hbetween c)).2.2 hin]
      by_cases hc : c ∈ s.connected <;> simp [pointer, hc]
    · rw [hi.count, hempty, Finset.card_empty, Nat.add_zero]

/-- The owner lets go of the driver as soon as a client has a reference. -/
theorem clients_keep_driver_alive_released : ∃ (tr : List (Tr (State ℕ ℕ) (Act ℕ ℕ))) (s : State ℕ ℕ),
    Run (Step 7) (fresh (fun _ => none) 1) tr s ∧ s.others = 0 ∧ s.connected = {0} ∧ s.retainCount ≠ 0 ∧
      s.freed = false := by
  obtain ⟨tr, s, he, hothers, hconn, hretain⟩ : ∃ tr s, exec (step 7) (fresh (fun _ : ℕ => none) 1)
      [.begin 0 .init, .call 0 ⟨.superInit, true⟩, .finish 0, .begin 0 (.start 7),
        .call 0 ⟨.superStart 7, kIOReturnSuccess⟩, .call 0 ⟨.osDynamicCast 7, some 7⟩, .call 0 ⟨.retain 7, ()⟩,
        .ownerRelease, .finish 0] = some (tr, s) ∧ s.others = 0 ∧ s.connected = {0} ∧
      (tr.all fun x => decide (x.act.MakesReference → 0 < x.pre.others)) = true := ⟨_, _, rfl, rfl, rfl, rfl⟩
  have hr := (run_of_exec (step 7) _ _ he).1
  obtain ⟨halive, hfreed⟩ := (clients_keep_driver_alive hr).2.1 (by simp [hconn])
  exact ⟨tr, s, hr, hothers, hconn, halive, hfreed fun x hx => of_decide_eq_true (List.all_eq_true.1 hretain x hx)⟩

end PortingKit.Driver.UserClient
