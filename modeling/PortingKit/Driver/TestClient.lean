import PortingKit.Driver.UserClient
/-!
# test_client.cpp

Any number of processes that run the test client, each with its user client on
the one driver. `IOServiceOpen` initialises and starts the process's user client
and succeeds exactly if it is started; `IOServiceClose` returns when it is
stopped. In between the processes, the clients and the owner of the driver take
their steps in any order. `D` is the type of matching dictionaries.
-/
open PortingKit.Lib
open PortingKit.Lib.Prog (perform perform_bind call_bind Spec)

namespace PortingKit.Driver.TestClient

def kernSuccess : KernReturn := 0

/-- `io_connect_t`. -/
abbrev IoConnect := BitVec 32

inductive Call (D P : Type) where
  | ioServiceMatching
  | ioServiceGetMatchingService (matchingDict : D)
  | ioServiceOpen (service : P)
  | ioObjectRelease (service : P)
  | ioServiceClose (connection : IoConnect)
  deriving DecidableEq

variable {I D P : Type}

/-- What a call is answered with; opening a service also writes the connection. -/
abbrev Call.Resp : Call D P → Type
  | .ioServiceMatching => Option D
  | .ioServiceGetMatchingService _ => Option P
  | .ioServiceOpen _ => KernReturn × IoConnect
  | .ioObjectRelease _ | .ioServiceClose _ => KernReturn

/-- Code of a process. -/
abbrev Code (D P : Type) := Prog (@Call.Resp D P)

def main : Code D P Int := do
  let matchingDict ← perform Call.ioServiceMatching
  match matchingDict with
  | none => return -1
  | some matchingDict =>
    let service ← perform (Call.ioServiceGetMatchingService matchingDict)
    match service with
    | none => return -1
    | some service =>
      let (kr, connection) ← perform (Call.ioServiceOpen service)
      let _ ← perform (Call.ioObjectRelease service)
      if kr ≠ kernSuccess then return -1
      else
        -- A failed close is reported, and the program goes on.
        let _ ← perform (Call.ioServiceClose connection)
        return 0

/-! ## One process -/

/-- What a process has. -/
structure Handles (D P : Type) where
  matchingDict : Option D
  service : Option P
  connection : Option IoConnect
  /-- It has had a connection. -/
  opened : Bool

def Handles.atStart : Handles D P := ⟨none, none, none, false⟩

/-- What a call does to them. Looking up a service takes the dictionary. -/
def Handles.after (h : Handles D P) : (c : Call D P) → c.Resp → Handles D P
  | .ioServiceMatching, r => { h with matchingDict := r }
  | .ioServiceGetMatchingService _, r => { h with matchingDict := none, service := r }
  | .ioServiceOpen _, (kr, connection) =>
    if kr = kernSuccess then { h with connection := some connection, opened := true } else h
  | .ioObjectRelease _, _ => { h with service := none }
  | .ioServiceClose _, _ => { h with connection := none }

/-- Each call gives back only what the process has, and gets only what it has not. -/
def Fair (h : Handles D P) : Call D P → Prop
  | .ioServiceMatching => h.matchingDict = none
  | .ioServiceGetMatchingService matchingDict => h.matchingDict = some matchingDict ∧ h.service = none
  | .ioServiceOpen service => h.service = some service ∧ h.connection = none
  | .ioObjectRelease service => h.service = some service
  | .ioServiceClose connection => h.connection = some connection

/-- The process has nothing left, and its exit code says whether it has had a connection. -/
def Handles.Done (ret : Int) (h : Handles D P) : Prop :=
  h.matchingDict = none ∧ h.service = none ∧ h.connection = none ∧ ret = if h.opened then 0 else -1

/-- On every path `main` gives back all it gets, once. -/
theorem main_spec :
    Spec (fun h c r => some (h.after c r)) Fair (main : Code D P Int) Handles.atStart fun ret h => h.Done ret := by
  unfold main
  simp only [perform_bind]
  refine Spec.of_call (by exact rfl) ?_
  rintro matchingDict _ ⟨⟩
  cases matchingDict with
  | none => exact Spec.of_ret ⟨rfl, rfl, rfl, rfl⟩
  | some matchingDict =>
    apply Spec.of_call ⟨rfl, rfl⟩
    rintro service _ ⟨⟩
    cases service with
    | none => exact Spec.of_ret ⟨rfl, rfl, rfl, rfl⟩
    | some service =>
      apply Spec.of_call ⟨rfl, rfl⟩
      rintro ⟨kr, connection⟩ _ ⟨⟩
      by_cases hkr : kr = kernSuccess
      · subst hkr
        refine Spec.of_call (by exact rfl) ?_
        rintro _ _ ⟨⟩
        refine Spec.of_call (by exact rfl) ?_
        rintro _ _ ⟨⟩
        exact Spec.of_ret ⟨rfl, rfl, rfl, rfl⟩
      · simp only [Handles.after, if_neg hkr]
        refine Spec.of_call (by exact rfl) ?_
        rintro _ _ ⟨⟩
        rw [if_pos hkr]
        exact Spec.of_ret ⟨rfl, rfl, rfl, rfl⟩

/-! ## Processes and clients -/

structure State (I D P : Type) where
  clients : UserClient.State I P
  proc : I → Code D P Int
  handles : I → Handles D P

inductive Act (I D P : Type) where
  | call (i : I) (e : Σ c : Call D P, c.Resp)
  | client (a : UserClient.Act I P)

/-- All processes are about to begin. -/
def init (m_driver : I → Option P) (others : ℕ) : State I D P :=
  ⟨UserClient.fresh m_driver others, fun _ => main, fun _ => Handles.atStart⟩

/-- The process waits for `IOServiceOpen`. -/
def Opening : Code D P Int → Prop
  | .call (.ioServiceOpen _) _ => True
  | _ => False

/-- The process waits for `IOServiceClose`. -/
def Closing : Code D P Int → Prop
  | .call (.ioServiceClose _) _ => True
  | _ => False

instance : DecidablePred (Opening : Code D P Int → Prop)
  | .call (.ioServiceOpen _) _ => isTrue trivial
  | .call .ioServiceMatching _ | .call (.ioServiceGetMatchingService _) _ | .call (.ioObjectRelease _) _
  | .call (.ioServiceClose _) _ | .ret _ => isFalse id

instance : DecidablePred (Closing : Code D P Int → Prop)
  | .call (.ioServiceClose _) _ => isTrue trivial
  | .call .ioServiceMatching _ | .call (.ioServiceGetMatchingService _) _ | .call (.ioObjectRelease _) _
  | .call (.ioServiceOpen _) _ | .ret _ => isFalse id

/-- What IOKit may answer: the one service there is, and to a request for a
connection or for its end what has become of the client. -/
def State.MayAnswer (s : State I D P) (driver : P) (i : I) : (c : Call D P) → c.Resp → Prop
  | .ioServiceGetMatchingService _, r => r = none ∨ r = some driver
  | .ioServiceOpen _, r =>
    (s.clients.client i).running.isNone ∧ (r.1 = kernSuccess ↔ i ∈ s.clients.connected)
  | .ioServiceClose _, _ => (s.clients.client i).running.isNone ∧ i ∉ s.clients.connected
  | .ioServiceMatching, _ | .ioObjectRelease _, _ => True

/-- IOKit begins calls of a client while its process waits for them. -/
def State.MayStep (s : State I D P) : UserClient.Act I P → Prop
  | .begin i .init | .begin i (.start _) => Opening (s.proc i)
  | .begin i (.stop _) => Opening (s.proc i) ∨ Closing (s.proc i)
  | .call _ _ | .finish _ | .ownerRetain | .ownerRelease => True

variable [DecidableEq I] [DecidableEq P]

instance (s : State I D P) (driver : P) (i : I) (c : Call D P) (r : c.Resp) : Decidable (s.MayAnswer driver i c r) :=
  match c, r with
  | .ioServiceGetMatchingService _, r => inferInstanceAs (Decidable (r = none ∨ r = some driver))
  | .ioServiceOpen _, r => inferInstanceAs (Decidable
      ((s.clients.client i).running.isNone ∧ (r.1 = kernSuccess ↔ i ∈ s.clients.connected)))
  | .ioServiceClose _, _ => inferInstanceAs (Decidable
      ((s.clients.client i).running.isNone ∧ i ∉ s.clients.connected))
  | .ioServiceMatching, _ | .ioObjectRelease _, _ => isTrue trivial

instance (s : State I D P) : DecidablePred s.MayStep
  | .begin i .init | .begin i (.start _) => inferInstanceAs (Decidable (Opening (s.proc i)))
  | .begin i (.stop _) => inferInstanceAs (Decidable (Opening (s.proc i) ∨ Closing (s.proc i)))
  | .call _ _ | .finish _ | .ownerRetain | .ownerRelease => isTrue trivial

variable [DecidableEq D]

def step (driver : P) (s : State I D P) : Act I D P → Option (State I D P)
  | .call i ⟨c, r⟩ =>
    match s.proc i with
    | .call c' k =>
      if h : c = c' then
        if s.MayAnswer driver i c r then
          some { s with
            proc := Function.update s.proc i (k (h ▸ r))
            handles := Function.update s.handles i ((s.handles i).after c r) }
        else none
      else none
    | .ret _ => none
  | .client a => if s.MayStep a then do
      let clients ← UserClient.step driver s.clients a
      return { s with clients }
    else none

abbrev Step (driver : P) (s : State I D P) (a : Act I D P) (s' : State I D P) : Prop := step driver s a = some s'

/-- What a step does, by cases. -/
theorem step_cases {driver : P} {s s' : State I D P} {a : Act I D P} (h : Step driver s a s') :
    (∃ i c r k, a = .call i ⟨c, r⟩ ∧ s.proc i = .call c k ∧ s.MayAnswer driver i c r ∧ s' = { s with
      proc := Function.update s.proc i (k r)
      handles := Function.update s.handles i ((s.handles i).after c r) }) ∨
    (∃ b clients, a = .client b ∧ s.MayStep b ∧ UserClient.Step driver s.clients b clients ∧
      s' = { s with clients }) := by
  cases a with
  | call i e =>
    obtain ⟨c, r⟩ := e
    simp only [Step, step] at h
    split at h
    · rename_i c' k hproc
      split at h
      · rename_i hc
        subst hc
        rw [Option.ite_none_right_eq_some, Option.some.injEq] at h
        exact .inl ⟨i, c, r, k, rfl, hproc, h.1, h.2.symm⟩
      · cases h
    · cases h
  | client b =>
    simp only [Step, step, Option.ite_none_right_eq_some, Option.bind_eq_bind, Option.pure_def,
      Option.bind_eq_some_iff, Option.some.injEq] at h
    obtain ⟨hmay, clients, hst, rfl⟩ := h
    exact .inr ⟨b, clients, rfl, hmay, hst, rfl⟩

/-- The client that takes the step. -/
def client : UserClient.Act I P → Option I
  | .begin c _ | .call c _ | .finish c => some c
  | .ownerRetain | .ownerRelease => none

omit [DecidableEq D] in
/-- Each client's step is its own. -/
theorem client_frame {driver : P} {s s' : UserClient.State I P} {a : UserClient.Act I P} {c : I}
    (h : UserClient.Step driver s a s') (hc : client a ≠ some c) :
    s'.client c = s.client c ∧ (c ∈ s'.connected ↔ c ∈ s.connected) := by
  have hset : ∀ {c' : I} (x : UserClient.Client P), c' ≠ c → (s.setClient c' x).client c = s.client c :=
    fun _ hne => Function.update_of_ne hne.symm _ _
  rcases UserClient.step_cases h with ⟨c', req, rfl, -, -, rfl⟩ | ⟨c', _, _, _, _, _, rfl, -, -, rfl⟩ |
    ⟨c', req, ok, _, rfl, -, rfl⟩ | ⟨rfl, rfl⟩ | ⟨rfl, -, rfl⟩
  · have hne : c' ≠ c := fun h => hc (congrArg some h)
    refine ⟨hset _ hne, ?_⟩
    cases req <;> simp [UserClient.connectedAtBegin, hne.symm]
  · exact ⟨hset _ fun h => hc (congrArg some h), .rfl⟩
  · have hne : c' ≠ c := fun h => hc (congrArg some h)
    refine ⟨hset _ hne, ?_⟩
    cases req <;> cases ok <;> simp [UserClient.connectedAtFinish, hne.symm]
  · exact ⟨rfl, .rfl⟩
  · exact ⟨rfl, .rfl⟩

/-- The first step of a client in no call begins one. -/
theorem begins {driver : P} {s s' : UserClient.State I P} {a : UserClient.Act I P} {c : I}
    (h : UserClient.Step driver s a s') (hrun : (s.client c).running = none) (hc : client a = some c) :
    ∃ req, a = .begin c req := by
  rcases UserClient.step_cases h with ⟨c', req, rfl, -⟩ | ⟨c', _, _, _, _, _, rfl, hrun', -⟩ |
    ⟨c', _, _, _, rfl, hrun', -⟩ | ⟨rfl, -⟩ | ⟨rfl, -⟩
  · obtain rfl : c' = c := Option.some.inj hc
    exact ⟨req, rfl⟩
  · obtain rfl : c' = c := Option.some.inj hc
    rw [hrun] at hrun'
    cases hrun'
  · obtain rfl : c' = c := Option.some.inj hc
    rw [hrun] at hrun'
    cases hrun'
  · cases hc
  · cases hc

/-- While IOKit is not at work for a process, its client is connected exactly if
the process has a connection. -/
structure ProcOk (s : State I D P) (i : I) : Prop where
  spec : Spec (fun h c r => some (h.after c r)) Fair (s.proc i) (s.handles i) fun ret h => h.Done ret
  connected : ¬ Opening (s.proc i) → ¬ Closing (s.proc i) → (s.clients.client i).running = none ∧
    (i ∈ s.clients.connected ↔ (s.handles i).connection.isSome = true)

omit [DecidableEq P] [DecidableEq D] [DecidableEq I] in
theorem after_total (h : Handles D P) (c : Call D P) : ∃ r h', some (h.after c r) = some h' := by
  cases c with
  | ioServiceMatching => exact ⟨none, _, rfl⟩
  | ioServiceGetMatchingService _ => exact ⟨none, _, rfl⟩
  | ioServiceOpen _ => exact ⟨(kernSuccess, 0), _, rfl⟩
  | ioObjectRelease _ => exact ⟨kernSuccess, _, rfl⟩
  | ioServiceClose _ => exact ⟨kernSuccess, _, rfl⟩

omit [DecidableEq P] [DecidableEq D] in
/-- An answered call leaves the client as connected as the process is. -/
theorem procOk_call {driver : P} {s : State I D P} {i : I} {c : Call D P} {r : c.Resp}
    {k : c.Resp → Code D P Int} (hi : ∀ j, ProcOk s j) (hproc : s.proc i = .call c k)
    (hmay : s.MayAnswer driver i c r) (j : I) :
    ProcOk { s with
      proc := Function.update s.proc i (k r)
      handles := Function.update s.handles i ((s.handles i).after c r) } j := by
  by_cases hj : j = i
  · subst hj
    obtain ⟨hspec, hconn⟩ := hi j
    rw [hproc] at hspec hconn
    have hfair := hspec.call_ok after_total
    refine ⟨?_, fun _ _ => ?_⟩
    · simpa only [Function.update_self] using hspec.call_rest rfl
    · simp only [Function.update_self]
      cases c with
      | ioServiceOpen service =>
        obtain ⟨hidle, hkr⟩ := hmay
        refine ⟨Option.isNone_iff_eq_none.1 hidle, hkr.symm.trans ?_⟩
        obtain ⟨-, hnone⟩ := hfair
        by_cases h : r.1 = kernSuccess <;> simp [Handles.after, h, hnone]
      | ioServiceClose connection =>
        obtain ⟨hidle, hnot⟩ := hmay
        exact ⟨Option.isNone_iff_eq_none.1 hidle, by simp [Handles.after, hnot]⟩
      | ioServiceMatching => exact hconn id id
      | ioServiceGetMatchingService matchingDict => exact hconn id id
      | ioObjectRelease service => exact hconn id id
  · obtain ⟨hspec, hconn⟩ := hi j
    refine ⟨?_, ?_⟩ <;> simpa only [Function.update_of_ne hj]

omit [DecidableEq D] in
/-- A client's step happens while its process waits. -/
theorem procOk_client {driver : P} {s : State I D P} {clients : UserClient.State I P} {a : UserClient.Act I P}
    (hi : ∀ j, ProcOk s j) (hmay : s.MayStep a) (h : UserClient.Step driver s.clients a clients) (j : I) :
    ProcOk { s with clients } j := by
  obtain ⟨hspec, hconn⟩ := hi j
  refine ⟨hspec, fun hopening hclosing => ?_⟩
  obtain ⟨hidle, hiff⟩ := hconn hopening hclosing
  have hother : client a ≠ some j := by
    intro ha
    obtain ⟨req, rfl⟩ := begins h hidle ha
    cases req with
    | init | start _ => exact hopening hmay
    | stop _ => exact hmay.elim hopening hclosing
  obtain ⟨hclient, hconnected⟩ := client_frame h hother
  exact ⟨hclient ▸ hidle, hconnected.trans hiff⟩

theorem procOk_step {driver : P} {s s' : State I D P} {a : Act I D P} (hi : ∀ i, ProcOk s i)
    (h : Step driver s a s') (i : I) : ProcOk s' i := by
  rcases step_cases h with ⟨j, c, r, k, rfl, hproc, hmay, rfl⟩ | ⟨b, clients, rfl, hmay, hst, rfl⟩
  · exact procOk_call hi hproc hmay i
  · exact procOk_client hi hmay hst i

/-! ## What is left -/

/-- The process gets a connection. -/
def Opens (i : I) : Act I D P → Prop
  | .call j ⟨.ioServiceOpen _, r⟩ => j = i ∧ r.1 = kernSuccess
  | _ => False

structure Inv (driver : P) (m_driver : I → Option P) (others : ℕ) (tr : List (Tr (State I D P) (Act I D P)))
    (s : State I D P) : Prop where
  proc : ∀ i, ProcOk s i
  clients : ∃ ctr, Run (UserClient.Step driver) (UserClient.fresh m_driver others) ctr s.clients
  opened : ∀ i, (s.handles i).opened = true ↔ ∃ x ∈ tr, Opens i x.act

omit [DecidableEq I] [DecidableEq P] [DecidableEq D] in
theorem procOk_init {m_driver : I → Option P} {others : ℕ} (i : I) : ProcOk (init m_driver others : State I D P) i :=
  ⟨main_spec, fun _ _ => ⟨rfl, by simp [init, UserClient.fresh, Handles.atStart]⟩⟩

omit [DecidableEq D] in
theorem inv_init {driver : P} {m_driver : I → Option P} {others : ℕ} :
    Inv driver m_driver others [] (init m_driver others : State I D P) where
  proc := procOk_init
  clients := ⟨[], .nil⟩
  opened i := by simp [init, Handles.atStart]

theorem opened_after {driver : P} {s s' : State I D P} {a : Act I D P} (h : Step driver s a s') (i : I) :
    (s'.handles i).opened = true ↔ (s.handles i).opened = true ∨ Opens i a := by
  rcases step_cases h with ⟨j, c, r, k, rfl, -, -, rfl⟩ | ⟨b, clients, rfl, -, -, rfl⟩
  · by_cases hj : i = j
    · subst hj
      simp only [Function.update_self]
      cases c with
      | ioServiceOpen service => by_cases hr : r.1 = kernSuccess <;> simp [Handles.after, Opens, hr]
      | _ => simp [Handles.after, Opens]
    · simp only [Function.update_of_ne hj]
      cases c with
      | ioServiceOpen service => simp [Opens, Ne.symm hj]
      | _ => simp [Opens]
  · simp [Opens]

theorem inv_step {driver : P} {m_driver : I → Option P} {others : ℕ} {tr : List (Tr (State I D P) (Act I D P))}
    {s s' : State I D P} {a : Act I D P} (hi : Inv driver m_driver others tr s) (h : Step driver s a s') :
    Inv driver m_driver others (tr ++ [⟨s, a, s'⟩]) s' := by
  have hopened : ∀ i, (s'.handles i).opened = true ↔ ∃ x ∈ tr ++ [⟨s, a, s'⟩], Opens i x.act := by
    intro i
    rw [opened_after h, hi.opened]
    simp [or_and_right, exists_or]
  refine ⟨procOk_step hi.proc h, ?_, hopened⟩
  obtain ⟨ctr, hr⟩ := hi.clients
  rcases step_cases h with ⟨i, c, r, k, rfl, hproc, hmay, rfl⟩ | ⟨b, clients, rfl, hmay, hst, rfl⟩
  · exact ⟨ctr, hr⟩
  · exact ⟨_, hr.snoc hst⟩

/-- A process makes its calls on what it has. -/
def Proper (x : Tr (State I D P) (Act I D P)) : Prop :=
  match x.act with
  | .call i ⟨c, _⟩ => Fair (x.pre.handles i) c
  | .client _ => True

theorem proper_step {driver : P} {s s' : State I D P} {a : Act I D P} (hi : ∀ i, ProcOk s i)
    (h : Step driver s a s') : Proper ⟨s, a, s'⟩ := by
  rcases step_cases h with ⟨i, c, r, k, rfl, hproc, -, -⟩ | ⟨b, _, rfl, -⟩
  · have hspec := (hi i).spec
    rw [hproc] at hspec
    exact hspec.call_ok after_total
  · trivial

omit [DecidableEq I] [DecidableEq P] [DecidableEq D] in
/-- A process that waits for a connection has none. -/
theorem ProcOk.no_connection {s : State I D P} {i : I} (h : ProcOk s i) (hopening : Opening (s.proc i)) :
    (s.handles i).connection = none := by
  have hspec := h.spec
  cases hproc : s.proc i with
  | ret ret =>
    rw [hproc] at hopening
    exact hopening.elim
  | call c k =>
    rw [hproc] at hspec hopening
    cases c with
    | ioServiceOpen service => exact (hspec.call_ok after_total).2
    | _ => exact hopening.elim

/-- However the processes, the clients and the owner of the driver take turns:
each process makes its calls on what it has, and when it exits it has nothing
left and its code says whether it had a connection; the driver is retained as
long as a process has a connection, once for each of them when IOKit is not at
work, and when all have exited it is back where it was without them. -/
theorem test_clients_leave_nothing {driver : P} {m_driver : I → Option P} {others : ℕ}
    {tr : List (Tr (State I D P) (Act I D P))} {s : State I D P} (h : Run (Step driver) (init m_driver others) tr s) :
    (∀ x ∈ tr, Proper x) ∧
      (∀ i ret, s.proc i = .ret ret →
        (s.handles i).matchingDict = none ∧ (s.handles i).service = none ∧ (s.handles i).connection = none ∧
          (ret = 0 ∧ (∃ x ∈ tr, Opens i x.act) ∨ ret = -1 ∧ ¬ ∃ x ∈ tr, Opens i x.act)) ∧
      (∀ i, (s.handles i).connection ≠ none → ¬ Closing (s.proc i) → s.clients.retainCount ≠ 0) ∧
      ((∀ i, ¬ Opening (s.proc i) ∧ ¬ Closing (s.proc i)) →
        s.clients.retainCount = s.clients.others + s.clients.connected.card ∧
          ∀ i, i ∈ s.clients.connected ↔ (s.handles i).connection ≠ none) ∧
      ((∀ i, ∃ ret, s.proc i = .ret ret) → s.clients.retainCount = s.clients.others) := by
  have hi := h.inv_history (Inv driver m_driver others) inv_init fun _ _ _ _ hi hst => inv_step hi hst
  obtain ⟨ctr, hclients⟩ := hi.clients
  obtain ⟨holds, hc⟩ := UserClient.run_inv hclients
  have hexit : ∀ i ret, s.proc i = .ret ret → (s.handles i).Done ret := by
    intro i ret hret
    have hspec := (hi.proc i).spec
    rw [hret] at hspec
    exact hspec.ret
  have hquiet : (∀ i, ¬ Opening (s.proc i) ∧ ¬ Closing (s.proc i)) →
      s.clients.retainCount = s.clients.others + s.clients.connected.card ∧
        ∀ i, i ∈ s.clients.connected ↔ (s.handles i).connection ≠ none := by
    intro hquiet
    have hconn := fun i => (hi.proc i).connected (hquiet i).1 (hquiet i).2
    -- No client is in a call, so those that hold the driver are those connected.
    obtain rfl : holds = s.clients.connected := by
      ext i
      simpa using ((hc.client i).idle (hconn i).1).1
    exact ⟨hc.count, fun i => (hconn i).2.trans Option.isSome_iff_ne_none⟩
  refine ⟨fun x hx => ?_, fun i ret hret => ?_, fun i hconn hclosing => ?_, hquiet, fun hall => ?_⟩
  · obtain ⟨hpre, hst, -⟩ := (h.inv (fun s => ∀ i, ProcOk s i) procOk_init fun _ _ _ => procOk_step).2 x hx
    exact proper_step hpre hst
  · obtain ⟨hdict, hservice, hconn, rfl⟩ := hexit i ret hret
    refine ⟨hdict, hservice, hconn, ?_⟩
    rw [← hi.opened i]
    cases (s.handles i).opened <;> simp
  · have hopening : ¬ Opening (s.proc i) := fun hopening => hconn ((hi.proc i).no_connection hopening)
    have hmem := ((hi.proc i).connected hopening hclosing).2.2 (Option.isSome_iff_ne_none.2 hconn)
    have hpos := Finset.card_pos.2 ⟨i, hc.connected_subset hmem⟩
    have := hc.count
    omega
  · have hnone : ∀ i, ¬ Opening (s.proc i) ∧ ¬ Closing (s.proc i) := fun i => by
      obtain ⟨ret, hret⟩ := hall i
      rw [hret]
      exact ⟨id, id⟩
    obtain ⟨hcount, hconn⟩ := hquiet hnone
    have hempty : s.clients.connected = ∅ := by
      refine Finset.eq_empty_of_forall_notMem fun i hmem => ?_
      obtain ⟨ret, hret⟩ := hall i
      exact (hconn i).1 hmem (hexit i ret hret).2.2.1
    rw [hcount, hempty, Finset.card_empty, Nat.add_zero]

/-- One process connects while another finds no service, and both exit. -/
def connectOnce : List (Act Bool ℕ ℕ) :=
  [.call true ⟨.ioServiceMatching, some 1⟩, .call true ⟨.ioServiceGetMatchingService 1, some 7⟩,
    .client (.begin true .init), .client (.call true ⟨.superInit, true⟩), .client (.finish true),
    .client (.begin true (.start 7)), .client (.call true ⟨.superStart 7, kIOReturnSuccess⟩),
    .call false ⟨.ioServiceMatching, some 1⟩, .client (.call true ⟨.osDynamicCast 7, some 7⟩),
    .client (.call true ⟨.retain 7, ()⟩), .client (.finish true), .call true ⟨.ioServiceOpen 7, (kernSuccess, 3)⟩,
    .call true ⟨.ioObjectRelease 7, kernSuccess⟩, .call false ⟨.ioServiceGetMatchingService 1, none⟩,
    .client (.begin true (.stop 7)), .client (.call true ⟨.release 7, ()⟩),
    .client (.call true ⟨.superStop 7, kIOReturnSuccess⟩), .client (.finish true),
    .call true ⟨.ioServiceClose 3, kernSuccess⟩]

theorem test_clients_leave_nothing_once : ∃ (tr : List (Tr (State Bool ℕ ℕ) (Act Bool ℕ ℕ))) (s : State Bool ℕ ℕ),
    Run (Step 7) (init (fun _ => none) 1) tr s ∧ tr.map (·.act) = connectOnce ∧ s.proc true = .ret 0 ∧
      s.proc false = .ret (-1) ∧ s.clients.retainCount = s.clients.others := by
  obtain ⟨tr, s, hex, htrue, hfalse⟩ : ∃ tr s, exec (step 7) (init (fun _ => none) 1) connectOnce = some (tr, s) ∧
      s.proc true = .ret 0 ∧ s.proc false = .ret (-1) := ⟨_, _, rfl, rfl, rfl⟩
  obtain ⟨hr, hacts⟩ := run_of_exec _ _ _ hex
  refine ⟨tr, s, hr, hacts, htrue, hfalse, (test_clients_leave_nothing hr).2.2.2.2 fun i => ?_⟩
  cases i with
  | true => exact ⟨0, htrue⟩
  | false => exact ⟨-1, hfalse⟩

end PortingKit.Driver.TestClient
