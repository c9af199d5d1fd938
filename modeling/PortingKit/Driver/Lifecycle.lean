import PortingKit.Driver.Paths
/-!
# Start and Stop of one driver

Runs of `Start` and `Stop` calls on one driver object. `Start` is only called
on a driver that is not started; the outside answers every call as it likes.
Between two calls the driver either owns one live device and one open session,
or nothing at all, whatever stale pointers `ivars` still holds.
-/
open PortingKit.Lib PortingKit.Shim
open PortingKit.Lib.Prog (Exec exec_exists)

namespace PortingKit.Driver

variable {A P : Type} [DecidableEq A] [DecidableEq P]

/-! ## Runs -/

structure State (A P : Type) where
  ivars : IVars A P
  started : Bool
  world : World A P

/-- A request, the calls it made and the code it returned. -/
structure Act (A P : Type) where
  req : Request P
  calls : List (Tr (World A P) (Event A P))
  ret : KernReturn

/-- `Start` is not called on a started driver. -/
structure Step (drv : NVIDIADriver A) (s : State A P) (a : Act A P) (s' : State A P) : Prop where
  start : ∀ provider, a.req = .start provider → s.started = false
  code : Exec World.step (a.req.code drv s.ivars) s.world a.calls (a.ret, s'.ivars) s'.world
  started : s'.started = a.req.started a.ret

/-- A step where `Stop` is called on a started driver only. -/
structure OrderlyStep (drv : NVIDIADriver A) (s : State A P) (a : Act A P) (s' : State A P) : Prop
    extends Step drv s a s' where
  stop : ∀ provider, a.req = .stop provider → s.started = true

/-- A driver after `init`, which zeroes `ivars`. -/
def init : State A P := ⟨⟨none, none⟩, false, .empty⟩

def State.Inv (s : State A P) : Prop := Driver.Inv s.started s.ivars s.world

/-- A driver that is not started can be started along any path. -/
theorem step_of_path {drv : NVIDIADriver A} {provider : P} {ivars ivars' : IVars A P} {w' : World A P} {tr ret}
    (h : StartPath drv provider ivars tr ret ivars' w') :
    OrderlyStep drv ⟨ivars, false, .empty⟩ ⟨.start provider, tr, ret⟩ ⟨ivars', ret = kIOReturnSuccess, w'⟩ where
  start _ _ := rfl
  code := exec_of_path h
  started := rfl
  stop _ h := by cases h

/-- Any driver can be asked to stop. -/
theorem exists_stop (drv : NVIDIADriver A) (provider : P) (s : State A P) :
    ∃ calls ret s', Step drv s ⟨.stop provider, calls, ret⟩ s' := by
  obtain ⟨calls, ⟨ret, ivars'⟩, w', h⟩ := exec_exists World.step_total (stop provider s.ivars) s.world
  exact ⟨calls, ret, ⟨ivars', false, w'⟩, by simp, h, rfl⟩

/-- No `Stop` finds a stale pointer in `ivars`. -/
def StopsClean (s : State A P) (a : Act A P) : Prop :=
  ∀ provider, a.req = .stop provider → s.started = true ∨ s.ivars.pciDevice = none ∧ s.ivars.nvDevice = none

/-! ## What a step keeps -/

omit [DecidableEq A] [DecidableEq P] in
theorem inv_init : (init : State A P).Inv := idle_empty

/-- From between two calls, a request that does not trip over a stale pointer
makes proper calls only and ends between two calls. -/
theorem step_inv {drv : NVIDIADriver A} {s s' : State A P} {a : Act A P} (hi : s.Inv) (h : Step drv s a s')
    (hc : StopsClean s a) : s'.Inv ∧ ∀ t ∈ a.calls, t.pre.Proper t.act.1 := by
  obtain ⟨hstart, hcode, hstarted⟩ := h
  obtain ⟨req, calls, ret⟩ := a
  obtain ⟨ivars, started, w⟩ := s
  obtain ⟨ivars', started', w'⟩ := s'
  simp only at hcode hstarted
  subst hstarted
  cases req with
  | start provider =>
    obtain rfl : started = false := hstart provider rfl
    exact (start_spec hi _ _ _ hcode).symm
  | stop provider => exact (stop_spec hi (hc provider rfl) _ _ _ hcode).symm

/-- A `Stop` that does trip over a stale pointer makes a call it must not. -/
theorem stopsClean_of_safe {drv : NVIDIADriver A} {s s' : State A P} {a : Act A P} (hi : s.Inv) (h : Step drv s a s')
    (hs : ∀ t ∈ a.calls, t.pre.Safe t.act.1) : StopsClean s a := by
  rintro provider hreq
  obtain ⟨-, hcode, -⟩ := h
  obtain ⟨ivars, started, w⟩ := s
  cases started with
  | true => exact .inl rfl
  | false =>
    obtain rfl := idle_iff.1 hi
    rw [hreq] at hcode
    have hnull := stop_stale hcode hs
    exact .inr ⟨congrArg (·.pciDevice) hnull, congrArg (·.nvDevice) hnull⟩

/-! ## Stop after any Start -/

/-- Every call of a run is safe exactly when every `Stop` in it comes on a
started driver or finds both pointers NULL. -/
theorem stop_safe_iff {drv : NVIDIADriver A} {tr : List (Tr (State A P) (Act A P))} {s : State A P}
    (hr : Run (Step drv) init tr s) :
    (∀ t ∈ tr, ∀ u ∈ t.act.calls, u.pre.Safe u.act.1) ↔ ∀ t ∈ tr, StopsClean t.pre t.act := by
  refine hr.forall_iff State.Inv StopsClean (fun t => ∀ u ∈ t.act.calls, u.pre.Safe u.act.1) inv_init ?_ ?_
  · exact fun s a s' hi hc h => (step_inv hi h hc).1
  · refine fun s a s' hi h => ⟨stopsClean_of_safe hi h, fun hc u hu => ?_⟩
    exact ((step_inv hi h hc).2 u hu).safe

/-- A successful `Start` and a `Stop` make safe calls only. -/
theorem stop_safe_after_start : ∃ (tr : List (Tr (State Nat Nat) (Act Nat Nat))) (s : State Nat Nat),
    Run (Step ⟨0, 0, 0⟩) init tr s ∧ tr.length = 2 ∧ ∀ t ∈ tr, ∀ u ∈ t.act.calls, u.pre.Safe u.act.1 := by
  have hp : StartPath (⟨0, 0, 0⟩ : NVIDIADriver Nat) 1 ⟨none, none⟩ _ _ _ _ := .started 0x10de 5
  have h1 := (step_of_path hp).toStep
  obtain ⟨calls, ret, s', h2⟩ := exists_stop (⟨0, 0, 0⟩ : NVIDIADriver Nat) 1 _
  have hr : Run (Step ⟨0, 0, 0⟩) init _ s' := .cons h1 (.cons h2 .nil)
  refine ⟨_, s', hr, rfl, (stop_safe_iff hr).2 ?_⟩
  simp [StopsClean]

/-- `Stop` after a `Start` that failed to grab ownership hands out the device
that `Start` already freed. -/
theorem stop_not_safe : ¬ ∀ (tr : List (Tr (State Nat Nat) (Act Nat Nat))) (s : State Nat Nat),
    Run (Step ⟨0, 0, 0⟩) init tr s → ∀ t ∈ tr, ∀ u ∈ t.act.calls, u.pre.Safe u.act.1 := by
  intro h
  have hp : StartPath (⟨0, 0, 0⟩ : NVIDIADriver Nat) 1 ⟨none, none⟩ _ _ _ _ := .grabFailed 0x10de 5 0
  have h1 := (step_of_path hp).toStep
  obtain ⟨calls, ret, s', h2⟩ := exists_stop (⟨0, 0, 0⟩ : NVIDIADriver Nat) 1 _
  have hs := h _ s' (.cons h1 (.cons h2 .nil)) _ (List.mem_cons_of_mem _ List.mem_cons_self)
  have hcode : Exec World.step (stop 1 ⟨some 1, some 5⟩) .empty calls (ret, s'.ivars) s'.world := h2.code
  have hnull := stop_stale hcode hs
  cases hnull

/-! ## Restarts -/

theorem OrderlyStep.stopsClean {drv : NVIDIADriver A} {s s' : State A P} {a : Act A P}
    (h : OrderlyStep drv s a s') : StopsClean s a := fun provider hreq => .inl (h.stop provider hreq)

theorem orderly_inv {drv : NVIDIADriver A} {tr : List (Tr (State A P) (Act A P))} {s : State A P}
    (hr : Run (OrderlyStep drv) init tr s) :
    s.Inv ∧ ∀ t ∈ tr, t.pre.Inv ∧ OrderlyStep drv t.pre t.act t.post ∧ t.post.Inv :=
  hr.inv State.Inv inv_init fun _ _ _ hi h => (step_inv hi h.toStep h.stopsClean).1

/-- A started driver owns the one live device and has its session open; one that
is not started owns nothing. No call is made with two devices live. -/
theorem restart_inv {drv : NVIDIADriver A} {tr : List (Tr (State A P) (Act A P))} {s : State A P}
    (hr : Run (OrderlyStep drv) init tr s) :
    (s.started = true → ∃ p q, Running s.ivars s.world p q) ∧ (s.started = false → Idle s.world) ∧
      ∀ t ∈ tr, ∀ u ∈ t.act.calls, u.pre.AtMostOne := by
  obtain ⟨hi, ht⟩ := orderly_inv hr
  refine ⟨fun h => ?_, fun h => ?_, fun t htr u hu => ?_⟩
  · simpa only [State.Inv, h, Inv] using hi
  · simpa only [State.Inv, h, Inv] using hi
  · obtain ⟨hpre, hst, -⟩ := ht t htr
    exact ((step_inv hpre hst.toStep hst.stopsClean).2 u hu).atMostOne

/-- A `Start` that runs out of memory is retried. -/
theorem restart_inv_retry : ∃ (tr : List (Tr (State Nat Nat) (Act Nat Nat))) (s : State Nat Nat),
    Run (OrderlyStep ⟨0, 0, 0⟩) init tr s ∧ s.started = true ∧ ∃ p q, Running s.ivars s.world p q := by
  have hp : StartPath (⟨0, 0, 0⟩ : NVIDIADriver Nat) 1 ⟨none, none⟩ _ _ _ _ := .allocFailed 0x10de 0
  have hp' : StartPath (⟨0, 0, 0⟩ : NVIDIADriver Nat) 1 ⟨some 1, none⟩ _ _ _ _ := .started 0x10de 5
  have hr := Run.cons (step_of_path hp) (.cons (step_of_path hp') .nil)
  exact ⟨_, _, hr, rfl, (restart_inv hr).1 rfl⟩

/-! ## Balanced acquisitions -/

/-- All calls to the outside, in order. -/
def events (tr : List (Tr (State A P) (Act A P))) : List (Event A P) :=
  tr.flatMap fun t => t.act.calls.map (·.act)

/-- Both balances are 1 if the driver is started and 0 otherwise. -/
structure Balanced (started : Bool) (l : List (Event A P)) : Prop where
  shim : shimBalance l = started.toNat
  super : superBalance l = started.toNat

/-- No `Start` fails in the cast, `Open`, the allocation or the ownership grab. -/
def NoFailure (t : Tr (State A P) (Act A P)) : Prop :=
  ∀ provider, t.act.req = .start provider → ∀ u ∈ t.act.calls, Event.failure u.act = false

omit [DecidableEq A] [DecidableEq P] in
theorem balanced_append {started : Bool} {l l' : List (Event A P)} (h : Balanced started l) (started' : Bool) :
    Balanced started' (l ++ l') ↔
      shimBalance l' = started'.toNat - started.toNat ∧ superBalance l' = started'.toNat - started.toNat := by
  obtain ⟨h1, h2⟩ := h
  simp only [shimBalance, superBalance] at h1 h2
  constructor
  · rintro ⟨h3, h4⟩
    simp only [shimBalance, superBalance, List.countP_append] at h3 h4 ⊢
    omega
  · rintro ⟨h3, h4⟩
    simp only [shimBalance, superBalance] at h3 h4
    constructor <;> simp only [shimBalance, superBalance, List.countP_append] <;> omega

theorem balance_step {drv : NVIDIADriver A} {s s' : State A P} {a : Act A P} (hi : s.Inv)
    (h : OrderlyStep drv s a s') :
    (shimBalance (a.calls.map (·.act)) = s'.started.toNat - s.started.toNat ∧
      superBalance (a.calls.map (·.act)) = s'.started.toNat - s.started.toNat) ↔ NoFailure ⟨s, a, s'⟩ := by
  obtain ⟨⟨hstart, hcode, hstarted⟩, hstop⟩ := h
  obtain ⟨req, calls, ret⟩ := a
  obtain ⟨ivars, started, w⟩ := s
  obtain ⟨ivars', started', w'⟩ := s'
  simp only at hcode hstarted
  subst hstarted
  cases req with
  | start provider =>
    obtain rfl : started = false := hstart provider rfl
    obtain rfl := idle_iff.1 hi
    simpa [NoFailure, Request.started] using (start_cases hcode).balance
  | stop provider =>
    obtain rfl : started = true := hstop provider rfl
    obtain ⟨p, q, hr⟩ := hi
    obtain ⟨rfl, gpuId, rfl⟩ := running_iff.1 hr
    obtain ⟨rfl, rfl, rfl⟩ := stop_running hcode
    simp [NoFailure, Request.started, shimBalance, superBalance, List.countP_cons, Event.initOk, Event.teardown,
      Event.superStartOk, Event.superStop]

/-- The balances follow the driver's state over a whole run exactly when no
`Start` in it fails in the cast, `Open`, the allocation or the ownership grab. -/
theorem balanced_iff {drv : NVIDIADriver A} {tr : List (Tr (State A P) (Act A P))} {s : State A P}
    (hr : Run (OrderlyStep drv) init tr s) :
    (∀ tr₁ t tr₂, tr = tr₁ ++ t :: tr₂ → Balanced t.post.started (events (tr₁ ++ [t]))) ↔
      ∀ t ∈ tr, NoFailure t := by
  refine hr.forall_prefix_iff (fun tr s => Balanced s.started (events tr)) NoFailure ⟨rfl, rfl⟩ ?_
  intro tr s a s' hr hB h
  have hev : events (tr ++ [⟨s, a, s'⟩]) = events tr ++ a.calls.map (·.act) := by simp [events]
  rw [hev, balanced_append hB]
  exact balance_step (orderly_inv hr).1 h

/-- A first `Start` is refused by `super::Start`, and a second succeeds. -/
theorem balanced_retry : ∃ (tr : List (Tr (State Nat Nat) (Act Nat Nat))) (s : State Nat Nat),
    Run (OrderlyStep ⟨0, 0, 0⟩) init tr s ∧ tr.length = 2 ∧
      ∀ tr₁ t tr₂, tr = tr₁ ++ t :: tr₂ → Balanced t.post.started (events (tr₁ ++ [t])) := by
  have hp : StartPath (⟨0, 0, 0⟩ : NVIDIADriver Nat) 1 ⟨none, none⟩ _ _ _ _ := .superFailed kIOReturnError (by decide)
  have hp' : StartPath (⟨0, 0, 0⟩ : NVIDIADriver Nat) 1 ⟨none, none⟩ _ _ _ _ := .started 0x10de 5
  have hr := Run.cons (step_of_path hp) (.cons (step_of_path hp') .nil)
  refine ⟨_, _, hr, rfl, (balanced_iff hr).2 ?_⟩
  simp [NoFailure, afterAlloc, afterOpen, afterCast, Event.failure]

/-- A `Start` whose provider is no PCI device leaves `super::Start` undone. -/
theorem not_balanced : ¬ ∀ (tr : List (Tr (State Nat Nat) (Act Nat Nat))) (s : State Nat Nat),
    Run (OrderlyStep ⟨0, 0, 0⟩) init tr s →
      ∀ tr₁ t tr₂, tr = tr₁ ++ t :: tr₂ → Balanced t.post.started (events (tr₁ ++ [t])) := by
  intro h
  have hp : StartPath (⟨0, 0, 0⟩ : NVIDIADriver Nat) 1 ⟨none, none⟩ _ _ _ _ := .castFailed
  have hb := h _ _ (.cons (step_of_path hp) .nil) [] _ [] rfl
  exact absurd hb.super (by decide)

end PortingKit.Driver
