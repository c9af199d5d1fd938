import PortingKit.Driver.Lifecycle
/-!
# The service over restarts

What a client can rely on when it finds the service, and what the calls of a
driver add up to over any number of successful and failed restarts: the PCI
session, the device and its ownership always come back, and what is lost is one
shim initialisation or one `super::Start` for each failed attempt of some kinds.
-/
open PortingKit.Lib PortingKit.Shim
open PortingKit.Lib.Prog (Exec)

namespace PortingKit.Driver

variable {A P : Type}

/-! ## The ID of a device -/

/-- An ID as one read from the config space can be. -/
def Identified (dev : NvKmsKapiDevice) : Prop := dev.gpuId ≠ 0 ∧ dev.gpuId ≠ 0xFFFFFFFF

/-- Every live device has one. -/
def World.Identified (w : World A P) : Prop := ∀ p dev, w.devs p = some dev → Driver.Identified dev

/-- The placeholder ends in a vendor ID. -/
theorem placeholder_low (YYYY : BitVec 16) : (YYYY ++ 0x10de#16).setWidth 16 = 0x10de#16 := by
  rw [BitVec.setWidth_append]
  rfl

theorem params_identified (drv : NVIDIADriver A) (id : BitVec 32) (grabbed : Bool) :
    Driver.Identified ⟨(drv.params id).gpuId, grabbed⟩ := by
  unfold Driver.Identified NVIDIADriver.params
  by_cases hid : id = 0 ∨ id = 0xFFFFFFFF
  · have hlow := placeholder_low drv.YYYY
    simp only [if_pos hid]
    refine ⟨fun h => ?_, fun h => ?_⟩
    · rw [h] at hlow
      cases hlow
    · rw [h] at hlow
      cases hlow
  · simp only [if_neg hid]
    exact not_or.1 hid

theorem identified_empty : (World.empty : World A P).Identified := fun _ _ h => by cases h

variable [DecidableEq A] [DecidableEq P]

omit [DecidableEq A] in
theorem identified_opened (q : P) : (World.opened q : World A P).Identified := fun _ _ h => by cases h

theorem identified_owning {p : A} {dev : NvKmsKapiDevice} {q : P} (h : Driver.Identified dev) :
    (World.owning p dev q).Identified := by
  intro p' dev' hdev
  by_cases hp : p' = p
  · subst hp
    rw [owning_devs, Option.some.injEq] at hdev
    exact hdev ▸ h
  · simp [World.owning, hp] at hdev

theorem StartPath.identified {drv : NVIDIADriver A} {provider : P} {ivars ivars' : IVars A P} {w' : World A P} {tr ret}
    (h : StartPath drv provider ivars tr ret ivars' w') :
    (∀ t ∈ tr, t.pre.Identified) ∧ w'.Identified := by
  have howning : ∀ id grabbed (p : A), (World.owning p ⟨(drv.params id).gpuId, grabbed⟩ provider).Identified :=
    fun id grabbed p => identified_owning (params_identified drv id grabbed)
  cases h <;> simp [afterAlloc, afterOpen, afterCast, identified_empty, identified_opened, howning]

/-! ## When the service is published -/

def Event.registers : Event A P → Bool
  | ⟨.registerService, _⟩ => true
  | _ => false

/-- The driver as it is published: owning a device on a session of its own, the device
live under the ID it was allocated with, from what was read of the config space. -/
structure Ready (drv : NVIDIADriver A) (t : Tr (State A P) (Act A P)) (p : A) (q : P) (id : BitVec 32) : Prop where
  read : ⟨.configRead32 (some q), id⟩ ∈ t.act.calls.map (·.act)
  allocated : ⟨.nvkmsShimAllocateDevice (drv.params id), ⟨some p, some p⟩⟩ ∈ t.act.calls.map (·.act)
  post : t.post = ⟨⟨some q, some p⟩, true, .owning p ⟨(drv.params id).gpuId, true⟩ q⟩

/-- The service is published with the driver in the state it is in from then on. -/
structure Published (drv : NVIDIADriver A) (t : Tr (State A P) (Act A P)) : Prop where
  once : (t.act.calls.countP fun u => Event.registers u.act) = t.post.started.toNat
  ready : ∀ u ∈ t.act.calls, Event.registers u.act = true → ∃ p q id, Ready drv t p q id ∧ u.pre = t.post.world

theorem StartPath.published {drv : NVIDIADriver A} {provider : P} {s s' : State A P}
    {tr : List (Tr (World A P) (Event A P))} {ret : KernReturn}
    (h : StartPath drv provider s.ivars tr ret s'.ivars s'.world) (hs : s'.started = decide (ret = kIOReturnSuccess)) :
    Published drv ⟨s, ⟨.start provider, tr, ret⟩, s'⟩ := by
  obtain ⟨ivars', started', w'⟩ := s'
  simp only at h hs
  subst hs
  cases h with
  | started id p =>
    refine ⟨by simp [afterAlloc, afterOpen, afterCast, Event.registers], fun u hu hreg => ?_⟩
    refine ⟨p, provider, id, ⟨?_, ?_, rfl⟩, ?_⟩
    · simp [afterAlloc, afterOpen, afterCast]
    · simp [afterAlloc, afterOpen, afterCast]
    · simp only [afterAlloc, afterOpen, afterCast, List.mem_cons, List.not_mem_nil, or_false] at hu
      rcases hu with rfl | rfl | rfl | rfl | rfl | rfl | rfl | rfl
      all_goals first | rfl | cases hreg
  | superFailed ret hret =>
    constructor <;> simp [Event.registers, hret]
  | _ =>
    constructor <;> simp [afterAlloc, afterOpen, afterCast, Event.registers]

theorem published_step {drv : NVIDIADriver A} {s s' : State A P} {a : Act A P} (hi : s.Inv)
    (hid : s.world.Identified) (h : OrderlyStep drv s a s') :
    Published drv ⟨s, a, s'⟩ ∧ (∀ u ∈ a.calls, u.pre.Identified) ∧ s'.world.Identified := by
  obtain ⟨⟨hstart, hcode, hstarted⟩, hstop⟩ := h
  obtain ⟨req, calls, ret⟩ := a
  obtain ⟨ivars, started, w⟩ := s
  simp only at hcode hstarted
  cases req with
  | start provider =>
    obtain rfl : started = false := hstart provider rfl
    obtain rfl := idle_iff.1 hi
    have hp := start_cases hcode
    exact ⟨hp.published hstarted, hp.identified⟩
  | stop provider =>
    obtain rfl : started = true := hstop provider rfl
    obtain ⟨p, q, hr⟩ := hi
    obtain ⟨rfl, gpuId, rfl⟩ := running_iff.1 hr
    obtain ⟨rfl, hivars, hworld⟩ := stop_running hcode
    have hdev := hid p _ (owning_devs p ⟨gpuId, true⟩ q)
    have howning : ∀ grabbed, (World.owning p ⟨gpuId, grabbed⟩ q).Identified := fun grabbed => identified_owning hdev
    refine ⟨⟨?_, ?_⟩, ?_, ?_⟩
    · simp [hstarted, Request.started, Event.registers]
    · simp [Event.registers]
    · simp [identified_empty, identified_opened, howning]
    · rw [hworld]
      exact identified_empty

/-- In every run of starts and stops, a successful `Start` publishes the service
exactly once, with its device live and owned under the ID it was allocated with,
made of what this `Start` read, and its session open, as they are when `Start`
returns; nothing else publishes it. And no device is ever live under an ID that a failed read gives. -/
theorem published_when_ready {drv : NVIDIADriver A} {tr : List (Tr (State A P) (Act A P))} {s : State A P}
    (hr : Run (OrderlyStep drv) init tr s) :
    ∀ t ∈ tr, Published drv t ∧ ∀ u ∈ t.act.calls, u.pre.Identified := by
  have hinv := (hr.inv (fun s => s.Inv ∧ s.world.Identified) ⟨inv_init, identified_empty⟩ ?_).2
  · intro t ht
    obtain ⟨⟨hi, hid⟩, hst, -⟩ := hinv t ht
    obtain ⟨hpub, hcalls, -⟩ := published_step hi hid hst
    exact ⟨hpub, hcalls⟩
  · rintro s a s' ⟨hi, hid⟩ hst
    exact ⟨(step_inv hi hst.toStep hst.stopsClean).1, (published_step hi hid hst).2.2⟩

/-- A `Start` whose read of the config space fails still publishes a device with an ID. -/
theorem published_when_ready_placeholder : ∃ (tr : List (Tr (State Nat Nat) (Act Nat Nat))) (s : State Nat Nat),
    Run (OrderlyStep ⟨0, 0, 0x1234⟩) init tr s ∧ s.world.devs 5 = some ⟨0x123410de, true⟩ ∧
      ∀ t ∈ tr, Published ⟨0, 0, 0x1234⟩ t := by
  have hp : StartPath (⟨0, 0, 0x1234⟩ : NVIDIADriver Nat) 1 ⟨none, none⟩ _ _ _ _ := .started 0xFFFFFFFF 5
  have hr : Run (OrderlyStep ⟨0, 0, 0x1234⟩) init _ _ := Run.cons (step_of_path hp) .nil
  exact ⟨_, _, hr, rfl, fun t ht => (published_when_ready hr t ht).1⟩

/-! ## What the calls add up to -/

def Event.opens : Event A P → Bool
  | ⟨.pciOpen _, ret⟩ => ret = kIOReturnSuccess
  | _ => false

def Event.closes : Event A P → Bool
  | ⟨.pciClose _, _⟩ => true
  | _ => false

def Event.allocates : Event A P → Bool
  | ⟨.nvkmsShimAllocateDevice _, allocated⟩ => allocated.pDevice.isSome
  | _ => false

def Event.frees : Event A P → Bool
  | ⟨.nvkmsShimFreeDevice _, _⟩ => true
  | _ => false

def Event.grabs : Event A P → Bool
  | ⟨.nvkmsShimGrabOwnership _, ok⟩ => ok
  | _ => false

def Event.releases : Event A P → Bool
  | ⟨.nvkmsShimReleaseOwnership _, _⟩ => true
  | _ => false

/-- The provider is no PCI device. -/
def Event.castFails : Event A P → Bool
  | ⟨.osDynamicCast _, pciDevice⟩ => pciDevice.isNone
  | _ => false

/-- `Open`, the allocation or the ownership grab fails. -/
def Event.failsAfterInit : Event A P → Bool
  | ⟨.pciOpen _, ret⟩ => ret ≠ kIOReturnSuccess
  | ⟨.nvkmsShimAllocateDevice _, allocated⟩ => allocated.pDevice.isNone
  | ⟨.nvkmsShimGrabOwnership _, ok⟩ => !ok
  | _ => false

def surplus (acquires releases : Event A P → Bool) (l : List (Event A P)) : Int :=
  l.countP acquires - l.countP releases

/-- The accounts of some calls that change what the driver holds by `n`. -/
structure Ledger (n : Int) (l : List (Event A P)) : Prop where
  session : surplus Event.opens Event.closes l = n
  device : surplus Event.allocates Event.frees l = n
  ownership : surplus Event.grabs Event.releases l = n
  shim : surplus Event.initOk Event.teardown l = n + l.countP Event.failsAfterInit
  super : surplus Event.superStartOk Event.superStop l = n + l.countP Event.castFails

omit [DecidableEq A] [DecidableEq P] in
theorem surplus_append (acquires releases : Event A P → Bool) (l l' : List (Event A P)) :
    surplus acquires releases (l ++ l') = surplus acquires releases l + surplus acquires releases l' := by
  unfold surplus
  rw [List.countP_append, List.countP_append]
  omega

omit [DecidableEq A] [DecidableEq P] in
theorem Ledger.append {n m : Int} {l l' : List (Event A P)} (h : Ledger n l) (h' : Ledger m l') :
    Ledger (n + m) (l ++ l') := by
  have hadd : ∀ p : Event A P → Bool, ((l ++ l').countP p : Int) = l.countP p + l'.countP p := fun p => by
    rw [List.countP_append]
    omega
  refine ⟨?_, ?_, ?_, ?_, ?_⟩
  · rw [surplus_append, h.session, h'.session]
  · rw [surplus_append, h.device, h'.device]
  · rw [surplus_append, h.ownership, h'.ownership]
  · rw [surplus_append, h.shim, h'.shim, hadd]
    omega
  · rw [surplus_append, h.super, h'.super, hadd]
    omega

theorem StartPath.ledger {drv : NVIDIADriver A} {provider : P} {ivars ivars' : IVars A P} {w' : World A P} {tr ret}
    (h : StartPath drv provider ivars tr ret ivars' w') :
    Ledger (decide (ret = kIOReturnSuccess)).toNat (tr.map (·.act)) := by
  cases h <;> constructor <;> simp [afterAlloc, afterOpen, afterCast, surplus, List.countP_cons, Event.opens, Event.closes,
    Event.allocates, Event.frees, Event.grabs, Event.releases, Event.initOk, Event.teardown, Event.superStartOk,
    Event.superStop, Event.castFails, Event.failsAfterInit, *]

theorem ledger_step {drv : NVIDIADriver A} {s s' : State A P} {a : Act A P} (hi : s.Inv)
    (h : OrderlyStep drv s a s') : Ledger (s'.started.toNat - s.started.toNat) (a.calls.map (·.act)) := by
  obtain ⟨⟨hstart, hcode, hstarted⟩, hstop⟩ := h
  obtain ⟨req, calls, ret⟩ := a
  obtain ⟨ivars, started, w⟩ := s
  obtain ⟨ivars', started', w'⟩ := s'
  simp only at hcode hstarted
  subst hstarted
  cases req with
  | start provider =>
    obtain rfl : started = false := hstart provider rfl
    obtain rfl := idle_iff.1 hi
    simpa [Request.started] using (start_cases hcode).ledger
  | stop provider =>
    obtain rfl : started = true := hstop provider rfl
    obtain ⟨p, q, hr⟩ := hi
    obtain ⟨rfl, gpuId, rfl⟩ := running_iff.1 hr
    obtain ⟨rfl, rfl, rfl⟩ := stop_running hcode
    constructor <;> simp [Request.started, surplus, List.countP_cons, Event.opens, Event.closes, Event.allocates, Event.frees,
      Event.grabs, Event.releases, Event.initOk, Event.teardown, Event.superStartOk, Event.superStop,
      Event.castFails, Event.failsAfterInit]

/-- Over every run of starts and stops, however they fail: the PCI session, the
device and its ownership are acquired once more than given back if the driver is
started and as often if it is not; the shim is initialised once more for each
failure of `Open`, the allocation or the grab, and `super::Start` for each failed
cast. -/
theorem restart_ledger {drv : NVIDIADriver A} {tr : List (Tr (State A P) (Act A P))} {s : State A P}
    (hr : Run (OrderlyStep drv) init tr s) : Ledger s.started.toNat (events tr) := by
  have h0 : Ledger (Bool.toNat false) ([] : List (Event A P)) := by constructor <;> rfl
  refine (hr.inv_history (fun tr s => s.Inv ∧ Ledger s.started.toNat (events tr)) ⟨inv_init, h0⟩ ?_).2
  rintro tr s a s' ⟨hi, hl⟩ hst
  refine ⟨(step_inv hi hst.toStep hst.stopsClean).1, ?_⟩
  have hev : events (tr ++ [⟨s, a, s'⟩]) = events tr ++ a.calls.map (·.act) := by simp [events]
  have hn : (s'.started.toNat : Int) = s.started.toNat + (s'.started.toNat - s.started.toNat) := by omega
  rw [hev, hn]
  exact hl.append (ledger_step hi hst)

/-- A cast fails, then the grab, and the third `Start` succeeds: one shim
initialisation and one `super::Start` are lost. -/
theorem restart_ledger_third : ∃ (tr : List (Tr (State Nat Nat) (Act Nat Nat))) (s : State Nat Nat),
    Run (OrderlyStep ⟨0, 0, 0⟩) init tr s ∧ Ledger 1 (events tr) ∧
      surplus Event.initOk Event.teardown (events tr) = 2 ∧ surplus Event.superStartOk Event.superStop (events tr) = 2 := by
  have hp₁ : StartPath (⟨0, 0, 0⟩ : NVIDIADriver Nat) 1 ⟨none, none⟩ _ _ _ _ := .castFailed
  have hp₂ : StartPath (⟨0, 0, 0⟩ : NVIDIADriver Nat) 1 ⟨none, none⟩ _ _ _ _ := .grabFailed 0x10de 5 0
  have hp₃ : StartPath (⟨0, 0, 0⟩ : NVIDIADriver Nat) 1 ⟨some 1, some 5⟩ _ _ _ _ := .started 0x10de 5
  have hr : Run (OrderlyStep ⟨0, 0, 0⟩) init _ _ :=
    Run.cons (step_of_path hp₁) (.cons (step_of_path hp₂) (.cons (step_of_path hp₃) .nil))
  have hl := restart_ledger hr
  exact ⟨_, _, hr, hl, hl.shim.trans rfl, hl.super.trans rfl⟩

end PortingKit.Driver
