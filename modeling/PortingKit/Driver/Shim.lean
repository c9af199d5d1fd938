import Mathlib.Logic.Function.Basic
import PortingKit.Lib.Runs
/-!
# nvkms_macos_shim.cpp

The shim hands out devices and keeps one flag in each, `ownership_grabbed`.
`A` is the type of addresses and a possibly NULL pointer is an `Option A`. A
function answers `none` where the C++ code would follow a NULL pointer or touch
memory that is not allocated.
-/
open PortingKit.Lib

namespace PortingKit.Shim

variable {A : Type} [DecidableEq A]

structure NvKmsKapiDevice where
  gpuId : BitVec 32
  ownership_grabbed : Bool
  deriving DecidableEq

structure NvKmsKapiAllocateDeviceParams (A : Type) where
  gpuId : BitVec 32
  privateData : Option A
  eventCallback : Option A
  deriving DecidableEq

/-- `caps` of the resources info. -/
structure Caps where
  minWidthInPixels : BitVec 32
  minHeightInPixels : BitVec 32
  maxWidthInPixels : BitVec 32
  maxHeightInPixels : BitVec 32
  maxCursorSizeInPixels : BitVec 32
  supportsSyncpts : Bool
  deriving DecidableEq

structure NvKmsKapiDeviceResourcesInfo where
  caps : Caps
  deriving DecidableEq

/-- The live devices. -/
abbrev Devices (A : Type) := A → Option NvKmsKapiDevice

def nvkmsShimInit : Int := 0

/-- The first `printf` reads `params->gpuId`, before `params` is tested. -/
def nvkmsShimAllocateDevice (params : Option (NvKmsKapiAllocateDeviceParams A)) (malloc : Option A)
    (devs : Devices A) : Option (Option A × Devices A) := do
  let _gpuId ← params.map (·.gpuId)
  match params with
  | none => return (none, devs)
  | some params =>
    match malloc with
    | none => return (none, devs)
    | some fake_device =>
      return (some fake_device, Function.update devs fake_device (some ⟨params.gpuId, false⟩))

def nvkmsShimFreeDevice (pDevice : Option A) (devs : Devices A) : Option (Devices A) :=
  match pDevice with
  | some p => do
    let _ ← devs p
    return Function.update devs p none
  | none => return devs

/-- The device is tested and not read. -/
def nvkmsShimGetDeviceResourcesInfo (pDevice pResInfo : Option A) (infos : A → Option NvKmsKapiDeviceResourcesInfo) :
    Option (Bool × (A → Option NvKmsKapiDeviceResourcesInfo)) :=
  match pDevice, pResInfo with
  | some _, some p => do
    let _ ← infos p
    return (true, Function.update infos p (some ⟨⟨640, 480, 7680, 4320, 256, true⟩⟩))
  | _, _ => return (false, infos)

def nvkmsShimGrabOwnership (pDevice : Option A) (devs : Devices A) : Option (Bool × Devices A) :=
  match pDevice with
  | some p => do
    let device ← devs p
    return (true, Function.update devs p (some { device with ownership_grabbed := true }))
  | none => return (false, devs)

def nvkmsShimReleaseOwnership (pDevice : Option A) (devs : Devices A) : Option (Devices A) :=
  match pDevice with
  | some p => do
    let device ← devs p
    return Function.update devs p (some { device with ownership_grabbed := false })
  | none => return devs

/-- Neither argument is looked at. -/
def nvkmsShimDeclareEventInterest (_pDevice : Option A) (_event_mask : BitVec 32) : Bool := true

/-! ## Histories of calls -/

inductive Call (A : Type) where
  /-- `malloc` answers the pointer given, or NULL. -/
  | allocate (params : NvKmsKapiAllocateDeviceParams A) (malloc : Option A)
  | grab (device : A) (ok : Bool)
  | release (device : A)
  | free (device : A)

/-- The device a call is about. -/
def Call.device : Call A → Option A
  | .allocate _ malloc => malloc
  | .grab d _ | .release d | .free d => some d

/-- A call, with the caller that makes it; the shim does not know the caller. -/
structure Act (C A : Type) where
  caller : C
  call : Call A

variable {C : Type}

/-- A call on a live device, answering what the action says. -/
def step (devs : Devices A) (a : Act C A) : Option (Devices A) :=
  match a.call with
  | .allocate params malloc => do
    let (_, devs') ← nvkmsShimAllocateDevice (some params) malloc devs
    if ∀ p ∈ malloc, devs p = none then some devs' else none
  | .grab d ok => do
    let (ret, devs') ← nvkmsShimGrabOwnership (some d) devs
    if ret = ok then some devs' else none
  | .release d => nvkmsShimReleaseOwnership (some d) devs
  | .free d => nvkmsShimFreeDevice (some d) devs

abbrev Step (devs : Devices A) (a : Act C A) (devs' : Devices A) : Prop := step devs a = some devs'

/-- An earlier grab on the device succeeded and it was not released since. -/
def Grabbed (tr : List (Tr (Devices A) (Act C A))) (d : A) : Prop :=
  ∃ tr₁ u tr₂, tr = tr₁ ++ u :: tr₂ ∧ u.act.call = .grab d true ∧
    ∀ v ∈ tr₂, v.act.call ≠ .release d ∧ v.act.call ≠ .free d

/-- Ownership as the header promises it, for the call after a history: a grab
succeeds exactly when the device is not grabbed, and no other device changes. -/
structure Exclusive (tr : List (Tr (Devices A) (Act C A))) (u : Tr (Devices A) (Act C A)) : Prop where
  grab : ∀ d ok, u.act.call = .grab d ok → (ok = true ↔ ¬ Grabbed tr d)
  frame : ∀ d, u.act.call.device ≠ some d → u.post d = u.pre d

/-- The call is no grab of a device whose ownership is taken. -/
def NotTaken (devs : Devices A) (a : Act C A) : Prop :=
  ∀ d ok dev, a.call = .grab d ok → devs d = some dev → dev.ownership_grabbed = false

/-- What a call does, by cases. -/
theorem step_cases {devs devs' : Devices A} {a : Act C A} (h : Step devs a devs') :
    (∃ params, a.call = .allocate params none ∧ devs' = devs) ∨
    (∃ params p, a.call = .allocate params (some p) ∧ devs p = none ∧
      devs' = Function.update devs p (some ⟨params.gpuId, false⟩)) ∨
    (∃ d dev, a.call = .grab d true ∧ devs d = some dev ∧
      devs' = Function.update devs d (some { dev with ownership_grabbed := true })) ∨
    (∃ d dev, a.call = .release d ∧ devs d = some dev ∧
      devs' = Function.update devs d (some { dev with ownership_grabbed := false })) ∨
    (∃ d dev, a.call = .free d ∧ devs d = some dev ∧ devs' = Function.update devs d none) := by
  obtain ⟨c, call⟩ := a
  cases call with
  | allocate params malloc =>
    cases malloc with
    | none => simp_all [Step, step, nvkmsShimAllocateDevice]
    | some p =>
      simp only [Step, step, nvkmsShimAllocateDevice, Option.map_some, Option.bind_eq_bind, Option.bind_some,
        Option.pure_def, Option.mem_def, Option.some.injEq, forall_eq', Option.ite_none_right_eq_some] at h
      exact .inr (.inl ⟨params, p, rfl, h.1, h.2.symm⟩)
  | grab d ok =>
    simp only [Step, step, nvkmsShimGrabOwnership, Option.bind_eq_bind, Option.pure_def, Option.bind_eq_some_iff,
      Option.ite_none_right_eq_some, Option.some.injEq, Prod.exists, Prod.mk.injEq] at h
    obtain ⟨_, _, ⟨dev, hd, rfl, rfl⟩, rfl, rfl⟩ := h
    exact .inr (.inr (.inl ⟨d, dev, rfl, hd, rfl⟩))
  | release d =>
    simp only [Step, step, nvkmsShimReleaseOwnership, Option.bind_eq_bind, Option.pure_def, Option.bind_eq_some_iff,
      Option.some.injEq] at h
    obtain ⟨dev, hd, rfl⟩ := h
    exact .inr (.inr (.inr (.inl ⟨d, dev, rfl, hd, rfl⟩)))
  | free d =>
    simp only [Step, step, nvkmsShimFreeDevice, Option.bind_eq_bind, Option.pure_def, Option.bind_eq_some_iff,
      Option.some.injEq] at h
    obtain ⟨dev, hd, rfl⟩ := h
    exact .inr (.inr (.inr (.inr ⟨d, dev, rfl, hd, rfl⟩)))

/-- A call changes its own device only. -/
theorem step_frame {devs devs' : Devices A} {a : Act C A} (h : Step devs a devs') {d : A}
    (hd : a.call.device ≠ some d) : devs' d = devs d := by
  rcases step_cases h with ⟨_, -, rfl⟩ | ⟨_, p, hc, -, rfl⟩ | ⟨p, _, hc, -, rfl⟩ | ⟨p, _, hc, -, rfl⟩ |
    ⟨p, _, hc, -, rfl⟩
  · rfl
  all_goals
    have hne : d ≠ p := by rintro rfl; exact hd (by rw [hc]; rfl)
    exact Function.update_of_ne hne _ _

/-! ## The flag records the history -/

omit [DecidableEq A] in
theorem not_grabbed_nil (d : A) : ¬ Grabbed ([] : List (Tr (Devices A) (Act C A))) d := by
  rintro ⟨tr₁, u, tr₂, h, -⟩
  simp at h

omit [DecidableEq A] in
theorem grabbed_snoc {tr : List (Tr (Devices A) (Act C A))} {u : Tr (Devices A) (Act C A)} {d : A} :
    Grabbed (tr ++ [u]) d ↔
      u.act.call = .grab d true ∨ Grabbed tr d ∧ u.act.call ≠ .release d ∧ u.act.call ≠ .free d := by
  constructor
  · rintro ⟨tr₁, v, tr₂, h, hv, hlater⟩
    rcases snoc_eq_append_cons.1 h with ⟨rfl, rfl, rfl⟩ | ⟨tr₃, rfl, rfl⟩
    · exact .inl hv
    · exact .inr ⟨⟨tr₁, v, tr₃, rfl, hv, fun x hx => hlater x (by simp [hx])⟩, hlater u (by simp)⟩
  · rintro (h | ⟨⟨tr₁, v, tr₂, rfl, hv, hlater⟩, hu⟩)
    · exact ⟨tr, u, [], rfl, h, by simp⟩
    · refine ⟨tr₁, v, tr₂ ++ [u], by simp, hv, fun x hx => ?_⟩
      rcases List.mem_append.1 hx with hx | hx
      · exact hlater x hx
      · rw [List.mem_singleton] at hx; subst hx; exact hu

/-- A device is grabbed exactly when it is live with its flag set. -/
def Recorded (tr : List (Tr (Devices A) (Act C A))) (devs : Devices A) : Prop :=
  ∀ d, Grabbed tr d ↔ ∃ dev, devs d = some dev ∧ dev.ownership_grabbed = true

theorem recorded_step {tr : List (Tr (Devices A) (Act C A))} {devs devs' : Devices A} {a : Act C A}
    (hr : Recorded tr devs) (h : Step devs a devs') : Recorded (tr ++ [⟨devs, a, devs'⟩]) devs' := by
  intro d
  rw [grabbed_snoc]
  by_cases hd : a.call.device = some d
  · rcases step_cases h with ⟨_, hc, rfl⟩ | ⟨_, p, hc, hp, rfl⟩ | ⟨p, dev, hc, hp, rfl⟩ | ⟨p, dev, hc, hp, rfl⟩ |
      ⟨p, dev, hc, hp, rfl⟩ <;> simp only [hc, Call.device, Option.some.injEq, reduceCtorEq] at hd <;> subst hd
    · -- The address was not live, so nobody had it grabbed.
      have hn : ¬ Grabbed tr p := by simp [hr p, hp]
      simp [hc, hn]
    all_goals simp [hc]
  · have hne : a.call ≠ .grab d true ∧ a.call ≠ .release d ∧ a.call ≠ .free d := by
      refine ⟨?_, ?_, ?_⟩ <;> intro hc <;> exact hd (by rw [hc]; rfl)
    rw [step_frame h hd, ← hr d]
    simp [hne]

theorem run_recorded {tr : List (Tr (Devices A) (Act C A))} {devs : Devices A}
    (hr : Run Step (fun _ => none) tr devs) : Recorded tr devs :=
  hr.inv_history Recorded (fun d => by simp [not_grabbed_nil]) fun _ _ _ _ => recorded_step

/-! ## Exclusive ownership -/

/-- The flag is never looked at: a grab on a live device succeeds, whoever has it. -/
theorem exclusive_step {tr : List (Tr (Devices A) (Act C A))} {devs devs' : Devices A} {a : Act C A}
    (hr : Recorded tr devs) (h : Step devs a devs') : Exclusive tr ⟨devs, a, devs'⟩ ↔ NotTaken devs a := by
  constructor
  · intro he d ok dev hc hd
    rcases step_cases h with ⟨_, hc', -⟩ | ⟨_, _, hc', -⟩ | ⟨p, _, hc', -⟩ | ⟨p, _, hc', -⟩ | ⟨p, _, hc', -⟩ <;>
      simp only [hc', reduceCtorEq, Call.grab.injEq] at hc
    obtain ⟨rfl, rfl⟩ := hc
    -- The grab succeeded, so by exclusivity nobody had the device.
    have hn := (he.grab p true hc').1 rfl
    simpa [hr p, hd] using hn
  · intro hn
    refine ⟨fun d ok hc => ?_, fun d hd => step_frame h hd⟩
    rcases step_cases h with ⟨_, hc', -⟩ | ⟨_, _, hc', -⟩ | ⟨p, dev, hc', hd, -⟩ | ⟨p, _, hc', -⟩ | ⟨p, _, hc', -⟩ <;>
      simp only [hc', reduceCtorEq, Call.grab.injEq] at hc
    obtain ⟨rfl, rfl⟩ := hc
    simpa [hr p, hd] using hn p true dev hc' hd

/-- Ownership is exclusive along a history exactly when every grab in it is of
a device whose flag is clear. -/
theorem ownership_exclusive_iff {tr : List (Tr (Devices A) (Act C A))} {devs : Devices A}
    (hr : Run Step (fun _ => none) tr devs) :
    (∀ tr₁ u tr₂, tr = tr₁ ++ u :: tr₂ → Exclusive tr₁ u) ↔ ∀ u ∈ tr, NotTaken u.pre u.act := by
  have key : ∀ tr₁ u tr₂, tr = tr₁ ++ u :: tr₂ → (Exclusive tr₁ u ↔ NotTaken u.pre u.act) := by
    rintro tr₁ u tr₂ rfl
    obtain ⟨h₁, hst, -⟩ := hr.split
    exact exclusive_step (run_recorded h₁) hst
  constructor
  · intro h u hu
    obtain ⟨tr₁, tr₂, e⟩ := List.append_of_mem hu
    exact (key tr₁ u tr₂ e).1 (h tr₁ u tr₂ e)
  · rintro h tr₁ u tr₂ rfl
    exact (key tr₁ u tr₂ rfl).2 (h u (by simp))

/-- Two callers take turns on a device, one releasing it before the other grabs it. -/
theorem ownership_exclusive_turns : ∃ (tr : List (Tr (Devices Nat) (Act Bool Nat))) (devs : Devices Nat),
    Run Step (fun _ => none) tr devs ∧ ∀ tr₁ u tr₂, tr = tr₁ ++ u :: tr₂ → Exclusive tr₁ u := by
  have hr := (run_of_exec step (fun _ => none)
    [⟨false, .allocate ⟨0, none, none⟩ (some 1)⟩, ⟨false, .grab 1 true⟩, ⟨false, .release 1⟩,
      (⟨true, .grab 1 true⟩ : Act Bool Nat)] rfl).1
  refine ⟨_, _, hr, (ownership_exclusive_iff hr).2 ?_⟩
  suffices h : ∀ (d : Nat) (dev : NvKmsKapiDevice), 1 = d →
      Function.update (fun _ => none) 1 (some ⟨0#32, false⟩) d = some dev →
      dev.ownership_grabbed = false by simpa [NotTaken] using h
  rintro d dev rfl hd
  rw [Function.update_self, Option.some.injEq] at hd
  rw [← hd]

/-- A second caller grabs a device the first has not released. -/
theorem ownership_not_exclusive :
    ¬ ∀ (tr : List (Tr (Devices Nat) (Act Bool Nat))) (devs : Devices Nat), Run Step (fun _ => none) tr devs →
      ∀ tr₁ u tr₂, tr = tr₁ ++ u :: tr₂ → Exclusive tr₁ u := by
  intro h
  have hr := (run_of_exec step (fun _ => none)
    [⟨false, .allocate ⟨0, none, none⟩ (some 1)⟩, ⟨false, .grab 1 true⟩, (⟨true, .grab 1 true⟩ : Act Bool Nat)] rfl).1
  have he := h _ _ hr [_, _] _ [] rfl
  exact (he.grab 1 true rfl).1 rfl ⟨[_], _, [], rfl, rfl, by simp⟩

end PortingKit.Shim
