import PortingKit.Driver.Shim
import PortingKit.Lib.Prog
/-!
# NVIDIADriver.cpp

`Start` and `Stop` as programs over the calls they make. The outside answers
those calls as it likes, but a cast answers the provider or NULL, an allocation
what the shim makes of a `malloc` that hands out no live device, and a grab true
only if the shim does. `P` is the type of `IOService` pointers.
-/
open PortingKit.Lib PortingKit.Shim
open PortingKit.Lib.Prog (perform perform_bind ret_bind pure_eq Exec exec_ret exec_call Spec)

namespace PortingKit.Driver

abbrev KernReturn := BitVec 32

def kIOReturnSuccess : KernReturn := 0
def kIOReturnError : KernReturn := 0xe00002bc
def kIOReturnUnsupported : KernReturn := 0xe00002c7

@[simp] theorem error_ne_success : kIOReturnError ≠ kIOReturnSuccess := by decide
@[simp] theorem unsupported_ne_success : kIOReturnUnsupported ≠ kIOReturnSuccess := by decide

/-- `NVIDIADriver_IVars`. -/
structure IVars (A P : Type) where
  pciDevice : Option P
  nvDevice : Option A

/-- A driver object: its address, its event callback, and the device ID meant
by the `YYYY` of the source. -/
structure NVIDIADriver (A : Type) where
  this : A
  nvkms_event_callback_stub : A
  YYYY : BitVec 16

inductive Call (A P : Type) where
  | superStart (provider : P)
  | osDynamicCast (provider : P)
  | nvkmsShimInit
  | pciOpen (pciDevice : Option P)
  | configRead32 (pciDevice : Option P)
  | nvkmsShimAllocateDevice (params : NvKmsKapiAllocateDeviceParams A)
  | nvkmsShimGrabOwnership (pDevice : Option A)
  | registerService
  | nvkmsShimReleaseOwnership (pDevice : Option A)
  | nvkmsShimFreeDevice (pDevice : Option A)
  | pciClose (pciDevice : Option P)
  | nvkmsShimTeardown
  | superStop (provider : P)
  deriving DecidableEq

variable {A P : Type}

/-- The pointer an allocation answers, and what `malloc` answered in it. -/
structure Allocated (A : Type) where
  malloc : Option A
  pDevice : Option A

/-- What a call is answered with. -/
abbrev Call.Resp : Call A P → Type
  | .superStart _ | .pciOpen _ | .superStop _ => KernReturn
  | .osDynamicCast _ => Option P
  | .nvkmsShimInit => Int
  | .configRead32 _ => BitVec 32
  | .nvkmsShimAllocateDevice _ => Allocated A
  | .nvkmsShimGrabOwnership _ => Bool
  | .registerService | .nvkmsShimReleaseOwnership _ | .nvkmsShimFreeDevice _ | .pciClose _
  | .nvkmsShimTeardown => Unit

/-- Code of the driver. -/
abbrev Code (A P : Type) := Prog (@Call.Resp A P)

/-! ## Start -/

def fail (provider : P) (ivars : IVars A P) : Code A P (KernReturn × IVars A P) := do
  let _ ← perform (.superStop provider)
  return (kIOReturnError, ivars)

def failAfterOpen (provider : P) (ivars : IVars A P) : Code A P (KernReturn × IVars A P) := do
  let _ ← perform (.pciClose ivars.pciDevice)
  fail provider ivars

def failAfterAlloc (provider : P) (ivars : IVars A P) : Code A P (KernReturn × IVars A P) := do
  let _ ← perform (.nvkmsShimFreeDevice ivars.nvDevice)
  failAfterOpen provider ivars

/-- The parameters `Start` allocates with, from what it read of the PCI config
space. An ID that was not read is replaced by the placeholder. -/
def NVIDIADriver.params (drv : NVIDIADriver A) (vendorAndDeviceID : BitVec 32) : NvKmsKapiAllocateDeviceParams A where
  gpuId :=
    if vendorAndDeviceID = 0 ∨ vendorAndDeviceID = 0xFFFFFFFF then drv.YYYY ++ 0x10de#16 else vendorAndDeviceID
  privateData := some drv.this
  eventCallback := some drv.nvkms_event_callback_stub

def start (drv : NVIDIADriver A) (provider : P) (ivars : IVars A P) : Code A P (KernReturn × IVars A P) := do
  let ret ← perform (.superStart provider)
  if ret ≠ kIOReturnSuccess then
    return (ret, ivars)
  else
    let pciDevice ← perform (.osDynamicCast provider)
    let ivars := { ivars with pciDevice }
    -- This exit does not go through `fail`.
    if ivars.pciDevice.isNone then
      return (kIOReturnUnsupported, ivars)
    else
      -- 1. The shim layer.
      let status ← perform .nvkmsShimInit
      if status ≠ 0 then
        fail provider ivars
      else
        -- 2. The PCI device, whose IDs are read next.
        let ret ← perform (.pciOpen ivars.pciDevice)
        if ret ≠ kIOReturnSuccess then
          fail provider ivars
        else
          let vendorAndDeviceID ← perform (.configRead32 ivars.pciDevice)
          -- 4. The nvKms device. NULL goes into `ivars` too.
          let allocated ← perform (.nvkmsShimAllocateDevice (drv.params vendorAndDeviceID))
          let ivars := { ivars with nvDevice := allocated.pDevice }
          if ivars.nvDevice.isNone then
            failAfterOpen provider ivars
          else
            -- 5. Modesetting ownership.
            let ok ← perform (.nvkmsShimGrabOwnership ivars.nvDevice)
            if !ok then
              failAfterAlloc provider ivars
            else
              let _ ← perform .registerService
              return (kIOReturnSuccess, ivars)

/-! ## Stop -/

def stop (provider : P) (ivars : IVars A P) : Code A P (KernReturn × IVars A P) := do
  if ivars.nvDevice.isSome then
    let _ ← perform (.nvkmsShimReleaseOwnership ivars.nvDevice)
  let ivars ←
    if ivars.nvDevice.isSome then do
      let _ ← perform (.nvkmsShimFreeDevice ivars.nvDevice)
      pure { ivars with nvDevice := none }
    else
      pure ivars
  -- `pciDevice` stays set after the close.
  if ivars.pciDevice.isSome then
    let _ ← perform (.pciClose ivars.pciDevice)
  let _ ← perform .nvkmsShimTeardown
  let ret ← perform (.superStop provider)
  return (ret, ivars)

inductive Request (P : Type) where
  | start (provider : P)
  | stop (provider : P)

def Request.code (drv : NVIDIADriver A) (ivars : IVars A P) : Request P → Code A P (KernReturn × IVars A P)
  | .start provider => Driver.start drv provider ivars
  | .stop provider => Driver.stop provider ivars

/-- Whether the driver is started once the request has returned `ret`. -/
def Request.started : Request P → KernReturn → Bool
  | .start _, ret => ret = kIOReturnSuccess
  | .stop _, _ => false

/-! ## The world a driver runs in -/

/-- The live devices, and the providers the driver has a session open on. -/
structure World (A P : Type) where
  devs : Devices A
  session : P → Bool

variable [DecidableEq A] [DecidableEq P]

/-- The world after a call with this answer, if it may be answered so. A grab may
fail. A release or free of a device that is not live leaves the world as it is. -/
def World.step (w : World A P) : (c : Call A P) → c.Resp → Option (World A P)
  | .osDynamicCast provider, pciDevice => if ∀ q ∈ pciDevice, q = provider then some w else none
  | .pciOpen pciDevice, ret =>
    match pciDevice with
    | some q => if ret = kIOReturnSuccess then some { w with session := Function.update w.session q true } else some w
    | none => some w
  | .nvkmsShimAllocateDevice params, allocated => do
    let (pDevice, devs) ← nvkmsShimAllocateDevice (some params) allocated.malloc w.devs
    if allocated.pDevice = pDevice ∧ ∀ p ∈ allocated.malloc, w.devs p = none then some { w with devs } else none
  | .nvkmsShimGrabOwnership pDevice, true => do
    let (ok, devs) ← nvkmsShimGrabOwnership pDevice w.devs
    if ok then some { w with devs } else none
  | .nvkmsShimGrabOwnership _, false => some w
  | .nvkmsShimReleaseOwnership pDevice, _ =>
    some { w with devs := (nvkmsShimReleaseOwnership pDevice w.devs).getD w.devs }
  | .nvkmsShimFreeDevice pDevice, _ => some { w with devs := (nvkmsShimFreeDevice pDevice w.devs).getD w.devs }
  | .pciClose pciDevice, _ =>
    match pciDevice with
    | some q => some { w with session := Function.update w.session q false }
    | none => some w
  | _, _ => some w

theorem World.step_alloc_none (w : World A P) (params : NvKmsKapiAllocateDeviceParams A) :
    w.step (.nvkmsShimAllocateDevice params) ⟨none, none⟩ = some w := by
  simp [World.step, nvkmsShimAllocateDevice]

theorem World.step_alloc_some (w : World A P) (params : NvKmsKapiAllocateDeviceParams A) (p : A) :
    w.step (.nvkmsShimAllocateDevice params) ⟨some p, some p⟩ =
      if w.devs p = none then some { w with devs := Function.update w.devs p (some ⟨params.gpuId, false⟩) }
      else none := by
  simp [World.step, nvkmsShimAllocateDevice]

/-- An allocation answers what `malloc` did. -/
theorem World.alloc_answer {w w' : World A P} {params : NvKmsKapiAllocateDeviceParams A} {allocated : Allocated A}
    (h : w.step (.nvkmsShimAllocateDevice params) allocated = some w') :
    allocated = ⟨none, none⟩ ∨ ∃ p, allocated = ⟨some p, some p⟩ := by
  obtain ⟨malloc, pDevice⟩ := allocated
  cases malloc with
  | none =>
    simp only [World.step, nvkmsShimAllocateDevice, Option.map_some, Option.bind_eq_bind, Option.bind_some,
      Option.pure_def, Option.ite_none_right_eq_some] at h
    exact .inl (by rw [h.1.1])
  | some p =>
    simp only [World.step, nvkmsShimAllocateDevice, Option.map_some, Option.bind_eq_bind, Option.bind_some,
      Option.pure_def, Option.ite_none_right_eq_some] at h
    exact .inr ⟨p, by rw [h.1.1]⟩

/-- Every call can be answered: a cast and an allocation may always fail. -/
theorem World.step_total (w : World A P) (c : Call A P) : ∃ r w', World.step w c r = some w' := by
  cases c with
  | osDynamicCast _ => exact ⟨none, w, by simp [World.step]⟩
  | nvkmsShimAllocateDevice params => exact ⟨⟨none, none⟩, w, w.step_alloc_none params⟩
  | pciOpen pciDevice => cases pciDevice <;> exact ⟨kIOReturnError, w, by simp [World.step]⟩
  | pciClose pciDevice => cases pciDevice <;> exact ⟨(), _, rfl⟩
  | nvkmsShimGrabOwnership _ => exact ⟨false, w, rfl⟩
  | superStart _ => exact ⟨kIOReturnSuccess, w, rfl⟩
  | superStop _ => exact ⟨kIOReturnSuccess, w, rfl⟩
  | nvkmsShimInit => exact ⟨Shim.nvkmsShimInit, w, rfl⟩
  | configRead32 _ => exact ⟨0, w, rfl⟩
  | _ => exact ⟨(), _, rfl⟩

end PortingKit.Driver
