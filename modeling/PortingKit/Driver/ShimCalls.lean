import PortingKit.Driver.Shim
/-!
# Single calls of the shim

One law for the six calls that take pointers: they fail without a trace, and what
they do they do to their target only. It is a law of calls with valid pointers,
NULL among them.
-/

namespace PortingKit.Shim

variable {A : Type}

/-- The devices and the result structures in memory. -/
structure Memory (A : Type) where
  devs : Devices A
  infos : A → Option NvKmsKapiDeviceResourcesInfo

inductive Request (A : Type) where
  /-- `malloc` answers the pointer given, or NULL. -/
  | allocateDevice (params : Option (NvKmsKapiAllocateDeviceParams A)) (malloc : Option A)
  | freeDevice (pDevice : Option A)
  | getDeviceResourcesInfo (pDevice pResInfo : Option A)
  | grabOwnership (pDevice : Option A)
  | releaseOwnership (pDevice : Option A)
  | declareEventInterest (pDevice : Option A) (event_mask : BitVec 32)

inductive Answer (A : Type) where
  | void
  | bool (b : Bool)
  | device (p : Option A)
  deriving DecidableEq

/-- The answer reports that the call failed. -/
def Answer.Failure (ans : Answer A) : Prop := ans = .bool false ∨ ans = .device none

/-- The answer reports that the call succeeded. -/
def Answer.Success (ans : Answer A) : Prop := ans = .bool true ∨ ∃ p, ans = .device (some p)

namespace Request

/-- A pointer argument is NULL. -/
def HasNull : Request A → Prop
  | .allocateDevice params _ => params = none
  | .getDeviceResourcesInfo pDevice pResInfo => pDevice = none ∨ pResInfo = none
  | .freeDevice pDevice | .grabOwnership pDevice | .releaseOwnership pDevice | .declareEventInterest pDevice _ =>
    pDevice = none

/-- The device the call names, or has allocated. -/
def names : Request A → Option A
  | .allocateDevice _ malloc => malloc
  | .freeDevice pDevice | .getDeviceResourcesInfo pDevice _ | .grabOwnership pDevice | .releaseOwnership pDevice
  | .declareEventInterest pDevice _ => pDevice

/-- The result structure the call is given. -/
def result : Request A → Option A
  | .getDeviceResourcesInfo _ pResInfo => pResInfo
  | _ => none

/-- Pointers are NULL or to live devices and result structures, and `malloc` answers none of those. -/
def Valid (m : Memory A) : Request A → Prop
  | .allocateDevice _ malloc => ∀ p ∈ malloc, m.devs p = none ∧ m.infos p = none
  | .getDeviceResourcesInfo pDevice pResInfo => (∀ p ∈ pDevice, m.devs p ≠ none) ∧ ∀ p ∈ pResInfo, m.infos p ≠ none
  | .freeDevice pDevice | .grabOwnership pDevice | .releaseOwnership pDevice | .declareEventInterest pDevice _ =>
    ∀ p ∈ pDevice, m.devs p ≠ none

variable [DecidableEq A]

/-- What the call answers and the memory after it. -/
def exec (m : Memory A) : Request A → Option (Answer A × Memory A)
  | .allocateDevice params malloc => do
    let (p, devs) ← nvkmsShimAllocateDevice params malloc m.devs
    return (.device p, { m with devs })
  | .freeDevice pDevice => do
    let devs ← nvkmsShimFreeDevice pDevice m.devs
    return (.void, { m with devs })
  | .getDeviceResourcesInfo pDevice pResInfo => do
    let (b, infos) ← nvkmsShimGetDeviceResourcesInfo pDevice pResInfo m.infos
    return (.bool b, { m with infos })
  | .grabOwnership pDevice => do
    let (b, devs) ← nvkmsShimGrabOwnership pDevice m.devs
    return (.bool b, { m with devs })
  | .releaseOwnership pDevice => do
    let devs ← nvkmsShimReleaseOwnership pDevice m.devs
    return (.void, { m with devs })
  | .declareEventInterest pDevice event_mask =>
    return (.bool (nvkmsShimDeclareEventInterest pDevice event_mask), m)

end Request

variable [DecidableEq A]

/-- The law, for a call that answers `ans` and leaves the memory `m'`. -/
structure CleanAfter (m : Memory A) (r : Request A) (ans : Answer A) (m' : Memory A) : Prop where
  null : r.HasNull → ¬ ans.Success
  failure : ans.Failure → m' = m
  devs : ∀ p, r.names ≠ some p → m'.devs p = m.devs p
  infos : ∀ p, r.result ≠ some p → m'.infos p = m.infos p
  allocated : ∀ params malloc p, r = .allocateDevice (some params) malloc → ans = .device (some p) →
    m.devs p = none ∧ m'.devs p = some ⟨params.gpuId, false⟩

/-- The call follows no NULL pointer, and obeys the law. -/
def Clean (m : Memory A) (r : Request A) : Prop := ∃ ans m', r.exec m = some (ans, m') ∧ CleanAfter m r ans m'

/-! ## Calls that obey the law -/

omit [DecidableEq A] in
/-- A call that changes nothing and gives out no device. -/
theorem cleanAfter_same {m : Memory A} {r : Request A} {ans : Answer A} (hnull : r.HasNull → ¬ ans.Success)
    (hans : ∀ p, ans ≠ .device (some p)) : CleanAfter m r ans m where
  null := hnull
  failure _ := rfl
  devs _ _ := rfl
  infos _ _ := rfl
  allocated _ _ p _ h := absurd h (hans p)

/-- A call that succeeds, changes the device it names and gives out none. -/
theorem cleanAfter_update {m : Memory A} {r : Request A} {ans : Answer A} {p : A} {x : Option NvKmsKapiDevice}
    (hr : r.names = some p) (hnull : ¬ r.HasNull) (hans : ¬ ans.Failure) (hdevice : ∀ q, ans ≠ .device (some q)) :
    CleanAfter m r ans { m with devs := Function.update m.devs p x } where
  null h := absurd h hnull
  failure h := absurd h hans
  devs q hq := Function.update_of_ne (fun e => hq (by rw [hr, e])) _ _
  infos _ _ := rfl
  allocated _ _ q _ h := absurd h (hdevice q)

theorem clean_allocate {m : Memory A} {params : NvKmsKapiAllocateDeviceParams A} {malloc : Option A}
    (hv : (Request.allocateDevice (some params) malloc).Valid m) :
    Clean m (.allocateDevice (some params) malloc) := by
  cases malloc with
  | none => exact ⟨_, _, rfl, cleanAfter_same (by simp [Request.HasNull]) (by simp)⟩
  | some p =>
    refine ⟨.device (some p), _, rfl, ?_, ?_, fun q hq => ?_, fun _ _ => rfl, ?_⟩
    · simp [Request.HasNull]
    · simp [Answer.Failure]
    · exact Function.update_of_ne (fun e => hq (by rw [Request.names, e])) _ _
    · intro params' malloc q hr hans
      obtain rfl : p = q := by simpa using hans
      obtain ⟨rfl, -⟩ : params = params' ∧ _ := by simpa using hr
      exact ⟨(hv p rfl).1, Function.update_self _ _ _⟩

theorem clean_resourcesInfo {m : Memory A} {pDevice pResInfo : Option A}
    (hv : (Request.getDeviceResourcesInfo pDevice pResInfo).Valid m) :
    Clean m (.getDeviceResourcesInfo pDevice pResInfo) := by
  cases pDevice with
  | none => exact ⟨_, _, rfl, cleanAfter_same (by simp [Answer.Success]) (by simp)⟩
  | some d =>
    cases pResInfo with
    | none => exact ⟨_, _, rfl, cleanAfter_same (by simp [Answer.Success]) (by simp)⟩
    | some p =>
      obtain ⟨info, hinfo⟩ := Option.ne_none_iff_exists'.1 (hv.2 p rfl)
      have he : (Request.getDeviceResourcesInfo (some d) (some p)).exec m = some (.bool true,
          { m with infos := Function.update m.infos p (some ⟨⟨640, 480, 7680, 4320, 256, true⟩⟩) }) := by
        simp [Request.exec, nvkmsShimGetDeviceResourcesInfo, hinfo]
      refine ⟨_, _, he, ?_, ?_, fun _ _ => rfl, fun q hq => ?_, ?_⟩
      · simp [Request.HasNull]
      · simp [Answer.Failure]
      · exact Function.update_of_ne (fun e => hq (by rw [Request.result, e])) _ _
      · simp

/-- A call on one device that does nothing with NULL and changes a live device. -/
theorem clean_device {m : Memory A} {call : Option A → Request A} {pDevice : Option A}
    (hnames : ∀ d, (call d).names = d) (hnull : ∀ p, ¬ (call (some p)).HasNull)
    (hnone : ∃ ans, (call none).exec m = some (ans, m) ∧ ¬ ans.Success)
    (hlive : ∀ p dev, m.devs p = some dev → ∃ ans x,
      (call (some p)).exec m = some (ans, { m with devs := Function.update m.devs p x }) ∧ ¬ ans.Failure ∧
        ∀ q, ans ≠ .device (some q))
    (hv : ∀ p ∈ pDevice, m.devs p ≠ none) : Clean m (call pDevice) := by
  cases pDevice with
  | none =>
    obtain ⟨ans, he, hans⟩ := hnone
    exact ⟨ans, m, he, cleanAfter_same (fun _ => hans) fun p hp => hans (.inr ⟨p, hp⟩)⟩
  | some p =>
    obtain ⟨dev, hdev⟩ := Option.ne_none_iff_exists'.1 (hv p rfl)
    obtain ⟨ans, x, he, hans, hdevice⟩ := hlive p dev hdev
    exact ⟨ans, _, he, cleanAfter_update (hnames _) (hnull p) hans hdevice⟩

theorem clean_free {m : Memory A} {pDevice : Option A} (hv : (Request.freeDevice pDevice).Valid m) :
    Clean m (.freeDevice pDevice) := by
  refine clean_device (fun _ => rfl) (by simp [Request.HasNull]) ⟨.void, rfl, by simp [Answer.Success]⟩ ?_ hv
  intro p dev hdev
  refine ⟨.void, none, ?_, by simp [Answer.Failure], by simp⟩
  simp [Request.exec, nvkmsShimFreeDevice, hdev]

theorem clean_grab {m : Memory A} {pDevice : Option A} (hv : (Request.grabOwnership pDevice).Valid m) :
    Clean m (.grabOwnership pDevice) := by
  refine clean_device (fun _ => rfl) (by simp [Request.HasNull]) ⟨.bool false, rfl, by simp [Answer.Success]⟩ ?_ hv
  intro p dev hdev
  refine ⟨.bool true, some { dev with ownership_grabbed := true }, ?_, by simp [Answer.Failure], by simp⟩
  simp [Request.exec, nvkmsShimGrabOwnership, hdev]

theorem clean_release {m : Memory A} {pDevice : Option A} (hv : (Request.releaseOwnership pDevice).Valid m) :
    Clean m (.releaseOwnership pDevice) := by
  refine clean_device (fun _ => rfl) (by simp [Request.HasNull]) ⟨.void, rfl, by simp [Answer.Success]⟩ ?_ hv
  intro p dev hdev
  refine ⟨.void, some { dev with ownership_grabbed := false }, ?_, by simp [Answer.Failure], by simp⟩
  simp [Request.exec, nvkmsShimReleaseOwnership, hdev]

/-! ## Calls that do not -/

/-- `params` is read before it is tested. -/
theorem not_clean_allocate {m : Memory A} {malloc : Option A} : ¬ Clean m (.allocateDevice none malloc) := by
  rintro ⟨ans, m', he, -⟩
  cases he

/-- The call succeeds without a device. -/
theorem not_clean_interest {m : Memory A} {event_mask : BitVec 32} :
    ¬ Clean m (.declareEventInterest none event_mask) := by
  rintro ⟨ans, m', he, h⟩
  cases he
  exact h.null rfl (.inl rfl)

/-- The calls that go wrong are those that give NULL to `nvkms_shim_allocate_device` or to
`nvkms_shim_declare_event_interest`. -/
theorem clean_iff {m : Memory A} {r : Request A} (hv : r.Valid m) :
    Clean m r ↔ (∀ malloc, r ≠ .allocateDevice none malloc) ∧
      ∀ event_mask, r ≠ .declareEventInterest none event_mask := by
  constructor
  · refine fun h => ⟨fun malloc e => ?_, fun event_mask e => ?_⟩
    · exact not_clean_allocate (e ▸ h)
    · exact not_clean_interest (e ▸ h)
  · rintro ⟨hallocate, hinterest⟩
    cases r with
    | allocateDevice params malloc =>
      cases params with
      | none => exact absurd rfl (hallocate malloc)
      | some params => exact clean_allocate hv
    | freeDevice pDevice => exact clean_free hv
    | getDeviceResourcesInfo pDevice pResInfo => exact clean_resourcesInfo hv
    | grabOwnership pDevice => exact clean_grab hv
    | releaseOwnership pDevice => exact clean_release hv
    | declareEventInterest pDevice event_mask =>
      cases pDevice with
      | none => exact absurd rfl (hinterest event_mask)
      | some p => exact ⟨_, _, rfl, cleanAfter_same (by simp [Request.HasNull]) (by simp)⟩

/-- With no device live, an allocation without parameters follows NULL. -/
theorem shim_not_clean : ¬ ∀ (m : Memory ℕ) (r : Request ℕ), r.Valid m → Clean m r := by
  intro h
  let m : Memory ℕ := ⟨fun _ => none, fun _ => none⟩
  obtain ⟨ans, m', he, -⟩ := h m (.allocateDevice none none) (by simp [Request.Valid])
  cases he

/-- A failed query, of a live device without a result structure. -/
theorem clean_iff_query : ∃ (m : Memory ℕ) (r : Request ℕ), r = .getDeviceResourcesInfo (some 1) none ∧ r.Valid m ∧
    Clean m r := by
  let m : Memory ℕ := ⟨fun _ => some ⟨5, false⟩, fun _ => none⟩
  have hv : (Request.getDeviceResourcesInfo (some 1) none).Valid m := by simp [Request.Valid, m]
  exact ⟨m, _, rfl, hv, (clean_iff hv).2 (by simp)⟩

end PortingKit.Shim
