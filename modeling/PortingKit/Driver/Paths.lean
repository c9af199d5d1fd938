import PortingKit.Driver.NVIDIADriver
/-!
# The ways through Start and Stop

`Start` begins with nothing live and no session open, and leaves by one of seven
exits. `StartPath` lists them with the calls made on the way; what holds after
`Start` and `Stop` is read off the lists.
-/
open PortingKit.Lib PortingKit.Shim
open PortingKit.Lib.Prog (perform_bind pure_eq Exec exec_ret exec_call exec_call_any Spec)

namespace PortingKit.Driver

variable {A P : Type}

/-! ## The calls made to the outside -/

/-- A call with its answer. -/
abbrev Event (A P : Type) := Σ c : Call A P, c.Resp

/-- Device calls get no dangling pointer, and `Close` an open session. -/
def World.Safe (w : World A P) : Call A P → Prop
  | .nvkmsShimGrabOwnership pDevice | .nvkmsShimReleaseOwnership pDevice | .nvkmsShimFreeDevice pDevice =>
    ∀ p ∈ pDevice, w.devs p ≠ none
  | .pciClose pciDevice => ∃ q ∈ pciDevice, w.session q = true
  | _ => True

/-- At most one device is live. -/
def World.AtMostOne (w : World A P) : Prop := ∀ p p', w.devs p ≠ none → w.devs p' ≠ none → p = p'

/-- A safe call, made with at most one device live, and with none at a teardown. -/
structure World.Proper (w : World A P) (c : Call A P) : Prop where
  safe : w.Safe c
  atMostOne : w.AtMostOne
  teardown : c = .nvkmsShimTeardown → ∀ p, w.devs p = none

def Event.initOk : Event A P → Bool
  | ⟨.nvkmsShimInit, status⟩ => status = 0
  | _ => false

def Event.teardown : Event A P → Bool
  | ⟨.nvkmsShimTeardown, _⟩ => true
  | _ => false

def Event.superStartOk : Event A P → Bool
  | ⟨.superStart _, ret⟩ => ret = kIOReturnSuccess
  | _ => false

def Event.superStop : Event A P → Bool
  | ⟨.superStop _, _⟩ => true
  | _ => false

/-- A failure `Start` meets after `super::Start`, other than of `nvkms_shim_init`. -/
def Event.failure : Event A P → Bool
  | ⟨.osDynamicCast _, pciDevice⟩ => pciDevice.isNone
  | ⟨.pciOpen _, ret⟩ => ret ≠ kIOReturnSuccess
  | ⟨.nvkmsShimAllocateDevice _, allocated⟩ => allocated.pDevice.isNone
  | ⟨.nvkmsShimGrabOwnership _, ok⟩ => !ok
  | _ => false

/-- Initialisations of the shim that succeeded minus teardowns. -/
def shimBalance (l : List (Event A P)) : Int := l.countP Event.initOk - l.countP Event.teardown

/-- Calls of `super::Start` that succeeded minus calls of `super::Stop`. -/
def superBalance (l : List (Event A P)) : Int := l.countP Event.superStartOk - l.countP Event.superStop

/-! ## Between two calls -/

/-- The driver owns the one live device and has one session open. -/
structure Running (ivars : IVars A P) (w : World A P) (p : A) (q : P) : Prop where
  nvDevice : ivars.nvDevice = some p
  pciDevice : ivars.pciDevice = some q
  devs : ∀ p', w.devs p' ≠ none ↔ p' = p
  owned : ∃ dev, w.devs p = some dev ∧ dev.ownership_grabbed = true
  session : ∀ q', w.session q' = true ↔ q' = q

/-- No device is live and no session open. -/
structure Idle (w : World A P) : Prop where
  devs : ∀ p, w.devs p = none
  session : ∀ q, w.session q = false

/-- What holds between two calls. -/
def Inv (started : Bool) (ivars : IVars A P) (w : World A P) : Prop :=
  match started with
  | true => ∃ p q, Running ivars w p q
  | false => Idle w

/-! ## The worlds a driver passes through -/

def World.empty : World A P := ⟨fun _ => none, fun _ => false⟩

theorem idle_iff {w : World A P} : Idle w ↔ w = .empty := by
  constructor
  · rintro ⟨hd, hs⟩
    cases w
    simp only [World.empty, World.mk.injEq]
    exact ⟨funext hd, funext hs⟩
  · rintro rfl; exact ⟨fun _ => rfl, fun _ => rfl⟩

theorem idle_empty : Idle (.empty : World A P) := idle_iff.2 rfl

@[simp] theorem proper_empty {c : Call A P} : World.empty.Proper c ↔ World.empty.Safe c :=
  ⟨fun h => h.safe, fun h => ⟨h, fun _ _ hp => absurd rfl hp, fun _ _ => rfl⟩⟩

variable [DecidableEq A] [DecidableEq P]

def World.opened (q : P) : World A P := ⟨fun _ => none, Function.update (fun _ => false) q true⟩

def World.owning (p : A) (dev : NvKmsKapiDevice) (q : P) : World A P :=
  ⟨Function.update (fun _ => none) p (some dev), Function.update (fun _ => false) q true⟩

omit [DecidableEq A] in
@[simp] theorem opened_session (q : P) : (World.opened q : World A P).session q = true := by
  simp [World.opened]

@[simp] theorem owning_devs (p : A) (dev : NvKmsKapiDevice) (q : P) :
    (World.owning p dev q).devs p = some dev := by simp [World.owning]

theorem running_iff {ivars : IVars A P} {w : World A P} {p : A} {q : P} :
    Running ivars w p q ↔ ivars = ⟨some q, some p⟩ ∧ ∃ gpuId, w = .owning p ⟨gpuId, true⟩ q := by
  constructor
  · rintro ⟨h1, h2, hd, ⟨⟨gpuId, grabbed⟩, hp, rfl⟩, hs⟩
    obtain ⟨_, _⟩ := ivars
    obtain ⟨devs, session⟩ := w
    simp only at h1 h2 hd hp hs
    subst h1 h2
    refine ⟨rfl, gpuId, ?_⟩
    simp only [World.owning, World.mk.injEq]
    constructor
    · funext p'
      by_cases h : p' = p
      · subst h; simpa using hp
      · simpa [h] using hd p'
    · funext q'
      by_cases h : q' = q
      · subst h; simpa using hs q'
      · simpa [h] using hs q'
  · rintro ⟨rfl, gpuId, rfl⟩
    refine ⟨rfl, rfl, fun p' => ?_, ⟨⟨gpuId, true⟩, by simp [World.owning], rfl⟩, fun q' => ?_⟩
    · by_cases h : p' = p <;> simp [World.owning, h]
    · by_cases h : q' = q <;> simp [World.owning, h]

omit [DecidableEq A] in
@[simp] theorem proper_opened {q : P} {c : Call A P} : (World.opened q).Proper c ↔ (World.opened q).Safe c :=
  ⟨fun h => h.safe, fun h => ⟨h, fun _ _ hp => absurd rfl hp, fun _ _ => rfl⟩⟩

@[simp] theorem proper_owning {p : A} {dev : NvKmsKapiDevice} {q : P} {c : Call A P} :
    (World.owning p dev q).Proper c ↔ (World.owning p dev q).Safe c ∧ c ≠ .nvkmsShimTeardown := by
  have only : ∀ p', (World.owning p dev q).devs p' ≠ none ↔ p' = p := fun p' => by
    by_cases h : p' = p <;> simp [World.owning, h]
  constructor
  · intro h
    exact ⟨h.safe, fun hc => (only p).2 rfl (h.teardown hc p)⟩
  · rintro ⟨h, hc⟩
    exact ⟨h, fun p₁ p₂ h₁ h₂ => ((only p₁).1 h₁).trans ((only p₂).1 h₂).symm, fun h => absurd h hc⟩

/-! ## The error exits -/

/-- A call on a world that it leaves as it is. -/
abbrev still (w : World A P) (e : Event A P) : Tr (World A P) (Event A P) := ⟨w, e, w⟩

theorem exec_fail {provider : P} {ivars : IVars A P} {w w' : World A P} {tr r}
    (h : Exec World.step (fail provider ivars) w tr r w') :
    ∃ ret, tr = [still w ⟨.superStop provider, ret⟩] ∧ r = (kIOReturnError, ivars) ∧ w' = w := by
  simp only [fail, perform_bind, pure_eq] at h
  obtain ⟨ret, tr', he, rfl⟩ := exec_call_any (fun _ => rfl) h
  obtain ⟨rfl, rfl, rfl⟩ := exec_ret.1 he
  exact ⟨ret, rfl, rfl, rfl⟩

theorem step_close {q : P} : World.step (.opened q : World A P) (.pciClose (some q)) () = some .empty := by
  simp [World.step, World.opened, World.empty]

theorem exec_failAfterOpen {provider q : P} {nvDevice : Option A} {w' : World A P} {tr r}
    (h : Exec World.step (failAfterOpen provider ⟨some q, nvDevice⟩) (.opened q) tr r w') :
    ∃ ret, tr = [⟨.opened q, ⟨.pciClose (some q), ()⟩, .empty⟩, still .empty ⟨.superStop provider, ret⟩] ∧
      r = (kIOReturnError, ⟨some q, nvDevice⟩) ∧ w' = .empty := by
  simp only [failAfterOpen, perform_bind] at h
  obtain ⟨⟨⟩, tr', he, rfl⟩ := exec_call_any (fun _ => step_close) h
  obtain ⟨ret, rfl, rfl, rfl⟩ := exec_fail he
  exact ⟨ret, rfl, rfl, rfl⟩

theorem step_free {p : A} {dev : NvKmsKapiDevice} {q : P} :
    World.step (.owning p dev q) (.nvkmsShimFreeDevice (some p)) () = some (.opened q) := by
  simp [World.step, nvkmsShimFreeDevice, World.owning, World.opened]

theorem exec_failAfterAlloc {provider q : P} {p : A} {dev : NvKmsKapiDevice} {w' : World A P} {tr r}
    (h : Exec World.step (failAfterAlloc provider ⟨some q, some p⟩) (.owning p dev q) tr r w') :
    ∃ ret, tr = [⟨.owning p dev q, ⟨.nvkmsShimFreeDevice (some p), ()⟩, .opened q⟩,
        ⟨.opened q, ⟨.pciClose (some q), ()⟩, .empty⟩, still .empty ⟨.superStop provider, ret⟩] ∧
      r = (kIOReturnError, ⟨some q, some p⟩) ∧ w' = .empty := by
  simp only [failAfterAlloc, perform_bind] at h
  obtain ⟨⟨⟩, tr', he, rfl⟩ := exec_call_any (fun _ => step_free) h
  obtain ⟨ret, rfl, rfl, rfl⟩ := exec_failAfterOpen he
  exact ⟨ret, rfl, rfl, rfl⟩

/-! ## Start -/

/-- The calls of `Start` up to a successful cast, and then `tr`. -/
def afterCast (provider : P) (tr : List (Tr (World A P) (Event A P))) : List (Tr (World A P) (Event A P)) :=
  still .empty ⟨.superStart provider, kIOReturnSuccess⟩ :: still .empty ⟨.osDynamicCast provider, some provider⟩ :: tr

/-- Up to a successful `Open` and the read of the PCI IDs. -/
def afterOpen (provider : P) (id : BitVec 32) (tr : List (Tr (World A P) (Event A P))) :
    List (Tr (World A P) (Event A P)) :=
  afterCast provider (still .empty ⟨.nvkmsShimInit, (0 : Int)⟩ ::
    ⟨.empty, ⟨.pciOpen (some provider), kIOReturnSuccess⟩, .opened provider⟩ ::
    still (.opened provider) ⟨.configRead32 (some provider), id⟩ :: tr)

/-- Up to a successful allocation. -/
def afterAlloc (drv : NVIDIADriver A) (provider : P) (id : BitVec 32) (p : A)
    (tr : List (Tr (World A P) (Event A P))) : List (Tr (World A P) (Event A P)) :=
  afterOpen provider id (⟨.opened provider, ⟨.nvkmsShimAllocateDevice (drv.params id), ⟨some p, some p⟩⟩,
    .owning p ⟨(drv.params id).gpuId, false⟩ provider⟩ :: tr)

/-- The ways through `Start` from a world with nothing live, with the calls
made, the code returned and what is left in `ivars` and the world. -/
inductive StartPath (drv : NVIDIADriver A) (provider : P) (ivars : IVars A P) :
    List (Tr (World A P) (Event A P)) → KernReturn → IVars A P → World A P → Prop
  | superFailed (ret : KernReturn) : ret ≠ kIOReturnSuccess →
    StartPath drv provider ivars [still .empty ⟨.superStart provider, ret⟩] ret ivars .empty
  | castFailed :
    StartPath drv provider ivars
      [still .empty ⟨.superStart provider, kIOReturnSuccess⟩, still .empty ⟨.osDynamicCast provider, none⟩]
      kIOReturnUnsupported { ivars with pciDevice := none } .empty
  | initFailed (status : Int) (ret : KernReturn) : status ≠ 0 →
    StartPath drv provider ivars
      (afterCast provider [still .empty ⟨.nvkmsShimInit, status⟩, still .empty ⟨.superStop provider, ret⟩])
      kIOReturnError { ivars with pciDevice := some provider } .empty
  | openFailed (status ret : KernReturn) : status ≠ kIOReturnSuccess →
    StartPath drv provider ivars
      (afterCast provider [still .empty ⟨.nvkmsShimInit, (0 : Int)⟩, still .empty ⟨.pciOpen (some provider), status⟩,
        still .empty ⟨.superStop provider, ret⟩])
      kIOReturnError { ivars with pciDevice := some provider } .empty
  | allocFailed (id : BitVec 32) (ret : KernReturn) :
    StartPath drv provider ivars
      (afterOpen provider id [still (.opened provider) ⟨.nvkmsShimAllocateDevice (drv.params id), ⟨none, none⟩⟩,
        ⟨.opened provider, ⟨.pciClose (some provider), ()⟩, .empty⟩, still .empty ⟨.superStop provider, ret⟩])
      kIOReturnError ⟨some provider, none⟩ .empty
  | grabFailed (id : BitVec 32) (p : A) (ret : KernReturn) :
    StartPath drv provider ivars
      (afterAlloc drv provider id p
        [still (.owning p ⟨(drv.params id).gpuId, false⟩ provider) ⟨.nvkmsShimGrabOwnership (some p), false⟩,
        ⟨.owning p ⟨(drv.params id).gpuId, false⟩ provider, ⟨.nvkmsShimFreeDevice (some p), ()⟩, .opened provider⟩,
        ⟨.opened provider, ⟨.pciClose (some provider), ()⟩, .empty⟩, still .empty ⟨.superStop provider, ret⟩])
      kIOReturnError ⟨some provider, some p⟩ .empty
  | started (id : BitVec 32) (p : A) :
    StartPath drv provider ivars
      (afterAlloc drv provider id p
        [⟨.owning p ⟨(drv.params id).gpuId, false⟩ provider, ⟨.nvkmsShimGrabOwnership (some p), true⟩,
          .owning p ⟨(drv.params id).gpuId, true⟩ provider⟩,
        still (.owning p ⟨(drv.params id).gpuId, true⟩ provider) ⟨.registerService, ()⟩])
      kIOReturnSuccess ⟨some provider, some p⟩ (.owning p ⟨(drv.params id).gpuId, true⟩ provider)

theorem step_cast {provider : P} {pciDevice : Option P} {w w' : World A P}
    (h : World.step w (.osDynamicCast provider) pciDevice = some w') :
    w' = w ∧ (pciDevice = none ∨ pciDevice = some provider) := by
  simp only [World.step, Option.ite_none_right_eq_some, Option.some.injEq] at h
  refine ⟨h.2.symm, ?_⟩
  cases pciDevice with
  | none => exact .inl rfl
  | some q => exact .inr (congrArg some (h.1 q rfl))

theorem step_open {q : P} {ret : KernReturn} :
    World.step (.empty : World A P) (.pciOpen (some q)) ret =
      some (if ret = kIOReturnSuccess then .opened q else .empty) := by
  simp only [World.step, World.empty, World.opened]
  split <;> rfl

theorem step_alloc {params : NvKmsKapiAllocateDeviceParams A} {p : A} {q : P} :
    World.step (.opened q) (.nvkmsShimAllocateDevice params) ⟨some p, some p⟩ = some (.owning p ⟨params.gpuId, false⟩ q) := by
  simp [World.step_alloc_some, World.opened, World.owning]

theorem step_grab {p : A} {gpuId : BitVec 32} {q : P} {ok : Bool} :
    World.step (.owning p ⟨gpuId, false⟩ q) (.nvkmsShimGrabOwnership (some p)) ok =
      some (.owning p ⟨gpuId, ok⟩ q) := by
  cases ok <;> simp [World.step, nvkmsShimGrabOwnership, World.owning]

theorem start_cases {drv : NVIDIADriver A} {provider : P} {ivars ivars' : IVars A P} {w' : World A P} {tr ret}
    (h : Exec World.step (start drv provider ivars) .empty tr (ret, ivars') w') :
    StartPath drv provider ivars tr ret ivars' w' := by
  simp only [start, perform_bind] at h
  obtain ⟨ret₁, tr₁, h₁, rfl⟩ := exec_call_any (fun _ => rfl) h
  by_cases hret : ret₁ = kIOReturnSuccess
  case neg =>
    rw [if_pos hret] at h₁
    obtain ⟨rfl, ⟨rfl, rfl⟩, rfl⟩ := exec_ret.1 h₁
    exact .superFailed _ hret
  subst hret
  rw [if_neg (by simp)] at h₁
  obtain ⟨pciDevice, w₂, tr₂, hs, h₂, rfl⟩ := exec_call.1 h₁
  obtain ⟨rfl, rfl | rfl⟩ := step_cast hs
  · obtain ⟨rfl, ⟨rfl, rfl⟩, rfl⟩ := exec_ret.1 h₂
    exact .castFailed
  simp only [Option.isNone_some, Bool.false_eq_true, if_false] at h₂
  obtain ⟨status, tr₃, h₃, rfl⟩ := exec_call_any (fun _ => rfl) h₂
  by_cases hstatus : status = 0
  case neg =>
    rw [if_pos hstatus] at h₃
    obtain ⟨ret, rfl, ⟨rfl, rfl⟩, rfl⟩ := exec_fail h₃
    exact .initFailed status ret hstatus
  subst hstatus
  rw [if_neg (by simp)] at h₃
  obtain ⟨ret₄, tr₄, h₄, rfl⟩ := exec_call_any (fun _ => step_open) h₃
  by_cases hret : ret₄ = kIOReturnSuccess
  case neg =>
    rw [if_neg hret, if_pos hret] at h₄
    obtain ⟨ret, rfl, ⟨rfl, rfl⟩, rfl⟩ := exec_fail h₄
    rw [if_neg hret]
    exact .openFailed ret₄ ret hret
  subst hret
  rw [if_pos rfl, if_neg (by simp)] at h₄
  obtain ⟨id, tr₅, h₅, rfl⟩ := exec_call_any (fun _ => rfl) h₄
  obtain ⟨allocated, w₆, tr₆, hs, h₆, rfl⟩ := exec_call.1 h₅
  rcases World.alloc_answer hs with rfl | ⟨p, rfl⟩
  · rw [World.step_alloc_none, Option.some.injEq] at hs
    subst hs
    obtain ⟨ret, rfl, ⟨rfl, rfl⟩, rfl⟩ := exec_failAfterOpen h₆
    exact .allocFailed id ret
  rw [step_alloc, Option.some.injEq] at hs
  subst hs
  simp only [Option.isNone_some, Bool.false_eq_true, if_false] at h₆
  obtain ⟨ok, tr₇, h₇, rfl⟩ := exec_call_any (fun _ => step_grab) h₆
  cases ok with
  | false =>
    obtain ⟨ret, rfl, ⟨rfl, rfl⟩, rfl⟩ := exec_failAfterAlloc h₇
    exact .grabFailed id p ret
  | true =>
    obtain ⟨⟨⟩, tr₈, h₈, rfl⟩ := exec_call_any (fun _ => rfl) h₇
    obtain ⟨rfl, ⟨rfl, rfl⟩, rfl⟩ := exec_ret.1 h₈
    exact .started id p

/-- And each of these ways it can go. -/
theorem exec_of_path {drv : NVIDIADriver A} {provider : P} {ivars ivars' : IVars A P} {w' : World A P} {tr ret}
    (h : StartPath drv provider ivars tr ret ivars' w') :
    Exec World.step (start drv provider ivars) .empty tr (ret, ivars') w' := by
  have hcast : World.step (.empty : World A P) (.osDynamicCast provider) (some provider) = some .empty := by
    simp [World.step]
  simp only [start, perform_bind]
  cases h with
  | superFailed ret hret =>
    refine .call rfl ?_
    rw [if_pos hret]
    exact .ret _ _
  | castFailed => exact .call rfl (.call rfl (.ret _ _))
  | initFailed status ret hstatus =>
    refine .call rfl (.call hcast (.call rfl ?_))
    rw [if_pos hstatus]
    exact .call rfl (.ret _ _)
  | openFailed status ret hstatus =>
    have hopen : World.step (.empty : World A P) (.pciOpen (some provider)) status = some .empty := by
      rw [step_open, if_neg hstatus]
    refine .call rfl (.call hcast (.call rfl (.call hopen ?_)))
    rw [if_pos hstatus]
    exact .call rfl (.ret _ _)
  | allocFailed id ret =>
    refine .call rfl (.call hcast (.call rfl (.call step_open (.call rfl (.call (World.step_alloc_none _ _) ?_)))))
    exact .call step_close (.call rfl (.ret _ _))
  | grabFailed id p ret =>
    refine .call rfl (.call hcast (.call rfl (.call step_open (.call rfl (.call step_alloc (.call step_grab ?_))))))
    exact .call step_free (.call step_close (.call rfl (.ret _ _)))
  | started id p =>
    refine .call rfl (.call hcast (.call rfl (.call step_open (.call rfl (.call step_alloc (.call step_grab ?_))))))
    exact .call rfl (.ret _ _)

namespace StartPath

variable {drv : NVIDIADriver A} {provider : P} {ivars ivars' : IVars A P} {w' : World A P}
  {tr : List (Tr (World A P) (Event A P))} {ret : KernReturn}

theorem inv (h : StartPath drv provider ivars tr ret ivars' w') : Inv (ret = kIOReturnSuccess) ivars' w' := by
  cases h with
  | started id p =>
    simp only [decide_true, Inv]
    exact ⟨p, provider, running_iff.2 ⟨rfl, _, rfl⟩⟩
  | superFailed _ hret =>
    simp only [hret, decide_false, Inv]
    exact idle_empty
  | _ => exact idle_empty

theorem proper (h : StartPath drv provider ivars tr ret ivars' w') : ∀ t ∈ tr, t.pre.Proper t.act.1 := by
  cases h <;> simp [afterAlloc, afterOpen, afterCast, World.Safe]

/-- The balances follow `started` unless `Start` met a failure it does not undo. -/
theorem balance (h : StartPath drv provider ivars tr ret ivars' w') :
    (shimBalance (tr.map (·.act)) = (decide (ret = kIOReturnSuccess)).toNat ∧
      superBalance (tr.map (·.act)) = (decide (ret = kIOReturnSuccess)).toNat) ↔
      ∀ t ∈ tr, Event.failure t.act = false := by
  cases h <;> simp [afterAlloc, afterOpen, afterCast, shimBalance, superBalance, Event.initOk, Event.teardown,
    Event.superStartOk, Event.superStop, Event.failure, *]

end StartPath

/-! ## Stop -/

/-- `Stop` on a started driver undoes everything, newest first. -/
theorem stop_running {provider q : P} {p : A} {gpuId : BitVec 32} {ivars' : IVars A P} {w' : World A P} {tr ret}
    (h : Exec World.step (stop provider ⟨some q, some p⟩) (.owning p ⟨gpuId, true⟩ q) tr (ret, ivars') w') :
    tr = [⟨.owning p ⟨gpuId, true⟩ q, ⟨.nvkmsShimReleaseOwnership (some p), ()⟩, .owning p ⟨gpuId, false⟩ q⟩,
        ⟨.owning p ⟨gpuId, false⟩ q, ⟨.nvkmsShimFreeDevice (some p), ()⟩, .opened q⟩,
        ⟨.opened q, ⟨.pciClose (some q), ()⟩, .empty⟩, still .empty ⟨.nvkmsShimTeardown, ()⟩,
        still .empty ⟨.superStop provider, ret⟩] ∧
      ivars' = ⟨some q, none⟩ ∧ w' = .empty := by
  have hrelease : World.step (.owning p ⟨gpuId, true⟩ q) (.nvkmsShimReleaseOwnership (some p)) () =
      some (.owning p ⟨gpuId, false⟩ q) := by
    simp [World.step, nvkmsShimReleaseOwnership, World.owning]
  obtain ⟨⟨⟩, tr₁, h₁, rfl⟩ := exec_call_any (fun _ => hrelease) h
  obtain ⟨⟨⟩, tr₂, h₂, rfl⟩ := exec_call_any (fun _ => step_free) h₁
  obtain ⟨⟨⟩, tr₃, h₃, rfl⟩ := exec_call_any (fun _ => step_close) h₂
  obtain ⟨⟨⟩, tr₄, h₄, rfl⟩ := exec_call_any (fun _ => rfl) h₃
  obtain ⟨ret, tr₅, h₅, rfl⟩ := exec_call_any (fun _ => rfl) h₄
  obtain ⟨rfl, ⟨rfl, rfl⟩, rfl⟩ := exec_ret.1 h₅
  exact ⟨rfl, rfl, rfl⟩

/-- `Stop` with both pointers NULL only tears the shim down. -/
theorem stop_null {provider : P} {ivars' : IVars A P} {w w' : World A P} {tr ret}
    (h : Exec World.step (stop provider ⟨none, none⟩) w tr (ret, ivars') w') :
    tr = [still w ⟨.nvkmsShimTeardown, ()⟩, still w ⟨.superStop provider, ret⟩] ∧ ivars' = ⟨none, none⟩ ∧ w' = w := by
  obtain ⟨⟨⟩, tr₁, h₁, rfl⟩ := exec_call_any (fun _ => rfl) h
  obtain ⟨ret, tr₂, h₂, rfl⟩ := exec_call_any (fun _ => rfl) h₁
  obtain ⟨rfl, ⟨rfl, rfl⟩, rfl⟩ := exec_ret.1 h₂
  exact ⟨rfl, rfl, rfl⟩

/-- With nothing live and no session open, a pointer left in `ivars` is one
`Stop` should not have used. -/
theorem stop_stale {provider : P} {ivars ivars' : IVars A P} {w' : World A P} {tr ret}
    (h : Exec World.step (stop provider ivars) .empty tr (ret, ivars') w')
    (hs : ∀ t ∈ tr, t.pre.Safe t.act.1) : ivars = ⟨none, none⟩ := by
  obtain ⟨pciDevice, nvDevice⟩ := ivars
  cases nvDevice with
  | some p =>
    obtain ⟨_, w₁, tr₁, -, -, rfl⟩ := exec_call.1 h
    exact absurd rfl (hs _ List.mem_cons_self p rfl)
  | none =>
    cases pciDevice with
    | some q =>
      obtain ⟨_, w₁, tr₁, -, -, rfl⟩ := exec_call.1 h
      obtain ⟨q', -, hq'⟩ := hs _ List.mem_cons_self
      cases hq'
    | none => rfl

/-! ## Specifications -/

/-- `Start` makes proper calls only, and leaves the driver started and owning
a device, or not started and owning nothing. -/
theorem start_spec {drv : NVIDIADriver A} {provider : P} {ivars : IVars A P} {w : World A P} (hw : Idle w) :
    Spec World.step World.Proper (start drv provider ivars) w
      fun r w' => Inv (r.1 = kIOReturnSuccess) r.2 w' := by
  rintro tr ⟨ret, ivars'⟩ w' h
  obtain rfl := idle_iff.1 hw
  have hp := start_cases h
  exact ⟨hp.proper, hp.inv⟩

/-- `Stop` makes proper calls only, and leaves nothing owned, if the driver is
started or `ivars` holds no pointer. -/
theorem stop_spec {provider : P} {started : Bool} {ivars : IVars A P} {w : World A P} (hi : Inv started ivars w)
    (hc : started = true ∨ ivars.pciDevice = none ∧ ivars.nvDevice = none) :
    Spec World.step World.Proper (stop provider ivars) w fun _ w' => Idle w' := by
  rintro tr ⟨ret, ivars'⟩ w' h
  cases started with
  | true =>
    obtain ⟨p, q, hr⟩ := hi
    obtain ⟨rfl, gpuId, rfl⟩ := running_iff.1 hr
    obtain ⟨rfl, rfl, rfl⟩ := stop_running h
    exact ⟨by simp [World.Safe], idle_empty⟩
  | false =>
    obtain rfl := idle_iff.1 hi
    obtain ⟨pciDevice, nvDevice⟩ := ivars
    obtain ⟨rfl, rfl⟩ : pciDevice = none ∧ nvDevice = none := hc.resolve_left (by simp)
    obtain ⟨rfl, rfl, rfl⟩ := stop_null h
    exact ⟨by simp [World.Safe], idle_empty⟩

end PortingKit.Driver
