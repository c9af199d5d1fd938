import PortingKit.Driver.Paths
/-!
# Several drivers in one process

Any number of driver objects share the shim and its library. A step begins a
request, answers one call of one driver, or ends a request, so the requests of
different drivers interleave at every call they make. Each driver is started
while it is not started, and stopped while it is. The calls of one driver leave
what the others own alone.
-/
open PortingKit.Lib PortingKit.Shim

namespace PortingKit.Driver.Pool

variable {I A P : Type}

structure Instance (A P : Type) where
  ivars : IVars A P
  started : Bool
  /-- The request it is in, and what is left of its code. -/
  running : Option (Request P × Code A P (KernReturn × IVars A P))

structure State (I A P : Type) where
  inst : I → Instance A P
  session : I → P → Bool
  devs : Devices A
  /-- The driver that last allocated a device at an address. -/
  allocator : A → Option I
  /-- The shim was initialised, and not torn down since. -/
  lib : Bool

inductive Act (I A P : Type) where
  | begin (i : I) (req : Request P)
  | call (i : I) (e : Event A P)
  | finish (i : I)

def init : State I A P := ⟨fun _ => ⟨⟨none, none⟩, false, none⟩, fun _ _ => false, fun _ => none, fun _ => none, false⟩

variable [DecidableEq I]

/-- The world of driver `i` alone: the devices it allocated and its sessions. -/
def State.world (s : State I A P) (i : I) : World A P :=
  ⟨fun p => if s.allocator p = some i then s.devs p else none, s.session i⟩

/-- The world the calls of driver `i` act on. -/
def State.shared (s : State I A P) (i : I) : World A P := ⟨s.devs, s.session i⟩

def State.setInst (s : State I A P) (i : I) (x : Instance A P) : State I A P :=
  { s with inst := Function.update s.inst i x }

variable [DecidableEq A] [DecidableEq P]

def allocatorAfter (allocator : A → Option I) (i : I) : Event A P → A → Option I
  | ⟨.nvkmsShimAllocateDevice _, ⟨some p, _⟩⟩ => Function.update allocator p (some i)
  | _ => allocator

/-- After a call of driver `i` that left its calls in `w`. -/
def State.answer (s : State I A P) (i : I) (e : Event A P) (w : World A P) : State I A P where
  inst := s.inst
  session := Function.update s.session i w.session
  devs := w.devs
  allocator := allocatorAfter s.allocator i e
  lib := (s.lib || Event.initOk e) && !Event.teardown e

/-- Whether a request is made of a started driver. -/
def onStarted : Request P → Bool
  | .start _ => false
  | .stop _ => true

def step (drv : I → NVIDIADriver A) (s : State I A P) : Act I A P → Option (State I A P)
  | .begin i req =>
    if (s.inst i).running.isNone ∧ (s.inst i).started = onStarted req then
      some (s.setInst i { s.inst i with running := some (req, req.code (drv i) (s.inst i).ivars) })
    else none
  | .call i ⟨c, r⟩ =>
    match (s.inst i).running with
    | some (req, .call c' k) =>
      if h : c = c' then do
        let w ← World.step (s.shared i) c r
        return (s.answer i ⟨c, r⟩ w).setInst i { s.inst i with running := some (req, k (h ▸ r)) }
      else none
    | _ => none
  | .finish i =>
    match (s.inst i).running with
    | some (req, .ret (ret, ivars)) => some (s.setInst i ⟨ivars, req.started ret, none⟩)
    | _ => none

abbrev Step (drv : I → NVIDIADriver A) (s : State I A P) (a : Act I A P) (s' : State I A P) : Prop :=
  step drv s a = some s'

/-- What a step does, by cases. -/
theorem step_cases {drv : I → NVIDIADriver A} {s s' : State I A P} {a : Act I A P} (h : Step drv s a s') :
    (∃ i req, a = .begin i req ∧ (s.inst i).running = none ∧ (s.inst i).started = onStarted req ∧
      s' = s.setInst i { s.inst i with running := some (req, req.code (drv i) (s.inst i).ivars) }) ∨
    (∃ i c r req k w, a = .call i ⟨c, r⟩ ∧ (s.inst i).running = some (req, .call c k) ∧
      World.step (s.shared i) c r = some w ∧
      s' = (s.answer i ⟨c, r⟩ w).setInst i { s.inst i with running := some (req, k r) }) ∨
    (∃ i req ret ivars, a = .finish i ∧ (s.inst i).running = some (req, .ret (ret, ivars)) ∧
      s' = s.setInst i ⟨ivars, req.started ret, none⟩) := by
  cases a with
  | begin i req =>
    simp only [Step, step, Option.isNone_iff_eq_none, Option.ite_none_right_eq_some, Option.some.injEq] at h
    exact .inl ⟨i, req, rfl, h.1.1, h.1.2, h.2.symm⟩
  | call i e =>
    obtain ⟨c, r⟩ := e
    simp only [Step, step] at h
    split at h
    · rename_i req c' k hrun
      split at h
      · rename_i hc
        subst hc
        simp only [Option.bind_eq_bind, Option.pure_def, Option.bind_eq_some_iff, Option.some.injEq] at h
        obtain ⟨w, hw, rfl⟩ := h
        exact .inr (.inl ⟨i, c, r, req, k, w, rfl, hrun, hw, rfl⟩)
      · cases h
    · cases h
  | finish i =>
    simp only [Step, step] at h
    split at h
    · rename_i req ret ivars hrun
      rw [Option.some.injEq] at h
      exact .inr (.inr ⟨i, req, ret, ivars, rfl, hrun, h.symm⟩)
    · cases h

omit [DecidableEq A] [DecidableEq P] in
/-- What holds of every driver and its world, one driver changed. -/
theorem forall_setInst (F : Instance A P → World A P → Prop) {s : State I A P} {i : I} {x : Instance A P}
    (hx : F x (s.world i)) (ho : ∀ j, j ≠ i → F (s.inst j) (s.world j)) (j : I) :
    F ((s.setInst i x).inst j) ((s.setInst i x).world j) := by
  have hw : (s.setInst i x).world j = s.world j := rfl
  rw [hw]
  by_cases h : j = i
  · subst h; simpa only [State.setInst, Function.update_self] using hx
  · simpa only [State.setInst, Function.update_of_ne h] using ho j h

/-! ## What a call touches -/

/-- A call that allocates a device or works on one. -/
def onDevice : Call A P → Bool
  | .nvkmsShimAllocateDevice _ | .nvkmsShimGrabOwnership _ | .nvkmsShimReleaseOwnership _
  | .nvkmsShimFreeDevice _ => true
  | _ => false

omit [DecidableEq I] in
/-- Other calls leave the devices alone, and do the same whichever there are. -/
theorem step_off_device {c : Call A P} {r : c.Resp} {w w' : World A P} (hc : onDevice c = false)
    (h : World.step w c r = some w') :
    w'.devs = w.devs ∧ ∀ devs, World.step ⟨devs, w.session⟩ c r = some ⟨devs, w'.session⟩ := by
  cases c with
  | osDynamicCast _ =>
    simp only [World.step, Option.ite_none_right_eq_some, Option.some.injEq] at h
    obtain ⟨hr, rfl⟩ := h
    exact ⟨rfl, fun devs => if_pos hr⟩
  | pciOpen pciDevice =>
    cases pciDevice with
    | none => cases h; exact ⟨rfl, fun _ => rfl⟩
    | some q =>
      by_cases hr : r = kIOReturnSuccess <;>
        · simp only [World.step, hr, if_true, if_false, Option.some.injEq] at h
          subst h
          exact ⟨rfl, fun devs => by simp only [World.step, hr, if_true, if_false]⟩
  | pciClose pciDevice => cases pciDevice <;> cases h <;> exact ⟨rfl, fun _ => rfl⟩
  | nvkmsShimAllocateDevice _ => cases hc
  | nvkmsShimGrabOwnership _ => cases hc
  | nvkmsShimReleaseOwnership _ => cases hc
  | nvkmsShimFreeDevice _ => cases hc
  | _ => cases h; exact ⟨rfl, fun _ => rfl⟩

omit [DecidableEq I] in
/-- A call with NULL for a device does nothing. -/
theorem step_null {c : Call A P} {r : c.Resp} {w w' : World A P}
    (hc : c = .nvkmsShimGrabOwnership none ∨ c = .nvkmsShimReleaseOwnership none ∨ c = .nvkmsShimFreeDevice none)
    (h : World.step w c r = some w') : w' = w ∧ ∀ v : World A P, World.step v c r = some v := by
  rcases hc with rfl | rfl | rfl
  · cases r with
    | true => simp [World.step, nvkmsShimGrabOwnership] at h
    | false => exact ⟨(Option.some.inj h).symm, fun _ => rfl⟩
  · have hall : ∀ v : World A P, World.step v (.nvkmsShimReleaseOwnership none) r = some v := by
      simp [World.step, nvkmsShimReleaseOwnership]
    exact ⟨(Option.some.inj ((hall w).symm.trans h)).symm, hall⟩
  · have hall : ∀ v : World A P, World.step v (.nvkmsShimFreeDevice none) r = some v := by
      simp [World.step, nvkmsShimFreeDevice]
    exact ⟨(Option.some.inj ((hall w).symm.trans h)).symm, hall⟩

omit [DecidableEq I] in
/-- A call on a live device changes that device, by its own state only. -/
theorem step_live {c : Call A P} {r : c.Resp} {p : A}
    (hc : c = .nvkmsShimGrabOwnership (some p) ∨ c = .nvkmsShimReleaseOwnership (some p) ∨
      c = .nvkmsShimFreeDevice (some p)) (dev : NvKmsKapiDevice) :
    ∃ x, ∀ w : World A P, w.devs p = some dev →
      World.step w c r = some { w with devs := Function.update w.devs p x } := by
  rcases hc with rfl | rfl | rfl
  · refine ⟨some { dev with ownership_grabbed := dev.ownership_grabbed || r }, fun w hw => ?_⟩
    cases r with
    | false =>
      have he : Function.update w.devs p (some dev) = w.devs := by rw [← hw, Function.update_eq_self]
      simp [World.step, he]
    | true => simp [World.step, nvkmsShimGrabOwnership, hw]
  · exact ⟨some { dev with ownership_grabbed := false }, fun w hw => by
      simp [World.step, nvkmsShimReleaseOwnership, hw]⟩
  · exact ⟨none, fun w hw => by simp [World.step, nvkmsShimFreeDevice, hw]⟩

/-! ## Drivers do not interfere -/

omit [DecidableEq I] [DecidableEq P] in
theorem allocatorAfter_eq [DecidableEq I] {allocator : A → Option I} {i : I} {c : Call A P} {r : c.Resp}
    (hc : ∀ params, c ≠ .nvkmsShimAllocateDevice params) : allocatorAfter allocator i ⟨c, r⟩ = allocator := by
  cases c with
  | nvkmsShimAllocateDevice params => exact absurd rfl (hc params)
  | _ => rfl

omit [DecidableEq P] in
/-- A call that leaves the devices alone. -/
theorem answer_still {s : State I A P} {i : I} {e : Event A P} {w : World A P} (hw : w.devs = s.devs)
    (ha : allocatorAfter s.allocator i e = s.allocator) :
    (s.answer i e w).world i = ⟨(s.world i).devs, w.session⟩ ∧
      ∀ j, j ≠ i → (s.answer i e w).world j = s.world j := by
  simp only [State.world, State.answer, ha, hw]
  exact ⟨by simp, fun j hj => by simp [hj]⟩

omit [DecidableEq P] in
/-- A call that changes what is at `p`, where no other driver has a device. -/
theorem answer_update {s : State I A P} {i : I} {e : Event A P} {p : A} {x : Option NvKmsKapiDevice}
    (hp : allocatorAfter s.allocator i e p = some i)
    (ho : ∀ p', p' ≠ p → allocatorAfter s.allocator i e p' = s.allocator p')
    (hj : ∀ j, j ≠ i → (s.world j).devs p = none) :
    (s.answer i e ⟨Function.update s.devs p x, s.session i⟩).world i =
        ⟨Function.update (s.world i).devs p x, s.session i⟩ ∧
      ∀ j, j ≠ i → (s.answer i e ⟨Function.update s.devs p x, s.session i⟩).world j = s.world j := by
  simp only [State.world, State.answer] at hj ⊢
  refine ⟨?_, fun j hji => ?_⟩
  · rw [World.mk.injEq]
    refine ⟨funext fun p' => ?_, by simp⟩
    by_cases h : p' = p
    · subst h; simp [hp]
    · simp [h, ho p' h]
  · rw [World.mk.injEq]
    refine ⟨funext fun p' => ?_, by simp [hji]⟩
    by_cases h : p' = p
    · subst h
      have hne : i ≠ j := Ne.symm hji
      simp only [hp, Option.some.injEq, hne, if_false]
      exact (hj j hji).symm
    · simp [h, ho p' h]

/-- A call on a device that driver `i` allocated. -/
theorem answer_live {s : State I A P} {i : I} {c : Call A P} {r : c.Resp} {w : World A P} {p : A}
    (hc : c = .nvkmsShimGrabOwnership (some p) ∨ c = .nvkmsShimReleaseOwnership (some p) ∨
      c = .nvkmsShimFreeDevice (some p)) (hp : (s.world i).devs p ≠ none)
    (h : World.step (s.shared i) c r = some w) :
    World.step (s.world i) c r = some ((s.answer i ⟨c, r⟩ w).world i) ∧
      ∀ j, j ≠ i → (s.answer i ⟨c, r⟩ w).world j = s.world j := by
  obtain ⟨dev, hdev⟩ := Option.ne_none_iff_exists'.1 hp
  obtain ⟨x, hx⟩ := step_live (r := r) hc dev
  obtain ⟨hal, hs⟩ : s.allocator p = some i ∧ s.devs p = some dev := by
    simpa only [State.world, Option.ite_none_right_eq_some] using hdev
  have ha : allocatorAfter s.allocator i ⟨c, r⟩ = s.allocator := allocatorAfter_eq (by
    rintro params rfl
    simp at hc)
  rw [hx (s.shared i) hs, Option.some.injEq] at h
  subst h
  obtain ⟨h1, h2⟩ := answer_update (e := ⟨c, r⟩) (x := x) (by rw [ha, hal]) (fun p' _ => by rw [ha])
    (fun j hj => by simp [State.world, hal, Ne.symm hj])
  exact ⟨(hx _ hdev).trans (congrArg some h1.symm), h2⟩

/-- A call with NULL for a device. -/
theorem answer_null {s : State I A P} {i : I} {c : Call A P} {r : c.Resp} {w : World A P}
    (hc : c = .nvkmsShimGrabOwnership none ∨ c = .nvkmsShimReleaseOwnership none ∨ c = .nvkmsShimFreeDevice none)
    (h : World.step (s.shared i) c r = some w) :
    World.step (s.world i) c r = some ((s.answer i ⟨c, r⟩ w).world i) ∧
      ∀ j, j ≠ i → (s.answer i ⟨c, r⟩ w).world j = s.world j := by
  obtain ⟨rfl, hall⟩ := step_null hc h
  obtain ⟨h1, h2⟩ := answer_still (s := s) (i := i) (e := ⟨c, r⟩) (w := s.shared i) rfl
    (allocatorAfter_eq (by rintro params rfl; simp at hc))
  exact ⟨(hall _).trans (congrArg some h1.symm), h2⟩

/-- An allocation: `malloc` fails, or answers an address where no driver has a device. -/
theorem answer_alloc {s : State I A P} {i : I} {params : NvKmsKapiAllocateDeviceParams A} {allocated : Allocated A}
    {w : World A P} (h : World.step (s.shared i) (.nvkmsShimAllocateDevice params) allocated = some w) :
    World.step (s.world i) (.nvkmsShimAllocateDevice params) allocated =
        some ((s.answer i ⟨.nvkmsShimAllocateDevice params, allocated⟩ w).world i) ∧
      ∀ j, j ≠ i → (s.answer i ⟨.nvkmsShimAllocateDevice params, allocated⟩ w).world j = s.world j := by
  rcases World.alloc_answer h with rfl | ⟨p, rfl⟩
  · rw [World.step_alloc_none, Option.some.injEq] at h
    subst h
    obtain ⟨h1, h2⟩ := answer_still (s := s) (i := i) (e := ⟨.nvkmsShimAllocateDevice params, ⟨none, none⟩⟩)
      (w := s.shared i) rfl rfl
    exact ⟨(World.step_alloc_none _ params).trans (congrArg some h1.symm), h2⟩
  · simp only [World.step_alloc_some, Option.ite_none_right_eq_some, Option.some.injEq] at h
    obtain ⟨hp, rfl⟩ := h
    have hp' : s.devs p = none := hp
    have hfree : ∀ j, (s.world j).devs p = none := fun j => by simp [State.world, hp']
    obtain ⟨h1, h2⟩ := answer_update (s := s) (i := i) (e := ⟨.nvkmsShimAllocateDevice params, ⟨some p, some p⟩⟩)
      (x := some ⟨params.gpuId, false⟩) (by simp [allocatorAfter]) (fun p' h => by simp [allocatorAfter, h])
      (fun j _ => hfree j)
    rw [World.step_alloc_some, if_pos (hfree i)]
    exact ⟨congrArg some h1.symm, h2⟩

/-- A safe call of driver `i` is the same call in its own world, and leaves the
worlds of the others alone. -/
theorem answer_world {s : State I A P} {i : I} {c : Call A P} {r : c.Resp} {w : World A P}
    (hsafe : (s.world i).Safe c) (h : World.step (s.shared i) c r = some w) :
    World.step (s.world i) c r = some ((s.answer i ⟨c, r⟩ w).world i) ∧
      ∀ j, j ≠ i → (s.answer i ⟨c, r⟩ w).world j = s.world j := by
  cases hd : onDevice c with
  | false =>
    obtain ⟨hw, hall⟩ := step_off_device hd h
    obtain ⟨h1, h2⟩ := answer_still (s := s) (i := i) (e := ⟨c, r⟩) hw
      (allocatorAfter_eq (by rintro params rfl; cases hd))
    exact ⟨(hall _).trans (congrArg some h1.symm), h2⟩
  | true =>
    cases c with
    | nvkmsShimAllocateDevice params => exact answer_alloc h
    | nvkmsShimGrabOwnership pDevice =>
      cases pDevice with
      | none => exact answer_null (.inl rfl) h
      | some p => exact answer_live (.inl rfl) (hsafe p rfl) h
    | nvkmsShimReleaseOwnership pDevice =>
      cases pDevice with
      | none => exact answer_null (.inr (.inl rfl)) h
      | some p => exact answer_live (.inr (.inl rfl)) (hsafe p rfl) h
    | nvkmsShimFreeDevice pDevice =>
      cases pDevice with
      | none => exact answer_null (.inr (.inr rfl)) h
      | some p => exact answer_live (.inr (.inr rfl)) (hsafe p rfl) h
    | _ => cases hd

end PortingKit.Driver.Pool
