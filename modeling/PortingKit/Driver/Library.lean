import PortingKit.Driver.Pool
/-!
# The shim's library under several drivers

`nvkms_shim_init` and `nvkms_shim_teardown` know no driver: the teardown of one
takes the library from all. `Alone` says when it does no harm.
-/
open PortingKit.Lib PortingKit.Shim
open PortingKit.Lib.Prog (perform perform_bind Spec)

namespace PortingKit.Driver.Pool

variable {I A P : Type} [DecidableEq I] [DecidableEq A] [DecidableEq P]

/-! ## What is left to do with the library -/

section
omit [DecidableEq I]

/-- What is left of a request. -/
abbrev Left (A P : Type) := Code A P (KernReturn × IVars A P)

/-- What is left of a request can come to a device call, or leave the driver started,
before it initialises the shim. -/
inductive Uses (req : Request P) : Left A P → World A P → Prop
  | now {c : Call A P} {k : c.Resp → Left A P} {w : World A P} : onDevice c = true → Uses req (.call c k) w
  | started {ret : KernReturn} {ivars : IVars A P} {w : World A P} : req.started ret = true → Uses req (.ret (ret, ivars)) w
  | later {c : Call A P} {k : c.Resp → Left A P} {w w' : World A P} {r : c.Resp} :
    Event.initOk ⟨c, r⟩ = false → World.step w c r = some w' → Uses req (k r) w' → Uses req (.call c k) w

variable {req : Request P}

theorem not_uses_ret {ret : KernReturn} {ivars : IVars A P} {w : World A P} (h : req.started ret = false) :
    ¬ Uses req (.ret (ret, ivars)) w := by
  rintro ⟨⟩
  rename_i hs
  rw [h] at hs
  cases hs

theorem uses_call {c : Call A P} {k : c.Resp → Left A P} {w : World A P} (hc : onDevice c = false)
    (h : Uses req (.call c k) w) :
    ∃ r w', Event.initOk ⟨c, r⟩ = false ∧ World.step w c r = some w' ∧ Uses req (k r) w' := by
  cases h with
  | now h => rw [hc] at h; cases h
  | later hr hs h => exact ⟨_, _, hr, hs, h⟩

/-- After a teardown the shim is not used any more. -/
def Quits (req : Request P) : Left A P → Prop
  | .ret _ => True
  | .call c k => (∀ r, Quits req (k r)) ∧ (c = .nvkmsShimTeardown → ∀ r w, ¬ Uses req (k r) w)

theorem not_uses_fail {provider provider' : P} {ivars : IVars A P} {w : World A P} :
    ¬ Uses (.start provider') (fail provider ivars) w := by
  intro h
  obtain ⟨_, _, -, -, h⟩ := uses_call rfl h
  exact not_uses_ret rfl h

/-- `Start` initialises the shim before it uses it. -/
theorem not_uses_start {drv : NVIDIADriver A} {provider : P} {ivars : IVars A P} {w : World A P} :
    ¬ Uses (.start provider) (start drv provider ivars) w := by
  intro h
  simp only [start, perform_bind] at h
  obtain ⟨ret, _, -, -, h⟩ := uses_call rfl h
  split at h
  · rename_i hret
    exact not_uses_ret (by simpa [Request.started] using hret) h
  obtain ⟨_, _, -, -, h⟩ := uses_call rfl h
  split at h
  · exact not_uses_ret rfl h
  obtain ⟨status, _, hinit, -, h⟩ := uses_call rfl h
  have hstatus : status ≠ 0 := by simpa [Event.initOk] using hinit
  rw [if_pos hstatus] at h
  exact not_uses_fail h

theorem quits_call {c : Call A P} {k : c.Resp → Left A P} (hc : c ≠ .nvkmsShimTeardown)
    (hk : ∀ r, Quits req (k r)) : Quits req (.call c k) := ⟨hk, fun h => absurd h hc⟩

theorem quits_fail {provider : P} {ivars : IVars A P} : Quits req (fail provider ivars) :=
  quits_call (by simp) fun _ => trivial

theorem quits_failAfterOpen {provider : P} {ivars : IVars A P} : Quits req (failAfterOpen provider ivars) :=
  quits_call (by simp) fun _ => quits_fail

theorem quits_failAfterAlloc {provider : P} {ivars : IVars A P} : Quits req (failAfterAlloc provider ivars) :=
  quits_call (by simp) fun _ => quits_failAfterOpen

/-- `Start` never tears the shim down. -/
theorem quits_start {drv : NVIDIADriver A} {provider : P} {ivars : IVars A P} : Quits req (start drv provider ivars) := by
  simp only [start, perform_bind]
  apply quits_call (by simp)
  intro ret
  split
  · trivial
  apply quits_call (by simp)
  intro pciDevice
  split
  · trivial
  apply quits_call (by simp)
  intro status
  split
  · exact quits_fail
  apply quits_call (by simp)
  intro ret
  split
  · exact quits_fail
  refine quits_call (by simp) fun id => quits_call (by simp) fun nvDevice => ?_
  split
  · exact quits_failAfterOpen
  apply quits_call (by simp)
  intro ok
  split
  · exact quits_failAfterAlloc
  · exact quits_call (by simp) fun _ => trivial

/-- `Stop` tears it down when it is done with the device. -/
theorem quits_stop {provider : P} {ivars : IVars A P} : Quits (.stop provider) (stop provider ivars) := by
  have hteardown : ∀ ivars : IVars A P, Quits (.stop provider) (do
      let _ ← perform .nvkmsShimTeardown
      let ret ← perform (.superStop provider)
      return (ret, ivars) : Code A P (KernReturn × IVars A P)) := fun ivars =>
    ⟨fun _ => ⟨fun _ => trivial, nofun⟩, fun _ _ w h => by
      obtain ⟨_, _, -, -, h⟩ := uses_call rfl h
      exact not_uses_ret rfl h⟩
  obtain ⟨pciDevice, nvDevice⟩ := ivars
  cases nvDevice with
  | none =>
    cases pciDevice with
    | none => exact hteardown _
    | some q => exact quits_call (by simp) fun _ => hteardown _
  | some p =>
    refine quits_call (by simp) fun _ => quits_call (by simp) fun _ => ?_
    cases pciDevice with
    | none => exact hteardown _
    | some q => exact quits_call (by simp) fun _ => hteardown _

end

/-! ## Each driver on its own -/

/-- A driver is between two requests as a lone driver is, or what is left of its
request takes it there by proper calls. -/
def Instance.Ok (x : Instance A P) (w : World A P) : Prop :=
  match x.running with
  | none => Driver.Inv x.started x.ivars w
  | some (req, code) =>
    Quits req code ∧ Spec World.step World.Proper code w fun r w => Driver.Inv (req.started r.1) r.2 w

def Inv (s : State I A P) : Prop := ∀ i, (s.inst i).Ok (s.world i)

theorem inv_init : Inv (init : State I A P) := fun _ => ⟨fun _ => by simp [State.world, init], fun _ => rfl⟩

theorem Instance.Ok.spec {x : Instance A P} {w : World A P} (h : x.Ok w) {req code}
    (hrun : x.running = some (req, code)) :
    Quits req code ∧ Spec World.step World.Proper code w fun r w => Driver.Inv (req.started r.1) r.2 w := by
  unfold Instance.Ok at h
  rw [hrun] at h
  exact h

theorem Instance.Ok.idle {x : Instance A P} {w : World A P} (h : x.Ok w) (hrun : x.running = none) :
    Driver.Inv x.started x.ivars w := by
  unfold Instance.Ok at h
  rw [hrun] at h
  exact h

theorem inv_setInst {s : State I A P} {i : I} {x : Instance A P} (hx : x.Ok (s.world i))
    (ho : ∀ j, j ≠ i → (s.inst j).Ok (s.world j)) : Inv (s.setInst i x) :=
  forall_setInst Instance.Ok hx ho

/-- A request begins with what its specification asks for. -/
theorem code_spec {drv : NVIDIADriver A} {req : Request P} {x : Instance A P} {w : World A P}
    (hi : Driver.Inv x.started x.ivars w) (hreq : x.started = onStarted req) :
    Quits req (req.code drv x.ivars) ∧
      Spec World.step World.Proper (req.code drv x.ivars) w fun r w => Driver.Inv (req.started r.1) r.2 w := by
  cases req with
  | start provider =>
    rw [hreq] at hi
    exact ⟨quits_start, start_spec hi⟩
  | stop provider => exact ⟨quits_stop, stop_spec hi (.inl hreq)⟩

theorem step_inv {drv : I → NVIDIADriver A} {s s' : State I A P} {a : Act I A P} (hi : Inv s)
    (h : Step drv s a s') : Inv s' := by
  rcases step_cases h with ⟨i, req, -, hrun, hreq, rfl⟩ | ⟨i, c, r, req, k, w, -, hrun, hw, rfl⟩ |
    ⟨i, req, ret, ivars, -, hrun, rfl⟩
  · exact inv_setInst (code_spec ((hi i).idle hrun) hreq) fun j _ => hi j
  · obtain ⟨hq, hs⟩ := (hi i).spec hrun
    obtain ⟨hown, hothers⟩ := answer_world (hs.call_ok World.step_total).safe hw
    exact inv_setInst ⟨hq.1 r, hs.call_rest hown⟩ fun j hj => by rw [hothers j hj]; exact hi j
  · exact inv_setInst ((hi i).spec hrun).2.ret fun j _ => hi j

/-! ## The library stays up -/

/-- A driver that is started, or in a request that can still come to a device call, or
leave it started, before it initialises the shim. -/
def Instance.Needs (x : Instance A P) (w : World A P) : Prop :=
  match x.running with
  | none => x.started = true
  | some (req, code) => Uses req code w

theorem needs_running {x : Instance A P} {w : World A P} {req : Request P} {code : Left A P}
    (hrun : x.running = some (req, code)) : x.Needs w ↔ Uses req code w := by
  unfold Instance.Needs
  rw [hrun]

omit [DecidableEq I] in
/-- Every call can be answered so that it does not initialise the shim. -/
theorem exists_answer (w : World A P) (c : Call A P) : ∃ r w', Event.initOk ⟨c, r⟩ = false ∧ World.step w c r = some w' := by
  by_cases hc : c = .nvkmsShimInit
  · subst hc
    exact ⟨(1 : Int), w, rfl, rfl⟩
  · obtain ⟨r, w', hw⟩ := World.step_total w c
    refine ⟨r, w', ?_, hw⟩
    cases c with
    | nvkmsShimInit => exact absurd rfl hc
    | _ => rfl

omit [DecidableEq I] in
/-- A request that a live device will be left by has still to do with it. -/
theorem uses_of_live {req : Request P} {code : Left A P} {w : World A P} {p : A}
    (hs : Spec World.step World.Proper code w fun r w => Driver.Inv (req.started r.1) r.2 w) (hp : w.devs p ≠ none) :
    Uses req code w := by
  induction code generalizing w with
  | ret a =>
    obtain ⟨ret, ivars⟩ := a
    have hinv := hs.ret
    cases hst : req.started ret with
    | true => exact .started hst
    | false =>
      simp only [hst, Driver.Inv] at hinv
      exact absurd (hinv.devs p) hp
  | call c k ih =>
    cases hc : onDevice c with
    | true => exact .now hc
    | false =>
      obtain ⟨r, w', hinit, hw⟩ := exists_answer w c
      refine .later hinit hw (ih r (hs.call_rest hw) ?_)
      rwa [(step_off_device hc hw).1]

/-- So whoever has a live device needs the shim. -/
theorem Instance.Ok.needs {x : Instance A P} {w : World A P} (h : x.Ok w) {p : A} (hp : w.devs p ≠ none) : x.Needs w := by
  cases hrun : x.running with
  | none =>
    have hidle := h.idle hrun
    unfold Instance.Needs
    rw [hrun]
    cases hst : x.started with
    | true => rfl
    | false =>
      rw [hst] at hidle
      exact absurd (hidle.devs p) hp
  | some r =>
    obtain ⟨req, code⟩ := r
    exact (needs_running hrun).2 (uses_of_live (h.spec hrun).2 hp)

/-- A teardown finds no live device, and a device call finds the library up. -/
def LibSafe (s : State I A P) : Act I A P → Prop
  | .call _ ⟨c, _⟩ =>
    (c = .nvkmsShimTeardown → ∀ j p, (s.world j).devs p = none) ∧ (onDevice c = true → s.lib = true)
  | _ => True

/-- A driver tears the shim down only when no other driver needs it. -/
def Alone (s : State I A P) : Act I A P → Prop
  | .call i ⟨c, _⟩ => c = .nvkmsShimTeardown → ∀ j, j ≠ i → ¬ (s.inst j).Needs (s.world j)
  | _ => True

/-- While the library is down nobody needs it. -/
structure LibInv (s : State I A P) : Prop where
  inv : Inv s
  lib : ∀ i, (s.inst i).Needs (s.world i) → s.lib = true

theorem libInv_init : LibInv (init : State I A P) where
  inv := inv_init
  lib i h := by cases h

theorem libSafe_step {drv : I → NVIDIADriver A} {s s' : State I A P} {a : Act I A P} (hl : LibInv s)
    (ha : Alone s a) (h : Step drv s a s') : LibSafe s a := by
  rcases step_cases h with ⟨i, req, rfl, -⟩ | ⟨i, c, r, req, k, w, rfl, hrun, hw, -⟩ | ⟨i, _, _, _, rfl, -⟩
  · trivial
  · obtain ⟨-, hs⟩ := (hl.inv i).spec hrun
    have hproper := hs.call_ok World.step_total
    refine ⟨fun hc j p => ?_, fun hc => hl.lib i ((needs_running hrun).2 (.now hc))⟩
    by_cases hji : j = i
    · subst hji; exact hproper.teardown hc p
    · by_contra hp
      exact ha hc j hji ((hl.inv j).needs hp)
  · trivial

/-- What the driver that made a call still needs afterwards keeps the library up. -/
theorem needs_answer {s : State I A P} {i : I} {c : Call A P} {r : c.Resp} {req : Request P} {k : c.Resp → Left A P}
    {w : World A P} (hl : LibInv s) (hrun : (s.inst i).running = some (req, .call c k))
    (hw : World.step (s.shared i) c r = some w) (hu : Uses req (k r) ((s.answer i ⟨c, r⟩ w).world i)) :
    (s.answer i ⟨c, r⟩ w).lib = true := by
  obtain ⟨hq, hs⟩ := (hl.inv i).spec hrun
  obtain ⟨hown, -⟩ := answer_world (hs.call_ok World.step_total).safe hw
  -- What it needs now it needed before the call, unless the call was the init.
  have hup : s.lib = true ∨ Event.initOk ⟨c, r⟩ = true := by
    cases hr : Event.initOk ⟨c, r⟩ with
    | true => exact .inr rfl
    | false => exact .inl (hl.lib i ((needs_running hrun).2 (.later hr hown hu)))
  have hnot : Event.teardown ⟨c, r⟩ = false := by
    cases c with
    | nvkmsShimTeardown => exact absurd hu (hq.2 rfl r _)
    | _ => rfl
  rcases hup with h | h <;> simp [State.answer, h, hnot]

theorem libInv_step {drv : I → NVIDIADriver A} {s s' : State I A P} {a : Act I A P} (hl : LibInv s)
    (ha : Alone s a) (h : Step drv s a s') : LibInv s' := by
  refine ⟨step_inv hl.inv h, ?_⟩
  rcases step_cases h with ⟨i, req, rfl, hrun, hreq, rfl⟩ | ⟨i, c, r, req, k, w, rfl, hrun, hw, rfl⟩ |
    ⟨i, req, ret, ivars, rfl, hrun, rfl⟩
  · -- A request begins: only its own driver can come to need the library.
    refine forall_setInst (fun x w => x.Needs w → s.lib = true) (fun hu => ?_) fun j _ => hl.lib j
    cases req with
    | start provider => exact absurd hu not_uses_start
    | stop provider =>
      refine hl.lib i ?_
      unfold Instance.Needs
      rw [hrun]
      exact hreq
  · obtain ⟨-, hs⟩ := (hl.inv i).spec hrun
    obtain ⟨-, hothers⟩ := answer_world (hs.call_ok World.step_total).safe hw
    refine forall_setInst (fun x w' => x.Needs w' → (s.answer i ⟨c, r⟩ w).lib = true)
      (needs_answer hl hrun hw) fun j hj hn => ?_
    rw [hothers j hj] at hn
    have hlib := hl.lib j hn
    cases c with
    | nvkmsShimTeardown => exact absurd hn (ha rfl j hj)
    | _ => simp [State.answer, hlib, Event.teardown]
  · exact forall_setInst (fun x w => x.Needs w → s.lib = true)
      (fun hst => hl.lib i ((needs_running hrun).2 (.started hst))) fun j _ => hl.lib j

/-! ## A teardown too early -/

theorem step_call (drv : I → NVIDIADriver A) {s : State I A P} {i : I} {c : Call A P} {r : c.Resp} {req : Request P}
    {k : c.Resp → Code A P (KernReturn × IVars A P)} {w : World A P} (hrun : (s.inst i).running = some (req, .call c k))
    (hw : World.step (s.shared i) c r = some w) :
    Step drv s (.call i ⟨c, r⟩) ((s.answer i ⟨c, r⟩ w).setInst i { s.inst i with running := some (req, k r) }) := by
  simp [Step, step, hrun, hw]

theorem device_call_down (drv : I → NVIDIADriver A) {s : State I A P} {j : I} {c : Call A P} {req : Request P}
    {k : c.Resp → Code A P (KernReturn × IVars A P)} (hlib : s.lib = false)
    (hrun : (s.inst j).running = some (req, .call c k)) (hc : onDevice c = true) :
    ∃ a s', Step drv s a s' ∧ ¬ LibSafe s a := by
  obtain ⟨r, w, hw⟩ := World.step_total (s.shared j) c
  refine ⟨_, _, step_call drv hrun hw, fun h => ?_⟩
  rw [h.2 hc] at hlib
  cases hlib

/-- With the library down, a driver that has no live device and can still come to need
one makes a device call if only it is given the steps. -/
theorem down_reaches (drv : I → NVIDIADriver A) {s : State I A P} {j : I} {req : Request P} {code : Left A P}
    (hlib : s.lib = false) (hrun : (s.inst j).running = some (req, code)) (hnone : ∀ p, (s.world j).devs p = none)
    (hspec : Spec World.step World.Proper code (s.world j) fun r w => Driver.Inv (req.started r.1) r.2 w)
    (hu : Uses req code (s.world j)) :
    ∃ tr s' a s'', Run (Step drv) s tr s' ∧ Step drv s' a s'' ∧ ¬ LibSafe s' a := by
  generalize hw : s.world j = w at hu hnone hspec
  induction hu generalizing s with
  | now hc =>
    obtain ⟨a, s', hst, hn⟩ := device_call_down drv hlib hrun hc
    exact ⟨[], s, a, s', .nil, hst, hn⟩
  | @started ret ivars w hst =>
    -- A driver that is left started has a live device.
    have hinv := hspec.ret
    simp only [hst, Driver.Inv] at hinv
    obtain ⟨p, q, hr⟩ := hinv
    exact absurd (hnone p) ((hr.devs p).2 rfl)
  | @later c k w w' r hinit hs hu ih =>
    subst hw
    cases hc : onDevice c with
    | true =>
      obtain ⟨a, s', hst, hn⟩ := device_call_down drv hlib hrun hc
      exact ⟨[], s, a, s', .nil, hst, hn⟩
    | false =>
      obtain ⟨hdevs, hall⟩ := step_off_device hc hs
      have hst := step_call drv hrun (hall s.devs)
      obtain ⟨hwi, -⟩ := answer_still (s := s) (i := j) (e := ⟨c, r⟩) (w := ⟨s.devs, w'.session⟩) rfl
        (allocatorAfter_eq (by rintro params rfl; cases hc))
      obtain ⟨tr, s', a, s'', hr, ha, hn⟩ := ih
        (s := (s.answer j ⟨c, r⟩ ⟨s.devs, w'.session⟩).setInst j { s.inst j with running := some (req, k r) })
        (by simp [State.setInst, State.answer, hlib, hinit]) (by simp [State.setInst])
        (by rw [← hdevs] at hwi; exact hwi) (by rw [hdevs]; exact hnone) (hspec.call_rest hs)
      exact ⟨_, s', a, s'', .cons hst hr, ha, hn⟩

/-- A teardown while another driver needs the shim does harm at once, or leaves it steps
that do. -/
theorem harm_of_not_alone (drv : I → NVIDIADriver A) {s s' : State I A P} {a : Act I A P} (hi : Inv s)
    (h : Step drv s a s') (ha : ¬ Alone s a) :
    ∃ tr s'', Run (Step drv) s' tr s'' ∧ ∃ t ∈ ⟨s, a, s'⟩ :: tr, ¬ LibSafe t.pre t.act := by
  rcases step_cases h with ⟨i, req, rfl, -⟩ | ⟨i, c, r, req, k, w, rfl, hrun, hw, rfl⟩ | ⟨i, _, _, _, rfl, -⟩
  · exact absurd trivial ha
  · simp only [Alone, Classical.not_imp, not_forall, not_not] at ha
    obtain ⟨rfl, j, hji, hn⟩ := ha
    by_cases hlive : ∃ p, (s.world j).devs p ≠ none
    · obtain ⟨p, hp⟩ := hlive
      exact ⟨[], _, .nil, _, List.mem_cons_self, fun hl => hp (hl.1 rfl j p)⟩
    · rw [not_exists] at hlive
      have hnone : ∀ p, (s.world j).devs p = none := fun p => not_not.1 (hlive p)
      cases hj : (s.inst j).running with
      | none =>
        -- A started driver has a live device.
        have hidle := (hi j).idle hj
        unfold Instance.Needs at hn
        rw [hj] at hn
        simp only at hn
        rw [hn] at hidle
        obtain ⟨p, q, hr⟩ := hidle
        exact absurd (hnone p) ((hr.devs p).2 rfl)
      | some x =>
        obtain ⟨req', code⟩ := x
        obtain ⟨-, hothers⟩ := answer_world (c := .nvkmsShimTeardown) trivial hw
        have hsame := hothers j hji
        obtain ⟨tr, s', a, s'', hr, hst, hl⟩ := down_reaches drv (j := j)
          (s := (s.answer i ⟨.nvkmsShimTeardown, r⟩ w).setInst i { s.inst i with running := some (req, k r) })
          (by simp [State.setInst, State.answer, Event.teardown])
          (by simpa [State.setInst, State.answer, hji] using hj) (hsame.symm ▸ hnone) (hsame.symm ▸ ((hi j).spec hj).2)
          (hsame.symm ▸ (needs_running hj).1 hn)
        exact ⟨_, s'', hr.snoc hst, ⟨s', a, s''⟩, by simp, hl⟩
  · exact absurd trivial ha

/-- No driver loses the library under it in a run where each teardown is made while no
other driver needs the shim; and any other teardown that a run comes to can be followed
by harm. -/
theorem lib_safe_of_alone (drv : I → NVIDIADriver A) :
    (∀ (tr : List (Tr (State I A P) (Act I A P))) s, Run (Step drv) init tr s →
      (∀ t ∈ tr, Alone t.pre t.act) → ∀ t ∈ tr, LibSafe t.pre t.act) ∧
    (∀ (tr : List (Tr (State I A P) (Act I A P))) s a s', Run (Step drv) init tr s → Step drv s a s' → ¬ Alone s a →
      ∃ tr' s'', Run (Step drv) s' tr' s'' ∧ ∃ t ∈ ⟨s, a, s'⟩ :: tr', ¬ LibSafe t.pre t.act) := by
  refine ⟨fun tr s hr ha t ht => ?_, fun tr s a s' hr h ha => ?_⟩
  · obtain ⟨-, hinv⟩ := hr.inv_of_cond LibInv Alone libInv_init (fun _ _ _ => libInv_step) ha
    obtain ⟨hpre, hst, -⟩ := hinv t ht
    exact libSafe_step hpre (ha t ht) hst
  · exact harm_of_not_alone drv (hr.inv Inv inv_init fun _ _ _ => step_inv).1 h ha

/-- The acts of a `Start` that goes well, of driver `i` on provider `i`. -/
def startActs (drv : NVIDIADriver Nat) (i : Bool) (p : Nat) : List (Act Bool Nat Bool) :=
  [.begin i (.start i), .call i ⟨.superStart i, kIOReturnSuccess⟩, .call i ⟨.osDynamicCast i, some i⟩,
    .call i ⟨.nvkmsShimInit, (0 : Int)⟩, .call i ⟨.pciOpen (some i), kIOReturnSuccess⟩,
    .call i ⟨.configRead32 (some i), 0x10de#32⟩, .call i ⟨.nvkmsShimAllocateDevice (drv.params 0x10de), ⟨some p, some p⟩⟩,
    .call i ⟨.nvkmsShimGrabOwnership (some p), true⟩, .call i ⟨.registerService, ()⟩, .finish i]

/-- And of the `Stop` after it, up to the teardown. -/
def stopActs (i : Bool) (p : Nat) : List (Act Bool Nat Bool) :=
  [.begin i (.stop i), .call i ⟨.nvkmsShimReleaseOwnership (some p), ()⟩,
    .call i ⟨.nvkmsShimFreeDevice (some p), ()⟩, .call i ⟨.pciClose (some i), ()⟩]

/-- Whatever is not a teardown is made alone. -/
theorem alone_of_acts {tr : List (Tr (State I A P) (Act I A P))} {acts : List (Act I A P)} (hmap : tr.map (·.act) = acts)
    (h : ∀ i r, .call i ⟨.nvkmsShimTeardown, r⟩ ∉ acts) : ∀ t ∈ tr, Alone t.pre t.act := by
  intro t ht
  have hmem : t.act ∈ acts := hmap ▸ List.mem_map_of_mem ht
  cases hact : t.act with
  | call i e =>
    obtain ⟨c, r⟩ := e
    rintro rfl
    rw [hact] at hmem
    exact absurd hmem (h i r)
  | begin | finish => trivial

/-- A driver starts and stops, and then another one starts. -/
theorem lib_safe_of_alone_turn : ∃ (tr : List (Tr (State Bool Nat Bool) (Act Bool Nat Bool))) (s : State Bool Nat Bool),
    Run (Step fun _ => ⟨0, 0, 0⟩) init tr s ∧ (s.devs 5).isSome = true ∧ s.lib = true ∧ ∀ t ∈ tr, LibSafe t.pre t.act := by
  obtain ⟨tr, s, s', tr', s'', hex, hst, hidle, hstopped, hex', hdev, hlib⟩ : ∃ tr s s' tr' s'',
      exec (step fun _ => ⟨0, 0, 0⟩) init (startActs ⟨0, 0, 0⟩ true 6 ++ stopActs true 6) = some (tr, s) ∧
      step (fun _ => ⟨0, 0, 0⟩) s (.call true ⟨.nvkmsShimTeardown, ()⟩) = some s' ∧
      (s.inst false).running = none ∧ (s.inst false).started = false ∧
      exec (step fun _ => ⟨0, 0, 0⟩) s' ([.call true ⟨.superStop true, kIOReturnSuccess⟩, .finish true] ++
        startActs ⟨0, 0, 0⟩ false 5) = some (tr', s'') ∧ (s''.devs 5).isSome = true ∧ s''.lib = true :=
    ⟨_, _, _, _, _, rfl, rfl, rfl, rfl, rfl, rfl, rfl⟩
  obtain ⟨hr, hacts⟩ := run_of_exec _ _ _ hex
  obtain ⟨hr', hacts'⟩ := run_of_exec _ _ _ hex'
  have hrun := hr.append (.cons hst hr')
  refine ⟨_, s'', hrun, hdev, hlib, (lib_safe_of_alone _).1 _ _ hrun fun t ht => ?_⟩
  rcases List.mem_append.1 ht with ht | ht
  · exact alone_of_acts hacts (by simp [startActs, stopActs]) t ht
  · rcases List.mem_cons.1 ht with rfl | ht
    · intro _ j hj
      obtain rfl : j = false := by simpa using hj
      simp [Instance.Needs, hidle, hstopped]
    · exact alone_of_acts hacts' (by simp [startActs]) t ht

/-- Two drivers start, and the first one stops. -/
theorem lib_not_safe :
    ¬ ∀ (tr : List (Tr (State Bool Nat Bool) (Act Bool Nat Bool))) s,
      Run (Step fun _ => ⟨0, 0, 0⟩) init tr s → ∀ t ∈ tr, LibSafe t.pre t.act := by
  intro h
  obtain ⟨tr, s, s', hex, hst, hdev⟩ : ∃ tr s s', exec (step fun _ => ⟨0, 0, 0⟩) init
        (startActs ⟨0, 0, 0⟩ false 5 ++ startActs ⟨0, 0, 0⟩ true 6 ++ stopActs false 5) = some (tr, s) ∧
      step (fun _ => ⟨0, 0, 0⟩) s (.call false ⟨.nvkmsShimTeardown, ()⟩) = some s' ∧
      ((s.world true).devs 6).isSome = true := ⟨_, _, _, rfl, rfl, rfl⟩
  have hr := (run_of_exec _ _ _ hex).1.snoc hst
  have hl := (h _ _ hr ⟨s, .call false ⟨.nvkmsShimTeardown, ()⟩, s'⟩ (by simp)).1 rfl true 6
  rw [hl] at hdev
  cases hdev

end PortingKit.Driver.Pool
