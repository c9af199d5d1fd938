import PortingKit.Driver.Library
/-!
# Drivers are isolated from each other

Apart from the library they share, drivers in one process keep apart whatever the
interleaving of their calls: each call works on its own driver's device and
session, and every live device belongs to a driver that will free it.
-/
open PortingKit.Lib PortingKit.Shim
open PortingKit.Lib.Prog (Spec)

namespace PortingKit.Driver.Pool

variable {I A P : Type} [DecidableEq I] [DecidableEq A] [DecidableEq P]

/-! ## Who a device belongs to -/

/-- Every live device was allocated by some driver. -/
def Owned (s : State I A P) : Prop := ∀ p, s.devs p ≠ none → ∃ i, s.allocator p = some i

omit [DecidableEq I] [DecidableEq A] [DecidableEq P] in
theorem owned_init : Owned (init : State I A P) := fun _ h => absurd rfl h

omit [DecidableEq I] in
/-- Device calls other than an allocation bring no device to life. -/
theorem step_devs {c : Call A P} {r : c.Resp} {w w' : World A P} (hc : ∀ params, c ≠ .nvkmsShimAllocateDevice params)
    (h : World.step w c r = some w') {p : A} (hp : w'.devs p ≠ none) : w.devs p ≠ none := by
  have hdead : ∀ {q : A} {x : Option NvKmsKapiDevice}, (w.devs q = none → x = none) →
      Function.update w.devs q x p ≠ none → w.devs p ≠ none := by
    intro q x hx hne hnone
    by_cases e : p = q
    · subst e
      rw [Function.update_self] at hne
      exact hne (hx hnone)
    · rw [Function.update_of_ne e] at hne
      exact hne hnone
  have hpointer : ∀ {q : Option A}, (c = .nvkmsShimGrabOwnership q ∨ c = .nvkmsShimReleaseOwnership q ∨
      c = .nvkmsShimFreeDevice q) → w.devs p ≠ none := by
    intro q hq
    cases q with
    | none => rwa [(step_null hq h).1] at hp
    | some q =>
      cases hdev : w.devs q with
      | some dev =>
        obtain ⟨x, hx⟩ := step_live (r := r) hq dev
        rw [hx w hdev, Option.some.injEq] at h
        subst h
        exact hdead (fun hnone => by rw [hdev] at hnone; cases hnone) hp
      | none =>
        -- On memory that is not live the call is left without effect.
        have hw : w' = w := by
          rcases hq with rfl | rfl | rfl
          · cases r with
            | false => exact (Option.some.inj h).symm
            | true => simp [World.step, nvkmsShimGrabOwnership, hdev] at h
          · simpa [World.step, nvkmsShimReleaseOwnership, hdev] using h.symm
          · simpa [World.step, nvkmsShimFreeDevice, hdev] using h.symm
        rwa [hw] at hp
  cases hd : onDevice c with
  | false => rwa [(step_off_device hd h).1] at hp
  | true =>
    cases c with
    | nvkmsShimAllocateDevice params => exact absurd rfl (hc params)
    | nvkmsShimGrabOwnership q => exact hpointer (.inl rfl)
    | nvkmsShimReleaseOwnership q => exact hpointer (.inr (.inl rfl))
    | nvkmsShimFreeDevice q => exact hpointer (.inr (.inr rfl))
    | _ => cases hd

theorem owned_step {drv : I → NVIDIADriver A} {s s' : State I A P} {a : Act I A P} (ho : Owned s)
    (h : Step drv s a s') : Owned s' := by
  rcases step_cases h with ⟨i, req, -, -, -, rfl⟩ | ⟨i, c, r, req, k, w, -, -, hw, rfl⟩ | ⟨i, _, _, _, -, -, rfl⟩
  · exact ho
  · intro p hp
    change w.devs p ≠ none at hp
    change ∃ j, allocatorAfter s.allocator i ⟨c, r⟩ p = some j
    by_cases hc : ∃ params, c = .nvkmsShimAllocateDevice params
    · obtain ⟨params, rfl⟩ := hc
      rcases World.alloc_answer hw with rfl | ⟨q, rfl⟩
      · rw [World.step_alloc_none, Option.some.injEq] at hw
        rw [← hw] at hp
        exact ho p hp
      · by_cases e : p = q
        · exact ⟨i, by simp [allocatorAfter, e]⟩
        · rw [World.step_alloc_some] at hw
          simp only [Option.ite_none_right_eq_some, Option.some.injEq] at hw
          obtain ⟨-, rfl⟩ := hw
          simp only [Function.update_of_ne e] at hp
          simpa [allocatorAfter, e] using ho p hp
    · rw [not_exists] at hc
      rw [allocatorAfter_eq hc]
      exact ho p (step_devs hc hw hp)
  · exact ho

/-! ## The drivers of a pool -/

/-- A call works on what its own driver has: a device call on a device the driver
allocated, and `Close` on a session it opened. -/
def Own (s : State I A P) (i : I) : Call A P → Prop
  | .nvkmsShimGrabOwnership pDevice | .nvkmsShimReleaseOwnership pDevice | .nvkmsShimFreeDevice pDevice =>
    ∀ p ∈ pDevice, s.devs p ≠ none ∧ s.allocator p = some i
  | .pciClose pciDevice => ∃ q ∈ pciDevice, s.session i q = true
  | _ => True

omit [DecidableEq A] [DecidableEq P] in
theorem own_of_safe {s : State I A P} {i : I} {c : Call A P} (h : (s.world i).Safe c) : Own s i c := by
  have hdev : ∀ {pDevice : Option A}, (∀ p ∈ pDevice, (s.world i).devs p ≠ none) →
      ∀ p ∈ pDevice, s.devs p ≠ none ∧ s.allocator p = some i := by
    intro pDevice hp p hmem
    have hne := hp p hmem
    unfold State.world at hne
    by_cases ha : s.allocator p = some i
    · exact ⟨by simpa only [ha, if_true] using hne, ha⟩
    · simp [ha] at hne
  cases c with
  | nvkmsShimGrabOwnership | nvkmsShimReleaseOwnership | nvkmsShimFreeDevice => exact hdev h
  | pciClose => exact h
  | _ => trivial

/-- One step of the pool touches one driver's part of it. -/
def Confined (t : Tr (State I A P) (Act I A P)) : Prop :=
  match t.act with
  | .call i ⟨c, _⟩ => Own t.pre i c ∧ ∀ j, j ≠ i → t.post.world j = t.pre.world j ∧ t.post.inst j = t.pre.inst j
  | .begin i _ | .finish i => ∀ j, t.post.world j = t.pre.world j ∧ (j ≠ i → t.post.inst j = t.pre.inst j)

theorem confined_step {drv : I → NVIDIADriver A} {s s' : State I A P} {a : Act I A P} (hi : Inv s)
    (h : Step drv s a s') : Confined ⟨s, a, s'⟩ := by
  have hinst : ∀ {s : State I A P} {i j : I} {x : Instance A P}, j ≠ i → (s.setInst i x).inst j = s.inst j :=
    fun hj => Function.update_of_ne hj _ _
  rcases step_cases h with ⟨i, req, rfl, -, -, rfl⟩ | ⟨i, c, r, req, k, w, rfl, hrun, hw, rfl⟩ |
    ⟨i, _, _, _, rfl, -, rfl⟩
  · exact fun j => ⟨rfl, hinst⟩
  · have hsafe := (((hi i).spec hrun).2.call_ok World.step_total).safe
    obtain ⟨-, hothers⟩ := answer_world hsafe hw
    exact ⟨own_of_safe hsafe, fun j hj => ⟨hothers j hj, hinst hj⟩⟩
  · exact fun j => ⟨rfl, hinst⟩

/-- What the pool has when the requests of some drivers are over. -/
structure Apart (s : State I A P) : Prop where
  /-- A started driver has one device, live and owned, and its session open. -/
  has : ∀ i, (s.inst i).running = none → (s.inst i).started = true →
    ∃ p q, Running (s.inst i).ivars (s.world i) p q ∧ s.allocator p = some i
  /-- Drivers never have the same device. -/
  distinct : ∀ i j p, (s.inst i).running = none → (s.inst j).running = none → (s.inst i).started = true →
    (s.inst j).started = true → (s.inst i).ivars.nvDevice = some p → (s.inst j).ivars.nvDevice = some p → i = j
  /-- A live device belongs to a driver that is started or in a request. -/
  kept : ∀ p, s.devs p ≠ none →
    ∃ i, s.allocator p = some i ∧ ((s.inst i).started = true ∨ (s.inst i).running ≠ none)

omit [DecidableEq A] [DecidableEq P] in
theorem running_allocator {s : State I A P} {i : I} {p : A} {q : P} (h : Running (s.inst i).ivars (s.world i) p q) :
    s.allocator p = some i := by
  have hne := (h.devs p).2 rfl
  by_contra ha
  simp [State.world, ha] at hne

theorem apart_of_inv {s : State I A P} (hi : Inv s) (ho : Owned s) : Apart s := by
  have hhas : ∀ i, (s.inst i).running = none → (s.inst i).started = true →
      ∃ p q, Running (s.inst i).ivars (s.world i) p q ∧ s.allocator p = some i := by
    intro i hrun hst
    have hown := (hi i).idle hrun
    rw [hst] at hown
    obtain ⟨p, q, hr⟩ := hown
    exact ⟨p, q, hr, running_allocator hr⟩
  refine ⟨hhas, fun i j p hi₁ hj₁ hi₂ hj₂ hip hjp => ?_, fun p hp => ?_⟩
  · obtain ⟨p₁, q₁, h₁, ha₁⟩ := hhas i hi₁ hi₂
    obtain ⟨p₂, q₂, h₂, ha₂⟩ := hhas j hj₁ hj₂
    obtain rfl : p = p₁ := Option.some.inj (hip.symm.trans h₁.nvDevice)
    obtain rfl : p = p₂ := Option.some.inj (hjp.symm.trans h₂.nvDevice)
    exact Option.some.inj (ha₁.symm.trans ha₂)
  · obtain ⟨i, ha⟩ := ho p hp
    refine ⟨i, ha, ?_⟩
    by_contra hno
    rw [not_or, not_not, Bool.not_eq_true] at hno
    -- Nothing of a driver that is neither is live.
    have hidle := (hi i).idle hno.2
    rw [hno.1] at hidle
    have hdead := hidle.devs p
    rw [State.world] at hdead
    simp only [ha, if_true] at hdead
    exact hp hdead

/-- In every interleaving of starts and stops, each call works on what its own
driver has and changes nothing of the others, no two drivers have one device, and
no live device is left behind. -/
theorem drivers_isolated {drv : I → NVIDIADriver A} {tr : List (Tr (State I A P) (Act I A P))} {s : State I A P}
    (hr : Run (Step drv) init tr s) : (∀ t ∈ tr, Confined t) ∧ Apart s := by
  obtain ⟨⟨hi, ho⟩, ht⟩ := hr.inv (fun s => Inv s ∧ Owned s) ⟨inv_init, owned_init⟩
    fun _ _ _ h hst => ⟨step_inv h.1 hst, owned_step h.2 hst⟩
  refine ⟨fun t htr => ?_, apart_of_inv hi ho⟩
  obtain ⟨⟨hpre, -⟩, hst, -⟩ := ht t htr
  exact confined_step hpre hst

/-- One driver starts, and another is stopped while it does. -/
theorem drivers_isolated_both : ∃ (tr : List (Tr (State Bool Nat Bool) (Act Bool Nat Bool))) (s : State Bool Nat Bool),
    Run (Step fun _ => ⟨0, 0, 0⟩) init tr s ∧ (s.devs 5).isSome = true ∧ (s.devs 6).isSome = false ∧ Apart s := by
  obtain ⟨tr, s, hex, h5, h6⟩ : ∃ tr s, exec (step fun _ => ⟨0, 0, 0⟩) init
        (startActs ⟨0, 0, 0⟩ true 6 ++ (startActs ⟨0, 0, 0⟩ false 5).take 7 ++ stopActs true 6) = some (tr, s) ∧
      (s.devs 5).isSome = true ∧ (s.devs 6).isSome = false := ⟨_, _, rfl, rfl, rfl⟩
  have hr := (run_of_exec _ _ _ hex).1
  exact ⟨tr, s, hr, h5, h6, (drivers_isolated hr).2⟩

end PortingKit.Driver.Pool
