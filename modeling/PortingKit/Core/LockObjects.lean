import Mathlib.Data.Finset.Basic
import PortingKit.Core.LockCode
/-!
# The life of lock objects

Any number of wrappers from init to destroy. A thread is in one call at a time
and the calls of different threads interleave; an address that was freed may be
handed out again. The rules of use: a wrapper is initialised while it has no lock
object, and initialised or destroyed while nobody is in a call on it or in its
critical section; it is locked and destroyed only once it has been initialised
and while neither is going on, locked by a thread that is not in its critical
section and unlocked by one that is.
-/
open PortingKit.Lib
open PortingKit.Lib.Prog (Spec)

namespace PortingKit.Locks.Objects

variable {T W L : Type} [DecidableEq L]

/-! ## Threads on wrappers -/

structure Memory (T W L : Type) where
  /-- The member `lock` of each wrapper. -/
  lock : W → Option L
  /-- The lock objects that are allocated and not freed. -/
  live : Finset L
  held : Held T L

structure State (T W L : Type) where
  mem : Memory T W L
  /-- The call a thread is in, and what is left of its code. -/
  running : T → Option (Request W × Code W L Bool)
  /-- The threads in a call on the wrapper. -/
  users : W → Finset T
  /-- The threads in its critical section. -/
  inside : W → Finset T
  /-- It has been initialised, and no init or destroy is going on. -/
  ready : W → Bool

inductive Act (T W L : Type) where
  | begin (t : T) (req : Request W)
  | call (t : T) (e : Σ c : Call W L, c.Resp)
  | finish (t : T)

/-- Nothing is initialised, and the wrappers contain whatever is in their memory. -/
def init (lock : W → Option L) (held : Held T L) : State T W L :=
  ⟨⟨lock, ∅, held⟩, fun _ => none, fun _ => ∅, fun _ => ∅, fun _ => false⟩

/-- The rules of use. -/
def State.MayBegin (s : State T W L) (t : T) : Request W → Prop
  | .init w => s.users w = ∅ ∧ s.inside w = ∅ ∧ (s.ready w = true → s.mem.lock w = none)
  | .destroy w => s.users w = ∅ ∧ s.inside w = ∅ ∧ s.ready w = true
  | .lock w => s.ready w = true ∧ t ∉ s.inside w
  | .unlock w => t ∈ s.inside w

variable [DecidableEq T] [DecidableEq W]

instance (s : State T W L) (t : T) : (req : Request W) → Decidable (s.MayBegin t req)
  | .init w => inferInstanceAs (Decidable (s.users w = ∅ ∧ s.inside w = ∅ ∧ (s.ready w = true → s.mem.lock w = none)))
  | .destroy w => inferInstanceAs (Decidable (s.users w = ∅ ∧ s.inside w = ∅ ∧ s.ready w = true))
  | .lock w => inferInstanceAs (Decidable (s.ready w = true ∧ t ∉ s.inside w))
  | .unlock w => inferInstanceAs (Decidable (t ∈ s.inside w))

/-- What a call of thread `t` does to the memory. Locking waits for the lock
object to be free; of an object that is not live, nothing is known. -/
def Memory.answer (m : Memory T W L) (t : T) : (c : Call W L) → c.Resp → Option (Memory T W L)
  | .load w, r => if r = m.lock w then some m else none
  | .store w l, _ => some { m with lock := Function.update m.lock w l }
  | .ioLockAlloc, none => some m
  | .ioLockAlloc, some l =>
    if l ∈ m.live then none else some { m with live := insert l m.live, held := Function.update m.held l none }
  | .ioLockLock (some l), _ => do
    let held ← ioLockLock l t m.held
    return { m with held }
  | .ioLockUnlock (some l), _ => some { m with held := ioLockUnlock l m.held }
  | .ioLockFree (some l), _ => some { m with live := m.live.erase l }
  | .ioLockLock none, _ | .ioLockUnlock none, _ | .ioLockFree none, _ => some m

def insideAtBegin (inside : W → Finset T) (t : T) : Request W → W → Finset T
  | .unlock w => Function.update inside w ((inside w).erase t)
  | .init _ | .lock _ | .destroy _ => inside

def insideAtFinish (inside : W → Finset T) (t : T) (entered : Bool) (w : W) : W → Finset T :=
  if entered then Function.update inside w (insert t (inside w)) else inside

/-- `ready` while a call is going on, or when it is done. -/
def setReady (ready : W → Bool) (req : Request W) (done : Bool) : W → Bool :=
  if req.alone then Function.update ready req.wrapper done else ready

def step (kind : W → Kind) (s : State T W L) : Act T W L → Option (State T W L)
  | .begin t req =>
    if (s.running t).isNone ∧ s.MayBegin t req then
      some { s with
        running := Function.update s.running t (some (req, req.code (kind req.wrapper)))
        users := Function.update s.users req.wrapper (insert t (s.users req.wrapper))
        inside := insideAtBegin s.inside t req
        ready := setReady s.ready req false }
    else none
  | .call t ⟨call, r⟩ =>
    match s.running t with
    | some (req, .call call' k) =>
      if h : call = call' then do
        let mem ← s.mem.answer t call r
        return { s with mem, running := Function.update s.running t (some (req, k (h ▸ r))) }
      else none
    | _ => none
  | .finish t =>
    match s.running t with
    | some (req, .ret entered) =>
      some { s with
        running := Function.update s.running t none
        users := Function.update s.users req.wrapper ((s.users req.wrapper).erase t)
        inside := insideAtFinish s.inside t entered req.wrapper
        ready := setReady s.ready req true }
    | _ => none

abbrev Step (kind : W → Kind) (s : State T W L) (a : Act T W L) (s' : State T W L) : Prop := step kind s a = some s'

/-- What a step does, by cases. -/
theorem step_cases {kind : W → Kind} {s s' : State T W L} {a : Act T W L} (h : Step kind s a s') :
    (∃ t req, a = .begin t req ∧ s.running t = none ∧ s.MayBegin t req ∧ s' = { s with
      running := Function.update s.running t (some (req, req.code (kind req.wrapper)))
      users := Function.update s.users req.wrapper (insert t (s.users req.wrapper))
      inside := insideAtBegin s.inside t req
      ready := setReady s.ready req false }) ∨
    (∃ t call r req k mem, a = .call t ⟨call, r⟩ ∧ s.running t = some (req, .call call k) ∧
      s.mem.answer t call r = some mem ∧
      s' = { s with mem, running := Function.update s.running t (some (req, k r)) }) ∨
    (∃ t req entered, a = .finish t ∧ s.running t = some (req, .ret entered) ∧ s' = { s with
      running := Function.update s.running t none
      users := Function.update s.users req.wrapper ((s.users req.wrapper).erase t)
      inside := insideAtFinish s.inside t entered req.wrapper
      ready := setReady s.ready req true }) := by
  cases a with
  | begin t req =>
    simp only [Step, step, Option.isNone_iff_eq_none, Option.ite_none_right_eq_some, Option.some.injEq] at h
    exact .inl ⟨t, req, rfl, h.1.1, h.1.2, h.2.symm⟩
  | call t e =>
    obtain ⟨call, r⟩ := e
    simp only [Step, step] at h
    split at h
    · rename_i req call' k hrun
      split at h
      · rename_i hc
        subst hc
        simp only [Option.bind_eq_bind, Option.pure_def, Option.bind_eq_some_iff, Option.some.injEq] at h
        obtain ⟨mem, hmem, rfl⟩ := h
        exact .inr (.inl ⟨t, call, r, req, k, mem, rfl, hrun, hmem, rfl⟩)
      · cases h
    · cases h
  | finish t =>
    simp only [Step, step] at h
    split at h
    · rename_i req entered hrun
      rw [Option.some.injEq] at h
      exact .inr (.inr ⟨t, req, entered, rfl, hrun, h.symm⟩)
    · cases h

/-! ## All of them -/

/-- What thread `t` sees of wrapper `w`, if `mine` says what was allocated for each wrapper. -/
def Memory.view (m : Memory T W L) (mine : W → Option L) (t : T) (w : W) : View L :=
  ⟨m.lock w, mine w, decide ((mine w).bind m.held = some t)⟩

/-- Each live lock object was allocated for one wrapper. -/
structure Owned (mine : W → Option L) (m : Memory T W L) : Prop where
  live : ∀ l, l ∈ m.live ↔ ∃ w, mine w = some l
  apart : ∀ w w' l, mine w = some l → mine w' = some l → w = w'

/-- The call is made on a live lock object: one that the thread holds, if it unlocks, and one that nobody holds,
if it frees. -/
def Sound (m : Memory T W L) (t : T) : Call W L → Prop
  | .load _ | .store _ _ | .ioLockAlloc => True
  | .ioLockLock p => ∃ l ∈ m.live, p = some l
  | .ioLockUnlock p => ∃ l ∈ m.live, p = some l ∧ m.held l = some t
  | .ioLockFree p => ∃ l ∈ m.live, p = some l ∧ m.held l = none

section Calls
variable {m m' : Memory T W L} {mine : W → Option L} {t : T} {req : Request W} {call : Call W L} {r : call.Resp}

omit [DecidableEq W] [DecidableEq L] in
theorem sound_of_fair (ho : Owned mine m) (hfair : Fair req (m.view mine t req.wrapper) call)
    (halone : req.alone = true → ∀ u, u ≠ t → (m.view mine u req.wrapper).holds = false) : Sound m t call := by
  cases call with
  | load _ | store _ _ | ioLockAlloc => trivial
  | ioLockLock p =>
    obtain ⟨hp, hsome, -⟩ := hfair
    obtain ⟨l, rfl⟩ := Option.isSome_iff_exists.1 hsome
    exact ⟨l, (ho.live l).2 ⟨_, hp.symm⟩, rfl⟩
  | ioLockUnlock p =>
    obtain ⟨hp, hsome, hholds⟩ := hfair
    obtain ⟨l, rfl⟩ := Option.isSome_iff_exists.1 hsome
    have hmine : mine req.wrapper = some l := hp.symm
    refine ⟨l, (ho.live l).2 ⟨_, hmine⟩, rfl, ?_⟩
    simpa [Memory.view, hmine] using hholds
  | ioLockFree p =>
    obtain ⟨hp, hsome, hholds, hreq⟩ := hfair
    obtain ⟨l, rfl⟩ := Option.isSome_iff_exists.1 hsome
    have hmine : mine req.wrapper = some l := hp.symm
    refine ⟨l, (ho.live l).2 ⟨_, hmine⟩, rfl, ?_⟩
    cases hheld : m.held l with
    | none => rfl
    | some u =>
      have hu : (m.view mine u req.wrapper).holds = true := by simp [Memory.view, hmine, hheld]
      by_cases hut : u = t
      · rw [hut, hholds] at hu
        cases hu
      · rw [halone hreq u hut] at hu
        cases hu

/-- What a call on wrapper `w` leaves alone. -/
structure Frame (t : T) (req : Request W) (m : Memory T W L) (mine : W → Option L) (m' : Memory T W L)
    (mine' : W → Option L) : Prop where
  other : ∀ w, w ≠ req.wrapper → mine' w = mine w ∧ m'.lock w = m.lock w
  shared : req.alone = false → mine' req.wrapper = mine req.wrapper ∧ m'.lock req.wrapper = m.lock req.wrapper
  holds : ∀ u w, u ≠ t ∨ w ≠ req.wrapper → (m'.view mine' u w).holds = (m.view mine u w).holds

omit [DecidableEq T] in
/-- A new lock object is its wrapper's. -/
theorem Owned.alloc {w : W} {l : L} {held : Held T L} (ho : Owned mine m) (hl : l ∉ m.live) (hw : mine w = none) :
    Owned (Function.update mine w (some l)) { m with live := insert l m.live, held } where
  live l' := by
    simp only [Finset.mem_insert, ho.live, Function.update_apply]
    constructor
    · rintro (rfl | ⟨w', hw'⟩)
      · exact ⟨w, if_pos rfl⟩
      · refine ⟨w', (if_neg ?_).trans hw'⟩
        rintro rfl
        rw [hw] at hw'
        cases hw'
    · rintro ⟨w', hw'⟩
      split at hw'
      · exact .inl (Option.some.inj hw').symm
      · exact .inr ⟨w', hw'⟩
  apart w₁ w₂ l' h₁ h₂ := by
    have hnew : ∀ w, mine w ≠ some l := fun w hw => hl ((ho.live l).2 ⟨w, hw⟩)
    simp only [Function.update_apply] at h₁ h₂
    split at h₁ <;> split at h₂
    · simp [*]
    · exact absurd (h₂.trans h₁.symm) (hnew w₂)
    · exact absurd (h₁.trans h₂.symm) (hnew w₁)
    · exact ho.apart w₁ w₂ l' h₁ h₂

omit [DecidableEq T] in
/-- A freed one is nobody's. -/
theorem Owned.free {w : W} {l : L} (ho : Owned mine m) (hw : mine w = some l) :
    Owned (Function.update mine w none) { m with live := m.live.erase l } where
  live l' := by
    simp only [Finset.mem_erase, ho.live, Function.update_apply]
    constructor
    · rintro ⟨hne, w', hw'⟩
      refine ⟨w', (if_neg ?_).trans hw'⟩
      rintro rfl
      exact hne (Option.some.inj (hw'.symm.trans hw))
    · rintro ⟨w', hw'⟩
      split at hw'
      · cases hw'
      · rename_i hne
        refine ⟨?_, w', hw'⟩
        rintro rfl
        exact hne (ho.apart _ _ _ hw' hw)
  apart w₁ w₂ l' h₁ h₂ := by
    simp only [Function.update_apply] at h₁ h₂
    split at h₁ <;> split at h₂
    · cases h₁
    · cases h₁
    · cases h₂
    · exact ho.apart w₁ w₂ l' h₁ h₂

omit [DecidableEq W] [DecidableEq L] in
theorem holds_congr {mine' : W → Option L} {u : T} {w : W} (hmine : mine' w = mine w)
    (hheld : ∀ l, mine w = some l → m'.held l = m.held l) :
    (m'.view mine' u w).holds = (m.view mine u w).holds := by
  unfold Memory.view
  rw [hmine]
  cases h : mine w with
  | none => rfl
  | some l => simp only [Option.bind_some, hheld l h]

omit [DecidableEq W] in
/-- Whoever holds the lock object of one wrapper, the others' are held as before. -/
theorem holds_other {w w' : W} {l : L} {h : Option T} {u : T} (ho : Owned mine m) (hw : mine w = some l)
    (hne : w' ≠ w) :
    (({ m with held := Function.update m.held l h } : Memory T W L).view mine u w').holds =
      (m.view mine u w').holds := by
  refine holds_congr rfl fun l' hl' => Function.update_of_ne ?_ _ _
  rintro rfl
  exact hne (ho.apart _ _ _ hl' hw)

/-- A fair call does to the memory what it does to the view of its thread. -/
theorem fair_call (ho : Owned mine m) (hfair : Fair req (m.view mine t req.wrapper) call)
    (halone : req.alone = true → ∀ u, u ≠ t → (m.view mine u req.wrapper).holds = false)
    (hm : m.answer t call r = some m') :
    ∃ mine', Owned mine' m' ∧ (m.view mine t req.wrapper).after call r = some (m'.view mine' t req.wrapper) ∧
      Frame t req m mine m' mine' := by
  cases call with
  | load w =>
    simp only [Memory.answer, Option.ite_none_right_eq_some, Option.some.injEq] at hm
    obtain ⟨hr, rfl⟩ := hm
    obtain rfl : w = req.wrapper := hfair
    exact ⟨mine, ho, if_pos hr, fun _ _ => ⟨rfl, rfl⟩, fun _ => ⟨rfl, rfl⟩, fun _ _ _ => rfl⟩
  | store w l =>
    obtain ⟨rfl, hreq⟩ := hfair
    cases hm
    refine ⟨mine, ⟨ho.live, ho.apart⟩, ?_, fun w hw => ⟨rfl, Function.update_of_ne hw _ _⟩, ?_, fun _ _ _ => rfl⟩
    · simp [View.after, Memory.view]
    · rw [hreq]
      exact fun h => Bool.noConfusion h
  | ioLockAlloc =>
    obtain ⟨hmine, hreq⟩ := hfair
    have hmine : mine req.wrapper = none := hmine
    cases r with
    | none =>
      cases hm
      refine ⟨mine, ho, ?_, fun _ _ => ⟨rfl, rfl⟩, fun _ => ⟨rfl, rfl⟩, fun _ _ _ => rfl⟩
      simp [View.after, Memory.view, hmine]
    | some l =>
      simp only [Memory.answer, Option.ite_none_left_eq_some, Option.some.injEq] at hm
      obtain ⟨hl, rfl⟩ := hm
      refine ⟨Function.update mine req.wrapper (some l), ho.alloc hl hmine, ?_, ?_, ?_, ?_⟩
      · simp [View.after, Memory.view, hmine]
      · exact fun w hw => ⟨Function.update_of_ne hw _ _, rfl⟩
      · rw [hreq]
        exact fun h => Bool.noConfusion h
      · intro u w _
        by_cases hw : w = req.wrapper
        · subst hw
          simp [Memory.view, hmine]
        · refine holds_congr (Function.update_of_ne hw _ _) fun l' hl' => Function.update_of_ne ?_ _ _
          rintro rfl
          exact hl ((ho.live l').2 ⟨w, hl'⟩)
  | ioLockLock p =>
    obtain ⟨hp, hsome, -⟩ := hfair
    obtain ⟨l, rfl⟩ := Option.isSome_iff_exists.1 hsome
    have hmine : mine req.wrapper = some l := hp.symm
    simp only [Memory.answer, ioLockLock, Option.bind_eq_bind, Option.pure_def, Option.bind_eq_some_iff,
      Option.ite_none_right_eq_some, Option.some.injEq] at hm
    obtain ⟨_, ⟨hfree, rfl⟩, rfl⟩ := hm
    refine ⟨mine, ⟨ho.live, ho.apart⟩, ?_, fun _ _ => ⟨rfl, rfl⟩, fun _ => ⟨rfl, rfl⟩, fun u w hne => ?_⟩
    · simp [View.after, Memory.view, hmine]
    · by_cases hw : w = req.wrapper
      · subst hw
        have hu : t ≠ u := fun h => hne.elim (fun hne => hne h.symm) fun hne => hne rfl
        simp [Memory.view, hmine, hfree, hu]
      · exact holds_other ho hmine hw
  | ioLockUnlock p =>
    obtain ⟨hp, hsome, hholds⟩ := hfair
    obtain ⟨l, rfl⟩ := Option.isSome_iff_exists.1 hsome
    have hmine : mine req.wrapper = some l := hp.symm
    have hheld : m.held l = some t := by simpa [Memory.view, hmine] using hholds
    cases hm
    refine ⟨mine, ⟨ho.live, ho.apart⟩, ?_, fun _ _ => ⟨rfl, rfl⟩, fun _ => ⟨rfl, rfl⟩, fun u w hne => ?_⟩
    · simp [View.after, Memory.view, hmine, ioLockUnlock]
    · by_cases hw : w = req.wrapper
      · subst hw
        have hu : t ≠ u := fun h => hne.elim (fun hne => hne h.symm) fun hne => hne rfl
        simp [Memory.view, hmine, hheld, ioLockUnlock, hu]
      · exact holds_other ho hmine hw
  | ioLockFree p =>
    obtain ⟨hp, hsome, hholds, hreq⟩ := hfair
    obtain ⟨l, rfl⟩ := Option.isSome_iff_exists.1 hsome
    have hmine : mine req.wrapper = some l := hp.symm
    cases hm
    refine ⟨Function.update mine req.wrapper none, ho.free hmine, ?_, ?_, ?_, ?_⟩
    · rw [View.after, hholds]
      simp [Memory.view]
    · exact fun w hw => ⟨Function.update_of_ne hw _ _, rfl⟩
    · rw [hreq]
      exact fun h => Bool.noConfusion h
    · intro u w hne
      by_cases hw : w = req.wrapper
      · subst hw
        rw [halone hreq u (hne.resolve_right fun h => h rfl)]
        simp [Memory.view]
      · exact holds_congr (Function.update_of_ne hw _ _) fun _ _ => rfl

end Calls

/-- A wrapper that is ready has its lock object or NULL in it; one that is not
is not in use, and has none unless a call is about to change that. -/
structure Inv (mine : W → Option L) (s : State T W L) : Prop where
  owned : Owned mine s.mem
  users : ∀ t w, t ∈ s.users w ↔ ∃ req code, s.running t = some (req, code) ∧ req.wrapper = w
  spec : ∀ t req code, s.running t = some (req, code) →
    Spec View.after (Fair req) code (s.mem.view mine t req.wrapper) View.Done
  outside : ∀ t w, t ∈ s.users w → t ∉ s.inside w
  alone : ∀ t req code, s.running t = some (req, code) → req.alone = true →
    s.ready req.wrapper = false ∧ s.users req.wrapper = {t}
  shared : ∀ t req code, s.running t = some (req, code) → req.alone = false → s.ready req.wrapper = true
  holds : ∀ t w, t ∉ s.users w → (s.mem.view mine t w).holds = (decide (t ∈ s.inside w) && (mine w).isSome)
  lock : ∀ w, s.ready w = true → s.mem.lock w = mine w
  unused : ∀ w, s.ready w = false → s.inside w = ∅ ∧ (s.users w = ∅ → mine w = none)

section Steps
variable {kind : W → Kind} {s : State T W L} {mine : W → Option L} {t : T} {req : Request W}

omit [DecidableEq T] [DecidableEq W] [DecidableEq L] in
theorem setReady_of_ne {ready : W → Bool} {done : Bool} {w : W} [DecidableEq W] (hw : w ≠ req.wrapper) :
    setReady ready req done w = ready w := by
  unfold setReady
  split
  · exact Function.update_of_ne hw _ _
  · rfl

omit [DecidableEq T] [DecidableEq L] in
theorem setReady_alone {ready : W → Bool} {done : Bool} (h : req.alone = true) :
    setReady ready req done req.wrapper = done := by
  rw [setReady, if_pos h, Function.update_self]

omit [DecidableEq T] [DecidableEq L] in
theorem setReady_shared {ready : W → Bool} {done : Bool} (h : req.alone = false) :
    setReady ready req done = ready := by
  rw [setReady, h]
  rfl

omit [DecidableEq W] in
/-- A thread in no call uses no wrapper. -/
theorem Inv.not_user (hi : Inv mine s) (hrun : s.running t = none) (w : W) : t ∉ s.users w := by
  rw [hi.users]
  rintro ⟨req, code, h, -⟩
  rw [hrun] at h
  cases h

omit [DecidableEq W] in
theorem Inv.ready_of_inside (hi : Inv mine s) {w : W} (hin : t ∈ s.inside w) : s.ready w = true := by
  by_contra hready
  rw [(hi.unused w (Bool.eq_false_iff.2 hready)).1] at hin
  exact Finset.notMem_empty t hin

omit [DecidableEq W] in
/-- A thread outside that is in no call holds nothing. -/
theorem Inv.not_holds (hi : Inv mine s) {w : W} (huser : t ∉ s.users w) (hin : t ∉ s.inside w) :
    (s.mem.view mine t w).holds = false := by
  rw [hi.holds t w huser, decide_eq_false hin, Bool.false_and]

omit [DecidableEq W] in
/-- What the rules of use allow a call to find. -/
theorem Inv.found (hi : Inv mine s) (hrun : s.running t = none) (hreq : s.MayBegin t req) :
    req.Found (s.mem.view mine t req.wrapper) := by
  cases req with
  | init w =>
    obtain ⟨husers, hinside, hready⟩ := hreq
    refine ⟨?_, hi.not_holds (hi.not_user hrun w) (hinside ▸ Finset.notMem_empty t)⟩
    cases h : s.ready w with
    | true => exact (hi.lock w h).symm.trans (hready h)
    | false => exact (hi.unused w h).2 husers
  | lock w => exact ⟨hi.lock w hreq.1, hi.not_holds (hi.not_user hrun w) hreq.2⟩
  | unlock w =>
    have hin : t ∈ s.inside w := hreq
    refine ⟨hi.lock w (hi.ready_of_inside hin), (hi.holds t w (hi.not_user hrun w)).trans ?_⟩
    rw [decide_eq_true hin, Bool.true_and]
    rfl
  | destroy w =>
    obtain ⟨-, hinside, hready⟩ := hreq
    exact ⟨hi.lock w hready, hi.not_holds (hi.not_user hrun w) (hinside ▸ Finset.notMem_empty t)⟩

omit [DecidableEq W] in
/-- A call that wants the wrapper for itself finds it out of use, and every other call finds it ready. -/
theorem Inv.mayBegin (hi : Inv mine s) (hreq : s.MayBegin t req) :
    (req.alone = true → s.users req.wrapper = ∅ ∧ s.inside req.wrapper = ∅) ∧
      (req.alone = false → s.ready req.wrapper = true) := by
  cases req with
  | init w => exact ⟨fun _ => ⟨hreq.1, hreq.2.1⟩, fun h => by cases h⟩
  | lock w => exact ⟨fun h => (by cases h), fun _ => hreq.1⟩
  | unlock w => exact ⟨fun h => (by cases h), fun _ => hi.ready_of_inside hreq⟩
  | destroy w => exact ⟨fun _ => ⟨hreq.1, hreq.2.1⟩, fun h => by cases h⟩

omit [DecidableEq W] in
/-- Who has a wrapper for itself is its only user. -/
theorem Inv.only_user (hi : Inv mine s) {u : T} {req' : Request W} {code code' : Code W L Bool}
    (hrun : s.running t = some (req, code)) (hrun' : s.running u = some (req', code'))
    (hw : req'.wrapper = req.wrapper) (halone : req.alone = true) : u = t := by
  have hu : u ∈ s.users req.wrapper := (hi.users u _).2 ⟨req', code', hrun', hw⟩
  rw [(hi.alone t req code hrun halone).2] at hu
  exact Finset.mem_singleton.1 hu

omit [DecidableEq L] in
theorem mem_update_insert {f : W → Finset T} {u : T} {w w' : W} :
    u ∈ Function.update f w (insert t (f w)) w' ↔ u ∈ f w' ∨ u = t ∧ w' = w := by
  by_cases hw : w' = w
  · subst hw
    simp [or_comm]
  · simp [hw]

theorem mem_update_erase {f : W → Finset T} {u : T} {w w' : W} :
    u ∈ Function.update f w ((f w).erase t) w' ↔ u ∈ f w' ∧ ¬ (u = t ∧ w' = w) := by
  by_cases hw : w' = w
  · subst hw
    simp [and_comm]
  · simp [hw]

theorem mem_insideAtBegin {inside : W → Finset T} {u : T} {w : W} (hne : u ≠ t ∨ w ≠ req.wrapper) :
    u ∈ insideAtBegin inside t req w ↔ u ∈ inside w := by
  cases req with
  | unlock w' =>
    exact mem_update_erase.trans (and_iff_left (not_and_or.2 hne))
  | _ => exact Iff.rfl

theorem mem_insideAtFinish {inside : W → Finset T} {entered : Bool} {u : T} {w w' : W} :
    u ∈ insideAtFinish inside t entered w w' ↔ u ∈ inside w' ∨ entered = true ∧ u = t ∧ w' = w := by
  cases entered with
  | false => simp [insideAtFinish]
  | true => simpa [insideAtFinish] using mem_update_insert

omit [DecidableEq L] in
/-- The thread is out of its wrapper when its call has begun. -/
theorem not_mem_insideAtBegin (hreq : s.MayBegin t req) : t ∉ insideAtBegin s.inside t req req.wrapper := by
  cases req with
  | unlock w => exact fun h => (mem_update_erase.1 h).2 ⟨rfl, rfl⟩
  | lock w => exact hreq.2
  | init w | destroy w =>
    obtain ⟨-, hinside, -⟩ := hreq
    show t ∉ s.inside w
    rw [hinside]
    exact Finset.notMem_empty t

omit [DecidableEq W] [DecidableEq L] in
theorem update_running {code code' : Code W L Bool} {req' : Request W} {u : T}
    (h : Function.update s.running t (some (req, code)) u = some (req', code')) :
    u = t ∧ req' = req ∧ code' = code ∨ u ≠ t ∧ s.running u = some (req', code') := by
  by_cases hu : u = t
  · subst hu
    rw [Function.update_self, Option.some.injEq, Prod.mk.injEq] at h
    exact .inl ⟨rfl, h.1.symm, h.2.symm⟩
  · exact .inr ⟨hu, by rwa [Function.update_of_ne hu] at h⟩

omit [DecidableEq W] in
/-- A call that has begun on the wrapper before does not want it for itself, nor does one that may begin. -/
theorem Inv.both_share (hi : Inv mine s) (hreq : s.MayBegin t req) {u : T} {req' : Request W} {code : Code W L Bool}
    (hrun : s.running u = some (req', code)) (hw : req'.wrapper = req.wrapper) :
    req.alone = false ∧ req'.alone = false := by
  obtain ⟨halone, hshared⟩ := hi.mayBegin hreq
  have hu : u ∈ s.users req.wrapper := (hi.users u _).2 ⟨req', code, hrun, hw⟩
  have hfalse : req.alone = false := by
    by_contra h
    rw [(halone (Bool.not_eq_false _ ▸ h)).1] at hu
    exact Finset.notMem_empty u hu
  refine ⟨hfalse, ?_⟩
  by_contra h
  have hready := (hi.alone u req' code hrun (Bool.not_eq_false _ ▸ h)).1
  rw [hw, hshared hfalse] at hready
  cases hready

/-- A wrapper that is not ready once a call has begun has nobody inside. -/
theorem Inv.inside_begin (hi : Inv mine s) (hreq : s.MayBegin t req) {w : W} (hw : setReady s.ready req false w = false) :
    insideAtBegin s.inside t req w = ∅ := by
  refine Finset.eq_empty_of_forall_notMem fun u hu => ?_
  by_cases h : w = req.wrapper
  · subst h
    obtain ⟨halone, hshared⟩ := hi.mayBegin hreq
    cases hreq' : req.alone with
    | true =>
      by_cases hut : u = t
      · subst hut
        exact not_mem_insideAtBegin hreq hu
      · have hin := (mem_insideAtBegin (.inl hut)).1 hu
        rw [(halone hreq').2] at hin
        exact Finset.notMem_empty u hin
    | false =>
      have hready := (congrFun (setReady_shared hreq') req.wrapper).symm.trans hw
      rw [hshared hreq'] at hready
      cases hready
  · have hin := (mem_insideAtBegin (.inr h)).1 hu
    rw [(hi.unused w ((setReady_of_ne h).symm.trans hw)).1] at hin
    exact Finset.notMem_empty u hin

/-- A call that begins. -/
theorem inv_begin (hi : Inv mine s) (hrun : s.running t = none) (hreq : s.MayBegin t req) :
    Inv mine { s with
      running := Function.update s.running t (some (req, req.code (kind req.wrapper)))
      users := Function.update s.users req.wrapper (insert t (s.users req.wrapper))
      inside := insideAtBegin s.inside t req
      ready := setReady s.ready req false } := by
  obtain ⟨halone, hshared⟩ := hi.mayBegin hreq
  refine ⟨hi.owned, fun u w => ?_, ?_, fun u w hu => ?_, ?_, ?_, fun u w hu => ?_, fun w hw => ?_, fun w hw => ?_⟩
  · rw [mem_update_insert, hi.users]
    constructor
    · rintro (⟨req', code, h, hw⟩ | ⟨rfl, rfl⟩)
      · refine ⟨req', code, (Function.update_of_ne ?_ _ _).trans h, hw⟩
        rintro rfl
        rw [hrun] at h
        cases h
      · exact ⟨req, _, Function.update_self _ _ _, rfl⟩
    · rintro ⟨req', code, h, hw⟩
      rcases update_running h with ⟨rfl, rfl, -⟩ | ⟨-, h⟩
      · exact .inr ⟨rfl, hw.symm⟩
      · exact .inl ⟨req', code, h, hw⟩
  · intro u req' code h
    rcases update_running h with ⟨rfl, rfl, rfl⟩ | ⟨-, h⟩
    · exact code_spec _ (hi.found hrun hreq)
    · exact hi.spec u req' code h
  · by_cases h : u = t ∧ w = req.wrapper
    · obtain ⟨rfl, rfl⟩ := h
      exact not_mem_insideAtBegin hreq
    · rw [mem_insideAtBegin (not_and_or.1 h)]
      exact hi.outside u w ((mem_update_insert.1 hu).resolve_right h)
  · intro u req' code h hreq'
    rcases update_running h with ⟨rfl, rfl, -⟩ | ⟨-, h⟩
    · refine ⟨setReady_alone hreq', (Function.update_self _ _ _).trans ?_⟩
      rw [(halone hreq').1]
      rfl
    · have hw : req'.wrapper ≠ req.wrapper := fun hw => by simp [(hi.both_share hreq h hw).2] at hreq'
      obtain ⟨hready, husers⟩ := hi.alone u req' code h hreq'
      exact ⟨(setReady_of_ne hw).trans hready, (Function.update_of_ne hw _ _).trans husers⟩
  · intro u req' code h hreq'
    rcases update_running h with ⟨rfl, rfl, -⟩ | ⟨-, h⟩
    · exact (congrFun (setReady_shared hreq') _).trans (hshared hreq')
    · refine Eq.trans ?_ (hi.shared u req' code h hreq')
      by_cases hw : req'.wrapper = req.wrapper
      · exact congrFun (setReady_shared (hi.both_share hreq h hw).1) _
      · exact setReady_of_ne hw
  · have hu' := not_or.1 (mt mem_update_insert.2 hu)
    rw [hi.holds u w hu'.1]
    congr 1
    exact decide_eq_decide.2 (mem_insideAtBegin (not_and_or.1 hu'.2)).symm
  · by_cases h : w = req.wrapper
    · subst h
      cases hreq' : req.alone with
      | true => exact absurd ((setReady_alone hreq').symm.trans hw) Bool.false_ne_true
      | false => exact hi.lock _ (hshared hreq')
    · exact hi.lock w ((setReady_of_ne h).symm.trans hw)
  · refine ⟨hi.inside_begin hreq hw, fun husers => ?_⟩
    have hmem : ∀ u, u ∉ Function.update s.users req.wrapper (insert t (s.users req.wrapper)) w := fun u hu => by
      have hempty : Function.update s.users req.wrapper (insert t (s.users req.wrapper)) w = ∅ := husers
      rw [hempty] at hu
      exact Finset.notMem_empty u hu
    have hne : w ≠ req.wrapper := fun h => hmem t (mem_update_insert.2 (.inr ⟨rfl, h⟩))
    exact (hi.unused w ((setReady_of_ne hne).symm.trans hw)).2 ((Function.update_of_ne hne _ _).symm.trans husers)

/-- Another call on the wrapper shares it, so it sees what it saw before. -/
theorem Inv.same_view {mem : Memory T W L} {mine' : W → Option L} {code code' : Code W L Bool} {u : T} {req' : Request W}
    (hi : Inv mine s) (hframe : Frame t req s.mem mine mem mine') (hrun : s.running t = some (req, code)) (hu : u ≠ t)
    (hrun' : s.running u = some (req', code')) : mem.view mine' u req'.wrapper = s.mem.view mine u req'.wrapper := by
  have hholds := hframe.holds u req'.wrapper (.inl hu)
  have hlock : mine' req'.wrapper = mine req'.wrapper ∧ mem.lock req'.wrapper = s.mem.lock req'.wrapper := by
    by_cases hw : req'.wrapper = req.wrapper
    · rw [hw]
      refine hframe.shared ?_
      by_contra hreq
      exact hu (hi.only_user hrun hrun' hw (Bool.not_eq_false _ ▸ hreq))
    · exact hframe.other _ hw
  unfold Memory.view at hholds ⊢
  rw [hlock.1] at hholds ⊢
  rw [hlock.2, View.mk.injEq]
  exact ⟨rfl, rfl, hholds⟩

/-- A call made by a thread. -/
theorem inv_call {call : Call W L} {r : call.Resp} {k : call.Resp → Code W L Bool} {mem : Memory T W L}
    (hi : Inv mine s) (hrun : s.running t = some (req, .call call k)) (hmem : s.mem.answer t call r = some mem) :
    Sound s.mem t call ∧
      ∃ mine', Inv mine' { s with mem, running := Function.update s.running t (some (req, k r)) } := by
  have hspec := hi.spec t req _ hrun
  have hfair := hspec.call_ok View.after_total
  have huser : t ∈ s.users req.wrapper := (hi.users t _).2 ⟨req, _, hrun, rfl⟩
  have hnobody : req.alone = true → ∀ u, u ∉ s.inside req.wrapper := fun halone u hu => by
    rw [(hi.unused _ (hi.alone t req _ hrun halone).1).1] at hu
    exact Finset.notMem_empty u hu
  have halone : req.alone = true → ∀ u, u ≠ t → (s.mem.view mine u req.wrapper).holds = false := by
    intro halone u hu
    refine hi.not_holds ?_ (hnobody halone u)
    rw [(hi.alone t req _ hrun halone).2]
    simpa using hu
  obtain ⟨mine', howned, hview, hframe⟩ := fair_call hi.owned hfair halone hmem
  refine ⟨sound_of_fair hi.owned hfair halone, mine', howned, fun u w => ?_, ?_, hi.outside, ?_, ?_, fun u w hu => ?_,
    fun w hw => ?_, fun w hw => ?_⟩
  · rw [hi.users]
    constructor
    · rintro ⟨req', code, h, hw⟩
      by_cases hu : u = t
      · subst hu
        rw [hrun, Option.some.injEq, Prod.mk.injEq] at h
        exact ⟨req, _, Function.update_self _ _ _, h.1 ▸ hw⟩
      · exact ⟨req', code, (Function.update_of_ne hu _ _).trans h, hw⟩
    · rintro ⟨req', code, h, hw⟩
      rcases update_running h with ⟨rfl, rfl, -⟩ | ⟨-, h⟩
      · exact ⟨req', _, hrun, hw⟩
      · exact ⟨req', code, h, hw⟩
  · intro u req' code h
    rcases update_running h with ⟨rfl, rfl, rfl⟩ | ⟨hu, h⟩
    · exact hspec.call_rest hview
    · rw [hi.same_view hframe hrun hu h]
      exact hi.spec u req' code h
  · intro u req' code h hreq'
    rcases update_running h with ⟨rfl, rfl, -⟩ | ⟨-, h⟩
    · exact hi.alone _ _ _ hrun hreq'
    · exact hi.alone _ _ _ h hreq'
  · intro u req' code h hreq'
    rcases update_running h with ⟨rfl, rfl, -⟩ | ⟨-, h⟩
    · exact hi.shared _ _ _ hrun hreq'
    · exact hi.shared _ _ _ h hreq'
  · have hne : u ≠ t ∨ w ≠ req.wrapper := by
      by_contra hne
      obtain ⟨rfl, rfl⟩ : u = t ∧ w = req.wrapper := by simpa using hne
      exact hu huser
    rw [hframe.holds u w hne, hi.holds u w hu]
    by_cases hw : w = req.wrapper
    · subst hw
      cases hreq : req.alone with
      | true => rw [decide_eq_false (hnobody hreq u), Bool.false_and, Bool.false_and]
      | false => rw [(hframe.shared hreq).1]
    · rw [(hframe.other w hw).1]
  · by_cases h : w = req.wrapper
    · subst h
      obtain ⟨hmine, hlock⟩ := hframe.shared (by
        by_contra hreq
        have hready : s.ready req.wrapper = true := hw
        rw [(hi.alone t req _ hrun (Bool.not_eq_false _ ▸ hreq)).1] at hready
        cases hready)
      exact hlock.trans ((hi.lock _ hw).trans hmine.symm)
    · obtain ⟨hmine, hlock⟩ := hframe.other w h
      exact hlock.trans ((hi.lock w hw).trans hmine.symm)
  · obtain ⟨hinside, hmine⟩ := hi.unused w hw
    refine ⟨hinside, fun husers => ?_⟩
    have hne : w ≠ req.wrapper := by
      rintro rfl
      have hempty : s.users req.wrapper = ∅ := husers
      rw [hempty] at huser
      exact Finset.notMem_empty t huser
    rw [(hframe.other w hne).1]
    exact hmine husers

/-- A call that ends. -/
theorem inv_finish {entered : Bool} (hi : Inv mine s) (hrun : s.running t = some (req, .ret entered)) :
    Inv mine { s with
      running := Function.update s.running t none
      users := Function.update s.users req.wrapper ((s.users req.wrapper).erase t)
      inside := insideAtFinish s.inside t entered req.wrapper
      ready := setReady s.ready req true } := by
  obtain ⟨hlock, hholds⟩ := (hi.spec t req _ hrun).ret
  have huser : t ∈ s.users req.wrapper := (hi.users t _).2 ⟨req, _, hrun, rfl⟩
  have hready : setReady s.ready req true req.wrapper = true := by
    cases hreq : req.alone with
    | true => exact setReady_alone hreq
    | false => exact (congrFun (setReady_shared hreq) _).trans (hi.shared t req _ hrun hreq)
  have hrunning : ∀ {u req' code}, Function.update s.running t none u = some (req', code) →
      u ≠ t ∧ s.running u = some (req', code) := by
    intro u req' code h
    by_cases hu : u = t
    · subst hu
      rw [Function.update_self] at h
      cases h
    · exact ⟨hu, by rwa [Function.update_of_ne hu] at h⟩
  refine ⟨hi.owned, fun u w => ?_, fun u req' code h => hi.spec u req' code (hrunning h).2, fun u w hu => ?_, ?_, ?_,
    fun u w hu => ?_, fun w hw => ?_, fun w hw => ?_⟩
  · rw [mem_update_erase, hi.users]
    constructor
    · rintro ⟨⟨req', code, h, hw⟩, hne⟩
      refine ⟨req', code, (Function.update_of_ne ?_ _ _).trans h, hw⟩
      rintro rfl
      rw [hrun, Option.some.injEq, Prod.mk.injEq] at h
      exact hne ⟨rfl, h.1 ▸ hw.symm⟩
    · rintro ⟨req', code, h, hw⟩
      obtain ⟨hu, h⟩ := hrunning h
      exact ⟨⟨req', code, h, hw⟩, fun h => hu h.1⟩
  · obtain ⟨hu, hne⟩ := mem_update_erase.1 hu
    rw [mem_insideAtFinish]
    exact fun h => h.elim (hi.outside u w hu) fun h => hne h.2
  · intro u req' code h hreq'
    obtain ⟨hu, h⟩ := hrunning h
    have hw : req'.wrapper ≠ req.wrapper := fun hw => hu (hi.only_user h hrun hw.symm hreq').symm
    obtain ⟨hready, husers⟩ := hi.alone u req' code h hreq'
    exact ⟨(setReady_of_ne hw).trans hready, (Function.update_of_ne hw _ _).trans husers⟩
  · intro u req' code h hreq'
    by_cases hw : req'.wrapper = req.wrapper
    · exact hw ▸ hready
    · exact (setReady_of_ne hw).trans (hi.shared u req' code (hrunning h).2 hreq')
  · by_cases h : u = t ∧ w = req.wrapper
    · obtain ⟨rfl, rfl⟩ := h
      refine hholds.trans ?_
      have hin : u ∈ insideAtFinish s.inside u entered req.wrapper req.wrapper ↔ entered = true := by
        rw [mem_insideAtFinish, or_iff_right (hi.outside u _ huser)]
        exact and_iff_left ⟨rfl, rfl⟩
      have hdecide : decide (u ∈ insideAtFinish s.inside u entered req.wrapper req.wrapper) = entered := by
        rw [Bool.eq_iff_iff, decide_eq_true_iff]
        exact hin
      exact congrArg (· && (mine req.wrapper).isSome) hdecide.symm
    · have hu' : u ∉ s.users w := fun hu' => hu (mem_update_erase.2 ⟨hu', h⟩)
      refine (hi.holds u w hu').trans ?_
      have hin : u ∈ insideAtFinish s.inside t entered req.wrapper w ↔ u ∈ s.inside w := by
        rw [mem_insideAtFinish, or_iff_left fun hin => h hin.2]
      rw [decide_eq_decide.2 hin]
  · by_cases h : w = req.wrapper
    · exact h ▸ hlock
    · exact hi.lock w ((setReady_of_ne h).symm.trans hw)
  · have hne : w ≠ req.wrapper := by
      rintro rfl
      exact absurd (hw.symm.trans hready) Bool.false_ne_true
    obtain ⟨hinside, husers⟩ := hi.unused w ((setReady_of_ne hne).symm.trans hw)
    refine ⟨Finset.eq_empty_of_forall_notMem fun u hu => ?_, fun hu => ?_⟩
    · rw [mem_insideAtFinish, or_iff_left fun hin => hne hin.2.2, hinside] at hu
      exact Finset.notMem_empty u hu
    · exact husers ((Function.update_of_ne hne _ _).symm.trans hu)

end Steps

omit [DecidableEq W] in
theorem inv_init (lock : W → Option L) (held : Held T L) : Inv (fun _ => none) (init lock held : State T W L) where
  owned := ⟨fun l => by simp [init], fun _ _ _ h => by cases h⟩
  users t w := by simp [init]
  spec _ _ _ h := by cases h
  outside t w h := by simp [init] at h
  alone _ _ _ h := by cases h
  shared _ _ _ h := by cases h
  holds t w _ := by simp [init, Memory.view]
  lock w h := by cases h
  unused w _ := ⟨rfl, fun _ => rfl⟩

/-- The calls of a step are sound. -/
def SoundStep (x : Tr (State T W L) (Act T W L)) : Prop :=
  match x.act with
  | .call t ⟨call, _⟩ => Sound x.pre.mem t call
  | .begin _ _ | .finish _ => True

theorem inv_step {kind : W → Kind} {s s' : State T W L} {a : Act T W L} {mine : W → Option L} (hi : Inv mine s)
    (h : Step kind s a s') : SoundStep ⟨s, a, s'⟩ ∧ ∃ mine', Inv mine' s' := by
  rcases step_cases h with ⟨t, req, rfl, hrun, hreq, rfl⟩ | ⟨t, call, r, req, k, mem, rfl, hrun, hmem, rfl⟩ |
    ⟨t, req, entered, rfl, hrun, rfl⟩
  · exact ⟨trivial, mine, inv_begin hi hrun hreq⟩
  · exact inv_call hi hrun hmem
  · exact ⟨trivial, mine, inv_finish hi hrun⟩

/-- As long as wrappers are initialised and destroyed only while they are out of
use, whatever `IOLockAlloc` answers: every lock object that is locked, unlocked
or freed is live, it is freed only while nobody holds it and unlocked only by who
does; with a lock object a wrapper lets one thread in at a time; and when no call
is going on, the live lock objects are the wrappers' own, one each. -/
theorem lock_objects_live {kind : W → Kind} {lock : W → Option L} {held : Held T L}
    {tr : List (Tr (State T W L) (Act T W L))} {s : State T W L} (hr : Run (Step kind) (init lock held) tr s) :
    (∀ x ∈ tr, SoundStep x) ∧
      (∀ w t u, s.mem.lock w ≠ none → t ∈ s.inside w → u ∈ s.inside w → t = u) ∧
      ((∀ w, s.users w = ∅) → (∀ l, l ∈ s.mem.live ↔ ∃ w, s.ready w = true ∧ s.mem.lock w = some l) ∧
        ∀ w w' l, s.ready w = true → s.ready w' = true → s.mem.lock w = some l → s.mem.lock w' = some l → w = w') := by
  obtain ⟨⟨mine, hi⟩, ht⟩ := hr.inv (fun s => ∃ mine, Inv mine s) ⟨_, inv_init lock held⟩
    fun _ _ _ ⟨_, hi⟩ hst => (inv_step hi hst).2
  refine ⟨fun x hx => ?_, fun w t u hlock ht hu => ?_, fun hquiet => ⟨fun l => ?_, fun w w' l hw hw' hl hl' => ?_⟩⟩
  · obtain ⟨⟨mine, hi⟩, hst, -⟩ := ht x hx
    exact (inv_step hi hst).1
  · -- Each of them holds the lock object.
    have hready := hi.ready_of_inside ht
    have hheld : ∀ {t}, t ∈ s.inside w → (mine w).bind s.mem.held = some t := by
      intro t ht
      have huser : t ∉ s.users w := fun h => hi.outside t w h ht
      have hholds := hi.holds t w huser
      rw [decide_eq_true ht, Bool.true_and, ← hi.lock w hready, Option.isSome_iff_ne_none.2 hlock] at hholds
      exact of_decide_eq_true hholds
    exact Option.some.inj ((hheld ht).symm.trans (hheld hu))
  · rw [hi.owned.live]
    constructor
    · rintro ⟨w, hw⟩
      have hready : s.ready w = true := by
        by_contra h
        rw [(hi.unused w (Bool.eq_false_iff.2 h)).2 (hquiet w)] at hw
        cases hw
      exact ⟨w, hready, (hi.lock w hready).trans hw⟩
    · rintro ⟨w, hready, hw⟩
      exact ⟨w, (hi.lock w hready).symm.trans hw⟩
  · rw [hi.lock w hw] at hl
    rw [hi.lock w' hw'] at hl'
    exact hi.owned.apart w w' l hl hl'

/-- A mutex is used and destroyed, and an `rm_lock` gets the same address. -/
def reuse : List (Act Bool Bool ℕ) :=
  [.begin false (.init false), .call false ⟨.ioLockAlloc, some 8⟩, .call false ⟨.store false (some 8), ()⟩,
    .finish false, .begin true (.lock false), .call true ⟨.load false, some 8⟩, .call true ⟨.load false, some 8⟩,
    .call true ⟨.ioLockLock (some 8), ()⟩, .finish true, .begin true (.unlock false),
    .call true ⟨.load false, some 8⟩, .call true ⟨.load false, some 8⟩, .call true ⟨.ioLockUnlock (some 8), ()⟩,
    .finish true, .begin false (.destroy false), .call false ⟨.load false, some 8⟩,
    .call false ⟨.load false, some 8⟩, .call false ⟨.ioLockFree (some 8), ()⟩, .call false ⟨.store false none, ()⟩,
    .finish false, .begin true (.init true), .call true ⟨.ioLockAlloc, some 8⟩,
    .call true ⟨.store true (some 8), ()⟩, .call true ⟨.load true, some 8⟩, .finish true,
    .begin false (.lock true), .call false ⟨.load true, some 8⟩, .call false ⟨.load true, some 8⟩,
    .call false ⟨.ioLockLock (some 8), ()⟩, .finish false]

theorem lock_objects_live_reused : ∃ (tr : List (Tr (State Bool Bool ℕ) (Act Bool Bool ℕ))) (s : State Bool Bool ℕ),
    Run (Step fun w => if w then .rmLock else .mutex) (init (fun _ => some 7) fun _ => none) tr s ∧
      tr.map (·.act) = reuse ∧ (∀ x ∈ tr, SoundStep x) ∧ s.inside true = {false} := by
  obtain ⟨tr, s, hex, hin⟩ : ∃ tr s, exec (step fun w => if w then .rmLock else .mutex)
      (init (fun _ => some 7) fun _ => none) reuse = some (tr, s) ∧ s.inside true = {false} := ⟨_, _, rfl, rfl⟩
  obtain ⟨hr, hacts⟩ := run_of_exec _ _ _ hex
  exact ⟨tr, s, hr, hacts, (lock_objects_live hr).1, hin⟩

end PortingKit.Locks.Objects
