import PortingKit.Lib.Prog
import PortingKit.Core.Locks
/-!
# The wrappers as code

The wrappers of `Core/Locks.lean` with all their functions, as code that makes
its calls one by one, and what one call does. `W` names the wrappers and `L` the
lock objects.
-/
open PortingKit.Lib
open PortingKit.Lib.Prog (perform perform_bind call_bind ret_bind Spec)

namespace PortingKit.Locks.Objects

inductive Call (W L : Type) where
  /-- Reads `lock->lock`. -/
  | load (w : W)
  /-- Writes it. -/
  | store (w : W) (lock : Option L)
  /-- `IOLockAlloc`, or `IOSimpleLockAlloc`; likewise the others. -/
  | ioLockAlloc
  | ioLockLock (lock : Option L)
  | ioLockUnlock (lock : Option L)
  | ioLockFree (lock : Option L)
  deriving DecidableEq

variable {T W L : Type}

/-- What a call is answered with. -/
abbrev Call.Resp : Call W L → Type
  | .load _ | .ioLockAlloc => Option L
  | .store _ _ | .ioLockLock _ | .ioLockUnlock _ | .ioLockFree _ => Unit

/-- Code of the wrappers. -/
abbrev Code (W L : Type) := Prog (@Call.Resp W L)

/-- `if (lock && lock->lock) { ... }`, and whether the body ran. -/
def ifLock (lock : Option W) (body : W → Code W L Unit) : Code W L Bool :=
  match lock with
  | none => return false
  | some w => do
    let l ← perform (Call.load w)
    if l.isNone then return false
    else do
      body w
      return true

/-- `IOLockLock(lock->lock);` -/
def lockObject (w : W) : Code W L Unit := do
  let l ← perform (Call.load w)
  perform (Call.ioLockLock l)

/-- `IOLockUnlock(lock->lock);` -/
def unlockObject (w : W) : Code W L Unit := do
  let l ← perform (Call.load w)
  perform (Call.ioLockUnlock l)

/-- `IOLockFree(lock->lock); lock->lock = NULL;` -/
def freeObject (w : W) : Code W L Unit := do
  let l ← perform (Call.load w)
  let _ ← perform (Call.ioLockFree l)
  perform (Call.store w none)

/-- `lock->lock = IOLockAlloc();` -/
def allocObject (w : W) : Code W L Unit := do
  let l ← perform Call.ioLockAlloc
  perform (Call.store w l)

/-! ## linux/mutex.h -/

def mutexInit (lock : W) : Code W L Unit := allocObject lock
def mutexLock (lock : Option W) : Code W L Unit := do let _ ← ifLock lock lockObject
def mutexUnlock (lock : Option W) : Code W L Unit := do let _ ← ifLock lock unlockObject
def mutexDestroy (lock : Option W) : Code W L Unit := do let _ ← ifLock lock freeObject

/-! ## linux/spinlock.h

The calls are those of `IOSimpleLock`. -/

def spinLockInit (sl : W) : Code W L Unit := allocObject sl
def spinLock (sl : Option W) : Code W L Unit := do let _ ← ifLock sl lockObject
def spinUnlock (sl : Option W) : Code W L Unit := do let _ ← ifLock sl unlockObject
def spinLockDestroy (sl : Option W) : Code W L Unit := do let _ ← ifLock sl freeObject

/-! ## core/locks.h -/

def rmGpuLockInit (pLock : Option W) (_type : RmLockType) : Code W L NvStatus :=
  match pLock with
  | none => return .errInvalidArgument
  | some w => do
    allocObject w
    let l ← perform (Call.load w)
    return if l.isSome then .ok else .errNoMemory

def rmGpuLockDestroy (pLock : Option W) : Code W L Unit := do let _ ← ifLock pLock freeObject

def rmGpuLockAcquire (pLock : Option W) : Code W L NvStatus := do
  let locked ← ifLock pLock lockObject
  return if locked then .ok else .errInvalidState

def rmGpuLockRelease (pLock : Option W) : Code W L Unit := do let _ ← ifLock pLock unlockObject

/-! ## Requests -/

inductive Request (W : Type) where
  | init (w : W)
  | lock (w : W)
  | unlock (w : W)
  | destroy (w : W)

def Request.wrapper : Request W → W
  | .init w | .lock w | .unlock w | .destroy w => w

/-- Whether the call wants the wrapper for itself. -/
def Request.alone : Request W → Bool
  | .init _ | .destroy _ => true
  | .lock _ | .unlock _ => false

/-- The code of a call, which says whether it lets its caller in. -/
def Request.code (kind : Kind) : Request W → Code W L Bool
  | .init w =>
    match kind with
    | .mutex => do mutexInit w; return false
    | .spinlock => do spinLockInit w; return false
    | .rmLock => do let _ ← rmGpuLockInit (some w) .mutex; return false
  | .lock w =>
    match kind with
    | .mutex => do mutexLock (some w); return true
    | .spinlock => do spinLock (some w); return true
    | .rmLock => do let status ← rmGpuLockAcquire (some w); return status = .ok
  | .unlock w =>
    match kind with
    | .mutex => do mutexUnlock (some w); return false
    | .spinlock => do spinUnlock (some w); return false
    | .rmLock => do rmGpuLockRelease (some w); return false
  | .destroy w =>
    match kind with
    | .mutex => do mutexDestroy (some w); return false
    | .spinlock => do spinLockDestroy (some w); return false
    | .rmLock => do rmGpuLockDestroy (some w); return false

/-! ## One call

What a thread sees of its wrapper. Nobody else changes it during the call. -/

structure View (L : Type) where
  lock : Option L
  /-- The live lock object that was allocated for the wrapper. -/
  mine : Option L
  /-- The thread holds it. -/
  holds : Bool

variable [DecidableEq L]

def View.after (v : View L) : (c : Call W L) → c.Resp → Option (View L)
  | .load _, r => if r = v.lock then some v else none
  | .store _ l, _ => some { v with lock := l }
  | .ioLockAlloc, r => some { v with mine := r }
  | .ioLockLock _, _ => some { v with holds := true }
  | .ioLockUnlock _, _ => some { v with holds := false }
  | .ioLockFree _, _ => some { v with mine := none }

/-- The calls are about the wrapper and its live lock object, and only a call
that has the wrapper for itself changes which one that is. -/
def Fair (req : Request W) (v : View L) : Call W L → Prop
  | .load w => w = req.wrapper
  | .store w _ => w = req.wrapper ∧ req.alone = true
  | .ioLockAlloc => v.mine = none ∧ req.alone = true
  | .ioLockLock p => p = v.mine ∧ p.isSome = true ∧ v.holds = false
  | .ioLockUnlock p => p = v.mine ∧ p.isSome = true ∧ v.holds = true
  | .ioLockFree p => p = v.mine ∧ p.isSome = true ∧ v.holds = false ∧ req.alone = true

/-- What a call leaves behind: the member is the live lock object or NULL, and
the thread holds it if it was let in. -/
def View.Done (entered : Bool) (v : View L) : Prop := v.lock = v.mine ∧ v.holds = (entered && v.mine.isSome)

/-- What a call finds. -/
def Request.Found (v : View L) : Request W → Prop
  | .init _ => v.mine = none ∧ v.holds = false
  | .lock _ | .destroy _ => v.lock = v.mine ∧ v.holds = false
  | .unlock _ => v.lock = v.mine ∧ v.holds = v.mine.isSome

theorem View.after_total (v : View L) (c : Call W L) : ∃ r v', v.after c r = some v' := by
  cases c with
  | load _ => exact ⟨v.lock, v, if_pos rfl⟩
  | store _ _ => exact ⟨(), _, rfl⟩
  | ioLockAlloc => exact ⟨none, _, rfl⟩
  | ioLockLock _ => exact ⟨(), _, rfl⟩
  | ioLockUnlock _ => exact ⟨(), _, rfl⟩
  | ioLockFree _ => exact ⟨(), _, rfl⟩

section Specs
variable {req : Request W} {v : View L} {w : W}

theorem allocObject_spec (hw : w = req.wrapper) (halone : req.alone = true) (hmine : v.mine = none)
    (hholds : v.holds = false) :
    Spec View.after (Fair req) (allocObject w) v fun _ v' => v'.lock = v'.mine ∧ v'.holds = false := by
  unfold allocObject
  simp only [perform_bind]
  apply Spec.of_call ⟨hmine, halone⟩
  rintro l _ ⟨⟩
  apply Spec.of_call ⟨hw, halone⟩
  rintro _ _ ⟨⟩
  exact Spec.of_ret ⟨rfl, hholds⟩

/-- Reading the member gives what it is. -/
theorem load_spec {α : Type} {k : Option L → Code W L α} {Q : α → View L → Prop} (hw : w = req.wrapper)
    (hk : Spec View.after (Fair req) (k v.lock) v Q) : Spec View.after (Fair req) (.call (.load w) k) v Q := by
  refine Spec.of_call (show Fair req v (.load w) from hw) ?_
  intro l v' h
  simp only [View.after, Option.ite_none_right_eq_some, Option.some.injEq] at h
  obtain ⟨rfl, rfl⟩ := h
  exact hk

theorem lockObject_spec (hw : w = req.wrapper) (hlock : v.lock = v.mine) (hsome : v.lock.isSome = true)
    (hholds : v.holds = false) :
    Spec View.after (Fair req) (lockObject w) v fun _ v' => v' = { v with holds := true } := by
  unfold lockObject
  simp only [perform_bind]
  apply load_spec hw
  apply Spec.of_call ⟨hlock, hsome, hholds⟩
  rintro _ _ ⟨⟩
  exact Spec.of_ret rfl

theorem unlockObject_spec (hw : w = req.wrapper) (hlock : v.lock = v.mine) (hsome : v.lock.isSome = true)
    (hholds : v.holds = true) :
    Spec View.after (Fair req) (unlockObject w) v fun _ v' => v' = { v with holds := false } := by
  unfold unlockObject
  simp only [perform_bind]
  apply load_spec hw
  apply Spec.of_call ⟨hlock, hsome, hholds⟩
  rintro _ _ ⟨⟩
  exact Spec.of_ret rfl

theorem freeObject_spec (hw : w = req.wrapper) (halone : req.alone = true) (hlock : v.lock = v.mine)
    (hsome : v.lock.isSome = true) (hholds : v.holds = false) :
    Spec View.after (Fair req) (freeObject w) v fun _ v' => v' = { v with lock := none, mine := none } := by
  unfold freeObject
  simp only [perform_bind]
  apply load_spec hw
  apply Spec.of_call ⟨hlock, hsome, hholds, halone⟩
  rintro _ _ ⟨⟩
  apply Spec.of_call ⟨hw, halone⟩
  rintro _ _ ⟨⟩
  exact Spec.of_ret rfl

/-- The guard lets the body run exactly if there is a lock object. -/
theorem ifLock_spec {body : W → Code W L Unit} {Q : Bool → View L → Prop} (hw : w = req.wrapper)
    (hnone : v.lock.isSome = false → Q false v)
    (hbody : v.lock.isSome = true → Spec View.after (Fair req) (body w) v fun _ v' => Q true v') :
    Spec View.after (Fair req) (ifLock (some w) body) v Q := by
  unfold ifLock
  simp only [perform_bind]
  apply load_spec hw
  cases h : v.lock with
  | none => exact Spec.of_ret (hnone (by rw [h]; rfl))
  | some l => exact (hbody (by rw [h]; rfl)).bind fun _ _ hq => Spec.of_ret hq

end Specs

/-- A call from what it may find leaves what it should. -/
theorem code_spec (kind : Kind) {req : Request W} {v : View L} (hfound : req.Found v) :
    Spec View.after (Fair req) (req.code kind) v View.Done := by
  cases req with
  | init w =>
    obtain ⟨hmine, hholds⟩ := hfound
    have halloc : Spec View.after (Fair (.init w)) (allocObject w) v _ := allocObject_spec rfl rfl hmine hholds
    cases kind with
    | mutex | spinlock => exact halloc.bind fun _ _ hv => Spec.of_ret hv
    | rmLock =>
      refine (Spec.bind halloc fun _ v' hv => ?_).bind fun _ _ hv => Spec.of_ret hv
      exact load_spec rfl (Spec.of_ret hv)
  | lock w =>
    obtain ⟨hlock, hholds⟩ := hfound
    have hguard : Spec View.after (Fair (.lock w)) (ifLock (some w) lockObject) v fun locked v' =>
        v'.lock = v'.mine ∧ v'.mine.isSome = locked ∧ v'.holds = locked := by
      refine ifLock_spec rfl (fun hnone => ⟨hlock, hlock ▸ hnone, hholds⟩) fun hsome => ?_
      refine Spec.mono (lockObject_spec rfl hlock hsome hholds) ?_
      rintro _ _ rfl
      exact ⟨hlock, hlock ▸ hsome, rfl⟩
    cases kind with
    | mutex | spinlock =>
      -- Whoever finds no lock object is let in, too.
      refine (Spec.bind hguard fun locked v' hv => Spec.of_ret (Q := fun _ => View.Done true) ?_).bind
        fun _ _ hv => Spec.of_ret hv
      exact ⟨hv.1, by rw [hv.2.2, hv.2.1]; rfl⟩
    | rmLock =>
      refine (Spec.bind hguard fun locked v' hv =>
        Spec.of_ret (Q := fun status => View.Done (decide (status = NvStatus.ok))) ?_).bind fun _ _ hv => Spec.of_ret hv
      refine ⟨hv.1, ?_⟩
      cases locked <;> simp [hv.2.1, hv.2.2]
  | unlock w =>
    obtain ⟨hlock, hholds⟩ := hfound
    have hguard : Spec View.after (Fair (.unlock w)) (ifLock (some w) unlockObject) v fun _ => View.Done false := by
      refine ifLock_spec rfl (fun hnone => ⟨hlock, ?_⟩) fun hsome => ?_
      · rw [hholds, ← hlock, hnone]
        rfl
      · refine Spec.mono (unlockObject_spec rfl hlock hsome (by rw [hholds, ← hlock, hsome])) ?_
        rintro _ _ rfl
        exact ⟨hlock, rfl⟩
    have hrun := (Spec.bind hguard fun _ v' hv => Spec.of_ret (a := ()) (Q := fun _ => View.Done false) hv).bind
      fun _ _ hv => Spec.of_ret (Q := View.Done) (a := false) hv
    cases kind <;> exact hrun
  | destroy w =>
    obtain ⟨hlock, hholds⟩ := hfound
    have hguard : Spec View.after (Fair (.destroy w)) (ifLock (some w) freeObject) v fun _ => View.Done false := by
      refine ifLock_spec rfl (fun _ => ⟨hlock, hholds⟩) fun hsome => ?_
      refine Spec.mono (freeObject_spec rfl rfl hlock hsome hholds) ?_
      rintro _ _ rfl
      exact ⟨rfl, hholds⟩
    have hrun := (Spec.bind hguard fun _ v' hv => Spec.of_ret (a := ()) (Q := fun _ => View.Done false) hv).bind
      fun _ _ hv => Spec.of_ret (Q := View.Done) (a := false) hv
    cases kind <;> exact hrun

end PortingKit.Locks.Objects
