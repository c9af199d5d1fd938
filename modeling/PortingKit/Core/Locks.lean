import Mathlib.Logic.Function.Basic
import Mathlib.Logic.Nontrivial.Defs
import PortingKit.Lib.Runs
/-!
# linux/mutex.h, linux/spinlock.h and core/locks.h

Three wrappers around a lock object that the init function's allocation may not
have delivered. `L` names the lock objects and `Held` says who holds each, so a
call that has to wait for another thread answers `none` until it can proceed.
-/
open PortingKit.Lib

namespace PortingKit.Locks

variable {T L : Type} [DecidableEq T] [DecidableEq L]

/-- The thread holding each `IOLock` or `IOSimpleLock`. -/
abbrev Held (T L : Type) := L → Option T

/-- `IOLockLock` and `IOSimpleLockLock`. -/
def ioLockLock (l : L) (t : T) (held : Held T L) : Option (Held T L) :=
  if held l = none then some (Function.update held l (some t)) else none

/-- `IOLockUnlock` and `IOSimpleLockUnlock`. -/
def ioLockUnlock (l : L) (held : Held T L) : Held T L := Function.update held l none

/-- `if (lock && lock->lock) IOLockLock(lock->lock);` -/
def guardedLock (lock : Option L) (t : T) (held : Held T L) : Option (Held T L) :=
  match lock with
  | some l => ioLockLock l t held
  | none => some held

/-- `if (lock && lock->lock) IOLockUnlock(lock->lock);` -/
def guardedUnlock (lock : Option L) (held : Held T L) : Held T L :=
  match lock with
  | some l => ioLockUnlock l held
  | none => held

/-! ## linux/mutex.h -/

structure Mutex (L : Type) where
  lock : Option L

def mutexInit (ioLockAlloc : Option L) : Mutex L := ⟨ioLockAlloc⟩
def mutexLock (lock : Option (Mutex L)) : T → Held T L → Option (Held T L) := guardedLock (lock.bind (·.lock))
def mutexUnlock (lock : Option (Mutex L)) : Held T L → Held T L := guardedUnlock (lock.bind (·.lock))

/-! ## linux/spinlock.h -/

/-- `spinlock_t`. -/
structure Spinlock (L : Type) where
  lock : Option L

def spinLockInit (ioSimpleLockAlloc : Option L) : Spinlock L := ⟨ioSimpleLockAlloc⟩
def spinLock (sl : Option (Spinlock L)) : T → Held T L → Option (Held T L) := guardedLock (sl.bind (·.lock))
def spinUnlock (sl : Option (Spinlock L)) : Held T L → Held T L := guardedUnlock (sl.bind (·.lock))

/-! ## core/locks.h -/

inductive RmLockType where
  | mutex
  | spinlock

/-- The `NV_STATUS` values of the header. -/
inductive NvStatus where
  | ok
  | errInvalidArgument
  | errInvalidState
  | errNoMemory
  deriving DecidableEq

/-- `rm_lock`. -/
structure RmLock (L : Type) where
  pLock : Option L

/-- The status and the lock behind the pointer; the type is not looked at. -/
def rmGpuLockInit (pLock : Option (RmLock L)) (_type : RmLockType) (ioLockAlloc : Option L) :
    NvStatus × Option (RmLock L) :=
  match pLock with
  | none => (.errInvalidArgument, none)
  | some _ => (if ioLockAlloc ≠ none then .ok else .errNoMemory, some ⟨ioLockAlloc⟩)

def rmGpuLockAcquire (pLock : Option (RmLock L)) (t : T) (held : Held T L) : Option (NvStatus × Held T L) :=
  match pLock.bind (·.pLock) with
  | none => some (.errInvalidState, held)
  | some l => do
    let held ← ioLockLock l t held
    return (.ok, held)

def rmGpuLockRelease (pLock : Option (RmLock L)) : Held T L → Held T L := guardedUnlock (pLock.bind (·.pLock))

/-! ## Threads around a critical section -/

inductive Kind where
  | mutex
  | spinlock
  | rmLock
  deriving DecidableEq

/-- Whether the lock call lets its caller into the critical section, and the
locks after it. Only `rmGpuLockAcquire` can turn the caller away. -/
def acquire (alloc : Option L) (t : T) (held : Held T L) : Kind → Option (Bool × Held T L)
  | .mutex => (mutexLock (some (mutexInit alloc)) t held).map (true, ·)
  | .spinlock => (spinLock (some (spinLockInit alloc)) t held).map (true, ·)
  | .rmLock =>
    (rmGpuLockAcquire (rmGpuLockInit (some ⟨none⟩) .mutex alloc).2 t held).map fun r => (r.1 = .ok, r.2)

def release (alloc : Option L) (held : Held T L) : Kind → Held T L
  | .mutex => mutexUnlock (some (mutexInit alloc)) held
  | .spinlock => spinUnlock (some (spinLockInit alloc)) held
  | .rmLock => rmGpuLockRelease (rmGpuLockInit (some ⟨none⟩) .mutex alloc).2 held

structure State (T L : Type) where
  held : Held T L
  inside : T → Bool

inductive Act (T : Type) where
  | enter (t : T)
  | leave (t : T)

def step (kind : Kind) (alloc : Option L) (s : State T L) : Act T → Option (State T L)
  | .enter t =>
    if s.inside t then none
    else do
      let (entered, held) ← acquire alloc t s.held kind
      return ⟨held, Function.update s.inside t entered⟩
  | .leave t =>
    if s.inside t then some ⟨release alloc s.held kind, Function.update s.inside t false⟩ else none

abbrev Step (kind : Kind) (alloc : Option L) (s : State T L) (a : Act T) (s' : State T L) : Prop :=
  step kind alloc s a = some s'

def init : State T L := ⟨fun _ => none, fun _ => false⟩

/-- At most one thread is in the critical section. -/
def Exclusive (s : State T L) : Prop := ∀ t u, s.inside t = true → s.inside u = true → t = u

/-! ## With a lock object -/

omit [DecidableEq T] in
/-- With a lock object all three wrappers lock it and let the caller in. -/
theorem acquire_some (l : L) (t : T) (held : Held T L) (kind : Kind) :
    acquire (some l) t held kind = (ioLockLock l t held).map (true, ·) := by
  cases kind
  case rmLock =>
    cases h : ioLockLock l t held <;> simp [acquire, rmGpuLockInit, rmGpuLockAcquire, h]
  all_goals rfl

omit [DecidableEq T] in
theorem release_some (l : L) (held : Held T L) (kind : Kind) : release (some l) held kind = ioLockUnlock l held := by
  cases kind <;> rfl

/-- The threads inside hold the lock object. -/
def Owned (l : L) (s : State T L) : Prop := ∀ t, s.inside t = true → s.held l = some t

omit [DecidableEq T] [DecidableEq L] in
theorem owned_exclusive {l : L} {s : State T L} (h : Owned l s) : Exclusive s := fun t u ht hu =>
  Option.some.inj ((h t ht).symm.trans (h u hu))

theorem owned_step {kind : Kind} {l : L} {s s' : State T L} {a : Act T} (hs : Owned l s)
    (h : Step kind (some l) s a s') : Owned l s' := by
  cases a with
  | enter t =>
    simp only [Step, step, acquire_some, ioLockLock] at h
    split at h
    · cases h
    · split at h
      · rename_i hfree
        simp only [Option.map_some, Option.bind_eq_bind, Option.bind_some, Option.pure_def, Option.some.injEq] at h
        subst h
        intro u hu
        by_cases hut : u = t
        · simp [hut]
        · -- Anyone else inside would hold the lock that was free.
          simp only [Function.update_of_ne hut] at hu
          rw [hs u hu] at hfree
          cases hfree
      · cases h
  | leave t =>
    simp only [Step, step, release_some, ioLockUnlock, Option.ite_none_right_eq_some, Option.some.injEq] at h
    obtain ⟨ht, rfl⟩ := h
    intro u hu
    by_cases hut : u = t
    · simp [hut] at hu
    · simp only [Function.update_of_ne hut] at hu
      exact absurd (owned_exclusive hs u t hu ht) hut

/-! ## Without one -/

omit [DecidableEq T] in
theorem acquire_none (t : T) (held : Held T L) {kind : Kind} (hk : kind ≠ .rmLock) :
    acquire none t held kind = some (true, held) := by
  cases kind
  case rmLock => exact absurd rfl hk
  all_goals rfl

/-- An `rm_lock` without a lock object lets nobody in. -/
theorem empty_step {s s' : State T L} {a : Act T} (hs : ∀ t, s.inside t = false)
    (h : Step .rmLock none s a s') : ∀ t, s'.inside t = false := by
  cases a with
  | enter t =>
    have h' : (⟨s.held, Function.update s.inside t false⟩ : State T L) = s' := by
      simpa [Step, step, acquire, rmGpuLockInit, rmGpuLockAcquire, hs t] using h
    subst h'
    intro u
    by_cases hut : u = t
    · simp [hut]
    · simpa [hut] using hs u
  | leave t => simp [Step, step, hs t] at h

/-- The other two let any two threads in, one after the other. -/
theorem both_inside {kind : Kind} (hk : kind ≠ .rmLock) {t u : T} (htu : t ≠ u) :
    ∃ s : State T L, Reachable (Step kind none) init s ∧ s.inside t = true ∧ s.inside u = true := by
  let s₁ : State T L := ⟨fun _ => none, Function.update (fun _ => false) t true⟩
  let s₂ : State T L := ⟨fun _ => none, Function.update s₁.inside u true⟩
  have h1 : Step kind none init (.enter t) s₁ := by simp [Step, step, init, acquire_none _ _ hk, s₁]
  have h2 : Step kind none s₁ (.enter u) s₂ := by
    simp [Step, step, acquire_none _ _ hk, s₁, s₂, Function.update_of_ne htu.symm]
  exact ⟨s₂, (Reachable.refl.snoc h1).snoc h2, by simp [s₂, s₁, htu], by simp [s₂]⟩

/-! ## Mutual exclusion -/

/-- A wrapper excludes threads from each other exactly when its init got a lock
object, or its acquire reports that there is none, or there is only one thread. -/
theorem exclusive_iff (kind : Kind) (alloc : Option L) :
    (∀ s : State T L, Reachable (Step kind alloc) init s → Exclusive s) ↔
      alloc ≠ none ∨ kind = .rmLock ∨ Subsingleton T := by
  constructor
  · intro h
    by_contra hn
    obtain ⟨h1, h2, h3⟩ : alloc = none ∧ kind ≠ .rmLock ∧ ¬ Subsingleton T := by simpa using hn
    subst h1
    obtain ⟨t, u, htu⟩ := not_subsingleton_iff_nontrivial.1 h3
    obtain ⟨s, hs, ht, hu⟩ := both_inside (L := L) h2 htu
    exact htu (h s hs t u ht hu)
  · rintro h s ⟨tr, hr⟩
    cases alloc with
    | some l =>
      exact owned_exclusive (hr.inv (Owned l) (by simp [Owned, init]) fun _ _ _ => owned_step).1
    | none =>
      rcases h with h | rfl | h
      · exact absurd rfl h
      · have he := (hr.inv (fun s => ∀ t, s.inside t = false) (fun _ => rfl) fun _ _ _ => empty_step).1
        exact fun t u ht => absurd (he t) (by simp [ht])
      · exact fun t u _ _ => h.elim t u

/-- A mutex whose `IOLockAlloc` failed admits two threads at once. -/
theorem mutex_not_exclusive :
    ¬ ∀ (kind : Kind) (alloc : Option Nat) (s : State Bool Nat), Reachable (Step kind alloc) init s → Exclusive s := by
  intro h
  have hr := (run_of_exec (step .mutex (none : Option Nat)) init [.enter false, .enter true] rfl).1
  exact absurd (h .mutex none _ ⟨_, hr⟩ false true rfl rfl) (by decide)

end PortingKit.Locks
