import Mathlib.Logic.Function.Basic
import PortingKit.Lib.Runs
/-!
# linux/workqueue.h

`gSystemWorkQueue` is `static`, so each translation unit `U` that includes the
header has a queue of its own. A queue runs one block at a time in the order
they were dispatched; any queue may take the next step. `W` is the type of
addresses of work items and `F` of work functions.
-/
open PortingKit.Lib

namespace PortingKit.Linux.Workqueue

/-- What a work function is called with: a work item, or the copy of one that a
block has captured. -/
inductive Ptr (W : Type) where
  | item (w : W)
  | captured (id : Nat)

/-- A dispatched block: of `schedule_work`, numbered in the order of those calls,
with the function in the work item it captured, or the empty block of a
`flush_scheduled_work` that began when `accepted` of them had been made. -/
inductive Block (T F : Type) where
  | work (id : Nat) (func : F)
  | barrier (t : T) (accepted : Nat)

/-- A call of a work function. -/
structure Started (W F : Type) where
  id : Nat
  func : F
  arg : Ptr W

/-- Where a thread is in `flush_scheduled_work`. -/
inductive Pc where
  | idle
  | waiting
  /-- Its block ran, after `accepted` calls of `schedule_work` as the flush began. -/
  | ran (accepted : Nat)

structure State (T U W F : Type) where
  /-- `work->func`, or NULL. -/
  func : W → Option F
  /-- The blocks waiting on each unit's queue, or NULL. -/
  gSystemWorkQueue : U → Option (List (Block T F))
  /-- The work function each queue is executing. -/
  running : U → Option Nat
  pc : T → Pc
  /-- The unit and the item of every `schedule_work` that returned true. -/
  accepted : List (U × W)
  started : List (Started W F)
  finished : List Nat
  /-- How much had been accepted when each flush began that has returned. -/
  flushed : List Nat

inductive Act (T U W F : Type) where
  | initWork (w : W) (fn : Option F)
  | scheduleWork (u : U) (work : Option W)
  | flush (t : T) (u : U)
  | flushReturn (t : T)
  /-- The queue takes its next block. -/
  | run (u : U)
  /-- The work function it executes returns. -/
  | done (u : U)

variable {T U W F : Type} [DecidableEq T] [DecidableEq U] [DecidableEq W]

def initWork (s : State T U W F) (work : W) (fn : Option F) : State T U W F :=
  { s with func := Function.update s.func work fn }

/-- `IODispatchQueue::create` succeeds. -/
def ensureSystemWorkqueueInitialized (s : State T U W F) (u : U) : State T U W F :=
  match s.gSystemWorkQueue u with
  | none => { s with gSystemWorkQueue := Function.update s.gSystemWorkQueue u (some []) }
  | some _ => s

omit [DecidableEq T] [DecidableEq W] in
theorem ensure_func (s : State T U W F) (u : U) : (ensureSystemWorkqueueInitialized s u).func = s.func := by
  unfold ensureSystemWorkqueueInitialized
  split <;> rfl

omit [DecidableEq T] [DecidableEq W] in
theorem ensure_accepted (s : State T U W F) (u : U) :
    (ensureSystemWorkqueueInitialized s u).accepted = s.accepted := by
  unfold ensureSystemWorkqueueInitialized
  split <;> rfl

omit [DecidableEq T] [DecidableEq W] in
theorem ensure_finished (s : State T U W F) (u : U) :
    (ensureSystemWorkqueueInitialized s u).finished = s.finished := by
  unfold ensureSystemWorkqueueInitialized
  split <;> rfl

def dispatch (s : State T U W F) (u : U) (q : List (Block T F)) (b : Block T F) : State T U W F :=
  { s with gSystemWorkQueue := Function.update s.gSystemWorkQueue u (some (q ++ [b])) }

def scheduleWork (s : State T U W F) (u : U) (work : Option W) : Bool × State T U W F :=
  let s := ensureSystemWorkqueueInitialized s u
  match s.gSystemWorkQueue u, work with
  | some q, some w =>
    match s.func w with
    | some f => (true, { dispatch s u q (.work s.accepted.length f) with accepted := s.accepted ++ [(u, w)] })
    | none => (false, s)
  | _, _ => (false, s)

/-- `flush_scheduled_work` up to the wait in `dispatchSync`, if there is a queue. -/
def flushScheduledWork (s : State T U W F) (t : T) (u : U) : State T U W F :=
  match s.gSystemWorkQueue u with
  | some q => { dispatch s u q (.barrier t s.accepted.length) with pc := Function.update s.pc t .waiting }
  | none => { s with flushed := s.flushed ++ [s.accepted.length] }

/-- An idle queue takes its next block. A block of `schedule_work` calls the
function with the address of what it captured. -/
def runNext (s : State T U W F) (u : U) : Option (State T U W F) :=
  match s.running u, s.gSystemWorkQueue u with
  | none, some (.work id f :: q) =>
    some { s with
      gSystemWorkQueue := Function.update s.gSystemWorkQueue u (some q)
      running := Function.update s.running u (some id)
      started := s.started ++ [⟨id, f, .captured id⟩] }
  | none, some (.barrier t accepted :: q) =>
    some { s with
      gSystemWorkQueue := Function.update s.gSystemWorkQueue u (some q)
      pc := Function.update s.pc t (.ran accepted) }
  | _, _ => none

def step (s : State T U W F) : Act T U W F → Option (State T U W F)
  | .initWork w fn => some (initWork s w fn)
  | .scheduleWork u work => some (scheduleWork s u work).2
  | .flush t u =>
    match s.pc t with
    | .idle => some (flushScheduledWork s t u)
    | _ => none
  | .flushReturn t =>
    match s.pc t with
    | .ran accepted => some { s with pc := Function.update s.pc t .idle, flushed := s.flushed ++ [accepted] }
    | _ => none
  | .run u => runNext s u
  | .done u =>
    match s.running u with
    | some id => some { s with running := Function.update s.running u none, finished := s.finished ++ [id] }
    | none => none

abbrev Step (s : State T U W F) (a : Act T U W F) (s' : State T U W F) : Prop := step s a = some s'

/-- Nothing scheduled yet, and anything in the work items. -/
def init (func : W → Option F) : State T U W F :=
  ⟨func, fun _ => none, fun _ => none, fun _ => .idle, [], [], [], []⟩

/-- What a step does, by cases. -/
inductive Does (s : State T U W F) : Act T U W F → State T U W F → Prop
  | initWork (w : W) (fn : Option F) : Does s (.initWork w fn) (initWork s w fn)
  | rejected {u : U} {work : Option W} : (scheduleWork s u work).1 = false →
    Does s (.scheduleWork u work) (ensureSystemWorkqueueInitialized s u)
  | accepted {u : U} {w : W} {f : F} {q : List (Block T F)} : (scheduleWork s u (some w)).1 = true →
    (ensureSystemWorkqueueInitialized s u).gSystemWorkQueue u = some q → s.func w = some f →
    Does s (.scheduleWork u (some w))
      { dispatch (ensureSystemWorkqueueInitialized s u) u q (.work s.accepted.length f) with
        accepted := s.accepted ++ [(u, w)] }
  | flushNothing {t : T} {u : U} : s.gSystemWorkQueue u = none →
    Does s (.flush t u) { s with flushed := s.flushed ++ [s.accepted.length] }
  | flush {t : T} {u : U} {q : List (Block T F)} : s.gSystemWorkQueue u = some q →
    Does s (.flush t u)
      { dispatch s u q (.barrier t s.accepted.length) with pc := Function.update s.pc t .waiting }
  | flushReturn {t : T} {n : Nat} : s.pc t = .ran n →
    Does s (.flushReturn t) { s with pc := Function.update s.pc t .idle, flushed := s.flushed ++ [n] }
  | runWork {u : U} {id : Nat} {f : F} {q : List (Block T F)} : s.running u = none →
    s.gSystemWorkQueue u = some (.work id f :: q) →
    Does s (.run u) { s with
      gSystemWorkQueue := Function.update s.gSystemWorkQueue u (some q)
      running := Function.update s.running u (some id)
      started := s.started ++ [⟨id, f, .captured id⟩] }
  | runBarrier {u : U} {t : T} {n : Nat} {q : List (Block T F)} : s.running u = none →
    s.gSystemWorkQueue u = some (.barrier t n :: q) →
    Does s (.run u) { s with
      gSystemWorkQueue := Function.update s.gSystemWorkQueue u (some q)
      pc := Function.update s.pc t (.ran n) }
  | done {u : U} {id : Nat} : s.running u = some id →
    Does s (.done u) { s with running := Function.update s.running u none, finished := s.finished ++ [id] }

omit [DecidableEq T] [DecidableEq W] in
theorem scheduleWork_rejected {s : State T U W F} {u : U} {work : Option W} (h : (scheduleWork s u work).1 = false) :
    (scheduleWork s u work).2 = ensureSystemWorkqueueInitialized s u := by
  unfold scheduleWork at h ⊢
  grind

omit [DecidableEq T] [DecidableEq W] in
theorem ensure_queue (s : State T U W F) (u : U) :
    ∃ q, (ensureSystemWorkqueueInitialized s u).gSystemWorkQueue u = some q := by
  unfold ensureSystemWorkqueueInitialized
  split
  · exact ⟨[], by simp⟩
  · rename_i q hq
    exact ⟨q, hq⟩

omit [DecidableEq T] [DecidableEq W] in
/-- An item is accepted if there is one and it has a function. -/
theorem scheduleWork_accepts {s : State T U W F} {u : U} {work : Option W} :
    (scheduleWork s u work).1 = true ↔ ∃ w, work = some w ∧ s.func w ≠ none := by
  obtain ⟨q, hq⟩ := ensure_queue s u
  cases work with
  | none => simp [scheduleWork, hq]
  | some w => cases hf : s.func w <;> simp [scheduleWork, hq, ensure_func, hf]

theorem scheduleWork_does (s : State T U W F) (u : U) (work : Option W) :
    Does s (.scheduleWork u work) (scheduleWork s u work).2 := by
  cases hres : (scheduleWork s u work).1 with
  | false =>
    rw [scheduleWork_rejected hres]
    exact .rejected hres
  | true =>
    have hres' := hres
    unfold scheduleWork at hres ⊢
    simp only at hres ⊢
    split at hres
    · split at hres
      · rename_i q w hq _ f hf
        rw [ensure_func] at hf
        simp only [ensure_accepted]
        exact .accepted hres' hq hf
      · cases hres
    · cases hres

theorem step_does {s s' : State T U W F} {a : Act T U W F} (h : Step s a s') : Does s a s' := by
  cases a with
  | initWork w fn => cases h; exact .initWork w fn
  | scheduleWork u work =>
    cases h
    exact scheduleWork_does s u work
  | flush t u =>
    simp only [Step, step] at h
    split at h
    · cases h
      unfold flushScheduledWork
      split
      · exact .flush ‹_›
      · exact .flushNothing ‹_›
    · cases h
  | flushReturn t =>
    simp only [Step, step] at h
    split at h
    · cases h; exact .flushReturn ‹_›
    · cases h
  | run u =>
    simp only [Step, step, runNext] at h
    split at h
    · cases h; exact .runWork ‹_› ‹_›
    · cases h; exact .runBarrier ‹_› ‹_›
    · cases h
  | done u =>
    simp only [Step, step] at h
    split at h
    · cases h; exact .done ‹_›
    · cases h

end PortingKit.Linux.Workqueue
