import Mathlib.Logic.Function.Basic
import PortingKit.Lib.Runs
/-!
# linux/wait.h

Waiters run `wait_event_interruptible` on one queue, wakers make the condition
true and then call `wake_up_interruptible`. Every test of the condition, sleep,
change of the condition and wakeup is a step of its own, and any thread may
take the next one. `E` is the type of event values, addresses in memory.
-/
open PortingKit.Lib

namespace PortingKit.Linux.Wait

/-- A `wait_queue_head_t` in memory: where its `lock` field is, and what it holds. -/
structure WaitQueueHead (E : Type) where
  lockAddr : E
  lock : E

/-- `init_waitqueue_head`, with the pointer `IOLockAlloc` answers. -/
def initWaitqueueHead {E : Type} (q : WaitQueueHead E) (ioLockAlloc : E) : WaitQueueHead E :=
  { q with lock := ioLockAlloc }

inductive Pc (E : Type) where
  | idle
  /-- At the test of `while (!(condition))`. -/
  | test
  /-- The test was false; about to call `IOLockSleep`. -/
  | falseTest
  | asleep (event : E)
  /-- Runnable again, still inside `IOLockSleep`, which takes the lock back. -/
  | waking
  /-- Made the condition true; about to call `wake_up_interruptible`. -/
  | made
  deriving DecidableEq

structure State (T E : Type) where
  cond : Bool
  pc : T → Pc E
  /-- The thread holding the queue's lock. -/
  holder : Option T

inductive Act (T : Type) where
  | wait (t : T)
  | eval (t : T)
  | sleep (t : T)
  | relock (t : T)
  | makeTrue (t : T)
  | wakeUp (t : T)
  /-- The condition becomes false again. -/
  | clear
  /-- A sleeper becomes runnable without a wakeup. -/
  | spurious (t : T)

variable {T E : Type} [DecidableEq T] [DecidableEq E]

def State.goto (s : State T E) (t : T) (pc : Pc E) : State T E := { s with pc := Function.update s.pc t pc }

/-- Releases the lock, which the caller should hold, and sleeps on the value of `event`. -/
def ioLockSleep (s : State T E) (t : T) (event : E) : State T E :=
  { s with pc := Function.update s.pc t (.asleep event), holder := none }

/-- Makes runnable exactly the threads sleeping on `event`. -/
def wakeup (s : State T E) (event : E) : State T E :=
  { s with pc := fun t => if s.pc t = .asleep event then .waking else s.pc t }

def wakeUpInterruptible (q : WaitQueueHead E) (s : State T E) : State T E := wakeup s q.lock

def step (q : WaitQueueHead E) (s : State T E) : Act T → Option (State T E)
  | .wait t => if s.pc t = .idle then some (s.goto t .test) else none
  | .eval t => if s.pc t = .test then some (s.goto t (if s.cond then .idle else .falseTest)) else none
  -- The event is `&(wq).lock`, the address of the field.
  | .sleep t => if s.pc t = .falseTest then some (ioLockSleep s t q.lockAddr) else none
  | .relock t =>
    if s.pc t = .waking ∧ s.holder = none then some { s.goto t .test with holder := some t } else none
  | .makeTrue t => if s.pc t = .idle then some { s.goto t .made with cond := true } else none
  | .wakeUp t => if s.pc t = .made then some (wakeUpInterruptible q (s.goto t .idle)) else none
  | .clear => some { s with cond := false }
  | .spurious t =>
    match s.pc t with
    | .asleep _ => some (s.goto t .waking)
    | _ => none

abbrev Step (q : WaitQueueHead E) (s : State T E) (a : Act T) (s' : State T E) : Prop := step q s a = some s'

/-- What a step does, by cases. -/
theorem step_cases {q : WaitQueueHead E} {s s' : State T E} {a : Act T} (h : Step q s a s') :
    (∃ t, a = .wait t ∧ s.pc t = .idle ∧ s' = s.goto t .test) ∨
    (∃ t, a = .eval t ∧ s.pc t = .test ∧ s' = s.goto t (if s.cond then .idle else .falseTest)) ∨
    (∃ t, a = .sleep t ∧ s.pc t = .falseTest ∧ s' = ioLockSleep s t q.lockAddr) ∨
    (∃ t, a = .relock t ∧ s.pc t = .waking ∧ s.holder = none ∧ s' = { s.goto t .test with holder := some t }) ∨
    (∃ t, a = .makeTrue t ∧ s.pc t = .idle ∧ s' = { s.goto t .made with cond := true }) ∨
    (∃ t, a = .wakeUp t ∧ s.pc t = .made ∧ s' = wakeUpInterruptible q (s.goto t .idle)) ∨
    (a = .clear ∧ s' = { s with cond := false }) ∨
    (∃ t e, a = .spurious t ∧ s.pc t = .asleep e ∧ s' = s.goto t .waking) := by
  cases a with
  | clear => simp_all [Step, step]
  | spurious t =>
    simp only [Step, step] at h
    split at h
    · simp_all
    · cases h
  | _ => simp_all [Step, step]

def init (cond : Bool) : State T E := ⟨cond, fun _ => .idle, none⟩

def State.Asleep (s : State T E) (t : T) : Prop := ∃ e, s.pc t = .asleep e

/-- Asleep, or past a false test on the way to sleep. -/
def Pc.Sleepy (pc : Pc E) : Prop := pc = .falseTest ∨ ∃ e, pc = .asleep e

/-! ## What holds of every thread -/

omit [DecidableEq E] in
/-- One thread goes on. -/
theorem forall_goto (P : Pc E → Prop) {s : State T E} (h : ∀ u, P (s.pc u)) {t : T} {pc : Pc E} (hp : P pc) :
    ∀ u, P ((s.goto t pc).pc u) := by
  unfold State.goto
  rw [Function.forall_update_iff s.pc fun _ => P]
  exact ⟨hp, fun u _ => h u⟩

omit [DecidableEq T] in
/-- Some sleepers become runnable. -/
theorem forall_wakeup (P : Pc E → Prop) {s : State T E} (h : ∀ u, P (s.pc u)) (hp : P .waking) (event : E) :
    ∀ u, P ((wakeup s event).pc u) := by
  intro u
  unfold wakeup
  by_cases hu : s.pc u = .asleep event
  · simpa only [hu, if_true] using hp
  · simpa only [hu, if_false] using h u

/-! ## Lost wakeups -/

/-- A waiter is asleep although a wakeup was issued with the condition true
and the condition stayed true since. -/
def Lost (tr : List (Tr (State T E) (Act T))) (s : State T E) : Prop :=
  ∃ tr₁ u tr₂, tr = tr₁ ++ u :: tr₂ ∧ (∃ w, u.act = .wakeUp w) ∧ u.pre.cond = true ∧
    (∀ v ∈ tr₂, v.post.cond = true) ∧ ∃ t, s.Asleep t

/-- No wakeup with the condition true finds a waiter asleep or on its way. -/
def Quiet (s : State T E) : Act T → Prop
  | .wakeUp _ => s.cond = true → ∀ t, ¬ (s.pc t).Sleepy
  | _ => True

/-- The condition is true and nobody is asleep or on the way. -/
structure Calm (s : State T E) : Prop where
  cond : s.cond = true
  awake : ∀ t, ¬ (s.pc t).Sleepy

theorem calm_step {q : WaitQueueHead E} {s s' : State T E} {a : Act T} (hc : Calm s) (ha : a ≠ .clear)
    (h : Step q s a s') : Calm s' := by
  rcases step_cases h with ⟨t, -, -, rfl⟩ | ⟨t, -, -, rfl⟩ | ⟨t, -, hpc, rfl⟩ | ⟨t, -, -, -, rfl⟩ | ⟨t, -, -, rfl⟩ |
    ⟨t, -, -, rfl⟩ | ⟨rfl, -⟩ | ⟨t, e, -, hpc, rfl⟩
  · exact ⟨hc.cond, forall_goto (¬ ·.Sleepy) hc.awake (by simp [Pc.Sleepy])⟩
  · -- The test finds the condition true, so the loop ends.
    exact ⟨hc.cond, forall_goto (¬ ·.Sleepy) hc.awake (by simp [hc.cond, Pc.Sleepy])⟩
  · exact absurd (.inl hpc) (hc.awake t)
  · exact ⟨hc.cond, forall_goto (¬ ·.Sleepy) hc.awake (by simp [Pc.Sleepy])⟩
  · exact ⟨rfl, forall_goto (¬ ·.Sleepy) hc.awake (by simp [Pc.Sleepy])⟩
  · have hidle : ∀ u, ¬ ((s.goto t .idle).pc u).Sleepy := forall_goto (¬ ·.Sleepy) hc.awake (by simp [Pc.Sleepy])
    exact ⟨hc.cond, forall_wakeup (¬ ·.Sleepy) hidle (by simp [Pc.Sleepy]) q.lock⟩
  · exact absurd rfl ha
  · exact absurd (.inr ⟨e, hpc⟩) (hc.awake t)

theorem not_lost_of_quiet {q : WaitQueueHead E} {cond : Bool} {tr : List (Tr (State T E) (Act T))} {s : State T E}
    (hr : Run (Step q) (init cond) tr s) (hq : ∀ t ∈ tr, Quiet t.pre t.act) : ¬ Lost tr s := by
  rintro ⟨tr₁, u, tr₂, rfl, ⟨w, hw⟩, hcond, hstay, t, e, ht⟩
  obtain ⟨-, hst, hr₂⟩ := hr.split
  have hquiet := hq u (by simp)
  rw [hw] at hst hquiet
  have hcalm : Calm u.post := calm_step ⟨hcond, hquiet hcond⟩ (by simp) hst
  -- The condition stays true, so it is never cleared.
  have hne : ∀ v ∈ tr₂, v.act ≠ .clear := fun v hv he => by
    have h1 := hr₂.steps v hv
    simp only [he, Step, step, Option.some.injEq] at h1
    have h2 := hstay v hv
    rw [← h1] at h2
    cases h2
  have hs := (hr₂.inv_of_cond Calm (fun _ a => a ≠ .clear) hcalm (fun _ _ _ hc ha h => calm_step hc ha h) hne).1
  exact hs.awake t (.inr ⟨e, ht⟩)

/-! ## The wakeup goes to another event -/

/-- Every sleeper waits on the address of the `lock` field. -/
def OnField (q : WaitQueueHead E) (s : State T E) : Prop := ∀ t e, s.pc t = .asleep e → e = q.lockAddr

theorem onField_step {q : WaitQueueHead E} {s s' : State T E} {a : Act T} (hs : OnField q s)
    (h : Step q s a s') : OnField q s' := by
  let P : Pc E → Prop := fun pc => ∀ e, pc = .asleep e → e = q.lockAddr
  have awake : ∀ pc : Pc E, (∀ e, pc ≠ .asleep e) → P pc := fun pc hpc e he => absurd he (hpc e)
  rcases step_cases h with ⟨t, -, -, rfl⟩ | ⟨t, -, -, rfl⟩ | ⟨t, -, -, rfl⟩ | ⟨t, -, -, -, rfl⟩ | ⟨t, -, -, rfl⟩ |
    ⟨t, -, -, rfl⟩ | ⟨-, rfl⟩ | ⟨t, e, -, -, rfl⟩
  · exact forall_goto P hs (awake _ nofun)
  · apply forall_goto P hs
    apply awake
    split <;> simp
  · -- The one step that puts a thread to sleep names the field.
    exact forall_goto P hs fun e he => (Pc.asleep.inj he).symm
  · exact forall_goto P hs (awake .test nofun)
  · exact forall_goto P hs (awake .made nofun)
  · apply forall_wakeup P _ (awake _ nofun)
    exact forall_goto P hs (awake .idle nofun)
  · exact hs
  · exact forall_goto P hs (awake _ nofun)

/-- With the queue's lock elsewhere than the field that points to it, a wakeup
that finds a waiter asleep or on its way is lost on it. -/
theorem lost_of_not_quiet {q : WaitQueueHead E} (hne : q.lock ≠ q.lockAddr) {cond : Bool}
    {tr : List (Tr (State T E) (Act T))} {s s' : State T E} {w : T} (hr : Run (Step q) (init cond) tr s)
    (hw : Step q s (.wakeUp w) s') (hq : ¬ Quiet s (.wakeUp w)) :
    ∃ tr' s'', Run (Step q) (init cond) (tr ++ ⟨s, .wakeUp w, s'⟩ :: tr') s'' ∧
      Lost (tr ++ ⟨s, .wakeUp w, s'⟩ :: tr') s'' := by
  simp only [Quiet, Classical.not_imp, not_forall, not_not] at hq
  obtain ⟨hcond, t, ht⟩ := hq
  have hon : OnField q s := (hr.inv (OnField q) (by simp [OnField, init]) fun _ _ _ => onField_step).1
  have hst := hw
  simp only [Step, step, Option.ite_none_right_eq_some, Option.some.injEq] at hst
  obtain ⟨hmade, rfl⟩ := hst
  have htw : t ≠ w := by
    rintro rfl
    rw [hmade] at ht
    simp [Pc.Sleepy] at ht
  -- The waker wakes sleepers on `q.lock` only, so `t` stays where it is.
  have hpc : (wakeUpInterruptible q (s.goto w .idle)).pc t = s.pc t := by
    simp only [wakeUpInterruptible, wakeup, State.goto, Function.update_of_ne htw]
    apply if_neg
    intro h
    exact hne (hon t _ h)
  rcases ht with ht | ⟨e, ht⟩
  · have hsl : Step q (wakeUpInterruptible q (s.goto w .idle)) (.sleep t)
        (ioLockSleep (wakeUpInterruptible q (s.goto w .idle)) t q.lockAddr) := by
      simp [Step, step, hpc, ht]
    refine ⟨[⟨_, .sleep t, _⟩], _, hr.append (.cons hw (.cons hsl .nil)), ?_⟩
    refine ⟨tr, _, _, rfl, ⟨w, rfl⟩, hcond, ?_, t, q.lockAddr, by simp [ioLockSleep]⟩
    simpa [ioLockSleep, wakeUpInterruptible, wakeup, State.goto] using hcond
  · exact ⟨[], _, hr.append (.cons hw .nil), tr, _, [], rfl, ⟨w, rfl⟩, hcond, by simp, t, e, hpc.trans ht⟩

/-- No wakeup is lost in a run whose wakeups all find nobody asleep or on the
way. After any other wakeup the waiter can go on so that it is lost, if the lock
is elsewhere than the field that points to it. -/
theorem no_wakeup_lost_of_quiet (q₀ : WaitQueueHead E) (ioLockAlloc : E) (cond : Bool) :
    let q := initWaitqueueHead q₀ ioLockAlloc
    (∀ (tr : List (Tr (State T E) (Act T))) s, Run (Step q) (init cond) tr s →
      (∀ t ∈ tr, Quiet t.pre t.act) → ¬ Lost tr s) ∧
    (ioLockAlloc ≠ q₀.lockAddr → ∀ (tr : List (Tr (State T E) (Act T))) s w s', Run (Step q) (init cond) tr s →
      Step q s (.wakeUp w) s' → ¬ Quiet s (.wakeUp w) →
      ∃ tr' s'', Run (Step q) (init cond) (tr ++ ⟨s, .wakeUp w, s'⟩ :: tr') s'' ∧
        Lost (tr ++ ⟨s, .wakeUp w, s'⟩ :: tr') s'') :=
  ⟨fun _ _ hr hq => not_lost_of_quiet hr hq, fun hne _ _ _ _ hr hw hq => lost_of_not_quiet hne hr hw hq⟩

/-- A waiter sleeps and becomes runnable by itself, and the wakeup comes when its wait
is over. -/
theorem no_wakeup_lost_of_quiet_late : ∃ (tr : List (Tr (State Bool Nat) (Act Bool))) (s : State Bool Nat),
    Run (Step (initWaitqueueHead ⟨0x1000, 0⟩ 0x2000)) (init false) tr s ∧
      tr.map (·.act) = [.wait false, .eval false, .sleep false, .makeTrue true, .spurious false, .relock false,
        .eval false, .wakeUp true] ∧ ¬ Lost tr s := by
  obtain ⟨tr, s, he, hquiet⟩ : ∃ tr s, exec (step (initWaitqueueHead ⟨0x1000, 0⟩ 0x2000)) (init false)
      [.wait false, .eval false, .sleep false, .makeTrue true, .spurious false, .relock false, .eval false, .wakeUp true] =
        some (tr, s) ∧ ∀ t ∈ tr, Quiet t.pre t.act :=
    ⟨_, _, rfl, by simp [Quiet, Pc.Sleepy, State.goto, ioLockSleep, initWaitqueueHead]⟩
  obtain ⟨hr, hacts⟩ := run_of_exec _ _ _ he
  exact ⟨tr, s, hr, hacts, (no_wakeup_lost_of_quiet ⟨0x1000, 0⟩ 0x2000 false).1 tr s hr hquiet⟩

/-- One waiter tests and sleeps, one waker makes the condition true and wakes
the queue: the waiter stays asleep. The queue is at 0x1000 and its lock at 0x2000. -/
theorem wakeup_lost :
    ¬ ∀ (tr : List (Tr (State Bool Nat) (Act Bool))) s,
      Run (Step (initWaitqueueHead ⟨0x1000, 0⟩ 0x2000)) (init false) tr s → ¬ Lost tr s := by
  intro h
  have hr := (run_of_exec (step (initWaitqueueHead ⟨0x1000, 0⟩ 0x2000)) (init false)
    [.wait false, .eval false, .sleep false, .makeTrue true, .wakeUp true] rfl).1
  exact h _ _ hr ⟨[_, _, _, _], _, [], rfl, ⟨true, rfl⟩, rfl, by simp, false, 0x1000, rfl⟩

end PortingKit.Linux.Wait
