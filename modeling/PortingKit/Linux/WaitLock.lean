import PortingKit.Linux.Wait
/-!
# The lock of a wait queue

`wait_event_interruptible` hands the queue's lock to `IOLockSleep`, which wants it
held, gives it up for the sleep and returns with it held. Nothing else in wait.h
takes or releases the lock. What the lock does when a thread without it calls
`IOLockSleep` no result here relies on. The waits and wakeups are those of Wait.lean; the
condition may change between any two steps, and the queue may be destroyed.
-/
open PortingKit.Lib

namespace PortingKit.Linux.Wait

variable {T E : Type}

structure Queue (T E : Type) where
  waits : State T E
  /-- `q->lock`, or NULL. -/
  lock : Option E
  /-- The thread held the lock when it began its last wait. -/
  entry : T → Bool

/-- A queue that was given the lock at `ioLockAlloc`, and has not been used. -/
def Queue.init (ioLockAlloc : E) (cond : Bool) : Queue T E := ⟨Wait.init cond, some ioLockAlloc, fun _ => false⟩

inductive QueueAct (T : Type) where
  | thread (a : Act T)
  | setCond (cond : Bool)
  | destroy

/-- Frees the lock. -/
def waitQueueDestroy (s : Queue T E) : Queue T E :=
  match s.lock with
  | none => s
  | some _ => { s with lock := none }

variable [DecidableEq T]

def entryAfter (s : Queue T E) : Act T → T → Bool
  | .wait t => Function.update s.entry t (s.waits.holder = some t)
  | _ => s.entry

variable [DecidableEq E]

/-- Threads wait and wake on a queue that has not been destroyed, whose `lock` field is at `lockAddr`. -/
def queueStep (lockAddr : E) (s : Queue T E) : QueueAct T → Option (Queue T E)
  | .thread a =>
    match s.lock with
    | none => none
    | some lock => do
      let waits ← step ⟨lockAddr, lock⟩ s.waits a
      return { s with waits, entry := entryAfter s a }
  | .setCond cond => some { s with waits := { s.waits with cond } }
  | .destroy => some (waitQueueDestroy s)

abbrev QueueStep (lockAddr : E) (s : Queue T E) (a : QueueAct T) (s' : Queue T E) : Prop :=
  queueStep lockAddr s a = some s'

/-- Inside `wait_event_interruptible`. -/
def Pc.InWait (pc : Pc E) : Prop := pc ≠ .idle ∧ pc ≠ .made

/-- `IOLockSleep` is called by the thread that holds the lock, a wait that ends leaves the lock
as it was for its thread, and a lock that is freed after all waits have ended is not held. -/
def Disciplined (x : Tr (Queue T E) (QueueAct T)) : Prop :=
  match x.act with
  | .thread (.sleep t) => x.pre.waits.holder = some t
  | .thread (.eval t) => x.pre.waits.cond = true → (x.post.waits.holder = some t ↔ x.pre.entry t = true)
  | .destroy => (∀ t, ¬ (x.pre.waits.pc t).InWait) → x.pre.waits.holder = none
  | .thread _ | .setCond _ => True

/-- Not a call of `IOLockSleep`. -/
def Awake : QueueAct T → Prop
  | .thread (.sleep _) => False
  | _ => True

/-- A test of the condition finds it true. -/
def TestsTrue (s : Queue T E) : QueueAct T → Prop
  | .thread (.eval _) => s.waits.cond = true
  | _ => True

/-! ## While nobody sleeps -/

/-- Not inside `IOLockSleep`. -/
def Pc.Up (pc : Pc E) : Prop := pc ≠ .waking ∧ ∀ e, pc ≠ .asleep e

/-- Nobody has the lock, nobody has had it, and nobody is asleep. -/
structure Unused (s : Queue T E) : Prop where
  holder : s.waits.holder = none
  entry : ∀ t, s.entry t = false
  up : ∀ t, (s.waits.pc t).Up

theorem queueStep_cases {lockAddr : E} {s s' : Queue T E} {a : QueueAct T} (h : QueueStep lockAddr s a s') :
    (∃ b lock waits, a = .thread b ∧ s.lock = some lock ∧ Step ⟨lockAddr, lock⟩ s.waits b waits ∧
      s' = { s with waits, entry := entryAfter s b }) ∨
    (∃ cond, a = .setCond cond ∧ s' = { s with waits := { s.waits with cond } }) ∨
    (a = .destroy ∧ s'.waits = s.waits ∧ s'.entry = s.entry) := by
  cases a with
  | thread b =>
    simp only [QueueStep, queueStep] at h
    cases hlock : s.lock with
    | none => simp [hlock] at h
    | some lock =>
      simp only [hlock, Option.bind_eq_bind, Option.bind_eq_some_iff, Option.pure_def, Option.some.injEq] at h
      obtain ⟨waits, hst, rfl⟩ := h
      exact .inl ⟨b, lock, waits, rfl, rfl, hst, rfl⟩
  | setCond cond =>
    cases h
    exact .inr (.inl ⟨cond, rfl, rfl⟩)
  | destroy =>
    cases h
    unfold waitQueueDestroy
    refine .inr (.inr ⟨rfl, ?_⟩)
    split <;> exact ⟨rfl, rfl⟩

omit [DecidableEq T] [DecidableEq E] in
theorem unused_init {ioLockAlloc : E} {cond : Bool} : Unused (Queue.init ioLockAlloc cond : Queue T E) where
  holder := rfl
  entry _ := rfl
  up _ := by simp [Pc.Up, Queue.init, Wait.init]

omit [DecidableEq T] in
/-- A wakeup finds nobody to wake. -/
theorem up_wakeup {s : State T E} (h : ∀ t, (s.pc t).Up) (event : E) : ∀ t, ((wakeup s event).pc t).Up := by
  intro t
  show (if s.pc t = .asleep event then Pc.waking else s.pc t).Up
  rw [if_neg ((h t).2 event)]
  exact h t

/-- A step of a thread that does not call `IOLockSleep` takes no lock. -/
theorem up_step {q : WaitQueueHead E} {s s' : State T E} {a : Act T} (hholder : s.holder = none)
    (hup : ∀ t, (s.pc t).Up) (ha : ∀ t, a ≠ .sleep t) (h : Step q s a s') :
    s'.holder = none ∧ ∀ t, (s'.pc t).Up := by
  rcases step_cases h with ⟨t, -, -, rfl⟩ | ⟨t, -, -, rfl⟩ | ⟨t, rfl, -⟩ | ⟨t, -, hpc, -⟩ | ⟨t, -, -, rfl⟩ |
    ⟨t, -, -, rfl⟩ | ⟨-, rfl⟩ | ⟨t, e, -, hpc, -⟩
  · exact ⟨hholder, forall_goto Pc.Up hup (by simp [Pc.Up])⟩
  · refine ⟨hholder, forall_goto Pc.Up hup ?_⟩
    split <;> simp [Pc.Up]
  · exact absurd rfl (ha t)
  · exact absurd hpc (hup t).1
  · exact ⟨hholder, forall_goto Pc.Up hup (by simp [Pc.Up])⟩
  · exact ⟨hholder, up_wakeup (forall_goto Pc.Up hup (by simp [Pc.Up])) q.lock⟩
  · exact ⟨hholder, hup⟩
  · exact absurd hpc ((hup t).2 e)

theorem unused_step {lockAddr : E} {s s' : Queue T E} {a : QueueAct T} (hi : Unused s) (ha : Awake a)
    (h : QueueStep lockAddr s a s') : Unused s' := by
  rcases queueStep_cases h with ⟨b, lock, waits, rfl, -, hst, rfl⟩ | ⟨cond, rfl, rfl⟩ | ⟨rfl, hwaits, hentry⟩
  · have hb : ∀ t, b ≠ .sleep t := by
      rintro t rfl
      exact ha
    obtain ⟨hholder, hup⟩ := up_step hi.holder hi.up hb hst
    refine ⟨hholder, fun t => ?_, hup⟩
    show entryAfter s b t = false
    unfold entryAfter
    split
    · rename_i u
      by_cases ht : t = u
      · simp [ht, hi.holder]
      · rw [Function.update_of_ne ht]
        exact hi.entry t
    · exact hi.entry t
  · exact ⟨hi.holder, hi.entry, hi.up⟩
  · exact ⟨by rw [hwaits]; exact hi.holder, by rw [hentry]; exact hi.entry, by rw [hwaits]; exact hi.up⟩

/-- As long as the lock is unused, a step keeps the discipline unless it is a call of `IOLockSleep`. -/
theorem disciplined_iff_awake {lockAddr : E} {s s' : Queue T E} {a : QueueAct T} (hi : Unused s)
    (h : QueueStep lockAddr s a s') : Disciplined ⟨s, a, s'⟩ ↔ Awake a := by
  cases a with
  | thread b =>
    cases b with
    | sleep t => simp [Disciplined, Awake, hi.holder]
    | eval t =>
      have hawake : Awake (.thread (.eval t) : QueueAct T) := trivial
      have hpost := (unused_step hi hawake h).holder
      simp [Disciplined, Awake, hpost, hi.entry]
    | _ => exact Iff.rfl
  | setCond cond => exact Iff.rfl
  | destroy => simp [Disciplined, Awake, hi.holder]

/-- No thread is past a false test. -/
def NoneFalse (s : Queue T E) : Prop := ∀ t, s.waits.pc t ≠ .falseTest

/-- Where no test is false, nobody comes to call `IOLockSleep`. -/
theorem noneFalse_step {lockAddr : E} {s s' : Queue T E} {a : QueueAct T} (hi : NoneFalse s) (ha : TestsTrue s a)
    (h : QueueStep lockAddr s a s') : NoneFalse s' ∧ Awake a := by
  rcases queueStep_cases h with ⟨b, lock, waits, rfl, -, hst, rfl⟩ | ⟨cond, rfl, rfl⟩ | ⟨rfl, hwaits, -⟩
  · have hgoto : ∀ t pc, pc ≠ .falseTest → ∀ u, (s.waits.goto t pc).pc u ≠ .falseTest := fun t pc hpc =>
      forall_goto (· ≠ .falseTest) hi hpc
    rcases step_cases hst with ⟨t, rfl, -, rfl⟩ | ⟨t, rfl, -, rfl⟩ | ⟨t, -, hpc, -⟩ | ⟨t, rfl, -, -, rfl⟩ |
      ⟨t, rfl, -, rfl⟩ | ⟨t, rfl, -, rfl⟩ | ⟨rfl, rfl⟩ | ⟨t, e, rfl, -, rfl⟩
    · exact ⟨hgoto t _ (by simp), trivial⟩
    · have hcond : s.waits.cond = true := ha
      exact ⟨hgoto t _ (by simp [hcond]), trivial⟩
    · exact absurd hpc (hi t)
    · exact ⟨hgoto t _ (by simp), trivial⟩
    · exact ⟨hgoto t _ (by simp), trivial⟩
    · exact ⟨forall_wakeup (· ≠ .falseTest) (hgoto t _ (by simp)) (by simp) lock, trivial⟩
    · exact ⟨hi, trivial⟩
    · exact ⟨hgoto t _ (by simp), trivial⟩
  · exact ⟨hi, trivial⟩
  · refine ⟨fun t => ?_, trivial⟩
    rw [hwaits]
    exact hi t

/-! ## Runs -/

/-- A run keeps the lock discipline exactly if no thread calls `IOLockSleep`, so if all tests of
the condition are true; and when a thread first finds the condition false, its next step breaks
the discipline. -/
theorem lock_disciplined_iff {lockAddr ioLockAlloc : E} {cond : Bool} {tr : List (Tr (Queue T E) (QueueAct T))}
    {s : Queue T E} (h : Run (QueueStep lockAddr) (Queue.init ioLockAlloc cond) tr s) :
    ((∀ x ∈ tr, Disciplined x) ↔ ∀ x ∈ tr, Awake x.act) ∧
      ((∀ x ∈ tr, TestsTrue x.pre x.act) → ∀ x ∈ tr, Disciplined x) ∧
      ((∀ x ∈ tr, Disciplined x) → ∀ t, s.waits.pc t = .falseTest → s.lock ≠ none →
        ∃ s', QueueStep lockAddr s (.thread (.sleep t)) s' ∧ ¬ Disciplined ⟨s, .thread (.sleep t), s'⟩) := by
  have hiff := h.forall_iff Unused (fun _ a => Awake a) Disciplined unused_init
    (fun _ _ _ hi ha hst => unused_step hi ha hst) fun _ _ _ hi hst => disciplined_iff_awake hi hst
  refine ⟨hiff, fun htrue => hiff.2 ?_, fun hdisc t hpc hlock => ?_⟩
  · have hnone : NoneFalse (Queue.init ioLockAlloc cond : Queue T E) := fun t => by simp [Queue.init, Wait.init]
    have hall := (h.inv_of_cond NoneFalse TestsTrue hnone
      (fun _ _ _ hi ha hst => (noneFalse_step hi ha hst).1) htrue).2
    intro x hx
    obtain ⟨hpre, hst, -⟩ := hall x hx
    exact (noneFalse_step hpre (htrue x hx) hst).2
  · have hunused := (h.inv_of_cond Unused (fun _ a => Awake a) unused_init
      (fun _ _ _ hi ha hst => unused_step hi ha hst) (hiff.1 hdisc)).1
    obtain ⟨lock, hlock⟩ := Option.ne_none_iff_exists'.1 hlock
    have hst : QueueStep lockAddr s (.thread (.sleep t))
        { s with waits := ioLockSleep s.waits t lockAddr, entry := entryAfter s (.sleep t) } := by
      simp [QueueStep, queueStep, hlock, step, hpc]
    exact ⟨_, hst, fun hd => (disciplined_iff_awake hunused hst).1 hd⟩

/-- One thread finds the condition false, sleeps, wakes up and finds it true. It called
`IOLockSleep` without the lock, ends its wait with it, and the queue is destroyed with the
lock held. The queue is at 0x1000 and its lock at 0x2000. -/
theorem lock_not_disciplined : ∃ (tr : List (Tr (Queue ℕ ℕ) (QueueAct ℕ))) (s : Queue ℕ ℕ),
    Run (QueueStep 0x1000) (Queue.init 0x2000 false) tr s ∧
      tr.map (·.act) = [.thread (.wait 0), .thread (.eval 0), .thread (.sleep 0), .setCond true,
        .thread (.spurious 0), .thread (.relock 0), .thread (.eval 0), .destroy] ∧
      s.waits.holder = some 0 ∧ s.lock = none ∧ ¬ ∀ x ∈ tr, Disciplined x := by
  obtain ⟨tr, s, he, hholder, hlock, x, hx, hact, hpre⟩ : ∃ (tr : List (Tr (Queue ℕ ℕ) (QueueAct ℕ)))
      (s : Queue ℕ ℕ), exec (queueStep 0x1000) (Queue.init 0x2000 false) [.thread (.wait 0), .thread (.eval 0),
        .thread (.sleep 0), .setCond true, .thread (.spurious 0), .thread (.relock 0), .thread (.eval 0),
        .destroy] = some (tr, s) ∧ s.waits.holder = some 0 ∧ s.lock = none ∧
      ∃ x ∈ tr, x.act = .thread (.sleep 0) ∧ x.pre.waits.holder = none :=
    ⟨_, _, rfl, rfl, rfl, _, List.mem_cons_of_mem _ (List.mem_cons_of_mem _ List.mem_cons_self), rfl, rfl⟩
  obtain ⟨hr, hacts⟩ := run_of_exec (queueStep 0x1000) _ _ he
  refine ⟨tr, s, hr, hacts, hholder, hlock, fun hall => ?_⟩
  have hx := hall x hx
  simp [Disciplined, hact, hpre] at hx

/-- A wait that finds the condition true at once. -/
theorem lock_disciplined_iff_true : ∃ (tr : List (Tr (Queue ℕ ℕ) (QueueAct ℕ))) (s : Queue ℕ ℕ),
    Run (QueueStep 0x1000) (Queue.init 0x2000 true) tr s ∧ s.lock = none ∧ ∀ x ∈ tr, Disciplined x := by
  obtain ⟨tr, s, he, hlock, htrue⟩ : ∃ (tr : List (Tr (Queue ℕ ℕ) (QueueAct ℕ))) (s : Queue ℕ ℕ),
      exec (queueStep 0x1000) (Queue.init 0x2000 true) [.thread (.wait 0), .thread (.eval 0), .destroy] =
        some (tr, s) ∧ s.lock = none ∧ ∀ x ∈ tr, TestsTrue x.pre x.act :=
    ⟨_, _, rfl, rfl, by simp [TestsTrue, Queue.init, Wait.init, State.goto]⟩
  have hr := (run_of_exec (queueStep 0x1000) _ _ he).1
  exact ⟨tr, s, hr, hlock, (lock_disciplined_iff hr).2.1 htrue⟩

/-! ## Behind the first sleeper -/

end PortingKit.Linux.Wait
