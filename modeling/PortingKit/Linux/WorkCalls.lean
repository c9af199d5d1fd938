import Mathlib.Data.Fintype.Basic
import PortingKit.Lib.LazyInit
import PortingKit.Linux.UnitFlush
/-!
# The steps inside schedule_work and flush_scheduled_work

Each of the two reads `gSystemWorkQueue` several times and may be interrupted in
between. A call is as good as a single step of `Workqueue.step` unless it finds
no queue while another call of its unit is about to store one, or the item is
set up again while it is being scheduled. A queue that is created is a cell of
its own, so that what a race makes of it can be seen.
-/
open PortingKit.Lib

namespace PortingKit.Linux.Workqueue.Calls

/-- What a call will do next. -/
inductive Call (U W F : Type) where
  | idle
  /-- The test in `ensure_system_workqueue_initialized`. -/
  | ensure (u : U) (work : Option W)
  /-- `IODispatchQueue::create`. -/
  | create (u : U) (work : Option W)
  /-- The assignment of what it answered. -/
  | store (u : U) (work : Option W) (queue : Nat)
  /-- The tests in `schedule_work`. -/
  | test (u : U) (work : Option W)
  /-- The copy of `*work`. -/
  | capture (u : U) (work : W)
  /-- `dispatchAsync`, with the function that was copied. -/
  | dispatch (u : U) (work : W) (func : Option F)
  /-- The test in `flush_scheduled_work`. -/
  | flushTest (u : U)
  /-- `dispatchSync`. -/
  | flushSync (u : U)

structure Queue (T F : Type) where
  /-- Each with the function it calls, which may be NULL. -/
  blocks : List (Block T (Option F))
  running : Option Nat

structure State (T U W F : Type) where
  func : W → Option F
  /-- Each unit's queue, or NULL. -/
  gSystemWorkQueue : U → Option Nat
  queues : Nat → Queue T F
  /-- How many queues have been created. -/
  made : Nat
  calls : T → Call U W F
  /-- Where a thread is in `dispatchSync`. -/
  pc : T → Pc
  accepted : List (U × W)
  started : List (Started W F)
  finished : List Nat
  flushed : List Nat

inductive Act (T U W F : Type) where
  | initWork (w : W) (fn : Option F)
  | scheduleWork (t : T) (u : U) (work : Option W)
  | flush (t : T) (u : U)
  /-- The call the thread is in goes on. -/
  | advance (t : T)
  | flushReturn (t : T)
  | run (q : Nat)
  | done (q : Nat)

variable {T U W F : Type} [DecidableEq T] [DecidableEq U] [DecidableEq W]

def State.goto (s : State T U W F) (t : T) (c : Call U W F) : State T U W F :=
  { s with calls := Function.update s.calls t c }

def State.set (s : State T U W F) (q : Nat) (queue : Queue T F) : State T U W F :=
  { s with queues := Function.update s.queues q queue }

/-- A block is put behind the others of a queue. -/
def State.put (s : State T U W F) (q : Nat) (b : Block T (Option F)) : State T U W F :=
  s.set q { s.queues q with blocks := (s.queues q).blocks ++ [b] }

/-- The next step of a call. -/
def advance (s : State T U W F) (t : T) : Option (State T U W F) :=
  match s.calls t with
  | .idle => none
  | .ensure u work =>
    match s.gSystemWorkQueue u with
    | none => some (s.goto t (.create u work))
    | some _ => some (s.goto t (.test u work))
  | .create u work => some { s.goto t (.store u work s.made) with made := s.made + 1 }
  | .store u work q =>
    some { s.goto t (.test u work) with gSystemWorkQueue := Function.update s.gSystemWorkQueue u (some q) }
  | .test u work =>
    match s.gSystemWorkQueue u, work with
    | some _, some w =>
      match s.func w with
      | some _ => some (s.goto t (.capture u w))
      | none => some (s.goto t .idle)
    | _, _ => some (s.goto t .idle)
  | .capture u w => some (s.goto t (.dispatch u w (s.func w)))
  | .dispatch u w func =>
    match s.gSystemWorkQueue u with
    | some q =>
      some { (s.goto t .idle).put q (.work s.accepted.length func) with accepted := s.accepted ++ [(u, w)] }
    | none => none
  | .flushTest u =>
    match s.gSystemWorkQueue u with
    | some _ => some (s.goto t (.flushSync u))
    | none => some { s.goto t .idle with flushed := s.flushed ++ [s.accepted.length] }
  | .flushSync u =>
    match s.gSystemWorkQueue u with
    | some q =>
      some { (s.goto t .idle).put q (.barrier t s.accepted.length) with pc := Function.update s.pc t .waiting }
    | none => none

/-- A queue takes its next block. One that calls NULL is the end. -/
def runNext (s : State T U W F) (q : Nat) : Option (State T U W F) :=
  match (s.queues q).running, (s.queues q).blocks with
  | none, .work id (some f) :: blocks =>
    some { s.set q ⟨blocks, some id⟩ with started := s.started ++ [⟨id, f, .captured id⟩] }
  | none, .barrier t accepted :: blocks =>
    some { s.set q ⟨blocks, none⟩ with pc := Function.update s.pc t (.ran accepted) }
  | _, _ => none

def step (s : State T U W F) : Act T U W F → Option (State T U W F)
  | .initWork w fn => some { s with func := Function.update s.func w fn }
  | .scheduleWork t u work =>
    match s.calls t, s.pc t with
    | .idle, .idle => some (s.goto t (.ensure u work))
    | _, _ => none
  | .flush t u =>
    match s.calls t, s.pc t with
    | .idle, .idle => some (s.goto t (.flushTest u))
    | _, _ => none
  | .advance t => advance s t
  | .flushReturn t =>
    match s.pc t with
    | .ran accepted => some { s with pc := Function.update s.pc t .idle, flushed := s.flushed ++ [accepted] }
    | _ => none
  | .run q => runNext s q
  | .done q =>
    match (s.queues q).running with
    | some id => some { s.set q { s.queues q with running := none } with finished := s.finished ++ [id] }
    | none => none

abbrev Step (s : State T U W F) (a : Act T U W F) (s' : State T U W F) : Prop := step s a = some s'

def init (func : W → Option F) : State T U W F :=
  ⟨func, fun _ => none, fun _ => ⟨[], none⟩, 0, fun _ => .idle, fun _ => .idle, [], [], [], []⟩

/-- What a step does, by cases. -/
inductive Does (s : State T U W F) : Act T U W F → State T U W F → Prop
  | initWork (w : W) (fn : Option F) : Does s (.initWork w fn) { s with func := Function.update s.func w fn }
  | scheduleWork (t : T) (u : U) (work : Option W) : s.calls t = .idle → s.pc t = .idle →
    Does s (.scheduleWork t u work) (s.goto t (.ensure u work))
  | flush (t : T) (u : U) : s.calls t = .idle → s.pc t = .idle → Does s (.flush t u) (s.goto t (.flushTest u))
  | missing {t : T} {u : U} {work : Option W} : s.calls t = .ensure u work → s.gSystemWorkQueue u = none →
    Does s (.advance t) (s.goto t (.create u work))
  | found {t : T} {u : U} {work : Option W} {q : Nat} : s.calls t = .ensure u work → s.gSystemWorkQueue u = some q →
    Does s (.advance t) (s.goto t (.test u work))
  | create {t : T} {u : U} {work : Option W} : s.calls t = .create u work →
    Does s (.advance t) { s.goto t (.store u work s.made) with made := s.made + 1 }
  | store {t : T} {u : U} {work : Option W} {q : Nat} : s.calls t = .store u work q →
    Does s (.advance t)
      { s.goto t (.test u work) with gSystemWorkQueue := Function.update s.gSystemWorkQueue u (some q) }
  | refused {t : T} {u : U} {work : Option W} : s.calls t = .test u work → Does s (.advance t) (s.goto t .idle)
  | passed {t : T} {u : U} {w : W} {f : F} {q : Nat} : s.calls t = .test u (some w) →
    s.gSystemWorkQueue u = some q → s.func w = some f → Does s (.advance t) (s.goto t (.capture u w))
  | capture {t : T} {u : U} {w : W} : s.calls t = .capture u w →
    Does s (.advance t) (s.goto t (.dispatch u w (s.func w)))
  | dispatch {t : T} {u : U} {w : W} {func : Option F} {q : Nat} : s.calls t = .dispatch u w func →
    s.gSystemWorkQueue u = some q → Does s (.advance t)
      { (s.goto t .idle).put q (.work s.accepted.length func) with accepted := s.accepted ++ [(u, w)] }
  | flushNothing {t : T} {u : U} : s.calls t = .flushTest u → s.gSystemWorkQueue u = none →
    Does s (.advance t) { s.goto t .idle with flushed := s.flushed ++ [s.accepted.length] }
  | flushFound {t : T} {u : U} {q : Nat} : s.calls t = .flushTest u → s.gSystemWorkQueue u = some q →
    Does s (.advance t) (s.goto t (.flushSync u))
  | flushSync {t : T} {u : U} {q : Nat} : s.calls t = .flushSync u → s.gSystemWorkQueue u = some q →
    Does s (.advance t)
      { (s.goto t .idle).put q (.barrier t s.accepted.length) with pc := Function.update s.pc t .waiting }
  | flushReturn {t : T} {n : Nat} : s.pc t = .ran n →
    Does s (.flushReturn t) { s with pc := Function.update s.pc t .idle, flushed := s.flushed ++ [n] }
  | runWork {q id : Nat} {f : F} {blocks : List (Block T (Option F))} : (s.queues q).running = none →
    (s.queues q).blocks = .work id (some f) :: blocks →
    Does s (.run q) { s.set q ⟨blocks, some id⟩ with started := s.started ++ [⟨id, f, .captured id⟩] }
  | runBarrier {q n : Nat} {t : T} {blocks : List (Block T (Option F))} : (s.queues q).running = none →
    (s.queues q).blocks = .barrier t n :: blocks →
    Does s (.run q) { s.set q ⟨blocks, none⟩ with pc := Function.update s.pc t (.ran n) }
  | done {q id : Nat} : (s.queues q).running = some id →
    Does s (.done q) { s.set q { s.queues q with running := none } with finished := s.finished ++ [id] }

theorem goto_does {s s' : State T U W F} {t : T} {c : Call U W F} {a : Act T U W F}
    (h : (match s.calls t, s.pc t with | .idle, .idle => some (s.goto t c) | _, _ => none) = some s')
    (hd : s.calls t = .idle → s.pc t = .idle → Does s a (s.goto t c)) : Does s a s' := by
  split at h
  · cases h
    exact hd ‹_› ‹_›
  · cases h

theorem advance_does {s s' : State T U W F} {t : T} (h : advance s t = some s') : Does s (.advance t) s' := by
  unfold advance at h
  split at h
  · cases h
  · split at h <;> cases h
    · exact .missing ‹_› ‹_›
    · exact .found ‹_› ‹_›
  · cases h
    exact .create ‹_›
  · cases h
    exact .store ‹_›
  · split at h
    · split at h <;> cases h
      · exact .passed ‹_› ‹_› ‹_›
      · exact .refused ‹_›
    · cases h
      exact .refused ‹_›
  · cases h
    exact .capture ‹_›
  · split at h <;> cases h
    exact .dispatch ‹_› ‹_›
  · split at h <;> cases h
    · exact .flushFound ‹_› ‹_›
    · exact .flushNothing ‹_› ‹_›
  · split at h <;> cases h
    exact .flushSync ‹_› ‹_›

theorem step_does {s s' : State T U W F} {a : Act T U W F} (h : Step s a s') : Does s a s' := by
  cases a with
  | initWork w fn => cases h; exact .initWork w fn
  | scheduleWork t u work => exact goto_does h (.scheduleWork t u work)
  | flush t u => exact goto_does h (.flush t u)
  | advance t => exact advance_does h
  | flushReturn t =>
    simp only [Step, step] at h
    split at h
    · cases h; exact .flushReturn ‹_›
    · cases h
  | run q =>
    simp only [Step, step, runNext] at h
    split at h
    · cases h; exact .runWork ‹_› ‹_›
    · cases h; exact .runBarrier ‹_› ‹_›
    · cases h
  | done q =>
    simp only [Step, step] at h
    split at h
    · cases h; exact .done ‹_›
    · cases h

variable {s s' : State T U W F}

/-! ## Making a queue -/

/-- The unit a call makes a queue for, and the queue once it is made. -/
def Call.making : Call U W F → Option (U × Option Nat)
  | .create u _ => some (u, none)
  | .store u _ q => some (u, some q)
  | _ => none

/-- How the units get their queues. -/
def State.lazy (s : State T U W F) : Lazy T U := ⟨s.gSystemWorkQueue, s.made, fun t => (s.calls t).making⟩

def Makes (u : U) (c : Call U W F) : Prop := c.making.map (·.1) = some u

instance (u : U) (c : Call U W F) : Decidable (Makes u c) := inferInstanceAs (Decidable (_ = _))

/-- A call does not find that there is no queue while another one makes it. -/
def Alone (s : State T U W F) : Call U W F → Prop
  | .ensure u _ => s.gSystemWorkQueue u = none → ∀ t, ¬ Makes u (s.calls t)
  | _ => True

instance [Fintype T] (s : State T U W F) (c : Call U W F) : Decidable (Alone s c) :=
  match c with
  | .ensure u _ => inferInstanceAs (Decidable (s.gSystemWorkQueue u = none → ∀ t, ¬ Makes u (s.calls t)))
  | .idle | .create .. | .store .. | .test .. | .capture .. | .dispatch .. | .flushTest _ | .flushSync _ => .isTrue trivial

/-- The step is not one of a call that finds no queue while another makes it. -/
def Sole (s : State T U W F) : Act T U W F → Prop
  | .advance t => Alone s (s.calls t)
  | _ => True

omit [DecidableEq T] [DecidableEq U] [DecidableEq W] in
theorem lazy_makes {t : T} {u : U} : s.lazy.Makes t u ↔ Makes u (s.calls t) := by
  unfold Makes
  rw [Option.map_eq_some_iff]
  constructor
  · rintro ⟨q, hq⟩
    exact ⟨(u, q), hq, rfl⟩
  · rintro ⟨⟨v, q⟩, hq, rfl⟩
    exact ⟨q, hq⟩

omit [DecidableEq U] [DecidableEq W] in
theorem lazy_calls {t : T} {c : Call U W F} (hc : s'.calls = Function.update s.calls t c) :
    s'.lazy = ⟨s'.gSystemWorkQueue, s'.made, Function.update s.lazy.making t c.making⟩ := by
  unfold State.lazy
  congr 1
  funext t'
  rw [hc]
  by_cases e : t' = t
  · subst e
    simp
  · simp [e]

omit [DecidableEq U] [DecidableEq W] in
/-- A step of a call that makes nothing. -/
theorem lazy_plain {t : T} {c : Call U W F} (hc : s'.calls = Function.update s.calls t c)
    (hg : s'.gSystemWorkQueue = s.gSystemWorkQueue) (hm : s'.made = s.made) (ht : (s.calls t).making = c.making) :
    s'.lazy = s.lazy := by
  have hself : Function.update s.lazy.making t c.making = s.lazy.making := Function.update_eq_self_iff.2 ht.symm
  rw [lazy_calls hc, hself, hg, hm]
  rfl

omit [DecidableEq W] in
theorem lazy_step {t : T} {c : Call U W F} {b : Lazy.Act T U} (hc : s'.calls = Function.update s.calls t c)
    (h : Lazy.Step s.lazy b ⟨s'.gSystemWorkQueue, s'.made, Function.update s.lazy.making t c.making⟩) :
    Lazy.Step s.lazy b s'.lazy := by
  rw [lazy_calls hc]
  exact h

/-- A step is one of the lazy initialisation, or none. -/
theorem step_lazy {a : Act T U W F} (hst : Step s a s') : s'.lazy = s.lazy ∧ Sole s a ∨
    ∃ b, Lazy.Step s.lazy b s'.lazy ∧ (s.lazy.Alone b ↔ Sole s a) := by
  have hplain : ∀ {t : T} {c c' : Call U W F}, s.calls t = c → s'.calls = Function.update s.calls t c' →
      s'.gSystemWorkQueue = s.gSystemWorkQueue → s'.made = s.made → c.making = c'.making → Sole s a →
      s'.lazy = s.lazy ∧ Sole s a ∨ ∃ b, Lazy.Step s.lazy b s'.lazy ∧ (s.lazy.Alone b ↔ Sole s a) :=
    fun hcall hc hg hm ht hsole => .inl ⟨lazy_plain hc hg hm (by rw [hcall, ht]), hsole⟩
  have hsole : ∀ {t : T} {c : Call U W F}, s.calls t = c → (∀ u work, c ≠ .ensure u work) → Sole s (.advance t) := by
    intro t c hcall hne
    change Alone s (s.calls t)
    rw [hcall]
    unfold Alone
    split
    · exact absurd rfl (hne _ _)
    · trivial
  cases step_does hst with
  | initWork | flushReturn _ | runWork _ _ | runBarrier _ _ | done _ => exact .inl ⟨rfl, trivial⟩
  | scheduleWork t u work hcall _ | flush t u hcall _ => exact hplain hcall rfl rfl rfl rfl trivial
  | @missing t u work hcall hnone =>
    refine .inr ⟨.find t u, lazy_step rfl (.find ?_ hnone), ?_⟩
    · simp [State.lazy, hcall, Call.making]
    · simp only [Sole, hcall, Alone, hnone, forall_const, ← lazy_makes]
      exact ⟨fun h t' ⟨v, hv⟩ => h t' v hv, fun h t' v hv => h t' ⟨v, hv⟩⟩
  | @found t u work q hcall hq => exact hplain hcall rfl rfl rfl rfl (by simp [Sole, hcall, Alone, hq])
  | @create t u work hcall =>
    refine .inr ⟨.make t, lazy_step rfl (.make ?_), iff_of_true trivial (hsole hcall (by simp))⟩
    simp [State.lazy, hcall, Call.making]
  | @store t u work q hcall =>
    refine .inr ⟨.store t, lazy_step rfl (.store ?_), iff_of_true trivial (hsole hcall (by simp))⟩
    simp [State.lazy, hcall, Call.making]
  | refused hcall | passed hcall _ _ | capture hcall | dispatch hcall _ | flushNothing hcall _ | flushFound hcall _
  | flushSync hcall _ => exact hplain hcall rfl rfl rfl rfl (hsole hcall (by simp))

/-! ## Whole calls -/

/-- The block of a whole call, which never calls NULL. -/
def called : Block T (Option F) → Option (Block T F)
  | .work id func => func.map (.work id)
  | .barrier t n => some (.barrier t n)

/-- The state of the model of whole calls: the calls under way are not seen, nor a
queue that no unit has. -/
def State.whole (s : State T U W F) : Workqueue.State T U W F where
  func := s.func
  gSystemWorkQueue u := (s.gSystemWorkQueue u).map fun q => (s.queues q).blocks.filterMap called
  running u := (s.gSystemWorkQueue u).bind fun q => (s.queues q).running
  pc := s.pc
  accepted := s.accepted
  started := s.started
  finished := s.finished
  flushed := s.flushed

/-- A call that has seen a function in the item and has not dispatched its block yet. -/
def Schedules (w : W) : Call U W F → Prop
  | .capture _ w' | .dispatch _ w' _ => w' = w
  | _ => False

instance (w : W) (c : Call U W F) : Decidable (Schedules w c) :=
  match c with
  | .capture _ w' | .dispatch _ w' _ => inferInstanceAs (Decidable (w' = w))
  | .idle | .ensure .. | .create .. | .store .. | .test .. | .flushTest _ | .flushSync _ => .isFalse id

/-- The calls of a unit are kept apart while its queue is made, and no item is set up
again while it is being scheduled. -/
def Apart (s : State T U W F) : Act T U W F → Prop
  | .initWork w _ => ∀ t, ¬ Schedules w (s.calls t)
  | a => Sole s a

instance [Fintype T] (s : State T U W F) (a : Act T U W F) : Decidable (Apart s a) :=
  match a with
  | .initWork w _ => inferInstanceAs (Decidable (∀ t, ¬ Schedules w (s.calls t)))
  | .advance t => inferInstanceAs (Decidable (Alone s (s.calls t)))
  | .scheduleWork .. | .flush .. | .flushReturn _ | .run _ | .done _ => .isTrue trivial

omit [DecidableEq T] [DecidableEq U] [DecidableEq W] in
theorem Apart.sole {a : Act T U W F} (h : Apart s a) : Sole s a := by
  cases a with
  | initWork => trivial
  | _ => exact h

/-- The step at which a call takes effect: where `schedule_work` dispatches its block,
and where a flush dispatches its own or finds that there is no queue. -/
def TakesEffect (s : State T U W F) : Call U W F → U → Prop
  | .dispatch u _ _, v | .flushSync u, v => v = u
  | .flushTest u, v => v = u ∧ s.gSystemWorkQueue u = none
  | _, _ => False

/-- A call takes effect only from the unit that all unfinished work is from. -/
def OneUnit (s : State T U W F) : Act T U W F → Prop
  | .advance t => ∀ u, TakesEffect s (s.calls t) u → Only s.whole u
  | _ => True

instance (s : State T U W F) (c : Call U W F) (v : U) : Decidable (TakesEffect s c v) :=
  match c with
  | .dispatch u _ _ | .flushSync u => inferInstanceAs (Decidable (v = u))
  | .flushTest u => inferInstanceAs (Decidable (v = u ∧ s.gSystemWorkQueue u = none))
  | .idle | .ensure .. | .create .. | .store .. | .test .. | .capture .. => .isFalse id

instance [Fintype U] (s : State T U W F) (a : Act T U W F) : Decidable (OneUnit s a) :=
  match a with
  | .advance t => inferInstanceAs (Decidable (∀ u, TakesEffect s (s.calls t) u → Only s.whole u))
  | .initWork .. | .scheduleWork .. | .flush .. | .flushReturn _ | .run _ | .done _ => .isTrue trivial

/-- What a call relies on at each place. -/
def Fits (s : State T U W F) : Call U W F → Prop
  | .test u _ | .flushSync u => s.gSystemWorkQueue u ≠ none
  | .capture u w => s.gSystemWorkQueue u ≠ none ∧ s.func w ≠ none
  | .dispatch u w func => s.gSystemWorkQueue u ≠ none ∧ s.func w = func ∧ func ≠ none
  | _ => True

/-- Each unit has at most one queue for good, and each queue at most one unit. -/
structure Inv (s : State T U W F) : Prop where
  named : s.lazy.Named
  tidy : s.lazy.Tidy
  fits : ∀ t, Fits s (s.calls t)
  busy : ∀ t, s.calls t ≠ .idle → s.pc t = .idle
  /-- A queue that no unit has is empty. -/
  empty : ∀ q, (∀ u, s.gSystemWorkQueue u ≠ some q) → s.queues q = ⟨[], none⟩
  /-- No block calls NULL. -/
  callable : ∀ q id, .work id none ∉ (s.queues q).blocks

omit [DecidableEq T] [DecidableEq U] [DecidableEq W] in
theorem inv_init (func : W → Option F) : Inv (init func : State T U W F) where
  named := Lazy.named_init
  tidy := Lazy.tidy_init
  fits _ := trivial
  busy _ _ := rfl
  empty _ _ := rfl
  callable _ _ h := by cases h

omit [DecidableEq T] [DecidableEq U] [DecidableEq W] in
theorem Inv.single (hi : Inv s) {u v : U} {q : Nat} (hu : s.gSystemWorkQueue u = some q)
    (hv : s.gSystemWorkQueue v = some q) : u = v :=
  Sum.inr_injective (hi.named.sole q (.inr u) (.inr v) hu hv)

omit [DecidableEq T] [DecidableEq U] [DecidableEq W] in
/-- A queue with anything on it is some unit's. -/
theorem Inv.unit (hi : Inv s) {q : Nat} (h : s.queues q ≠ ⟨[], none⟩) : ∃ u, s.gSystemWorkQueue u = some q := by
  by_contra hno
  exact h (hi.empty q fun u hu => hno ⟨u, hu⟩)

omit [DecidableEq T] [DecidableEq U] [DecidableEq W] in
/-- The unit of a queue that is about to be stored has none, and no unit has that queue. -/
theorem Inv.storing (hi : Inv s) {t : T} {u : U} {work : Option W} {q : Nat} (hcall : s.calls t = .store u work q) :
    s.gSystemWorkQueue u = none ∧ s.queues q = ⟨[], none⟩ := by
  have hmaking : s.lazy.making t = some (u, some q) := by simp [State.lazy, hcall, Call.making]
  refine ⟨hi.tidy.vacant t u ⟨_, hmaking⟩, hi.empty q fun v hv => ?_⟩
  cases hi.named.sole q (.inl t) (.inr v) ⟨u, hmaking⟩ hv

/-! ## What a step keeps -/

omit [DecidableEq T] [DecidableEq U] [DecidableEq W] in
theorem Fits.mono {c : Call U W F} (hf : ∀ w, Schedules w c → s'.func w = s.func w)
    (hg : ∀ u, s.gSystemWorkQueue u ≠ none → s'.gSystemWorkQueue u ≠ none) (h : Fits s c) : Fits s' c := by
  cases c with
  | test u _ | flushSync u => exact hg u h
  | capture u w =>
    refine ⟨hg u h.1, ?_⟩
    rw [hf w rfl]
    exact h.2
  | dispatch u w func => exact ⟨hg u h.1, (hf w rfl).trans h.2.1, h.2.2⟩
  | _ => trivial

/-- A unit that has a queue keeps having one. -/
theorem queue_step {a : Act T U W F} (hst : Step s a s') (u : U) (h : s.gSystemWorkQueue u ≠ none) :
    s'.gSystemWorkQueue u ≠ none := by
  cases step_does hst with
  | @store t v work q _ =>
    by_cases e : u = v
    · simp [e]
    · simpa [Function.update_of_ne e] using h
  | _ => exact h

theorem func_step {a : Act T U W F} (hc : Apart s a) (hst : Step s a s') {t : T} {w : W} (h : Schedules w (s.calls t)) :
    s'.func w = s.func w := by
  cases step_does hst with
  | initWork w' fn => exact Function.update_of_ne (fun e : w = w' => hc t (e ▸ h)) _ _
  | _ => rfl

theorem fits_step {a : Act T U W F} (hi : ∀ t, Fits s (s.calls t)) (hc : Apart s a) (hst : Step s a s') :
    ∀ t, Fits s' (s'.calls t) := by
  have hold : ∀ t, Fits s' (s.calls t) := fun t => (hi t).mono (fun _ => func_step hc hst) (queue_step hst)
  have hmoved : ∀ {t : T} {c : Call U W F}, s'.calls = Function.update s.calls t c → Fits s' c → ∀ t, Fits s' (s'.calls t) := by
    intro t c hcalls hfits
    rw [hcalls, Function.forall_update_iff s.calls fun _ c => Fits s' c]
    exact ⟨hfits, fun t' _ => hold t'⟩
  cases step_does hst with
  | initWork | flushReturn _ | runWork _ _ | runBarrier _ _ | done _ => exact hold
  | found _ hq => exact hmoved rfl (by simp [Fits, State.goto, hq])
  | store _ => exact hmoved rfl (by simp [Fits])
  | passed _ hq hf => exact hmoved rfl (by simp [Fits, State.goto, hq, hf])
  | @capture t u w hcall =>
    have hfits := hi t
    rw [hcall] at hfits
    exact hmoved rfl ⟨hfits.1, rfl, hfits.2⟩
  | flushFound _ hq => exact hmoved rfl (by simp [Fits, State.goto, hq])
  | _ => exact hmoved rfl trivial

/-- A thread waits for its block or is in a call, never both. -/
theorem busy_step {a : Act T U W F} (h : ∀ t, s.calls t ≠ .idle → s.pc t = .idle)
    (hw : ∀ q t n, .barrier t n ∈ (s.queues q).blocks → s.pc t = .waiting) (hst : Step s a s') :
    ∀ t, s'.calls t ≠ .idle → s'.pc t = .idle := by
  have hmoved : ∀ {t : T} {c : Call U W F}, s'.calls = Function.update s.calls t c → (∀ t', t' ≠ t → s'.pc t' = s.pc t') →
      (c ≠ .idle → s'.pc t = .idle) → ∀ t, s'.calls t ≠ .idle → s'.pc t = .idle := by
    intro t c hcalls hp ht t' hne
    rw [hcalls] at hne
    by_cases e : t' = t
    · subst e
      rw [Function.update_self] at hne
      exact ht hne
    · rw [Function.update_of_ne e] at hne
      rw [hp t' e]
      exact h t' hne
  cases step_does hst with
  | initWork | runWork _ _ | done _ => exact h
  | scheduleWork _ _ _ _ hpc | flush _ _ _ hpc => exact hmoved rfl (fun _ _ => rfl) fun _ => hpc
  | missing hcall _ | found hcall _ | create hcall | store hcall | passed hcall _ _ | capture hcall | flushFound hcall _ =>
    exact hmoved rfl (fun _ _ => rfl) fun _ => h _ (by rw [hcall]; simp)
  | refused _ | dispatch _ _ | flushNothing _ _ => exact hmoved rfl (fun _ _ => rfl) (absurd rfl)
  | flushSync _ _ => exact hmoved rfl (fun t' e => Function.update_of_ne e _ _) (absurd rfl)
  | @flushReturn t n _ =>
    intro t' hne
    by_cases e : t' = t
    · simp [e]
    · simp only [Function.update_of_ne e]
      exact h t' hne
  | @runBarrier q n t blocks _ hblocks =>
    intro t' hne
    have hidle := h t' hne
    have e : t' ≠ t := fun e => by
      rw [e, hw q t n (by rw [hblocks]; exact List.mem_cons_self)] at hidle
      cases hidle
    simp only [Function.update_of_ne e]
    exact hidle

theorem empty_step {a : Act T U W F} (hi : Inv s) (hst : Step s a s') :
    ∀ q, (∀ u, s'.gSystemWorkQueue u ≠ some q) → s'.queues q = ⟨[], none⟩ := by
  have hset : ∀ {q : Nat} {queue : Queue T F}, (∃ u, s.gSystemWorkQueue u = some q) →
      s'.queues = Function.update s.queues q queue → s'.gSystemWorkQueue = s.gSystemWorkQueue →
      ∀ p, (∀ u, s'.gSystemWorkQueue u ≠ some p) → s'.queues p = ⟨[], none⟩ := by
    intro q queue hu hq hg p hp
    obtain ⟨u, hu⟩ := hu
    rw [hg] at hp
    rw [hq, Function.update_of_ne fun e : p = q => hp u (e.symm ▸ hu)]
    exact hi.empty p hp
  cases step_does hst with
  | dispatch _ hq | flushSync _ hq => exact hset ⟨_, hq⟩ rfl rfl
  | runWork _ hblocks | runBarrier _ hblocks => exact hset (hi.unit fun e => by simp [e] at hblocks) rfl rfl
  | done hrun => exact hset (hi.unit fun e => by simp [e] at hrun) rfl rfl
  | @store t u work q hcall =>
    intro p hp
    refine hi.empty p fun v hv => hp v ?_
    have e : v ≠ u := fun e => by
      rw [e, (hi.storing hcall).1] at hv
      cases hv
    simpa only [Function.update_of_ne e] using hv
  | _ => exact hi.empty

theorem callable_step {a : Act T U W F} (hi : Inv s) (hst : Step s a s') : ∀ q id, .work id none ∉ (s'.queues q).blocks := by
  have hset : ∀ {q : Nat} {queue : Queue T F}, s'.queues = Function.update s.queues q queue →
      (∀ id, .work id none ∈ queue.blocks → .work id none ∈ (s.queues q).blocks) → ∀ p id, .work id none ∉ (s'.queues p).blocks := by
    intro q queue hq hsub p id hmem
    rw [hq] at hmem
    by_cases e : p = q
    · subst e
      rw [Function.update_self] at hmem
      exact hi.callable p id (hsub id hmem)
    · rw [Function.update_of_ne e] at hmem
      exact hi.callable p id hmem
  cases step_does hst with
  | @dispatch t u w func q hcall hq =>
    have hfits := hi.fits t
    rw [hcall] at hfits
    refine hset (q := q) rfl fun id hmem => ?_
    rcases List.mem_append.1 hmem with hold | hnew
    · exact hold
    · cases List.mem_singleton.1 hnew
      exact absurd rfl hfits.2.2
  | @flushSync t u q _ _ =>
    refine hset (q := q) rfl fun id hmem => ?_
    rcases List.mem_append.1 hmem with hold | hnew
    · exact hold
    · cases List.mem_singleton.1 hnew
  | @runWork q id f blocks _ hblocks => exact hset (q := q) rfl fun _ hmem => hblocks ▸ List.mem_cons_of_mem _ hmem
  | @runBarrier q n t blocks _ hblocks => exact hset (q := q) rfl fun _ hmem => hblocks ▸ List.mem_cons_of_mem _ hmem
  | @done q id _ => exact hset (q := q) rfl fun _ hmem => hmem
  | _ => exact hi.callable

theorem inv_step {a : Act T U W F} (hi : Inv s) (hw : ∀ q t n, .barrier t n ∈ (s.queues q).blocks → s.pc t = .waiting)
    (hc : Apart s a) (hst : Step s a s') : Inv s' := by
  obtain ⟨hnamed, htidy⟩ : s'.lazy.Named ∧ s'.lazy.Tidy := by
    rcases step_lazy hst with ⟨hsame, -⟩ | ⟨b, hb, halone⟩
    · rw [hsame]
      exact ⟨hi.named, hi.tidy⟩
    · exact ⟨Lazy.named_step hi.named hb, (Lazy.tidy_step hi.named hb).2 ⟨hi.tidy, halone.2 hc.sole⟩⟩
  exact ⟨hnamed, htidy, fits_step hi.fits hc hst, busy_step hi.busy hw hst, empty_step hi hst, callable_step hi hst⟩

/-! ## Steps seen as whole calls -/

omit [DecidableEq T] [DecidableEq U] [DecidableEq W] in
theorem whole_queue {u : U} {q : Nat} (hq : s.gSystemWorkQueue u = some q) :
    s.whole.gSystemWorkQueue u = some ((s.queues q).blocks.filterMap called) := by
  simp [State.whole, hq]

omit [DecidableEq T] [DecidableEq U] [DecidableEq W] in
theorem whole_running {u : U} {q : Nat} (hq : s.gSystemWorkQueue u = some q) :
    s.whole.running u = (s.queues q).running := by
  simp [State.whole, hq]

omit [DecidableEq T] [DecidableEq W] in
/-- A change of a unit's queue. -/
theorem whole_set (hi : Inv s) {u : U} {q : Nat} (hq : s.gSystemWorkQueue u = some q) (queue : Queue T F) :
    (s.set q queue).whole = { s.whole with
      gSystemWorkQueue := Function.update s.whole.gSystemWorkQueue u (some (queue.blocks.filterMap called))
      running := Function.update s.whole.running u queue.running } := by
  have hother : ∀ v p, v ≠ u → s.gSystemWorkQueue v = some p → p ≠ q := fun v p hv hp he =>
    hv (hi.single (he ▸ hp) hq)
  have hblocks : (s.set q queue).whole.gSystemWorkQueue =
      Function.update s.whole.gSystemWorkQueue u (some (queue.blocks.filterMap called)) := by
    funext v
    by_cases hv : v = u
    · subst hv
      simp [State.whole, State.set, hq]
    · cases hp : s.gSystemWorkQueue v with
      | none => simp [State.whole, State.set, hv, hp]
      | some p => simp [State.whole, State.set, hv, hp, hother v p hv hp]
  have hrunning : (s.set q queue).whole.running = Function.update s.whole.running u queue.running := by
    funext v
    by_cases hv : v = u
    · subst hv
      simp [State.whole, State.set, hq]
    · cases hp : s.gSystemWorkQueue v with
      | none => simp [State.whole, State.set, hv, hp]
      | some p => simp [State.whole, State.set, hv, hp, hother v p hv hp]
  rw [← hblocks, ← hrunning]
  rfl

omit [DecidableEq T] [DecidableEq W] in
/-- A block put on a unit's queue. -/
theorem whole_put (hi : Inv s) {u : U} {q : Nat} (hq : s.gSystemWorkQueue u = some q) {b : Block T (Option F)}
    {c : Block T F} (hb : called b = some c) :
    (s.put q b).whole = Workqueue.dispatch s.whole u ((s.queues q).blocks.filterMap called) c := by
  rw [State.put, whole_set hi hq]
  simp only [← whole_running hq, Function.update_eq_self, List.filterMap_append, List.filterMap_cons_some hb, List.filterMap_nil]
  rfl

theorem step_accept {b : Workqueue.State T U W F} {u : U} {w : W} {f : F} {blocks : List (Block T F)}
    (hq : b.gSystemWorkQueue u = some blocks) (hf : b.func w = some f) :
    Workqueue.Step b (.scheduleWork u (some w))
      { Workqueue.dispatch b u blocks (.work b.accepted.length f) with accepted := b.accepted ++ [(u, w)] } := by
  simp [Workqueue.Step, Workqueue.step, Workqueue.scheduleWork, ensureSystemWorkqueueInitialized, hq, hf]

theorem step_flush {b : Workqueue.State T U W F} {t : T} {u : U} {blocks : List (Block T F)} (hpc : b.pc t = .idle)
    (hq : b.gSystemWorkQueue u = some blocks) :
    Workqueue.Step b (.flush t u) { Workqueue.dispatch b u blocks (.barrier t b.accepted.length) with
      pc := Function.update b.pc t .waiting } := by
  simp [Workqueue.Step, Workqueue.step, flushScheduledWork, hpc, hq]

theorem step_ensure {b : Workqueue.State T U W F} {u : U} (hq : b.gSystemWorkQueue u = none) :
    Workqueue.Step b (.scheduleWork u none)
      { b with gSystemWorkQueue := Function.update b.gSystemWorkQueue u (some []) } := by
  simp [Workqueue.Step, Workqueue.step, Workqueue.scheduleWork, ensureSystemWorkqueueInitialized, hq]

theorem step_runWork {b : Workqueue.State T U W F} {u : U} {id : Nat} {f : F} {blocks : List (Block T F)}
    (hr : b.running u = none) (hq : b.gSystemWorkQueue u = some (.work id f :: blocks)) :
    Workqueue.Step b (.run u) { b with
      gSystemWorkQueue := Function.update b.gSystemWorkQueue u (some blocks)
      running := Function.update b.running u (some id)
      started := b.started ++ [⟨id, f, .captured id⟩] } := by
  simp [Workqueue.Step, Workqueue.step, Workqueue.runNext, hr, hq]

theorem step_runBarrier {b : Workqueue.State T U W F} {u : U} {t : T} {n : Nat} {blocks : List (Block T F)}
    (hr : b.running u = none) (hq : b.gSystemWorkQueue u = some (.barrier t n :: blocks)) :
    Workqueue.Step b (.run u) { b with
      gSystemWorkQueue := Function.update b.gSystemWorkQueue u (some blocks)
      pc := Function.update b.pc t (.ran n) } := by
  simp [Workqueue.Step, Workqueue.step, Workqueue.runNext, hr, hq]

theorem step_done {b : Workqueue.State T U W F} {u : U} {id : Nat} (hr : b.running u = some id) :
    Workqueue.Step b (.done u) { b with
      running := Function.update b.running u none
      finished := b.finished ++ [id] } := by
  simp [Workqueue.Step, Workqueue.step, hr]

omit [DecidableEq W] in
/-- The store of a new queue. -/
theorem store_whole {t : T} {u : U} {work : Option W} {q : Nat} (hempty : s.queues q = ⟨[], none⟩)
    (hnone : s.gSystemWorkQueue u = none) :
    ({ s.goto t (.test u work) with gSystemWorkQueue := Function.update s.gSystemWorkQueue u (some q) } : State T U W F).whole =
      { s.whole with gSystemWorkQueue := Function.update s.whole.gSystemWorkQueue u (some []) } := by
  have hblocks : (fun v => (Function.update s.gSystemWorkQueue u (some q) v).map fun q => (s.queues q).blocks.filterMap called) =
      Function.update s.whole.gSystemWorkQueue u (some []) := by
    funext v
    by_cases hv : v = u
    · subst hv
      simp [hempty]
    · simp [hv, State.whole]
  have hrunning : (fun v => (Function.update s.gSystemWorkQueue u (some q) v).bind fun q => (s.queues q).running) =
      s.whole.running := by
    funext v
    by_cases hv : v = u
    · subst hv
      simp [hempty, hnone, State.whole]
    · simp [hv, State.whole]
  rw [← hblocks]
  simp only [State.whole, State.goto] at hrunning ⊢
  rw [hrunning]

omit [DecidableEq T] [DecidableEq U] [DecidableEq W] in
/-- A thread in a call waits for nothing. -/
theorem Inv.in_call (hi : Inv s) {t : T} {c : Call U W F} (hcall : s.calls t = c) (hc : c ≠ .idle) : s.pc t = .idle :=
  hi.busy t (hcall ▸ hc)

omit [DecidableEq T] [DecidableEq U] [DecidableEq W] in
/-- The first block of a queue is the first one of whole calls. -/
theorem whole_cons {u : U} {q : Nat} (hq : s.gSystemWorkQueue u = some q) {b : Block T (Option F)} {c : Block T F}
    {blocks : List (Block T (Option F))} (hb : (s.queues q).blocks = b :: blocks) (hc : called b = some c) :
    s.whole.gSystemWorkQueue u = some (c :: blocks.filterMap called) := by
  rw [whole_queue hq, hb, List.filterMap_cons_some hc]

/-- With the calls kept apart, every step is one of a whole call, from the unit that
call is from, or is not seen. -/
theorem whole_step {a : Act T U W F} (hi : Inv s) (hst : Step s a s') : s'.whole = s.whole ∧ OneUnit s a ∨
    ∃ b, Workqueue.Step s.whole b s'.whole ∧ (Workqueue.OneUnit s.whole b ↔ OneUnit s a) := by
  have hplain : ∀ {t : T} {c : Call U W F}, s.calls t = c → (¬ ∃ u, TakesEffect s c u) → OneUnit s (.advance t) :=
    fun hcall hno u heff => absurd ⟨u, hcall ▸ heff⟩ hno
  cases step_does hst with
  | initWork w fn => exact .inr ⟨.initWork w fn, rfl, Iff.rfl⟩
  | @store t u work q hcall =>
    obtain ⟨hnone, hempty⟩ := hi.storing hcall
    refine .inr ⟨.scheduleWork u none, ?_, iff_of_true trivial (hplain hcall (by simp [TakesEffect]))⟩
    rw [store_whole hempty hnone]
    exact step_ensure (by simp [State.whole, hnone])
  | @dispatch t u w func q hcall hq =>
    have hfits := hi.fits t
    rw [hcall] at hfits
    obtain ⟨f, hf⟩ := Option.ne_none_iff_exists'.1 hfits.2.2
    have hfunc : s.whole.func w = some f := hfits.2.1.trans hf
    have hstep := step_accept (whole_queue hq) hfunc
    have hput := whole_put (b := .work s.accepted.length func) hi hq (by rw [hf]; rfl)
    refine .inr ⟨.scheduleWork u (some w), ?_, ?_⟩
    · change Workqueue.Step _ _ { (s.put q (.work s.accepted.length func)).whole with accepted := _ }
      rw [hput]
      exact hstep
    · simp [Workqueue.OneUnit, OneUnit, TakesEffect, hcall, hfunc]
  | @flushNothing t u hcall hnone =>
    have hpc := hi.in_call hcall (by simp)
    refine .inr ⟨.flush t u, ?_, ?_⟩
    · simp [Workqueue.Step, Workqueue.step, flushScheduledWork, State.whole, hpc, hnone, State.goto]
    · simp [Workqueue.OneUnit, OneUnit, TakesEffect, hcall, hnone]
  | @flushSync t u q hcall hq =>
    have hstep := step_flush (b := s.whole) (t := t) (hi.in_call hcall (by simp)) (whole_queue hq)
    have hput := whole_put (b := .barrier t s.accepted.length) hi hq rfl
    refine .inr ⟨.flush t u, ?_, ?_⟩
    · change Workqueue.Step _ _ { (s.put q (.barrier t s.accepted.length)).whole with pc := _ }
      rw [hput]
      exact hstep
    · simp [Workqueue.OneUnit, OneUnit, TakesEffect, hcall]
  | @flushReturn t n ht =>
    refine .inr ⟨.flushReturn t, ?_, Iff.rfl⟩
    simp [Workqueue.Step, Workqueue.step, State.whole, ht]
  | @runWork q id f blocks hidle hblocks =>
    obtain ⟨u, hu⟩ := hi.unit (q := q) fun e => by simp [e] at hblocks
    have hstep := step_runWork ((whole_running hu).trans hidle) (whole_cons hu hblocks rfl)
    refine .inr ⟨.run u, ?_, Iff.rfl⟩
    change Workqueue.Step _ _ { (s.set q ⟨blocks, some id⟩).whole with started := _ }
    rw [whole_set hi hu]
    exact hstep
  | @runBarrier q n t blocks hidle hblocks =>
    obtain ⟨u, hu⟩ := hi.unit (q := q) fun e => by simp [e] at hblocks
    have hr : s.whole.running u = none := (whole_running hu).trans hidle
    have hstep := step_runBarrier hr (whole_cons hu hblocks rfl)
    refine .inr ⟨.run u, ?_, Iff.rfl⟩
    change Workqueue.Step _ _ { (s.set q ⟨blocks, none⟩).whole with pc := _ }
    rw [whole_set hi hu, ← hr, Function.update_eq_self]
    exact hstep
  | @done q id hrun =>
    obtain ⟨u, hu⟩ := hi.unit (q := q) fun e => by simp [e] at hrun
    have hstep := step_done ((whole_running hu).trans hrun)
    refine .inr ⟨.done u, ?_, Iff.rfl⟩
    change Workqueue.Step _ _ { (s.set q _).whole with finished := _ }
    rw [whole_set hi hu, ← whole_queue hu, Function.update_eq_self]
    exact hstep
  | scheduleWork | flush => exact .inl ⟨rfl, trivial⟩
  | missing hcall _ | found hcall _ | create hcall | refused hcall | passed hcall _ _ | capture hcall =>
    exact .inl ⟨rfl, hplain hcall (by simp [TakesEffect])⟩
  | flushFound hcall hq => exact .inl ⟨rfl, hplain hcall (by simp [TakesEffect, hq])⟩

omit [DecidableEq T] [DecidableEq U] [DecidableEq W] in
/-- A thread with a block on some queue waits for it. -/
theorem Inv.waiting (hi : Inv s) (hw : Waits s.whole) {q : Nat} {t : T} {n : Nat}
    (hbar : .barrier t n ∈ (s.queues q).blocks) : s.pc t = .waiting := by
  obtain ⟨u, hu⟩ := hi.unit (q := q) fun e => by simp [e] at hbar
  refine (hw.waiting t).2 ⟨u, List.mem_filterMap.2 ⟨.barrier t n, ?_, rfl⟩⟩
  unfold State.blocks
  rw [whole_queue hu]
  exact List.mem_filterMap.2 ⟨_, hbar, rfl⟩

theorem step_sim {a : Act T U W F} (hi : Inv s) (hw : Waits s.whole) (hc : Apart s a) (hst : Step s a s') :
    Inv s' ∧ (s'.whole = s.whole ∨ ∃ b, Workqueue.Step s.whole b s'.whole) :=
  ⟨inv_step hi (fun _ _ _ => hi.waiting hw) hc hst,
    (whole_step hi hst).imp (fun h => h.1) fun ⟨b, hb, _⟩ => ⟨b, hb⟩⟩

/-! ## Runs -/

/-- With the calls kept apart, whatever is reached is reached by whole calls, one
after the other: nothing of a call that is under way is seen by the others. -/
theorem calls_seen_whole (func : W → Option F) (tr : List (Tr (State T U W F) (Act T U W F)))
    (hr : Run Step (init func) tr s) (hap : ∀ x ∈ tr, Apart x.pre x.act) :
    Inv s ∧ Reachable Workqueue.Step (Workqueue.init func) s.whole := by
  refine hr.simulate State.whole Inv Apart (inv_init func) (fun s a s' hi hb ha hst => ?_) hap
  obtain ⟨tr', hr'⟩ := hb
  exact step_sim hi (run_flushing hr').waits ha hst

/-- One thread schedules an item while another one flushes. -/
def flushedBetween : List (Act Bool Unit Nat Nat) :=
  [.initWork 1 (some 7), .scheduleWork false () (some 1), .advance false, .advance false, .advance false, .advance false,
    .advance false, .advance false, .flush true (), .scheduleWork false () (some 1), .advance true, .advance false,
    .advance true, .run 0, .done 0, .run 0, .flushReturn true]

theorem calls_seen_whole_between : ∃ tr s, Run Step (init fun _ => none) tr s ∧ tr.map (·.act) = flushedBetween ∧
    s.flushed = [1] ∧ Inv s ∧ Reachable Workqueue.Step (Workqueue.init fun _ => none) s.whole := by
  have hr := run_of_exec step (init fun _ => none) flushedBetween rfl
  exact ⟨_, _, hr.1, hr.2, rfl, calls_seen_whole _ _ hr.1 (by decide)⟩

end PortingKit.Linux.Workqueue.Calls
