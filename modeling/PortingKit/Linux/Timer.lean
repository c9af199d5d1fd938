import Mathlib.Logic.Function.Basic
import PortingKit.Lib.Runs
/-!
# linux/timer.h

A `timer_list` owns its dispatch source, so the source is kept in its `timer`
field. A queue starts the callback of a timer and finishes it in another step;
`gTimerQueue` is `static`, so each translation unit `U` has a queue of its own,
and callbacks of different timers may overlap. `init_timer` on a timer that has a
source would lose that source, armed or not: the rule here is that a timer is
initialised only while it has none, for the first time or after `destroy_timer`.
`T` is the type of addresses of timers and `F` of callbacks.
-/
open PortingKit.Lib

namespace PortingKit.Linux.Timer

/-! ## IOTimerDispatchSource -/

structure Source (T : Type) where
  /-- The timer its block has captured. -/
  timer : T
  /-- What it is armed with. -/
  timeout : Option (BitVec 64)
  cancelled : Bool

namespace Source

variable {T : Type}

def create (timer : T) : Source T := ⟨timer, none, false⟩

/-- A cancelled source can no longer be armed. -/
def setTimeout (src : Source T) (ns : BitVec 64) : Source T :=
  if src.cancelled then src else { src with timeout := some ns }

def cancel (src : Source T) : Source T := { src with cancelled := true }

/-- The source is armed and will fire. -/
def Pending (src : Source T) : Prop := src.timeout ≠ none ∧ src.cancelled = false

instance (src : Source T) : Decidable src.Pending :=
  inferInstanceAs (Decidable (src.timeout ≠ none ∧ src.cancelled = false))

theorem not_pending_create (timer : T) : ¬ (create timer).Pending := by simp [create, Pending]

theorem pending_setTimeout (src : Source T) (ns : BitVec 64) :
    (src.setTimeout ns).Pending ↔ src.cancelled = false := by
  unfold setTimeout Pending
  split <;> simp_all

theorem not_pending_cancel (src : Source T) : ¬ src.cancel.Pending := by simp [cancel, Pending]

theorem setTimeout_timer (src : Source T) (ns : BitVec 64) : (src.setTimeout ns).timer = src.timer := by
  unfold setTimeout
  split <;> rfl

end Source

/-! ## Timers -/

/-- `struct timer_list`. -/
structure TimerList (T F : Type) where
  timer : Option (Source T)
  function : Option F

structure State (T U F : Type) where
  timers : T → TimerList T F
  /-- The unit has created its queue. -/
  gTimerQueue : U → Bool
  /-- The callback of the timer has been started and has not finished. -/
  executing : T → Bool
  /-- The functions called by the queues, each with its argument. -/
  called : List (F × T)

variable {T U F : Type} [DecidableEq T] [DecidableEq U]

def State.setSource (s : State T U F) (timer : T) (src : Option (Source T)) : State T U F :=
  { s with timers := Function.update s.timers timer { s.timers timer with timer := src } }

/-- Both `create` calls succeed. -/
def initTimer (u : U) (timer : T) (s : State T U F) : State T U F :=
  { s with gTimerQueue := Function.update s.gTimerQueue u true }.setSource timer (some (.create timer))

def addTimer (timer : Option T) (expires_ns : BitVec 64) (s : State T U F) : State T U F :=
  match timer with
  | none => s
  | some timer =>
    match (s.timers timer).timer with
    | none => s
    | some src => s.setSource timer (some (src.setTimeout expires_ns))

def delTimerSync (timer : Option T) (s : State T U F) : Int × State T U F :=
  match timer with
  | none => (0, s)
  | some timer =>
    match (s.timers timer).timer with
    | none => (0, s)
    | some src => (1, s.setSource timer (some src.cancel))

/-- Releasing the only reference to the source frees it. -/
def destroyTimer (timer : Option T) (s : State T U F) : State T U F :=
  match timer with
  | none => s
  | some timer =>
    match (s.timers timer).timer with
    | none => s
    | some _ => s.setSource timer none

/-- A source fires once for the timeout it is armed with: a queue starts its block,
which calls the function of the timer it has captured. -/
def fire (timer : T) (src : Source T) (s : State T U F) : State T U F :=
  { s.setSource timer (some { src with timeout := none }) with
    executing := Function.update s.executing src.timer true
    called := s.called ++ ((s.timers src.timer).function.map (·, src.timer)).toList }

inductive Act (T U : Type) where
  | initTimer (u : U) (timer : T)
  | addTimer (timer : T) (expires_ns : BitVec 64)
  | delTimerSync (timer : T) (ret : Int)
  | destroyTimer (timer : T)
  /-- A queue starts the callback of the timer. -/
  | expire (timer : T)
  /-- The callback of the timer returns. -/
  | finish (timer : T)

def Act.timer : Act T U → T
  | .initTimer _ t | .addTimer t _ | .delTimerSync t _ | .destroyTimer t | .expire t | .finish t => t

/-- A timer that has no source may be initialised. A pending source fires when its
callback is not being executed. -/
def step (s : State T U F) : Act T U → Option (State T U F)
  | .initTimer u t => if (s.timers t).timer.isNone then some (initTimer u t s) else none
  | .addTimer t ns => some (addTimer (some t) ns s)
  | .delTimerSync t ret => if (delTimerSync (some t) s).1 = ret then some (delTimerSync (some t) s).2 else none
  | .destroyTimer t => some (destroyTimer (some t) s)
  | .expire t =>
    match (s.timers t).timer with
    | none => none
    | some src => if src.Pending ∧ s.executing src.timer = false then some (fire t src s) else none
  | .finish t => if s.executing t then some { s with executing := Function.update s.executing t false } else none

abbrev Step (s : State T U F) (a : Act T U) (s' : State T U F) : Prop := step s a = some s'

/-- No timer is initialised. -/
def init (function : T → Option F) : State T U F :=
  ⟨fun t => ⟨none, function t⟩, fun _ => false, fun _ => false, []⟩

/-! ## The re-armable one-shot timer -/

/-- What a timer is, seen from outside. -/
inductive Status where
  | inert
  | idle
  | pending
  deriving DecidableEq

namespace Status

/-- An initialised timer that is added is pending. -/
def add : Status → Status
  | inert => inert
  | idle | pending => pending

/-- Deleting says whether the timer was pending. -/
def del : Status → Int × Status
  | inert => (0, inert)
  | idle => (0, idle)
  | pending => (1, idle)

end Status

def Source.status : Option (Source T) → Status
  | none => .inert
  | some src => if src.Pending then .pending else .idle

section
omit [DecidableEq T]

theorem status_pending {src : Source T} (h : src.Pending) : Source.status (some src) = .pending := if_pos h

theorem status_idle {src : Source T} (h : ¬ src.Pending) : Source.status (some src) = .idle := if_neg h

theorem add_status (src : Source T) : (Source.status (some src)).add = .pending := by
  by_cases hp : src.Pending
  · rw [status_pending hp, Status.add]
  · rw [status_idle hp, Status.add]

theorem del_status (src : Source T) :
    (1, Status.idle) = (Source.status (some src)).del ↔ Source.status (some src) ≠ .idle := by
  by_cases hp : src.Pending
  · simp [status_pending hp, Status.del]
  · simp [status_idle hp, Status.del]

end

def State.status (s : State T U F) (t : T) : Status := Source.status (s.timers t).timer

/-- What an action does to the status of its timer. -/
def Act.Does (status status' : Status) : Act T U → Prop
  | .initTimer _ _ => status = .inert ∧ status' = .idle
  | .addTimer _ _ => status' = status.add
  | .delTimerSync _ ret => (ret, status') = status.del
  | .destroyTimer _ => status' = .inert
  | .expire _ => status = .pending ∧ status' = .idle
  | .finish _ => status' = status

instance (status status' : Status) : (a : Act T U) → Decidable (a.Does status status')
  | .initTimer _ _ => inferInstanceAs (Decidable (status = .inert ∧ status' = .idle))
  | .addTimer _ _ => inferInstanceAs (Decidable (status' = status.add))
  | .delTimerSync _ ret => inferInstanceAs (Decidable ((ret, status') = status.del))
  | .destroyTimer _ => inferInstanceAs (Decidable (status' = .inert))
  | .expire _ => inferInstanceAs (Decidable (status = .pending ∧ status' = .idle))
  | .finish _ => inferInstanceAs (Decidable (status' = status))

/-- The function an action calls, with its argument. -/
def Act.calls (function : T → Option F) : Act T U → List (F × T)
  | .expire t => ((function t).map (·, t)).toList
  | _ => []

/-- A transition is one of the re-armable one-shot timer: it does the right thing to
its own timer and nothing to the others, and calls the timer's function on the
timer exactly if the timer expires. -/
structure Refines (x : Tr (State T U F) (Act T U)) : Prop where
  own : x.act.Does (x.pre.status x.act.timer) (x.post.status x.act.timer)
  others : ∀ t, t ≠ x.act.timer → x.post.status t = x.pre.status t
  called : x.post.called = x.pre.called ++ x.act.calls fun t => (x.pre.timers t).function

/-- Every block has captured its own timer. -/
def Captured (s : State T U F) : Prop := ∀ t src, (s.timers t).timer = some src → src.timer = t

/-! ## One step -/

/-- What a step can do. -/
inductive Effect (s : State T U F) : Act T U → State T U F → Prop
  | initTimer {u t} : (s.timers t).timer = none → Effect s (.initTimer u t) (initTimer u t s)
  | addTimer {t ns src} : (s.timers t).timer = some src →
      Effect s (.addTimer t ns) (s.setSource t (some (src.setTimeout ns)))
  | addNothing {t ns} : (s.timers t).timer = none → Effect s (.addTimer t ns) s
  | delTimerSync {t src} : (s.timers t).timer = some src →
      Effect s (.delTimerSync t 1) (s.setSource t (some src.cancel))
  | delNothing {t} : (s.timers t).timer = none → Effect s (.delTimerSync t 0) s
  | destroyTimer {t src} : (s.timers t).timer = some src → Effect s (.destroyTimer t) (s.setSource t none)
  | destroyNothing {t} : (s.timers t).timer = none → Effect s (.destroyTimer t) s
  | expire {t src} : (s.timers t).timer = some src → src.Pending → s.executing src.timer = false →
      Effect s (.expire t) (fire t src s)
  | finish {t} : s.executing t = true →
      Effect s (.finish t) { s with executing := Function.update s.executing t false }

theorem step_effect {s s' : State T U F} {a : Act T U} (h : Step s a s') : Effect s a s' := by
  cases a with
  | initTimer u t =>
    simp only [Step, step, Option.ite_none_right_eq_some, Option.some.injEq, Option.isNone_iff_eq_none] at h
    obtain ⟨hsrc, rfl⟩ := h
    exact .initTimer hsrc
  | addTimer t ns =>
    simp only [Step, step, addTimer, Option.some.injEq] at h
    cases hsrc : (s.timers t).timer with
    | none =>
      simp only [hsrc] at h
      exact h ▸ .addNothing hsrc
    | some src =>
      simp only [hsrc] at h
      exact h ▸ .addTimer hsrc
  | delTimerSync t ret =>
    simp only [Step, step, delTimerSync] at h
    cases hsrc : (s.timers t).timer with
    | none =>
      simp only [hsrc, Option.ite_none_right_eq_some, Option.some.injEq] at h
      obtain ⟨rfl, rfl⟩ := h
      exact .delNothing hsrc
    | some src =>
      simp only [hsrc, Option.ite_none_right_eq_some, Option.some.injEq] at h
      obtain ⟨rfl, rfl⟩ := h
      exact .delTimerSync hsrc
  | destroyTimer t =>
    simp only [Step, step, destroyTimer, Option.some.injEq] at h
    cases hsrc : (s.timers t).timer with
    | none =>
      simp only [hsrc] at h
      exact h ▸ .destroyNothing hsrc
    | some src =>
      simp only [hsrc] at h
      exact h ▸ .destroyTimer hsrc
  | expire t =>
    simp only [Step, step] at h
    cases hsrc : (s.timers t).timer with
    | none => simp [hsrc] at h
    | some src =>
      simp only [hsrc, Option.ite_none_right_eq_some, Option.some.injEq] at h
      obtain ⟨⟨hpending, hidle⟩, rfl⟩ := h
      exact .expire hsrc hpending hidle
  | finish t =>
    simp only [Step, step, Option.ite_none_right_eq_some, Option.some.injEq] at h
    obtain ⟨hexec, rfl⟩ := h
    exact .finish hexec

section
omit [DecidableEq U]

theorem status_setSource (s : State T U F) (t : T) (src : Option (Source T)) :
    (s.setSource t src).status t = Source.status src := by
  simp [State.status, State.setSource]

theorem status_setSource_other (s : State T U F) {t t' : T} (src : Option (Source T)) (h : t' ≠ t) :
    (s.setSource t src).status t' = s.status t' := by
  simp [State.status, State.setSource, Function.update_of_ne h]

theorem captured_setSource {s : State T U F} {t : T} {src : Option (Source T)} (hi : Captured s)
    (h : ∀ x ∈ src, x.timer = t) : Captured (s.setSource t src) := by
  intro t' x hx
  by_cases ht : t' = t
  · subst ht
    exact h x (by simpa [State.setSource] using hx)
  · exact hi t' x (by simpa [State.setSource, Function.update_of_ne ht] using hx)

end

omit [DecidableEq T] [DecidableEq U] in
theorem captured_init {function : T → Option F} : Captured (init function : State T U F) := by
  intro t src h
  cases h

theorem captured_step {s s' : State T U F} {a : Act T U} (hi : Captured s) (h : Step s a s') : Captured s' := by
  cases step_effect h with
  | @initTimer u t _ =>
    have hc : Captured { s with gTimerQueue := Function.update s.gTimerQueue u true } := hi
    exact captured_setSource hc (by simp [Source.create])
  | addTimer hsrc => exact captured_setSource hi (by simp [Source.setTimeout_timer, hi _ _ hsrc])
  | delTimerSync hsrc => exact captured_setSource hi (by simp [Source.cancel, hi _ _ hsrc])
  | destroyTimer => exact captured_setSource hi (by simp)
  | expire hsrc => exact captured_setSource hi (by simp [hi _ _ hsrc])
  | addNothing | delNothing | destroyNothing | finish => exact hi

/-! ## Where it is the abstract timer -/

/-- A timer is added while it has not been deleted, and deleted while it is pending
(or not initialised). -/
def Timely (s : State T U F) : Act T U → Prop
  | .addTimer t _ => ∀ src ∈ (s.timers t).timer, src.cancelled = false
  | .delTimerSync t _ => s.status t ≠ .idle
  | .initTimer _ _ | .destroyTimer _ | .expire _ | .finish _ => True

instance (s : State T U F) : (a : Act T U) → Decidable (Timely s a)
  | .addTimer t _ => inferInstanceAs (Decidable (∀ src ∈ (s.timers t).timer, src.cancelled = false))
  | .delTimerSync t _ => inferInstanceAs (Decidable (s.status t ≠ .idle))
  | .initTimer _ _ | .destroyTimer _ | .expire _ | .finish _ => .isTrue trivial

omit [DecidableEq T] [DecidableEq U] in
theorem status_of_source {s : State T U F} {t : T} {src : Option (Source T)} (h : (s.timers t).timer = src) :
    s.status t = Source.status src := by
  unfold State.status
  rw [h]

omit [DecidableEq U] in
/-- A step that gives its timer a new source, if it calls nothing. -/
theorem refines_setSource {s : State T U F} {a : Act T U} {src : Option (Source T)}
    (hcalls : a.calls (fun t => (s.timers t).function) = []) :
    Refines ⟨s, a, s.setSource a.timer src⟩ ↔ a.Does (s.status a.timer) (Source.status src) := by
  have hown := status_setSource s a.timer src
  constructor
  · rintro ⟨h, -, -⟩
    rwa [hown] at h
  · intro h
    refine ⟨by rwa [hown], fun t ht => status_setSource_other s src ht, ?_⟩
    show s.called = s.called ++ a.calls fun t => (s.timers t).function
    rw [hcalls, List.append_nil]

omit [DecidableEq T] [DecidableEq U] in
/-- A step that does nothing. -/
theorem refines_same {s : State T U F} {a : Act T U} (hcalls : a.calls (fun t => (s.timers t).function) = []) :
    Refines ⟨s, a, s⟩ ↔ a.Does (s.status a.timer) (s.status a.timer) := by
  constructor
  · rintro ⟨h, -, -⟩
    exact h
  · intro h
    refine ⟨h, fun _ _ => rfl, ?_⟩
    show s.called = s.called ++ a.calls fun t => (s.timers t).function
    rw [hcalls, List.append_nil]

/-- Steps are those of the abstract timer where they are timely, and only there. -/
theorem refines_iff_timely {s s' : State T U F} {a : Act T U} (hi : Captured s) (h : Step s a s') :
    Refines ⟨s, a, s'⟩ ↔ Timely s a := by
  cases step_effect h with
  | @initTimer u t hsrc =>
    have hidle := status_idle (Source.not_pending_create t)
    refine iff_of_true ⟨⟨status_of_source hsrc, ?_⟩, fun t' ht => status_setSource_other _ _ ht, ?_⟩ trivial
    · exact (status_setSource _ t _).trans hidle
    · exact (List.append_nil _).symm
  | @addTimer t ns src hsrc =>
    apply (refines_setSource rfl).trans
    simp only [Act.timer, Act.Does, status_of_source hsrc, add_status, Timely, hsrc, Option.mem_def,
      Option.some.injEq, forall_eq']
    rw [← src.pending_setTimeout ns]
    by_cases hp : (src.setTimeout ns).Pending
    · simp [status_pending hp, hp]
    · simp [status_idle hp, hp]
  | @delTimerSync t src hsrc =>
    apply (refines_setSource rfl).trans
    simp only [Act.timer, Act.Does, status_of_source hsrc, status_idle src.not_pending_cancel, Timely]
    exact del_status src
  | @destroyTimer t src hsrc => exact (refines_setSource rfl).trans (iff_of_true rfl trivial)
  | @addNothing t ns hsrc =>
    apply (refines_same rfl).trans
    simp [Act.timer, Act.Does, status_of_source hsrc, Source.status, Status.add, Timely, hsrc]
  | @delNothing t hsrc =>
    apply (refines_same rfl).trans
    simp [Act.timer, Act.Does, status_of_source hsrc, Source.status, Status.del, Timely]
  | @destroyNothing t hsrc => exact (refines_same rfl).trans (iff_of_true (status_of_source hsrc) trivial)
  | @expire t src hsrc hpending _ =>
    have hidle : ¬ ({ src with timeout := none } : Source T).Pending := fun hp => hp.1 rfl
    obtain rfl : src.timer = t := hi t src hsrc
    refine iff_of_true ⟨⟨?_, ?_⟩, fun t' ht => status_setSource_other s _ ht, rfl⟩ trivial
    · exact (status_of_source hsrc).trans (status_pending hpending)
    · exact (status_setSource s _ _).trans (status_idle hidle)
  | @finish t _ =>
    refine iff_of_true ⟨rfl, fun _ _ => rfl, ?_⟩ trivial
    exact (List.append_nil _).symm

/-- `timer_list` is the re-armable one-shot timer along a run exactly if every timer is
added before it is deleted and deleted while it is pending. -/
theorem timer_refines_iff {function : T → Option F} {tr : List (Tr (State T U F) (Act T U))} {s : State T U F}
    (h : Run Step (init function) tr s) : (∀ x ∈ tr, Refines x) ↔ ∀ x ∈ tr, Timely x.pre x.act :=
  h.forall_iff Captured Timely Refines captured_init (fun _ _ _ hi _ hst => captured_step hi hst)
    fun _ _ _ hi hst => refines_iff_timely hi hst

/-- A timer that is added, deleted, and then added and deleted again: the second add does
not arm it, and the second delete says that it was pending. -/
theorem timer_not_refined : ∃ (tr : List (Tr (State ℕ ℕ ℕ) (Act ℕ ℕ))) (s : State ℕ ℕ ℕ),
    Run Step (init fun _ => some 5) tr s ∧ tr.map (·.act) = [.initTimer 0 1, .addTimer 1 100, .delTimerSync 1 1,
      .addTimer 1 100, .delTimerSync 1 1] ∧ ¬ ∀ x ∈ tr, Refines x := by
  obtain ⟨tr, s, he, x, hx, hwrong⟩ : ∃ (tr : List (Tr (State ℕ ℕ ℕ) (Act ℕ ℕ))) (s : State ℕ ℕ ℕ),
      exec step (init fun _ => some 5) [.initTimer 0 1, .addTimer 1 100, .delTimerSync 1 1, .addTimer 1 100,
        .delTimerSync 1 1] = some (tr, s) ∧
      ∃ x ∈ tr, ¬ x.act.Does (x.pre.status x.act.timer) (x.post.status x.act.timer) := ⟨_, _, rfl, by decide⟩
  obtain ⟨hr, hacts⟩ := run_of_exec step _ _ he
  exact ⟨tr, s, hr, hacts, fun h => hwrong (h x hx).own⟩

/-- A timer that expires, is added again and deleted, then destroyed. -/
theorem timer_refines_iff_expire : ∃ (tr : List (Tr (State ℕ ℕ ℕ) (Act ℕ ℕ))) (s : State ℕ ℕ ℕ),
    Run Step (init fun _ => some 5) tr s ∧ s.called = [(5, 1)] ∧ ∀ x ∈ tr, Refines x := by
  obtain ⟨tr, s, he, hcalled, htimely⟩ : ∃ (tr : List (Tr (State ℕ ℕ ℕ) (Act ℕ ℕ))) (s : State ℕ ℕ ℕ),
      exec step (init fun _ => some 5) [.initTimer 0 1, .addTimer 1 100, .expire 1, .addTimer 1 100, .finish 1,
        .delTimerSync 1 1, .destroyTimer 1] = some (tr, s) ∧ s.called = [(5, 1)] ∧ ∀ x ∈ tr, Timely x.pre x.act :=
    ⟨_, _, rfl, rfl, by decide⟩
  have hr := (run_of_exec step _ _ he).1
  exact ⟨tr, s, hr, hcalled, (timer_refines_iff hr).2 htimely⟩

/-! ## Waiting for the callback -/

/-- From a `del_timer_sync` of `t` to the next `add_timer`, the callback of `t` is
not being executed and is not started. -/
def Waits (t : T) (tr : List (Tr (State T U F) (Act T U))) : Prop :=
  ∀ tr₁ x mid tail, tr = tr₁ ++ x :: (mid ++ tail) → (∃ ret, x.act = .delTimerSync t ret) →
    x.pre.status t ≠ .inert → (∀ y ∈ mid, ∀ ns, y.act ≠ .addTimer t ns) →
    x.post.executing t = false ∧ ∀ y ∈ mid, y.act ≠ .expire t ∧ y.post.executing t = false

/-- A timer is deleted while its callback is not being executed. -/
def Quiet (s : State T U F) : Act T U → Prop
  | .delTimerSync t _ => s.status t ≠ .inert → s.executing t = false
  | .initTimer _ _ | .addTimer _ _ | .destroyTimer _ | .expire _ | .finish _ => True

/-- A step leaves the other timers and their callbacks alone. -/
theorem step_frame {s s' : State T U F} {a : Act T U} {t : T} (hi : Captured s) (h : Step s a s') (ht : t ≠ a.timer) :
    s'.status t = s.status t ∧ s'.executing t = s.executing t := by
  cases step_effect h with
  | initTimer | addTimer | delTimerSync | destroyTimer => exact ⟨status_setSource_other _ _ ht, rfl⟩
  | addNothing | delNothing | destroyNothing => exact ⟨rfl, rfl⟩
  | expire hsrc =>
    obtain rfl := hi _ _ hsrc
    exact ⟨status_setSource_other s _ ht, Function.update_of_ne ht _ _⟩
  | finish => exact ⟨rfl, Function.update_of_ne ht _ _⟩

/-- The timer is not armed and its callback is not being executed. -/
structure Still (t : T) (s : State T U F) : Prop where
  captured : Captured s
  not_pending : s.status t ≠ .pending
  executing : s.executing t = false

/-- A timer that is not armed does not expire. -/
theorem Still.not_expire {t : T} {s s' : State T U F} (hi : Still t s) : ¬ Step s (.expire t) s' := by
  intro h
  cases step_effect h with
  | expire hsrc hpending _ => exact hi.not_pending ((status_of_source hsrc).trans (status_pending hpending))

/-- Deleting an initialised timer makes it still, but for a callback that is being executed. -/
theorem del_step {t : T} {ret : Int} {s s' : State T U F} (hc : Captured s) (h : Step s (.delTimerSync t ret) s') :
    s'.executing t = s.executing t ∧ (s.executing t = false → Still t s') := by
  have hc' := captured_step hc h
  cases step_effect h with
  | @delTimerSync _ src _ =>
    refine ⟨rfl, fun hexec => ⟨hc', ?_, hexec⟩⟩
    rw [status_setSource, status_idle src.not_pending_cancel]
    simp
  | delNothing hsrc =>
    refine ⟨rfl, fun hexec => ⟨hc', ?_, hexec⟩⟩
    rw [status_of_source hsrc]
    simp [Source.status]

/-- Only an `add_timer` of the timer ends it. -/
theorem Still.step {t : T} {s s' : State T U F} {a : Act T U} (hi : Still t s) (ha : ∀ ns, a ≠ .addTimer t ns)
    (h : Step s a s') : Still t s' := by
  have hc := captured_step hi.captured h
  by_cases ht : t = a.timer
  · cases step_effect h with
    | @initTimer u t' _ =>
      obtain rfl : t = t' := ht
      refine ⟨hc, ?_, hi.executing⟩
      rw [initTimer, status_setSource, status_idle (Source.not_pending_create t)]
      simp
    | @addTimer t' ns _ _ | @addNothing t' ns _ =>
      obtain rfl : t = t' := ht
      exact absurd rfl (ha ns)
    | @delTimerSync t' _ _ | @delNothing t' _ =>
      obtain rfl : t = t' := ht
      exact (del_step hi.captured h).2 hi.executing
    | @destroyTimer t' _ _ =>
      obtain rfl : t = t' := ht
      refine ⟨hc, ?_, hi.executing⟩
      rw [status_setSource]
      simp [Source.status]
    | destroyNothing => exact ⟨hc, hi.not_pending, hi.executing⟩
    | @expire t' _ _ _ _ =>
      obtain rfl : t = t' := ht
      exact absurd h hi.not_expire
    | @finish t' _ =>
      obtain rfl : t = t' := ht
      exact ⟨hc, hi.not_pending, by simp⟩
  · obtain ⟨hstatus, hexec⟩ := step_frame hi.captured h ht
    exact ⟨hc, by rw [hstatus]; exact hi.not_pending, by rw [hexec]; exact hi.executing⟩

/-- `del_timer_sync` waits for the callback exactly if it is never called while the
callback is being executed. -/
theorem del_waits_iff {function : T → Option F} {tr : List (Tr (State T U F) (Act T U))} {s : State T U F}
    (h : Run Step (init function) tr s) : (∀ t, Waits t tr) ↔ ∀ x ∈ tr, Quiet x.pre x.act := by
  have hcaptured := (h.inv Captured captured_init fun _ _ _ hi hst => captured_step hi hst).2
  constructor
  · intro hw x hx
    obtain ⟨hc, hst, -⟩ := hcaptured x hx
    obtain ⟨tr₁, tr₂, rfl⟩ := List.append_of_mem hx
    obtain ⟨pre, act, post⟩ := x
    cases act with
    | delTimerSync t ret =>
      intro hinit
      rw [← (del_step hc hst).1]
      exact (hw t tr₁ _ [] tr₂ rfl ⟨ret, rfl⟩ hinit (by simp)).1
    | _ => trivial
  · rintro hq t tr₁ x mid tail rfl ⟨ret, hact⟩ hinit hadd
    obtain ⟨hc, hst, -⟩ := hcaptured x (by simp)
    have hquiet := hq x (by simp)
    obtain ⟨pre, act, post⟩ := x
    obtain rfl : act = .delTimerSync t ret := hact
    have hstill : Still t post := (del_step hc hst).2 (hquiet hinit)
    refine ⟨hstill.executing, fun y hy => ?_⟩
    obtain ⟨-, -, hrest⟩ := h.split
    obtain ⟨mid₁, mid₂, rfl⟩ := List.append_of_mem hy
    rw [List.append_assoc, List.cons_append] at hrest
    obtain ⟨hbefore, hy_step, -⟩ := hrest.split
    have hy_pre : Still t y.pre := (hbefore.inv_of_cond (Still t) (fun _ a => ∀ ns, a ≠ .addTimer t ns) hstill
      (fun _ _ _ hi ha hst => hi.step ha hst) fun z hz => hadd z (by simp [hz])).1
    refine ⟨fun he => hy_pre.not_expire (he ▸ hy_step), ?_⟩
    exact (hy_pre.step (hadd y hy) hy_step).executing

/-- A timer deleted while its callback is being executed, which it still is when the
delete has returned. -/
theorem del_not_waits : ∃ (tr : List (Tr (State ℕ ℕ ℕ) (Act ℕ ℕ))) (s : State ℕ ℕ ℕ),
    Run Step (init fun _ => some 5) tr s ∧
      tr.map (·.act) = [.initTimer 0 1, .addTimer 1 100, .expire 1, .delTimerSync 1 1] ∧ ¬ Waits 1 tr := by
  obtain ⟨tr, s, he, tr₁, x, rfl, hact, hinit, hexec⟩ :
      ∃ (tr : List (Tr (State ℕ ℕ ℕ) (Act ℕ ℕ))) (s : State ℕ ℕ ℕ),
        exec step (init fun _ => some 5) [.initTimer 0 1, .addTimer 1 100, .expire 1, .delTimerSync 1 1] =
          some (tr, s) ∧ ∃ tr₁ x, tr = tr₁ ++ [x] ∧ x.act = .delTimerSync 1 1 ∧ x.pre.status 1 ≠ .inert ∧
          x.post.executing 1 = true :=
    ⟨_, _, rfl, [_, _, _], _, rfl, rfl, by decide, by decide⟩
  obtain ⟨hr, hacts⟩ := run_of_exec step _ _ he
  refine ⟨_, s, hr, hacts, fun hw => ?_⟩
  have hidle := (hw tr₁ x [] [] rfl ⟨1, hact⟩ hinit (by simp)).1
  rw [hexec] at hidle
  cases hidle

/-- A timer deleted after its callback has returned. -/
theorem del_waits_iff_finished : ∃ (tr : List (Tr (State ℕ ℕ ℕ) (Act ℕ ℕ))) (s : State ℕ ℕ ℕ),
    Run Step (init fun _ => some 5) tr s ∧ s.called = [(5, 1)] ∧ ∀ t, Waits t tr := by
  obtain ⟨tr, s, he, hcalled, hquiet⟩ : ∃ (tr : List (Tr (State ℕ ℕ ℕ) (Act ℕ ℕ))) (s : State ℕ ℕ ℕ),
      exec step (init fun _ => some 5) [.initTimer 0 1, .addTimer 1 100, .expire 1, .finish 1, .delTimerSync 1 1] =
        some (tr, s) ∧ s.called = [(5, 1)] ∧ ∀ x ∈ tr, Quiet x.pre x.act :=
    ⟨_, _, rfl, rfl, by simp [Quiet]⟩
  have hr := (run_of_exec step _ _ he).1
  exact ⟨tr, s, hr, hcalled, (del_waits_iff hr).2 hquiet⟩

end PortingKit.Linux.Timer
