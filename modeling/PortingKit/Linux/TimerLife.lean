import PortingKit.Linux.Timer
/-!
# The calls of a timer over its life

Whatever is added, deleted, destroyed and initialised again, and whenever the
queues fire: a timer calls its own function on itself, at most once for each time
it was added, and a timer that was deleted calls nothing until it is initialised
again.
-/
open PortingKit.Lib

namespace PortingKit.Linux.Timer

variable {T U F : Type} [DecidableEq T] [DecidableEq U]

/-! ## One call for each add -/

/-- The calls on a timer. -/
def State.calls (s : State T U F) (t : T) : Nat := s.called.countP fun c => c.2 = t

/-- The calls made on a timer, and the one that it is armed for. -/
def State.charged (s : State T U F) (t : T) : Nat := s.calls t + if s.status t = .pending then 1 else 0

def Act.adds (t : T) : Act T U → Bool
  | .addTimer t' _ => t' = t
  | _ => false

omit [DecidableEq U] in
/-- A timer that is not armed any more. -/
theorem charged_le {s s' : State T U F} {t : T} {n : Nat} (hc : s'.called = s.called) (hs : s'.status t ≠ .pending) :
    s'.charged t ≤ s.charged t + n := by
  unfold State.charged State.calls
  rw [hc, if_neg hs]
  omega

/-- Only an add charges a timer, and it does so once. -/
theorem charged_step {s s' : State T U F} {a : Act T U} (hi : Captured s) (h : Step s a s') (t : T) :
    s'.charged t ≤ s.charged t + if a.adds t then 1 else 0 := by
  by_cases ht : t = a.timer
  · subst ht
    cases step_effect h with
    | @initTimer u t _ =>
      refine charged_le (by rfl) ?_
      rw [initTimer, Act.timer, status_setSource, status_idle (Source.not_pending_create t)]
      decide
    | @addTimer t ns src _ =>
      have hcalls : (s.setSource t (some (src.setTimeout ns))).calls t = s.calls t := rfl
      unfold State.charged
      simp only [Act.timer, Act.adds, decide_true, if_true, hcalls]
      grind
    | addNothing => exact Nat.le_add_right _ _
    | @delTimerSync t src _ =>
      refine charged_le (by rfl) ?_
      rw [Act.timer, status_setSource, status_idle src.not_pending_cancel]
      decide
    | delNothing => exact Nat.le_add_right _ _
    | @destroyTimer t src _ =>
      refine charged_le (by rfl) ?_
      rw [Act.timer, status_setSource]
      simp [Source.status]
    | destroyNothing => exact Nat.le_add_right _ _
    | @expire t src hsrc hpending _ =>
      -- The call uses up what the timer was armed for.
      obtain rfl := hi t src hsrc
      have hstatus : s.status src.timer = .pending := (status_of_source hsrc).trans (status_pending hpending)
      have hidle : (fire src.timer src s).status src.timer ≠ .pending := by
        have hnot : ¬ ({ src with timeout := none } : Source T).Pending := fun hp => hp.1 rfl
        change (s.setSource src.timer (some { src with timeout := none })).status src.timer ≠ .pending
        rw [status_setSource, status_idle hnot]
        decide
      have hcalls : (fire src.timer src s).calls src.timer ≤ s.calls src.timer + 1 := by
        unfold State.calls fire
        cases (s.timers src.timer).function <;> simp
      change (fire src.timer src s).charged src.timer ≤ s.charged src.timer + 0
      unfold State.charged
      rw [if_pos hstatus, if_neg hidle]
      exact hcalls
    | finish => exact Nat.le_add_right _ _
  · obtain ⟨hstatus, -⟩ := step_frame hi h ht
    apply Nat.le_trans (Nat.le_of_eq ?_) (Nat.le_add_right _ _)
    unfold State.charged
    rw [hstatus]
    congr 1
    cases step_effect h with
    | @expire t' src hsrc _ _ =>
      obtain rfl := hi t' src hsrc
      unfold State.calls fire
      cases (s.timers src.timer).function with
      | none => simp
      | some f => simp [List.countP_append, Ne.symm (show t ≠ src.timer from ht)]
    | _ => rfl

omit [DecidableEq U] in
theorem function_setSource {s : State T U F} {t : T} {src : Option (Source T)} (t' : T) :
    ((s.setSource t src).timers t').function = (s.timers t').function := by
  unfold State.setSource
  by_cases h : t' = t
  · subst h; simp
  · simp [h]

/-- No operation changes a timer's function. -/
theorem step_function {s s' : State T U F} {a : Act T U} (h : Step s a s') (t : T) :
    (s'.timers t).function = (s.timers t).function := by
  cases step_effect h with
  | initTimer => exact function_setSource t
  | addTimer | delTimerSync | destroyTimer => exact function_setSource t
  | expire => exact function_setSource t
  | addNothing | delNothing | destroyNothing | finish => rfl

theorem called_step {s s' : State T U F} {a : Act T U} (hi : Captured s) (h : Step s a s') :
    s'.called = s.called ++ a.calls fun t => (s.timers t).function := by
  cases step_effect h with
  | @expire t src hsrc _ _ =>
    obtain rfl := hi t src hsrc
    rfl
  | _ => exact (List.append_nil _).symm

/-- What the history of a run says of its timers. -/
structure Lived (function : T → Option F) (tr : List (Tr (State T U F) (Act T U))) (s : State T U F) : Prop where
  captured : Captured s
  own : ∀ t, (s.timers t).function = function t
  called : s.called = tr.flatMap fun x => x.act.calls function
  charged : ∀ t, s.charged t ≤ tr.countP fun x => x.act.adds t

theorem lived_step {function : T → Option F} {tr : List (Tr (State T U F) (Act T U))} {s s' : State T U F}
    {a : Act T U} (h : Lived function tr s) (hst : Step s a s') : Lived function (tr ++ [⟨s, a, s'⟩]) s' := by
  have hfun : (fun t => (s.timers t).function) = function := funext h.own
  refine ⟨captured_step h.captured hst, fun t => (step_function hst t).trans (h.own t), ?_, fun t => ?_⟩
  · rw [called_step h.captured hst, hfun, h.called]
    simp
  · have hstep := charged_step h.captured hst t
    have hcharged := h.charged t
    rw [List.countP_append, List.countP_singleton]
    exact Nat.le_trans hstep (Nat.add_le_add_right hcharged _)

/-- In every run, the calls are those of the timers that expired, each of the
timer's own function on the timer, and a timer has at most as many as it was
added times. -/
theorem called_once_per_add {function : T → Option F} {tr : List (Tr (State T U F) (Act T U))} {s : State T U F}
    (h : Run Step (init function) tr s) :
    s.called = (tr.flatMap fun x => x.act.calls function) ∧ ∀ t, s.calls t ≤ tr.countP fun x => x.act.adds t := by
  have hl := h.inv_history (Lived function) ⟨captured_init, fun _ => rfl, rfl, fun _ => Nat.le_refl _⟩
    fun _ _ _ _ hl hst => lived_step hl hst
  exact ⟨hl.called, fun t => Nat.le_trans (Nat.le_add_right _ _) (hl.charged t)⟩

/-- A timer that fires, is added twice before it fires again, and is destroyed. -/
theorem called_once_per_add_twice : ∃ (tr : List (Tr (State ℕ ℕ ℕ) (Act ℕ ℕ))) (s : State ℕ ℕ ℕ),
    Run Step (init fun _ => some 5) tr s ∧ s.called = [(5, 1), (5, 1)] ∧
      (∀ t, s.calls t ≤ tr.countP fun x => x.act.adds t) := by
  have hr := run_of_exec (step (U := ℕ)) (init fun _ => some 5) [.initTimer 0 1, .addTimer 1 100, .expire 1, .finish 1,
    .addTimer 1 100, .addTimer 1 200, .expire 1, .destroyTimer 1] rfl
  exact ⟨_, _, hr.1, (called_once_per_add hr.1).1, (called_once_per_add hr.1).2⟩

/-! ## Deleted for good -/

/-- The timer has no source that can be armed. -/
def Dead (t : T) (s : State T U F) : Prop := ∀ src ∈ (s.timers t).timer, src.cancelled = true

omit [DecidableEq T] [DecidableEq U] in
theorem Dead.not_pending {t : T} {s : State T U F} (h : Dead t s) : s.status t ≠ .pending := by
  unfold State.status
  cases hsrc : (s.timers t).timer with
  | none => nofun
  | some src =>
    have hc := h src hsrc
    rw [status_idle fun hp => absurd (hp.2.symm.trans hc) nofun]
    nofun

omit [DecidableEq U] in
theorem dead_setSource {t t' : T} {s : State T U F} {src : Option (Source T)} (h : t = t' → ∀ x ∈ src, x.cancelled = true)
    (ho : t ≠ t' → Dead t s) : Dead t (s.setSource t' src) := by
  unfold Dead State.setSource
  by_cases e : t = t'
  · subst e
    simpa using h rfl
  · simp only [Function.update_of_ne e]
    exact ho e

theorem dead_del {t : T} {ret : Int} {s s' : State T U F} (h : Step s (.delTimerSync t ret) s') : Dead t s' := by
  cases step_effect h with
  | @delTimerSync _ src _ =>
    refine dead_setSource (fun _ x hx => ?_) (fun hne => absurd rfl hne)
    cases hx
    rfl
  | delNothing hsrc =>
    intro src hx
    rw [hsrc] at hx
    cases hx

/-- Only `init_timer` gives the timer a source that can be armed. -/
theorem Dead.step {t : T} {s s' : State T U F} {a : Act T U} (hd : Dead t s) (ha : ∀ u, a ≠ .initTimer u t)
    (h : Step s a s') : Dead t s' := by
  cases step_effect h with
  | @initTimer u t' _ => exact dead_setSource (fun e => absurd (e ▸ rfl) (ha u)) fun _ => hd
  | @addTimer t' ns src hsrc =>
    refine dead_setSource (fun e x hx => ?_) fun _ => hd
    subst e
    cases hx
    unfold Source.setTimeout
    rw [if_pos (hd src hsrc)]
    exact hd src hsrc
  | @delTimerSync t' src _ =>
    refine dead_setSource (fun _ x hx => ?_) fun _ => hd
    cases hx
    rfl
  | @destroyTimer t' src _ => exact dead_setSource (fun _ _ hx => by cases hx) fun _ => hd
  | @expire t' src hsrc hpending _ =>
    refine dead_setSource (fun e x hx => ?_) fun _ => hd
    subst e
    cases hx
    exact hd src hsrc
  | addNothing | delNothing | destroyNothing | finish => exact hd

/-- A step that begins no callback of the timer calls nothing for it. -/
theorem calls_step {t : T} {s s' : State T U F} {a : Act T U} (hc : Captured s) (ha : a ≠ .expire t) (h : Step s a s') :
    s'.calls t = s.calls t := by
  unfold State.calls
  rw [called_step hc h, List.countP_append, Nat.add_eq_left, List.countP_eq_zero]
  intro c hmem
  cases a with
  | expire t' =>
    have hne : t' ≠ t := fun he => ha (congrArg _ he)
    obtain ⟨f, -, rfl⟩ := Option.map_eq_some_iff.1 (Option.mem_toList.1 hmem)
    simpa using hne
  | _ => cases hmem

/-- It does not expire. -/
theorem Dead.not_expire {t : T} {s s' : State T U F} {a : Act T U} (hd : Dead t s) (h : Step s a s') : a ≠ .expire t := by
  rintro rfl
  cases step_effect h with
  | expire hsrc hpending _ => exact hd.not_pending ((status_of_source hsrc).trans (status_pending hpending))

/-- From `del_timer_sync` on, a timer is not armed and calls nothing until it is
initialised again, however often it is added. -/
theorem deleted_for_good {function : T → Option F} {tr₁ mid tail : List (Tr (State T U F) (Act T U))}
    {x : Tr (State T U F) (Act T U)} {s : State T U F} (h : Run Step (init function) (tr₁ ++ x :: (mid ++ tail)) s)
    {t : T} {ret : Int} (hact : x.act = .delTimerSync t ret) (hinit : ∀ y ∈ mid, ∀ u, y.act ≠ .initTimer u t) :
    (x.post.status t ≠ .pending ∧ x.post.calls t = x.pre.calls t) ∧
      ∀ y ∈ mid, y.act ≠ .expire t ∧ y.post.status t ≠ .pending ∧ y.post.calls t = x.post.calls t := by
  have hcaptured := (h.inv Captured captured_init fun _ _ _ hi hst => captured_step hi hst).2
  obtain ⟨hcpre, -, hcpost⟩ := hcaptured x (by simp)
  obtain ⟨-, hx, hrest⟩ := h.split
  have hdead : Dead t x.post := dead_del (hact ▸ hx)
  have hne : x.act ≠ .expire t := by
    rw [hact]
    simp
  refine ⟨⟨hdead.not_pending, calls_step hcpre hne hx⟩, fun y hy => ?_⟩
  obtain ⟨mid₁, mid₂, rfl⟩ := List.append_of_mem hy
  rw [List.append_assoc, List.cons_append] at hrest
  obtain ⟨hbefore, hst, -⟩ := hrest.split
  obtain ⟨hc, hd, hcalls⟩ := (hbefore.inv_of_cond (fun s => Captured s ∧ Dead t s ∧ s.calls t = x.post.calls t)
    (fun _ a => ∀ u, a ≠ .initTimer u t) ⟨hcpost, hdead, rfl⟩
    (fun s a s' ⟨hc, hd, hcalls⟩ ha hst =>
      ⟨captured_step hc hst, hd.step ha hst, (calls_step hc (hd.not_expire hst) hst).trans hcalls⟩)
    fun z hz => hinit z (List.mem_append_left _ hz)).1
  have hyne := hd.not_expire hst
  exact ⟨hyne, (hd.step (hinit y hy) hst).not_pending, (calls_step hc hyne hst).trans hcalls⟩

/-- A timer that is deleted and added again, next to one that fires. -/
theorem deleted_for_good_added : ∃ (tr₁ mid : List (Tr (State ℕ ℕ ℕ) (Act ℕ ℕ))) (x : Tr (State ℕ ℕ ℕ) (Act ℕ ℕ))
    (s : State ℕ ℕ ℕ), Run Step (init fun _ => some 5) (tr₁ ++ x :: (mid ++ [])) s ∧
      (tr₁ ++ x :: mid).map (·.act) = [.initTimer 0 1, .initTimer 0 2, .addTimer 2 100, .delTimerSync 1 1,
        .addTimer 1 100, .expire 2] ∧
      x.post.status 1 ≠ .pending ∧
      ∀ y ∈ mid, y.act ≠ .expire 1 ∧ y.post.status 1 ≠ .pending ∧ y.post.calls 1 = x.post.calls 1 := by
  obtain ⟨tr, s, he, tr₁, mid, x, rfl, hact, hinit⟩ : ∃ (tr : List (Tr (State ℕ ℕ ℕ) (Act ℕ ℕ))) (s : State ℕ ℕ ℕ),
      exec step (init fun _ => some 5) [.initTimer 0 1, .initTimer 0 2, .addTimer 2 100, .delTimerSync 1 1,
        .addTimer 1 100, .expire 2] = some (tr, s) ∧ ∃ tr₁ mid x, tr = tr₁ ++ x :: (mid ++ []) ∧
        x.act = .delTimerSync 1 1 ∧ ∀ y ∈ mid, ∀ u, y.act ≠ .initTimer u 1 :=
    ⟨_, _, rfl, [_, _, _], [_, _], _, rfl, rfl, by simp⟩
  obtain ⟨hr, hacts⟩ := run_of_exec step _ _ he
  obtain ⟨⟨hpost, -⟩, hmid⟩ := deleted_for_good hr hact hinit
  exact ⟨tr₁, mid, x, s, hr, by simpa using hacts, hpost, hmid⟩

end PortingKit.Linux.Timer
