import PortingKit.Linux.WorkCalls
/-!
# What a race of the calls can do

As long as the calls of a unit are kept apart while its queue is made, a flush
waits for what it should. When they race, a unit may get two queues, and a flush
waits on the one that was stored last. But whatever the calls do, each queue does
what it was given, so nothing is lost or executed twice.
-/
open PortingKit.Lib

namespace PortingKit.Linux.Workqueue.Calls

variable {T U W F : Type} [DecidableEq T] [DecidableEq U] [DecidableEq W] {s s' : State T U W F}

/-! ## A flush, step by step -/

/-- The thread whose call a step is of. -/
def Act.caller : Act T U W F → Option T
  | .scheduleWork t _ _ | .flush t _ | .advance t => some t
  | _ => none

/-- Nobody else moves a thread's call on. -/
theorem calls_step {a : Act T U W F} {t : T} (hst : Step s a s') (ha : a.caller ≠ some t) : s'.calls t = s.calls t := by
  cases step_does hst with
  | initWork | flushReturn _ | runWork _ _ | runBarrier _ _ | done _ => rfl
  | _ => exact Function.update_of_ne (fun e => ha (congrArg some e.symm)) _ _

/-- A call that is under way goes on by `advance` alone. -/
theorem advance_of_caller {a : Act T U W F} {t : T} (hst : Step s a s') (ha : a.caller = some t) (hc : s.calls t ≠ .idle) :
    a = .advance t := by
  cases step_does hst with
  | scheduleWork _ _ _ h _ | flush _ _ h _ =>
    cases ha
    exact absurd h hc
  | initWork | flushReturn _ | runWork _ _ | runBarrier _ _ | done _ => cases ha
  | _ =>
    cases ha
    rfl

/-- Where a flush may be that began when `n` calls had been accepted. -/
inductive Pending (s : State T U W F) (t : T) (u : U) (n : Nat) : Prop
  | tests : s.calls t = .flushTest u → Pending s t u n
  | syncs : s.calls t = .flushSync u → Pending s t u n
  /-- It found `m` accepted, those that had been and more. -/
  | waits (m : Nat) : n ≤ m → .barrier t m ∈ s.whole.blocks u → Pending s t u n
  | served : FinishedUpTo s.whole u n → Pending s t u n

theorem pending_test {a : Act T U W F} {t : T} {u : U} {n : Nat} (hs : Served s.whole) (hq : Queues s.whole)
    (hn : n ≤ s.accepted.length) (hc : s.calls t = .flushTest u) (hst : Step s a s') : Pending s' t u n := by
  by_cases ha : a.caller = some t
  · obtain rfl := advance_of_caller hst ha (by rw [hc]; simp)
    simp only [Step, step, advance, hc] at hst
    split at hst
    · cases hst
      exact .syncs (Function.update_self ..)
    · -- It returns at once: the unit has scheduled nothing yet.
      rename_i hnone
      cases hst
      have hfin := finished_of_none hs hq (u := u) (by simp [State.whole, hnone])
      exact .served fun id hid ho => hfin id (hid.trans_le hn) ho
  · exact .tests ((calls_step hst ha).trans hc)

theorem pending_sync {a : Act T U W F} {t : T} {u : U} {n : Nat} (hi : Inv s) (hn : n ≤ s.accepted.length)
    (hc : s.calls t = .flushSync u) (hst : Step s a s') : Pending s' t u n := by
  by_cases ha : a.caller = some t
  · obtain rfl := advance_of_caller hst ha (by rw [hc]; simp)
    simp only [Step, step, advance, hc] at hst
    split at hst
    · rename_i q hq
      cases hst
      refine .waits _ hn ?_
      have hput := whole_put (b := .barrier t s.accepted.length) hi hq rfl
      have hblocks : (s.put q (.barrier t s.accepted.length)).whole.blocks =
          Function.update s.whole.blocks u (s.whole.blocks u ++ [.barrier t s.accepted.length]) :=
        blocks_snoc (whole_queue hq) (by rw [hput]; rfl)
      change _ ∈ (s.put q (.barrier t s.accepted.length)).whole.blocks u
      rw [hblocks, Function.update_self]
      exact List.mem_append_right _ List.mem_cons_self
    · cases hst
  · exact .syncs ((calls_step hst ha).trans hc)

theorem pending_step {a : Act T U W F} {t : T} {u : U} {n : Nat} (hi : Inv s) (hw : Served s.whole ∧ Queues s.whole)
    (hst : Step s a s') (hseen : s'.whole = s.whole ∨ ∃ b, Workqueue.Step s.whole b s'.whole)
    (hn : n ≤ s.accepted.length) (h : Pending s t u n) : Pending s' t u n := by
  cases h with
  | tests hc => exact pending_test hw.1 hw.2 hn hc hst
  | syncs hc => exact pending_sync hi hn hc hst
  | waits m hm hbar =>
    rcases hseen with hsame | ⟨b, hb⟩
    · exact .waits m hm (hsame ▸ hbar)
    · rcases barrier_step hw.1 hw.2 hbar hb with hbar' | hfin
      · exact .waits m hm hbar'
      · exact .served fun id hid ho => hfin id (hid.trans_le hm) ho
  | served hfin =>
    rcases hseen with hsame | ⟨b, hb⟩
    · exact .served (hsame ▸ hfin)
    · exact .served (hfin.step hn hb)

/-- Every flush that was called is somewhere in its steps or has waited long enough. -/
structure Flushes (tr : List (Tr (State T U W F) (Act T U W F))) (s : State T U W F) : Prop where
  inv : Inv s
  whole : ∃ func tr', Run Workqueue.Step (Workqueue.init func) tr' s.whole
  called : ∀ x ∈ tr, ∀ t u, x.act = .flush t u →
    x.pre.accepted.length ≤ s.accepted.length ∧ Pending s t u x.pre.accepted.length

theorem flushes_step {tr : List (Tr (State T U W F) (Act T U W F))} {a : Act T U W F} (h : Flushes tr s)
    (ha : Apart s a) (hst : Step s a s') : Flushes (tr ++ [⟨s, a, s'⟩]) s' := by
  obtain ⟨func, tr', hr⟩ := h.whole
  have hf := run_flushing hr
  obtain ⟨hi', hseen⟩ := step_sim h.inv hf.waits ha hst
  have hle : s.accepted.length ≤ s'.accepted.length := by
    rcases hseen with hsame | ⟨b, hb⟩
    · exact (congrArg (·.accepted.length) hsame).ge
    · exact (step_grows hb).1.length_le
  refine ⟨hi', ?_, fun x hx t u hact => ?_⟩
  · rcases hseen with hsame | ⟨b, hb⟩
    · exact ⟨func, tr', hsame ▸ hr⟩
    · exact ⟨func, _, hr.snoc hb⟩
  · rcases List.mem_append.1 hx with hx | hx
    · obtain ⟨hn, hp⟩ := h.called x hx t u hact
      exact ⟨hn.trans hle, pending_step h.inv ⟨hf.served, hf.queues⟩ hst hseen hn hp⟩
    · rw [List.mem_singleton] at hx
      subst hx
      subst hact
      refine ⟨hle, .tests ?_⟩
      cases step_does hst with
      | flush => exact Function.update_self ..

theorem run_flushes {func : W → Option F} {tr : List (Tr (State T U W F) (Act T U W F))} (hr : Run Step (init func) tr s)
    (hap : ∀ x ∈ tr, Apart x.pre x.act) : Flushes tr s := by
  refine hr.inv_history (fun tr s => (∀ x ∈ tr, Apart x.pre x.act) → Flushes tr s) (fun _ => ?_)
    (fun tr s a s' h hst hap => ?_) hap
  · exact ⟨inv_init func, ⟨func, [], .nil⟩, fun _ hx => by cases hx⟩
  · exact flushes_step (h fun x hx => hap x (List.mem_append_left _ hx))
      (hap _ (List.mem_append_right _ List.mem_cons_self)) hst

/-- A thread whose flush is over has waited for its unit. -/
theorem Flushes.waited {tr : List (Tr (State T U W F) (Act T U W F))} (h : Flushes tr s)
    {x : Tr (State T U W F) (Act T U W F)} (hx : x ∈ tr) {t : T} {u : U} (hact : x.act = .flush t u) (hc : s.calls t = .idle)
    (ht : s.pc t ≠ .waiting) : FinishedUpTo s.whole u x.pre.accepted.length := by
  obtain ⟨_, _, hr⟩ := h.whole
  cases (h.called x hx t u hact).2 with
  | tests hcall | syncs hcall =>
    rw [hc] at hcall
    cases hcall
  | waits m _ hbar =>
    have hmem : t ∈ s.whole.barriers u := List.mem_filterMap.2 ⟨_, hbar, rfl⟩
    exact absurd (((run_flushing hr).waits.waiting t).2 ⟨u, hmem⟩) ht
  | served hfin => exact hfin

/-- With the calls kept apart, a thread that called `flush_scheduled_work` and is
back: all that its unit had dispatched before the call has been executed, once each. -/
theorem flush_waits_in_steps (func : W → Option F) (tr : List (Tr (State T U W F) (Act T U W F)))
    (hr : Run Step (init func) tr s) (hap : ∀ x ∈ tr, Apart x.pre x.act) (x : Tr (State T U W F) (Act T U W F)) (hx : x ∈ tr)
    (t : T) (u : U) (hact : x.act = .flush t u) (hc : s.calls t = .idle) (ht : s.pc t ≠ .waiting) :
    ∀ id < x.pre.accepted.length, s.accepted[id]?.map (·.1) = some u → s.finished.count id = 1 := by
  have h := run_flushes hr hap
  obtain ⟨_, _, hr'⟩ := h.whole
  intro id hid ho
  exact (run_flushing hr').served.finished_once (h.waited hx hact hc ht id hid ho)

theorem flush_waits_in_steps_between : ∃ tr s, Run Step (init fun _ => none) tr s ∧ tr.map (·.act) = flushedBetween ∧
    s.flushed = [1] ∧ s.finished.count 0 = 1 := by
  have hr := run_of_exec step (init fun _ => none) flushedBetween rfl
  refine ⟨_, _, hr.1, hr.2, rfl, ?_⟩
  exact flush_waits_in_steps _ _ hr.1 (by decide) _ (List.mem_of_getElem? (i := 8) rfl) true () rfl rfl nofun 0
    (by decide) rfl

/-- Both threads find no queue, and the second to store one replaces the first's. -/
def raced : List (Act Bool Unit Nat Nat) :=
  [.initWork 1 (some 7), .scheduleWork false () (some 1), .scheduleWork true () (some 1), .advance false, .advance true,
    .advance false, .advance false, .advance false, .advance false, .advance false, .advance true, .advance true,
    .flush false (), .advance false, .advance false, .run 1, .flushReturn false]

/-- Then a flush returns and what had been dispatched before it has not been executed. -/
theorem race_misses_work : ∃ tr s, Run Step (init fun _ => none) tr s ∧ tr.map (·.act) = raced ∧
    (∃ x ∈ tr, x.act = .flush false () ∧ x.pre.accepted = [((), 1)]) ∧ s.calls false = .idle ∧ s.pc false = .idle ∧
    s.finished = [] := by
  have hr := run_of_exec step (init fun _ => none) raced rfl
  exact ⟨_, _, hr.1, hr.2, ⟨_, List.mem_of_getElem? (i := 12) rfl, rfl, rfl⟩, rfl, rfl, rfl⟩

/-! ## Queues made and kept -/

/-- What holds however the calls race. -/
structure Made (s : State T U W F) : Prop where
  named : s.lazy.Named
  unmade : ∀ q, s.made ≤ q → s.queues q = ⟨[], none⟩
  busy : ∀ t, s.calls t ≠ .idle → s.pc t = .idle

omit [DecidableEq T] [DecidableEq U] [DecidableEq W] in
theorem made_init (func : W → Option F) : Made (init func : State T U W F) where
  named := Lazy.named_init
  unmade _ _ := rfl
  busy _ _ := rfl

omit [DecidableEq T] [DecidableEq U] [DecidableEq W] in
theorem Made.stored (h : Made s) {u : U} {q : Nat} (hq : s.gSystemWorkQueue u = some q) : q < s.made :=
  h.named.lt q (.inr u) hq

omit [DecidableEq T] [DecidableEq U] [DecidableEq W] in
/-- A queue with anything on it has been made. -/
theorem Made.lt (h : Made s) {q : Nat} (hq : s.queues q ≠ ⟨[], none⟩) : q < s.made := by
  by_contra hno
  exact hq (h.unmade q (Nat.le_of_not_lt hno))

theorem named_of_step {a : Act T U W F} (h : s.lazy.Named) (hst : Step s a s') : s'.lazy.Named := by
  rcases step_lazy hst with ⟨hsame, -⟩ | ⟨b, hb, -⟩
  · rw [hsame]
    exact h
  · exact Lazy.named_step h hb

theorem unmade_step {a : Act T U W F} (h : Made s) (hst : Step s a s') : ∀ q, s'.made ≤ q → s'.queues q = ⟨[], none⟩ := by
  have hset : ∀ {q : Nat} {queue : Queue T F}, q < s.made → s'.queues = Function.update s.queues q queue →
      s'.made = s.made → ∀ p, s'.made ≤ p → s'.queues p = ⟨[], none⟩ := by
    intro q queue hlt hq hm p hp
    rw [hm] at hp
    rw [hq, Function.update_of_ne (by omega)]
    exact h.unmade p hp
  cases step_does hst with
  | create _ => exact fun p hp => h.unmade p (Nat.le_of_succ_le hp)
  | dispatch _ hq | flushSync _ hq => exact hset (h.stored hq) rfl rfl
  | runWork _ hblocks | runBarrier _ hblocks => exact hset (h.lt fun e => by simp [e] at hblocks) rfl rfl
  | done hrun => exact hset (h.lt fun e => by simp [e] at hrun) rfl rfl
  | _ => exact h.unmade

theorem made_step {a : Act T U W F} (h : Made s) (hw : ∀ q t n, .barrier t n ∈ (s.queues q).blocks → s.pc t = .waiting)
    (hst : Step s a s') : Made s' :=
  ⟨named_of_step h.named hst, unmade_step h hst, busy_step h.busy hw hst⟩

/-! ## Queue by queue -/

/-- A state of the model of whole calls in which every queue that was made is a unit's. -/
structure EachQueue (s : State T U W F) (b : Workqueue.State T Nat W (Option F)) : Prop where
  queues : ∀ q, b.gSystemWorkQueue q = if q < s.made then some (s.queues q).blocks else none
  running : ∀ q, b.running q = (s.queues q).running
  pc : b.pc = s.pc
  accepted : b.accepted.length = s.accepted.length
  finished : b.finished = s.finished
  flushed : b.flushed = s.flushed

variable {b : Workqueue.State T Nat W (Option F)}

omit [DecidableEq T] [DecidableEq U] [DecidableEq W] in
theorem EachQueue.queue (he : EachQueue s b) {q : Nat} (hq : q < s.made) :
    b.gSystemWorkQueue q = some (s.queues q).blocks := by
  rw [he.queues, if_pos hq]

omit [DecidableEq T] [DecidableEq U] [DecidableEq W] in
/-- The same change of a queue's blocks on both sides. -/
theorem EachQueue.set_blocks (he : EachQueue s b) {q : Nat} (hq : q < s.made) (queue : Queue T F) (p : Nat) :
    Function.update b.gSystemWorkQueue q (some queue.blocks) p =
      if p < s.made then some (Function.update s.queues q queue p).blocks else none := by
  by_cases e : p = q
  · subst e
    simp [hq]
  · simp [e, he.queues p]

omit [DecidableEq T] [DecidableEq U] [DecidableEq W] in
/-- The same change of what it executes. -/
theorem EachQueue.set_running (he : EachQueue s b) (q : Nat) (queue : Queue T F) (p : Nat) :
    Function.update b.running q queue.running p = (Function.update s.queues q queue p).running := by
  by_cases e : p = q
  · subst e
    simp
  · simp [e, he.running p]

omit [DecidableEq T] [DecidableEq U] [DecidableEq W] in
/-- A change that leaves what it executes. -/
theorem EachQueue.keep_running (he : EachQueue s b) {q : Nat} (queue : Queue T F)
    (h : queue.running = (s.queues q).running) (p : Nat) : b.running p = (Function.update s.queues q queue p).running := by
  rw [← he.set_running q queue p, h, ← he.running q, Function.update_eq_self]

omit [DecidableEq U] in
/-- A block is dispatched as by a whole call on an item that has just been given what
was copied. -/
theorem dispatch_each (he : EachQueue s b) {t : T} {u : U} {w : W} {func : Option F} {q : Nat} (hlt : q < s.made) :
    ∃ tr b', Run Workqueue.Step b tr b' ∧ EachQueue
      { (s.goto t .idle).put q (.work s.accepted.length func) with accepted := s.accepted ++ [(u, w)] } b' := by
  have hset : Workqueue.Step b (.initWork w (some func)) (Workqueue.initWork b w (some func)) := rfl
  have hacc := step_accept (b := Workqueue.initWork b w (some func)) (w := w) (he.queue hlt) (Function.update_self ..)
  refine ⟨_, _, (Run.nil.snoc hset).snoc hacc, ⟨fun p => ?_, fun p => ?_, he.pc, ?_, he.finished, he.flushed⟩⟩
  · change Function.update b.gSystemWorkQueue q (some (_ ++ [.work b.accepted.length func])) p = _
    rw [he.accepted]
    exact he.set_blocks hlt ⟨_, _⟩ p
  · exact he.keep_running ⟨(s.queues q).blocks ++ [.work s.accepted.length func], _⟩ rfl p
  · simp [Workqueue.initWork, he.accepted]

/-- Whole calls that do what a step does to the queues. -/
theorem step_each {a : Act T U W F} (hm : Made s) (he : EachQueue s b) (hst : Step s a s') :
    ∃ tr b', Run Workqueue.Step b tr b' ∧ EachQueue s' b' := by
  have hone : ∀ {c b'}, Workqueue.Step b c b' → EachQueue s' b' → ∃ tr b', Run Workqueue.Step b tr b' ∧ EachQueue s' b' :=
    fun hb he' => ⟨_, _, Run.nil.snoc hb, he'⟩
  have hnone : b.gSystemWorkQueue s.made = none := by rw [he.queues, if_neg (Nat.lt_irrefl _)]
  cases step_does hst with
  | @create t u work _ =>
    refine hone (step_ensure hnone) { he with queues := fun p => ?_ }
    by_cases e : p = s.made
    · subst e
      simp [State.goto, hm.unmade s.made (Nat.le_refl _)]
    · simp only [Function.update_of_ne e, he.queues p, State.goto]
      have hiff : p < s.made ↔ p < s.made + 1 := by omega
      simp only [hiff]
  | dispatch _ hq => exact dispatch_each he (hm.stored hq)
  | @flushNothing t u hc _ =>
    have hpc : b.pc t = .idle := by rw [he.pc, hm.busy t (by rw [hc]; simp)]
    have hflush : Workqueue.Step b (.flush t s.made) { b with flushed := b.flushed ++ [b.accepted.length] } := by
      simp [Workqueue.Step, Workqueue.step, flushScheduledWork, hpc, hnone]
    refine hone hflush { he with flushed := ?_ }
    simp only [he.flushed, he.accepted]
  | @flushSync t u q hc hq =>
    have hlt := hm.stored hq
    have hpc : b.pc t = .idle := by rw [he.pc, hm.busy t (by rw [hc]; simp)]
    refine hone (step_flush hpc (he.queue hlt)) ⟨fun p => ?_, fun p => ?_, ?_, he.accepted, he.finished, he.flushed⟩
    · change Function.update b.gSystemWorkQueue q (some (_ ++ [.barrier t b.accepted.length])) p = _
      rw [he.accepted]
      exact he.set_blocks hlt ⟨_, _⟩ p
    · exact he.keep_running ⟨(s.queues q).blocks ++ [.barrier t s.accepted.length], _⟩ rfl p
    · simp only [he.pc]
  | @flushReturn t n ht =>
    have hback : Workqueue.Step b (.flushReturn t)
        { b with pc := Function.update b.pc t .idle, flushed := b.flushed ++ [n] } := by
      simp [Workqueue.Step, Workqueue.step, he.pc, ht]
    refine hone hback { he with pc := ?_, flushed := ?_ }
    · simp only [he.pc]
    · simp only [he.flushed]
  | @runWork q id f blocks hidle hblocks =>
    have hlt := hm.lt (q := q) fun e => by simp [e] at hblocks
    have hstep := step_runWork ((he.running q).trans hidle) ((he.queue hlt).trans (congrArg some hblocks))
    exact hone hstep ⟨he.set_blocks hlt ⟨blocks, some id⟩, he.set_running q ⟨blocks, some id⟩, he.pc, he.accepted, he.finished,
      he.flushed⟩
  | @runBarrier q n t blocks hidle hblocks =>
    have hlt := hm.lt (q := q) fun e => by simp [e] at hblocks
    have hstep := step_runBarrier ((he.running q).trans hidle) ((he.queue hlt).trans (congrArg some hblocks))
    refine hone hstep ⟨he.set_blocks hlt ⟨blocks, none⟩, fun p => ?_, ?_, he.accepted, he.finished, he.flushed⟩
    · exact he.keep_running ⟨blocks, none⟩ hidle.symm p
    · simp only [he.pc]
  | @done q id hbusy =>
    have hlt := hm.lt (q := q) fun e => by simp [e] at hbusy
    have hstep := step_done ((he.running q).trans hbusy)
    refine hone hstep ⟨fun p => ?_, he.set_running q ⟨(s.queues q).blocks, none⟩, he.pc, he.accepted, ?_, he.flushed⟩
    · have hset := he.set_blocks hlt ⟨(s.queues q).blocks, none⟩ p
      rw [← he.queue hlt, Function.update_eq_self] at hset
      exact hset
    · simp only [he.finished]
  | _ => exact ⟨[], b, .nil, { he with }⟩

omit [DecidableEq T] [DecidableEq U] [DecidableEq W] in
theorem EachQueue.blocks (he : EachQueue s b) (hm : Made s) (q : Nat) : b.blocks q = (s.queues q).blocks := by
  unfold State.blocks
  rw [he.queues]
  split
  · rfl
  · rw [hm.unmade q (by omega)]
    rfl

omit [DecidableEq T] [DecidableEq U] [DecidableEq W] in
theorem EachQueue.waiting (he : EachQueue s b) (hm : Made s) (hw : Waits b) {q : Nat} {t : T} {n : Nat}
    (hbar : .barrier t n ∈ (s.queues q).blocks) : s.pc t = .waiting := by
  rw [← he.pc, hw.waiting t]
  refine ⟨q, List.mem_filterMap.2 ⟨.barrier t n, ?_, rfl⟩⟩
  rw [he.blocks hm]
  exact hbar

/-- However the calls race, what is reached is what whole calls reach when each queue
that was made is a unit's. -/
theorem run_each {func : W → Option F} {tr : List (Tr (State T U W F) (Act T U W F))} (hr : Run Step (init func) tr s) :
    Made s ∧ ∃ tr' b, Run Workqueue.Step (Workqueue.init fun _ => none) tr' b ∧ EachQueue s b := by
  induction hr with
  | nil => exact ⟨made_init func, [], _, .nil, ⟨fun _ => rfl, fun _ => rfl, rfl, rfl, rfl, rfl⟩⟩
  | snoc _ hst ih =>
    obtain ⟨hm, tr', b, hr', he⟩ := ih
    obtain ⟨tr'', b', hr'', he'⟩ := step_each hm he hst
    exact ⟨made_step hm (fun _ _ _ => he.waiting hm (run_flushing hr').waits) hst, _, b', hr'.append hr'', he'⟩

omit [DecidableEq T] [DecidableEq U] [DecidableEq W] in
/-- Each accepted call has a queue of its own, which executes its calls in order. -/
theorem each_home (hm : Made s) (he : EachQueue s b) (hs : Served b) : ∃ home : Nat → Nat, ∀ q,
    s.finished.filter (home · = q) ++ (s.queues q).running.toList ++ workIds (s.queues q).blocks =
      (List.range s.accepted.length).filter (home · = q) := by
  refine ⟨fun id => (b.origin id).getD 0, fun q => ?_⟩
  have hown : ∀ ids : List Nat, (∀ id ∈ ids, id < b.accepted.length) →
      ids.filter (fun id => (b.origin id).getD 0 = q) = b.own q ids := fun ids hids => by
    refine List.filter_congr fun id hid => ?_
    have hid' := hids id hid
    unfold State.origin
    rw [List.getElem?_eq_getElem hid']
    simp
  have hq := hs.queued q
  rw [← hs.running q, he.running, he.blocks hm] at hq
  rw [hown s.finished (he.finished ▸ hs.finished), hown _ (fun id hid => by rw [he.accepted]; exact List.mem_range.1 hid),
    ← he.finished, ← he.accepted]
  exact hq

/-! ## The queues come to an end -/

/-- What a queue has left to do: twice for a block, once for the call it executes. -/
def State.left (s : State T U W F) (q : Nat) : Nat :=
  2 * (s.queues q).blocks.length + (s.queues q).running.toList.length

/-- The steps of the queues themselves. -/
def OfQueue : Act T U W F → Prop
  | .run _ => True
  | .done _ => True
  | _ => False

theorem takes_left {a : Act T U W F} (ha : OfQueue a) (hst : Step s a s') : Takes s.left s'.left := by
  have hset : ∀ {q : Nat} {queue : Queue T F}, s'.queues = Function.update s.queues q queue →
      2 * queue.blocks.length + queue.running.toList.length < s.left q → Takes s.left s'.left := by
    intro q queue hq hlt
    refine ⟨q, fun v hv => ?_, ?_⟩
    · unfold State.left
      rw [hq, Function.update_of_ne hv]
    · unfold State.left
      rw [hq, Function.update_self]
      exact hlt
  cases step_does hst with
  | runWork hidle hblocks | runBarrier hidle hblocks =>
    refine hset rfl ?_
    unfold State.left
    rw [hidle, hblocks]
    simp only [List.length_cons, Option.toList_some, Option.toList_none, List.length_nil]
    omega
  | done hrun =>
    refine hset rfl ?_
    unfold State.left
    rw [hrun]
    simp
  | _ => exact ha.elim

/-- The block that is next on a queue calls NULL. -/
def CallsNull (s : State T U W F) (q : Nat) : Prop := ∃ id blocks, (s.queues q).blocks = .work id none :: blocks

/-- A queue that cannot take a step executes nothing, and nothing waits on it unless it
is to call NULL. -/
theorem still_of_stuck (h : ∀ a, OfQueue a → step s a = none) (q : Nat) :
    (s.queues q).running = none ∧ ((s.queues q).blocks = [] ∨ CallsNull s q) := by
  have hr : (s.queues q).running = none := by
    have hd := h (.done q) trivial
    simp only [step] at hd
    split at hd
    · cases hd
    · assumption
  have hn := h (.run q) trivial
  simp only [step, runNext, hr] at hn
  refine ⟨hr, ?_⟩
  cases hb : (s.queues q).blocks with
  | nil => exact .inl rfl
  | cons c blocks =>
    cases c with
    | work id func =>
      cases func with
      | none => exact .inr ⟨id, blocks, hb⟩
      | some f => simp [hb] at hn
    | barrier t n => simp [hb] at hn

omit [DecidableEq T] [DecidableEq U] [DecidableEq W] in
/-- What is not finished when the queues are stuck waits behind a call of NULL. -/
theorem stuck_finished (hm : Made s) (he : EachQueue s b) (hs : Served b)
    (hstill : ∀ q, (s.queues q).running = none ∧ ((s.queues q).blocks = [] ∨ CallsNull s q)) {id : Nat}
    (hid : id < s.accepted.length) : s.finished.count id = 1 ∨ ∃ q, CallsNull s q ∧ id ∈ workIds (s.queues q).blocks := by
  rw [← he.accepted] at hid
  have ho : b.origin id = some b.accepted[id].1 := by
    unfold State.origin
    rw [List.getElem?_eq_getElem hid]
    rfl
  obtain ⟨hrun, hblocks⟩ := hstill b.accepted[id].1
  rcases hs.trichotomy hid ho with hf | hr | hq
  · rw [← he.finished]
    exact .inl (hs.finished_once hf)
  · rw [he.running, hrun] at hr
    cases hr
  · rw [he.blocks hm] at hq
    rcases hblocks with hnil | hnull
    · rw [hnil] at hq
      cases hq
    · exact .inr ⟨_, hnull, hq⟩

omit [DecidableEq T] [DecidableEq U] [DecidableEq W] in
/-- So does the block of a flush that still waits. -/
theorem stuck_waits (hm : Made s) (he : EachQueue s b) (hw : Waits b)
    (hstill : ∀ q, (s.queues q).running = none ∧ ((s.queues q).blocks = [] ∨ CallsNull s q)) {t : T}
    (ht : s.pc t = .waiting) : ∃ q, CallsNull s q ∧ ∃ n, .barrier t n ∈ (s.queues q).blocks := by
  rw [← he.pc, hw.waiting t] at ht
  obtain ⟨q, hq⟩ := ht
  obtain ⟨c, hc, ht⟩ := List.mem_filterMap.1 hq
  rw [he.blocks hm] at hc
  cases c with
  | work => cases ht
  | barrier t' n =>
    cases ht
    rcases (hstill q).2 with hnil | hnull
    · rw [hnil] at hc
      cases hc
    · exact ⟨q, hnull, n, hc⟩

/-- However the calls race, and whatever is set up again meanwhile: each accepted
call has a queue on which it waits, executes or has been executed, in order and
once, and the queues' own steps come to an end. Then all that do not wait behind
a block that calls NULL have been executed, and so for the threads in a flush. -/
theorem races_lose_nothing (func : W → Option F) (tr : List (Tr (State T U W F) (Act T U W F)))
    (hr : Run Step (init func) tr s) :
    (∃ home : Nat → Nat, ∀ q,
      s.finished.filter (home · = q) ++ (s.queues q).running.toList ++ workIds (s.queues q).blocks =
        (List.range s.accepted.length).filter (home · = q)) ∧
    ∃ N, ∀ tr' s', Run Step s tr' s' → (∀ x ∈ tr', OfQueue x.act) → tr'.length ≤ N ∧
      ((∀ a, OfQueue a → step s' a = none) →
        (∀ id < s'.accepted.length, s'.finished.count id = 1 ∨ ∃ q, CallsNull s' q ∧ id ∈ workIds (s'.queues q).blocks) ∧
        ∀ t, s'.pc t = .waiting → ∃ q, CallsNull s' q ∧ ∃ n, .barrier t n ∈ (s'.queues q).blocks) := by
  obtain ⟨hm, _, b, hb, he⟩ := run_each hr
  refine ⟨each_home hm he (run_served hb), ∑ q ∈ Finset.range s.made, s.left q, fun tr' s' hr' hq => ⟨?_, fun hstuck => ?_⟩⟩
  · have hwithin : OnlyIn (Finset.range s.made) s.left := fun q hq => by
      rw [Finset.mem_range, Nat.not_lt] at hq
      unfold State.left
      rw [hm.unmade q hq]
      rfl
    have hle := (hr'.length_le State.left hwithin fun x hx => takes_left (hq x hx) (hr'.steps x hx)).2
    omega
  · obtain ⟨hm', _, b', hb', he'⟩ := run_each (hr.append hr')
    have hf := run_flushing hb'
    have hstill := still_of_stuck hstuck
    exact ⟨fun id hid => stuck_finished hm' he' hf.served hstill hid, fun t ht => stuck_waits hm' he' hf.waits hstill ht⟩

theorem races_lose_nothing_raced : ∃ tr s, Run Step (init fun _ => none) tr s ∧ tr.map (·.act) = raced ∧
    (s.queues 0).blocks = [.work 0 (some 7)] ∧ (∃ home : Nat → Nat, ∀ q,
      s.finished.filter (home · = q) ++ (s.queues q).running.toList ++ workIds (s.queues q).blocks =
        (List.range s.accepted.length).filter (home · = q)) := by
  have hr := run_of_exec step (init fun _ => none) raced rfl
  exact ⟨_, _, hr.1, hr.2, rfl, (races_lose_nothing _ _ hr.1).1⟩

end PortingKit.Linux.Workqueue.Calls
