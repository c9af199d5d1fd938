import PortingKit.Linux.WorkRaces
/-!
# The system-wide queue, step by step

What the header promises of its one queue holds of a run in which the calls are
kept apart and each takes effect only from the unit that all unfinished work is
from. The order of two calls that overlap is that of their blocks.
-/
open PortingKit.Lib

namespace PortingKit.Linux.Workqueue.Calls

variable {T U W F : Type} [DecidableEq T] [DecidableEq U] [DecidableEq W] {s s' : State T U W F}

/-- Work has executed in the order it was scheduled, one item at a time, and each
flush that returned has waited for all that was accepted before it was called. -/
structure SystemWide (tr : List (Tr (State T U W F) (Act T U W F))) (s : State T U W F) : Prop where
  order : s.started.map (·.id) = List.range s.started.length
  one : ∀ p q, (s.queues p).running ≠ none → (s.queues q).running ≠ none → p = q
  flushed : ∀ x ∈ tr, ∀ t u, x.act = .flush t u → s.calls t = .idle → s.pc t = .idle →
    ∀ id < x.pre.accepted.length, s.finished.count id = 1

/-! ## The work of other units -/

/-- Whoever has called a flush has still to look for its queue, or what was accepted
before from other units is finished. -/
def Elsewhere (s : State T U W F) (t : T) (u : U) (n : Nat) : Prop :=
  s.calls t = .flushTest u ∨ s.calls t = .flushSync u ∨ ∀ id < n, s.whole.origin id = some u ∨ id ∈ s.finished

omit [DecidableEq T] [DecidableEq U] [DecidableEq W] in
/-- A flush takes effect while all unfinished work is from its own unit. -/
theorem elsewhere_of_only {u : U} (ho : Only s.whole u) {n : Nat} (hn : n ≤ s.accepted.length) :
    ∀ id < n, s.whole.origin id = some u ∨ id ∈ s.finished := by
  intro id hid
  by_cases hfin : id ∈ s.finished
  · exact .inr hfin
  · have hget := List.getElem?_eq_getElem (hid.trans_le hn)
    left
    change s.accepted[id]?.map (·.1) = some u
    rw [hget, Option.map_some, ho id _ hget hfin]

theorem accepted_step {a : Act T U W F} (hst : Step s a s') : s.accepted <+: s'.accepted ∧ s.finished ⊆ s'.finished := by
  cases step_does hst with
  | dispatch => exact ⟨List.prefix_append _ _, List.Subset.refl _⟩
  | done => exact ⟨List.prefix_refl _, List.subset_append_left _ _⟩
  | _ => exact ⟨List.prefix_refl _, List.Subset.refl _⟩

theorem elsewhere_keep {a : Act T U W F} (hst : Step s a s') {u : U} {n : Nat} (hn : n ≤ s.accepted.length)
    (h : ∀ id < n, s.whole.origin id = some u ∨ id ∈ s.finished) : ∀ id < n, s'.whole.origin id = some u ∨ id ∈ s'.finished := by
  intro id hid
  obtain ⟨⟨l, hl⟩, hsub⟩ := accepted_step hst
  rcases h id hid with ho | hf
  · left
    change s'.accepted[id]?.map (·.1) = some u
    rw [← hl, List.getElem?_append_left (hid.trans_le hn)]
    exact ho
  · exact .inr (hsub hf)

theorem elsewhere_step {a : Act T U W F} (hone : OneUnit s a) (hst : Step s a s') {t : T} {u : U} {n : Nat}
    (hn : n ≤ s.accepted.length) (h : Elsewhere s t u n) : Elsewhere s' t u n := by
  -- The flush goes on, which takes it to its effect.
  have hin : ∀ {c : Call U W F}, s.calls t = c → c ≠ .idle → a.caller = some t →
      (TakesEffect s c u ∨ s'.calls t = .flushSync u) → Elsewhere s' t u n := by
    intro c hc hne ha heff
    obtain rfl := advance_of_caller hst ha (hc ▸ hne)
    rcases heff with heff | hsync
    · exact .inr (.inr (elsewhere_keep hst hn (elsewhere_of_only (hone u (hc ▸ heff)) hn)))
    · exact .inr (.inl hsync)
  rcases h with hc | hc | hdone
  · by_cases ha : a.caller = some t
    · refine hin hc (by simp) ha ?_
      cases hq : s.gSystemWorkQueue u with
      | none => exact .inl ⟨rfl, hq⟩
      | some q =>
        obtain rfl := advance_of_caller hst ha (by rw [hc]; simp)
        simp only [Step, step, advance, hc, hq, Option.some.injEq] at hst
        subst hst
        exact .inr (Function.update_self ..)
    · exact .inl ((calls_step hst ha).trans hc)
  · by_cases ha : a.caller = some t
    · exact hin hc (by simp) ha (.inl rfl)
    · exact .inr (.inl ((calls_step hst ha).trans hc))
  · exact .inr (.inr (elsewhere_keep hst hn hdone))

/-- So it is of every flush of a run. -/
theorem run_elsewhere {func : W → Option F} {tr : List (Tr (State T U W F) (Act T U W F))} (hr : Run Step (init func) tr s)
    (hone : ∀ x ∈ tr, OneUnit x.pre x.act) : ∀ x ∈ tr, ∀ t u, x.act = .flush t u →
      x.pre.accepted.length ≤ s.accepted.length ∧ Elsewhere s t u x.pre.accepted.length := by
  induction hr with
  | nil =>
    intro x hx
    cases hx
  | @snoc tr s a s' _ hst ih =>
    intro x hx t u hact
    have hle := (accepted_step hst).1.length_le
    rcases List.mem_append.1 hx with hx | hx
    · obtain ⟨hn, he⟩ := ih (fun x hx => hone x (List.mem_append_left _ hx)) x hx t u hact
      exact ⟨hn.trans hle, elsewhere_step (hone ⟨s, a, s'⟩ (List.mem_append_right _ List.mem_cons_self)) hst hn he⟩
    · rw [List.mem_singleton] at hx
      subst hx
      subst hact
      refine ⟨hle, .inl ?_⟩
      cases step_does hst with
      | flush => exact Function.update_self ..

/-! ## One queue at a time -/

/-- Whole calls, one unit at a time. -/
structure Single (s : State T U W F) : Prop where
  inv : Inv s
  waits : Waits s.whole
  whole : Workqueue.Inv s.whole

theorem single_step {a : Act T U W F} (h : Single s) (ha : Apart s a ∧ OneUnit s a) (hst : Step s a s') : Single s' := by
  have hi' := inv_step h.inv (fun _ _ _ => h.inv.waiting h.waits) ha.1 hst
  rcases whole_step h.inv hst with ⟨hsame, -⟩ | ⟨b, hb, hone⟩
  · exact ⟨hi', hsame ▸ h.waits, hsame ▸ h.whole⟩
  · exact ⟨hi', waits_step h.waits (step_fences hb), Workqueue.inv_step h.whole (hone.2 ha.2) hb⟩

theorem run_single {func : W → Option F} {tr : List (Tr (State T U W F) (Act T U W F))} (hr : Run Step (init func) tr s)
    (hc : ∀ x ∈ tr, Apart x.pre x.act ∧ OneUnit x.pre x.act) : Single s :=
  (hr.inv_of_cond Single (fun s a => Apart s a ∧ OneUnit s a) ⟨inv_init func, waits_init func, Workqueue.inv_init func⟩
    (fun _ _ _ h ha hst => single_step h ha hst) hc).1

/-- In a run whose calls are kept apart and take effect only from the unit that all
unfinished work is from, the queue is one for the system. -/
theorem systemWide_of_oneUnit (func : W → Option F) (tr : List (Tr (State T U W F) (Act T U W F)))
    (hr : Run Step (init func) tr s) (hap : ∀ x ∈ tr, Apart x.pre x.act) (hone : ∀ x ∈ tr, OneUnit x.pre x.act) :
    SystemWide tr s := by
  have h := run_single hr fun x hx => ⟨hap x hx, hone x hx⟩
  have hwide := h.whole.systemWide
  refine ⟨hwide.order, fun p q hp hq => ?_, fun x hx t u hact hc hpc id hid => ?_⟩
  · obtain ⟨u, hu⟩ := h.inv.unit (q := p) fun e => hp (by rw [e])
    obtain ⟨v, hv⟩ := h.inv.unit (q := q) fun e => hq (by rw [e])
    obtain rfl := hwide.one u v (by rwa [whole_running hu]) (by rwa [whole_running hv])
    rw [hu] at hv
    exact Option.some.inj hv
  · have hf := run_flushes hr hap
    obtain ⟨_, _, hr'⟩ := hf.whole
    have hown := hf.waited hx hact hc (by rw [hpc]; simp)
    refine (run_flushing hr').served.finished_once (?_ : id ∈ s.whole.finished)
    rcases (run_elsewhere hr hone x hx t u hact).2 with htest | hsync | hother
    · rw [hc] at htest
      cases htest
    · rw [hc] at hsync
      cases hsync
    · exact (hother id hid).elim (hown id hid) fun hfin => hfin

/-- A unit is done with its item before another one schedules and flushes. -/
def inTurn : List (Act Bool Bool Nat Nat) :=
  [.initWork 1 (some 7), .scheduleWork false false (some 1)] ++ List.replicate 6 (.advance false) ++ [.run 0, .done 0] ++
    [.scheduleWork true true (some 1)] ++ List.replicate 6 (.advance true) ++
    [.flush true true, .advance true, .advance true, .run 1, .done 1, .run 1, .flushReturn true]

theorem systemWide_of_oneUnit_turn : ∃ tr s, Run Step (init fun _ => none) tr s ∧ tr.map (·.act) = inTurn ∧
    s.accepted = [(false, 1), (true, 1)] ∧ s.flushed = [2] ∧ SystemWide tr s := by
  have hr := run_of_exec step (init fun _ => none) inTurn rfl
  exact ⟨_, _, hr.1, hr.2, rfl, rfl, systemWide_of_oneUnit _ _ hr.1 (by decide) (by decide)⟩

/-- One unit schedules an item, and a flush from another, which has no queue, returns. -/
theorem not_systemWide : ¬ ∀ (tr : List (Tr (State Unit Bool Nat Nat) (Act Unit Bool Nat Nat))) s,
    Run Step (init fun _ => none) tr s → SystemWide tr s := by
  intro h
  have hr := (run_of_exec (step (T := Unit)) (init fun _ => none)
    ([.initWork 1 (some 7), .scheduleWork () false (some 1)] ++ List.replicate 6 (.advance ()) ++
      [.flush () true, .advance ()]) rfl).1
  have hcount := (h _ _ hr).flushed _ (List.mem_of_getElem? (i := 8) rfl) () true rfl rfl rfl 0 (by decide)
  cases hcount

end PortingKit.Linux.Workqueue.Calls
