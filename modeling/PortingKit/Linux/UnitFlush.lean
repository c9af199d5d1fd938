import PortingKit.Lib.Drain
import PortingKit.Linux.PerUnit
/-!
# Flushing one unit's queue

A flush cannot wait for other units' work, but it does wait for its own: when a
thread is out of `flush_scheduled_work`, all that its unit had scheduled before
has been executed, whatever else ran. And no flush hangs: the queues' own steps
come to an end, with all work executed and every flush let go.
-/
open PortingKit.Lib

namespace PortingKit.Linux.Workqueue

variable {T U W F : Type}

def blockThread : Block T F → Option T
  | .work _ _ => none
  | .barrier t _ => some t

/-- The threads whose flush has put its block on a unit's queue, in order. -/
def State.barriers (s : State T U W F) (u : U) : List T := (s.blocks u).filterMap blockThread

variable [DecidableEq U] {s s' : State T U W F}

/-! ## The queues -/

/-- Only a queue that exists executes, and no work behind a barrier was accepted
before its flush began. -/
structure Queues (s : State T U W F) : Prop where
  nothing : ∀ u, s.gSystemWorkQueue u = none → s.running u = none
  fenced : ∀ u, (s.blocks u).Pairwise Fence
  barrier : ∀ u t n, .barrier t n ∈ s.blocks u → n ≤ s.accepted.length

omit [DecidableEq U] in
theorem queues_init (func : W → Option F) : Queues (init func : State T U W F) where
  nothing _ _ := rfl
  fenced _ := .nil
  barrier _ _ _ h := by cases h

theorem Queues.nothing_update (h : Queues s) {u : U} {q : List (Block T F)}
    (hq : s'.gSystemWorkQueue = Function.update s.gSystemWorkQueue u (some q))
    (hr : ∀ v, v ≠ u → s'.running v = s.running v) : ∀ v, s'.gSystemWorkQueue v = none → s'.running v = none := by
  intro v hv
  by_cases e : v = u
  · simp [hq, e] at hv
  · rw [hq, Function.update_of_ne e] at hv
    rw [hr v e]
    exact h.nothing v hv

/-- A block is put behind those it may follow. -/
theorem Queues.snoc (h : Queues s) {u : U} {q : List (Block T F)} {b : Block T F} (hq : s.gSystemWorkQueue u = some q)
    (hq' : s'.gSystemWorkQueue = Function.update s.gSystemWorkQueue u (some (q ++ [b]))) (hr : s'.running = s.running)
    (ha : s.accepted.length ≤ s'.accepted.length) (hf : ∀ c ∈ s.blocks u, Fence c b)
    (hn : ∀ t n, b = .barrier t n → n ≤ s'.accepted.length) : Queues s' := by
  have hb := blocks_snoc hq hq'
  refine ⟨h.nothing_update hq' fun v _ => by rw [hr], ?_, fun v t n hm => ?_⟩
  · rw [hb, Function.forall_update_iff s.blocks fun _ q => q.Pairwise Fence]
    refine ⟨List.pairwise_append.2 ⟨h.fenced u, List.pairwise_singleton _ _, fun c hc b' hb' => ?_⟩, fun v _ => h.fenced v⟩
    rw [List.mem_singleton] at hb'
    exact hb' ▸ hf c hc
  · rcases mem_snoc hb v _ hm with hold | ⟨-, he⟩
    · exact (h.barrier v t n hold).trans ha
    · exact hn t n he.symm

/-- A block is taken from the front. -/
theorem Queues.tail (h : Queues s) {u : U} {q : List (Block T F)} {b : Block T F}
    (hq : s.gSystemWorkQueue u = some (b :: q))
    (hq' : s'.gSystemWorkQueue = Function.update s.gSystemWorkQueue u (some q))
    (hr : ∀ v, v ≠ u → s'.running v = s.running v) (ha : s'.accepted = s.accepted) : Queues s' := by
  have hb := blocks_set hq'
  have hsame : s.blocks u = b :: q := by simp [State.blocks, hq]
  refine ⟨h.nothing_update hq' hr, ?_, fun v t n hm => ?_⟩
  · have hu := h.fenced u
    rw [hsame, List.pairwise_cons] at hu
    rw [hb, Function.forall_update_iff s.blocks fun _ q => q.Pairwise Fence]
    exact ⟨hu.2, fun v _ => h.fenced v⟩
  · rw [ha]
    exact h.barrier v t n (mem_tail hb hsame v _ hm)

theorem queues_ensure (h : Queues s) (u : U) : Queues (ensureSystemWorkqueueInitialized s u) := by
  have hb := blocks_ensure s u
  unfold ensureSystemWorkqueueInitialized at hb ⊢
  split at hb
  · exact ⟨h.nothing_update rfl fun _ _ => rfl, by rw [hb]; exact h.fenced, by rw [hb]; exact h.barrier⟩
  · exact h

theorem queues_step [DecidableEq T] [DecidableEq W] {a : Act T U W F} (h : Queues s) (hst : Step s a s') : Queues s' := by
  cases step_does hst with
  | initWork w fn => exact { h with }
  | @rejected u _ _ => exact queues_ensure h u
  | @accepted u w f q _ hq _ =>
    have he := queues_ensure h u
    refine he.snoc hq rfl rfl ?_ (fun c hc => ?_) (fun t n hn => by cases hn)
    · simp [ensure_accepted]
    · cases c with
      | work => trivial
      | barrier t n =>
        have hn := he.barrier u t n hc
        rwa [ensure_accepted] at hn
  | flushNothing _ => exact { h with }
  | @flush t u q hq =>
    refine h.snoc hq rfl rfl (Nat.le_refl _) (fun c _ => ?_) (fun t' n hn => ?_)
    · cases c <;> trivial
    · cases hn
      exact Nat.le_refl _
  | flushReturn _ => exact { h with }
  | runWork _ hq => exact h.tail hq rfl (fun v hv => Function.update_of_ne hv _ _) rfl
  | runBarrier _ hq => exact h.tail hq rfl (fun _ _ => rfl) rfl
  | @done u id hr =>
    refine { h with nothing := fun v hv => ?_ }
    by_cases e : v = u
    · simp [e]
    · simp only [Function.update_of_ne e]
      exact h.nothing v hv

/-! ## Who waits -/

section
variable [DecidableEq T]

/-- The threads that wait are those with a block on some queue, and each has one. -/
structure Waits (s : State T U W F) : Prop where
  nodup : ∀ u, (s.barriers u).Nodup
  sole : ∀ u v t, t ∈ s.barriers u → t ∈ s.barriers v → u = v
  waiting : ∀ t, s.pc t = .waiting ↔ ∃ u, t ∈ s.barriers u

/-- What a step does to the blocks of flushes. -/
inductive Fences (s s' : State T U W F) : Prop
  | same : s'.barriers = s.barriers → (∀ t, s'.pc t = .waiting ↔ s.pc t = .waiting) → Fences s s'
  | begin (t : T) (u : U) : s.pc t = .idle → s'.barriers = Function.update s.barriers u (s.barriers u ++ [t]) →
    s'.pc = Function.update s.pc t .waiting → Fences s s'
  | pass (t : T) (u : U) (n : Nat) (rest : List T) : s.barriers u = t :: rest →
    s'.barriers = Function.update s.barriers u rest → s'.pc = Function.update s.pc t (.ran n) → Fences s s'

omit [DecidableEq T] in
theorem barriers_set {u : U} {q : List (Block T F)} (h : s'.blocks = Function.update s.blocks u q) :
    s'.barriers = Function.update s.barriers u (q.filterMap blockThread) := by
  funext v
  unfold State.barriers
  rw [h]
  by_cases hv : v = u
  · subst hv; simp
  · simp [hv]

theorem flush_idle [DecidableEq W] {t : T} {u : U} (hst : Step s (.flush t u) s') : s.pc t = .idle := by
  simp only [Step, step] at hst
  split at hst
  · assumption
  · cases hst

theorem step_fences [DecidableEq W] {a : Act T U W F} (hst : Step s a s') : Fences s s' := by
  cases step_does hst with
  | initWork => exact .same rfl fun _ => Iff.rfl
  | @rejected u _ _ =>
    refine .same ?_ fun t => ?_
    · unfold State.barriers
      rw [blocks_ensure]
    · unfold ensureSystemWorkqueueInitialized
      split <;> rfl
  | @accepted u w f q _ hq _ =>
    refine .same ?_ fun t => ?_
    · rw [barriers_set (blocks_snoc hq rfl)]
      unfold State.barriers
      rw [blocks_ensure, List.filterMap_append]
      simp [blockThread]
    · unfold dispatch ensureSystemWorkqueueInitialized
      split <;> rfl
  | flushNothing _ => exact .same rfl fun _ => Iff.rfl
  | @flush t u q hq =>
    refine .begin t u (flush_idle hst) ?_ rfl
    rw [barriers_set (blocks_snoc hq rfl), List.filterMap_append]
    rfl
  | @flushReturn t n ht =>
    refine .same rfl fun t' => ?_
    by_cases e : t' = t
    · subst e; simp [ht]
    · simp [e]
  | @runWork u id f q _ hq =>
    refine .same ?_ fun _ => Iff.rfl
    have hsame : s.blocks u = .work id f :: q := by simp [State.blocks, hq]
    rw [barriers_set (blocks_set rfl)]
    apply Function.update_eq_self_iff.2
    unfold State.barriers
    rw [hsame]
    rfl
  | @runBarrier u t n q _ hq =>
    have hsame : s.blocks u = .barrier t n :: q := by simp [State.blocks, hq]
    refine .pass t u n (q.filterMap blockThread) ?_ (barriers_set (blocks_set rfl)) rfl
    unfold State.barriers
    rw [hsame]
    rfl
  | done _ => exact .same rfl fun _ => Iff.rfl

omit [DecidableEq U] [DecidableEq T] in
theorem waits_init (func : W → Option F) : Waits (init func : State T U W F) where
  nodup _ := .nil
  sole _ _ _ h := by cases h
  waiting _ := ⟨nofun, fun ⟨_, h⟩ => by cases h⟩

theorem waits_step (h : Waits s) (hf : Fences s s') : Waits s' := by
  cases hf with
  | same hb hp =>
    refine ⟨fun u => ?_, fun u v t => ?_, fun t => ?_⟩
    · rw [hb]; exact h.nodup u
    · rw [hb]; exact h.sole u v t
    · rw [hb, hp]; exact h.waiting t
  | begin t u hidle hb hp =>
    have hnone : ∀ v, t ∉ s.barriers v := fun v hm => by
      have hw := (h.waiting t).2 ⟨v, hm⟩
      rw [hidle] at hw
      cases hw
    have hmem : ∀ v t', t' ∈ s'.barriers v ↔ t' ∈ s.barriers v ∨ v = u ∧ t' = t := fun v t' => by
      rw [hb]
      by_cases e : v = u
      · subst e; simp
      · simp [e]
    refine ⟨?_, fun v v' t' hv hv' => ?_, fun t' => ?_⟩
    · rw [hb, Function.forall_update_iff s.barriers fun _ l => l.Nodup]
      refine ⟨List.nodup_append'.2 ⟨h.nodup u, List.nodup_singleton t, ?_⟩, fun v _ => h.nodup v⟩
      rw [List.disjoint_singleton]
      exact hnone u
    · rcases (hmem v t').1 hv with hv | ⟨rfl, rfl⟩ <;> rcases (hmem v' _).1 hv' with hv' | ⟨rfl, h'⟩
      · exact h.sole v v' t' hv hv'
      · exact absurd hv (h' ▸ hnone v)
      · exact absurd hv' (hnone v')
      · rfl
    · rw [hp]
      simp only [hmem]
      by_cases e : t' = t
      · subst e; simp
      · simp [e, h.waiting t']
  | pass t u n rest hu hb hp =>
    have hnodup := h.nodup u
    rw [hu, List.nodup_cons] at hnodup
    have hmem : ∀ v t', t' ∈ s'.barriers v → t' ∈ s.barriers v ∧ t' ≠ t := fun v t' hm => by
      rw [hb] at hm
      by_cases e : v = u
      · subst e
        rw [Function.update_self] at hm
        exact ⟨by rw [hu]; exact List.mem_cons_of_mem _ hm, fun e => hnodup.1 (e ▸ hm)⟩
      · rw [Function.update_of_ne e] at hm
        refine ⟨hm, fun e' => e (h.sole v u t (e' ▸ hm) ?_)⟩
        rw [hu]
        exact List.mem_cons_self
    refine ⟨?_, fun v v' t' hv hv' => h.sole v v' t' (hmem v t' hv).1 (hmem v' t' hv').1, fun t' => ?_⟩
    · rw [hb, Function.forall_update_iff s.barriers fun _ l => l.Nodup]
      exact ⟨hnodup.2, fun v _ => h.nodup v⟩
    · rw [hp]
      by_cases e : t' = t
      · subst e
        rw [Function.update_self]
        exact ⟨nofun, fun ⟨v, hv⟩ => absurd rfl (hmem v _ hv).2⟩
      · rw [Function.update_of_ne e, h.waiting t']
        refine ⟨fun ⟨v, hv⟩ => ⟨v, ?_⟩, fun ⟨v, hv⟩ => ⟨v, (hmem v t' hv).1⟩⟩
        rw [hb]
        by_cases e' : v = u
        · subst e'
          rw [hu] at hv
          rw [Function.update_self]
          exact (List.mem_cons.1 hv).resolve_left e
        · rwa [Function.update_of_ne e']

end

/-! ## What a flush has waited for -/

section
variable [DecidableEq T] [DecidableEq W]

/-- All that was accepted from the unit among the first `n` calls has finished. -/
def FinishedUpTo (s : State T U W F) (u : U) (n : Nat) : Prop := ∀ id < n, s.origin id = some u → id ∈ s.finished

/-- Work is only ever accepted and finished. -/
theorem step_grows {a : Act T U W F} (hst : Step s a s') : s.accepted <+: s'.accepted ∧ s.finished ⊆ s'.finished := by
  cases step_does hst with
  | @rejected u _ _ => rw [ensure_accepted, ensure_finished]; exact ⟨List.prefix_rfl, fun _ h => h⟩
  | @accepted u w f q _ _ _ =>
    refine ⟨List.prefix_append _ _, ?_⟩
    unfold dispatch
    rw [ensure_finished]
    exact fun _ h => h
  | done _ => exact ⟨List.prefix_rfl, List.subset_append_left _ _⟩
  | _ => exact ⟨List.prefix_rfl, fun _ h => h⟩

theorem FinishedUpTo.step {a : Act T U W F} {u : U} {n : Nat} (h : FinishedUpTo s u n) (hn : n ≤ s.accepted.length)
    (hst : Step s a s') : FinishedUpTo s' u n := by
  obtain ⟨⟨l, hl⟩, hf⟩ := step_grows hst
  intro id hid ho
  apply hf
  apply h id hid
  unfold State.origin at ho ⊢
  rwa [← hl, List.getElem?_append_left (hid.trans_le hn)] at ho

/-- A flush's block stays on its queue until all the unit's work that was
accepted before it has finished. -/
theorem barrier_step {a : Act T U W F} {u : U} {t : T} {n : Nat} (h : Served s) (hq : Queues s)
    (hm : .barrier t n ∈ s.blocks u) (hst : Step s a s') : .barrier t n ∈ s'.blocks u ∨ FinishedUpTo s' u n := by
  have hn := hq.barrier u t n hm
  have hsnoc : ∀ {v : U} {b : Block T F}, s'.blocks = Function.update s.blocks v (s.blocks v ++ [b]) →
      .barrier t n ∈ s'.blocks u := by
    intro v b hb
    rw [hb]
    by_cases e : u = v
    · subst e
      rw [Function.update_self]
      exact List.mem_append_left _ hm
    · rwa [Function.update_of_ne e]
  have htail : ∀ {v : U} {b : Block T F} {q : List (Block T F)}, s.blocks v = b :: q →
      s'.blocks = Function.update s.blocks v q → b ≠ .barrier t n ∨ v ≠ u → .barrier t n ∈ s'.blocks u := by
    intro v b q hv hb hne
    rw [hb]
    by_cases e : u = v
    · subst e
      rw [hv] at hm
      rw [Function.update_self]
      exact (List.mem_cons.1 hm).resolve_left fun e => (hne.resolve_right (not_not_intro rfl)) e.symm
    · rwa [Function.update_of_ne e]
  cases step_does hst with
  | @rejected v _ _ => rw [blocks_ensure]; exact .inl hm
  | @accepted v w f q _ hv _ => exact .inl (hsnoc (by rw [blocks_snoc hv rfl, blocks_ensure]))
  | @flush t' v q hv => exact .inl (hsnoc (blocks_snoc hv rfl))
  | @runWork v id f q _ hv =>
    have hsame : s.blocks v = .work id f :: q := by simp [State.blocks, hv]
    exact .inl (htail hsame (blocks_set rfl) (.inl (by simp)))
  | @runBarrier v t' n' q hr hv =>
    have hsame : s.blocks v = .barrier t' n' :: q := by simp [State.blocks, hv]
    by_cases e : v = u ∧ n' = n
    · -- The queue is idle, and what is behind the block was accepted after `n`.
      obtain ⟨rfl, rfl⟩ := e
      have hfront := hq.fenced v
      rw [hsame, List.pairwise_cons] at hfront
      refine .inr (FinishedUpTo.step (fun id hid ho => ?_) hn hst)
      rcases h.trichotomy (hid.trans_le hn) ho with hf | hrun | hwork
      · exact hf
      · rw [hr] at hrun
        cases hrun
      · rw [hsame] at hwork
        obtain ⟨f, hf⟩ := mem_of_workIds (q := q) hwork
        exact absurd (hfront.1 _ hf) (Nat.not_le_of_lt hid)
    · refine .inl (htail hsame (blocks_set rfl) ?_)
      by_contra hno
      rw [not_or, not_not, not_not] at hno
      obtain ⟨hbar, rfl⟩ := hno
      cases hbar
      exact e ⟨rfl, rfl⟩
  | _ => exact .inl hm

omit [DecidableEq T] [DecidableEq W] in
/-- Without a queue nothing of the unit executes or waits. -/
theorem finished_of_none {u : U} (h : Served s) (hq : Queues s) (hu : s.gSystemWorkQueue u = none) :
    FinishedUpTo s u s.accepted.length := by
  have hnil : s.blocks u = [] := by simp [State.blocks, hu]
  exact fun id hid ho => h.finished_of_still (hq.nothing u hu) hnil hid ho

/-- Every flush that began waits with its block on its unit's queue or has seen
the unit's earlier work finish. -/
structure Flushing (tr : List (Tr (State T U W F) (Act T U W F))) (s : State T U W F) : Prop where
  served : Served s
  queues : Queues s
  waits : Waits s
  began : ∀ x ∈ tr, ∀ t u, x.act = .flush t u → x.pre.accepted.length ≤ s.accepted.length ∧
    (.barrier t x.pre.accepted.length ∈ s.blocks u ∨ FinishedUpTo s u x.pre.accepted.length)

theorem flushing_step {tr : List (Tr (State T U W F) (Act T U W F))} {a : Act T U W F} (h : Flushing tr s)
    (hst : Step s a s') : Flushing (tr ++ [⟨s, a, s'⟩]) s' := by
  refine ⟨served_step h.served hst, queues_step h.queues hst, waits_step h.waits (step_fences hst), ?_⟩
  have hle := (step_grows hst).1.length_le
  intro x hx t u hact
  rcases List.mem_append.1 hx with hx | hx
  · obtain ⟨hn, hbar | hfin⟩ := h.began x hx t u hact
    · exact ⟨hn.trans hle, barrier_step h.served h.queues hbar hst⟩
    · exact ⟨hn.trans hle, .inr (hfin.step hn hst)⟩
  · rw [List.mem_singleton] at hx
    subst hx
    subst hact
    refine ⟨hle, ?_⟩
    cases step_does hst with
    | flush hq =>
      left
      rw [blocks_snoc hq rfl, Function.update_self]
      exact List.mem_append_right _ List.mem_cons_self
    | flushNothing hq =>
      have hfin := finished_of_none h.served h.queues hq
      exact .inr fun id hid ho => hfin id hid ho

theorem run_flushing {func : W → Option F} {tr : List (Tr (State T U W F) (Act T U W F))}
    (hr : Run Step (init func) tr s) : Flushing tr s :=
  hr.inv_history Flushing ⟨served_init func, queues_init func, waits_init func, fun _ hx => by cases hx⟩
    fun _ _ _ _ h hst => flushing_step h hst

/-- A thread that called `flush_scheduled_work` and does not wait in it any more,
in whatever run: all work that its unit had scheduled before has been executed,
once each. -/
theorem flush_waits_for_unit (func : W → Option F) (tr : List (Tr (State T U W F) (Act T U W F)))
    (hr : Run Step (init func) tr s) (x : Tr (State T U W F) (Act T U W F)) (hx : x ∈ tr) (t : T) (u : U)
    (hact : x.act = .flush t u) (ht : s.pc t ≠ .waiting) :
    ∀ id < x.pre.accepted.length, s.origin id = some u → s.finished.count id = 1 := by
  have h := run_flushing hr
  intro id hid ho
  apply h.served.finished_once
  rcases (h.began x hx t u hact).2 with hbar | hfin
  · have hmem : t ∈ s.barriers u := List.mem_filterMap.2 ⟨_, hbar, rfl⟩
    exact absurd ((h.waits.waiting t).2 ⟨u, hmem⟩) ht
  · exact hfin id hid ho

/-- A flush from one of two units that both have work, until its block has run. -/
def flushOne : List (Act Unit Bool Nat Nat) :=
  [.initWork 1 (some 7), .scheduleWork false (some 1), .scheduleWork true (some 1), .flush () true,
    .run true, .done true, .run true]

theorem flush_waits_for_unit_one : ∃ tr s, Run Step (init fun _ => none) tr s ∧ tr.map (·.act) = flushOne ∧
    s.finished.count 1 = 1 ∧ s.finished.count 0 = 0 := by
  have hr := run_of_exec step (init fun _ => none) flushOne rfl
  refine ⟨_, _, hr.1, hr.2, ?_, rfl⟩
  exact flush_waits_for_unit _ _ hr.1 _ (List.mem_cons_of_mem _ (List.mem_cons_of_mem _ (List.mem_cons_of_mem _
    List.mem_cons_self))) () true rfl nofun 1 (by decide) rfl

end

/-! ## The queues come to an end -/

/-- What a queue has left to do: twice for a block, once for the call it executes. -/
def State.left (s : State T U W F) (u : U) : Nat := 2 * (s.blocks u).length + (s.running u).toList.length

/-- The steps of the queues themselves. -/
def OfQueue : Act T U W F → Prop
  | .run _ => True
  | .done _ => True
  | _ => False

/-- The units with something left to do are among these. -/
def Within (s : State T U W F) (us : Finset U) : Prop := ∀ u, u ∉ us → s.left u = 0

omit [DecidableEq U] in
theorem left_congr {u : U} (hb : s'.blocks u = s.blocks u) (hr : s'.running u = s.running u) : s'.left u = s.left u := by
  unfold State.left
  rw [hb, hr]

theorem left_of_ne {u v : U} {q : List (Block T F)} (hb : s'.blocks = Function.update s.blocks u q)
    (hr : v ≠ u → s'.running v = s.running v) (h : v ≠ u) : s'.left v = s.left v :=
  left_congr (by rw [hb, Function.update_of_ne h]) (hr h)

section
variable [DecidableEq T] [DecidableEq W]

/-- A step changes what at most one queue has left, and a queue's step takes from it. -/
theorem left_step {a : Act T U W F} (hst : Step s a s') : (∀ v, s'.left v = s.left v) ∧ ¬ OfQueue a ∨
    ∃ u, (∀ v, v ≠ u → s'.left v = s.left v) ∧ (OfQueue a → s'.left u < s.left u) := by
  cases step_does hst with
  | @rejected u _ _ =>
    refine .inr ⟨u, fun v _ => left_congr (by rw [blocks_ensure]) ?_, False.elim⟩
    unfold ensureSystemWorkqueueInitialized
    split <;> rfl
  | @accepted u w f q _ hq _ =>
    refine .inr ⟨u, fun v => left_of_ne (by rw [blocks_snoc hq rfl]; rw [blocks_ensure]) fun _ => ?_, False.elim⟩
    unfold dispatch ensureSystemWorkqueueInitialized
    split <;> rfl
  | @flush t u q hq => exact .inr ⟨u, fun v => left_of_ne (blocks_snoc hq rfl) fun _ => rfl, False.elim⟩
  | @runWork u id f q hr hq =>
    have hsame : s.blocks u = .work id f :: q := by simp [State.blocks, hq]
    refine .inr ⟨u, fun v => left_of_ne (blocks_set rfl) fun h => Function.update_of_ne h _ _, fun _ => ?_⟩
    unfold State.left
    rw [blocks_set rfl, hsame, hr]
    simp only [Function.update_self, List.length_cons, Option.toList_some, Option.toList_none, List.length_nil]
    omega
  | @runBarrier u t n q hr hq =>
    have hsame : s.blocks u = .barrier t n :: q := by simp [State.blocks, hq]
    refine .inr ⟨u, fun v => left_of_ne (blocks_set rfl) fun _ => rfl, fun _ => ?_⟩
    unfold State.left
    rw [blocks_set rfl, hsame]
    simp only [Function.update_self, List.length_cons]
    omega
  | @done u id hr =>
    refine .inr ⟨u, fun v h => left_congr rfl (Function.update_of_ne h _ _), fun _ => ?_⟩
    unfold State.left
    rw [hr]
    simp [State.blocks]
  | _ => exact .inl ⟨fun _ => rfl, False.elim⟩

/-- In every run finitely many units have anything left to do. -/
theorem run_within {func : W → Option F} {tr : List (Tr (State T U W F) (Act T U W F))}
    (hr : Run Step (init func) tr s) : ∃ us, Within s us := by
  induction hr with
  | nil => exact ⟨∅, fun _ _ => rfl⟩
  | snoc _ hst ih =>
    obtain ⟨us, hus⟩ := ih
    rcases left_step hst with ⟨hsame, -⟩ | ⟨u, hsame, -⟩
    · exact ⟨us, fun v hv => (hsame v).trans (hus v hv)⟩
    · exact ⟨insert u us, OnlyIn.insert hus hsame⟩

/-- A queue's step takes from what the queue has left. -/
theorem takes_left {a : Act T U W F} (ha : OfQueue a) (hst : Step s a s') : Takes s.left s'.left := by
  obtain ⟨u, hsame, hless⟩ := (left_step hst).resolve_left fun h => h.2 ha
  exact ⟨u, hsame, hless ha⟩

/-- An idle queue that cannot take a step has nothing to take. -/
theorem blocks_of_idle {u : U} (hr : s.running u = none) (h : step s (.run u) = none) : s.blocks u = [] := by
  simp only [step, runNext, hr] at h
  unfold State.blocks
  split at h
  · cases h
  · cases h
  · rename_i hno hno'
    cases hq : s.gSystemWorkQueue u with
    | none => rfl
    | some q =>
      cases q with
      | nil => rfl
      | cons b q =>
        cases b with
        | work id f => exact absurd hq (hno id f q rfl)
        | barrier t n => exact absurd hq (hno' t n q rfl)

/-- When no queue can take a step, nothing executes and nothing waits. -/
theorem still_of_stuck (h : ∀ a, OfQueue a → step s a = none) (u : U) : s.running u = none ∧ s.blocks u = [] := by
  have hr : s.running u = none := by
    have hd := h (.done u) trivial
    simp only [step] at hd
    split at hd
    · cases hd
    · assumption
  exact ⟨hr, blocks_of_idle hr (h (.run u) trivial)⟩

omit [DecidableEq T] [DecidableEq W] in
/-- When nothing executes and nothing waits, all accepted work has been executed. -/
theorem Served.all_finished (h : Served s) (hstill : ∀ u, s.running u = none ∧ s.blocks u = []) :
    ∀ id < s.accepted.length, s.finished.count id = 1 := by
  intro id hid
  have ho : s.origin id = some s.accepted[id].1 := by
    unfold State.origin
    rw [List.getElem?_eq_getElem hid]
    rfl
  obtain ⟨hrun, hnil⟩ := hstill s.accepted[id].1
  exact h.finished_once (h.finished_of_still hrun hnil hid ho)

omit [DecidableEq T] [DecidableEq U] [DecidableEq W] in
theorem Waits.none_waits (h : Waits s) (hstill : ∀ u, s.running u = none ∧ s.blocks u = []) (t : T) :
    s.pc t ≠ .waiting := by
  intro ht
  obtain ⟨u, hu⟩ := (h.waiting t).1 ht
  unfold State.barriers at hu
  rw [(hstill u).2] at hu
  cases hu

/-- From every state a run can reach, the queues' own steps come to an end in
whatever order they are taken, and then all accepted work has been executed,
once each, and no thread waits in a flush. -/
theorem queues_drain (func : W → Option F) (tr : List (Tr (State T U W F) (Act T U W F)))
    (hr : Run Step (init func) tr s) :
    ∃ N, ∀ tr' s', Run Step s tr' s' → (∀ x ∈ tr', OfQueue x.act) → tr'.length ≤ N ∧
      ((∀ a, OfQueue a → step s' a = none) →
        (∀ id < s'.accepted.length, s'.finished.count id = 1) ∧ ∀ t, s'.pc t ≠ .waiting) := by
  obtain ⟨us, hus⟩ := run_within hr
  refine ⟨∑ u ∈ us, s.left u, fun tr' s' hr' hq => ⟨?_, fun hstuck => ?_⟩⟩
  · have hle := (hr'.length_le State.left hus fun x hx => takes_left (hq x hx) (hr'.steps x hx)).2
    omega
  · have h := run_flushing (hr.append hr')
    exact ⟨h.served.all_finished (still_of_stuck hstuck), h.waits.none_waits (still_of_stuck hstuck)⟩

theorem queues_drain_flush : ∃ tr s, Run Step (init fun _ => none) tr s ∧ tr.map (·.act) = flushOne ∧
    ∃ N, ∀ tr' s', Run Step s tr' s' → (∀ x ∈ tr', OfQueue x.act) → tr'.length ≤ N ∧
      ((∀ a, OfQueue a → step s' a = none) →
        (∀ id < s'.accepted.length, s'.finished.count id = 1) ∧ ∀ t, s'.pc t ≠ .waiting) := by
  have hr := run_of_exec step (init fun _ => none) flushOne rfl
  exact ⟨_, _, hr.1, hr.2, queues_drain _ _ hr.1⟩

end

end PortingKit.Linux.Workqueue
