import PortingKit.Lib.Waiting
import PortingKit.Linux.UnitFlush
/-!
# Flushing from a work function

A work function may itself call `flush_scheduled_work`, and wait in it on its
own unit's queue or another's. The queue that executes it is the thread `.inr u`
then; the other threads are `.inl t`. Such waits can run into a cycle, and that
is the only way for a flush to hang.
-/
open PortingKit.Lib

namespace PortingKit.Linux.Workqueue

variable {T U W F : Type} [DecidableEq T] [DecidableEq U] [DecidableEq W]

/-- Only a work function that executes flushes as its queue, and it returns only
when its flush has. -/
def nestedStep (s : State (T ⊕ U) U W F) : Act (T ⊕ U) U W F → Option (State (T ⊕ U) U W F)
  | .flush (.inr u) v =>
    match s.running u with
    | some _ => step s (.flush (.inr u) v)
    | none => none
  | .done u =>
    match s.pc (.inr u) with
    | .idle => step s (.done u)
    | _ => none
  | a => step s a

abbrev NestedStep (s : State (T ⊕ U) U W F) (a : Act (T ⊕ U) U W F) (s' : State (T ⊕ U) U W F) : Prop :=
  nestedStep s a = some s'

/-- What a nested step asks for beyond a step. -/
def Allowed (s : State (T ⊕ U) U W F) : Act (T ⊕ U) U W F → Prop
  | .flush (.inr u) _ => s.running u ≠ none
  | .done u => s.pc (.inr u) = .idle
  | _ => True

theorem nestedStep_iff {s s' : State (T ⊕ U) U W F} {a : Act (T ⊕ U) U W F} :
    NestedStep s a s' ↔ Allowed s a ∧ Step s a s' := by
  unfold NestedStep nestedStep Allowed
  split
  · split <;> simp_all
  · split <;> simp_all
  · rw [true_and]

/-- The steps of the queues, those of the work functions they execute included. -/
def OfQueues : Act (T ⊕ U) U W F → Prop
  | .flushReturn (.inr _) => True
  | a => OfQueue a

/-- The work function that `u`'s queue executes waits for its block on `v`'s. -/
def WaitsFor (s : State (T ⊕ U) U W F) (u v : U) : Prop := .inr u ∈ s.barriers v

variable {s s' : State (T ⊕ U) U W F} {func : W → Option F}

/-! ## A step -/

/-- Every work function in a flush is one that executes. -/
def Nested (s : State (T ⊕ U) U W F) : Prop := ∀ u, s.pc (.inr u) ≠ .idle → s.running u ≠ none

/-- What a step does to the work functions that execute, and where it leaves a thread. -/
theorem step_running {a : Act (T ⊕ U) U W F} (hst : Step s a s') (u : U) :
    s'.running u = s.running u ∨ a = .run u ∧ s.running u = none ∧ s'.running u ≠ none ∨ a = .done u := by
  cases step_does hst with
  | @rejected v _ _ =>
    left
    unfold ensureSystemWorkqueueInitialized
    split <;> rfl
  | @accepted v w f q _ _ _ =>
    left
    unfold dispatch ensureSystemWorkqueueInitialized
    split <;> rfl
  | @runWork v id f q hr _ =>
    by_cases e : u = v
    · subst e
      exact .inr (.inl ⟨rfl, hr, by simp⟩)
    · exact .inl (Function.update_of_ne e _ _)
  | @done v id _ =>
    by_cases e : u = v
    · subst e
      exact .inr (.inr rfl)
    · exact .inl (Function.update_of_ne e _ _)
  | _ => exact .inl rfl

/-- A thread gets into `flush_scheduled_work` by calling it. -/
theorem step_pc {a : Act (T ⊕ U) U W F} (hw : Waits s) (hst : Step s a s') {t : T ⊕ U} (ht : s'.pc t ≠ .idle) :
    s.pc t ≠ .idle ∨ ∃ u, a = .flush t u := by
  cases step_does hst with
  | @rejected v _ _ =>
    left
    unfold ensureSystemWorkqueueInitialized at ht
    split at ht <;> exact ht
  | @accepted v w f q _ _ _ =>
    left
    unfold dispatch ensureSystemWorkqueueInitialized at ht
    split at ht <;> exact ht
  | @flush t' v q _ =>
    by_cases e : t = t'
    · exact .inr ⟨v, by rw [e]⟩
    · left
      simpa only [Function.update_of_ne e] using ht
  | @flushReturn t' n _ =>
    by_cases e : t = t'
    · subst e
      simp at ht
    · left
      simpa only [Function.update_of_ne e] using ht
  | @runBarrier v t' n q _ hq =>
    by_cases e : t = t'
    · subst e
      -- Its block was on the queue, so it waited.
      have hmem : t ∈ s.barriers v := by simp [State.barriers, State.blocks, hq, blockThread]
      left
      simp [(hw.waiting t).2 ⟨v, hmem⟩]
    · left
      simpa only [Function.update_of_ne e] using ht
  | _ => exact .inl ht

theorem nested_step {a : Act (T ⊕ U) U W F} (h : Nested s) (hw : Waits s) (hst : NestedStep s a s') : Nested s' := by
  intro u hu
  obtain ⟨hallow, hst⟩ := nestedStep_iff.1 hst
  have hrun : s.running u ≠ none := by
    rcases step_pc hw hst hu with hpc | ⟨v, rfl⟩
    · exact h u hpc
    · exact hallow
  rcases step_running hst u with he | ⟨-, -, hne⟩ | rfl
  · rwa [he]
  · exact hne
  · -- It would have returned from within its flush.
    rcases step_pc hw hst hu with hpc | ⟨v, hact⟩
    · exact absurd hallow hpc
    · cases hact

/-! ## Stuck queues -/

/-- A queue whose work function waits takes no step. -/
theorem waiting_still {a : Act (T ⊕ U) U W F} (h : Nested s) (hw : Waits s) {u v : U} (hu : WaitsFor s u v)
    (hst : NestedStep s a s') : a ≠ .run u ∧ a ≠ .done u := by
  have hpc : s.pc (.inr u) = .waiting := (hw.waiting _).2 ⟨v, hu⟩
  have hrun : s.running u ≠ none := h u (by simp [hpc])
  obtain ⟨hallow, hst⟩ := nestedStep_iff.1 hst
  constructor
  · rintro rfl
    cases step_does hst with
    | runWork hr _ => exact hrun hr
    | runBarrier hr _ => exact hrun hr
  · rintro rfl
    have hidle : s.pc (.inr u) = .idle := hallow
    rw [hpc] at hidle
    cases hidle

omit [DecidableEq T] [DecidableEq W] in
theorem barriers_ensure (s : State (T ⊕ U) U W F) (u : U) :
    (ensureSystemWorkqueueInitialized s u).barriers = s.barriers := by
  unfold State.barriers
  rw [blocks_ensure]

omit [DecidableEq T] [DecidableEq W] in
theorem barriers_snoc {u : U} {q : List (Block (T ⊕ U) F)} {b : Block (T ⊕ U) F} (hq : s.gSystemWorkQueue u = some q)
    (h : s'.gSystemWorkQueue = Function.update s.gSystemWorkQueue u (some (q ++ [b]))) (v : U) :
    s.barriers v <+: s'.barriers v := by
  unfold State.barriers
  rw [blocks_snoc hq h]
  by_cases e : v = u
  · subst e
    rw [Function.update_self, List.filterMap_append]
    exact List.prefix_append _ _
  · rw [Function.update_of_ne e]

/-- The flushes' blocks stay on a queue that takes no step. -/
theorem barriers_still {a : Act (T ⊕ U) U W F} (hst : Step s a s') {v : U} (hv : a ≠ .run v) :
    s.barriers v <+: s'.barriers v := by
  have htail : ∀ {u : U} {q : List (Block (T ⊕ U) F)}, a = .run u →
      s'.gSystemWorkQueue = Function.update s.gSystemWorkQueue u (some q) → s.barriers v <+: s'.barriers v := by
    rintro u q rfl hq
    have hne : v ≠ u := fun e => hv (by rw [e])
    unfold State.barriers
    rw [blocks_set hq, Function.update_of_ne hne]
  cases step_does hst with
  | @rejected u _ _ => rw [barriers_ensure]
  | @accepted u w f q _ hq _ =>
    rw [← barriers_ensure s u]
    exact barriers_snoc hq rfl v
  | flush hq => exact barriers_snoc hq rfl v
  | runWork _ _ => exact htail rfl rfl
  | runBarrier _ _ => exact htail rfl rfl
  | _ => exact List.prefix_rfl

/-- A step leaves what queues that wait for each other wait for. -/
theorem closed_step {a : Act (T ⊕ U) U W F} (h : Nested s) (hw : Waits s) {D : Set U} (hD : Closed (WaitsFor s) D)
    (hst : NestedStep s a s') : Closed (WaitsFor s') D ∧ ∀ u ∈ D, a ≠ .run u ∧ a ≠ .done u := by
  have hstill : ∀ u ∈ D, a ≠ .run u ∧ a ≠ .done u := fun u hu => by
    obtain ⟨v, -, huv⟩ := hD u hu
    exact waiting_still h hw huv hst
  refine ⟨fun u hu => ?_, hstill⟩
  obtain ⟨v, hv, huv⟩ := hD u hu
  exact ⟨v, hv, (barriers_still (nestedStep_iff.1 hst).2 (hstill v hv).1).subset huv⟩

omit [DecidableEq T] [DecidableEq W] in
theorem mem_barriers_tail {u v : U} {b : Block (T ⊕ U) F} {q : List (Block (T ⊕ U) F)} {t : T ⊕ U}
    (hq : s.gSystemWorkQueue u = some (b :: q))
    (h : s'.gSystemWorkQueue = Function.update s.gSystemWorkQueue u (some q)) (ht : t ∈ s'.barriers v) :
    t ∈ s.barriers v := by
  have hsame : s.blocks u = b :: q := by simp [State.blocks, hq]
  obtain ⟨c, hc, hct⟩ := List.mem_filterMap.1 ht
  exact List.mem_filterMap.2 ⟨c, mem_tail (blocks_set h) hsame v c hc, hct⟩

/-- A step of the queues makes nobody wait. -/
theorem barriers_mono {a : Act (T ⊕ U) U W F} (ha : OfQueues a) (hst : Step s a s') (v : U) :
    ∀ t ∈ s'.barriers v, t ∈ s.barriers v := by
  intro t ht
  cases step_does hst with
  | runWork _ hq => exact mem_barriers_tail hq rfl ht
  | runBarrier _ hq => exact mem_barriers_tail hq rfl ht
  | flushReturn _ => exact ht
  | done _ => exact ht
  | _ => cases ha

/-! ## Runs -/

theorem run_step {s₀ : State (T ⊕ U) U W F} {tr : List (Tr (State (T ⊕ U) U W F) (Act (T ⊕ U) U W F))}
    (hr : Run NestedStep s₀ tr s) : Run Step s₀ tr s := by
  induction hr with
  | nil => exact .nil
  | snoc _ hst ih => exact ih.snoc (nestedStep_iff.1 hst).2

/-- What every run keeps. -/
structure Sound (s : State (T ⊕ U) U W F) : Prop where
  nested : Nested s
  served : Served s
  queues : Queues s
  waits : Waits s

omit [DecidableEq T] [DecidableEq W] in
theorem sound_init (func : W → Option F) : Sound (init func : State (T ⊕ U) U W F) where
  nested _ h := absurd rfl h
  served := served_init func
  queues := queues_init func
  waits := waits_init func

theorem sound_step {a : Act (T ⊕ U) U W F} (h : Sound s) (hst : NestedStep s a s') : Sound s' := by
  have hst' := (nestedStep_iff.1 hst).2
  exact ⟨nested_step h.nested h.waits hst, served_step h.served hst', queues_step h.queues hst',
    waits_step h.waits (step_fences hst')⟩

theorem sound_run {tr : List (Tr (State (T ⊕ U) U W F) (Act (T ⊕ U) U W F))} (h : Sound s)
    (hr : Run NestedStep s tr s') : Sound s' := (hr.inv Sound h fun _ _ _ h hst => sound_step h hst).1

/-- Queues that wait for each other do so for ever. -/
theorem closed_run {tr : List (Tr (State (T ⊕ U) U W F) (Act (T ⊕ U) U W F))} (h : Sound s) {D : Set U}
    (hD : Closed (WaitsFor s) D) (hr : Run NestedStep s tr s') :
    Closed (WaitsFor s') D ∧ (∀ u ∈ D, ∀ t ∈ s.barriers u, t ∈ s'.barriers u) ∧
      ∀ x ∈ tr, ∀ u ∈ D, x.act ≠ .run u ∧ x.act ≠ .done u := by
  induction hr with
  | nil => exact ⟨hD, fun _ _ _ ht => ht, fun _ hx => by cases hx⟩
  | @snoc tr s₁ a s₂ hr hst ih =>
    obtain ⟨hD₁, hb₁, hx₁⟩ := ih
    have h₁ := sound_run h hr
    obtain ⟨hD₂, hstill⟩ := closed_step h₁.nested h₁.waits hD₁ hst
    refine ⟨hD₂, fun u hu t ht => ?_, fun x hx u hu => ?_⟩
    · exact (barriers_still (nestedStep_iff.1 hst).2 (hstill u hu).1).subset (hb₁ u hu t ht)
    · rcases List.mem_append.1 hx with hx | hx
      · exact hx₁ x hx u hu
      · rw [List.mem_singleton.1 hx]
        exact hstill u hu

/-- Steps of the queues let nobody wait who did not. -/
theorem waitsFor_run {tr : List (Tr (State (T ⊕ U) U W F) (Act (T ⊕ U) U W F))} (hr : Run NestedStep s tr s')
    (hq : ∀ x ∈ tr, OfQueues x.act) (v : U) : ∀ t ∈ s'.barriers v, t ∈ s.barriers v := by
  induction hr with
  | nil => exact fun _ ht => ht
  | @snoc tr s₁ a s₂ _ hst ih =>
    intro t ht
    apply ih fun x hx => hq x (List.mem_append_left _ hx)
    exact barriers_mono (hq ⟨s₁, a, s₂⟩ (List.mem_append_right _ List.mem_cons_self)) (nestedStep_iff.1 hst).2 v t ht

/-! ## How much is left -/

/-- One for a thread that has to come back from `flush_scheduled_work`. -/
def Pc.away : Pc → Nat
  | .idle => 0
  | .waiting | .ran _ => 1

/-- What a queue and the work function it executes have left to do. -/
def load (s : State (T ⊕ U) U W F) (u : U) : Nat := s.left u + (s.pc (.inr u)).away

/-- A queue that executes a flush's block leaves the thread where it has to come back from. -/
theorem away_step {a : Act (T ⊕ U) U W F} (hw : Waits s) (ha : OfQueue a) (hst : Step s a s') (t : T ⊕ U) :
    (s'.pc t).away = (s.pc t).away := by
  cases step_does hst with
  | runWork _ _ => rfl
  | @runBarrier u t' n q _ hq =>
    have hmem : t' ∈ s.barriers u := by simp [State.barriers, State.blocks, hq, blockThread]
    by_cases e : t = t'
    · subst e
      rw [(hw.waiting t).2 ⟨u, hmem⟩]
      simp only [Function.update_self, Pc.away]
    · simp only [Function.update_of_ne e]
  | done _ => rfl
  | _ => cases ha

/-- Each step of the queues takes from what one of them has left. -/
theorem takes_load {a : Act (T ⊕ U) U W F} (hw : Waits s) (ha : OfQueues a) (hst : Step s a s') :
    Takes (load s) (load s') := by
  have hqueue : OfQueue a → Takes (load s) (load s') := fun ha => by
    obtain ⟨u, hsame, hlt⟩ := takes_left ha hst
    have haway := away_step hw ha hst
    refine ⟨u, fun v hv => ?_, ?_⟩
    · rw [load, load, hsame v hv, haway]
    · rw [load, load, haway]
      exact Nat.add_lt_add_right hlt _
  cases a with
  | flushReturn t =>
    cases t with
    | inl t => exact absurd ha id
    | inr u =>
      cases step_does hst with
      | @flushReturn _ n ht =>
        refine ⟨u, fun v hv => ?_, ?_⟩
        · have hne : (.inr v : T ⊕ U) ≠ .inr u := fun e => hv (Sum.inr.inj e)
          simp only [load, Function.update_of_ne hne]
          rfl
        · simp only [load, Function.update_self, ht]
          exact Nat.lt_succ_self _
  | run u => exact hqueue trivial
  | done u => exact hqueue trivial
  | _ => exact absurd ha id

omit [DecidableEq T] [DecidableEq U] [DecidableEq W] in
theorem still_of_left {u : U} (hu : s.left u = 0) : s.running u = none ∧ s.blocks u = [] := by
  unfold State.left at hu
  constructor
  · cases hr : s.running u with
    | none => rfl
    | some id => simp [hr] at hu
  · exact List.length_eq_zero_iff.1 (by omega)

omit [DecidableEq T] [DecidableEq U] [DecidableEq W] in
/-- A queue with nothing left executes no work function that could be in a flush. -/
theorem load_zero (h : Nested s) {u : U} (hu : s.left u = 0) : load s u = 0 := by
  have hpc : s.pc (.inr u) = .idle := by
    by_contra hne
    exact h u hne (still_of_left hu).1
  rw [load, hu, hpc]
  rfl

/-! ## Cycles -/

/-- When the queues can take no step, every queue with something left waits for another. -/
theorem closed_of_quiet (h : Sound s) (hquiet : ∀ a, OfQueues a → nestedStep s a = none) :
    Closed (WaitsFor s) {u | s.left u ≠ 0} := by
  intro u hu
  obtain ⟨id, hr⟩ : ∃ id, s.running u = some id := by
    cases hr : s.running u with
    | some id => exact ⟨id, rfl⟩
    | none => exact absurd (by simp [State.left, hr, blocks_of_idle hr (hquiet (.run u) trivial)]) hu
  cases hpc : s.pc (.inr u) with
  | idle =>
    have hdone := hquiet (.done u) trivial
    simp only [nestedStep, hpc, step, hr] at hdone
    cases hdone
  | ran n =>
    have hback := hquiet (.flushReturn (.inr u)) trivial
    simp only [nestedStep, step, hpc] at hback
    cases hback
  | waiting =>
    obtain ⟨v, hv⟩ := (h.waits.waiting _).1 hpc
    refine ⟨v, fun hz => ?_, hv⟩
    rw [State.barriers, (still_of_left hz).2] at hv
    cases hv

/-- A flush hangs exactly if it waits for a queue that is stuck in a cycle of
flushes: from every state a run can reach, whatever follows, a stuck queue takes
no further step and lets no flush go; and the steps of the queues come to an
end, in whatever order they are taken, when every other queue has executed all
its work and let go every flush. -/
theorem flush_hangs_iff_cycle (func : W → Option F) (tr : List (Tr (State (T ⊕ U) U W F) (Act (T ⊕ U) U W F)))
    (hr : Run NestedStep (init func) tr s) :
    (∀ tr' s', Run NestedStep s tr' s' → ∀ u, Stuck (WaitsFor s) u →
      (∀ x ∈ tr', x.act ≠ .run u ∧ x.act ≠ .done u) ∧ ∀ t ∈ s.barriers u, s'.pc t = .waiting) ∧
    ∃ N, ∀ tr' s', Run NestedStep s tr' s' → (∀ x ∈ tr', OfQueues x.act) → tr'.length ≤ N ∧
      ((∀ a, OfQueues a → nestedStep s' a = none) → ∀ u, ¬ Stuck (WaitsFor s) u →
        (∀ id < s'.accepted.length, s'.origin id = some u → s'.finished.count id = 1) ∧
          ∀ t ∈ s.barriers u, s'.pc t ≠ .waiting) := by
  have h : Sound s := sound_run (sound_init func) hr
  constructor
  · intro tr' s' hr' u hu
    obtain ⟨-, hb, hx⟩ := closed_run h (stuck_closed (WaitsFor s)) hr'
    refine ⟨fun x hm => hx x hm u hu, fun t ht => ?_⟩
    exact ((sound_run h hr').waits.waiting t).2 ⟨u, hb u hu t ht⟩
  · obtain ⟨us, hus⟩ := run_within (run_step hr)
    have hload : OnlyIn us (load s) := fun u hu => load_zero h.nested (hus u hu)
    refine ⟨∑ u ∈ us, load s u, fun tr' s' hr' hq => ⟨?_, fun hquiet u hu => ?_⟩⟩
    · have htakes : ∀ x ∈ tr', Takes (load x.pre) (load x.post) := fun x hx => by
        obtain ⟨hpre, hst, -⟩ := (hr'.inv Sound h fun _ _ _ h hst => sound_step h hst).2 x hx
        exact takes_load hpre.waits (hq x hx) (nestedStep_iff.1 hst).2
      have hle := (hr'.length_le load hload htakes).2
      omega
    · have h' := sound_run h hr'
      have hzero : s'.left u = 0 := by
        by_contra hne
        obtain ⟨us', hus'⟩ := run_within (run_step (hr.append hr'))
        have hfin : {u | s'.left u ≠ 0}.Finite := us'.finite_toSet.subset fun v hv => by
          by_contra hno
          exact hv (hus' v hno)
        have hstuck := stuck_of_closed hfin (closed_of_quiet h' hquiet) hne
        exact hu (hstuck.mono fun a b hab => waitsFor_run hr' hq b _ hab)
      obtain ⟨hrun, hnil⟩ := still_of_left hzero
      refine ⟨fun id hid ho => h'.served.finished_once (h'.served.finished_of_still hrun hnil hid ho), fun t ht hpc => ?_⟩
      -- The thread's block would still be on the queue it was on.
      obtain ⟨v, hv⟩ := (h'.waits.waiting t).1 hpc
      obtain rfl := h.waits.sole v u t (waitsFor_run hr' hq v t hv) ht
      rw [State.barriers, hnil] at hv
      cases hv

/-- Two work functions, each of which flushes the other's queue. -/
def flushEachOther : List (Act (Unit ⊕ Bool) Bool Nat Nat) :=
  [.initWork 1 (some 7), .scheduleWork false (some 1), .scheduleWork true (some 1), .run false, .run true,
    .flush (.inr false) true, .flush (.inr true) false]

theorem flush_hangs_iff_cycle_two : ∃ tr s, Run NestedStep (init fun _ => none) tr s ∧
    tr.map (·.act) = flushEachOther ∧
    ∀ tr' s', Run NestedStep s tr' s' → s'.pc (.inr false) = .waiting ∧ s'.pc (.inr true) = .waiting := by
  obtain ⟨tr, s, he, hft, htf⟩ : ∃ tr s, exec nestedStep (init fun _ => none) flushEachOther = some (tr, s) ∧
      WaitsFor s false true ∧ WaitsFor s true false :=
    ⟨_, _, rfl, List.mem_singleton.2 rfl, List.mem_singleton.2 rfl⟩
  have hr := run_of_exec nestedStep _ _ he
  refine ⟨tr, s, hr.1, hr.2, fun tr' s' hr' => ?_⟩
  obtain ⟨hhangs, -⟩ := flush_hangs_iff_cycle _ _ hr.1
  have hfalse : Stuck (WaitsFor s) false := ⟨false, .refl, .tail (.single hft) htf⟩
  have htrue : Stuck (WaitsFor s) true := ⟨true, .refl, .tail (.single htf) hft⟩
  exact ⟨(hhangs tr' s' hr' true htrue).2 _ hft, (hhangs tr' s' hr' false hfalse).2 _ htf⟩

end PortingKit.Linux.Workqueue
