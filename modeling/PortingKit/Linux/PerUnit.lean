import Mathlib.Data.List.Nodup
import PortingKit.Linux.SystemWide
/-!
# What every unit can rely on

System-wide order is lost as soon as two units schedule work. What holds in
every run, whatever the other units do, holds for each unit's queue by itself:
it neither loses, repeats nor reorders the work of its unit, and it calls the
functions the items had when they were scheduled.
-/
open PortingKit.Lib

namespace PortingKit.Linux.Workqueue

variable {T U W F : Type}

variable [DecidableEq U]

/-- Of some calls of `schedule_work`, those that came from a unit. -/
def State.own (s : State T U W F) (u : U) (ids : List Nat) : List Nat := ids.filter fun id => s.origin id = some u

variable {s s' : State T U W F}

theorem own_append (u : U) (ids ids' : List Nat) : s.own u (ids ++ ids') = s.own u ids ++ s.own u ids' :=
  List.filter_append ..

theorem mem_own {u : U} {ids : List Nat} {id : Nat} : id ∈ s.own u ids ↔ id ∈ ids ∧ s.origin id = some u := by
  unfold State.own
  rw [List.mem_filter, decide_eq_true_eq]

theorem own_singleton (u : U) (id : Nat) : s.own u [id] = if s.origin id = some u then [id] else [] := by
  unfold State.own
  by_cases h : s.origin id = some u <;> simp [h]

omit [DecidableEq U] in
/-- A call that is accepted leaves the origins of the earlier ones. -/
theorem origin_accept {x : U × W} (ha : s'.accepted = s.accepted ++ [x]) {id : Nat} (h : id < s.accepted.length) :
    s'.origin id = s.origin id := by
  unfold State.origin
  rw [ha, List.getElem?_append_left h]

theorem own_accept {x : U × W} (ha : s'.accepted = s.accepted ++ [x]) {ids : List Nat}
    (h : ∀ id ∈ ids, id < s.accepted.length) (u : U) : s'.own u ids = s.own u ids := by
  unfold State.own
  apply List.filter_congr
  intro id hid
  rw [origin_accept ha (h id hid)]

theorem own_range_accept {u : U} {w : W} (ha : s'.accepted = s.accepted ++ [(u, w)]) (v : U) :
    s'.own v (List.range s'.accepted.length) =
      s.own v (List.range s.accepted.length) ++ if v = u then [s.accepted.length] else [] := by
  have hnew : s'.origin s.accepted.length = some u := by
    unfold State.origin
    simp [ha]
  have hlen : s'.accepted.length = s.accepted.length + 1 := by simp [ha]
  have hold : s'.own v (List.range s.accepted.length) = s.own v (List.range s.accepted.length) :=
    own_accept ha (fun id h => List.mem_range.1 h) v
  rw [hlen, List.range_succ, own_append, own_singleton, hold, hnew]
  simp only [Option.some.injEq, eq_comm]

/-! ## A unit's work -/

/-- What a unit's queue has begun, with what waits on it, is what was accepted
from the unit; what it began has finished, except for the call it executes. -/
structure Served (s : State T U W F) : Prop where
  started : ∀ id ∈ s.started.map (·.id), id < s.accepted.length
  finished : ∀ id ∈ s.finished, id < s.accepted.length
  queued : ∀ u, s.own u (s.started.map (·.id)) ++ workIds (s.blocks u) = s.own u (List.range s.accepted.length)
  running : ∀ u, s.own u s.finished ++ (s.running u).toList = s.own u (s.started.map (·.id))

theorem Served.queue_own (h : Served s) {u : U} {id : Nat} (hid : id ∈ workIds (s.blocks u)) :
    id < s.accepted.length ∧ s.origin id = some u := by
  have hmem : id ∈ s.own u (List.range s.accepted.length) := by
    rw [← h.queued u]
    exact List.mem_append_right _ hid
  rw [mem_own, List.mem_range] at hmem
  exact hmem

theorem Served.running_own (h : Served s) {u : U} {id : Nat} (hr : s.running u = some id) :
    id < s.accepted.length ∧ s.origin id = some u := by
  have hmem : id ∈ s.own u (s.started.map (·.id)) := by
    rw [← h.running u, hr]
    simp
  obtain ⟨hs, ho⟩ := mem_own.1 hmem
  exact ⟨h.started id hs, ho⟩

theorem served_init (func : W → Option F) : Served (init func : State T U W F) where
  started _ h := by cases h
  finished _ h := by cases h
  queued _ := rfl
  running _ := rfl

theorem blocks_ensure (s : State T U W F) (u : U) : (ensureSystemWorkqueueInitialized s u).blocks = s.blocks := by
  unfold ensureSystemWorkqueueInitialized
  split
  · rename_i hq
    rw [blocks_set rfl]
    apply Function.update_eq_self_iff.2
    simp [State.blocks, hq]
  · rfl

theorem served_ensure (h : Served s) (u : U) : Served (ensureSystemWorkqueueInitialized s u) := by
  have hb := blocks_ensure s u
  unfold ensureSystemWorkqueueInitialized at hb ⊢
  split at hb
  · exact { h with queued := by rw [hb]; exact h.queued }
  · exact h

/-- The blocks of a unit and of the others after one was put behind its own. -/
theorem blocks_snoc {u : U} {q : List (Block T F)} {b : Block T F}
    (hq : s.gSystemWorkQueue u = some q)
    (h : s'.gSystemWorkQueue = Function.update s.gSystemWorkQueue u (some (q ++ [b]))) :
    s'.blocks = Function.update s.blocks u (s.blocks u ++ [b]) := by
  rw [blocks_set h]
  congr 2
  simp [State.blocks, hq]

theorem served_accept (h : Served s) {u : U} {w : W} {f : F} {q : List (Block T F)}
    (hq : s.gSystemWorkQueue u = some q) :
    Served { dispatch s u q (.work s.accepted.length f) with accepted := s.accepted ++ [(u, w)] } := by
  set s' : State T U W F :=
    { dispatch s u q (.work s.accepted.length f) with accepted := s.accepted ++ [(u, w)] } with hs'
  have ha : s'.accepted = s.accepted ++ [(u, w)] := rfl
  have hb : s'.blocks = Function.update s.blocks u (s.blocks u ++ [.work s.accepted.length f]) := blocks_snoc hq rfl
  have hlt : ∀ id, id < s.accepted.length → id < s'.accepted.length := fun id h => by
    simp only [ha, List.length_append, List.length_singleton]
    omega
  have hstarted : ∀ v, s'.own v (s'.started.map (·.id)) = s.own v (s.started.map (·.id)) := own_accept ha h.started
  refine ⟨fun id hid => hlt id (h.started id hid), fun id hid => hlt id (h.finished id hid), fun v => ?_, fun v => ?_⟩
  · rw [hstarted, own_range_accept ha, ← h.queued v, List.append_assoc, hb]
    by_cases hv : v = u
    · subst hv
      rw [Function.update_self, workIds_append, if_pos rfl]
      rfl
    · rw [Function.update_of_ne hv, if_neg hv, List.append_nil]
  · rw [hstarted, ← h.running v]
    congr 1
    exact own_accept ha h.finished v

theorem served_runWork (h : Served s) {u : U} {id : Nat} {f : F} {q : List (Block T F)}
    (hr : s.running u = none) (hq : s.gSystemWorkQueue u = some (.work id f :: q)) :
    Served { s with
      gSystemWorkQueue := Function.update s.gSystemWorkQueue u (some q)
      running := Function.update s.running u (some id)
      started := s.started ++ [⟨id, f, .captured id⟩] } := by
  set s' : State T U W F := { s with
    gSystemWorkQueue := Function.update s.gSystemWorkQueue u (some q)
    running := Function.update s.running u (some id)
    started := s.started ++ [⟨id, f, .captured id⟩] } with hs'
  have hb : s'.blocks = Function.update s.blocks u q := blocks_set rfl
  have hsame : s.blocks u = .work id f :: q := by simp [State.blocks, hq]
  obtain ⟨hlt, ho⟩ := h.queue_own (u := u) (by rw [hsame]; exact List.mem_cons_self : id ∈ _)
  have hstarted : ∀ v, s'.own v (s'.started.map (·.id)) =
      s.own v (s.started.map (·.id)) ++ if v = u then [id] else [] := fun v => by
    have hmap : s'.started.map (·.id) = s.started.map (·.id) ++ [id] := by simp [hs']
    rw [hmap, own_append, own_singleton]
    change _ ++ (if s.origin id = some v then [id] else []) = _
    simp only [ho, Option.some.injEq, eq_comm]
    rfl
  refine ⟨fun i hi => ?_, h.finished, fun v => ?_, fun v => ?_⟩
  · simp only [hs', List.map_append, List.map_cons, List.map_nil, List.mem_append, List.mem_singleton] at hi
    rcases hi with hi | rfl
    · exact h.started i hi
    · exact hlt
  · -- The item moves from the front of the queue to the end of what was begun.
    have hv := h.queued v
    rw [hstarted, hb, List.append_assoc]
    by_cases e : v = u
    · subst e
      rw [hsame] at hv
      rw [if_pos rfl, Function.update_self]
      exact hv
    · rw [if_neg e, Function.update_of_ne e]
      exact hv
  · have hv := h.running v
    rw [hstarted, ← hv]
    by_cases e : v = u
    · subst e
      simp only [hs', Function.update_self, hr, if_pos, Option.toList_none, Option.toList_some, List.append_nil]
      rfl
    · simp only [hs', Function.update_of_ne e, if_neg e, List.append_nil]
      rfl

theorem served_runBarrier (h : Served s) {u : U} {t : T} {n : Nat} {q : List (Block T F)} {pc : T → Pc}
    (hq : s.gSystemWorkQueue u = some (.barrier t n :: q)) :
    Served { s with gSystemWorkQueue := Function.update s.gSystemWorkQueue u (some q), pc := pc } := by
  have hsame : s.blocks u = .barrier t n :: q := by simp [State.blocks, hq]
  refine { h with queued := fun v => ?_ }
  have hv := h.queued v
  rw [blocks_set rfl]
  by_cases e : v = u
  · subst e
    rw [hsame] at hv
    rw [Function.update_self]
    exact hv
  · rw [Function.update_of_ne e]
    exact hv

theorem served_flush (h : Served s) {u : U} {t : T} {n : Nat} {q : List (Block T F)} {pc : T → Pc}
    (hq : s.gSystemWorkQueue u = some q) : Served { dispatch s u q (.barrier t n) with pc := pc } := by
  refine { h with queued := fun v => ?_ }
  have hv := h.queued v
  rw [blocks_snoc hq rfl]
  by_cases e : v = u
  · subst e
    rw [Function.update_self, workIds_append]
    simp only [workIds, List.append_nil]
    exact hv
  · rw [Function.update_of_ne e]
    exact hv

theorem served_done (h : Served s) {u : U} {id : Nat} (hr : s.running u = some id) :
    Served { s with running := Function.update s.running u none, finished := s.finished ++ [id] } := by
  obtain ⟨hlt, ho⟩ := h.running_own hr
  refine { h with finished := fun i hi => ?_, running := fun v => ?_ }
  · rcases List.mem_append.1 hi with hi | hi
    · exact h.finished i hi
    · rw [List.mem_singleton] at hi
      exact hi ▸ hlt
  · have hv := h.running v
    change s.own v (s.finished ++ [id]) ++ _ = s.own v _
    rw [own_append, own_singleton, ← hv, ho]
    by_cases e : v = u
    · subst e
      simp [hr]
    · simp [e, Ne.symm e]

theorem Served.nodup (h : Served s) (u : U) : (s.own u s.finished ++ (s.running u).toList ++ workIds (s.blocks u)).Nodup := by
  rw [h.running u, h.queued u]
  exact List.nodup_range.filter _

/-- Work that has finished has finished once. -/
theorem Served.finished_once (h : Served s) {id : Nat} (hid : id ∈ s.finished) : s.finished.count id = 1 := by
  have hlt := h.finished id hid
  have ho : s.origin id = some s.accepted[id].1 := by
    unfold State.origin
    rw [List.getElem?_eq_getElem hlt]
    rfl
  have hnodup := (List.nodup_append'.1 (List.nodup_append'.1 (h.nodup s.accepted[id].1)).1).1
  have hcount := List.count_eq_one_of_mem hnodup (mem_own.2 ⟨hid, ho⟩)
  rwa [State.own, List.count_filter (by simpa using ho)] at hcount

/-- Accepted work is finished, executing or waiting on its unit's queue. -/
theorem Served.trichotomy (h : Served s) {u : U} {id : Nat} (hid : id < s.accepted.length) (ho : s.origin id = some u) :
    id ∈ s.finished ∨ s.running u = some id ∨ id ∈ workIds (s.blocks u) := by
  have hmem : id ∈ s.own u (List.range s.accepted.length) := mem_own.2 ⟨List.mem_range.2 hid, ho⟩
  rw [← h.queued u, ← h.running u, List.mem_append, List.mem_append, mem_own, Option.mem_toList] at hmem
  rcases hmem with (⟨hf, -⟩ | hr) | hq
  · exact .inl hf
  · exact .inr (.inl hr)
  · exact .inr (.inr hq)

/-- When a unit's queue is idle and empty, the unit's accepted work has finished. -/
theorem Served.finished_of_still (h : Served s) {u : U} (hrun : s.running u = none) (hnil : s.blocks u = []) {id : Nat}
    (hid : id < s.accepted.length) (ho : s.origin id = some u) : id ∈ s.finished := by
  rcases h.trichotomy hid ho with hf | he | hw
  · exact hf
  · rw [hrun] at he
    cases he
  · rw [hnil] at hw
    cases hw

section
variable [DecidableEq T] [DecidableEq W]

theorem served_step {a : Act T U W F} (h : Served s) (hst : Step s a s') : Served s' := by
  cases step_does hst with
  | initWork w fn => exact { h with }
  | @rejected u _ _ => exact served_ensure h u
  | @accepted u w f q _ hq _ =>
    have hacc := served_accept (w := w) (f := f) (served_ensure h u) hq
    rwa [ensure_accepted] at hacc
  | flushNothing _ => exact { h with }
  | flush hq => exact served_flush h hq
  | flushReturn _ => exact { h with }
  | runWork hr hq => exact served_runWork h hr hq
  | runBarrier _ hq => exact served_runBarrier h hq
  | done hr => exact served_done h hr

theorem run_served {func : W → Option F} {tr : List (Tr (State T U W F) (Act T U W F))}
    (hr : Run Step (init func) tr s) : Served s :=
  (hr.inv Served (served_init func) fun _ _ _ h hst => served_step h hst).1

/-- In every run, each unit's queue begins the unit's work in the order it was
accepted, one call at a time, and what it has not begun waits on it in that
order: nothing of a unit is lost, repeated or overtaken. -/
theorem each_unit_in_order (func : W → Option F) (tr : List (Tr (State T U W F) (Act T U W F)))
    (hr : Run Step (init func) tr s) (u : U) :
    s.own u (s.started.map (·.id)) ++ workIds (s.blocks u) = s.own u (List.range s.accepted.length) ∧
    s.own u s.finished ++ (s.running u).toList = s.own u (s.started.map (·.id)) :=
  ⟨(run_served hr).queued u, (run_served hr).running u⟩

/-- Two units take turns with one item, and the second one's queue is first to run. -/
def takeTurns : List (Act Unit Bool Nat Nat) :=
  [.initWork 1 (some 7), .scheduleWork false (some 1), .scheduleWork true (some 1), .scheduleWork false (some 1),
    .run true, .run false, .initWork 1 (some 8)]

theorem each_unit_in_order_turns : ∃ tr s, Run Step (init fun _ => none) tr s ∧ tr.map (·.act) = takeTurns ∧
    s.own false (s.started.map (·.id)) ++ workIds (s.blocks false) = [0, 2] ∧
    s.own false s.finished ++ (s.running false).toList = s.own false (s.started.map (·.id)) := by
  have hr := run_of_exec step (init fun _ => none) takeTurns rfl
  exact ⟨_, _, hr.1, hr.2, each_unit_in_order _ _ hr.1 false⟩

end

/-! ## The function of an item -/

section
variable [DecidableEq T] [DecidableEq W]

/-- The call of `schedule_work` with this number was accepted when its item held
this function. -/
def CapturedAt (tr : List (Tr (State T U W F) (Act T U W F))) (id : Nat) (f : F) : Prop :=
  ∃ x ∈ tr, ∃ u w, x.act = .scheduleWork u (some w) ∧ (scheduleWork x.pre u (some w)).1 = true ∧
    x.pre.accepted.length = id ∧ x.pre.func w = some f

omit [DecidableEq T] [DecidableEq W] in
theorem CapturedAt.snoc {tr : List (Tr (State T U W F) (Act T U W F))} {id : Nat} {f : F} (h : CapturedAt tr id f)
    (x : Tr (State T U W F) (Act T U W F)) : CapturedAt (tr ++ [x]) id f := by
  obtain ⟨y, hy, h⟩ := h
  exact ⟨y, List.mem_append_left _ hy, h⟩

/-- What waits and what was called has the function of its item. -/
structure Captured (tr : List (Tr (State T U W F) (Act T U W F))) (s : State T U W F) : Prop where
  queued : ∀ u id f, .work id f ∈ s.blocks u → CapturedAt tr id f
  started : ∀ e ∈ s.started, CapturedAt tr e.id e.func

omit [DecidableEq T] [DecidableEq W] in
/-- A step that puts no work on a queue. -/
theorem Captured.keep {tr : List (Tr (State T U W F) (Act T U W F))} {a : Act T U W F} (h : Captured tr s)
    (hb : ∀ u id f, .work id f ∈ s'.blocks u → .work id f ∈ s.blocks u) (hs : ∀ e ∈ s'.started, CapturedAt tr e.id e.func) :
    Captured (tr ++ [⟨s, a, s'⟩]) s' :=
  ⟨fun u id f hm => (h.queued u id f (hb u id f hm)).snoc _, fun e he => (hs e he).snoc _⟩

theorem captured_func_step {tr : List (Tr (State T U W F) (Act T U W F))} {a : Act T U W F} (h : Captured tr s)
    (hst : Step s a s') : Captured (tr ++ [⟨s, a, s'⟩]) s' := by
  cases step_does hst with
  | initWork => exact h.keep (fun _ _ _ hm => hm) h.started
  | @rejected u _ _ =>
    refine h.keep (fun v id f hm => ?_) (fun e he => h.started e ?_)
    · rwa [blocks_ensure] at hm
    · unfold ensureSystemWorkqueueInitialized at he
      split at he <;> exact he
  | @accepted u w f q hacc hq hf =>
    have hb : State.blocks
        { dispatch (ensureSystemWorkqueueInitialized s u) u q (.work s.accepted.length f) with
          accepted := s.accepted ++ [(u, w)] } =
        Function.update s.blocks u (s.blocks u ++ [.work s.accepted.length f]) := by
      rw [blocks_snoc hq rfl, blocks_ensure]
    have hnew : ∀ p, CapturedAt (tr ++ [⟨s, .scheduleWork u (some w), p⟩]) s.accepted.length f := fun p =>
      ⟨_, List.mem_append_right _ List.mem_cons_self, u, w, rfl, hacc, rfl, hf⟩
    refine ⟨fun v id g hm => ?_, fun e he => (h.started e ?_).snoc _⟩
    · rcases mem_snoc hb v _ hm with hold | ⟨-, he⟩
      · exact (h.queued v id g hold).snoc _
      · cases he
        exact hnew _
    · unfold dispatch ensureSystemWorkqueueInitialized at he
      split at he <;> exact he
  | flushNothing => exact h.keep (fun _ _ _ hm => hm) h.started
  | @flush t u q hq =>
    refine h.keep (fun v id f hm => ?_) h.started
    exact (mem_snoc (blocks_snoc hq rfl) v _ hm).resolve_right nofun
  | flushReturn => exact h.keep (fun _ _ _ hm => hm) h.started
  | @runWork u id f q _ hq =>
    have hsame : s.blocks u = .work id f :: q := by simp [State.blocks, hq]
    refine h.keep (fun v id' g hm => mem_tail (blocks_set rfl) hsame v _ hm) fun e he => ?_
    rcases List.mem_append.1 he with he | he
    · exact h.started e he
    · rw [List.mem_singleton] at he
      subst he
      exact h.queued u id f (by rw [hsame]; exact List.mem_cons_self)
  | @runBarrier u t n q _ hq =>
    have hsame : s.blocks u = .barrier t n :: q := by simp [State.blocks, hq]
    exact h.keep (fun v id g hm => mem_tail (blocks_set rfl) hsame v _ hm) h.started
  | done => exact h.keep (fun _ _ _ hm => hm) h.started

/-- Every call of a work function calls what the item held when that call of
`schedule_work` was accepted, whatever `INIT_WORK` did to the item since. -/
theorem calls_func_of_schedule (func : W → Option F) (tr : List (Tr (State T U W F) (Act T U W F)))
    (hr : Run Step (init func) tr s) : ∀ e ∈ s.started, CapturedAt tr e.id e.func := by
  have h0 : Captured [] (init func : State T U W F) := ⟨fun _ _ _ h => (by cases h), fun _ h => (by cases h)⟩
  exact (hr.inv_history Captured h0 fun _ _ _ _ h hst => captured_func_step h hst).started

theorem calls_func_of_schedule_turns : ∃ tr s, Run Step (init fun _ => none) tr s ∧ tr.map (·.act) = takeTurns ∧
    s.func 1 = some 8 ∧ s.started.map (·.func) = [7, 7] ∧ ∀ e ∈ s.started, CapturedAt tr e.id e.func := by
  have hr := run_of_exec step (init fun _ => none) takeTurns rfl
  exact ⟨_, _, hr.1, hr.2, rfl, rfl, calls_func_of_schedule _ _ hr.1⟩

end

end PortingKit.Linux.Workqueue
