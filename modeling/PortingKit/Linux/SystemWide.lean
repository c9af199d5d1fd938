import Mathlib.Data.List.Range
import PortingKit.Linux.Workqueue
/-!
# schedule_work and flush_scheduled_work system-wide

The header means one queue for the whole system. It is one as long as all work
that is not finished comes from one translation unit; then the order of
execution is the order of scheduling, and a flush waits for all that came before.
-/
open PortingKit.Lib

namespace PortingKit.Linux.Workqueue

variable {T U W F : Type}

/-! ## The promised behaviour -/

/-- Work has executed in the order it was scheduled, one item at a time, and
every flush that returned waited for all that was accepted before it began. -/
structure SystemWide (s : State T U W F) : Prop where
  order : s.started.map (·.id) = List.range s.started.length
  one : ∀ u v, s.running u ≠ none → s.running v ≠ none → u = v
  flushed : ∀ n ∈ s.flushed, ∀ id < n, s.finished.count id = 1

/-- Everything accepted and not finished was scheduled from `u`. -/
def Only (s : State T U W F) (u : U) : Prop :=
  ∀ id x, s.accepted[id]? = some x → id ∉ s.finished → x.1 = u

instance [DecidableEq U] (s : State T U W F) (u : U) : Decidable (Only s u) :=
  decidable_of_iff (∀ id < s.accepted.length, id ∉ s.finished → s.accepted[id]?.map (·.1) = some u) <| by
    constructor
    · intro h id x hx hid
      have hlt := (List.getElem?_eq_some_iff.1 hx).1
      simpa [hx] using h id hlt hid
    · intro h id hlt hid
      have hget := List.getElem?_eq_getElem hlt
      rw [hget, Option.map_some, h id _ hget hid]

/-! ## One queue at a time -/

/-- The unit an accepted call came from. -/
def State.origin (s : State T U W F) (id : Nat) : Option U := s.accepted[id]?.map (·.1)

def workIds : List (Block T F) → List Nat
  | [] => []
  | .work id _ :: q => id :: workIds q
  | .barrier _ _ :: q => workIds q

/-- The blocks waiting for a unit. -/
def State.blocks (s : State T U W F) (u : U) : List (Block T F) := (s.gSystemWorkQueue u).getD []

/-- The work a unit's queue has begun or still has to begin. -/
def State.pending (s : State T U W F) (u : U) : List Nat := (s.running u).toList ++ workIds (s.blocks u)

def State.unfinished (s : State T U W F) : List Nat :=
  List.range' s.finished.length (s.accepted.length - s.finished.length)

/-- Work behind a barrier was accepted after the flush began. -/
def Fence : Block T F → Block T F → Prop
  | .barrier _ n, .work id _ => n ≤ id
  | _, _ => True

variable [DecidableEq U]

theorem blocks_set {s s' : State T U W F} {u : U} {q : List (Block T F)}
    (h : s'.gSystemWorkQueue = Function.update s.gSystemWorkQueue u (some q)) :
    s'.blocks = Function.update s.blocks u q := by
  funext v
  by_cases hv : v = u
  · subst hv; simp [State.blocks, h]
  · simp [State.blocks, h, hv]

/-- Work finishes in order, and all that is unfinished is on one queue. -/
structure Inv (s : State T U W F) : Prop where
  finished : s.finished = List.range s.finished.length
  le : s.finished.length ≤ s.accepted.length
  started : s.started.map (·.id) = List.range s.started.length
  pending : ∀ u, s.pending u = s.unfinished.filter fun id => s.origin id = some u
  sole : ∀ i ∈ s.unfinished, ∀ j ∈ s.unfinished, s.origin i = s.origin j
  nothing : ∀ u, s.gSystemWorkQueue u = none → s.running u = none
  busy : ∀ u, s.running u ≠ none → s.started.length = s.finished.length + 1
  idle : (∀ u, s.running u = none) → s.started.length = s.finished.length
  fenced : ∀ u, (s.blocks u).Pairwise Fence
  barrier : ∀ u t n, .barrier t n ∈ s.blocks u →
    n ≤ s.accepted.length ∧ ∀ i ∈ s.unfinished, i < n → s.origin i = some u
  ran : ∀ t n, s.pc t = .ran n → n ≤ s.finished.length
  flushed : ∀ n ∈ s.flushed, n ≤ s.finished.length

theorem workIds_append (q q' : List (Block T F)) : workIds (q ++ q') = workIds q ++ workIds q' := by
  induction q with
  | nil => rfl
  | cons b q ih => cases b <;> simp [workIds, ih]

theorem mem_of_workIds {q : List (Block T F)} {id : Nat} (h : id ∈ workIds q) : ∃ f, .work id f ∈ q := by
  induction q with
  | nil => cases h
  | cons b q ih =>
    cases b with
    | work id' f =>
      rcases List.mem_cons.1 h with rfl | h
      · exact ⟨f, List.mem_cons_self⟩
      · obtain ⟨f', hf⟩ := ih h
        exact ⟨f', List.mem_cons_of_mem _ hf⟩
    | barrier t n =>
      obtain ⟨f', hf⟩ := ih h
      exact ⟨f', List.mem_cons_of_mem _ hf⟩

variable {s : State T U W F}

theorem Inv.mem_unfinished (hi : Inv s) {i : Nat} :
    i ∈ s.unfinished ↔ s.finished.length ≤ i ∧ i < s.accepted.length := by
  have hle := hi.le
  simp only [State.unfinished, List.mem_range'_1]
  omega

/-- When all unfinished work is from one unit, that unit's share is all of it. -/
theorem filter_origin {u : U} (ho : ∀ i ∈ s.unfinished, s.origin i = some u) (v : U) :
    (s.unfinished.filter fun id => s.origin id = some v) = if v = u then s.unfinished else [] := by
  by_cases h : v = u
  · subst h
    rw [if_pos rfl, List.filter_eq_self]
    exact fun i hi => decide_eq_true (ho i hi)
  · rw [if_neg h, List.filter_eq_nil_iff]
    intro i hi
    rw [ho i hi, decide_eq_true_eq, Option.some.injEq]
    exact Ne.symm h

theorem Inv.pending_one (hi : Inv s) {u : U} (ho : ∀ i ∈ s.unfinished, s.origin i = some u) :
    s.pending u = s.unfinished ∧ ∀ v, v ≠ u → s.pending v = [] := by
  constructor
  · rw [hi.pending u, filter_origin ho, if_pos rfl]
  · intro v hv
    rw [hi.pending v, filter_origin ho, if_neg hv]

theorem pending_of_one {u : U} (ho : ∀ i ∈ s.unfinished, s.origin i = some u) (hu : s.pending u = s.unfinished)
    (hv : ∀ v, v ≠ u → s.pending v = []) :
    ∀ v, s.pending v = s.unfinished.filter fun id => s.origin id = some v := by
  intro v
  rw [filter_origin ho]
  by_cases h : v = u
  · subst h; rw [if_pos rfl, hu]
  · rw [if_neg h, hv v h]

/-- A unit with pending work has all of it. -/
theorem Inv.pending_all (hi : Inv s) {u : U} {i : Nat} (h : i ∈ s.pending u) :
    s.pending u = s.unfinished ∧ (∀ j ∈ s.unfinished, s.origin j = some u) ∧ ∀ v, v ≠ u → s.pending v = [] := by
  rw [hi.pending u, List.mem_filter] at h
  obtain ⟨hmem, horigin⟩ := h
  have hall : ∀ j ∈ s.unfinished, s.origin j = some u := fun j hj =>
    (hi.sole j hj i hmem).trans (of_decide_eq_true horigin)
  obtain ⟨hu, hv⟩ := hi.pending_one hall
  exact ⟨hu, hall, hv⟩

/-- The first pending item is the first unfinished one. -/
theorem Inv.pending_cons (hi : Inv s) {u : U} {id : Nat} {l : List Nat} (h : s.pending u = id :: l) :
    id = s.finished.length ∧ s.finished.length < s.accepted.length ∧
      l = List.range' (s.finished.length + 1) (s.accepted.length - (s.finished.length + 1)) := by
  obtain ⟨hall, -, -⟩ := hi.pending_all (u := u) (i := id) (by rw [h]; exact List.mem_cons_self)
  rw [h, State.unfinished] at hall
  have hpos : 0 < s.accepted.length - s.finished.length := by
    by_contra hn
    rw [Nat.eq_zero_of_not_pos hn] at hall
    cases hall
  obtain ⟨k, hk⟩ := Nat.exists_eq_succ_of_ne_zero hpos.ne'
  rw [hk, List.range'_succ, List.cons.injEq] at hall
  refine ⟨hall.1, by omega, ?_⟩
  rw [hall.2]
  congr 1
  omega

theorem Inv.not_running (hi : Inv s) {u v : U} {i : Nat} (h : i ∈ s.pending u) (hv : v ≠ u) : s.running v = none := by
  have hnil := (hi.pending_all h).2.2 v hv
  unfold State.pending at hnil
  cases hr : s.running v with
  | none => rfl
  | some id => rw [hr] at hnil; simp at hnil

/-- What `Only` says of the unfinished work. -/
theorem Inv.only (hi : Inv s) {u : U} (h : Only s u) : ∀ i ∈ s.unfinished, s.origin i = some u := by
  intro i hmem
  obtain ⟨h1, h2⟩ := hi.mem_unfinished.1 hmem
  have hx := List.getElem?_eq_getElem h2
  have hnot : i ∉ s.finished := by
    rw [hi.finished, List.mem_range]
    omega
  have horigin := h i _ hx hnot
  simp only [State.origin, hx, Option.map_some, horigin]

/-- An item that has a function is scheduled, and a flush is called, only from the unit
all unfinished work is from. -/
def OneUnit (s : State T U W F) : Act T U W F → Prop
  | .scheduleWork u (some w) => s.func w ≠ none → Only s u
  | .flush _ u => Only s u
  | _ => True

/-! ## What a step keeps -/

theorem inv_init (func : W → Option F) : Inv (init func : State T U W F) where
  finished := rfl
  le := Nat.le_refl _
  started := rfl
  pending _ := rfl
  sole _ h := by cases h
  nothing _ _ := rfl
  busy _ h := absurd rfl h
  idle _ := rfl
  fenced _ := .nil
  barrier _ _ _ h := by cases h
  ran _ _ h := by cases h
  flushed _ h := by cases h

theorem nothing_set {s s' : State T U W F} (hi : Inv s) {u : U} {q : List (Block T F)}
    (hq : s'.gSystemWorkQueue = Function.update s.gSystemWorkQueue u (some q))
    (hr : ∀ v, v ≠ u → s'.running v = s.running v) : ∀ v, s'.gSystemWorkQueue v = none → s'.running v = none := by
  intro v hv
  by_cases h : v = u
  · simp [hq, h] at hv
  · rw [hr v h]
    rw [hq, Function.update_of_ne h] at hv
    exact hi.nothing v hv

/-- Taking the first block of a unit's queue keeps the blocks of every queue fenced. -/
theorem fenced_tail {s s' : State T U W F} (hi : Inv s) {u : U} {b : Block T F} {q : List (Block T F)}
    (hb : s'.blocks = Function.update s.blocks u q) (hq : s.blocks u = b :: q) : ∀ v, (s'.blocks v).Pairwise Fence := by
  have hu := hi.fenced u
  rw [hq, List.pairwise_cons] at hu
  rw [hb, Function.forall_update_iff s.blocks fun _ q => q.Pairwise Fence]
  exact ⟨hu.2, fun v _ => hi.fenced v⟩

theorem mem_tail {s s' : State T U W F} {u : U} {b : Block T F} {q : List (Block T F)}
    (hb : s'.blocks = Function.update s.blocks u q) (hq : s.blocks u = b :: q) :
    ∀ v, ∀ c ∈ s'.blocks v, c ∈ s.blocks v := by
  rw [hb, Function.forall_update_iff s.blocks fun v q => ∀ c ∈ q, c ∈ s.blocks v]
  refine ⟨fun c hc => ?_, fun _ _ _ hc => hc⟩
  rw [hq]
  exact List.mem_cons_of_mem _ hc

/-- So does dispatching a block that may follow those in the queue. -/
theorem fenced_snoc {s s' : State T U W F} (hi : Inv s) {u : U} {b : Block T F}
    (hb : s'.blocks = Function.update s.blocks u (s.blocks u ++ [b])) (hf : ∀ c ∈ s.blocks u, Fence c b) :
    ∀ v, (s'.blocks v).Pairwise Fence := by
  rw [hb, Function.forall_update_iff s.blocks fun _ q => q.Pairwise Fence]
  refine ⟨?_, fun v _ => hi.fenced v⟩
  rw [List.pairwise_append]
  refine ⟨hi.fenced u, List.pairwise_singleton _ _, fun c hc b' hb' => ?_⟩
  rw [List.mem_singleton] at hb'
  exact hb' ▸ hf c hc

theorem mem_snoc {s s' : State T U W F} {u : U} {b : Block T F}
    (hb : s'.blocks = Function.update s.blocks u (s.blocks u ++ [b])) :
    ∀ v, ∀ c ∈ s'.blocks v, c ∈ s.blocks v ∨ v = u ∧ c = b := by
  rw [hb, Function.forall_update_iff s.blocks fun v q => ∀ c ∈ q, c ∈ s.blocks v ∨ v = u ∧ c = b]
  refine ⟨fun c hc => ?_, fun _ _ _ hc => .inl hc⟩
  rw [List.mem_append, List.mem_singleton] at hc
  exact hc.imp_right fun h => ⟨rfl, h⟩

/-- A step that moves no work moves none in the invariant. -/
theorem pending_keep {s s' : State T U W F} (hi : Inv s) (ha : s'.accepted = s.accepted)
    (hf : s'.finished = s.finished) (hp : ∀ v, s'.pending v = s.pending v) :
    ∀ v, s'.pending v = s'.unfinished.filter fun id => s'.origin id = some v := by
  intro v
  have hu : s'.unfinished = s.unfinished := by simp only [State.unfinished, ha, hf]
  have ho : s'.origin = s.origin := by funext id; simp only [State.origin, ha]
  rw [hp v, hi.pending v, hu, ho]

/-- Creating the queue changes nothing that counts. -/
theorem inv_ensure {s : State T U W F} (hi : Inv s) (u : U) : Inv (ensureSystemWorkqueueInitialized s u) := by
  unfold ensureSystemWorkqueueInitialized
  split
  case h_2 => exact hi
  rename_i hq
  have hb : State.blocks { s with gSystemWorkQueue := Function.update s.gSystemWorkQueue u (some []) } = s.blocks := by
    rw [blocks_set rfl]
    apply Function.update_eq_self_iff.2
    simp [State.blocks, hq]
  refine { hi with pending := pending_keep hi rfl rfl fun v => ?_, nothing := nothing_set hi rfl fun _ _ => rfl,
                   fenced := ?_, barrier := ?_ }
  · unfold State.pending
    rw [hb]
  · rw [hb]; exact hi.fenced
  · rw [hb]; exact hi.barrier

theorem range'_snoc {m n : Nat} (h : m ≤ n) : List.range' m (n + 1 - m) = List.range' m (n - m) ++ [n] := by
  have he : n + 1 - m = n - m + 1 := by omega
  rw [he, List.range'_concat]
  congr 2
  omega

/-- Scheduling from the unit all unfinished work is from. -/
theorem inv_accept {s : State T U W F} (hi : Inv s) {u : U} {w : W} {f : F} {q : List (Block T F)}
    (hq : s.gSystemWorkQueue u = some q) (ho : ∀ i ∈ s.unfinished, s.origin i = some u) :
    Inv { dispatch s u q (.work s.accepted.length f) with accepted := s.accepted ++ [(u, w)] } := by
  have hle := hi.le
  set s' : State T U W F :=
    { dispatch s u q (.work s.accepted.length f) with accepted := s.accepted ++ [(u, w)] } with hs'
  have hblocks : s'.blocks = Function.update s.blocks u (q ++ [.work s.accepted.length f]) := blocks_set rfl
  have hsame : s.blocks u = q := by simp [State.blocks, hq]
  have hsnoc : s'.blocks = Function.update s.blocks u (s.blocks u ++ [.work s.accepted.length f]) := by
    rw [hblocks, hsame]
  have hold : ∀ i, i < s.accepted.length → s'.origin i = s.origin i := fun i h => by
    simp only [State.origin, hs', dispatch, List.getElem?_append_left h]
  have hnew : s'.origin s.accepted.length = some u := by simp [State.origin, hs', dispatch]
  have hunf : s'.unfinished = s.unfinished ++ [s.accepted.length] := by
    simp only [State.unfinished, hs', dispatch, List.length_append, List.length_singleton]
    exact range'_snoc hle
  have hall : ∀ i ∈ s'.unfinished, s'.origin i = some u := by
    intro i h
    rw [hunf, List.mem_append, List.mem_singleton] at h
    rcases h with h | rfl
    · rw [hold i (hi.mem_unfinished.1 h).2, ho i h]
    · exact hnew
  obtain ⟨hpu, hpv⟩ := hi.pending_one ho
  refine { hi with le := ?_, pending := pending_of_one hall ?_ fun v hv => ?_, sole := ?_,
                   nothing := nothing_set hi rfl fun _ _ => rfl, fenced := ?_, barrier := ?_ }
  · simp only [hs', dispatch, List.length_append, List.length_singleton]
    omega
  · -- The new item joins the end of the queue and of the unfinished work.
    unfold State.pending at hpu ⊢
    rw [hunf, ← hpu, hblocks, Function.update_self, workIds_append, hsame, ← List.append_assoc]
    rfl
  · unfold State.pending at hpv ⊢
    rw [hblocks, Function.update_of_ne hv]
    exact hpv v hv
  · exact fun i h j h' => (hall i h).trans (hall j h').symm
  · apply fenced_snoc hi hsnoc
    intro c hc
    cases c with
    | work => trivial
    | barrier t n => exact (hi.barrier u t n hc).1
  · intro v t n hb
    obtain ⟨h1, h2⟩ := hi.barrier v t n ((mem_snoc hsnoc v _ hb).resolve_right nofun)
    refine ⟨by simp only [hs', dispatch, List.length_append, List.length_singleton]; omega, fun i h hn => ?_⟩
    rw [hunf, List.mem_append, List.mem_singleton] at h
    rcases h with h | rfl
    · rw [hold i (by omega)]; exact h2 i h hn
    · omega

/-- A flush from a unit without a queue has nothing to wait for. -/
theorem inv_flushNothing {s : State T U W F} (hi : Inv s) {u : U} (hq : s.gSystemWorkQueue u = none)
    (ho : ∀ i ∈ s.unfinished, s.origin i = some u) : Inv { s with flushed := s.flushed ++ [s.accepted.length] } := by
  refine { hi with flushed := ?_ }
  intro n hn
  rcases List.mem_append.1 hn with hn | hn
  · exact hi.flushed n hn
  · rw [List.mem_singleton] at hn
    subst hn
    -- Without a queue the unit has nothing pending, and all unfinished work is its own.
    have hnil : s.unfinished = [] := by
      rw [← (hi.pending_one ho).1]
      simp [State.pending, State.blocks, hq, hi.nothing u hq, workIds]
    rw [State.unfinished, List.range'_eq_nil_iff, Nat.sub_eq_zero_iff_le] at hnil
    exact hnil

/-- The block taken is of the first unfinished item. -/
theorem inv_runWork {s : State T U W F} (hi : Inv s) {u : U} {id : Nat} {f : F} {q : List (Block T F)}
    (hr : s.running u = none) (hq : s.gSystemWorkQueue u = some (.work id f :: q)) :
    Inv { s with
      gSystemWorkQueue := Function.update s.gSystemWorkQueue u (some q)
      running := Function.update s.running u (some id)
      started := s.started ++ [⟨id, f, .captured id⟩] } := by
  have hsame : s.blocks u = .work id f :: q := by simp [State.blocks, hq]
  have hpend : s.pending u = id :: workIds q := by simp [State.pending, hr, hsame, workIds]
  obtain ⟨hid, -, -⟩ := hi.pending_cons hpend
  have hothers : ∀ v, v ≠ u → s.running v = none := fun v hv =>
    hi.not_running (i := id) (by rw [hpend]; exact List.mem_cons_self) hv
  have hlen : s.started.length = s.finished.length := by
    apply hi.idle
    intro v
    by_cases h : v = u
    · rw [h, hr]
    · exact hothers v h
  set s' : State T U W F := { s with
    gSystemWorkQueue := Function.update s.gSystemWorkQueue u (some q)
    running := Function.update s.running u (some id)
    started := s.started ++ [⟨id, f, .captured id⟩] } with hs'
  have hblocks : s'.blocks = Function.update s.blocks u q := blocks_set rfl
  refine { hi with started := ?_, pending := pending_keep hi rfl rfl fun v => ?_,
                   nothing := nothing_set hi rfl fun v hv => Function.update_of_ne hv _ _,
                   busy := ?_, idle := ?_, fenced := ?_, barrier := ?_ }
  · rw [hs']
    simp only [List.map_append, List.map_cons, List.map_nil, hi.started, List.length_append, List.length_singleton]
    rw [List.range_succ, hlen, hid]
  · by_cases h : v = u
    · subst h
      rw [hpend]
      simp [State.pending, hblocks, s']
    · simp [State.pending, hblocks, s', h]
  · intro _ _
    simp [s', hlen]
  · intro h
    have hu := h u
    simp [s'] at hu
  · exact fenced_tail hi hblocks hsame
  · exact fun v t n hb => hi.barrier v t n (mem_tail hblocks hsame v _ hb)

/-- The item that finishes is the first unfinished one. -/
theorem inv_done {s : State T U W F} (hi : Inv s) {u : U} {id : Nat} (hr : s.running u = some id) :
    Inv { s with running := Function.update s.running u none, finished := s.finished ++ [id] } := by
  have hpend : s.pending u = id :: workIds (s.blocks u) := by simp [State.pending, hr]
  have hin : id ∈ s.pending u := by rw [hpend]; exact List.mem_cons_self
  obtain ⟨hid, hlt, htail⟩ := hi.pending_cons hpend
  obtain ⟨hall, horigin, hnil⟩ := hi.pending_all hin
  set s' : State T U W F :=
    { s with running := Function.update s.running u none, finished := s.finished ++ [id] }
  have hunf : s'.unfinished = workIds (s.blocks u) := by
    rw [htail]
    simp [State.unfinished, s']
  have hsub : ∀ i ∈ s'.unfinished, i ∈ s.unfinished := fun i h => by
    rw [hunf] at h
    rw [← hall, hpend]
    exact List.mem_cons_of_mem _ h
  have hall' : ∀ i ∈ s'.unfinished, s'.origin i = some u := fun i h => horigin i (hsub i h)
  refine { hi with finished := ?_, le := ?_, pending := pending_of_one hall' ?_ fun v hv => ?_, sole := ?_,
                   nothing := ?_, busy := ?_, idle := ?_, barrier := ?_, ran := ?_, flushed := ?_ }
  · simp only [s', List.length_append, List.length_singleton, List.range_succ, ← hi.finished, hid]
  · simp only [s', List.length_append, List.length_singleton]
    omega
  · rw [hunf]
    simp [State.pending, State.blocks, s']
  · simpa [State.pending, State.blocks, s', hv] using hnil v hv
  · exact fun i h j h' => hi.sole i (hsub i h) j (hsub j h')
  · intro v hv
    by_cases h : v = u
    · simp [s', h]
    · simpa [s', h] using hi.nothing v hv
  · intro v hv
    by_cases h : v = u
    · simp [s', h] at hv
    · simp [s', h, hi.not_running hin h] at hv
  · intro _
    have hb := hi.busy u (by simp [hr])
    simp only [s', List.length_append, List.length_singleton]
    exact hb
  · intro v t n hb
    obtain ⟨h1, h2⟩ := hi.barrier v t n hb
    exact ⟨h1, fun i h hn => h2 i (hsub i h) hn⟩
  · intro t n ht
    have hn := hi.ran t n ht
    simp only [s', List.length_append, List.length_singleton]
    omega
  · intro n hn
    have hn := hi.flushed n hn
    simp only [s', List.length_append, List.length_singleton]
    omega

variable [DecidableEq T]

/-- Flushing from the unit all unfinished work is from. -/
theorem inv_flush {s : State T U W F} (hi : Inv s) {t : T} {u : U} {q : List (Block T F)}
    (hq : s.gSystemWorkQueue u = some q) (ho : ∀ i ∈ s.unfinished, s.origin i = some u) :
    Inv { dispatch s u q (.barrier t s.accepted.length) with pc := Function.update s.pc t .waiting } := by
  set s' : State T U W F :=
    { dispatch s u q (.barrier t s.accepted.length) with pc := Function.update s.pc t .waiting }
  have hblocks : s'.blocks = Function.update s.blocks u (q ++ [.barrier t s.accepted.length]) := blocks_set rfl
  have hsame : s.blocks u = q := by simp [State.blocks, hq]
  have hsnoc : s'.blocks = Function.update s.blocks u (s.blocks u ++ [.barrier t s.accepted.length]) := by
    rw [hblocks, hsame]
  refine { hi with pending := pending_keep hi rfl rfl fun v => ?_, nothing := nothing_set hi rfl fun _ _ => rfl,
                   fenced := ?_, barrier := ?_, ran := ?_ }
  · unfold State.pending
    rw [hblocks]
    by_cases h : v = u
    · subst h
      rw [Function.update_self, workIds_append, hsame]
      simp [workIds, s', dispatch]
    · rw [Function.update_of_ne h]; rfl
  · apply fenced_snoc hi hsnoc
    intro c _
    cases c <;> trivial
  · intro v t' n hb
    rcases mem_snoc hsnoc v _ hb with hold | ⟨rfl, he⟩
    · exact hi.barrier v t' n hold
    · cases he
      exact ⟨Nat.le_refl _, fun i h _ => ho i h⟩
  · intro t' n ht'
    by_cases h : t' = t
    · simp [s', h] at ht'
    · exact hi.ran t' n (by simpa [s', dispatch, h] using ht')

theorem inv_flushReturn {s : State T U W F} (hi : Inv s) {t : T} {n : Nat} (ht : s.pc t = .ran n) :
    Inv { s with pc := Function.update s.pc t .idle, flushed := s.flushed ++ [n] } := by
  refine { hi with ran := ?_, flushed := ?_ }
  · intro t' k ht'
    by_cases h : t' = t
    · simp [h] at ht'
    · exact hi.ran t' k (by simpa [h] using ht')
  · intro k hk
    rcases List.mem_append.1 hk with hk | hk
    · exact hi.flushed k hk
    · rw [List.mem_singleton] at hk
      subst hk
      exact hi.ran t k ht

/-- A flush's block reaches the front when all that was accepted before is done. -/
theorem inv_runBarrier {s : State T U W F} (hi : Inv s) {u : U} {t : T} {n : Nat} {q : List (Block T F)}
    (hr : s.running u = none) (hq : s.gSystemWorkQueue u = some (.barrier t n :: q)) :
    Inv { s with
      gSystemWorkQueue := Function.update s.gSystemWorkQueue u (some q)
      pc := Function.update s.pc t (.ran n) } := by
  have hsame : s.blocks u = .barrier t n :: q := by simp [State.blocks, hq]
  have hpend : s.pending u = workIds q := by simp [State.pending, hr, hsame, workIds]
  have hfence := hi.fenced u
  rw [hsame, List.pairwise_cons] at hfence
  obtain ⟨hn, horigin⟩ := hi.barrier u t n (by rw [hsame]; exact List.mem_cons_self)
  have hle : n ≤ s.finished.length := by
    by_contra hlt
    -- The first unfinished item would be on this queue, behind the barrier it precedes.
    have hmem : s.finished.length ∈ s.unfinished := hi.mem_unfinished.2 ⟨Nat.le_refl _, by omega⟩
    have hin : s.finished.length ∈ s.pending u := by
      rw [hi.pending u, List.mem_filter]
      exact ⟨hmem, decide_eq_true (horigin _ hmem (by omega))⟩
    rw [hpend] at hin
    obtain ⟨f, hf⟩ := mem_of_workIds hin
    have hbehind : n ≤ s.finished.length := hfence.1 _ hf
    omega
  set s' : State T U W F := { s with
    gSystemWorkQueue := Function.update s.gSystemWorkQueue u (some q)
    pc := Function.update s.pc t (.ran n) }
  have hblocks : s'.blocks = Function.update s.blocks u q := blocks_set rfl
  refine { hi with pending := pending_keep hi rfl rfl fun v => ?_, nothing := nothing_set hi rfl fun _ _ => rfl,
                   fenced := ?_, barrier := ?_, ran := ?_ }
  · by_cases h : v = u
    · subst h
      rw [hpend]
      simp [State.pending, hblocks, s', hr]
    · simp [State.pending, hblocks, s', h]
  · exact fenced_tail hi hblocks hsame
  · exact fun v t' k hb => hi.barrier v t' k (mem_tail hblocks hsame v _ hb)
  · intro t' k ht'
    by_cases h : t' = t
    · simp only [s', h, Function.update_self, Pc.ran.injEq] at ht'
      exact ht' ▸ hle
    · exact hi.ran t' k (by simpa [s', h] using ht')

variable [DecidableEq W]

theorem inv_step {s s' : State T U W F} {a : Act T U W F} (hi : Inv s) (hc : OneUnit s a) (h : Step s a s') :
    Inv s' := by
  cases step_does h with
  | initWork w fn => exact { hi with }
  | rejected => exact inv_ensure hi _
  | @accepted u w f q _ hq hf =>
    have hi₁ := inv_ensure hi u
    have ho : Only (ensureSystemWorkqueueInitialized s u) u := by
      unfold Only
      rw [ensure_accepted, ensure_finished]
      exact hc (by rw [hf]; simp)
    have hi₂ := inv_accept (w := w) (f := f) hi₁ hq (hi₁.only ho)
    rwa [ensure_accepted] at hi₂
  | flushNothing hq => exact inv_flushNothing hi hq (hi.only hc)
  | flush hq => exact inv_flush hi hq (hi.only hc)
  | flushReturn ht => exact inv_flushReturn hi ht
  | runWork hr hq => exact inv_runWork hi hr hq
  | runBarrier hr hq => exact inv_runBarrier hi hr hq
  | done hr => exact inv_done hi hr

omit [DecidableEq T] [DecidableEq W] in
theorem Inv.systemWide {s : State T U W F} (hi : Inv s) : SystemWide s where
  order := hi.started
  one u v hu hv := by
    obtain ⟨id, hid⟩ := Option.ne_none_iff_exists'.1 hu
    by_contra hne
    have hin : id ∈ s.pending u := by simp [State.pending, hid]
    exact hv (hi.not_running hin (Ne.symm hne))
  flushed n hn id hid := by
    have hle := hi.flushed n hn
    rw [hi.finished, List.count_range, if_pos (by omega)]

/-! ## Two queues at a time -/

/-- An idle queue gets past the blocks of flushes. -/
theorem drain {u : U} {b : Block T F} (q : List (Block T F)) {s : State T U W F} (hr : s.running u = none)
    (hq : s.gSystemWorkQueue u = some (q ++ [b])) (hw : workIds q = []) :
    ∃ tr s', Run Step s tr s' ∧ s'.gSystemWorkQueue u = some [b] ∧ s'.running = s.running ∧
      s'.started = s.started ∧ s'.finished = s.finished ∧ s'.flushed = s.flushed := by
  induction q generalizing s with
  | nil => exact ⟨[], s, .nil, hq, rfl, rfl, rfl, rfl⟩
  | cons c q ih =>
    cases c with
    | work => cases hw
    | barrier t n =>
      have hst : Step s (.run u) { s with
          gSystemWorkQueue := Function.update s.gSystemWorkQueue u (some (q ++ [b]))
          pc := Function.update s.pc t (.ran n) } := by
        simp [Step, step, runNext, hr, hq]
      obtain ⟨tr, s', hrun, h1, h2, h3, h4, h5⟩ := ih (s := { s with
          gSystemWorkQueue := Function.update s.gSystemWorkQueue u (some (q ++ [b]))
          pc := Function.update s.pc t (.ran n) }) hr (by simp) hw
      exact ⟨_, s', .cons hst hrun, h1, h2, h3, h4, h5⟩

omit [DecidableEq T] [DecidableEq W] in
/-- Where unfinished work is from another unit, a unit has none pending. -/
theorem Inv.elsewhere {s : State T U W F} (hi : Inv s) {u : U} (h : ¬ Only s u) :
    s.finished.length < s.accepted.length ∧ s.running u = none ∧ workIds (s.blocks u) = [] := by
  unfold Only at h
  push Not at h
  obtain ⟨id, x, hx, hid, hne⟩ := h
  have hlt : id < s.accepted.length := (List.getElem?_eq_some_iff.1 hx).1
  have hle : s.finished.length ≤ id := by
    rw [hi.finished, List.mem_range] at hid
    omega
  have hmem : id ∈ s.unfinished := hi.mem_unfinished.2 ⟨hle, hlt⟩
  have hpend : s.pending u = [] := by
    rw [hi.pending u, List.filter_eq_nil_iff]
    intro j hj
    rw [hi.sole j hj id hmem, decide_eq_true_eq]
    simpa [State.origin, hx] using hne
  unfold State.pending at hpend
  obtain ⟨h1, h2⟩ := List.append_eq_nil_iff.1 hpend
  refine ⟨by omega, ?_, h2⟩
  cases hr : s.running u with
  | none => rfl
  | some id => rw [hr] at h1; cases h1

omit [DecidableEq U] [DecidableEq T] [DecidableEq W] in
/-- A flush that returns before the first unfinished item is done breaks the promise. -/
theorem not_systemWide_of_flushed {s : State T U W F} {n : Nat} (hn : n ∈ s.flushed)
    (hf : s.finished = List.range s.finished.length) (hlt : s.finished.length < n) : ¬ SystemWide s := by
  intro h
  have hc := h.flushed n hn s.finished.length hlt
  rw [hf, List.count_range, List.length_range, if_neg (Nat.lt_irrefl _)] at hc
  cases hc

/-- Work scheduled beside unfinished work of another unit can overtake it. -/
theorem overtakes {s : State T U W F} (hi : Inv s) {u : U} {w : W} {f : F} {q : List (Block T F)} (ho : ¬ Only s u)
    (hq : s.gSystemWorkQueue u = some q) :
    ∃ tr s'', Run Step
      { dispatch s u q (.work s.accepted.length f) with accepted := s.accepted ++ [(u, w)] } tr s'' ∧
      ¬ SystemWide s'' := by
  obtain ⟨hlt, hr, hw⟩ := hi.elsewhere ho
  have hsame : s.blocks u = q := by simp [State.blocks, hq]
  obtain ⟨tr, s₁, hrun, hq₁, hr₁, hst₁, hf₁, -⟩ := drain q (b := .work s.accepted.length f)
    (s := { dispatch s u q (.work s.accepted.length f) with accepted := s.accepted ++ [(u, w)] }) hr
    (by simp [dispatch]) (hsame ▸ hw)
  have hr₁' : s₁.running u = none := by rw [hr₁]; exact hr
  have hst : Step s₁ (.run u) { s₁ with
      gSystemWorkQueue := Function.update s₁.gSystemWorkQueue u (some [])
      running := Function.update s₁.running u (some s.accepted.length)
      started := s₁.started ++ [⟨s.accepted.length, f, .captured s.accepted.length⟩] } := by
    simp [Step, step, runNext, hr₁', hq₁]
  refine ⟨_, _, hrun.snoc hst, fun h => ?_⟩
  -- In order, the new item starts last, so all others have been started.
  have horder := h.order
  have hs : s₁.started = s.started := hst₁
  simp only [hs, List.map_append, List.map_cons, List.map_nil, hi.started, List.length_append,
    List.length_singleton, List.range_succ] at horder
  have hn : s.accepted.length = s.started.length := by simpa using horder
  by_cases hidle : ∀ v, s.running v = none
  · have hlen := hi.idle hidle
    omega
  · -- Two items execute at once.
    obtain ⟨v, hv⟩ := not_forall.1 hidle
    have hvu : v ≠ u := fun e => hv (e ▸ hr)
    refine hvu (h.one v u ?_ (by simp))
    simp only [Function.update_of_ne hvu, hr₁]
    exact hv

/-- A flush beside unfinished work of another unit can return before it is done. -/
theorem flush_misses {s : State T U W F} (hi : Inv s) {t : T} {u : U} (ho : ¬ Only s u) :
    ∃ tr s'', Run Step (flushScheduledWork s t u) tr s'' ∧ ¬ SystemWide s'' := by
  obtain ⟨hlt, hr, hw⟩ := hi.elsewhere ho
  unfold flushScheduledWork
  split
  · rename_i q hq
    have hsame : s.blocks u = q := by simp [State.blocks, hq]
    obtain ⟨tr, s₁, hrun, hq₁, hr₁, -, hf₁, -⟩ := drain q (b := .barrier t s.accepted.length)
      (s := { dispatch s u q (.barrier t s.accepted.length) with pc := Function.update s.pc t .waiting }) hr
      (by simp [dispatch]) (hsame ▸ hw)
    have hr₁' : s₁.running u = none := by rw [hr₁]; exact hr
    have hst : Step s₁ (.run u) { s₁ with
        gSystemWorkQueue := Function.update s₁.gSystemWorkQueue u (some [])
        pc := Function.update s₁.pc t (.ran s.accepted.length) } := by
      simp [Step, step, runNext, hr₁', hq₁]
    have hret : Step { s₁ with
        gSystemWorkQueue := Function.update s₁.gSystemWorkQueue u (some [])
        pc := Function.update s₁.pc t (.ran s.accepted.length) } (.flushReturn t) { s₁ with
        gSystemWorkQueue := Function.update s₁.gSystemWorkQueue u (some [])
        pc := Function.update (Function.update s₁.pc t (.ran s.accepted.length)) t .idle
        flushed := s₁.flushed ++ [s.accepted.length] } := by
      simp [Step, step]
    have hf : s₁.finished = s.finished := hf₁
    refine ⟨_, _, (hrun.snoc hst).snoc hret, not_systemWide_of_flushed (n := s.accepted.length) (by simp) ?_ ?_⟩
    · simp only [hf]; exact hi.finished
    · simp only [hf]; exact hlt
  · exact ⟨[], _, .nil, not_systemWide_of_flushed (n := s.accepted.length) (by simp) hi.finished hlt⟩

/-- Any other call made in such a run can break it. -/
theorem broken_beside {func : W → Option F} {tr : List (Tr (State T U W F) (Act T U W F))} {s s' : State T U W F}
    {a : Act T U W F} (hr : Run Step (init func) tr s) (hc : ∀ t ∈ tr, OneUnit t.pre t.act) (h : Step s a s')
    (hn : ¬ OneUnit s a) : ∃ tr' s'', Run Step s' tr' s'' ∧ ¬ SystemWide s'' := by
  have hi := (hr.inv_of_cond Inv OneUnit (inv_init func) (fun _ _ _ hi ha h => inv_step hi ha h) hc).1
  cases step_does h with
  | @accepted u w f q _ hq _ =>
    have ho : ¬ Only (ensureSystemWorkqueueInitialized s u) u := fun ho => hn fun _ => by
      unfold Only at ho
      rw [ensure_accepted, ensure_finished] at ho
      exact ho
    have hbad := overtakes (w := w) (f := f) (inv_ensure hi u) ho hq
    rwa [ensure_accepted] at hbad
  | @flush t u q hq =>
    have hbad := flush_misses (t := t) hi hn
    simpa only [flushScheduledWork, hq] using hbad
  | @flushNothing t u hq =>
    have hbad := flush_misses (t := t) hi hn
    simpa only [flushScheduledWork, hq] using hbad
  | @rejected u work hres =>
    refine absurd ?_ hn
    cases work with
    | none => trivial
    | some w =>
      intro hf
      rw [scheduleWork_accepts.2 ⟨w, rfl, hf⟩] at hres
      cases hres
  | _ => exact absurd trivial hn

end PortingKit.Linux.Workqueue
