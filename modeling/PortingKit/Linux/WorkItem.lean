import PortingKit.Linux.Kernel
import PortingKit.Linux.Workqueue
/-!
# What a work function is called with

A work item is embedded in a container object, and its function means to go back
to it by `container_of`. The block of `schedule_work` calls it with the address of
the copy it has captured, which is in no container.
-/
open PortingKit.Lib

namespace PortingKit.Linux.Workqueue

variable {T U O F : Type}

/-- Where a pointer points to: into the object of its item, or into block `id`, where the
copy that the block has captured is at `captured id`. -/
def Ptr.place (captured : Nat → BitVec 64) : Ptr (Addr O) → Addr (O ⊕ Nat)
  | .item w => ⟨.inl w.obj, w.off⟩
  | .captured id => ⟨.inr id, captured id⟩

/-- A work function that was called with `arg` can work on the container `p` of the work
item at offset `k`. -/
structure Reaches [DecidableEq O] (captured : Nat → BitVec 64) (p : Addr O) (k : BitVec 64) (arg : Ptr (Addr O)) :
    Prop where
  pointer : arg = .item (p + k)
  container : containerOf (arg.place captured) k = (Ptr.item p).place captured
  /-- What is written at `j` in the container is read there afterwards. -/
  written : ∀ (mem : Addr (O ⊕ Nat) → BitVec 8) (j : BitVec 64) (v : BitVec 8),
    Function.update mem (containerOf (arg.place captured) k + j) v ((Ptr.item p).place captured + j) = v

/-- A pointer to the item itself does. -/
theorem reaches_item [DecidableEq O] (captured : Nat → BitVec 64) (p : Addr O) (k : BitVec 64) :
    Reaches captured p k (.item (p + k)) := by
  have hcontainer : containerOf ((Ptr.item (p + k)).place captured) k = (Ptr.item p).place captured :=
    Addr.containerOf_member ((Ptr.item p).place captured) k
  refine ⟨rfl, hcontainer, fun mem j v => ?_⟩
  rw [hcontainer, Function.update_self]

/-- The address of a captured copy leads elsewhere, whatever the offset, and nothing
written through it is seen in the container. -/
theorem captured_apart [DecidableEq O] (captured : Nat → BitVec 64) (p : Addr O) (k : BitVec 64) (id : Nat) :
    containerOf ((Ptr.captured id).place captured) k ≠ (Ptr.item p).place captured ∧
      ∀ (mem : Addr (O ⊕ Nat) → BitVec 8) (j : BitVec 64) (v : BitVec 8),
        Function.update mem (containerOf ((Ptr.captured id).place captured) k + j) v
          ((Ptr.item p).place captured + j) = mem ((Ptr.item p).place captured + j) := by
  have hobj : ∀ j : BitVec 64,
      (Ptr.item p).place captured + j ≠ containerOf ((Ptr.captured id).place captured) k + j := by
    intro j h
    cases congrArg Addr.obj h
  refine ⟨fun h => ?_, fun mem j v => Function.update_of_ne (hobj j) _ _⟩
  cases congrArg Addr.obj h

/-! ## Every execution -/

variable {W : Type}

/-- The blocks on the queues belong to the first `n` accepted calls. -/
def Below (n : Nat) (queues : U → Option (List (Block T F))) : Prop :=
  ∀ u, ∀ q ∈ queues u, ∀ id f, .work id f ∈ q → id < n

/-- Every block and every execution belongs to an accepted call, and a work function is
called with the copy its block has captured. -/
structure Copies (s : State T U W F) : Prop where
  queued : Below s.accepted.length s.gSystemWorkQueue
  started : ∀ e ∈ s.started, e.id < s.accepted.length ∧ e.arg = .captured e.id

theorem below_update [DecidableEq U] {n : Nat} {queues : U → Option (List (Block T F))} {u : U} {q : List (Block T F)}
    (h : Below n queues) (hq : ∀ id f, .work id f ∈ q → id < n) : Below n (Function.update queues u (some q)) := by
  intro v q' hq' id f hm
  by_cases hv : v = u
  · subst hv
    obtain rfl : q = q' := by simpa using hq'
    exact hq id f hm
  · rw [Function.update_of_ne hv] at hq'
    exact h v q' hq' id f hm

theorem Below.mono {m n : Nat} {queues : U → Option (List (Block T F))} (h : Below m queues) (hmn : m ≤ n) :
    Below n queues := fun u q hq id f hm => Nat.lt_of_lt_of_le (h u q hq id f hm) hmn

variable [DecidableEq T] [DecidableEq U] [DecidableEq W]

omit [DecidableEq T] [DecidableEq U] [DecidableEq W] in
theorem copies_init {func : W → Option F} : Copies (init func : State T U W F) where
  queued u q hq := by cases hq
  started e he := by cases he

omit [DecidableEq T] [DecidableEq W] in
theorem copies_ensure {s : State T U W F} {u : U} (hi : Copies s) :
    Copies (ensureSystemWorkqueueInitialized s u) := by
  unfold ensureSystemWorkqueueInitialized
  split
  · exact ⟨below_update hi.queued (by simp), hi.started⟩
  · exact hi

omit [DecidableEq T] [DecidableEq W] in
/-- The block of a call that is accepted has the next number. -/
theorem copies_accepted {s : State T U W F} {u : U} {w : W} {f : F} {q : List (Block T F)} (hi : Copies s)
    (hq : s.gSystemWorkQueue u = some q) :
    Copies { dispatch s u q (.work s.accepted.length f) with accepted := s.accepted ++ [(u, w)] } := by
  have hlen : (s.accepted ++ [(u, w)]).length = s.accepted.length + 1 := List.length_append
  constructor
  · show Below (s.accepted ++ [(u, w)]).length (Function.update _ u (some (q ++ [.work s.accepted.length f])))
    rw [hlen]
    refine below_update (hi.queued.mono (Nat.le_succ _)) fun id g hm => ?_
    rcases List.mem_append.1 hm with hm | hm
    · exact Nat.lt_succ_of_lt (hi.queued u q hq id g hm)
    · obtain ⟨rfl, -⟩ := by simpa using hm
      exact Nat.lt_succ_self _
  · intro e he
    obtain ⟨hid, harg⟩ := hi.started e he
    refine ⟨?_, harg⟩
    show e.id < (s.accepted ++ [(u, w)]).length
    omega

theorem copies_step {s s' : State T U W F} {a : Act T U W F} (hi : Copies s) (h : Step s a s') : Copies s' := by
  cases step_does h with
  | initWork w fn => exact ⟨hi.queued, hi.started⟩
  | rejected => exact copies_ensure hi
  | @accepted u w f q _ hq _ =>
    rw [← ensure_accepted s u]
    exact copies_accepted (copies_ensure hi) hq
  | flushNothing => exact ⟨hi.queued, hi.started⟩
  | @flush t u q hq =>
    refine ⟨below_update hi.queued fun id f hm => ?_, hi.started⟩
    exact hi.queued u q hq id f (by simpa using hm)
  | flushReturn => exact ⟨hi.queued, hi.started⟩
  | @runWork u id f q _ hq =>
    refine ⟨below_update hi.queued fun id' f' hm => hi.queued u _ hq id' f' (List.mem_cons_of_mem _ hm), ?_⟩
    intro e he
    rcases List.mem_append.1 he with he | he
    · exact hi.started e he
    · obtain rfl := List.mem_singleton.1 he
      exact ⟨hi.queued u _ hq id f List.mem_cons_self, rfl⟩
  | @runBarrier u t n q _ hq =>
    exact ⟨below_update hi.queued fun id f hm => hi.queued u _ hq id f (List.mem_cons_of_mem _ hm), hi.started⟩
  | done => exact ⟨hi.queued, hi.started⟩

/-- No execution gets its work item: the function is called with a pointer that is not the
one scheduled, that leads to no container, and through which no container is written. So a
run in which every execution gets its item is one without executions. -/
theorem no_work_item_reached [DecidableEq O] {func : Addr O → Option F} (captured : Nat → BitVec 64)
    {tr : List (Tr (State T U (Addr O) F) (Act T U (Addr O) F))} {s : State T U (Addr O) F}
    (h : Run Step (init func) tr s) :
    (∀ e ∈ s.started, (∃ x, s.accepted[e.id]? = some x) ∧ ∀ (p : Addr O) (k : BitVec 64),
      e.arg ≠ .item (p + k) ∧ containerOf (e.arg.place captured) k ≠ (Ptr.item p).place captured ∧
      ∀ (mem : Addr (O ⊕ Nat) → BitVec 8) (j : BitVec 64) (v : BitVec 8),
        Function.update mem (containerOf (e.arg.place captured) k + j) v ((Ptr.item p).place captured + j) =
          mem ((Ptr.item p).place captured + j)) ∧
    ((∀ e ∈ s.started, ∀ u p k, s.accepted[e.id]? = some (u, p + k) → Reaches captured p k e.arg) ↔
      s.started = []) := by
  have hi := (h.inv Copies copies_init fun _ _ _ hi hst => copies_step hi hst).1
  refine ⟨fun e he => ?_, fun hall => ?_, fun hnone => by simp [hnone]⟩
  · obtain ⟨hid, harg⟩ := hi.started e he
    refine ⟨⟨_, List.getElem?_eq_getElem hid⟩, fun p k => ?_⟩
    rw [harg]
    exact ⟨by simp, captured_apart captured p k e.id⟩
  · apply List.eq_nil_iff_forall_not_mem.2
    intro e he
    obtain ⟨hid, harg⟩ := hi.started e he
    obtain ⟨⟨u, w⟩, hx⟩ : ∃ x, s.accepted[e.id]? = some x := ⟨_, List.getElem?_eq_getElem hid⟩
    -- Every item is embedded at some offset in something, at least at 0 in itself.
    have hpointer := (hall e he u w 0 (by rw [Addr.add_zero, hx])).pointer
    rw [harg] at hpointer
    cases hpointer

/-- An item at offset 16 of a container, initialised, scheduled and executed. -/
theorem work_item_missed : ∃ (tr : List (Tr (State ℕ ℕ (Addr ℕ) ℕ) (Act ℕ ℕ (Addr ℕ) ℕ)))
    (s : State ℕ ℕ (Addr ℕ) ℕ), Run Step (init fun _ => none) tr s ∧
      tr.map (·.act) = [.initWork ((⟨1, 0⟩ : Addr ℕ) + 16#64) (some 5),
        .scheduleWork 0 (some ((⟨1, 0⟩ : Addr ℕ) + 16#64)), .run 0] ∧
      ∃ e ∈ s.started, s.accepted[e.id]? = some (0, (⟨1, 0⟩ : Addr ℕ) + 16#64) ∧
        ∀ captured, ¬ Reaches captured ⟨1, 0⟩ 16 e.arg := by
  obtain ⟨tr, s, he, hstarted, haccepted⟩ : ∃ (tr : List (Tr (State ℕ ℕ (Addr ℕ) ℕ) (Act ℕ ℕ (Addr ℕ) ℕ)))
      (s : State ℕ ℕ (Addr ℕ) ℕ), exec step (init fun _ => none) [.initWork ((⟨1, 0⟩ : Addr ℕ) + 16#64) (some 5),
        .scheduleWork 0 (some ((⟨1, 0⟩ : Addr ℕ) + 16#64)), .run 0] = some (tr, s) ∧
      ⟨0, 5, .captured 0⟩ ∈ s.started ∧ s.accepted[0]? = some (0, (⟨1, 0⟩ : Addr ℕ) + 16#64) :=
    ⟨_, _, rfl, List.mem_cons_self, rfl⟩
  obtain ⟨hr, hacts⟩ := run_of_exec step _ _ he
  refine ⟨tr, s, hr, hacts, _, hstarted, haccepted, fun captured h => ?_⟩
  cases h.pointer

/-- A run with one execution, which does not get its item. -/
theorem no_work_item_reached_once : ∃ (tr : List (Tr (State ℕ ℕ (Addr ℕ) ℕ) (Act ℕ ℕ (Addr ℕ) ℕ)))
    (s : State ℕ ℕ (Addr ℕ) ℕ), Run Step (init fun _ => none) tr s ∧ s.started ≠ [] ∧
      ¬ ∀ e ∈ s.started, ∀ u p k, s.accepted[e.id]? = some (u, p + k) → Reaches (fun _ => 0) p k e.arg := by
  obtain ⟨tr, s, he, hstarted⟩ : ∃ (tr : List (Tr (State ℕ ℕ (Addr ℕ) ℕ) (Act ℕ ℕ (Addr ℕ) ℕ)))
      (s : State ℕ ℕ (Addr ℕ) ℕ), exec step (init fun _ => none) [.initWork ⟨1, 16⟩ (some 5),
        .scheduleWork 0 (some ⟨1, 16⟩), .run 0] = some (tr, s) ∧ s.started = [⟨0, 5, .captured 0⟩] := ⟨_, _, rfl, rfl⟩
  have hr := (run_of_exec step _ _ he).1
  have hne : s.started ≠ [] := by rw [hstarted]; exact List.cons_ne_nil _ _
  exact ⟨tr, s, hr, hne, fun hall => hne ((no_work_item_reached (fun _ => 0) hr).2.1 hall)⟩

end PortingKit.Linux.Workqueue
