import PortingKit.Linux.ListLoops
/-!
# Queues of objects

A queue is a list head, and the objects on it hang there by a `list_head` member
at an offset `k` of the queue's own. An object may be on several queues at once,
by different members. `Queues` is what the memory stands for: the objects of
each queue, with the members no longer in sight.
-/
open PortingKit.Lib

namespace PortingKit.Linux

/-- What a program does with its queues. -/
inductive QueueOp where
  | init (head : BitVec 64)
  | add (obj head : BitVec 64)
  | addTail (obj head : BitVec 64)
  | del (obj head : BitVec 64)
  | take (head : BitVec 64)
  deriving DecidableEq

namespace QueueOp

def head : QueueOp → BitVec 64
  | init hd | add _ hd | addTail _ hd | del _ hd | take hd => hd

/-- The call, with the object it answers. `take` is `list_del` of the
`list_first_entry` if the list is not `list_empty`. -/
def exec (k : BitVec 64 → BitVec 64) (h : Heap (BitVec 64)) : QueueOp → Option (Option (BitVec 64) × Heap (BitVec 64))
  | init hd => do return (none, ← initListHead hd h)
  | add obj hd => do return (none, ← listAdd (obj + k hd) hd h)
  | addTail obj hd => do return (none, ← listAddTail (obj + k hd) hd h)
  | del obj hd => do return (none, ← listDel (obj + k hd) h)
  | take hd => do
    if (← listEmpty hd h) ≠ 0 then
      return (none, h)
    let obj ← listFirstEntry hd (k hd) h
    return (some obj, ← listDel (obj + k hd) h)

/-- A call after others, with all the answers so far. -/
def serve (k : BitVec 64 → BitVec 64) :
    List (Option (BitVec 64)) × Heap (BitVec 64) → QueueOp → Option (List (Option (BitVec 64)) × Heap (BitVec 64))
  | (answers, h), op => do
    let (a, h) ← op.exec k h
    return (answers ++ [a], h)

end QueueOp

/-- The objects of each queue, `none` for an address that heads no queue. -/
abbrev Queues := BitVec 64 → Option (List (BitVec 64))

namespace Queues

variable {k : BitVec 64 → BitVec 64}

/-- The members of the objects, queue by queue. -/
def cells (k : BitVec 64 → BitVec 64) (q : Queues) : Queues := fun hd => (q hd).map (·.map (· + k hd))

/-- `c` is a queue's head or the member of an object on one. -/
def Used (k : BitVec 64 → BitVec 64) (q : Queues) (c : BitVec 64) : Prop :=
  ∃ hd objs, q hd = some objs ∧ c ∈ hd :: objs.map (· + k hd)

/-- The legal calls, what each answers and what it does to the queues. -/
inductive Step (k : BitVec 64 → BitVec 64) : Queues → QueueOp × Option (BitVec 64) → Queues → Prop
  | init {q : Queues} {hd} : hd ≠ 0 → ¬ q.Used k hd → Step k q (.init hd, none) (Function.update q hd (some []))
  | add {q : Queues} {obj hd objs} : obj + k hd ≠ 0 → ¬ q.Used k (obj + k hd) → q hd = some objs →
      Step k q (.add obj hd, none) (Function.update q hd (some (obj :: objs)))
  | addTail {q : Queues} {obj hd objs} : obj + k hd ≠ 0 → ¬ q.Used k (obj + k hd) → q hd = some objs →
      Step k q (.addTail obj hd, none) (Function.update q hd (some (objs ++ [obj])))
  | del {q : Queues} {obj hd objs₁ objs₂} : q hd = some (objs₁ ++ obj :: objs₂) →
      Step k q (.del obj hd, none) (Function.update q hd (some (objs₁ ++ objs₂)))
  | takeNone {q : Queues} {hd} : q hd = some [] → Step k q (.take hd, none) q
  | take {q : Queues} {hd obj objs} : q hd = some (obj :: objs) →
      Step k q (.take hd, some obj) (Function.update q hd (some objs))

/-- The heap holds the queues. -/
def Holds (k : BitVec 64 → BitVec 64) (h : Heap (BitVec 64)) (q : Queues) : Prop :=
  ∃ L : Lists (BitVec 64), L.seq = q.cells k ∧ WellFormed h L

/-! ## One call -/

theorem cells_update (q : Queues) (hd : BitVec 64) (objs : List (BitVec 64)) :
    cells k (Function.update q hd (some objs)) = Function.update (q.cells k) hd (some (objs.map (· + k hd))) := by
  funext c
  by_cases hc : c = hd
  · subst hc
    simp [cells]
  · simp [cells, hc]

theorem cells_some {q : Queues} {hd : BitVec 64} {objs : List (BitVec 64)} (hq : q hd = some objs) :
    q.cells k hd = some (objs.map (· + k hd)) := by
  rw [cells, hq, Option.map_some]

theorem used_iff {q : Queues} {L : Lists (BitVec 64)} (hL : L.seq = q.cells k) (c : BitVec 64) :
    L.Used c ↔ q.Used k c := by
  constructor
  · rintro ⟨hd, xs, hs, hc⟩
    rw [hL] at hs
    obtain ⟨objs, hq, rfl⟩ := Option.map_eq_some_iff.1 hs
    exact ⟨hd, objs, hq, hc⟩
  · rintro ⟨hd, objs, hq, hc⟩
    exact ⟨hd, _, by rw [hL, cells_some hq], hc⟩

/-- The first object of a queue that has one. -/
theorem listFirstEntry_eq {h : Heap (BitVec 64)} {L : Lists (BitVec 64)} {hd obj o : BitVec 64} {xs : List (BitVec 64)}
    (hw : WellFormed h L) (hs : L.seq hd = some ((obj + o) :: xs)) : listFirstEntry hd o h = some obj := by
  have hnext : (h hd).next = obj + o := ring_next_head (hw hd _ hs)
  simp only [listFirstEntry, Lists.load hs List.mem_cons_self, listEntry, hnext, containerOf_member,
    Option.bind_eq_bind, Option.bind_some, Option.pure_def]

/-- Each call answers what the queues say and does to the heap what it does to them. -/
theorem exec_step {h : Heap (BitVec 64)} {q q' : Queues} {op : QueueOp} {a : Option (BitVec 64)} (hh : Holds k h q)
    (hst : Step k q (op, a) q') : ∃ h', op.exec k h = some (a, h') ∧ Holds k h' q' := by
  obtain ⟨L, hL, hw⟩ := hh
  have hseq : ∀ {hd objs}, q hd = some objs → L.seq hd = some (objs.map (· + k hd)) := fun hq => by
    rw [hL, cells_some hq]
  cases hst with
  | @init hd h0 hu =>
    have hu' : ¬ L.Used hd := fun hc => hu ((used_iff hL hd).1 hc)
    obtain ⟨L', hL'⟩ := (L.legal_iff (.init hd)).1 ⟨h0, hu'⟩
    cases hL' with
    | init _ _ hs =>
      obtain ⟨h', he, hw', -⟩ := exec_init hw h0 hu' hs
      exact ⟨h', by simp only [QueueOp.exec, he]; rfl, L', by rw [hs, hL, cells_update]; rfl, hw'⟩
  | @add obj hd objs h0 hu hq =>
    have hu' : ¬ L.Used (obj + k hd) := fun hc => hu ((used_iff hL _).1 hc)
    obtain ⟨L', hs⟩ := L.exists_insert h0 hu' (hseq hq) (.refl _)
    obtain ⟨h', he, hw', -⟩ := exec_add hw h0 hu' (hseq hq) hs
    exact ⟨h', by simp only [QueueOp.exec, he]; rfl, L', by rw [hs, hL, cells_update, List.map_cons], hw'⟩
  | @addTail obj hd objs h0 hu hq =>
    have hu' : ¬ L.Used (obj + k hd) := fun hc => hu ((used_iff hL _).1 hc)
    obtain ⟨L', hs⟩ := L.exists_insert h0 hu' (hseq hq) (List.perm_append_singleton _ _)
    obtain ⟨h', he, hw', -⟩ := exec_addTail hw h0 hu' (hseq hq) hs
    exact ⟨h', by simp only [QueueOp.exec, he]; rfl, L', by rw [hs, hL, cells_update, List.map_append]; rfl, hw'⟩
  | @del obj hd objs₁ objs₂ hq =>
    have hs : L.seq hd = some (objs₁.map (· + k hd) ++ (obj + k hd) :: objs₂.map (· + k hd)) := by
      rw [hseq hq, List.map_append, List.map_cons]
    obtain ⟨L', hs', -⟩ := L.exists_remove hs
    obtain ⟨h', he, hw', -⟩ := exec_del hw hs hs'
    exact ⟨h', by simp only [QueueOp.exec, he]; rfl, L', by rw [hs', hL, cells_update, List.map_append], hw'⟩
  | @takeNone hd hq =>
    obtain ⟨e, he, hempty⟩ := listEmpty_iff hw (hseq hq)
    have hne : e ≠ 0 := hempty.2 rfl
    exact ⟨h, by simp [QueueOp.exec, he, hne], L, hL, hw⟩
  | @take hd obj objs hq =>
    have hs : L.seq hd = some ([] ++ (obj + k hd) :: objs.map (· + k hd)) := hseq hq
    obtain ⟨e, he, hempty⟩ := listEmpty_iff hw hs
    have hzero : e = 0 := by simpa using hempty
    have hfirst := listFirstEntry_eq hw (hseq hq)
    obtain ⟨L', hs', -⟩ := L.exists_remove hs
    obtain ⟨h', hd', hw', -⟩ := exec_del hw hs hs'
    exact ⟨h', by simp [QueueOp.exec, he, hzero, hfirst, hd'], L', by rw [hs', hL, cells_update]; rfl, hw'⟩

/-! ## Whole runs -/

/-- What a call puts at the end of a queue. -/
def put (hd : BitVec 64) : QueueOp × Option (BitVec 64) → List (BitVec 64)
  | (.addTail obj hd', _) => if hd' = hd then [obj] else []
  | _ => []

/-- What a call takes off its front. -/
def taken (hd : BitVec 64) : QueueOp × Option (BitVec 64) → List (BitVec 64)
  | (.take hd', some obj) => if hd' = hd then [obj] else []
  | _ => []

/-- The call neither pushes in at the front of the queue nor deletes from its middle. -/
def InLine (hd : BitVec 64) (op : QueueOp) : Prop := ∀ obj, op ≠ .add obj hd ∧ op ≠ .del obj hd

/-- What was on a queue and is put there is what is taken and what stays, in order. -/
theorem step_in_line {q q' : Queues} {act : QueueOp × Option (BitVec 64)} {hd : BitVec 64} {objs : List (BitVec 64)}
    (hst : Step k q act q') (hq : q hd = some objs) (hl : InLine hd act.1) :
    ∃ rest, q' hd = some rest ∧ objs ++ put hd act = taken hd act ++ rest := by
  have hother : ∀ {hd' : BitVec 64} {objs' : List (BitVec 64)}, hd' ≠ hd →
      Function.update q hd' (some objs') hd = some objs := fun hne => by
    rw [Function.update_of_ne hne.symm, hq]
  cases hst with
  | @init hd' _ hu =>
    have hne : hd' ≠ hd := by
      rintro rfl
      exact hu ⟨hd', objs, hq, List.mem_cons_self⟩
    exact ⟨objs, hother hne, by simp [put, taken]⟩
  | @add obj hd' objs' _ _ hq' =>
    have hne : hd' ≠ hd := by
      rintro rfl
      exact (hl obj).1 rfl
    exact ⟨objs, hother hne, by simp [put, taken]⟩
  | @addTail obj hd' objs' _ _ hq' =>
    by_cases hne : hd' = hd
    · subst hne
      obtain rfl : objs = objs' := by simpa [hq] using hq'
      exact ⟨objs ++ [obj], Function.update_self .., by simp [put, taken]⟩
    · exact ⟨objs, hother hne, by simp [put, taken, hne]⟩
  | @del obj hd' objs₁ objs₂ hq' =>
    have hne : hd' ≠ hd := by
      rintro rfl
      exact (hl obj).2 rfl
    exact ⟨objs, hother hne, by simp [put, taken]⟩
  | takeNone hq' => exact ⟨objs, hq, by simp [put, taken]⟩
  | @take hd' obj objs' hq' =>
    by_cases hne : hd' = hd
    · subst hne
      obtain rfl : objs = obj :: objs' := by simpa [hq] using hq'
      exact ⟨objs', Function.update_self .., by simp [put, taken]⟩
    · exact ⟨objs, hother hne, by simp [put, taken, hne]⟩

/-- Any number of queues in one memory, used in any order. No call follows a
NULL pointer, and each answers what the queues say. A queue that is only added
to at its end and taken from at its front gives each object out once, in the
order they were put. -/
theorem queues_first_in_first_out {h : Heap (BitVec 64)} {q q' : Queues}
    {tr : List (Tr Queues (QueueOp × Option (BitVec 64)))} (hh : Holds k h q) (hr : Run (Step k) q tr q') :
    (∃ htr h', exec (QueueOp.serve k) ([], h) (tr.map (·.act.1)) = some (htr, tr.map (·.act.2), h') ∧ Holds k h' q') ∧
    ∀ hd objs, q hd = some objs → (∀ t ∈ tr, InLine hd t.act.1) →
      ∃ rest, q' hd = some rest ∧
        objs ++ tr.flatMap (fun t => put hd t.act) = tr.flatMap (fun t => taken hd t.act) ++ rest := by
  induction hr with
  | nil => exact ⟨⟨[], h, rfl, hh⟩, fun hd objs hq _ => ⟨objs, hq, by simp⟩⟩
  | @snoc tr q₁ act q₂ _ hst ih =>
    obtain ⟨⟨htr, h₁, he, hh₁⟩, hline⟩ := ih
    refine ⟨?_, fun hd objs hq hl => ?_⟩
    · obtain ⟨h₂, he₂, hh₂⟩ := exec_step hh₁ hst
      have hserve : QueueOp.serve k (tr.map (·.act.2), h₁) act.1 = some (tr.map (·.act.2) ++ [act.2], h₂) := by
        simp only [QueueOp.serve, he₂, Option.bind_eq_bind, Option.bind_some, Option.pure_def]
      refine ⟨htr ++ [⟨(tr.map (·.act.2), h₁), act.1, (tr.map (·.act.2) ++ [act.2], h₂)⟩], h₂, ?_, hh₂⟩
      rw [List.map_append, List.map_append]
      exact exec_snoc he hserve
    · obtain ⟨hl₁, hl₂⟩ := List.forall_mem_append.1 hl
      obtain ⟨rest₁, hq₁, h₁⟩ := hline hd objs hq hl₁
      obtain ⟨rest₂, hq₂, h₂⟩ := step_in_line hst hq₁ (hl₂ ⟨q₁, act, q₂⟩ List.mem_cons_self)
      refine ⟨rest₂, hq₂, ?_⟩
      rw [List.flatMap_append, List.flatMap_append, List.flatMap_singleton, List.flatMap_singleton,
        ← List.append_assoc, h₁, List.append_assoc, h₂, List.append_assoc]

/-- Two objects of one queue; the first is taken. -/
theorem queues_first_in_first_out_two : ∃ htr h', exec (QueueOp.serve fun _ => 8) ([], fun _ => ⟨0, 0⟩)
    [.init 0x100, .addTail 0x200 0x100, .addTail 0x300 0x100, .take 0x100] =
      some (htr, [none, none, none, some 0x200], h') := by
  let q₁ : Queues := Function.update (fun _ => none) 0x100 (some [])
  let q₂ : Queues := Function.update q₁ 0x100 (some [0x200])
  let q₃ : Queues := Function.update q₂ 0x100 (some [0x200, 0x300])
  have hnone : ¬ Used (fun _ => 8) (fun _ => none) 0x100 := by simp [Used]
  have hfree₁ : ¬ q₁.Used (fun _ => 8) (0x200 + 8) := by
    rintro ⟨hd, objs, hq, hc⟩
    rcases update_eq_some hq with ⟨rfl, rfl⟩ | ⟨-, hno⟩
    · simp at hc
    · cases hno
  have hfree₂ : ¬ q₂.Used (fun _ => 8) (0x300 + 8) := by
    rintro ⟨hd, objs, hq, hc⟩
    rcases update_eq_some hq with ⟨rfl, rfl⟩ | ⟨hne, hq⟩
    · simp at hc
    · rcases update_eq_some hq with ⟨rfl, -⟩ | ⟨-, hno⟩
      · exact hne rfl
      · cases hno
  have h₁ : Step (fun _ => 8) (fun _ => none) (.init 0x100, none) q₁ := .init (by decide) hnone
  have h₂ : Step (fun _ => 8) q₁ (.addTail 0x200 0x100, none) q₂ :=
    @Step.addTail _ q₁ 0x200 0x100 [] (by decide) hfree₁ (Function.update_self ..)
  have h₃ : Step (fun _ => 8) q₂ (.addTail 0x300 0x100, none) q₃ :=
    @Step.addTail _ q₂ 0x300 0x100 [0x200] (by decide) hfree₂ (Function.update_self ..)
  have h₄ := Step.take (k := fun _ => 8) (q := q₃) (Function.update_self ..)
  have hh : Holds (fun _ => 8) (fun _ => ⟨0, 0⟩) (fun _ => none) :=
    ⟨Lists.empty, rfl, fun hd xs hs => by simp [Lists.empty] at hs⟩
  obtain ⟨⟨htr, h', he, -⟩, -⟩ := queues_first_in_first_out hh (.snoc (.snoc (.snoc (.snoc .nil h₁) h₂) h₃) h₄)
  exact ⟨htr, h', he⟩

end Queues

end PortingKit.Linux
