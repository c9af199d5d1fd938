import PortingKit.Lib.Ring
import PortingKit.Lib.Runs
/-!
# linux/list.h

The intrusive list, over a memory of `list_head` cells. An operation answers
`none` where the C code would follow a NULL pointer.
-/
open PortingKit.Lib

namespace PortingKit.Linux

/-- `struct list_head`. -/
@[ext] structure ListHead (α : Type) where
  next : α
  prev : α
  deriving DecidableEq

/-- A memory of list heads. Addresses are any type with a zero, the NULL pointer. -/
abbrev Heap (α : Type) := α → ListHead α

variable {α : Type} [DecidableEq α] [Zero α]

namespace Heap

def setNext (h : Heap α) (p v : α) : Heap α := Function.update h p { h p with next := v }
def setPrev (h : Heap α) (p v : α) : Heap α := Function.update h p { h p with prev := v }

/-- Reading `*p`. -/
def load (h : Heap α) (p : α) : Option (ListHead α) := if p = 0 then none else some (h p)
/-- `p->next = v`. -/
def storeNext (h : Heap α) (p v : α) : Option (Heap α) := if p = 0 then none else some (h.setNext p v)
/-- `p->prev = v`. -/
def storePrev (h : Heap α) (p v : α) : Option (Heap α) := if p = 0 then none else some (h.setPrev p v)

omit [Zero α] in
@[simp] theorem setNext_next (h : Heap α) (p v c : α) :
    (h.setNext p v c).next = if c = p then v else (h c).next := by
  unfold setNext; by_cases hc : c = p <;> simp [hc]
omit [Zero α] in
@[simp] theorem setNext_prev (h : Heap α) (p v c : α) : (h.setNext p v c).prev = (h c).prev := by
  unfold setNext; by_cases hc : c = p <;> simp [hc]
omit [Zero α] in
@[simp] theorem setPrev_prev (h : Heap α) (p v c : α) :
    (h.setPrev p v c).prev = if c = p then v else (h c).prev := by
  unfold setPrev; by_cases hc : c = p <;> simp [hc]
omit [Zero α] in
@[simp] theorem setPrev_next (h : Heap α) (p v c : α) : (h.setPrev p v c).next = (h c).next := by
  unfold setPrev; by_cases hc : c = p <;> simp [hc]

theorem load_of_ne {h : Heap α} {p : α} (hp : p ≠ 0) : h.load p = some (h p) := if_neg hp
theorem storeNext_of_ne {h : Heap α} {p v : α} (hp : p ≠ 0) : h.storeNext p v = some (h.setNext p v) := if_neg hp
theorem storePrev_of_ne {h : Heap α} {p v : α} (hp : p ≠ 0) : h.storePrev p v = some (h.setPrev p v) := if_neg hp

end Heap

/-! ## The operations -/

/-- `INIT_LIST_HEAD`. -/
def initListHead (list : α) (h : Heap α) : Option (Heap α) := do
  let h ← h.storeNext list list
  h.storePrev list list

def __listAdd (new_node prev next : α) (h : Heap α) : Option (Heap α) := do
  let h ← h.storePrev next new_node
  let h ← h.storeNext new_node next
  let h ← h.storePrev new_node prev
  h.storeNext prev new_node

def listAdd (new_node head : α) (h : Heap α) : Option (Heap α) := do
  let c ← h.load head
  __listAdd new_node head c.next h

def listAddTail (new_node head : α) (h : Heap α) : Option (Heap α) := do
  let c ← h.load head
  __listAdd new_node c.prev head h

def __listDel (prev next : α) (h : Heap α) : Option (Heap α) := do
  let h ← h.storePrev next prev
  h.storeNext prev next

def listDel (entry : α) (h : Heap α) : Option (Heap α) := do
  let c ← h.load entry
  let h ← __listDel c.prev c.next h
  let h ← h.storeNext entry 0
  h.storePrev entry 0

def listEmpty (head : α) (h : Heap α) : Option Int := do
  let c ← h.load head
  return if c.next = head then 1 else 0

/-! ## What each operation does to the links

Two of the pointer writes may hit one cell (in an empty list `prev`, `next` and
`head` are the same), so the links afterwards are given cell by cell. -/

theorem initListHead_links {c : α} (h : Heap α) (hc : c ≠ 0) :
    ∃ h', initListHead c h = some h' ∧ (∀ x, (h' x).next = if x = c then c else (h x).next) ∧
      ∀ x, (h' x).prev = if x = c then c else (h x).prev := by
  refine ⟨(h.setNext c c).setPrev c c, ?_, fun x => by simp, fun x => by simp⟩
  simp [initListHead, Heap.storeNext_of_ne hc, Heap.storePrev_of_ne hc]

theorem listAdd_links {n a b : α} (h : Heap α) (hn : n ≠ 0) (ha : a ≠ 0) (hb : b ≠ 0) :
    ∃ h', __listAdd n a b h = some h' ∧
      (∀ x, (h' x).next = if x = a then n else if x = n then b else (h x).next) ∧
      ∀ x, (h' x).prev = if x = n then a else if x = b then n else (h x).prev := by
  refine ⟨(((h.setPrev b n).setNext n b).setPrev n a).setNext a n, ?_, fun x => by simp, fun x => by simp⟩
  simp [__listAdd, Heap.storeNext_of_ne, Heap.storePrev_of_ne, hn, ha, hb]

theorem listDel_links {n : α} (h : Heap α) (hn : n ≠ 0) (ha : (h n).prev ≠ 0) (hb : (h n).next ≠ 0) :
    ∃ h', listDel n h = some h' ∧
      (∀ x, (h' x).next = if x = n then 0 else if x = (h n).prev then (h n).next else (h x).next) ∧
      ∀ x, (h' x).prev = if x = n then 0 else if x = (h n).next then (h n).prev else (h x).prev := by
  refine ⟨(((h.setPrev (h n).next (h n).prev).setNext (h n).prev (h n).next).setNext n 0).setPrev n 0, ?_,
    fun x => by simp, fun x => by simp⟩
  simp [listDel, __listDel, Heap.load_of_ne, Heap.storeNext_of_ne, Heap.storePrev_of_ne, hn, ha, hb]

end PortingKit.Linux
