import PortingKit.Lib.Cells
import PortingKit.Lib.Runs
/-!
# linux/port_mem.h, linux/slab.h, linux/vmalloc.h and linux/uaccess.h

All allocations end in `IOMalloc` and all accesses in `memcpy` and `memset` on
one memory of bytes. A pointer is an address together with the block it was
derived from, which decides where an access through it is defined; what is
undefined is `none`. `size_t` is `Nat`, as nothing is added to a size.
-/
open PortingKit.Lib

namespace PortingKit.Linux.PortMem

abbrev Byte := BitVec 8

structure Memory where
  bytes : BitVec 64 → Byte
  /-- The size of the block that was allocated at an address and not freed since. -/
  live : BitVec 64 → Option Nat

/-- A pointer into a block. -/
structure Place where
  block : BitVec 64
  off : Nat
  deriving DecidableEq

/-- Its value. -/
def Place.addr (p : Place) : BitVec 64 := p.block + BitVec.ofNat 64 p.off

def null : Place := ⟨0, 0⟩

@[simp] theorem addr_block (b : BitVec 64) : (⟨b, 0⟩ : Place).addr = b := by simp [Place.addr]

/-- `n` bytes from `p` are within its block. -/
def Memory.Has (m : Memory) (p : Place) (n : Nat) : Prop := ∃ size ∈ m.live p.block, p.off + n ≤ size

instance (m : Memory) (p : Place) (n : Nat) : Decidable (m.Has p n) :=
  match h : m.live p.block with
  | some size => decidable_of_iff (p.off + n ≤ size) (by simp [Memory.Has, h])
  | none => .isFalse (by simp [Memory.Has, h])

/-- `n` bytes from `dest` and from `src` do not overlap. -/
def Apart (dest src : Place) (n : Nat) : Prop :=
  dest.block ≠ src.block ∨ dest.off + n ≤ src.off ∨ src.off + n ≤ dest.off

instance (dest src : Place) (n : Nat) : Decidable (Apart dest src n) :=
  inferInstanceAs (Decidable (dest.block ≠ src.block ∨ dest.off + n ≤ src.off ∨ src.off + n ≤ dest.off))

/-! ## The library -/

/-- `IOMalloc` answers `p`, or NULL. What is in the block is what was there before. -/
def ioMalloc (size : Nat) (p : BitVec 64) (m : Memory) : Place × Memory :=
  (⟨p, 0⟩, if p = 0 then m else { m with live := Function.update m.live p (some size) })

/-- `IOFree` of what is not the start of a block is undefined. -/
def ioFree (p : Place) (m : Memory) : Option Memory :=
  if p.off = 0 ∧ (m.live p.block).isSome then some { m with live := Function.update m.live p.block none } else none

/-- `c` is converted to `unsigned char`. -/
def memset (p : Place) (c : BitVec 32) (n : Nat) (m : Memory) : Option Memory :=
  if m.Has p n then some { m with bytes := writeAt m.bytes (span p.addr n) (List.replicate n (c.setWidth 8)) }
  else none

def memcpy (dest src : Place) (n : Nat) (m : Memory) : Option Memory :=
  if m.Has dest n ∧ m.Has src n ∧ Apart dest src n then
    some { m with bytes := writeAt m.bytes (span dest.addr n) (readAt m.bytes (span src.addr n)) }
  else none

/-! ## linux/port_mem.h

An allocation takes what `IOMalloc` answers as an argument. -/

def portMemAllocNonPaged (size : Nat) (p : BitVec 64) (m : Memory) : Place × Memory := ioMalloc size p m

def portMemFree (p : Place) (m : Memory) : Option Memory := if p.addr ≠ 0 then ioFree p m else some m

def portMemCopy (dest : Place) (destSize : Nat) (src : Place) (count : Nat) (m : Memory) : Option (Place × Memory) :=
  if destSize < count then some (null, m)
  else do
    let m ← memcpy dest src count m
    return (dest, m)

def portMemSet (dest : Place) (c : BitVec 32) (count : Nat) (m : Memory) : Option (Place × Memory) := do
  let m ← memset dest c count m
  return (dest, m)

/-! ## linux/slab.h -/

def GFP_KERNEL : BitVec 32 := 0
def GFP_ATOMIC : BitVec 32 := 0

def kmalloc (size : Nat) (_flags : BitVec 32) (p : BitVec 64) (m : Memory) : Place × Memory :=
  portMemAllocNonPaged size p m

def kfree (p : Place) (m : Memory) : Option Memory := portMemFree p m

def kzalloc (size : Nat) (flags : BitVec 32) (p : BitVec 64) (m : Memory) : Option (Place × Memory) := do
  let (p, m) := kmalloc size flags p m
  if p.addr ≠ 0 then
    let m ← memset p 0 size m
    return (p, m)
  else
    return (p, m)

/-! ## linux/vmalloc.h -/

def vmalloc (size : Nat) (p : BitVec 64) (m : Memory) : Place × Memory := kmalloc size GFP_KERNEL p m

def vfree (addr : Place) (m : Memory) : Option Memory := kfree addr m

/-! ## linux/uaccess.h

They answer how many bytes could not be copied. -/

def copyToUser (to' from' : Place) (n : Nat) (m : Memory) : Option (Nat × Memory) := do
  let m ← memcpy to' from' n m
  return (0, m)

def copyFromUser (to' from' : Place) (n : Nat) (m : Memory) : Option (Nat × Memory) := do
  let m ← memcpy to' from' n m
  return (0, m)

/-! ## Requests -/

inductive Request where
  | portMemAllocNonPaged (size : Nat) (ioMalloc : BitVec 64)
  | kmalloc (size : Nat) (flags : BitVec 32) (ioMalloc : BitVec 64)
  | kzalloc (size : Nat) (flags : BitVec 32) (ioMalloc : BitVec 64)
  | vmalloc (size : Nat) (ioMalloc : BitVec 64)
  | portMemFree (p : Place)
  | kfree (p : Place)
  | vfree (p : Place)
  | portMemCopy (dest : Place) (destSize : Nat) (src : Place) (count : Nat)
  | portMemSet (dest : Place) (c : BitVec 32) (count : Nat)
  | copyToUser (to' from' : Place) (n : Nat)
  | copyFromUser (to' from' : Place) (n : Nat)

inductive Answer where
  | void
  | pointer (p : Place)
  | left (n : Nat)
  deriving DecidableEq

def Request.exec (m : Memory) : Request → Option (Answer × Memory)
  | .portMemAllocNonPaged size p =>
    let (p, m) := PortMem.portMemAllocNonPaged size p m
    some (.pointer p, m)
  | .kmalloc size flags p =>
    let (p, m) := PortMem.kmalloc size flags p m
    some (.pointer p, m)
  | .kzalloc size flags p => (PortMem.kzalloc size flags p m).map fun r => (.pointer r.1, r.2)
  | .vmalloc size p =>
    let (p, m) := PortMem.vmalloc size p m
    some (.pointer p, m)
  | .portMemFree p => (PortMem.portMemFree p m).map (.void, ·)
  | .kfree p => (PortMem.kfree p m).map (.void, ·)
  | .vfree p => (PortMem.vfree p m).map (.void, ·)
  | .portMemCopy dest destSize src count =>
    (PortMem.portMemCopy dest destSize src count m).map fun r => (.pointer r.1, r.2)
  | .portMemSet dest c count => (PortMem.portMemSet dest c count m).map fun r => (.pointer r.1, r.2)
  | .copyToUser to' from' n => (PortMem.copyToUser to' from' n m).map fun r => (.left r.1, r.2)
  | .copyFromUser to' from' n => (PortMem.copyFromUser to' from' n m).map fun r => (.left r.1, r.2)

/-- The size asked for and the address `IOMalloc` answers. -/
def Request.alloc : Request → Option (Nat × BitVec 64)
  | .portMemAllocNonPaged size p | .kmalloc size _ p | .kzalloc size _ p | .vmalloc size p => some (size, p)
  | _ => none

/-- `IOMalloc` answers a range of addresses that is not in use. -/
structure Fresh (m : Memory) (size : Nat) (p : BitVec 64) : Prop where
  top : p.toNat + size ≤ 2 ^ 64
  unused : m.live p = none
  apart : ∀ b n, m.live b = some n → (span p size).Disjoint (span b n)

/-- A defined request, with its answer. -/
structure Step (m : Memory) (a : Request × Answer) (m' : Memory) : Prop where
  exec : a.1.exec m = some (a.2, m')
  fresh : ∀ size p, a.1.alloc = some (size, p) → p ≠ 0 → Fresh m size p

/-- Nothing allocated yet, and anything in the bytes. -/
def Memory.init (bytes : BitVec 64 → Byte) : Memory := ⟨bytes, fun _ => none⟩

/-! ## Blocks -/

/-- Blocks lie apart and away from NULL, and none goes round the address space. -/
structure Inv (m : Memory) : Prop where
  nonnull : m.live 0 = none
  top : ∀ b n, m.live b = some n → b.toNat + n ≤ 2 ^ 64
  apart : ∀ b n b' n', m.live b = some n → m.live b' = some n' → b ≠ b' → (span b n).Disjoint (span b' n')

theorem inv_init (bytes : BitVec 64 → Byte) : Inv (Memory.init bytes) where
  nonnull := rfl
  top _ _ h := by cases h
  apart _ _ _ _ h := by cases h

/-- A new block beside the others. -/
theorem Inv.alloc {m : Memory} {size : Nat} {p : BitVec 64} (hi : Inv m) (hp : p ≠ 0) (hf : Fresh m size p) :
    Inv { m with live := Function.update m.live p (some size) } where
  nonnull := by
    simp only [Function.update_of_ne hp.symm]
    exact hi.nonnull
  top b n h := by
    by_cases hb : b = p
    · subst hb
      obtain rfl : size = n := by simpa using h
      exact hf.top
    · simp only [Function.update_of_ne hb] at h
      exact hi.top b n h
  apart b n b' n' h h' hne := by
    by_cases hb : b = p
    · subst hb
      obtain rfl : size = n := by simpa using h
      simp only [Function.update_of_ne hne.symm] at h'
      exact hf.apart b' n' h'
    · simp only [Function.update_of_ne hb] at h
      by_cases hb' : b' = p
      · subst hb'
        obtain rfl : size = n' := by simpa using h'
        exact (hf.apart b n h).symm
      · simp only [Function.update_of_ne hb'] at h'
        exact hi.apart b n b' n' h h' hne

theorem Inv.free {m : Memory} {b : BitVec 64} (hi : Inv m) :
    Inv { m with live := Function.update m.live b none } := by
  have hlive : ∀ c n, Function.update m.live b none c = some n → m.live c = some n := by
    intro c n h
    by_cases hc : c = b
    · simp [hc] at h
    · simpa only [Function.update_of_ne hc] using h
  refine ⟨?_, fun c n h => hi.top c n (hlive c n h), fun c n c' n' h h' => ?_⟩
  · show Function.update m.live b none 0 = none
    by_cases hb : 0 = b
    · rw [← hb, Function.update_self]
    · rw [Function.update_of_ne hb, hi.nonnull]
  · exact hi.apart c n c' n' (hlive c n h) (hlive c' n' h')

/-- What is in the bytes does not matter to the blocks. -/
theorem Inv.write {m : Memory} (hi : Inv m) (bytes : BitVec 64 → Byte) : Inv { m with bytes } :=
  ⟨hi.nonnull, hi.top, hi.apart⟩

end PortingKit.Linux.PortMem
