import Mathlib.Data.BitVec
/-!
# linux/kernel.h

`container_of` goes back from a member to the object around it. Pointers are
either plain 64-bit addresses, or an object and an offset into it; arithmetic
stays within the object and wraps at 64 bits.
-/

namespace PortingKit.Linux

/-- `container_of`, with `offsetof(type, member)`. -/
def containerOf {A K : Type} [HSub A K A] (ptr : A) (offset : K) : A := ptr - offset

/-! ## Plain addresses -/

theorem containerOf_member (p k : BitVec 64) : containerOf (p + k) k = p := BitVec.add_sub_cancel p k

theorem member_containerOf (p k : BitVec 64) : containerOf p k + k = p := BitVec.sub_add_cancel p k

theorem containerOf_inj {p q k : BitVec 64} : containerOf p k = containerOf q k ↔ p = q := by
  constructor
  · intro h
    rw [← member_containerOf p k, h, member_containerOf]
  · rintro rfl
    rfl

/-! ## Objects -/

/-- A place in an object. -/
@[ext] structure Addr (O : Type) where
  obj : O
  off : BitVec 64
  deriving DecidableEq

instance {O : Type} : HAdd (Addr O) (BitVec 64) (Addr O) := ⟨fun p k => ⟨p.obj, p.off + k⟩⟩
instance {O : Type} : HSub (Addr O) (BitVec 64) (Addr O) := ⟨fun p k => ⟨p.obj, p.off - k⟩⟩

namespace Addr
variable {O : Type}

@[simp] theorem add_obj (p : Addr O) (k : BitVec 64) : (p + k).obj = p.obj := rfl
@[simp] theorem add_off (p : Addr O) (k : BitVec 64) : (p + k).off = p.off + k := rfl
@[simp] theorem containerOf_obj (p : Addr O) (k : BitVec 64) : (containerOf p k).obj = p.obj := rfl
@[simp] theorem containerOf_off (p : Addr O) (k : BitVec 64) : (containerOf p k).off = p.off - k := rfl

theorem add_zero (p : Addr O) : p + (0 : BitVec 64) = p := by
  ext
  · rfl
  · simp

theorem containerOf_member (p : Addr O) (k : BitVec 64) : containerOf (p + k) k = p := by
  ext
  · rfl
  · simp

end Addr

end PortingKit.Linux
