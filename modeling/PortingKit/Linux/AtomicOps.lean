import Mathlib.Algebra.Order.BigOperators.Group.List
import Mathlib.Data.Int.Basic
import PortingKit.Linux.Kref
/-!
# linux/atomic.h as a whole

Every operation is one atomic step, so threads that share an `atomic_t` take
turns. The counter of the Linux API is an integer; the header's wraps at 32 bits.
It is told apart from the integer only by reading a value that is out of range or
testing one that is a multiple of `2 ^ 32` and not zero.
-/
open PortingKit.Lib

namespace PortingKit.Linux

def atomicRead (v : Atomic) : Int := v.counter.toInt
def atomicDec (v : Atomic) : Atomic := ⟨v.counter - 1⟩
def atomicAdd (i : BitVec 32) (v : Atomic) : Atomic := ⟨v.counter + i⟩
def atomicSub (i : BitVec 32) (v : Atomic) : Atomic := ⟨v.counter - i⟩

/-- The result and the new value of `atomic_inc_and_test`. -/
def atomicIncAndTest (v : Atomic) : Int × Atomic :=
  let counter := v.counter + 1
  (if counter = 0 then 1 else 0, ⟨counter⟩)

def atomicSubAndTest (i : BitVec 32) (v : Atomic) : Int × Atomic :=
  let counter := v.counter - i
  (if counter = 0 then 1 else 0, ⟨counter⟩)

namespace Atomic

inductive Op where
  | set (i : BitVec 32)
  | read
  | inc
  | dec
  | add (i : BitVec 32)
  | sub (i : BitVec 32)
  | incAndTest
  | decAndTest
  | subAndTest (i : BitVec 32)

/-- What a call returns, if anything, and the new value. -/
def Op.exec (v : Atomic) : Op → Option Int × Atomic
  | .set i => (none, atomicSet v i)
  | .read => (some (atomicRead v), v)
  | .inc => (none, atomicInc v)
  | .dec => (none, atomicDec v)
  | .add i => (none, atomicAdd i v)
  | .sub i => (none, atomicSub i v)
  | .incAndTest => ((atomicIncAndTest v).1, (atomicIncAndTest v).2)
  | .decAndTest => ((atomicDecAndTest v).1, (atomicDecAndTest v).2)
  | .subAndTest i => ((atomicSubAndTest i v).1, (atomicSubAndTest i v).2)

/-! ## The integer it stands for -/

/-- The value after an operation on a counter that does not wrap. -/
def Op.total (n : Int) : Op → Int
  | .set i => i.toInt
  | .read => n
  | .inc | .incAndTest => n + 1
  | .dec | .decAndTest => n - 1
  | .add i => n + i.toInt
  | .sub i | .subAndTest i => n - i.toInt

/-- What an operation returns that leaves such a counter at `n`. -/
def Op.answer (n : Int) : Op → Option Int
  | .read => some n
  | .incAndTest | .decAndTest | .subAndTest _ => some (if n = 0 then 1 else 0)
  | .set _ | .inc | .dec | .add _ | .sub _ => none

/-- A read finds an `int`, and a test no other multiple of `2 ^ 32` than zero. -/
def Op.Fits (n : Int) : Op → Prop
  | .read => -2 ^ 31 ≤ n ∧ n < 2 ^ 31
  | .incAndTest | .decAndTest | .subAndTest _ => 2 ^ 32 ∣ n → n = 0
  | .set _ | .inc | .dec | .add _ | .sub _ => True

/-- The shared counter, beside the integer it stands for. -/
structure Shared where
  v : Atomic
  total : Int

structure Call (T : Type) where
  caller : T
  op : Op
  answer : Option Int

/-- A thread's call, which returns what the operation answers. -/
def Step {T : Type} (s : Shared) (c : Call T) (s' : Shared) : Prop :=
  c.answer = (c.op.exec s.v).1 ∧ s' = ⟨(c.op.exec s.v).2, c.op.total s.total⟩

/-- The call returned what the integer counter would. -/
def Call.Exact {T : Type} (x : Tr Shared (Call T)) : Prop := x.act.answer = x.act.op.answer x.post.total

/-- The counter is the integer modulo `2 ^ 32`. -/
def Wraps (s : Shared) : Prop := s.v.counter = BitVec.ofInt 32 s.total

variable {T : Type}

theorem ofInt_add (n : Int) (i : BitVec 32) : BitVec.ofInt 32 n + i = BitVec.ofInt 32 (n + i.toInt) := by
  rw [BitVec.ofInt_add, BitVec.ofInt_toInt]

theorem ofInt_sub (n : Int) (i : BitVec 32) : BitVec.ofInt 32 n - i = BitVec.ofInt 32 (n - i.toInt) := by
  rw [Int.sub_eq_add_neg, BitVec.ofInt_add, BitVec.ofInt_neg, BitVec.ofInt_toInt, BitVec.sub_eq_add_neg]

theorem wraps_step {s s' : Shared} {c : Call T} (hw : Wraps s) (h : Step s c s') : Wraps s' := by
  obtain ⟨-, rfl⟩ := h
  unfold Wraps at hw ⊢
  cases hop : c.op with
  | set i => exact (BitVec.ofInt_toInt).symm
  | read => exact hw
  | inc | incAndTest =>
    simp only [Op.exec, Op.total, atomicInc, atomicIncAndTest, hw]
    exact ofInt_add s.total 1
  | dec | decAndTest =>
    simp only [Op.exec, Op.total, atomicDec, atomicDecAndTest, hw]
    exact ofInt_sub s.total 1
  | add i =>
    simp only [Op.exec, Op.total, atomicAdd, hw]
    exact ofInt_add s.total i
  | sub i | subAndTest i =>
    simp only [Op.exec, Op.total, atomicSub, atomicSubAndTest, hw]
    exact ofInt_sub s.total i

theorem ofInt_eq_zero (n : Int) : BitVec.ofInt 32 n = 0 ↔ (2 : Int) ^ 32 ∣ n := by
  rw [← BitVec.toInt_inj, BitVec.toInt_ofInt]
  exact Int.dvd_iff_bmod_eq_zero.symm

theorem toInt_ofInt_eq (n : Int) : (BitVec.ofInt 32 n).toInt = n ↔ -2 ^ 31 ≤ n ∧ n < 2 ^ 31 := by
  rw [BitVec.toInt_ofInt, Int.bmod_def]
  omega

/-- What a test answers. -/
theorem test_exact {n : Int} : ((if BitVec.ofInt 32 n = 0 then 1 else 0 : Int) = if n = 0 then 1 else 0) ↔
    (2 ^ 32 ∣ n → n = 0) := by
  simp only [ofInt_eq_zero]
  by_cases h0 : n = 0
  · subst h0; simp
  · simp [h0]

theorem exact_iff_fits {s s' : Shared} {c : Call T} (hw : Wraps s) (h : Step s c s') :
    Call.Exact ⟨s, c, s'⟩ ↔ c.op.Fits (c.op.total s.total) := by
  have hw' := wraps_step hw h
  obtain ⟨hans, rfl⟩ := h
  unfold Call.Exact
  simp only [hans]
  unfold Wraps at hw hw'
  cases hop : c.op <;> simp only [hop, Op.exec] at hw' <;> simp only [Op.exec, Op.answer, Op.Fits]
  case read =>
    simp only [atomicRead, hw, Op.total, Option.some.injEq]
    exact toInt_ofInt_eq s.total
  case incAndTest | decAndTest | subAndTest =>
    simp only [atomicIncAndTest, atomicDecAndTest, atomicSubAndTest] at hw' ⊢
    rw [Option.some.injEq, hw']
    exact test_exact

/-- Whatever the threads do to a shared `atomic_t` in whatever order, all their
calls return what an unbounded integer counter would, if and only if no read
finds a value out of range and no test a multiple of `2 ^ 32` that is not zero. -/
theorem atomic_exact_iff {v : Atomic} {tr : List (Tr Shared (Call T))} {s : Shared}
    (h : Run Step ⟨v, v.counter.toInt⟩ tr s) :
    (∀ x ∈ tr, Call.Exact x) ↔ ∀ x ∈ tr, x.act.op.Fits (x.act.op.total x.pre.total) :=
  h.forall_iff Wraps (fun s c => c.op.Fits (c.op.total s.total)) Call.Exact
    (show Wraps ⟨v, v.counter.toInt⟩ from BitVec.ofInt_toInt.symm)
    (fun _ _ _ hw _ hst => wraps_step hw hst) fun _ _ _ hw hst => exact_iff_fits hw hst

/-- Two threads take the counter past `2 ^ 31`, and a test is still exact. -/
theorem atomic_exact_iff_wrapped : ∃ (tr : List (Tr Shared (Call Bool))) (s : Shared),
    Run Step ⟨⟨1⟩, 1⟩ tr s ∧ tr.map (·.act.answer) = [none, none, some 0] ∧ s.total = 2 ^ 32 - 2 ∧
      ∀ x ∈ tr, Call.Exact x := by
  have hr : Run Step ⟨⟨1⟩, (1 : BitVec 32).toInt⟩
      [⟨⟨⟨1⟩, 1⟩, ⟨false, .add 0x7fffffff, none⟩, ⟨⟨0x80000000⟩, 2 ^ 31⟩⟩,
        ⟨⟨⟨0x80000000⟩, 2 ^ 31⟩, ⟨true, .add 0x7fffffff, none⟩, ⟨⟨0xffffffff⟩, 2 ^ 32 - 1⟩⟩,
        ⟨⟨⟨0xffffffff⟩, 2 ^ 32 - 1⟩, ⟨false, .decAndTest, some 0⟩, ⟨⟨0xfffffffe⟩, 2 ^ 32 - 2⟩⟩]
      ⟨⟨0xfffffffe⟩, 2 ^ 32 - 2⟩ :=
    .cons ⟨rfl, rfl⟩ (.cons ⟨rfl, rfl⟩ (.cons ⟨rfl, rfl⟩ .nil))
  refine ⟨_, _, hr, rfl, rfl, (atomic_exact_iff hr).2 ?_⟩
  simp [Op.Fits, Op.total]

/-! ## A latch -/

/-- What threads are told that each take their weight from the counter when they
arrive. -/
def arrivals (v : Atomic) : List (BitVec 32) → List Int
  | [] => []
  | i :: is => (atomicSubAndTest i v).1 :: arrivals (atomicSubAndTest i v).2 is

/-- The weight of those still to come. -/
def weight (is : List (BitVec 32)) : Nat := (is.map (·.toNat)).sum

theorem weight_cons (i : BitVec 32) (is : List (BitVec 32)) : weight (i :: is) = i.toNat + weight is := rfl

theorem weight_pos {is : List (BitVec 32)} (hne : is ≠ []) (hpos : ∀ i ∈ is, i ≠ 0) : 0 < weight is := by
  cases is with
  | nil => exact absurd rfl hne
  | cons i is =>
    have hi : i.toNat ≠ 0 := fun h => hpos i List.mem_cons_self (BitVec.eq_of_toNat_eq h)
    rw [weight_cons]
    omega

theorem sub_weight {v : Atomic} {i : BitVec 32} {is : List (BitVec 32)}
    (hv : v.counter = BitVec.ofNat 32 (weight (i :: is))) : v.counter - i = BitVec.ofNat 32 (weight is) := by
  rw [hv, weight_cons, BitVec.ofNat_add, BitVec.ofNat_toNat, BitVec.setWidth_eq, BitVec.add_comm,
    BitVec.add_sub_cancel]

/-- A counter set to the weights of all the threads, at most `2 ^ 32` together,
tells exactly the last one to arrive, in whatever order they do. -/
theorem latch_opens_last {is : List (BitVec 32)} (hne : is ≠ []) (hpos : ∀ i ∈ is, i ≠ 0)
    (hle : weight is ≤ 2 ^ 32) {v : Atomic} (hv : v.counter = BitVec.ofNat 32 (weight is)) :
    arrivals v is = List.replicate (is.length - 1) 0 ++ [1] := by
  induction is generalizing v with
  | nil => exact absurd rfl hne
  | cons i is ih =>
    have hsub := sub_weight hv
    have hi : i.toNat ≠ 0 := fun h => hpos i List.mem_cons_self (BitVec.eq_of_toNat_eq h)
    rw [weight_cons] at hle
    unfold arrivals
    simp only [atomicSubAndTest, hsub]
    by_cases hlast : is = []
    · subst hlast
      rfl
    · -- What is left is neither nothing nor all that 32 bits hold.
      have hpos' : ∀ i ∈ is, i ≠ 0 := fun j hj => hpos j (List.mem_cons_of_mem _ hj)
      have hleft := weight_pos hlast hpos'
      have hne0 : BitVec.ofNat 32 (weight is) ≠ 0 := by
        intro h
        rw [← BitVec.toNat_inj, BitVec.toNat_ofNat, Nat.mod_eq_of_lt (by omega)] at h
        simp only [BitVec.toNat_zero, BitVec.ofNat_eq_ofNat] at h
        omega
      rw [if_neg hne0, ih hlast hpos' (by omega) (v := ⟨BitVec.ofNat 32 (weight is)⟩) rfl]
      obtain ⟨n, hn⟩ := Nat.exists_eq_succ_of_ne_zero (mt List.length_eq_zero_iff.1 hlast)
      rw [List.length_cons, hn]
      rfl

theorem latch_opens_last_three : arrivals ⟨BitVec.ofNat 32 (weight [2, 0x80000000, 0x7ffffffe])⟩
    [2, 0x80000000, 0x7ffffffe] = [0, 0, 1] :=
  latch_opens_last (by simp) (by simp) (by decide) rfl

end Atomic

end PortingKit.Linux
