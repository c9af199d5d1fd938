import PortingKit.Linux.Blocks
/-!
# linux/err.h

A 64-bit word is a pointer or, among the last 4095 words, an error code. An
`Outcome` is what such a word stands for: `code` puts an outcome into a word and
`outcome` takes it out again. The allocators pass on what `IOMalloc` answers, so
whether the checks work on it depends on where its blocks end.
-/
open PortingKit.Lib

namespace PortingKit.Linux.Err

def MAX_ERRNO : BitVec 64 := 4095

/-- `(unsigned long)(x) >= (unsigned long)-MAX_ERRNO` -/
def isErrValue (x : BitVec 64) : Bool := -MAX_ERRNO ≤ x

def errPtr (error : BitVec 64) : BitVec 64 := error
def ptrErr (ptr : BitVec 64) : BitVec 64 := ptr
def isErr (ptr : BitVec 64) : Bool := isErrValue ptr
def isErrOrNull (ptr : BitVec 64) : Bool := ptr = 0 || isErrValue ptr

/-! ## Outcomes -/

/-- An error code, a positive number. -/
abbrev Errno := { e : Nat // 1 ≤ e ∧ e ≤ 4095 }

abbrev Pointer := { p : BitVec 64 // isErr p = false }

/-- What a function that returns `ERR_PTR(-e)` or a pointer has to say. -/
abbrev Outcome := Except Errno Pointer

theorem isErr_iff {x : BitVec 64} : isErr x = true ↔ 2 ^ 64 - 4095 ≤ x.toNat := by
  have hmax : (-MAX_ERRNO).toNat = 2 ^ 64 - 4095 := by decide
  rw [isErr, isErrValue, decide_eq_true_iff, BitVec.le_def, hmax]

theorem not_isErr_iff {x : BitVec 64} : isErr x = false ↔ x.toNat < 2 ^ 64 - 4095 := by
  rw [← Bool.not_eq_true, isErr_iff, Nat.not_le]

theorem toNat_neg (e : Errno) : (-BitVec.ofNat 64 e).toNat = 2 ^ 64 - e := by
  obtain ⟨e, h₁, h₂⟩ := e
  rw [BitVec.toNat_neg, BitVec.toNat_ofNat, Nat.mod_eq_of_lt (by omega : e < 2 ^ 64), Nat.mod_eq_of_lt (by omega)]

theorem isErr_neg (e : Errno) : isErr (errPtr (-BitVec.ofNat 64 e)) = true := by
  rw [isErr_iff, errPtr, toNat_neg]
  have := e.2.2
  omega

/-- `ERR_PTR(-e)`, or the pointer. -/
def code : Outcome → BitVec 64
  | .error e => errPtr (-BitVec.ofNat 64 e)
  | .ok p => p

/-- `-PTR_ERR(x)` if `IS_ERR(x)`, and otherwise `x`. -/
def outcome (x : BitVec 64) : Outcome :=
  if h : isErr x then
    .error ⟨(-ptrErr x).toNat, by
      have hx := isErr_iff.1 h
      have hlt := x.isLt
      rw [ptrErr, BitVec.toNat_neg]
      omega⟩
  else .ok ⟨x, by simpa using h⟩

theorem outcome_code (r : Outcome) : outcome (code r) = r := by
  cases r with
  | error e =>
    have hcode : code (.error e) = -BitVec.ofNat 64 e := rfl
    have herr : isErr (code (.error e)) = true := isErr_neg e
    rw [outcome, dif_pos herr]
    congr 1
    apply Subtype.ext
    show (-ptrErr (code (.error e))).toNat = e
    rw [hcode, ptrErr, BitVec.neg_neg, BitVec.toNat_ofNat, Nat.mod_eq_of_lt]
    have := e.2.2
    omega
  | ok p =>
    have herr : ¬ isErr (code (.ok p)) = true := by
      rw [code, p.2]
      simp
    rw [outcome, dif_neg herr]
    rfl

theorem code_outcome (x : BitVec 64) : code (outcome x) = x := by
  unfold outcome
  split
  · show -BitVec.ofNat 64 (-x).toNat = x
    rw [BitVec.ofNat_toNat, BitVec.setWidth_eq, BitVec.neg_neg]
  · rfl

/-! ## What the checks say -/

theorem isErr_code (r : Outcome) : isErr (code r) = true ↔ ∃ e, r = .error e := by
  cases r with
  | error e => exact iff_of_true (isErr_neg e) ⟨e, rfl⟩
  | ok p =>
    refine iff_of_false ?_ ?_
    · rw [code, p.2]
      simp
    · simp

theorem isErrOrNull_iff {x : BitVec 64} : isErrOrNull x = true ↔ x = 0 ∨ isErr x = true := by
  simp [isErrOrNull, isErr]

/-- An error code returned as an `int` goes through a pointer and back, and is seen as an error
exactly if it is one of `-4095` to `-1`. -/
theorem errPtr_int (ret : BitVec 32) :
    (ptrErr (errPtr (ret.signExtend 64))).setWidth 32 = ret ∧
      (isErr (errPtr (ret.signExtend 64)) = true ↔ -4095 ≤ ret.toInt ∧ ret.toInt ≤ -1) := by
  constructor
  · rw [ptrErr, errPtr]
    ext i hi
    rw [BitVec.getElem_setWidth, BitVec.getLsbD_signExtend, if_pos hi, BitVec.getLsbD_eq_getElem hi]
    simp only [decide_eq_true (show i < 64 by omega), Bool.true_and]
  · have hint : (ret.signExtend 64).toInt = ret.toInt := BitVec.toInt_signExtend_of_le (by decide)
    have hnat := BitVec.toInt_eq_toNat_cond (ret.signExtend 64)
    have hlt := (ret.signExtend 64).isLt
    have hlow := BitVec.le_toInt ret
    rw [isErr_iff, errPtr, ← hint]
    rw [hint] at hnat
    rw [hint]
    split at hnat <;> omega

/-- The words and the outcomes are each other's codes, `IS_ERR` tells the errors, and an `int` error
code survives the way through a pointer. -/
theorem err_ptr_round_trip :
    (∀ r, outcome (code r) = r) ∧ (∀ x, code (outcome x) = x) ∧ (∀ r, isErr (code r) = true ↔ ∃ e, r = .error e) ∧
      ∀ ret : BitVec 32, (ptrErr (errPtr (ret.signExtend 64))).setWidth 32 = ret ∧
        (isErr (errPtr (ret.signExtend 64)) = true ↔ -4095 ≤ ret.toInt ∧ ret.toInt ≤ -1) :=
  ⟨outcome_code, code_outcome, isErr_code, errPtr_int⟩

/-! ## Allocations -/

/-- `IS_ERR` is false of every address in a block and of the one past its end, exactly if the block
ends below the error words. -/
theorem block_clear_iff {b : BitVec 64} {n : Nat} (hb : b.toNat + n ≤ 2 ^ 64) :
    (∀ off, off ≤ n → isErr (⟨b, off⟩ : PortMem.Place).addr = false) ↔ b.toNat + n ≤ 2 ^ 64 - 4096 := by
  have haddr : ∀ off, b.toNat + off < 2 ^ 64 → (⟨b, off⟩ : PortMem.Place).addr.toNat = b.toNat + off :=
    fun _ hoff => toNat_add_ofNat hoff
  constructor
  · intro h
    by_contra htop
    have hlt := b.isLt
    -- A block at the very top has its last address among them, any other one the address past its end.
    rcases Nat.lt_or_ge (b.toNat + n) (2 ^ 64) with hn | hn
    · have hend := not_isErr_iff.1 (h n le_rfl)
      rw [haddr n hn] at hend
      omega
    · have hlast := not_isErr_iff.1 (h (n - 1) (Nat.sub_le n 1))
      rw [haddr (n - 1) (by omega)] at hlast
      omega
  · intro htop off hoff
    rw [not_isErr_iff, haddr off (by omega)]
    omega

/-- What an allocation answers is NULL or where a block begins. -/
theorem alloc_answer {m m' : PortMem.Memory} {r : PortMem.Request} {ans : PortMem.Answer} (hi : PortMem.Inv m)
    (h : PortMem.Step m (r, ans) m') {size : Nat} {p : BitVec 64} (hr : r.alloc = some (size, p)) :
    ans = .pointer ⟨p, 0⟩ ∧ (p = 0 ∨ m'.live p = some size) := by
  obtain ⟨-, hdoes⟩ := PortMem.step_does hi h
  have hall : ∀ {Content : List PortMem.Byte → Prop}, m.store.Allocates size p Content ans m'.store →
      ans = .pointer ⟨p, 0⟩ ∧ (p = 0 ∨ m'.live p = some size) := by
    rintro Content ⟨hans, ⟨hp, -⟩ | ⟨-, -, bs, hbs, -, hstore⟩⟩
    · exact ⟨hans, .inl hp⟩
    · refine ⟨hans, .inr ?_⟩
      have hp : m'.store p = some bs := by rw [hstore, Function.update_self]
      obtain ⟨n, hn, hread⟩ := Option.map_eq_some_iff.1 hp
      have hlen := congrArg List.length hread
      rw [length_readAt, length_span, hbs] at hlen
      rw [hn, hlen]
  cases r with
  | portMemAllocNonPaged _ _ | kmalloc _ _ _ | kzalloc _ _ _ | vmalloc _ _ =>
    cases hr
    exact hall hdoes
  | _ => cases hr

/-- The checks take neither what an allocator answers nor a pointer into a block for an error, and
`IS_ERR_OR_NULL` tells whether an allocation failed. -/
structure Clear (x : Tr PortMem.Memory (PortMem.Request × PortMem.Answer)) : Prop where
  answer : ∀ size p, x.act.1.alloc = some (size, p) →
    x.act.2 = .pointer ⟨p, 0⟩ ∧ isErr p = false ∧ (isErrOrNull p = true ↔ p = 0)
  inside : ∀ b n off, x.post.live b = some n → off ≤ n → isErr (⟨b, off⟩ : PortMem.Place).addr = false

/-- What `IOMalloc` answers to the request ends below the error words. -/
def Low (r : PortMem.Request) : Prop :=
  ∀ size p, r.alloc = some (size, p) → p ≠ 0 → p.toNat + size ≤ 2 ^ 64 - 4096

/-- Every block ends below the error words. -/
def AllLow (m : PortMem.Memory) : Prop := ∀ b n, m.live b = some n → b.toNat + n ≤ 2 ^ 64 - 4096

theorem allLow_step {m m' : PortMem.Memory} {r : PortMem.Request} {ans : PortMem.Answer} (hi : PortMem.Inv m)
    (hlow : AllLow m) (hr : Low r) (h : PortMem.Step m (r, ans) m') : AllLow m' := by
  intro b n hb
  have hlen : (readAt m'.bytes (span b n)).length = n := by rw [length_readAt, length_span]
  rcases (PortMem.step_does hi h).2.length (PortMem.store_live hb) with ⟨bs, hbs, hsame⟩ | ⟨halloc, hne⟩
  · obtain ⟨k, hk, rfl⟩ := Option.map_eq_some_iff.1 hbs
    rw [hlen, length_readAt, length_span] at hsame
    exact hsame ▸ hlow b k hk
  · rw [hlen] at halloc
    exact hr n b halloc hne

theorem clear_of_low {m m' : PortMem.Memory} {a : PortMem.Request × PortMem.Answer} (hi : PortMem.Inv m)
    (hi' : PortMem.Inv m') (hlow : AllLow m') (h : PortMem.Step m a m') : Clear ⟨m, a, m'⟩ := by
  have hinside : ∀ b n off, m'.live b = some n → off ≤ n → isErr (⟨b, off⟩ : PortMem.Place).addr = false :=
    fun b n off hb hoff => (block_clear_iff (hi'.top b n hb)).2 (hlow b n hb) off hoff
  refine ⟨fun size p hr => ?_, hinside⟩
  obtain ⟨hans, hp⟩ := alloc_answer hi h hr
  have herr : isErr p = false := by
    rcases hp with rfl | hlive
    · rfl
    · have hstart := hinside p size 0 hlive (Nat.zero_le size)
      rwa [PortMem.addr_block] at hstart
  exact ⟨hans, herr, by rw [isErrOrNull_iff, herr]; simp⟩

/-- Whatever is allocated and freed, no answer of an allocator and no pointer into a block is taken
for an error exactly if no block that `IOMalloc` answers reaches the last 4096 addresses. -/
theorem allocations_no_err_iff {bytes : BitVec 64 → PortMem.Byte}
    {tr : List (Tr PortMem.Memory (PortMem.Request × PortMem.Answer))} {m : PortMem.Memory}
    (h : Run PortMem.Step (PortMem.Memory.init bytes) tr m) :
    (∀ x ∈ tr, Clear x) ↔ ∀ x ∈ tr, Low x.act.1 := by
  constructor
  · intro hclear x hx size p hr hp
    obtain ⟨hpre, hst, hpost⟩ := (PortMem.run_inv h).2 x hx
    obtain ⟨-, hlive⟩ := alloc_answer hpre hst hr
    have hlive := hlive.resolve_left hp
    exact (block_clear_iff (hpost.top p size hlive)).1 fun off => (hclear x hx).inside p size off hlive
  · intro hlow x hx
    obtain ⟨⟨hpre, -⟩, hst, hpost, hall⟩ := (h.inv_of_cond (fun m => PortMem.Inv m ∧ AllLow m) (fun _ a => Low a.1)
      ⟨PortMem.inv_init bytes, fun _ _ hb => by cases hb⟩
      (fun m a m' hi ha hst => ⟨(PortMem.step_does hi.1 hst).1, allLow_step hi.1 hi.2 ha hst⟩) hlow).2 x hx
    exact clear_of_low hpre hpost hall hst

/-- An allocation below the error words and one that fails; then one of the last bytes there are. -/
theorem allocations_no_err_iff_last : ∃ (tr : List (Tr PortMem.Memory (PortMem.Request × PortMem.Answer)))
    (m m' : PortMem.Memory) (a : PortMem.Request × PortMem.Answer),
    Run PortMem.Step (PortMem.Memory.init fun _ => 0) (tr ++ [⟨m, a, m'⟩]) m' ∧
      tr.map (·.act.1) = [.kmalloc 2 PortMem.GFP_KERNEL 0x1000, .vmalloc 2 0] ∧ (∀ x ∈ tr, Clear x) ∧
      a.1 = .kmalloc 8 PortMem.GFP_KERNEL (-8) ∧ ¬ ∀ x ∈ tr ++ [⟨m, a, m'⟩], Clear x := by
  have hfirst : PortMem.Fresh (PortMem.Memory.init fun _ => 0) 2 0x1000 := PortMem.fresh_first (by decide)
  have hlast : ∀ m : PortMem.Memory, m.live = Function.update (fun _ => none) 0x1000 (some 2) → PortMem.Fresh m 8 (-8) :=
    fun m hm => PortMem.fresh_above hm (by decide) (by decide) (by decide)
  have hr : Run PortMem.Step (PortMem.Memory.init fun _ => 0) _ _ :=
    .cons (a := (.kmalloc 2 PortMem.GFP_KERNEL 0x1000, _)) ⟨rfl, by rintro _ _ ⟨⟩ _; exact hfirst⟩
      (.cons (a := (.vmalloc 2 0, _)) ⟨rfl, by rintro _ _ ⟨⟩ h; exact absurd rfl h⟩ .nil)
  have hr' := hr.snoc (a := (.kmalloc 8 PortMem.GFP_KERNEL (-8), _)) ⟨rfl, by rintro _ _ ⟨⟩ _; exact hlast _ rfl⟩
  refine ⟨_, _, _, _, hr', rfl, (allocations_no_err_iff hr).2 ?_, rfl, fun h => ?_⟩
  · simp [Low, PortMem.Request.alloc]
  · have hlow := (allocations_no_err_iff hr').1 h _ (List.mem_append_right _ (List.mem_singleton_self _))
    exact absurd (hlow 8 (-8) rfl (by decide)) (by decide)

end PortingKit.Linux.Err
