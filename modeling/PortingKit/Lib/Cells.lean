import Mathlib.Data.BitVec
import Mathlib.Data.List.Nodup
import Mathlib.Logic.Function.Basic
/-!
# Ranges of cells

A memory gives every address a cell. `readAt` and `writeAt` read and write the
cells at a list of addresses; `span` is the list of a contiguous range. A write
to part of a range is `splice` on what the whole range reads, and no write is
seen outside its range.
-/

namespace PortingKit.Lib

variable {A B : Type}

/-! ## Cells at a list of addresses -/

def readAt (mem : A → B) (as : List A) : List B := as.map mem

@[simp] theorem length_readAt (mem : A → B) (as : List A) : (readAt mem as).length = as.length := List.length_map _

theorem readAt_append (mem : A → B) (as cs : List A) : readAt mem (as ++ cs) = readAt mem as ++ readAt mem cs :=
  List.map_append

variable [DecidableEq A]

/-- The values `bs` written to the cells at `as`, in order. -/
def writeAt (mem : A → B) : List A → List B → A → B
  | a :: as, b :: bs => writeAt (Function.update mem a b) as bs
  | _, _ => mem

theorem writeAt_of_not_mem {a : A} {as : List A} (h : a ∉ as) (mem : A → B) (bs : List B) :
    writeAt mem as bs a = mem a := by
  induction as generalizing mem bs with
  | nil => rfl
  | cons c as ih =>
    cases bs with
    | nil => rfl
    | cons b bs =>
      rw [writeAt, ih (fun ha => h (List.mem_cons_of_mem c ha)), Function.update_of_ne]
      rintro rfl
      exact h List.mem_cons_self

theorem readAt_writeAt_disjoint {as cs : List A} (h : as.Disjoint cs) (mem : A → B) (bs : List B) :
    readAt (writeAt mem as bs) cs = readAt mem cs :=
  List.map_congr_left fun _ hc => writeAt_of_not_mem (fun ha => h ha hc) mem bs

theorem readAt_writeAt_same {as : List A} {bs : List B} (hn : as.Nodup) (hl : as.length = bs.length) (mem : A → B) :
    readAt (writeAt mem as bs) as = bs := by
  induction as generalizing mem bs with
  | nil =>
    cases bs with
    | nil => rfl
    | cons => cases hl
  | cons a as ih =>
    cases bs with
    | nil => cases hl
    | cons b bs =>
      obtain ⟨ha, hn⟩ := List.nodup_cons.1 hn
      have hfirst : writeAt mem (a :: as) (b :: bs) a = b := by
        rw [writeAt, writeAt_of_not_mem ha, Function.update_self]
      rw [readAt, List.map_cons, hfirst]
      exact congrArg (b :: ·) (ih hn (Nat.succ.inj hl) _)

/-- A write in the middle of some cells leaves those on both sides. -/
theorem readAt_writeAt_middle {xs as ys : List A} {bs : List B} (hn : (xs ++ as ++ ys).Nodup)
    (hl : as.length = bs.length) (mem : A → B) :
    readAt (writeAt mem as bs) (xs ++ as ++ ys) = readAt mem xs ++ bs ++ readAt mem ys := by
  obtain ⟨hxa, -, hys⟩ := List.nodup_append'.1 hn
  obtain ⟨-, hna, hxs⟩ := List.nodup_append'.1 hxa
  have hays : as.Disjoint ys := fun a ha => hys (List.mem_append_right xs ha)
  rw [readAt_append, readAt_append, readAt_writeAt_disjoint hxs.symm, readAt_writeAt_same hna hl,
    readAt_writeAt_disjoint hays]

/-! ## Contiguous ranges -/

variable {w : Nat}

/-- The addresses of `n` cells from `p`. -/
def span (p : BitVec w) (n : Nat) : List (BitVec w) := (List.range n).map fun i => p + BitVec.ofNat w i

@[simp] theorem length_span (p : BitVec w) (n : Nat) : (span p n).length = n := by simp [span]

@[simp] theorem span_zero (p : BitVec w) : span p 0 = [] := rfl

theorem mem_span {p a : BitVec w} {n : Nat} : a ∈ span p n ↔ ∃ i < n, p + BitVec.ofNat w i = a := by
  simp [span]

theorem span_append (p : BitVec w) (m n : Nat) : span p (m + n) = span p m ++ span (p + BitVec.ofNat w m) n := by
  unfold span
  rw [List.range_add, List.map_append, List.map_map]
  congr 1
  refine List.map_congr_left fun i _ => ?_
  rw [Function.comp_apply, BitVec.ofNat_add, BitVec.add_assoc]

/-- A range inside a range. -/
theorem span_split (p : BitVec w) {off k n : Nat} (h : off + k ≤ n) :
    span p n = span p off ++ span (p + BitVec.ofNat w off) k ++ span (p + BitVec.ofNat w (off + k)) (n - (off + k)) := by
  rw [← span_append, ← span_append, Nat.add_sub_cancel' h]

theorem span_subset (p : BitVec w) {off k n : Nat} (h : off + k ≤ n) :
    span (p + BitVec.ofNat w off) k ⊆ span p n := by
  rw [span_split p h]
  exact fun a ha => List.mem_append_left _ (List.mem_append_right _ ha)

theorem toNat_add_ofNat {p : BitVec w} {i : Nat} (h : p.toNat + i < 2 ^ w) :
    (p + BitVec.ofNat w i).toNat = p.toNat + i := by
  rw [BitVec.toNat_add, BitVec.toNat_ofNat, Nat.mod_eq_of_lt (by omega : i < 2 ^ w), Nat.mod_eq_of_lt h]

/-- A range that does not wrap has every address once. -/
theorem span_nodup {p : BitVec w} {n : Nat} (h : p.toNat + n ≤ 2 ^ w) : (span p n).Nodup := by
  refine List.Nodup.map_on (fun i hi j hj hij => ?_) List.nodup_range
  rw [List.mem_range] at hi hj
  have he := congrArg BitVec.toNat hij
  rw [toNat_add_ofNat (by omega), toNat_add_ofNat (by omega)] at he
  omega

theorem toNat_of_mem_span {p a : BitVec w} {n : Nat} (h : p.toNat + n ≤ 2 ^ w) (ha : a ∈ span p n) :
    p.toNat ≤ a.toNat ∧ a.toNat < p.toNat + n := by
  obtain ⟨i, hi, rfl⟩ := mem_span.1 ha
  rw [toNat_add_ofNat (by omega)]
  omega

theorem span_disjoint {p q : BitVec w} {m n : Nat} (hp : p.toNat + m ≤ 2 ^ w) (hq : q.toNat + n ≤ 2 ^ w)
    (h : p.toNat + m ≤ q.toNat ∨ q.toNat + n ≤ p.toNat) : (span p m).Disjoint (span q n) := by
  intro a ha hb
  have h₁ := toNat_of_mem_span hp ha
  have h₂ := toNat_of_mem_span hq hb
  omega

/-! ## Part of a range -/

/-- `l` with `bs` in place of what it has from `off` on. -/
def splice (l : List B) (off : Nat) (bs : List B) : List B := l.take off ++ bs ++ l.drop (off + bs.length)

@[simp] theorem length_splice {l bs : List B} {off : Nat} (h : off + bs.length ≤ l.length) :
    (splice l off bs).length = l.length := by
  simp only [splice, List.length_append, List.length_take, List.length_drop]
  omega

theorem splice_part {l bs : List B} {off : Nat} (h : off ≤ l.length) :
    ((splice l off bs).drop off).take bs.length = bs := by
  have htake : (l.take off).length = off := List.length_take_of_le h
  rw [splice, List.append_assoc, List.drop_left' htake, List.take_left' rfl]

/-- Part of a range reads as that part of what the range reads. -/
theorem readAt_part (mem : BitVec w → B) (p : BitVec w) {off k n : Nat} (h : off + k ≤ n) :
    readAt mem (span (p + BitVec.ofNat w off) k) = ((readAt mem (span p n)).drop off).take k := by
  rw [span_split p h, List.append_assoc, readAt_append, readAt_append,
    List.drop_left' (by simp), List.take_left' (by simp)]

/-- A write to part of a range splices what the range reads. -/
theorem readAt_writeAt_part (mem : BitVec w → B) {p : BitVec w} {off n : Nat} {bs : List B}
    (hn : p.toNat + n ≤ 2 ^ w) (h : off + bs.length ≤ n) :
    readAt (writeAt mem (span (p + BitVec.ofNat w off) bs.length) bs) (span p n) =
      splice (readAt mem (span p n)) off bs := by
  have hnodup := span_nodup hn
  rw [span_split p h] at hnodup ⊢
  have htake : ∀ l₁ l₂ l₃ : List B, l₁.length = off → (l₁ ++ l₂ ++ l₃).take off = l₁ := fun l₁ l₂ l₃ h₁ => by
    rw [List.append_assoc, List.take_left' h₁]
  rw [readAt_writeAt_middle hnodup (by simp), splice, readAt_append, readAt_append, htake _ _ _ (by simp),
    List.drop_left' (by simp)]

end PortingKit.Lib
