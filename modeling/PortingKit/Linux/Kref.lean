import Mathlib.Algebra.Ring.Nat
import Mathlib.Data.Multiset.AddSub
import Mathlib.Data.Multiset.Replicate
import PortingKit.Lib.Runs
/-!
# linux/atomic.h and linux/kref.h

Threads share one `kref`. `held` names the holder of every reference, so a
thread may hold several and hand them on. `kref_put` is two steps, the atomic
decrement and what follows from its result; `puts` keeps every call with the
number of references its decrement left.
-/
open PortingKit.Lib

namespace PortingKit.Linux

/-- `atomic_t`, a 32-bit `int` that wraps. -/
structure Atomic where
  counter : BitVec 32
  deriving DecidableEq

def atomicSet (_ : Atomic) (i : BitVec 32) : Atomic := ⟨i⟩
def atomicInc (v : Atomic) : Atomic := ⟨v.counter + 1⟩
/-- The result and the new value of `atomic_dec_and_test`. -/
def atomicDecAndTest (v : Atomic) : Int × Atomic :=
  let counter := v.counter - 1
  (if counter = 0 then 1 else 0, ⟨counter⟩)

structure Kref where
  refcount : Atomic
  deriving DecidableEq

def krefInit (kref : Kref) : Kref := ⟨atomicSet kref.refcount 1⟩
def krefGet (kref : Kref) : Kref := ⟨atomicInc kref.refcount⟩
/-- The first step of `kref_put`: the decrement, and the test the `if` branches on. -/
def krefPutTest (kref : Kref) : Int × Kref :=
  let (zero, refcount) := atomicDecAndTest kref.refcount
  (zero, ⟨refcount⟩)
/-- `kref_put` with nothing in between its steps. It returns 1 when it calls `release`. -/
def krefPut (kref : Kref) : Int × Kref :=
  let (zero, kref) := krefPutTest kref
  if zero ≠ 0 then (1, kref) else (0, kref)

namespace Kref

/-- Where a `kref_put` call is: past its decrement with the test's result, or back. -/
inductive Pc where
  | tested (zero : Int)
  | returned (r : Int)
  deriving DecidableEq

structure Put (T : Type) where
  caller : T
  /-- The references held right after the decrement. -/
  left : Nat
  pc : Pc
  deriving DecidableEq

structure State (T : Type) where
  kref : Kref
  held : Multiset T
  puts : List (Put T)

inductive Act (T : Type) where
  | get (t : T)
  | give (t u : T)
  | put (t : T)
  /-- The `i`-th put calls `release` and returns 1. -/
  | release (i : Nat)
  /-- The `i`-th put returns 0. -/
  | ret (i : Nat)

def Act.isRelease {T : Type} : Act T → Bool
  | .release _ => true
  | _ => false

/-- The steps that write the counter. -/
def Act.touches {T : Type} : Act T → Bool
  | .get _ | .put _ => true
  | _ => false

variable {T : Type} [DecidableEq T]

def init (t : T) (kref : Kref) : State T := ⟨krefInit kref, {t}, []⟩

/-- Only a holder gets, gives and puts. -/
def step (s : State T) : Act T → Option (State T)
  | .get t => if t ∈ s.held then some { s with kref := krefGet s.kref, held := t ::ₘ s.held } else none
  | .give t u => if t ∈ s.held then some { s with held := u ::ₘ s.held.erase t } else none
  | .put t =>
    if t ∈ s.held then
      let (zero, kref) := krefPutTest s.kref
      let held := s.held.erase t
      some ⟨kref, held, s.puts ++ [⟨t, held.card, .tested zero⟩]⟩
    else none
  | .release i =>
    match s.puts[i]? with
    | some ⟨t, left, .tested zero⟩ =>
      if zero ≠ 0 then some { s with puts := s.puts.set i ⟨t, left, .returned 1⟩ } else none
    | _ => none
  | .ret i =>
    match s.puts[i]? with
    | some ⟨t, left, .tested zero⟩ =>
      if zero ≠ 0 then none else some { s with puts := s.puts.set i ⟨t, left, .returned 0⟩ }
    | _ => none

theorem step_put {s : State T} {t : T} (ht : t ∈ s.held) : step s (.put t) = some ⟨(krefPutTest s.kref).2,
    s.held.erase t, s.puts ++ [⟨t, (s.held.erase t).card, .tested (krefPutTest s.kref).1⟩]⟩ := if_pos ht

/-- What `kref_put` on a state gives. -/
def State.afterPut (s : State T) (t : T) : State T :=
  ⟨(krefPut s.kref).2, s.held.erase t, s.puts ++ [⟨t, (s.held.erase t).card, .returned (krefPut s.kref).1⟩]⟩

/-- The two steps of a put in a row are `kref_put`, and the second calls `release` if that returns 1. -/
theorem put_alone {s : State T} {t : T} (ht : t ∈ s.held) : ∃ s₁, step s (.put t) = some s₁ ∧
    step s₁ (if (krefPut s.kref).1 = 1 then .release s.puts.length else .ret s.puts.length) = some (s.afterPut t) := by
  refine ⟨_, step_put ht, ?_⟩
  by_cases hz : (krefPutTest s.kref).1 = 0
  · have hput : krefPut s.kref = (0, (krefPutTest s.kref).2) := if_neg (not_not.2 hz)
    rw [State.afterPut, hput, if_neg (by simp)]
    simp [step, hz]
  · have hput : krefPut s.kref = (1, (krefPutTest s.kref).2) := if_pos hz
    rw [State.afterPut, hput, if_pos rfl]
    simp [step, hz]

/-- What a step does, by cases. -/
theorem step_cases {s s' : State T} {a : Act T} (h : step s a = some s') :
    (∃ t ∈ s.held, a = .get t ∧ s' = { s with kref := krefGet s.kref, held := t ::ₘ s.held }) ∨
    (∃ t u, t ∈ s.held ∧ a = .give t u ∧ s' = { s with held := u ::ₘ s.held.erase t }) ∨
    (∃ t ∈ s.held, a = .put t ∧ s' = ⟨(krefPutTest s.kref).2, s.held.erase t,
      s.puts ++ [⟨t, (s.held.erase t).card, .tested (krefPutTest s.kref).1⟩]⟩) ∨
    (∃ i t left zero, a = .release i ∧ s.puts[i]? = some ⟨t, left, .tested zero⟩ ∧ zero ≠ 0 ∧
      s' = { s with puts := s.puts.set i ⟨t, left, .returned 1⟩ }) ∨
    (∃ i t left, a = .ret i ∧ s.puts[i]? = some ⟨t, left, .tested 0⟩ ∧
      s' = { s with puts := s.puts.set i ⟨t, left, .returned 0⟩ }) := by
  cases a with
  | get t =>
    simp only [step, Option.ite_none_right_eq_some, Option.some.injEq] at h
    exact .inl ⟨t, h.1, rfl, h.2.symm⟩
  | give t u =>
    simp only [step, Option.ite_none_right_eq_some, Option.some.injEq] at h
    exact .inr (.inl ⟨t, u, h.1, rfl, h.2.symm⟩)
  | put t =>
    simp only [step, Option.ite_none_right_eq_some, Option.some.injEq] at h
    exact .inr (.inr (.inl ⟨t, h.1, rfl, h.2.symm⟩))
  | release i =>
    simp only [step] at h
    split at h
    · rename_i t left zero hp
      split at h
      · rename_i hz
        exact .inr (.inr (.inr (.inl ⟨i, t, left, zero, rfl, hp, hz, by simpa using h.symm⟩)))
      · cases h
    · cases h
  | ret i =>
    simp only [step] at h
    split at h
    · rename_i t left zero hp
      split at h
      · cases h
      · rename_i hz
        obtain rfl : zero = 0 := by simpa using hz
        exact .inr (.inr (.inr (.inr ⟨i, t, left, rfl, hp, by simpa using h.symm⟩)))
    · cases h

/-! ## The counter -/

/-- The counter is the number of held references, as far as 32 bits tell. -/
def Counts (s : State T) : Prop := s.kref.refcount.counter = BitVec.ofNat 32 s.held.card

omit [DecidableEq T] in
theorem counts_init (t : T) (kref : Kref) : Counts (init t kref) := rfl

theorem counts_step {s s' : State T} {a : Act T} (hi : Counts s) (h : step s a = some s') : Counts s' := by
  unfold Counts at *
  rcases step_cases h with ⟨t, ht, -, rfl⟩ | ⟨t, u, ht, -, rfl⟩ | ⟨t, ht, -, rfl⟩ | ⟨i, t, left, z, -, -, -, rfl⟩ |
    ⟨i, t, left, -, -, rfl⟩
  · simp only [krefGet, atomicInc, hi, Multiset.card_cons]
    exact (BitVec.ofNat_add _ _).symm
  · have := Multiset.card_erase_add_one ht
    simpa [this] using hi
  · have := Multiset.card_erase_add_one ht
    simp only [krefPutTest, atomicDecAndTest, hi]
    rw [← this]
    bv_omega
  · exact hi
  · exact hi

/-- The result of a put's test. -/
theorem test_eq {s : State T} {t : T} (hi : Counts s) (ht : t ∈ s.held) :
    (krefPutTest s.kref).1 = if 2 ^ 32 ∣ (s.held.erase t).card then 1 else 0 := by
  have h1 := Multiset.card_erase_add_one ht
  have h2 : s.kref.refcount.counter - 1 = BitVec.ofNat 32 (s.held.erase t).card := by
    rw [hi, ← h1]; bv_omega
  simp only [krefPutTest, atomicDecAndTest, h2]
  congr 1
  rw [← BitVec.toNat_inj, BitVec.toNat_ofNat, Nat.dvd_iff_mod_eq_zero]
  rfl

/-! ## Up to 2^32 references -/

/-- What a put returns: whether its decrement consumed the last reference. -/
def Put.result (p : Put T) : Int := if p.left = 0 then 1 else 0

structure Inv (s : State T) : Prop where
  counts : Counts s
  /-- A put's test and return value tell whether it consumed the last reference. -/
  result : ∀ p ∈ s.puts, p.pc = .tested p.result ∨ p.pc = .returned p.result
  /-- Once a put consumed the last reference none is held. -/
  last : ∀ p ∈ s.puts, p.left = 0 → s.held = 0
  unique : ∀ (i j : Nat) (p q : Put T), s.puts[i]? = some p → s.puts[j]? = some q → p.left = 0 → q.left = 0 → i = j

omit [DecidableEq T] in
theorem Inv.none_last {s : State T} (hi : Inv s) {t : T} (ht : t ∈ s.held) : ∀ p ∈ s.puts, p.left ≠ 0 := by
  intro p hp h0
  rw [hi.last p hp h0] at ht
  exact Multiset.notMem_zero t ht

omit [DecidableEq T] in
theorem inv_init (t : T) (kref : Kref) : Inv (init t kref) where
  counts := rfl
  result := by simp [init]
  last := by simp [init]
  unique := by simp [init]

omit [DecidableEq T] in
/-- Moving a put on keeps the invariant when its outcome stays its test's. -/
theorem inv_set {s : State T} (hi : Inv s) {i : Nat} {p p' : Put T} (hp : s.puts[i]? = some p)
    (hl : p'.left = p.left) (hpc : p'.pc = .returned p'.result) : Inv { s with puts := s.puts.set i p' } where
  counts := hi.counts
  result q hq := by
    rcases List.mem_or_eq_of_mem_set hq with hq | rfl
    · exact hi.result q hq
    · exact .inr hpc
  last q hq h0 := by
    rcases List.mem_or_eq_of_mem_set hq with hq | rfl
    · exact hi.last q hq h0
    · exact hi.last p (List.mem_of_getElem? hp) (hl ▸ h0)
  unique j k q r hj hk hq hr := by
    have old : ∀ (j : Nat) (q : Put T), (s.puts.set i p')[j]? = some q → q.left = 0 →
        ∃ q', s.puts[j]? = some q' ∧ q'.left = 0 := by
      intro j q hj hq
      rw [List.getElem?_set] at hj
      split at hj
      · subst_vars
        split at hj
        · cases hj; exact ⟨p, hp, hl ▸ hq⟩
        · cases hj
      · exact ⟨q, hj, hq⟩
    obtain ⟨q', hj', hq'⟩ := old j q hj hq
    obtain ⟨r', hk', hr'⟩ := old k r hk hr
    exact hi.unique j k q' r' hj' hk' hq' hr'

omit [DecidableEq T] in
theorem tested_result {s : State T} (hi : Inv s) {i left : Nat} {t : T} {zero : Int}
    (hp : s.puts[i]? = some ⟨t, left, .tested zero⟩) : zero = if left = 0 then 1 else 0 := by
  rcases hi.result _ (List.mem_of_getElem? hp) with h | h
  · exact Pc.tested.inj h
  · cases h

/-- A put's decrement: its caller holds a reference, so no earlier put has consumed the last one. -/
theorem inv_put {s : State T} (hi : Inv s) (hb : s.held.card ≤ 2 ^ 32) {t : T} (ht : t ∈ s.held) :
    Inv ⟨(krefPutTest s.kref).2, s.held.erase t,
      s.puts ++ [⟨t, (s.held.erase t).card, .tested (krefPutTest s.kref).1⟩]⟩ := by
  have hno := hi.none_last ht
  have h1 := Multiset.card_erase_add_one ht
  refine ⟨counts_step hi.counts (step_put ht), fun p hp => ?_, fun p hp h0 => ?_, ?_⟩
  · rcases List.mem_append.1 hp with hp | hp
    · exact hi.result p hp
    · rw [List.mem_singleton] at hp; subst hp
      left
      -- Below the bound only 0 is a multiple of 2 ^ 32.
      have hd : 2 ^ 32 ∣ (s.held.erase t).card ↔ (s.held.erase t).card = 0 :=
        ⟨fun hd => Nat.eq_zero_of_dvd_of_lt hd (by omega), fun h0 => h0 ▸ Nat.dvd_zero _⟩
      simp only [test_eq hi.counts ht, Put.result, hd]
  · rcases List.mem_append.1 hp with hp | hp
    · exact absurd h0 (hno p hp)
    · rw [List.mem_singleton] at hp; subst hp
      exact Multiset.card_eq_zero.1 h0
  · -- Of all puts only the new one can have left no reference.
    have new : ∀ (i : Nat) (p q : Put T), (s.puts ++ [q])[i]? = some p → p.left = 0 → i = s.puts.length := by
      intro i p q hi hp
      rw [List.getElem?_append] at hi
      split at hi
      · exact absurd hp (hno p (List.mem_of_getElem? hi))
      · have := (List.getElem?_eq_some_iff.1 hi).1
        simp at this; omega
    intro i j p q hp hq hp0 hq0
    rw [new i p _ hp hp0, new j q _ hq hq0]

theorem inv_step {s s' : State T} {a : Act T} (hi : Inv s) (hb : s.held.card ≤ 2 ^ 32)
    (h : step s a = some s') : Inv s' := by
  have hc := counts_step hi.counts h
  rcases step_cases h with ⟨t, ht, -, rfl⟩ | ⟨t, u, ht, -, rfl⟩ | ⟨t, ht, -, rfl⟩ | ⟨i, t, left, z, -, hp, hz, rfl⟩ |
    ⟨i, t, left, -, hp, rfl⟩
  · exact ⟨hc, hi.result, fun p hp h0 => absurd h0 (hi.none_last ht p hp), hi.unique⟩
  · exact ⟨hc, hi.result, fun p hp h0 => absurd h0 (hi.none_last ht p hp), hi.unique⟩
  · exact inv_put hi hb ht
  · -- The test was not zero, so this put left no reference.
    refine inv_set hi hp rfl (congrArg Pc.returned ?_)
    have hz' := tested_result hi hp
    by_cases h0 : left = 0
    · simp [Put.result, h0]
    · exact absurd (hz'.trans (if_neg h0)) hz
  · exact inv_set hi hp rfl (congrArg Pc.returned (tested_result hi hp))

/-! ## After the release -/

/-- Nothing is left to release and no put is about to. -/
structure Spent (s : State T) : Prop where
  held : s.held = 0
  tested : ∀ p ∈ s.puts, ∀ zero, p.pc = .tested zero → zero = 0

theorem release_spent {s s' : State T} {i : Nat} (hi : Inv s) (h : step s (.release i) = some s') :
    Spent s' ∧ s.held = 0 ∧ ∃ p, s.puts[i]? = some p ∧ p.left = 0 := by
  rcases step_cases h with ⟨_, _, ha, -⟩ | ⟨_, _, _, ha, -⟩ | ⟨_, _, ha, -⟩ | ⟨j, t, left, zero, ha, hp, hz, rfl⟩ |
    ⟨_, _, _, ha, -⟩ <;> simp only [reduceCtorEq, Act.release.injEq] at ha
  subst ha
  have h0 : left = 0 := by
    have := tested_result hi hp
    by_contra hne
    rw [if_neg hne] at this
    exact hz this
  have hheld := hi.last _ (List.mem_of_getElem? hp) h0
  refine ⟨⟨hheld, fun q hq z hqz => ?_⟩, hheld, _, hp, h0⟩
  obtain ⟨j, hj⟩ := List.getElem?_of_mem hq
  rw [List.getElem?_set] at hj
  split at hj
  · split at hj
    · cases hj; cases hqz
    · cases hj
  · -- Another put that found zero would be a second last one.
    rename_i hne
    obtain ⟨u, left', pc⟩ := q
    subst hqz
    rw [tested_result hi hj]
    exact if_neg fun h0' => hne (hi.unique _ _ _ _ hp hj h0 h0')

omit [DecidableEq T] in
theorem spent_set {s : State T} (hs : Spent s) {i : Nat} {p : Put T} {r : Int} (hp : p.pc = .returned r) :
    Spent { s with puts := s.puts.set i p } where
  held := hs.held
  tested q hq zero hz := by
    rcases List.mem_or_eq_of_mem_set hq with hq | rfl
    · exact hs.tested q hq zero hz
    · rw [hp] at hz; cases hz

theorem spent_step {s s' : State T} {a : Act T} (hs : Spent s) (h : step s a = some s') :
    Spent s' ∧ a.touches = false ∧ a.isRelease = false := by
  have hno : ∀ t, t ∉ s.held := fun t ht => Multiset.notMem_zero t (hs.held ▸ ht)
  rcases step_cases h with ⟨t, ht, -⟩ | ⟨t, _, ht, -⟩ | ⟨t, ht, -⟩ | ⟨i, t, left, zero, rfl, hp, hz, rfl⟩ |
    ⟨i, t, left, rfl, hp, rfl⟩
  · exact absurd ht (hno t)
  · exact absurd ht (hno t)
  · exact absurd ht (hno t)
  · exact absurd (hs.tested _ (List.mem_of_getElem? hp) zero rfl) hz
  · exact ⟨spent_set hs rfl, rfl, rfl⟩

/-! ## Whole runs -/

abbrev Step (s : State T) (a : Act T) (s' : State T) : Prop := step s a = some s'

/-- At most `n` references are held at once. -/
def AtMost (n : Nat) (tr : List (Tr (State T) (Act T))) : Prop :=
  ∀ t ∈ tr, t.pre.held.card ≤ n ∧ t.post.held.card ≤ n

theorem run_inv {t : T} {kref : Kref} {tr : List (Tr (State T) (Act T))} {s : State T}
    (hr : Run Step (init t kref) tr s) (hb : AtMost (2 ^ 32) tr) :
    Inv s ∧ ∀ t ∈ tr, Inv t.pre ∧ Step t.pre t.act t.post ∧ Inv t.post :=
  hr.inv_of_cond Inv (fun s _ => s.held.card ≤ 2 ^ 32) (inv_init t kref) (fun _ _ _ hi hc h => inv_step hi hc h)
    (fun t ht => (hb t ht).1)

/-- What follows a release in a run. -/
theorem run_after {t : T} {kref : Kref} {tr₁ tr₂ : List (Tr (State T) (Act T))} {u : Tr (State T) (Act T)}
    {s : State T} {i : Nat} (hr : Run Step (init t kref) (tr₁ ++ u :: tr₂) s)
    (hb : AtMost (2 ^ 32) (tr₁ ++ u :: tr₂)) (hu : u.act = .release i) :
    ∀ v ∈ tr₂, v.act.touches = false ∧ v.act.isRelease = false := by
  obtain ⟨hi, hst, -⟩ := (run_inv hr hb).2 u (by simp)
  rw [hu] at hst
  have hs := (release_spent hi hst).1
  intro v hv
  obtain ⟨h1, h2, -⟩ := (hr.split.2.2.inv Spent hs fun _ _ _ h hst => (spent_step h hst).1).2 v hv
  exact (spent_step h1 h2).2

/-- The puts that have returned 1 are exactly those that called `release`. -/
def Returned (tr : List (Tr (State T) (Act T))) (s : State T) : Prop :=
  (∀ u ∈ tr, ∀ i, u.act = .release i → i < s.puts.length) ∧
    ∀ i p, s.puts[i]? = some p → (p.pc = .returned 1 ↔ ∃ u ∈ tr, u.act = .release i)

theorem returned_step {tr : List (Tr (State T) (Act T))} {s s' : State T} {a : Act T} (hret : Returned tr s)
    (h : step s a = some s') : Returned (tr ++ [⟨s, a, s'⟩]) s' := by
  obtain ⟨hlt, hiff⟩ := hret
  unfold Returned
  simp only [List.mem_append, List.mem_singleton, or_and_right, exists_or, exists_eq_left, or_imp, forall_and,
    forall_eq]
  rcases step_cases h with ⟨t, -, rfl, rfl⟩ | ⟨t, u, -, rfl, rfl⟩ | ⟨t, -, rfl, rfl⟩ | ⟨j, t, left, zero, rfl, hp, -, rfl⟩ |
    ⟨j, t, left, rfl, hp, rfl⟩
  · exact ⟨⟨hlt, by simp⟩, by simpa using hiff⟩
  · exact ⟨⟨hlt, by simp⟩, by simpa using hiff⟩
  · refine ⟨⟨fun u hu i hi => ?_, by simp⟩, fun i p hp => ?_⟩
    · have := hlt u hu i hi
      simp only [List.length_append, List.length_singleton]
      omega
    · simp only [reduceCtorEq, or_false]
      rw [List.getElem?_append] at hp
      split at hp
      · exact hiff i p hp
      · -- The new put is only tested, and its index has not been released.
        have := (List.getElem?_eq_some_iff.1 hp).1
        have hi : i = s.puts.length := by simp at this; omega
        subst hi
        obtain rfl : _ = p := by simpa using hp
        simp only [reduceCtorEq, false_iff, not_exists, not_and]
        exact fun u hu hi => Nat.lt_irrefl _ (hlt u hu _ hi)
  · have hj := (List.getElem?_eq_some_iff.1 hp).1
    refine ⟨⟨fun u hu i hi => by simpa using hlt u hu i hi, fun i hi => ?_⟩, fun i q hq => ?_⟩
    · obtain rfl := Act.release.inj hi; simpa using hj
    · rw [List.getElem?_set] at hq
      split at hq
      · subst_vars
        obtain rfl : _ = q := by simpa [hj] using hq
        simp
      · rename_i hne
        simpa [hne] using hiff i q hq
  · have hj := (List.getElem?_eq_some_iff.1 hp).1
    refine ⟨⟨fun u hu i hi => by simpa using hlt u hu i hi, by simp⟩, fun i q hq => ?_⟩
    simp only [reduceCtorEq, or_false]
    rw [List.getElem?_set] at hq
    split at hq
    · subst_vars
      obtain rfl : _ = q := by simpa [hj] using hq
      simpa using hiff _ _ hp
    · exact hiff i q hq

theorem run_returned {t : T} {kref : Kref} {tr : List (Tr (State T) (Act T))} {s : State T}
    (hr : Run Step (init t kref) tr s) : Returned tr s :=
  hr.inv_history Returned (by simp [Returned, init]) fun _ _ _ _ hret h => returned_step hret h

/-! ## Exactly up to the bound -/

/-- What exact reference counting asks of a run. -/
structure Exact (tr : List (Tr (State T) (Act T))) (s : State T) : Prop where
  once : tr.countP (·.act.isRelease) ≤ 1
  /-- `release` is called by a put whose decrement consumed the last reference, with none held. -/
  by_last : ∀ u ∈ tr, ∀ i, u.act = .release i → u.pre.held = 0 ∧ ∃ p, u.pre.puts[i]? = some p ∧ p.left = 0
  /-- There is at most one such put. -/
  last_unique : ∀ (i j : Nat) (p q : Put T), s.puts[i]? = some p → s.puts[j]? = some q → p.left = 0 →
    q.left = 0 → i = j
  /-- It returns 1 and every other put 0. -/
  returns : ∀ p ∈ s.puts, ∀ r, p.pc = .returned r → r = if p.left = 0 then 1 else 0
  released : ∀ (i : Nat) (p : Put T), s.puts[i]? = some p → (p.pc = .returned 1 ↔ ∃ u ∈ tr, u.act = .release i)
  /-- The counter is not touched after the release. -/
  untouched : ∀ tr₁ u tr₂, tr = tr₁ ++ u :: tr₂ → u.act.isRelease = true → ∀ v ∈ tr₂, v.act.touches = false

theorem run_exact {t : T} {kref : Kref} {tr : List (Tr (State T) (Act T))} {s : State T}
    (hr : Run Step (init t kref) tr s) (hb : AtMost (2 ^ 32) tr) : Exact tr s := by
  have hrel : ∀ {u : Tr (State T) (Act T)}, u.act.isRelease = true → ∃ i, u.act = .release i := fun {u} hu => by
    cases h : u.act <;> simp_all [Act.isRelease]
  obtain ⟨hi, ht⟩ := run_inv hr hb
  refine ⟨?_, fun u hu i hui => ?_, hi.unique, fun p hp r hpr => ?_, (run_returned hr).2, ?_⟩
  · apply countP_le_one
    rintro tr₁ u tr₂ rfl hu v hv
    obtain ⟨i, hui⟩ := hrel hu
    exact (run_after hr hb hui v hv).2
  · obtain ⟨hi', hst, -⟩ := ht u hu
    exact (release_spent hi' (hui ▸ hst)).2
  · rcases hi.result p hp with h | h <;> rw [hpr] at h
    · cases h
    · exact Pc.returned.inj h
  · rintro tr₁ u tr₂ rfl hu v hv
    obtain ⟨i, hui⟩ := hrel hu
    exact (run_after hr hb hui v hv).1

/-- Any number of references can be held. -/
theorem exists_held (t : T) (kref : Kref) (n : Nat) :
    ∃ s, Reachable Step (init t kref) s ∧ s.held = Multiset.replicate (n + 1) t := by
  induction n with
  | zero => exact ⟨_, .refl, rfl⟩
  | succ n ih =>
    obtain ⟨s, hs, hh⟩ := ih
    have ht : t ∈ s.held := by simp [hh]
    have hget : Step s (.get t) { s with kref := krefGet s.kref, held := t ::ₘ s.held } := by simp [Step, step, ht]
    exact ⟨_, hs.snoc hget, by simp [hh]⟩

/-- With `2 ^ 32 + 1` references held, any put finds zero and may release. -/
theorem early_release {t₀ : T} {kref : Kref} {s : State T} (hr : Reachable Step (init t₀ kref) s)
    (hs : s.held.card = 2 ^ 32 + 1) {t : T} (ht : t ∈ s.held) :
    ∃ s₁ s₂ i, Step s (.put t) s₁ ∧ Step s₁ (.release i) s₂ ∧ s₁.held.card = 2 ^ 32 := by
  obtain ⟨tr, hr⟩ := hr
  have hc : Counts s := (hr.inv Counts (counts_init t₀ kref) fun _ _ _ => counts_step).1
  have h1 : (s.held.erase t).card = 2 ^ 32 := by have := Multiset.card_erase_add_one ht; omega
  have h2 : (krefPutTest s.kref).1 = 1 := by rw [test_eq hc ht, h1]; simp
  let s₁ : State T := ⟨(krefPutTest s.kref).2, s.held.erase t, s.puts ++ [⟨t, (s.held.erase t).card, .tested 1⟩]⟩
  have hput : Step s (.put t) s₁ := by
    have hst := step_put ht
    rwa [h2] at hst
  have hrel : Step s₁ (.release s.puts.length)
      { s₁ with puts := s₁.puts.set s.puts.length ⟨t, (s.held.erase t).card, .returned 1⟩ } := by
    simp [Step, step, s₁]
  exact ⟨s₁, _, s.puts.length, hput, hrel, h1⟩

/-- Reference counting is exact in every run that holds at most `2 ^ 32`
references at once, and not with one more. A run takes `kref_put` in two steps,
which without others in between are what `kref_put` does. -/
theorem kref_exact_to_bound (t₀ : T) (kref : Kref) :
    (∀ (s : State T), ∀ t ∈ s.held, ∃ s₁, Step s (.put t) s₁ ∧
        Step s₁ (if (krefPut s.kref).1 = 1 then .release s.puts.length else .ret s.puts.length) (s.afterPut t)) ∧
      (∀ tr s, Run Step (init t₀ kref) tr s → AtMost (2 ^ 32) tr → Exact tr s) ∧
      (∃ s, Reachable Step (init t₀ kref) s ∧ s.held.card = 2 ^ 32 + 1) ∧
      ∀ s, Reachable Step (init t₀ kref) s → s.held.card = 2 ^ 32 + 1 → ∀ t ∈ s.held,
        ∃ s₁ s₂ i, Step s (.put t) s₁ ∧ Step s₁ (.release i) s₂ ∧ s₁.held.card = 2 ^ 32 := by
  refine ⟨fun _ _ ht => put_alone ht, fun tr s => run_exact, ?_, fun s hr hs t ht => early_release hr hs ht⟩
  obtain ⟨s, hr, hs⟩ := exists_held t₀ kref (2 ^ 32)
  exact ⟨s, hr, by rw [hs, Multiset.card_replicate]⟩

end Kref
end PortingKit.Linux
