import PortingKit.Linux.PortMem
/-!
# The blocks as separate arrays

What allocation, copying and freeing are for: arrays of bytes that have nothing
to do with each other. `Memory.store` reads the arrays off the one memory, and
every request does to the memory what it does to the arrays. `memcpy` between
overlapping places is undefined for both.
-/
open PortingKit.Lib

namespace PortingKit.Linux.PortMem

/-- Arrays, each under the address of its block. -/
abbrev Store := BitVec 64 → Option (List Byte)

namespace Store

/-- `n` bytes of an array. -/
def read (s : Store) (p : Place) (n : Nat) : Option (List Byte) := do
  let bs ← s p.block
  if p.off + n ≤ bs.length then some ((bs.drop p.off).take n) else none

/-- Part of an array replaced. -/
def write (s : Store) (p : Place) (cs : List Byte) : Option Store := do
  let bs ← s p.block
  if p.off + cs.length ≤ bs.length then some (Function.update s p.block (some (splice bs p.off cs))) else none

/-- NULL is answered, or a new array with some content. -/
def Allocates (s : Store) (size : Nat) (p : BitVec 64) (Content : List Byte → Prop) (ans : Answer) (s' : Store) : Prop :=
  ans = .pointer ⟨p, 0⟩ ∧ (p = 0 ∧ s' = s ∨
    p ≠ 0 ∧ s p = none ∧ ∃ bs, bs.length = size ∧ Content bs ∧ s' = Function.update s p (some bs))

/-- NULL is given, or the array at `p` goes. -/
def Frees (s : Store) (p : Place) (ans : Answer) (s' : Store) : Prop :=
  ans = .void ∧ (p.addr = 0 ∧ s' = s ∨
    p.addr ≠ 0 ∧ p.off = 0 ∧ s p.block ≠ none ∧ s' = Function.update s p.block none)

def Copies (s : Store) (dest src : Place) (n : Nat) (s' : Store) : Prop :=
  Apart dest src n ∧ ∃ bs, s.read src n = some bs ∧ s.write dest bs = some s'

/-- What a request does to the arrays. -/
def Does (s : Store) (r : Request) (ans : Answer) (s' : Store) : Prop :=
  match r with
  | .portMemAllocNonPaged size p | .kmalloc size _ p | .vmalloc size p => s.Allocates size p (fun _ => True) ans s'
  | .kzalloc size _ p => s.Allocates size p (· = List.replicate size 0) ans s'
  | .portMemFree p | .kfree p | .vfree p => s.Frees p ans s'
  | .portMemCopy dest destSize src count =>
    destSize < count ∧ ans = .pointer null ∧ s' = s ∨ count ≤ destSize ∧ ans = .pointer dest ∧ s.Copies dest src count s'
  | .portMemSet dest c count => ans = .pointer dest ∧ s.write dest (List.replicate count (c.setWidth 8)) = some s'
  | .copyToUser to' from' n | .copyFromUser to' from' n => ans = .left 0 ∧ s.Copies to' from' n s'

end Store

/-- The arrays in a memory. -/
def Memory.store (m : Memory) : Store := fun b => (m.live b).map fun n => readAt m.bytes (span b n)

/-! ## Reading and writing -/

theorem store_eq_none {m : Memory} {b : BitVec 64} : m.store b = none ↔ m.live b = none := Option.map_eq_none_iff

theorem store_live {m : Memory} {b : BitVec 64} {n : Nat} (h : m.live b = some n) :
    m.store b = some (readAt m.bytes (span b n)) := by
  rw [Memory.store, h, Option.map_some]

theorem store_read {m : Memory} {p : Place} {n : Nat} (h : m.Has p n) :
    m.store.read p n = some (readAt m.bytes (span p.addr n)) := by
  obtain ⟨size, hlive, hle⟩ := h
  simp only [Store.read, store_live hlive, Option.bind_eq_bind, Option.bind_some, length_readAt, length_span, hle, if_true]
  rw [Place.addr, readAt_part m.bytes p.block hle]

theorem has_of_read {m : Memory} {p : Place} {n : Nat} {bs : List Byte} (h : m.store.read p n = some bs) : m.Has p n := by
  cases hlive : m.live p.block with
  | none => simp [Store.read, store_eq_none.2 hlive] at h
  | some size =>
    simp only [Store.read, store_live hlive, Option.bind_eq_bind, Option.bind_some, length_readAt, length_span,
      Option.ite_none_right_eq_some] at h
    exact ⟨size, hlive, h.1⟩

/-- A write through a pointer changes its own array only. -/
theorem store_write {m : Memory} {p : Place} (cs : List Byte) (hi : Inv m) (h : m.Has p cs.length) :
    m.store.write p cs = some (⟨writeAt m.bytes (span p.addr cs.length) cs, m.live⟩ : Memory).store := by
  obtain ⟨size, hlive, hle⟩ := h
  have hsize := hi.top _ _ hlive
  simp only [Store.write, store_live hlive, Option.bind_eq_bind, Option.bind_some, length_readAt, length_span, hle, if_true,
    Option.some.injEq]
  funext b
  cases hn : m.live b with
  | none =>
    have hb : b ≠ p.block := by
      rintro rfl
      rw [hn] at hlive
      cases hlive
    rw [Function.update_of_ne hb, store_eq_none.2 hn, store_eq_none.2]
    exact hn
  | some n =>
    have hnew := store_live (m := ⟨writeAt m.bytes (span p.addr cs.length) cs, m.live⟩) hn
    rw [hnew]
    by_cases hb : b = p.block
    · subst hb
      obtain rfl : size = n := by rwa [hlive, Option.some.injEq] at hn
      rw [Function.update_self, Place.addr, readAt_writeAt_part m.bytes hsize hle]
    · have hapart := hi.apart _ _ _ _ hlive hn (Ne.symm hb)
      rw [Function.update_of_ne hb, store_live hn, readAt_writeAt_disjoint]
      exact fun a ha => hapart (span_subset p.block hle ha)

theorem has_of_write {m : Memory} {p : Place} {cs : List Byte} {s' : Store} (h : m.store.write p cs = some s') :
    m.Has p cs.length := by
  cases hlive : m.live p.block with
  | none => simp [Store.write, store_eq_none.2 hlive] at h
  | some size =>
    simp only [Store.write, store_live hlive, Option.bind_eq_bind, Option.bind_some, length_readAt, length_span,
      Option.ite_none_right_eq_some] at h
    exact ⟨size, hlive, h.1⟩

/-! ## The library on the arrays -/

theorem store_new {m : Memory} (p : BitVec 64) (size : Nat) :
    { m with live := Function.update m.live p (some size) }.store =
      Function.update m.store p (some (readAt m.bytes (span p size))) := by
  funext b
  by_cases hb : b = p
  · subst hb
    simp [Memory.store]
  · simp [Memory.store, hb]

theorem store_gone {m : Memory} (b : BitVec 64) :
    { m with live := Function.update m.live b none }.store = Function.update m.store b none := by
  funext c
  by_cases hc : c = b
  · subst hc
    simp [Memory.store]
  · simp [Memory.store, hc]

/-- `IOMalloc` makes a new array, with anything in it. -/
theorem ioMalloc_allocates {m : Memory} {size : Nat} {p : BitVec 64} (hi : Inv m) (hf : p ≠ 0 → Fresh m size p) :
    Inv (ioMalloc size p m).2 ∧
      m.store.Allocates size p (fun _ => True) (.pointer (ioMalloc size p m).1) (ioMalloc size p m).2.store := by
  unfold ioMalloc
  by_cases hp : p = 0
  · rw [if_pos hp]
    exact ⟨hi, rfl, .inl ⟨hp, rfl⟩⟩
  · rw [if_neg hp]
    refine ⟨hi.alloc hp (hf hp), rfl, .inr ⟨hp, store_eq_none.2 (hf hp).unused, _, ?_, trivial, store_new p size⟩⟩
    rw [length_readAt, length_span]

/-- `memset` writes to the array it is given a place in. -/
theorem memset_writes {m m' : Memory} {p : Place} {c : BitVec 32} {n : Nat} (hi : Inv m) (h : memset p c n m = some m') :
    Inv m' ∧ m.store.write p (List.replicate n (c.setWidth 8)) = some m'.store := by
  simp only [memset, Option.ite_none_right_eq_some, Option.some.injEq] at h
  obtain ⟨hhas, rfl⟩ := h
  have hwrite := store_write (List.replicate n (c.setWidth 8)) hi (by rwa [List.length_replicate])
  rw [List.length_replicate] at hwrite
  exact ⟨hi.write _, hwrite⟩

/-- `memcpy` copies from array to array. -/
theorem memcpy_copies {m m' : Memory} {dest src : Place} {n : Nat} (hi : Inv m) (h : memcpy dest src n m = some m') :
    Inv m' ∧ m.store.Copies dest src n m'.store := by
  simp only [memcpy, Option.ite_none_right_eq_some, Option.some.injEq] at h
  obtain ⟨⟨hdest, hsrc, hapart⟩, rfl⟩ := h
  have hlen : (readAt m.bytes (span src.addr n)).length = n := by rw [length_readAt, length_span]
  have hwrite := store_write (p := dest) (readAt m.bytes (span src.addr n)) hi (by rwa [hlen])
  rw [hlen] at hwrite
  exact ⟨hi.write _, hapart, _, store_read hsrc, hwrite⟩

theorem portMemFree_frees {m m' : Memory} {p : Place} (hi : Inv m) (h : portMemFree p m = some m') :
    Inv m' ∧ m.store.Frees p .void m'.store := by
  unfold portMemFree ioFree at h
  split at h
  · rename_i hp
    simp only [Option.ite_none_right_eq_some, Option.some.injEq] at h
    obtain ⟨⟨hoff, hlive⟩, rfl⟩ := h
    refine ⟨hi.free, rfl, .inr ⟨hp, hoff, fun hnone => ?_, store_gone p.block⟩⟩
    rw [store_eq_none.1 hnone] at hlive
    cases hlive
  · rename_i hp
    cases h
    exact ⟨hi, rfl, .inl ⟨not_not.1 hp, rfl⟩⟩

theorem kzalloc_eq (size : Nat) (flags : BitVec 32) (p : BitVec 64) (m : Memory) :
    kzalloc size flags p m =
      if p = 0 then some (⟨p, 0⟩, m) else (memset ⟨p, 0⟩ 0 size (ioMalloc size p m).2).map fun m => (⟨p, 0⟩, m) := by
  unfold kzalloc kmalloc portMemAllocNonPaged ioMalloc
  by_cases hp : p = 0
  · simp [hp]
  · simp only [addr_block, ne_eq, hp, not_false_eq_true, if_true, if_false]
    cases memset ⟨p, 0⟩ 0 size ⟨m.bytes, Function.update m.live p (some size)⟩ <;> rfl

/-- A block from `kzalloc` is all zeros, whatever was there before. -/
theorem kzalloc_allocates {m m' : Memory} {size : Nat} {flags : BitVec 32} {p : BitVec 64} {q : Place} (hi : Inv m)
    (hf : p ≠ 0 → Fresh m size p) (h : kzalloc size flags p m = some (q, m')) :
    Inv m' ∧ m.store.Allocates size p (· = List.replicate size 0) (.pointer q) m'.store := by
  obtain ⟨hi₁, -, hnew⟩ := ioMalloc_allocates hi hf
  rw [kzalloc_eq] at h
  by_cases hp : p = 0
  · rw [if_pos hp] at h
    cases h
    exact ⟨hi, rfl, .inl ⟨hp, rfl⟩⟩
  · obtain ⟨-, hunused, bs, hbs, -, hstore⟩ := hnew.resolve_left fun h => hp h.1
    rw [if_neg hp] at h
    obtain ⟨m₁, hset, hm₁⟩ := Option.map_eq_some_iff.1 h
    cases hm₁
    obtain ⟨hi₂, hwrite⟩ := memset_writes hi₁ hset
    refine ⟨hi₂, rfl, .inr ⟨hp, hunused, List.replicate size 0, List.length_replicate, rfl, ?_⟩⟩
    -- The whole new array is replaced.
    have hall : splice bs 0 (List.replicate size (0 : Byte)) = List.replicate size 0 := by
      simp [splice, hbs]
    rw [hstore] at hwrite
    simp only [Store.write, Function.update_self, Option.bind_eq_bind, Option.bind_some, List.length_replicate, hbs,
      Nat.zero_add, Nat.le_refl, if_true, Function.update_idem, Option.some.injEq] at hwrite
    rw [← hwrite, ← hall]
    rfl

/-! ## Requests -/

/-- A request does to the memory what it does to the arrays. -/
theorem step_does {m m' : Memory} {r : Request} {ans : Answer} (hi : Inv m) (h : Step m (r, ans) m') :
    Inv m' ∧ m.store.Does r ans m'.store := by
  obtain ⟨hexec, hfresh⟩ := h
  have hfree : ∀ {p}, (portMemFree p m).map ((.void : Answer), ·) = some (ans, m') →
      Inv m' ∧ m.store.Frees p ans m'.store := by
    intro p hp
    obtain ⟨m₁, hm₁, he⟩ := Option.map_eq_some_iff.1 hp
    cases he
    exact portMemFree_frees hi hm₁
  cases r with
  | portMemAllocNonPaged size p | kmalloc size flags p | vmalloc size p =>
    cases hexec
    exact ioMalloc_allocates hi (hfresh size p rfl)
  | kzalloc size flags p =>
    obtain ⟨⟨q, m₁⟩, hz, he⟩ := Option.map_eq_some_iff.1 hexec
    cases he
    exact kzalloc_allocates hi (hfresh size p rfl) hz
  | portMemFree p | kfree p | vfree p => exact hfree hexec
  | portMemCopy dest destSize src count =>
    by_cases hlt : destSize < count
    · simp only [Request.exec, portMemCopy, hlt, if_true, Option.map_some] at hexec
      cases hexec
      exact ⟨hi, .inl ⟨hlt, rfl, rfl⟩⟩
    · obtain ⟨m₁, hm₁, rfl, rfl⟩ : ∃ m₁, memcpy dest src count m = some m₁ ∧ .pointer dest = ans ∧ m₁ = m' := by
        simpa [Request.exec, portMemCopy, hlt, Option.map_eq_some_iff, Option.bind_eq_some_iff] using hexec
      obtain ⟨hi₁, hcopies⟩ := memcpy_copies hi hm₁
      exact ⟨hi₁, .inr ⟨Nat.le_of_not_lt hlt, rfl, hcopies⟩⟩
  | portMemSet dest c count =>
    obtain ⟨m₁, hm₁, rfl, rfl⟩ : ∃ m₁, memset dest c count m = some m₁ ∧ .pointer dest = ans ∧ m₁ = m' := by
      simpa [Request.exec, portMemSet, Option.map_eq_some_iff, Option.bind_eq_some_iff] using hexec
    obtain ⟨hi₁, hwrite⟩ := memset_writes hi hm₁
    exact ⟨hi₁, rfl, hwrite⟩
  | copyToUser to' from' n | copyFromUser to' from' n =>
    obtain ⟨m₁, hm₁, rfl, rfl⟩ : ∃ m₁, memcpy to' from' n m = some m₁ ∧ .left 0 = ans ∧ m₁ = m' := by
      simpa [Request.exec, copyToUser, copyFromUser, Option.map_eq_some_iff, Option.bind_eq_some_iff] using hexec
    obtain ⟨hi₁, hcopies⟩ := memcpy_copies hi hm₁
    exact ⟨hi₁, rfl, hcopies⟩

theorem memcpy_defined {m : Memory} {dest src : Place} {n : Nat} {s' : Store} (h : m.store.Copies dest src n s') :
    ∃ m', memcpy dest src n m = some m' := by
  obtain ⟨hapart, bs, hread, hwrite⟩ := h
  have hsrc := has_of_read hread
  have hbs : bs.length = n := by
    rw [store_read hsrc, Option.some.injEq] at hread
    rw [← hread, length_readAt, length_span]
  have hdest := has_of_write hwrite
  rw [hbs] at hdest
  exact ⟨_, if_pos ⟨hdest, hsrc, hapart⟩⟩

theorem memset_defined {m : Memory} {p : Place} {c : BitVec 32} {n : Nat} {s' : Store}
    (h : m.store.write p (List.replicate n (c.setWidth 8)) = some s') : ∃ m', memset p c n m = some m' := by
  have hhas := has_of_write h
  rw [List.length_replicate] at hhas
  exact ⟨_, if_pos hhas⟩

theorem portMemFree_defined {m : Memory} {p : Place} {ans : Answer} {s' : Store} (h : m.store.Frees p ans s') :
    ∃ m', portMemFree p m = some m' := by
  unfold portMemFree ioFree
  rcases h.2 with ⟨hp, -⟩ | ⟨hp, hoff, hlive, -⟩
  · exact ⟨m, if_neg (not_not.2 hp)⟩
  · have hsome : (m.live p.block).isSome := Option.isSome_iff_ne_none.2 fun hnone => hlive (store_eq_none.2 hnone)
    exact ⟨_, by rw [if_pos hp, if_pos ⟨hoff, hsome⟩]⟩

/-- A new block can be zeroed. -/
theorem kzalloc_defined (m : Memory) (size : Nat) (flags : BitVec 32) (p : BitVec 64) :
    ∃ r, kzalloc size flags p m = some r := by
  rw [kzalloc_eq]
  by_cases hp : p = 0
  · exact ⟨_, if_pos hp⟩
  · have hlive : (ioMalloc size p m).2.live p = some size := by
      rw [ioMalloc, if_neg hp]
      exact Function.update_self p (some size) m.live
    have hhas : (ioMalloc size p m).2.Has ⟨p, 0⟩ size := ⟨size, hlive, by simp⟩
    exact ⟨_, by rw [if_neg hp, memset, if_pos hhas]; rfl⟩

/-- What the arrays allow is defined. -/
theorem exec_defined {m : Memory} {r : Request} {ans : Answer} {s' : Store} (h : m.store.Does r ans s') :
    ∃ res, r.exec m = some res := by
  cases r with
  | portMemAllocNonPaged size p | kmalloc size flags p | vmalloc size p => exact ⟨_, rfl⟩
  | kzalloc size flags p =>
    obtain ⟨r, hr⟩ := kzalloc_defined m size flags p
    exact ⟨_, congrArg (Option.map _) hr⟩
  | portMemFree p | kfree p | vfree p =>
    obtain ⟨m', hm'⟩ := portMemFree_defined h
    exact ⟨_, congrArg (Option.map _) hm'⟩
  | portMemCopy dest destSize src count =>
    rcases h with ⟨hlt, -⟩ | ⟨hle, -, hcopies⟩
    · exact ⟨(.pointer null, m), by simp [Request.exec, portMemCopy, hlt]⟩
    · obtain ⟨m', hm'⟩ := memcpy_defined hcopies
      exact ⟨(.pointer dest, m'), by simp [Request.exec, portMemCopy, Nat.not_lt.2 hle, hm']⟩
  | portMemSet dest c count =>
    obtain ⟨m', hm'⟩ := memset_defined h.2
    exact ⟨(.pointer dest, m'), by simp [Request.exec, portMemSet, hm']⟩
  | copyToUser to' from' n | copyFromUser to' from' n =>
    obtain ⟨m', hm'⟩ := memcpy_defined h.2
    exact ⟨(.left 0, m'), by simp [Request.exec, copyToUser, copyFromUser, hm']⟩

/-! ## Runs -/

theorem run_inv {bytes : BitVec 64 → Byte} {tr : List (Tr Memory (Request × Answer))} {m : Memory}
    (h : Run Step (Memory.init bytes) tr m) : Inv m ∧ ∀ x ∈ tr, Inv x.pre ∧ Step x.pre x.act x.post ∧ Inv x.post :=
  h.inv Inv (inv_init bytes) fun _ _ _ hi hst => (step_does hi hst).1

/-- The one memory refines separate arrays: along every run each request does what it does to the
arrays, and a request is defined exactly where it is on the arrays. -/
theorem memory_refines_store {bytes : BitVec 64 → Byte} {tr : List (Tr Memory (Request × Answer))} {m : Memory}
    (h : Run Step (Memory.init bytes) tr m) :
    (∀ x ∈ tr, x.pre.store.Does x.act.1 x.act.2 x.post.store) ∧
      ∀ r : Request, (∀ size p, r.alloc = some (size, p) → p ≠ 0 → Fresh m size p) →
        ((∃ ans m', Step m (r, ans) m') ↔ ∃ ans s', m.store.Does r ans s') := by
  obtain ⟨hi, hall⟩ := run_inv h
  refine ⟨fun x hx => ?_, fun r hfresh => ⟨?_, ?_⟩⟩
  · obtain ⟨hpre, hst, -⟩ := hall x hx
    exact (step_does hpre hst).2
  · rintro ⟨ans, m', hst⟩
    exact ⟨ans, m'.store, (step_does hi hst).2⟩
  · rintro ⟨ans, s', hdoes⟩
    obtain ⟨⟨ans', m'⟩, hexec⟩ := exec_defined hdoes
    exact ⟨ans', m', hexec, hfresh⟩

theorem fresh_first {bytes : BitVec 64 → Byte} {size : Nat} {p : BitVec 64} (htop : p.toNat + size ≤ 2 ^ 64) :
    Fresh (Memory.init bytes) size p where
  top := htop
  unused := rfl
  apart _ _ h := by cases h

theorem fresh_above {m : Memory} {p q : BitVec 64} {n size : Nat}
    (hm : m.live = Function.update (fun _ => none) p (some n)) (hpq : p ≠ q) (hle : p.toNat + n ≤ q.toNat)
    (htop : q.toNat + size ≤ 2 ^ 64) : Fresh m size q where
  top := htop
  unused := by rw [hm, Function.update_of_ne hpq.symm]
  apart b k hb := by
    rw [hm] at hb
    by_cases h : b = p
    · subst h
      obtain rfl : n = k := by simpa using hb
      exact span_disjoint (by omega) (by omega) (.inr hle)
    · rw [Function.update_of_ne h] at hb
      cases hb

/-- A zeroed block beside one that is filled, copied from and freed. -/
theorem memory_refines_store_zeroed : ∃ (tr : List (Tr Memory (Request × Answer))) (m : Memory),
    Run Step (Memory.init fun _ => 0xaa) tr m ∧ tr.map (·.act.1) = [.kmalloc 2 GFP_KERNEL 0x1000,
      .portMemSet ⟨0x1000, 0⟩ 7 2, .kzalloc 4 GFP_ATOMIC 0x2000, .portMemCopy ⟨0x2000, 1⟩ 3 ⟨0x1000, 0⟩ 2,
      .kfree ⟨0x1000, 0⟩] ∧
      m.store 0x2000 = some [0, 7, 7, 0] ∧ ∀ x ∈ tr, x.pre.store.Does x.act.1 x.act.2 x.post.store := by
  have hfirst : Fresh (Memory.init fun _ => 0xaa) 2 0x1000 := fresh_first (by decide)
  have hsecond : ∀ m : Memory, m.live = Function.update (fun _ => none) 0x1000 (some 2) → Fresh m 4 0x2000 :=
    fun m hm => fresh_above hm (by decide) (by decide) (by decide)
  have hr : Run Step (Memory.init fun _ => 0xaa) _ _ :=
    .cons (a := (.kmalloc 2 GFP_KERNEL 0x1000, _)) ⟨rfl, by rintro _ _ ⟨⟩ _; exact hfirst⟩
      (.cons (a := (.portMemSet ⟨0x1000, 0⟩ 7 2, _)) ⟨rfl, nofun⟩
        (.cons (a := (.kzalloc 4 GFP_ATOMIC 0x2000, _)) ⟨rfl, by rintro _ _ ⟨⟩ _; exact hsecond _ rfl⟩
          (.cons (a := (.portMemCopy ⟨0x2000, 1⟩ 3 ⟨0x1000, 0⟩ 2, _)) ⟨rfl, nofun⟩
            (.cons (a := (.kfree ⟨0x1000, 0⟩, _)) ⟨rfl, nofun⟩ .nil))))
  exact ⟨_, _, hr, rfl, by decide, (memory_refines_store hr).1⟩

/-! ## What is left alone -/

/-- The block a request writes to or frees. A copy larger than its destination writes nothing. -/
def Request.target : Request → Option (BitVec 64)
  | .portMemFree p | .kfree p | .vfree p | .portMemSet p _ _ | .copyToUser p _ _ | .copyFromUser p _ _ => some p.block
  | .portMemCopy dest destSize _ count => if destSize < count then none else some dest.block
  | .portMemAllocNonPaged _ _ | .kmalloc _ _ _ | .kzalloc _ _ _ | .vmalloc _ _ => none

theorem Store.Allocates.frame {s s' : Store} {size : Nat} {p b : BitVec 64} {Content : List Byte → Prop} {ans : Answer}
    (h : s.Allocates size p Content ans s') (hb : s b ≠ none) : s' b = s b := by
  rcases h.2 with ⟨-, rfl⟩ | ⟨-, hp, bs, -, -, rfl⟩
  · rfl
  · refine Function.update_of_ne ?_ _ _
    rintro rfl
    exact hb hp

theorem Store.write_frame {s s' : Store} {p : Place} {b : BitVec 64} {cs : List Byte} (h : s.write p cs = some s')
    (hb : p.block ≠ b) : s' b = s b := by
  obtain ⟨bs, -, h⟩ := Option.bind_eq_some_iff.1 h
  rw [Option.ite_none_right_eq_some, Option.some.injEq] at h
  rw [← h.2, Function.update_of_ne hb.symm]

theorem Store.Frees.frame {s s' : Store} {p : Place} {b : BitVec 64} {ans : Answer} (h : s.Frees p ans s')
    (hb : p.block ≠ b) : s' b = s b := by
  rcases h.2 with ⟨-, rfl⟩ | ⟨-, -, -, rfl⟩
  · rfl
  · exact Function.update_of_ne hb.symm _ _

theorem Store.Copies.frame {s s' : Store} {dest src : Place} {n : Nat} {b : BitVec 64} (h : s.Copies dest src n s')
    (hb : dest.block ≠ b) : s' b = s b := by
  obtain ⟨-, bs, -, hwrite⟩ := h
  exact Store.write_frame hwrite hb

/-- A request leaves every array alone that it does not name. -/
theorem Store.Does.frame {s s' : Store} {r : Request} {ans : Answer} {b : BitVec 64} (h : s.Does r ans s')
    (hb : s b ≠ none) (ht : r.target ≠ some b) : s' b = s b := by
  have hne : ∀ p : Place, r.target = some p.block → p.block ≠ b := by
    rintro p hp rfl
    exact ht hp
  cases r with
  | portMemAllocNonPaged size p | kmalloc size flags p | vmalloc size p | kzalloc size flags p =>
    exact Store.Allocates.frame h hb
  | portMemFree p | kfree p | vfree p => exact Store.Frees.frame h (hne p rfl)
  | portMemCopy dest destSize src count =>
    rcases h with ⟨-, -, rfl⟩ | ⟨hle, -, hcopies⟩
    · rfl
    · exact hcopies.frame (hne dest (if_neg (Nat.not_lt.2 hle)))
  | portMemSet dest c count => exact Store.write_frame h.2 (hne dest rfl)
  | copyToUser to' from' n | copyFromUser to' from' n => exact h.2.frame (hne to' rfl)

/-- An array that is not new was there before, and was as long. -/
theorem Store.Allocates.length {s s' : Store} {size : Nat} {p b : BitVec 64} {Content : List Byte → Prop} {ans : Answer}
    {bs' : List Byte} (h : s.Allocates size p Content ans s') (hb : s' b = some bs') :
    (∃ bs, s b = some bs ∧ bs.length = bs'.length) ∨ (size, p) = (bs'.length, b) ∧ b ≠ 0 := by
  obtain ⟨-, ⟨-, rfl⟩ | ⟨hp, -, bs, hbs, -, rfl⟩⟩ := h
  · exact .inl ⟨bs', hb, rfl⟩
  · by_cases hbp : b = p
    · subst hbp
      obtain rfl : bs = bs' := by simpa using hb
      exact .inr ⟨by rw [hbs], hp⟩
    · rw [Function.update_of_ne hbp] at hb
      exact .inl ⟨bs', hb, rfl⟩

theorem Store.Frees.length {s s' : Store} {p : Place} {b : BitVec 64} {ans : Answer} {bs' : List Byte}
    (h : s.Frees p ans s') (hb : s' b = some bs') : ∃ bs, s b = some bs ∧ bs.length = bs'.length := by
  obtain ⟨-, ⟨-, rfl⟩ | ⟨-, -, -, rfl⟩⟩ := h
  · exact ⟨bs', hb, rfl⟩
  · by_cases hbp : b = p.block
    · simp [hbp] at hb
    · rw [Function.update_of_ne hbp] at hb
      exact ⟨bs', hb, rfl⟩

theorem Store.write_length {s s' : Store} {p : Place} {b : BitVec 64} {cs bs' : List Byte} (h : s.write p cs = some s')
    (hb : s' b = some bs') : ∃ bs, s b = some bs ∧ bs.length = bs'.length := by
  obtain ⟨bs, hbs, h⟩ := Option.bind_eq_some_iff.1 h
  rw [Option.ite_none_right_eq_some, Option.some.injEq] at h
  obtain ⟨hle, rfl⟩ := h
  by_cases hbp : b = p.block
  · subst hbp
    rw [Function.update_self, Option.some.injEq] at hb
    exact ⟨bs, hbs, by rw [← hb, length_splice hle]⟩
  · rw [Function.update_of_ne hbp] at hb
    exact ⟨bs', hb, rfl⟩

/-- A request gives no array another length. -/
theorem Store.Does.length {s s' : Store} {r : Request} {ans : Answer} {b : BitVec 64} {bs' : List Byte}
    (h : s.Does r ans s') (hb : s' b = some bs') :
    (∃ bs, s b = some bs ∧ bs.length = bs'.length) ∨ r.alloc = some (bs'.length, b) ∧ b ≠ 0 := by
  cases r with
  | portMemAllocNonPaged size p | kmalloc size _ p | kzalloc size _ p | vmalloc size p =>
    exact (Store.Allocates.length h hb).imp_right fun h => ⟨congrArg some h.1, h.2⟩
  | portMemFree p | kfree p | vfree p => exact .inl (Store.Frees.length h hb)
  | portMemCopy dest destSize src count =>
    rcases h with ⟨-, -, rfl⟩ | ⟨-, -, -, _, -, hwrite⟩
    · exact .inl ⟨bs', hb, rfl⟩
    · exact .inl (Store.write_length hwrite hb)
  | portMemSet dest c count => exact .inl (Store.write_length h.2 hb)
  | copyToUser to' from' n | copyFromUser to' from' n =>
    obtain ⟨-, -, _, -, hwrite⟩ := h
    exact .inl (Store.write_length hwrite hb)

/-- Along a run too. -/
theorem run_frame {m m' : Memory} {tr : List (Tr Memory (Request × Answer))} {b : BitVec 64} (hi : Inv m)
    (h : Run Step m tr m') (hb : m.store b ≠ none) (ht : ∀ x ∈ tr, x.act.1.target ≠ some b) :
    Inv m' ∧ m'.store b = m.store b := by
  refine (h.inv_of_cond (fun m' => Inv m' ∧ m'.store b = m.store b) (fun _ a => a.1.target ≠ some b) ⟨hi, rfl⟩ ?_ ht).1
  rintro m₁ ⟨r, ans⟩ m₂ ⟨hi₁, hm₁⟩ hr hst
  obtain ⟨hi₂, hdoes⟩ := step_does hi₁ hst
  exact ⟨hi₂, (hdoes.frame (by rwa [hm₁]) hr).trans hm₁⟩

/-- What has been written is read. -/
theorem Store.read_of_write {s s' : Store} {p : Place} {cs : List Byte} (h : s.write p cs = some s') :
    s'.read p cs.length = some cs := by
  obtain ⟨bs, -, h⟩ := Option.bind_eq_some_iff.1 h
  rw [Option.ite_none_right_eq_some, Option.some.injEq] at h
  obtain ⟨hle, rfl⟩ := h
  simp only [Store.read, Function.update_self, Option.bind_eq_bind, Option.bind_some, length_splice hle, hle, if_true]
  rw [splice_part (by omega)]

theorem Store.Copies.read {s s' : Store} {dest src : Place} {n : Nat} (h : s.Copies dest src n s') :
    ∃ bs, s.read src n = some bs ∧ s'.read dest n = some bs := by
  obtain ⟨-, bs, hread, hwrite⟩ := h
  obtain ⟨cs, -, hcs⟩ := Option.bind_eq_some_iff.1 hread
  rw [Option.ite_none_right_eq_some, Option.some.injEq] at hcs
  obtain ⟨hle, rfl⟩ := hcs
  have hlen : ((cs.drop src.off).take n).length = n := by
    rw [List.length_take, List.length_drop]
    omega
  have hwritten := Store.read_of_write hwrite
  rw [hlen] at hwritten
  exact ⟨_, hread, hwritten⟩

/-- What `copy_to_user` put into a user buffer `copy_from_user` brings back, whatever has been
allocated, freed, filled and copied since, as long as the buffer was left alone. -/
theorem user_round_trip {bytes : BitVec 64 → Byte} {tr₁ tr₂ : List (Tr Memory (Request × Answer))}
    {m₁ m₂ m₃ m₄ : Memory} {u src dest : Place} {n : Nat} (h₁ : Run Step (Memory.init bytes) tr₁ m₁)
    (hto : Step m₁ (.copyToUser u src n, .left 0) m₂) (h₂ : Run Step m₂ tr₂ m₃)
    (ht : ∀ x ∈ tr₂, x.act.1.target ≠ some u.block) (hfrom : Step m₃ (.copyFromUser dest u n, .left 0) m₄) :
    ∃ bs, m₁.store.read src n = some bs ∧ m₄.store.read dest n = some bs := by
  obtain ⟨hi₂, -, hcopy₁⟩ := step_does (run_inv h₁).1 hto
  obtain ⟨bs, hsrc, huser⟩ := hcopy₁.read
  have hlive : m₂.store u.block ≠ none := by
    obtain ⟨cs, hcs, -⟩ := Option.bind_eq_some_iff.1 huser
    rw [hcs]
    simp
  obtain ⟨hi₃, hsame⟩ := run_frame hi₂ h₂ hlive ht
  obtain ⟨-, -, hcopy₂⟩ := step_does hi₃ hfrom
  obtain ⟨bs', huser', hdest⟩ := hcopy₂.read
  obtain rfl : bs = bs' := by
    rw [Store.read, hsame, ← Store.read, huser, Option.some.injEq] at huser'
    exact huser'
  exact ⟨bs, hsrc, hdest⟩

/-- The bytes come back after their first place has been filled with something else. -/
theorem user_round_trip_filled : ∃ (bytes : BitVec 64 → Byte) (tr₁ tr₂ : List (Tr Memory (Request × Answer)))
    (m₁ m₂ m₃ m₄ : Memory), Run Step (Memory.init bytes) tr₁ m₁ ∧
      Step m₁ (.copyToUser ⟨0x2000, 0⟩ ⟨0x1000, 1⟩ 2, .left 0) m₂ ∧ Run Step m₂ tr₂ m₃ ∧
      tr₂.map (·.act.1) = [.portMemSet ⟨0x1000, 0⟩ 9 3] ∧
      Step m₃ (.copyFromUser ⟨0x1000, 0⟩ ⟨0x2000, 0⟩ 2, .left 0) m₄ ∧
      ∃ bs, m₁.store.read ⟨0x1000, 1⟩ 2 = some bs ∧ m₄.store.read ⟨0x1000, 0⟩ 2 = some bs := by
  have hfirst : Fresh (Memory.init fun a => a.setWidth 8) 3 0x1000 := fresh_first (by decide)
  have hsecond : ∀ m : Memory, m.live = Function.update (fun _ => none) 0x1000 (some 3) → Fresh m 2 0x2000 :=
    fun m hm => fresh_above hm (by decide) (by decide) (by decide)
  have h₁ : Run Step (Memory.init fun a => a.setWidth 8) _ _ :=
    .cons (a := (.kmalloc 3 GFP_KERNEL 0x1000, _)) ⟨rfl, by rintro _ _ ⟨⟩ _; exact hfirst⟩
      (.cons (a := (.vmalloc 2 0x2000, _)) ⟨rfl, by rintro _ _ ⟨⟩ _; exact hsecond _ rfl⟩ .nil)
  refine ⟨_, _, _, _, _, _, _, h₁, ⟨rfl, nofun⟩,
    .cons (a := (.portMemSet ⟨0x1000, 0⟩ 9 3, _)) ⟨rfl, nofun⟩ .nil, rfl, ⟨rfl, nofun⟩, ?_⟩
  exact user_round_trip (u := ⟨0x2000, 0⟩) h₁ ⟨rfl, nofun⟩ (.cons (a := (.portMemSet ⟨0x1000, 0⟩ 9 3, _)) ⟨rfl, nofun⟩ .nil)
    (by simp [Request.target]) ⟨rfl, nofun⟩

end PortingKit.Linux.PortMem
