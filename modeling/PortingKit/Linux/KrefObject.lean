import PortingKit.Linux.Kernel
import PortingKit.Linux.Kref
import PortingKit.Linux.PortMem
/-!
# Reference-counted objects in memory

What a `kref` is for: objects from `kmalloc`, each with a `kref` member, freed by
the `release` function that the last `kref_put` calls. The counters are cells of
one memory, and an object made where another was counts in the same cell.
-/
open PortingKit.Lib

namespace PortingKit.Linux

namespace Kref

variable {T : Type} [DecidableEq T] {s s' : State T} {a : Act T}

/-- A put has called `release` and returned. -/
def Released (puts : List (Put T)) : Prop := ∃ p ∈ puts, p.pc = .returned 1

omit [DecidableEq T] in
theorem released_set {puts : List (Put T)} {i left : Nat} {t : T} {zero r : Int}
    (hp : puts[i]? = some ⟨t, left, .tested zero⟩) :
    Released (puts.set i ⟨t, left, .returned r⟩) ↔ Released puts ∨ r = 1 := by
  have hi := (List.getElem?_eq_some_iff.1 hp).1
  constructor
  · rintro ⟨p, hm, hpc⟩
    rcases List.mem_or_eq_of_mem_set hm with hm | rfl
    · exact .inl ⟨p, hm, hpc⟩
    · exact .inr (Pc.returned.inj hpc)
  · rintro (⟨p, hm, hpc⟩ | rfl)
    · obtain ⟨j, hj⟩ := List.getElem?_of_mem hm
      have hne : i ≠ j := by
        rintro rfl
        rw [hp, Option.some.injEq] at hj
        subst hj
        cases hpc
      exact ⟨p, List.mem_of_getElem? ((List.getElem?_set_ne hne).trans hj), hpc⟩
    · exact ⟨_, List.mem_set hi _, rfl⟩

theorem released_step (h : step s a = some s') : Released s'.puts ↔ Released s.puts ∨ a.isRelease = true := by
  rcases step_cases h with ⟨t, -, rfl, rfl⟩ | ⟨t, u, -, rfl, rfl⟩ | ⟨t, -, rfl, rfl⟩ | ⟨i, t, left, zero, rfl, hp, -, rfl⟩ |
    ⟨i, t, left, rfl, hp, rfl⟩
  · simp [Act.isRelease]
  · simp [Act.isRelease]
  · simp [Act.isRelease, Released, or_and_right, exists_or]
  · simp [released_set hp, Act.isRelease]
  · simp [released_set hp, Act.isRelease]

theorem kref_untouched (h : step s a = some s') (ha : a.touches = false) : s'.kref = s.kref := by
  rcases step_cases h with ⟨t, -, rfl, -⟩ | ⟨t, u, -, -, rfl⟩ | ⟨t, -, rfl, -⟩ | ⟨i, t, left, zero, -, -, -, rfl⟩ |
    ⟨i, t, left, -, -, rfl⟩
  · cases ha
  · rfl
  · cases ha
  · rfl
  · rfl

/-- Where no reference is held, some put took the last one. -/
def Consumed (held : Multiset T) (puts : List (Put T)) : Prop := held = 0 → ∃ p ∈ puts, p.left = 0

omit [DecidableEq T] in
theorem consumed_set {held : Multiset T} {puts : List (Put T)} (hc : Consumed held puts) {i : Nat} {p p' : Put T}
    (hp : puts[i]? = some p) (hl : p'.left = p.left) : Consumed held (puts.set i p') := by
  intro h0
  obtain ⟨q, hq, hq0⟩ := hc h0
  obtain ⟨j, hj⟩ := List.getElem?_of_mem hq
  by_cases hij : i = j
  · subst hij
    rw [hp, Option.some.injEq] at hj
    subst hj
    exact ⟨p', List.mem_set (List.getElem?_eq_some_iff.1 hp).1 _, hl.trans hq0⟩
  · exact ⟨q, List.mem_of_getElem? ((List.getElem?_set_ne hij).trans hj), hq0⟩

theorem consumed_step (hc : Consumed s.held s.puts) (h : step s a = some s') : Consumed s'.held s'.puts := by
  rcases step_cases h with ⟨t, -, -, rfl⟩ | ⟨t, u, -, -, rfl⟩ | ⟨t, -, -, rfl⟩ | ⟨i, t, left, zero, -, hp, -, rfl⟩ |
    ⟨i, t, left, -, hp, rfl⟩
  · exact fun h0 => absurd h0 (Multiset.cons_ne_zero)
  · exact fun h0 => absurd h0 (Multiset.cons_ne_zero)
  · exact fun h0 => ⟨_, List.mem_append_right _ List.mem_cons_self, Multiset.card_eq_zero.2 h0⟩
  · exact consumed_set hc hp rfl
  · exact consumed_set hc hp rfl

end Kref

namespace KrefObject

/-- An object: where it is, where in it its `kref` is, who holds references and
the `kref_put` calls made on it. -/
structure Object (T : Type) where
  addr : BitVec 64
  off : BitVec 64
  held : Multiset T
  puts : List (Kref.Put T)

def Object.kref {T : Type} (o : Object T) : BitVec 64 := o.addr + o.off

structure State (T : Type) where
  mem : PortMem.Memory
  /-- The counter at each address. -/
  krefs : BitVec 64 → Kref
  objs : List (Object T)

inductive Act (T : Type) where
  | create (t : T) (size : Nat) (flags : BitVec 32) (off ioMalloc : BitVec 64)
  | call (i : Nat) (a : Kref.Act T)

variable {T : Type} [DecidableEq T]

/-- `kmalloc`, and `kref_init` of the member if there is an object. -/
def create (s : State T) (t : T) (size : Nat) (flags : BitVec 32) (off p : BitVec 64) : State T :=
  let (obj, mem) := PortMem.kmalloc size flags p s.mem
  if obj.addr = 0 then { s with mem }
  else
    let kref := obj.addr + off
    ⟨mem, Function.update s.krefs kref (krefInit (s.krefs kref)), s.objs ++ [⟨obj.addr, off, {t}, []⟩]⟩

/-- The objects' `release`: `kfree(container_of(kref, type, member))`. -/
def release (kref off : BitVec 64) (m : PortMem.Memory) : Option PortMem.Memory :=
  PortMem.kfree ⟨containerOf kref off, 0⟩ m

/-- The references to an object, with the counter that is in its cell now. -/
def State.refs (s : State T) (o : Object T) : Kref.State T := ⟨s.krefs o.kref, o.held, o.puts⟩

/-- What a call leaves of an object. -/
def Object.after (o : Object T) (r : Kref.State T) : Object T := { o with held := r.held, puts := r.puts }

/-- The memory after a step of `kref_put` that may be the one that calls `release`. -/
def released (o : Object T) (a : Kref.Act T) (m : PortMem.Memory) : Option PortMem.Memory :=
  if a.isRelease then release o.kref o.off m else some m

def call (s : State T) (i : Nat) (a : Kref.Act T) : Option (State T) := do
  let o ← s.objs[i]?
  let r ← Kref.step (s.refs o) a
  let mem ← released o a s.mem
  return ⟨mem, Function.update s.krefs o.kref r.kref, s.objs.set i (o.after r)⟩

def step (s : State T) : Act T → Option (State T)
  | .create t size flags off p => some (create s t size flags off p)
  | .call i a => call s i a

/-- A step, with a fresh block and room for the `kref` in a new object. -/
structure Step (s : State T) (a : Act T) (s' : State T) : Prop where
  exec : step s a = some s'
  fresh : ∀ t size flags off p, a = .create t size flags off p → p ≠ 0 →
    PortMem.Fresh s.mem size p ∧ off.toNat + 4 ≤ size

/-- No object yet, and anything in the cells. -/
def init (bytes : BitVec 64 → PortMem.Byte) (krefs : BitVec 64 → Kref) : State T := ⟨.init bytes, krefs, []⟩

theorem step_call {s s' : State T} {i : Nat} {a : Kref.Act T} (h : call s i a = some s') : Step s (.call i a) s' :=
  ⟨h, fun _ _ _ _ _ ha => by cases ha⟩

/-! ## One call -/

def Object.Released (o : Object T) : Prop := Kref.Released o.puts

omit [DecidableEq T] in
theorem release_eq (o : Object T) (m : PortMem.Memory) : release o.kref o.off m = PortMem.kfree ⟨o.addr, 0⟩ m := by
  rw [release, Object.kref, containerOf_member]

/-- What a call does, with the object it is on. -/
theorem call_cases {s s' : State T} {i : Nat} {a : Kref.Act T} (h : call s i a = some s') :
    ∃ o r mem, s.objs[i]? = some o ∧ Kref.step (s.refs o) a = some r ∧
      (a.isRelease = true ∧ PortMem.kfree ⟨o.addr, 0⟩ s.mem = some mem ∨ a.isRelease = false ∧ mem = s.mem) ∧
      s' = ⟨mem, Function.update s.krefs o.kref r.kref, s.objs.set i (o.after r)⟩ := by
  simp only [call, Option.bind_eq_bind, Option.bind_eq_some_iff, Option.pure_def, Option.some.injEq] at h
  obtain ⟨o, ho, r, hr, mem, hmem, rfl⟩ := h
  refine ⟨o, r, mem, ho, hr, ?_, rfl⟩
  unfold released at hmem
  split at hmem
  · rename_i hrel
    rw [release_eq] at hmem
    exact .inl ⟨hrel, hmem⟩
  · rename_i hrel
    exact .inr ⟨by simpa using hrel, (Option.some.inj hmem).symm⟩

/-! ## The invariant -/

omit [DecidableEq T] in
theorem getElem?_snoc {l : List (Object T)} {o o' : Object T} {i : Nat} (h : (l ++ [o])[i]? = some o') :
    l[i]? = some o' ∨ i = l.length ∧ o' = o := by
  rw [List.getElem?_append] at h
  split at h
  · exact .inl h
  · have hi : i = l.length := by
      have hlt := (List.getElem?_eq_some_iff.1 h).1
      rw [List.length_singleton] at hlt
      omega
    subst hi
    rw [Nat.sub_self, List.getElem?_cons_zero] at h
    exact .inr ⟨rfl, (Option.some.inj h).symm⟩

/-- An object that has not been released has a block to itself, with its own
references counted in it; one that has been is not used any more, and every
block is an object's. -/
structure Inv (s : State T) : Prop where
  mem : PortMem.Inv s.mem
  counted : ∀ o ∈ s.objs, ¬ o.Released → Kref.Inv (s.refs o)
  spent : ∀ o ∈ s.objs, o.Released → Kref.Spent (s.refs o)
  consumed : ∀ o ∈ s.objs, Kref.Consumed o.held o.puts
  block : ∀ o ∈ s.objs, ¬ o.Released → ∃ size, s.mem.live o.addr = some size ∧ o.off.toNat + 4 ≤ size
  sole : ∀ (i j : Nat) (o o' : Object T), s.objs[i]? = some o → s.objs[j]? = some o' → ¬ o.Released → ¬ o'.Released →
    o.addr = o'.addr → i = j
  owned : ∀ b, s.mem.live b ≠ none → ∃ o ∈ s.objs, o.addr = b ∧ ¬ o.Released

omit [DecidableEq T] in
theorem inv_init (bytes : BitVec 64 → PortMem.Byte) (krefs : BitVec 64 → Kref) : Inv (init bytes krefs : State T) where
  mem := PortMem.inv_init bytes
  counted _ h := by cases h
  spent _ h := by cases h
  consumed _ h := by cases h
  block _ h := by cases h
  sole _ _ _ _ h := by cases h
  owned _ h := absurd rfl h

omit [DecidableEq T] in
/-- The `kref` of an object is within its block. -/
theorem kref_mem (o : Object T) {size : Nat} (h : o.off.toNat + 4 ≤ size) : o.kref ∈ span o.addr size := by
  refine mem_span.2 ⟨o.off.toNat, by omega, ?_⟩
  rw [BitVec.ofNat_toNat, BitVec.setWidth_eq]
  rfl

omit [DecidableEq T] in
/-- Objects in different blocks count in different cells. -/
theorem kref_ne {m : PortMem.Memory} (hm : PortMem.Inv m) {o o' : Object T} {size size' : Nat}
    (h : m.live o.addr = some size) (hoff : o.off.toNat + 4 ≤ size) (h' : m.live o'.addr = some size')
    (hoff' : o'.off.toNat + 4 ≤ size') (hne : o.addr ≠ o'.addr) : o.kref ≠ o'.kref := fun he =>
  hm.apart _ _ _ _ h h' hne (kref_mem o hoff) (he ▸ kref_mem o' hoff')

omit [DecidableEq T] in
/-- A change of other counters leaves the references to an object. -/
theorem refs_congr {s s' : State T} {o : Object T} (h : s'.krefs o.kref = s.krefs o.kref) : s'.refs o = s.refs o := by
  rw [State.refs, State.refs, h]

omit [DecidableEq T] in
theorem spent_congr {s s' : State T} {o : Object T} (h : Kref.Spent (s.refs o)) : Kref.Spent (s'.refs o) :=
  ⟨h.held, h.tested⟩

/-! ## A new object -/

omit [DecidableEq T] in
theorem create_null (s : State T) (t : T) (size : Nat) (flags : BitVec 32) (off : BitVec 64) :
    create s t size flags off 0 = s := by
  simp [create, PortMem.kmalloc, PortMem.portMemAllocNonPaged, PortMem.ioMalloc]

omit [DecidableEq T] in
theorem create_eq (s : State T) (t : T) (size : Nat) (flags : BitVec 32) (off : BitVec 64) {p : BitVec 64} (hp : p ≠ 0) :
    create s t size flags off p = ⟨{ s.mem with live := Function.update s.mem.live p (some size) },
      Function.update s.krefs (p + off) (krefInit (s.krefs (p + off))), s.objs ++ [⟨p, off, {t}, []⟩]⟩ := by
  simp only [create, PortMem.kmalloc, PortMem.portMemAllocNonPaged, PortMem.ioMalloc, PortMem.addr_block, if_neg hp]

omit [DecidableEq T] in
/-- An object in a block that was not in use before. -/
theorem Inv.snoc {s s' : State T} {o : Object T} {size : Nat} (hi : Inv s) (hm : PortMem.Inv s'.mem)
    (hobjs : s'.objs = s.objs ++ [o]) (hunused : s.mem.live o.addr = none)
    (hlive : s'.mem.live = Function.update s.mem.live o.addr (some size)) (hroom : o.off.toNat + 4 ≤ size)
    (hkrefs : ∀ c, c ≠ o.kref → s'.krefs c = s.krefs c) (hinv : Kref.Inv (s'.refs o)) (hheld : o.held ≠ 0)
    (hnew : ¬ o.Released) : Inv s' := by
  have hne : ∀ o' ∈ s.objs, ¬ o'.Released → o'.addr ≠ o.addr := fun o' ho hr he => by
    obtain ⟨n, hn, -⟩ := hi.block o' ho hr
    rw [he, hunused] at hn
    cases hn
  have hblock : ∀ o' ∈ s.objs, ¬ o'.Released → ∃ n, s'.mem.live o'.addr = some n ∧ o'.off.toNat + 4 ≤ n :=
    fun o' ho hr => by
      rw [hlive, Function.update_of_ne (hne o' ho hr)]
      exact hi.block o' ho hr
  have hself : s'.mem.live o.addr = some size := by rw [hlive, Function.update_self]
  have hmem : ∀ {P : Object T → Prop}, (∀ o' ∈ s.objs, P o') → P o → ∀ o' ∈ s'.objs, P o' := fun hall ho o' hm => by
    rw [hobjs] at hm
    rcases List.mem_append.1 hm with hm | hm
    · exact hall o' hm
    · exact List.mem_singleton.1 hm ▸ ho
  refine ⟨hm, hmem (fun o' ho hr => ?_) fun _ => hinv, hmem (fun o' ho hr => spent_congr (hi.spent o' ho hr)) fun hr => absurd hr hnew,
    hmem hi.consumed fun h0 => absurd h0 hheld, hmem hblock fun _ => ⟨size, hself, hroom⟩, ?_, fun b hb => ?_⟩
  · obtain ⟨n, hn, hroom'⟩ := hblock o' ho hr
    have hcell := kref_ne hm hn hroom' hself hroom (hne o' ho hr)
    rw [refs_congr (hkrefs _ hcell)]
    exact hi.counted o' ho hr
  · intro i j o₁ o₂ h₁ h₂ hr₁ hr₂ he
    rw [hobjs] at h₁ h₂
    rcases getElem?_snoc h₁ with hold₁ | ⟨rfl, rfl⟩ <;> rcases getElem?_snoc h₂ with hold₂ | ⟨rfl, rfl⟩
    · exact hi.sole i j o₁ o₂ hold₁ hold₂ hr₁ hr₂ he
    · exact absurd he (hne o₁ (List.mem_of_getElem? hold₁) hr₁)
    · exact absurd he.symm (hne o₂ (List.mem_of_getElem? hold₂) hr₂)
    · rfl
  · rw [hobjs]
    by_cases he : b = o.addr
    · exact ⟨o, List.mem_append_right _ List.mem_cons_self, he.symm, hnew⟩
    · rw [hlive, Function.update_of_ne he] at hb
      obtain ⟨o', ho, hob, hr⟩ := hi.owned b hb
      exact ⟨o', List.mem_append_left _ ho, hob, hr⟩

omit [DecidableEq T] in
theorem inv_create {s : State T} {t : T} {size : Nat} {flags : BitVec 32} {off p : BitVec 64} (hi : Inv s) (hp : p ≠ 0)
    (hf : PortMem.Fresh s.mem size p) (hroom : off.toNat + 4 ≤ size) : Inv (create s t size flags off p) := by
  have heq := create_eq s t size flags off hp
  set s' := create s t size flags off p
  refine hi.snoc (o := ⟨p, off, {t}, []⟩) ?_ (by rw [heq]) hf.unused (by rw [heq]) hroom (fun c hc => ?_) ?_
    (Multiset.singleton_ne_zero t) (fun ⟨_, h, _⟩ => by cases h)
  · rw [heq]
    exact hi.mem.alloc hp hf
  · rw [heq]
    exact Function.update_of_ne hc _ _
  · have hcell : s'.krefs (p + off) = krefInit (s.krefs (p + off)) := by rw [heq]; exact Function.update_self ..
    rw [State.refs, Object.kref, hcell]
    exact Kref.inv_init t _

/-! ## A call on an object -/

omit [DecidableEq T] in
theorem getElem?_set_cases {l : List (Object T)} {i j : Nat} {o o' : Object T} (h : (l.set i o)[j]? = some o') :
    j = i ∧ o' = o ∨ j ≠ i ∧ l[j]? = some o' := by
  by_cases hij : i = j
  · subst hij
    have hlt := (List.getElem?_eq_some_iff.1 h).1
    rw [List.getElem?_set_self (by simpa using hlt)] at h
    exact .inl ⟨rfl, (Option.some.inj h).symm⟩
  · rw [List.getElem?_set_ne hij] at h
    exact .inr ⟨Ne.symm hij, h⟩

omit [DecidableEq T] in
/-- One object is replaced by what it has become, and the others keep their blocks and counters. -/
theorem Inv.replace {s s' : State T} {i : Nat} {o o' : Object T} (hi : Inv s) (ho : s.objs[i]? = some o)
    (hm : PortMem.Inv s'.mem) (hobjs : s'.objs = s.objs.set i o') (haddr : o'.addr = o.addr)
    (hother : ∀ j x, j ≠ i → s.objs[j]? = some x → ¬ x.Released →
      s'.mem.live x.addr = s.mem.live x.addr ∧ s'.krefs x.kref = s.krefs x.kref)
    (hback : ¬ o'.Released → ¬ o.Released)
    (hlive : ¬ o'.Released → Kref.Inv (s'.refs o') ∧ ∃ size, s'.mem.live o'.addr = some size ∧ o'.off.toNat + 4 ≤ size)
    (hspent : o'.Released → Kref.Spent (s'.refs o')) (hconsumed : Kref.Consumed o'.held o'.puts)
    (howned : ∀ b, s'.mem.live b ≠ none → s.mem.live b ≠ none ∧ (b = o.addr → ¬ o.Released → ¬ o'.Released)) : Inv s' := by
  have hall : ∀ {P : Object T → Prop}, P o' → (∀ j x, j ≠ i → s.objs[j]? = some x → P x) → ∀ x ∈ s'.objs, P x := by
    intro P hnew hold x hx
    obtain ⟨j, hj⟩ := List.getElem?_of_mem hx
    rw [hobjs] at hj
    rcases getElem?_set_cases hj with ⟨-, rfl⟩ | ⟨hne, hj⟩
    · exact hnew
    · exact hold j x hne hj
  refine ⟨hm, hall (fun hr => (hlive hr).1) fun j x hj hx hxr => ?_,
    hall hspent fun j x _ hx hxr => spent_congr (hi.spent x (List.mem_of_getElem? hx) hxr),
    hall hconsumed fun j x _ hx => hi.consumed x (List.mem_of_getElem? hx),
    hall (fun hr => (hlive hr).2) fun j x hj hx hxr => ?_, fun j k x y hj hk hxr hyr he => ?_, fun b hb => ?_⟩
  · rw [refs_congr (hother j x hj hx hxr).2]
    exact hi.counted x (List.mem_of_getElem? hx) hxr
  · rw [(hother j x hj hx hxr).1]
    exact hi.block x (List.mem_of_getElem? hx) hxr
  · rw [hobjs] at hj hk
    rcases getElem?_set_cases hj with ⟨rfl, rfl⟩ | ⟨-, hjx⟩ <;> rcases getElem?_set_cases hk with ⟨rfl, rfl⟩ | ⟨-, hky⟩
    · rfl
    · exact hi.sole j k o y ho hky (hback hxr) hyr (haddr ▸ he)
    · exact hi.sole j k x o hjx ho hxr (hback hyr) (haddr ▸ he)
    · exact hi.sole j k x y hjx hky hxr hyr he
  · obtain ⟨hold, hsame⟩ := howned b hb
    obtain ⟨x, hx, rfl, hxr⟩ := hi.owned b hold
    obtain ⟨j, hj⟩ := List.getElem?_of_mem hx
    rw [hobjs]
    by_cases hij : i = j
    · subst hij
      obtain rfl : o = x := Option.some.inj (ho.symm.trans hj)
      exact ⟨o', List.mem_set (List.getElem?_eq_some_iff.1 ho).1 _, haddr, hsame rfl hxr⟩
    · exact ⟨x, List.mem_of_getElem? ((List.getElem?_set_ne hij).trans hj), rfl, hxr⟩

/-- A block can be freed. -/
theorem kfree_live {m : PortMem.Memory} (hm : PortMem.Inv m) {b : BitVec 64} {size : Nat} (h : m.live b = some size) :
    PortMem.kfree ⟨b, 0⟩ m = some { m with live := Function.update m.live b none } := by
  have hb : b ≠ 0 := by
    rintro rfl
    rw [hm.nonnull] at h
    cases h
  have hsome : (m.live b).isSome := by rw [h]; rfl
  rw [PortMem.kfree, PortMem.portMemFree, PortMem.addr_block, if_pos hb, PortMem.ioFree, if_pos ⟨rfl, hsome⟩]

/-- An object that has been released is only returned from. -/
theorem call_released {s s' : State T} {i : Nat} {o : Object T} {a : Kref.Act T} (hi : Inv s) (ho : s.objs[i]? = some o)
    (hrel : o.Released) (h : call s i a = some s') : Inv s' ∧ a.touches = false ∧ a.isRelease = false := by
  obtain ⟨o₁, r, mem, ho₁, hr, hmem, rfl⟩ := call_cases h
  obtain rfl : o = o₁ := Option.some.inj (ho.symm.trans ho₁)
  have hom := List.mem_of_getElem? ho
  obtain ⟨hspent, htouch, hno⟩ := Kref.spent_step (hi.spent o hom hrel) hr
  obtain rfl : mem = s.mem := by
    rcases hmem with ⟨hyes, -⟩ | ⟨-, hm⟩
    · rw [hno] at hyes
      cases hyes
    · exact hm
  have hrel' : (o.after r).Released := (Kref.released_step hr).2 (.inl hrel)
  have hkref : r.kref = s.krefs o.kref := Kref.kref_untouched hr htouch
  rw [hkref, Function.update_eq_self]
  refine ⟨hi.replace ho hi.mem rfl rfl (fun j x _ _ _ => ⟨rfl, rfl⟩) (fun hn => absurd hrel' hn) (fun hn => absurd hrel' hn)
    (fun _ => ⟨hspent.held, hspent.tested⟩) (Kref.consumed_step (hi.consumed o hom) hr) fun b hb => ⟨hb, fun _ hn => absurd hrel hn⟩,
    htouch, hno⟩

/-- A call on an object that has not been released finds its block. If it is the
one of `release`, the block is freed. -/
theorem call_live {s s' : State T} {i : Nat} {o : Object T} {a : Kref.Act T} (hi : Inv s) (hb : o.held.card ≤ 2 ^ 32)
    (ho : s.objs[i]? = some o) (hlive : ¬ o.Released) (h : call s i a = some s') : Inv s' := by
  obtain ⟨o₁, r, mem, ho₁, hr, hmem, rfl⟩ := call_cases h
  obtain rfl : o = o₁ := Option.some.inj (ho.symm.trans ho₁)
  have hom := List.mem_of_getElem? ho
  obtain ⟨size, hsize, hroom⟩ := hi.block o hom hlive
  have hrel : (o.after r).Released ↔ a.isRelease = true := by
    rw [Object.Released, Object.after, Kref.released_step hr]
    exact or_iff_right hlive
  have hrefs : (⟨mem, Function.update s.krefs o.kref r.kref, s.objs.set i (o.after r)⟩ : State T).refs (o.after r) = r :=
    congrArg (fun k => (⟨k, r.held, r.puts⟩ : Kref.State T)) (Function.update_self ..)
  have hinv : Kref.Inv r := Kref.inv_step (hi.counted o hom hlive) hb hr
  -- The memory stays as it is, or the object's block goes.
  have hfree : PortMem.Inv mem ∧ (∀ b, b ≠ o.addr → mem.live b = s.mem.live b) ∧
      (a.isRelease = true → mem.live o.addr = none) ∧ (a.isRelease = false → mem = s.mem) := by
    rcases hmem with ⟨hyes, hm⟩ | ⟨hno, rfl⟩
    · rw [kfree_live hi.mem hsize, Option.some.injEq] at hm
      subst hm
      exact ⟨hi.mem.free, fun b hne => Function.update_of_ne hne _ _, fun _ => Function.update_self ..,
        fun hno => absurd (hno.symm.trans hyes) Bool.false_ne_true⟩
    · exact ⟨hi.mem, fun _ _ => rfl, fun hyes => absurd (hno.symm.trans hyes) Bool.false_ne_true, fun _ => rfl⟩
  obtain ⟨hm, hkeep, hgone, hsame⟩ := hfree
  have hapart : ∀ j x, j ≠ i → s.objs[j]? = some x → ¬ x.Released → x.addr ≠ o.addr := fun j x hj hx hxr he =>
    hj (hi.sole j i x o hx ho hxr hlive he)
  refine hi.replace ho hm rfl rfl (fun j x hj hx hxr => ⟨hkeep _ (hapart j x hj hx hxr), ?_⟩) (fun _ => hlive)
    (fun hn => ⟨hrefs.symm ▸ hinv, ?_⟩) (fun hyes => ?_) (Kref.consumed_step (hi.consumed o hom) hr) fun b hbl => ?_
  · obtain ⟨n, hn, hroom'⟩ := hi.block x (List.mem_of_getElem? hx) hxr
    exact Function.update_of_ne (kref_ne hi.mem hn hroom' hsize hroom (hapart j x hj hx hxr)) _ _
  · have hno : a.isRelease = false := by simpa using mt hrel.2 hn
    rw [hsame hno]
    exact ⟨size, hsize, hroom⟩
  · have hyes := hrel.1 hyes
    rw [hrefs]
    cases a with
    | release j => exact (Kref.release_spent (hi.counted o hom hlive) hr).1
    | _ => cases hyes
  · cases hyes : a.isRelease with
    | true =>
      have hne : b ≠ o.addr := by
        rintro rfl
        exact hbl (hgone hyes)
      exact ⟨hkeep b hne ▸ hbl, fun he => absurd he hne⟩
    | false =>
      exact ⟨hsame hyes ▸ hbl, fun _ _ hr => absurd (hyes.symm.trans (hrel.1 hr)) Bool.false_ne_true⟩

/-! ## Whole runs -/

/-- At most `n` references to each object are held at once. -/
def AtMost (n : Nat) (tr : List (Tr (State T) (Act T))) : Prop := ∀ x ∈ tr, ∀ o ∈ x.pre.objs, o.held.card ≤ n

theorem inv_step {s s' : State T} {a : Act T} (hi : Inv s) (hb : ∀ o ∈ s.objs, o.held.card ≤ 2 ^ 32)
    (h : Step s a s') : Inv s' := by
  cases a with
  | create t size flags off p =>
    obtain rfl : create s t size flags off p = s' := Option.some.inj h.exec
    by_cases hp : p = 0
    · rw [hp, create_null]
      exact hi
    · obtain ⟨hf, hroom⟩ := h.fresh t size flags off p rfl hp
      exact inv_create hi hp hf hroom
  | call i a =>
    obtain ⟨o, -, -, ho, -⟩ := call_cases h.exec
    by_cases hr : o.Released
    · exact (call_released hi ho hr h.exec).1
    · exact call_live hi (hb o (List.mem_of_getElem? ho)) ho hr h.exec

theorem run_inv {bytes : BitVec 64 → PortMem.Byte} {krefs : BitVec 64 → Kref} {tr : List (Tr (State T) (Act T))}
    {s : State T} (hr : Run Step (init bytes krefs) tr s) (hb : AtMost (2 ^ 32) tr) :
    Inv s ∧ ∀ x ∈ tr, Inv x.pre ∧ Step x.pre x.act x.post ∧ Inv x.post :=
  hr.inv_of_cond Inv (fun s _ => ∀ o ∈ s.objs, o.held.card ≤ 2 ^ 32) (inv_init bytes krefs)
    (fun _ _ _ hi hc h => inv_step hi hc h) hb

/-- The step is the call of `release` on the `i`-th object. -/
def Act.releases (i : Nat) : Act T → Bool
  | .call j a => j = i ∧ a.isRelease
  | .create .. => false

omit [DecidableEq T] in
theorem releases_iff {i : Nat} {a : Act T} : a.releases i = true ↔ ∃ b, a = .call i b ∧ b.isRelease = true := by
  cases a with
  | create => simp [Act.releases]
  | call j b =>
    simp only [Act.releases, decide_eq_true_eq, Act.call.injEq]
    constructor
    · rintro ⟨rfl, hb⟩
      exact ⟨b, ⟨rfl, rfl⟩, hb⟩
    · rintro ⟨_, ⟨rfl, rfl⟩, hb⟩
      exact ⟨rfl, hb⟩

/-- The `i`-th object has been released. -/
def Gone (i : Nat) (s : State T) : Prop := ∃ o, s.objs[i]? = some o ∧ o.Released

theorem gone_step {s s' : State T} {i : Nat} {a : Act T} (h : Step s a s') (hg : Gone i s ∨ a.releases i = true) :
    Gone i s' := by
  cases a with
  | create t size flags off p =>
    obtain rfl : create s t size flags off p = s' := Option.some.inj h.exec
    obtain ⟨o, ho, hr⟩ := hg.resolve_right (by simp [Act.releases])
    by_cases hp : p = 0
    · rw [hp, create_null]
      exact ⟨o, ho, hr⟩
    · rw [create_eq s t size flags off hp]
      exact ⟨o, (List.getElem?_append_left (List.getElem?_eq_some_iff.1 ho).1).trans ho, hr⟩
  | call j a =>
    obtain ⟨o, r, mem, ho, hr, -, rfl⟩ := call_cases h.exec
    by_cases hij : j = i
    · subst hij
      refine ⟨o.after r, List.getElem?_set_self (List.getElem?_eq_some_iff.1 ho).1, ?_⟩
      apply (Kref.released_step hr).2
      rcases hg with ⟨o', ho', hrel⟩ | hrel
      · obtain rfl := Option.some.inj (ho.symm.trans ho')
        exact .inl hrel
      · obtain ⟨b, hb, hbr⟩ := releases_iff.1 hrel
        cases hb
        exact .inr hbr
    · rcases hg with ⟨o', ho', hrel⟩ | hrel
      · exact ⟨o', (List.getElem?_set_ne hij).trans ho', hrel⟩
      · obtain ⟨b, hb, -⟩ := releases_iff.1 hrel
        cases hb
        exact absurd rfl hij

/-- What the counted references ask of the memory. -/
structure Safe (tr : List (Tr (State T) (Act T))) (s : State T) : Prop where
  /-- A call that counts or frees finds the object's block, with no other object in it. -/
  found : ∀ x ∈ tr, ∀ i a, x.act = .call i a → a.touches = true ∨ a.isRelease = true →
    ∃ o, x.pre.objs[i]? = some o ∧ x.pre.mem.live o.addr ≠ none ∧
      ∀ j o', x.pre.objs[j]? = some o' → o'.addr = o.addr → j = i ∨ o'.Released
  once : ∀ i, tr.countP (·.act.releases i) ≤ 1
  /-- A `release` that is due can free the object. -/
  frees : ∀ i o j r, s.objs[i]? = some o → Kref.step (s.refs o) (.release j) = some r →
    ∃ s', Step s (.call i (.release j)) s'
  /-- What is in memory are the objects with a reference to them, or with their `release` due. -/
  kept : ∀ b, s.mem.live b ≠ none ↔
    ∃ o ∈ s.objs, o.addr = b ∧ (o.held ≠ 0 ∨ ∃ p ∈ o.puts, p.left = 0 ∧ p.pc = .tested 1)

/-- A call that counts or frees is on an object that has not been released. -/
theorem live_of_call {s s' : State T} {i : Nat} {a : Kref.Act T} (hi : Inv s) (h : call s i a = some s')
    (ha : a.touches = true ∨ a.isRelease = true) : ∃ o, s.objs[i]? = some o ∧ ¬ o.Released := by
  obtain ⟨o, -, -, ho, -⟩ := call_cases h
  refine ⟨o, ho, fun hr => ?_⟩
  obtain ⟨-, ht, hn⟩ := call_released hi ho hr h
  rw [ht, hn] at ha
  exact ha.elim Bool.false_ne_true Bool.false_ne_true

omit [DecidableEq T] in
theorem kept_iff {s : State T} (hi : Inv s) (b : BitVec 64) : s.mem.live b ≠ none ↔
    ∃ o ∈ s.objs, o.addr = b ∧ (o.held ≠ 0 ∨ ∃ p ∈ o.puts, p.left = 0 ∧ p.pc = .tested 1) := by
  constructor
  · intro hb
    obtain ⟨o, ho, hob, hr⟩ := hi.owned b hb
    refine ⟨o, ho, hob, or_iff_not_imp_left.2 fun hheld => ?_⟩
    -- Some put took the last reference; it has tested, and not yet called `release`.
    obtain ⟨p, hp, h0⟩ := hi.consumed o ho (not_not.1 hheld)
    have hres : p.result = 1 := if_pos h0
    rcases (hi.counted o ho hr).result p hp with hpc | hpc
    · exact ⟨p, hp, h0, hres ▸ hpc⟩
    · exact absurd ⟨p, hp, hres ▸ hpc⟩ hr
  · rintro ⟨o, ho, rfl, hdue⟩
    have hr : ¬ o.Released := fun hr => by
      have hspent := hi.spent o ho hr
      rcases hdue with hheld | ⟨p, hp, -, hpc⟩
      · exact hheld hspent.held
      · exact absurd (hspent.tested p hp 1 hpc) (by decide)
    obtain ⟨size, hsize, -⟩ := hi.block o ho hr
    rw [hsize]
    exact Option.some_ne_none size

/-- Objects with a `kref` never dangle and never leak, in every run that holds at
most `2 ^ 32` references to one at once: whatever threads do to whichever
objects, and wherever new objects are put. -/
theorem krefs_never_dangle (bytes : BitVec 64 → PortMem.Byte) (krefs : BitVec 64 → Kref)
    (tr : List (Tr (State T) (Act T))) (s : State T) (hr : Run Step (init bytes krefs) tr s)
    (hb : AtMost (2 ^ 32) tr) : Safe tr s := by
  obtain ⟨hi, hall⟩ := run_inv hr hb
  refine ⟨fun x hx i a hact ha => ?_, fun i => ?_, fun i o j r ho hrel => ?_, kept_iff hi⟩
  · obtain ⟨hpre, hst, -⟩ := hall x hx
    have hexec := hst.exec
    rw [hact] at hexec
    obtain ⟨o, ho, hlive⟩ := live_of_call hpre hexec ha
    obtain ⟨size, hsize, -⟩ := hpre.block o (List.mem_of_getElem? ho) hlive
    refine ⟨o, ho, by simp [hsize], fun j o' ho' he => ?_⟩
    by_contra hno
    rw [not_or] at hno
    exact hno.1 (hpre.sole j i o' o ho' ho hno.2 hlive he)
  · apply countP_le_one
    rintro tr₁ x tr₂ rfl hx y hy
    obtain ⟨-, hst, hrest⟩ := hr.split
    have hgone := (hrest.inv (Gone i) (gone_step hst (.inr hx)) fun _ _ _ hg hst => gone_step hst (.inl hg)).2 y hy
    by_contra hyes
    obtain ⟨b, hact, hb⟩ := releases_iff.1 (by simpa using hyes)
    obtain ⟨hpre, hst', -⟩ := hall y (by simp [hy])
    have hexec := hst'.exec
    rw [hact] at hexec
    obtain ⟨o, ho, hlive⟩ := live_of_call hpre hexec (.inr hb)
    obtain ⟨o', ho', hrel⟩ := hgone.1
    rw [ho, Option.some.injEq] at ho'
    exact hlive (ho' ▸ hrel)
  · have hom := List.mem_of_getElem? ho
    have hlive : ¬ o.Released := fun hro => Bool.false_ne_true (Kref.spent_step (hi.spent o hom hro) hrel).2.2.symm
    obtain ⟨size, hsize, -⟩ := hi.block o hom hlive
    obtain ⟨s', hs'⟩ : ∃ s', call s i (.release j) = some s' := by
      simp [call, ho, hrel, released, Kref.Act.isRelease, release_eq, kfree_live hi.mem hsize]
    exact ⟨s', step_call hs'⟩

/-- An object with one reference. -/
def oneObject : State Unit := create (init (fun _ => 0) fun _ => ⟨⟨0⟩⟩) () 16 0 8 0x1000

/-- The reference has been put, and `release` not yet been called. -/
def onePut : State Unit :=
  ⟨oneObject.mem, Function.update oneObject.krefs (0x1000 + 8) ⟨⟨0⟩⟩, [⟨0x1000, 8, 0, [⟨(), 0, .tested 1⟩]⟩]⟩

/-- Then the object is freed. -/
theorem krefs_never_dangle_one : ∃ tr s, Run Step (init (fun _ => 0) fun _ => ⟨⟨0⟩⟩) tr s ∧
    tr.map (·.act) = [.create () 16 0 8 0x1000, .call 0 (.put ()), .call 0 (.release 0)] ∧ Safe tr s ∧
    s.mem.live 0x1000 = none := by
  have h₁ : Step (init (fun _ => 0) fun _ => ⟨⟨0⟩⟩) (.create () 16 0 8 0x1000) oneObject := by
    refine ⟨rfl, fun t size flags off p ha _ => ?_⟩
    cases ha
    exact ⟨⟨by decide, rfl, fun b n hb => by cases hb⟩, by decide⟩
  have h₂ : call oneObject 0 (.put ()) = some onePut := rfl
  obtain ⟨s, h₃, hnone⟩ : ∃ s, call onePut 0 (.release 0) = some s ∧ s.mem.live 0x1000 = none := ⟨_, rfl, rfl⟩
  have hr := Run.snoc (.snoc (.snoc .nil h₁) (step_call h₂)) (step_call h₃)
  refine ⟨_, s, hr, rfl, krefs_never_dangle _ _ _ _ hr fun x hx => ?_, hnone⟩
  simp only [List.nil_append, List.cons_append, List.mem_cons, List.not_mem_nil, or_false] at hx
  rcases hx with rfl | rfl | rfl
  · simp [init]
  · simp [oneObject, create_eq, init]
  · simp [onePut]

end KrefObject

end PortingKit.Linux
