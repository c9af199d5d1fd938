import PortingKit.Lib.Loop
import PortingKit.Linux.Kernel
import PortingKit.Linux.ListRefine
/-!
# The loops of linux/list.h

A loop body changes a memory `M` whose list heads are read through `links`. The
number of rounds is bounded by `fuel`; the results hold for every bound that is
no less than the length of the list.
-/
open PortingKit.Lib

namespace PortingKit.Linux

variable {α M : Type} [DecidableEq α] [Zero α]

/-- `pos != (head)`. -/
def listMore (head : α) (s : α × M) : Bool := s.1 ≠ head

/-- `body`, then `pos = pos->next`. -/
def eachRound (links : M → Heap α) (body : α → M → Option M) : α × M → Option (α × M)
  | (pos, m) => do
    let m ← body pos m
    let c ← (links m).load pos
    return (c.next, m)

/-- `list_for_each(pos, head) body`. -/
def listForEach (fuel : Nat) (head : α) (links : M → Heap α) (body : α → M → Option M) (m : M) : Option M := do
  let c ← (links m).load head
  let (_, m) ← loop (listMore head) (eachRound links body) fuel (c.next, m)
  return m

/-- `body`, then `pos = n, n = pos->next`. -/
def safeRound (links : M → Heap α) (body : α → M → Option M) : α × α × M → Option (α × α × M)
  | (pos, n, m) => do
    let m ← body pos m
    let pos := n
    let c ← (links m).load pos
    return (pos, c.next, m)

/-- `list_for_each_safe(pos, n, head) body`. -/
def listForEachSafe (fuel : Nat) (head : α) (links : M → Heap α) (body : α → M → Option M) (m : M) : Option M := do
  let c ← (links m).load head
  let pos := c.next
  let c ← (links m).load pos
  let (_, _, m) ← loop (listMore head) (safeRound links body) fuel (pos, c.next, m)
  return m

/-- `list_entry`. -/
def listEntry (ptr k : BitVec 64) : BitVec 64 := containerOf ptr k

/-- `list_first_entry`. -/
def listFirstEntry (ptr k : BitVec 64) (h : Heap (BitVec 64)) : Option (BitVec 64) := do
  let c ← h.load ptr
  return listEntry c.next k

/-- `&pos->member != (head)`, with the member at offset `k`. -/
def entryMore (k head : BitVec 64) (s : BitVec 64 × M) : Bool := s.1 + k ≠ head

/-- `body`, then `pos = list_entry(pos->member.next, typeof(*pos), member)`. -/
def entryRound (k : BitVec 64) (links : M → Heap (BitVec 64)) (body : BitVec 64 → M → Option M) :
    BitVec 64 × M → Option (BitVec 64 × M)
  | (pos, m) => do
    let m ← body pos m
    let c ← (links m).load (pos + k)
    return (listEntry c.next k, m)

/-- `list_for_each_entry(pos, head, member) body`. -/
def listForEachEntry (fuel : Nat) (k head : BitVec 64) (links : M → Heap (BitVec 64))
    (body : BitVec 64 → M → Option M) (m : M) : Option M := do
  let pos ← listFirstEntry head k (links m)
  let (_, m) ← loop (entryMore k head) (entryRound k links body) fuel (pos, m)
  return m

/-! ## Walking a list -/

theorem headD_mem {α : Type} {hd : α} (xs ys : List α) : ys.headD hd ∈ hd :: (xs ++ ys) := by
  cases ys <;> simp

/-- Reading the link of a cell of a list. -/
theorem Lists.load {h : Heap α} {L : Lists α} {hd c : α} {xs : List α} (hs : L.seq hd = some xs)
    (hc : c ∈ hd :: xs) : h.load c = some (h c) := Heap.load_of_ne (L.nonnull hs c hc)

/-- What is left of a walk with `ys` still to visit: visiting them gives what the whole list gives. -/
def Left (h : Heap α) (hd : α) (xs : List α) (links : M → Heap α) (body : α → M → M) (m : M) (ys : List α) :
    α × M → Prop
  | (pos, m') => pos = ys.headD hd ∧ links m' = h ∧ (∃ ps, xs = ps ++ ys) ∧
    ys.foldl (fun m p => body p m) m' = xs.foldl (fun m p => body p m) m

/-- One round. -/
theorem left_round {h : Heap α} {L : Lists α} {hd y : α} {xs ys : List α} (hw : WellFormed h L)
    (hs : L.seq hd = some xs) {links : M → Heap α} {body : α → M → M} (hlinks : ∀ p m, links (body p m) = links m)
    {m : M} {s : α × M} (hl : Left h hd xs links body m (y :: ys) s) :
    listMore hd s = true ∧
      ∃ s', eachRound links (fun p m => some (body p m)) s = some s' ∧ Left h hd xs links body m ys s' := by
  obtain ⟨pos, m'⟩ := s
  obtain ⟨hpos, hm', ⟨ps, hps⟩, hfold⟩ := hl
  obtain rfl : pos = y := hpos
  have hring := hw hd xs hs
  have hne : pos ≠ hd := by
    rintro rfl
    exact (List.nodup_cons.1 (L.nodup hs)).1 (by simp [hps])
  have hmem : pos ∈ hd :: xs := by simp [hps]
  have hlinks' : links (body pos m') = h := by rw [hlinks, hm']
  refine ⟨by simpa [listMore] using hne, ((h pos).next, body pos m'), ?_, ?_, hlinks', ⟨ps ++ [pos], by simp [hps]⟩,
    hfold⟩
  · simp only [eachRound, hlinks', Lists.load hs hmem, Option.bind_eq_bind, Option.bind_some, Option.pure_def]
  · rw [hps] at hring
    exact ring_next_node hring

/-- A body that leaves the links alone runs on each node of the list in order. -/
theorem listForEach_eq_foldl {h : Heap α} {L : Lists α} {hd : α} {xs : List α} (hw : WellFormed h L)
    (hs : L.seq hd = some xs) {links : M → Heap α} {body : α → M → M} (hlinks : ∀ p m, links (body p m) = links m)
    {m : M} (hm : links m = h) {fuel : Nat} (hf : xs.length ≤ fuel) :
    listForEach fuel hd links (fun p m => some (body p m)) m = some (xs.foldl (fun m p => body p m) m) := by
  have hstart : Left h hd xs links body m xs ((h hd).next, m) := ⟨ring_next_head (hw hd xs hs), hm, ⟨[], rfl⟩, rfl⟩
  have hstop : ∀ s, Left h hd xs links body m [] s → listMore hd s = false := by
    rintro ⟨pos, m'⟩ ⟨hpos, -⟩
    simpa [listMore] using hpos
  obtain ⟨⟨pos, m'⟩, ⟨-, -, -, hres⟩, hl⟩ :=
    loop_consume _ hstop (fun y ys s => left_round hw hs hlinks) xs _ hstart
  obtain rfl : m' = xs.foldl (fun m p => body p m) m := hres
  simp only [listForEach, hm, Lists.load hs List.mem_cons_self, hl fuel hf, Option.bind_eq_bind, Option.bind_some,
    Option.pure_def]

/-- The walk over the containers is the walk over the nodes, in any memory. -/
theorem listForEachEntry_eq (fuel : Nat) (k head : BitVec 64) (links : M → Heap (BitVec 64))
    (body : BitVec 64 → M → Option M) (m : M) :
    listForEachEntry fuel k head links body m =
      listForEach fuel head links (fun node => body (containerOf node k)) m := by
  -- The loop variable is the node of the other walk, shifted.
  let f : BitVec 64 × M → BitVec 64 × M := fun (node, m) => (containerOf node k, m)
  have hcond : ∀ s, entryMore k head (f s) = listMore head s := by
    rintro ⟨node, m⟩
    simp only [f, entryMore, listMore, member_containerOf]
  have hround : ∀ s, entryRound k links body (f s) =
      (eachRound links (fun node => body (containerOf node k)) s).map f := by
    rintro ⟨node, m⟩
    simp only [f, entryRound, eachRound, member_containerOf]
    cases body (containerOf node k) m with
    | none => rfl
    | some m' =>
      simp only [Option.bind_eq_bind, Option.bind_some]
      cases (links m').load node <;> rfl
  have hloop := fun c : BitVec 64 => loop_map f hcond hround fuel (c, m)
  unfold listForEachEntry listForEach listFirstEntry
  cases (links m).load head with
  | none => rfl
  | some c =>
    simp only [Option.bind_eq_bind, Option.bind_some, Option.pure_def, listEntry]
    rw [hloop c.next]
    cases loop (listMore head) (eachRound links fun node => body (containerOf node k)) fuel (c.next, m) <;> rfl

/-! ## The containers -/

/-- `list_for_each_entry` runs its body on the containers of the nodes that
`list_for_each` visits, once each and in order, wherever the head is. It never
runs it on the address computed from the head. -/
theorem list_for_each_entry_visits {h : Heap (BitVec 64)} {L : Lists (BitVec 64)} {hd k : BitVec 64}
    {xs : List (BitVec 64)} (hw : WellFormed h L) (hs : L.seq hd = some xs) {links : M → Heap (BitVec 64)}
    {body : BitVec 64 → M → M} (hlinks : ∀ p m, links (body p m) = links m) {m : M} (hm : links m = h) {fuel : Nat}
    (hf : xs.length ≤ fuel) :
    listForEach fuel hd links (fun node m => some (body node m)) m = some (xs.foldl (fun m node => body node m) m) ∧
      listForEachEntry fuel k hd links (fun pos m => some (body pos m)) m =
        some ((xs.map (containerOf · k)).foldl (fun m pos => body pos m) m) ∧
      (xs.map (containerOf · k)).Nodup ∧ containerOf hd k ∉ xs.map (containerOf · k) := by
  have hnodup := L.nodup hs
  have hinj : Function.Injective (containerOf · k : BitVec 64 → BitVec 64) := fun p q => containerOf_inj.1
  rw [List.nodup_cons] at hnodup
  refine ⟨listForEach_eq_foldl hw hs hlinks hm hf, ?_, hnodup.2.map hinj, ?_⟩
  · rw [listForEachEntry_eq, List.foldl_map]
    exact listForEach_eq_foldl hw hs (fun p => hlinks (containerOf p k)) hm hf
  · rw [List.mem_map_of_injective hinj]
    exact hnodup.1

/-- Two nodes under a head at an address below the offset: what would be its container wraps below zero and is
not visited. -/
theorem list_for_each_entry_visits_low_head : ∃ h : Heap (BitVec 64),
    listForEachEntry 2 (16 : BitVec 64) 8 Prod.snd (fun pos m => some (m.1 ++ [pos], m.2))
      (([] : List (BitVec 64)), h) = some ([0x60, 0x20], h) ∧
    containerOf (8 : BitVec 64) (16 : BitVec 64) = 0xfffffffffffffff8 := by
  let h : Heap (BitVec 64) := fun c => if c = 8 then ⟨0x70, 0x30⟩ else if c = 0x70 then ⟨0x30, 8⟩ else ⟨8, 0x70⟩
  let L : Lists (BitVec 64) := Lists.empty.set 8 [0x70, 0x30] (by simp) (by simp) (by simp [Lists.empty])
  have hw : WellFormed h L := by
    intro hd xs hs
    rcases update_eq_some hs with ⟨rfl, rfl⟩ | ⟨-, hnone⟩
    · simp [Lib.Ring, Linked, h]
    · cases hnone
  have hs : L.seq 8 = some [0x70, 0x30] := by simp [L, Lists.set]
  have hvisits := @list_for_each_entry_visits _ h L 8 16 [0x70, 0x30] hw hs Prod.snd
    (fun pos m => (m.1 ++ [pos], m.2)) (fun _ _ => rfl) (([] : List (BitVec 64)), h) rfl 2 (by simp)
  refine ⟨h, ?_, by decide⟩
  rw [hvisits.2.1]
  rfl

/-! ## Removing the current node -/

/-- What a body of `list_for_each_safe` does to the node it visits. -/
inductive Choice where
  | keep
  | del
  | move
  | moveTail
  deriving DecidableEq

namespace Choice

/-- The node is kept, or deleted, or deleted and added to the list `other`. -/
def exec (pos other : α) (h : Heap α) : Choice → Option (Heap α)
  | keep => some h
  | del => listDel pos h
  | move => do listAdd pos other (← listDel pos h)
  | moveTail => do listAddTail pos other (← listDel pos h)

/-- What is left of the current node in its own list. -/
def rest (pos : α) : Choice → List α
  | keep => [pos]
  | del | move | moveTail => []

/-- The other list after it. -/
def place (pos : α) (ys : List α) : Choice → List α
  | keep | del => ys
  | move => pos :: ys
  | moveTail => ys ++ [pos]

end Choice

/-- A body that chooses by the nodes seen so far, and records them. -/
def visit (choose : List α → Choice) (other pos : α) : List α × Heap α → Option (List α × Heap α)
  | (seen, h) => do
    let seen := seen ++ [pos]
    let h ← (choose seen).exec pos other h
    return (seen, h)

/-- The nodes still to come, each with what will be chosen for it. -/
def choices (choose : List α → Choice) (seen : List α) : List α → List (α × Choice)
  | [] => []
  | x :: xs => (x, choose (seen ++ [x])) :: choices choose (seen ++ [x]) xs

/-- The kept nodes, in order. -/
def kept (cs : List (α × Choice)) : List α := (cs.filter (·.2 = .keep)).map (·.1)

/-- The other list after all the insertions. -/
def placed (ys : List α) (cs : List (α × Choice)) : List α := cs.foldl (fun ys p => p.2.place p.1 ys) ys

omit [DecidableEq α] [Zero α] in
theorem kept_cons (x : α) (c : Choice) (cs : List (α × Choice)) : kept ((x, c) :: cs) = c.rest x ++ kept cs := by
  cases c <;> rfl

/-- One body: both lists stay well formed, the current node where its choice puts it. -/
theorem Choice.exec_spec {h : Heap α} {L : Lists α} {hd other pos : α} {l₁ l₂ ys : List α} (hw : WellFormed h L)
    (hs : L.seq hd = some (l₁ ++ pos :: l₂)) (ho : L.seq other = some ys) (hne : hd ≠ other) (c : Choice) :
    ∃ h' L', c.exec pos other h = some h' ∧ WellFormed h' L' ∧ L'.seq =
      Function.update (Function.update L.seq hd (some (l₁ ++ c.rest pos ++ l₂))) other (some (c.place pos ys)) := by
  obtain ⟨L₁, hL₁, hu⟩ := L.exists_remove hs
  obtain ⟨h₁, he₁, hw₁, -⟩ := exec_del hw hs hL₁
  have ho₁ : L₁.seq other = some ys := by rw [hL₁, Function.update_of_ne hne.symm, ho]
  have hpos : pos ≠ 0 := L.nonnull hs pos (by simp)
  cases c with
  | keep =>
    refine ⟨h, L, rfl, hw, ?_⟩
    simp only [rest, place, List.append_assoc, List.singleton_append]
    rw [← hs, Function.update_eq_self, ← ho, Function.update_eq_self]
  | del =>
    refine ⟨h₁, L₁, he₁, hw₁, ?_⟩
    simp only [rest, place, List.append_nil]
    rw [hL₁, ← ho₁, hL₁, Function.update_eq_self]
  | move =>
    obtain ⟨L₂, hL₂⟩ := L₁.exists_insert hpos hu ho₁ (.refl (pos :: ys))
    obtain ⟨h₂, he₂, hw₂, -⟩ := exec_add hw₁ hpos hu ho₁ hL₂
    refine ⟨h₂, L₂, ?_, hw₂, ?_⟩
    · simp only [exec, he₁, Option.bind_eq_bind, Option.bind_some, he₂]
    · simp only [hL₂, hL₁, rest, place, List.append_nil]
  | moveTail =>
    obtain ⟨L₂, hL₂⟩ := L₁.exists_insert hpos hu ho₁ (List.perm_append_singleton pos ys)
    obtain ⟨h₂, he₂, hw₂, -⟩ := exec_addTail hw₁ hpos hu ho₁ hL₂
    refine ⟨h₂, L₂, ?_, hw₂, ?_⟩
    · simp only [exec, he₁, Option.bind_eq_bind, Option.bind_some, he₂]
    · simp only [hL₂, hL₁, rest, place, List.append_nil]

/-- Between rounds, with `rs` still to visit and `n` read ahead: `K` is kept so
far and `O` is the other list. What the choices to come will keep and place
completes the result. -/
def Between (choose : List α → Choice) (L : Lists α) (hd other : α) (xs ys rs : List α) :
    α × α × List α × Heap α → Prop
  | (pos, n, seen, h) => pos = rs.headD hd ∧ n = (h pos).next ∧ seen ++ rs = xs ∧ ∃ L' K O, WellFormed h L' ∧
    L'.seq = Function.update (Function.update L.seq hd (some (K ++ rs))) other (some O) ∧
    K ++ kept (choices choose seen rs) = kept (choices choose [] xs) ∧
    placed O (choices choose seen rs) = placed ys (choices choose [] xs)

omit [Zero α] in
theorem update_twice {f : α → Option (List α)} {hd other : α} (hne : hd ≠ other) (a b c d : Option (List α)) :
    Function.update (Function.update (Function.update (Function.update f hd a) other b) hd c) other d =
      Function.update (Function.update f hd c) other d := by
  rw [Function.update_comm hne, Function.update_idem, Function.update_comm hne.symm, Function.update_idem]

/-- One round. -/
theorem between_round {choose : List α → Choice} {L : Lists α} {hd other x : α} {xs ys rs : List α} (hne : hd ≠ other)
    {s : α × α × List α × Heap α} (hb : Between choose L hd other xs ys (x :: rs) s) :
    listMore hd s = true ∧
      ∃ s', safeRound Prod.snd (visit choose other) s = some s' ∧ Between choose L hd other xs ys rs s' := by
  obtain ⟨pos, n, seen, h⟩ := s
  obtain ⟨hpos, hn, hseen, L', K, O, hw, hL', hkept, hplaced⟩ := hb
  obtain rfl : pos = x := hpos
  have hs : L'.seq hd = some (K ++ pos :: rs) := by
    rw [hL', Function.update_of_ne hne, Function.update_self]
  have ho : L'.seq other = some O := by
    rw [hL', Function.update_self]
  -- `n` was read before the body ran, so it is the next node whatever the body does to `pos`.
  have hnext : n = rs.headD hd := hn.trans (ring_next_node (hw hd _ hs))
  obtain ⟨h', L'', he, hw', hL''⟩ := (choose (seen ++ [pos])).exec_spec hw hs ho hne
  have hs' : L''.seq hd = some (K ++ (choose (seen ++ [pos])).rest pos ++ rs) := by
    rw [hL'', Function.update_of_ne hne, Function.update_self]
  have hload : h'.load n = some (h' n) := by
    rw [hnext]
    exact Lists.load hs' (headD_mem _ rs)
  have hpos_ne : pos ≠ hd := by
    rintro rfl
    exact (List.nodup_cons.1 (L'.nodup hs)).1 (by simp)
  refine ⟨by simpa [listMore] using hpos_ne, (n, (h' n).next, seen ++ [pos], h'), ?_, hnext, rfl,
    by simpa using hseen, L'', K ++ (choose (seen ++ [pos])).rest pos, (choose (seen ++ [pos])).place pos O, hw', ?_, ?_,
    hplaced⟩
  · simp only [safeRound, visit, he, hload, Option.bind_eq_bind, Option.bind_some, Option.pure_def]
  · rw [hL'', hL', update_twice hne]
  · rw [← hkept, choices, kept_cons, List.append_assoc]

/-- `list_for_each_safe` visits the nodes the list has at entry, each once and in
order, while its body removes them or moves them to another list. -/
theorem list_for_each_safe_tolerates {h : Heap α} {L : Lists α} {hd other : α} {xs ys : List α} (hw : WellFormed h L)
    (hs : L.seq hd = some xs) (ho : L.seq other = some ys) (hne : hd ≠ other) (choose : List α → Choice) :
    ∃ h' L', (∀ fuel, xs.length ≤ fuel →
        listForEachSafe fuel hd Prod.snd (visit choose other) ([], h) = some (xs, h')) ∧ WellFormed h' L' ∧
      L'.seq = Function.update (Function.update L.seq hd (some (kept (choices choose [] xs)))) other
        (some (placed ys (choices choose [] xs))) := by
  have hring := hw hd xs hs
  have hstart : Between choose L hd other xs ys xs ((h hd).next, (h (h hd).next).next, [], h) := by
    refine ⟨ring_next_head hring, rfl, rfl, L, [], ys, hw, ?_, rfl, rfl⟩
    rw [List.nil_append, ← hs, Function.update_eq_self, ← ho, Function.update_eq_self]
  have hstop : ∀ s, Between choose L hd other xs ys [] s → listMore hd s = false := by
    rintro ⟨pos, n, seen, h⟩ ⟨hpos, -⟩
    simpa [listMore] using hpos
  obtain ⟨⟨pos, n, seen, h'⟩, ⟨-, -, hseen, L', K, O, hw', hL', hkept, hplaced⟩, hl⟩ :=
    loop_consume _ hstop (fun x rs s => between_round hne) xs _ hstart
  obtain rfl : seen = xs := by simpa using hseen
  refine ⟨h', L', fun fuel hf => ?_, hw', ?_⟩
  · have hfirst : (h hd).next ∈ hd :: seen := (ring_closed hring (by simp)).1
    simp only [listForEachSafe, Lists.load hs List.mem_cons_self, Lists.load hs hfirst, hl fuel hf,
      Option.bind_eq_bind, Option.bind_some, Option.pure_def]
  · rw [hL', ← hkept, ← hplaced]
    rfl

/-- Of two nodes the first is moved to an empty list and the last is kept. -/
theorem list_for_each_safe_tolerates_move : ∃ h h' : Heap ℕ,
    listForEachSafe 2 1 Prod.snd (visit (fun seen => if seen = [2] then .move else .keep) 4) ([], h) =
      some ([2, 3], h') ∧ Ring (fun c => (h' c).next) (fun c => (h' c).prev) 1 [3] ∧
      Ring (fun c => (h' c).next) (fun c => (h' c).prev) 4 [2] := by
  let h : Heap ℕ := fun c => if c = 1 then ⟨2, 3⟩ else if c = 2 then ⟨3, 1⟩ else if c = 3 then ⟨1, 2⟩ else ⟨4, 4⟩
  let L : Lists ℕ := .two 1 4 [2, 3] [] (by decide) (by decide)
  have hw : WellFormed h L := Lists.wellFormed_two (by simp [Lib.Ring, Linked, h]) (by simp [Lib.Ring, Linked, h])
  have hs : L.seq 1 = some [2, 3] := rfl
  have ho : L.seq 4 = some [] := rfl
  obtain ⟨h', L', hloop, hw', hL'⟩ := list_for_each_safe_tolerates hw hs ho (by simp)
    (fun seen => if seen = [2] then .move else .keep)
  exact ⟨h, h', hloop 2 (Nat.le_refl 2), hw' 1 [3] (by rw [hL']; rfl), hw' 4 [2] (by rw [hL']; rfl)⟩

/-! ## Without reading ahead -/

/-- A body of `list_for_each` that deletes some of the nodes it visits. -/
def visitDel (deletes : List α → Bool) (pos : α) : List α × Heap α → Option (List α × Heap α) :=
  visit (fun seen => if deletes seen then .del else .keep) pos pos

/-- No node is deleted. -/
def KeepsAll (deletes : List α → Bool) (seen ys : List α) : Prop :=
  ∀ p ∈ choices (fun seen => if deletes seen then .del else .keep) seen ys, p.2 = .keep

omit [DecidableEq α] [Zero α] in
theorem keepsAll_cons {deletes : List α → Bool} {seen ys : List α} {y : α} :
    KeepsAll deletes seen (y :: ys) ↔ deletes (seen ++ [y]) = false ∧ KeepsAll deletes (seen ++ [y]) ys := by
  unfold KeepsAll
  rw [choices, List.forall_mem_cons]
  cases deletes (seen ++ [y]) <;> simp

/-- A deleted node points to NULL. -/
theorem del_next {h : Heap α} {L : Lists α} {hd y : α} {l₁ l₂ : List α} (hw : WellFormed h L)
    (hs : L.seq hd = some (l₁ ++ y :: l₂)) : ∃ h', listDel y h = some h' ∧ (h' y).next = 0 := by
  obtain ⟨hnext, hprev⟩ := ring_closed (hw hd _ hs) (c := y) (by simp)
  have hy : y ≠ 0 := L.nonnull hs y (by simp)
  obtain ⟨h', he, hn, -⟩ := listDel_links h hy (L.nonnull hs _ hprev) (L.nonnull hs _ hnext)
  exact ⟨h', he, (hn y).trans (if_pos rfl)⟩

/-- On NULL the round faults, whatever the body does. -/
theorem eachRound_null (deletes : List α → Bool) (seen : List α) (h : Heap α) :
    eachRound Prod.snd (visitDel deletes) (0, seen, h) = none := by
  have hnull : h.load 0 = none := if_pos rfl
  cases hdel : deletes (seen ++ [0])
  · simp [eachRound, visitDel, visit, hdel, Choice.exec, hnull]
  · simp [eachRound, visitDel, visit, hdel, Choice.exec, listDel, hnull]

/-- A walk with `ys` still to visit that has deleted nothing. -/
theorem each_ends_iff {h : Heap α} {L : Lists α} {hd : α} {xs : List α} (hw : WellFormed h L)
    (hs : L.seq hd = some xs) {deletes : List α → Bool} {r : α × List α × Heap α} (seen ys : List α)
    (hxs : seen ++ ys = xs) :
    Ends (listMore hd) (eachRound Prod.snd (visitDel deletes)) (ys.headD hd, seen, h) r ↔
      KeepsAll deletes seen ys ∧ r = (hd, xs, h) := by
  induction ys generalizing seen with
  | nil =>
    have hstop : listMore hd (([] : List α).headD hd, seen, h) = false := by simp [listMore]
    have hseen : seen = xs := by simpa using hxs
    rw [ends_stop hstop, hseen]
    exact ⟨fun he => ⟨nofun, he⟩, fun he => he.2⟩
  | cons y ys ih =>
    have hmem : y ∈ hd :: xs := by simp [← hxs]
    have hne : y ≠ hd := by
      rintro rfl
      exact (List.nodup_cons.1 (L.nodup hs)).1 (by simp [← hxs])
    have hmore : listMore hd ((y :: ys).headD hd, seen, h) = true := by simpa [listMore] using hne
    rw [keepsAll_cons]
    cases hdel : deletes (seen ++ [y]) with
    | false =>
      have hnext : (h y).next = ys.headD hd := by
        have hring := hw hd xs hs
        rw [← hxs] at hring
        exact ring_next_node hring
      have hround : eachRound Prod.snd (visitDel deletes) ((y :: ys).headD hd, seen, h) =
          some (ys.headD hd, seen ++ [y], h) := by
        simp [eachRound, visitDel, visit, hdel, Choice.exec, Lists.load hs hmem, hnext]
      rw [ends_round hmore hround, ih (seen ++ [y]) (by simpa using hxs)]
      simp
    | true =>
      -- `pos->next` is read from the deleted node, and the body runs on NULL.
      obtain ⟨h', he, hnull⟩ := del_next hw (show L.seq hd = some (seen ++ y :: ys) from hxs ▸ hs)
      have hload : h'.load y = some (h' y) := Heap.load_of_ne (L.nonnull hs y hmem)
      have hround : eachRound Prod.snd (visitDel deletes) ((y :: ys).headD hd, seen, h) =
          some (0, seen ++ [y], h') := by
        simp [eachRound, visitDel, visit, hdel, Choice.exec, he, hload, hnull]
      have hzero : listMore hd ((0 : α), seen ++ [y], h') = true := by
        have hhd := L.nonnull hs hd List.mem_cons_self
        simpa [listMore] using hhd.symm
      rw [ends_round hmore hround]
      simp only [Bool.true_eq_false, false_and, iff_false]
      exact not_ends_fault hzero (eachRound_null deletes (seen ++ [y]) h')

/-- `list_for_each` over a body that may delete. -/
theorem listForEach_ends_iff {h : Heap α} {L : Lists α} {hd : α} {xs : List α} (hw : WellFormed h L)
    (hs : L.seq hd = some xs) (deletes : List α → Bool) (r : List α × Heap α) :
    (∃ fuel, listForEach fuel hd Prod.snd (visitDel deletes) ([], h) = some r) ↔
      KeepsAll deletes [] xs ∧ r = (xs, h) := by
  have hends : ∀ p, Ends (listMore hd) (eachRound Prod.snd (visitDel deletes)) (xs.headD hd, [], h) (p, r) ↔
      KeepsAll deletes [] xs ∧ (p, r) = (hd, xs, h) := fun p => each_ends_iff hw hs [] xs rfl
  have hfirst : (h hd).next = xs.headD hd := ring_next_head (hw hd xs hs)
  unfold listForEach
  simp only [Lists.load hs List.mem_cons_self, hfirst, Option.bind_eq_bind, Option.bind_some, Option.pure_def]
  constructor
  · rintro ⟨fuel, hf⟩
    obtain ⟨⟨p, m⟩, hl, hm⟩ := Option.bind_eq_some_iff.1 hf
    cases hm
    obtain ⟨hk, he⟩ := (hends p).1 ⟨fuel, hl⟩
    cases he
    exact ⟨hk, rfl⟩
  · rintro ⟨hk, rfl⟩
    obtain ⟨fuel, hl⟩ := (hends hd).2 ⟨hk, rfl⟩
    exact ⟨fuel, by rw [hl]; rfl⟩

/-- Neither `list_for_each` nor `list_for_each_entry` survives a body that deletes
the node it visits: they get to their end, with every node visited, exactly if
nothing is deleted, and follow a NULL pointer otherwise. -/
theorem list_for_each_ends_iff {h : Heap (BitVec 64)} {L : Lists (BitVec 64)} {hd k : BitVec 64}
    {xs : List (BitVec 64)} (hw : WellFormed h L) (hs : L.seq hd = some xs) (deletes : List (BitVec 64) → Bool)
    (r : List (BitVec 64) × Heap (BitVec 64)) :
    ((∃ fuel, listForEach fuel hd Prod.snd (visitDel deletes) ([], h) = some r) ↔
      KeepsAll deletes [] xs ∧ r = (xs, h)) ∧
    ((∃ fuel, listForEachEntry fuel k hd Prod.snd (fun pos => visitDel deletes (pos + k)) ([], h) = some r) ↔
      KeepsAll deletes [] xs ∧ r = (xs, h)) := by
  refine ⟨listForEach_ends_iff hw hs deletes r, ?_⟩
  simp only [listForEachEntry_eq, member_containerOf]
  exact listForEach_ends_iff hw hs deletes r

/-- Of two nodes the last is deleted: the walk has no result. -/
theorem list_for_each_ends_iff_last : ∃ h : Heap (BitVec 64), ∀ fuel r,
    listForEach fuel 8 Prod.snd (visitDel fun seen => seen = [0x10, 0x20]) ([], h) ≠ some r := by
  let h : Heap (BitVec 64) := fun c => if c = 8 then ⟨0x10, 0x20⟩ else if c = 0x10 then ⟨0x20, 8⟩ else ⟨8, 0x10⟩
  let L : Lists (BitVec 64) := Lists.empty.set 8 [0x10, 0x20] (by simp) (by simp) (by simp [Lists.empty])
  have hw : WellFormed h L := by
    intro hd xs hs
    rcases update_eq_some hs with ⟨rfl, rfl⟩ | ⟨-, hnone⟩
    · simp [Lib.Ring, Linked, h]
    · cases hnone
  have hs : L.seq 8 = some [0x10, 0x20] := by simp [L, Lists.set]
  refine ⟨h, fun fuel r hf => ?_⟩
  obtain ⟨hkeep, -⟩ := (list_for_each_ends_iff (k := 0) hw hs _ r).1.1 ⟨fuel, hf⟩
  have hlast := hkeep (0x20, .del) (by simp [choices])
  cases hlast

end PortingKit.Linux
