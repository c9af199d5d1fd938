import Mathlib.Algebra.Ring.Nat
import PortingKit.Linux.List
/-!
# Lists refine sequences

`Lists` is what a memory of list heads stands for: any number of heads, each
with the sequence of its nodes, and no cell used twice. `WellFormed` connects
it to a heap. `exec_step` shows that each operation does to the heap what
`Lists.Step` does to the sequences and leaves every unused cell alone.
-/
open PortingKit.Lib

namespace PortingKit.Linux

variable {α : Type} [DecidableEq α] [Zero α]

/-- Disjoint lists: the sequence of each head, `none` for a cell that heads no list. -/
structure Lists (α : Type) [Zero α] where
  seq : α → Option (List α)
  nodup : ∀ {hd xs}, seq hd = some xs → (hd :: xs).Nodup
  disjoint : ∀ {hd xs hd' ys}, seq hd = some xs → seq hd' = some ys → hd ≠ hd' →
    ∀ c ∈ hd :: xs, c ∉ hd' :: ys
  nonnull : ∀ {hd xs}, seq hd = some xs → ∀ c ∈ hd :: xs, c ≠ 0

/-- The heap holds the lists: each head's ring goes through its sequence. -/
def WellFormed (h : Heap α) (L : Lists α) : Prop :=
  ∀ hd xs, L.seq hd = some xs → Ring (fun c => (h c).next) (fun c => (h c).prev) hd xs

inductive Op (α : Type) where
  | init (list : α)
  | add (new_node head : α)
  | addTail (new_node head : α)
  | del (entry : α)

/-- The cell an operation is called on. -/
def Op.cell : Op α → α
  | .init c | .add c _ | .addTail c _ | .del c => c

def Op.exec (h : Heap α) : Op α → Option (Heap α)
  | .init c => initListHead c h
  | .add n hd => listAdd n hd h
  | .addTail n hd => listAddTail n hd h
  | .del n => listDel n h

/-! ## Sequences -/

omit [Zero α] in
/-- Where one head's sequence is replaced, a sequence is the new one or an old one. -/
theorem update_eq_some {f : α → Option (List α)} {hd a : α} {xs ys : List α}
    (h : Function.update f hd (some ys) a = some xs) : a = hd ∧ xs = ys ∨ a ≠ hd ∧ f a = some xs := by
  by_cases e : a = hd
  · subst e
    rw [Function.update_self, Option.some.injEq] at h
    exact .inl ⟨rfl, h.symm⟩
  · rw [Function.update_of_ne e] at h
    exact .inr ⟨e, h⟩

namespace Lists

/-- `c` is the head or a node of some list. -/
def Used (L : Lists α) (c : α) : Prop := ∃ hd xs, L.seq hd = some xs ∧ c ∈ hd :: xs

/-- The legal operations, and what each does to the sequences: only one head's
sequence changes. -/
inductive Step : Lists α → Op α → Lists α → Prop
  | init {L L' : Lists α} {c} : c ≠ 0 → ¬ L.Used c → L'.seq = Function.update L.seq c (some []) →
      Step L (.init c) L'
  | add {L L' : Lists α} {n hd xs} : n ≠ 0 → ¬ L.Used n → L.seq hd = some xs →
      L'.seq = Function.update L.seq hd (some (n :: xs)) → Step L (.add n hd) L'
  | addTail {L L' : Lists α} {n hd xs} : n ≠ 0 → ¬ L.Used n → L.seq hd = some xs →
      L'.seq = Function.update L.seq hd (some (xs ++ [n])) → Step L (.addTail n hd) L'
  | del {L L' : Lists α} {n hd l₁ l₂} : L.seq hd = some (l₁ ++ n :: l₂) →
      L'.seq = Function.update L.seq hd (some (l₁ ++ l₂)) → Step L (.del n) L'

/-- No list at all. -/
def empty : Lists α where
  seq _ := none
  nodup h := by cases h
  disjoint h := by cases h
  nonnull h := by cases h

/-- The lists with `hd`'s sequence set to `ys`, cells no other list uses. -/
def set (L : Lists α) (hd : α) (ys : List α) (h1 : (hd :: ys).Nodup) (h2 : ∀ c ∈ hd :: ys, c ≠ 0)
    (h3 : ∀ hd' xs, L.seq hd' = some xs → hd' ≠ hd → ∀ c ∈ hd :: ys, c ∉ hd' :: xs) : Lists α where
  seq := Function.update L.seq hd (some ys)
  nodup h := by
    rcases update_eq_some h with ⟨rfl, rfl⟩ | ⟨-, h⟩
    · exact h1
    · exact L.nodup h
  disjoint ha hb hab := by
    rcases update_eq_some ha with ⟨rfl, rfl⟩ | ⟨hne, ha'⟩ <;> rcases update_eq_some hb with ⟨rfl, rfl⟩ | ⟨hne', hb'⟩
    · exact absurd rfl hab
    · exact h3 _ _ hb' hne'
    · intro c hc hc'
      exact h3 _ _ ha' hne c hc' hc
    · exact L.disjoint ha' hb' hab
  nonnull h := by
    rcases update_eq_some h with ⟨rfl, rfl⟩ | ⟨-, h⟩
    · exact h2
    · exact L.nonnull h

/-- Two lists. -/
def two (hd hd' : α) (xs ys : List α) (hn : (hd :: xs ++ hd' :: ys).Nodup) (h0 : ∀ c ∈ hd :: xs ++ hd' :: ys, c ≠ 0) :
    Lists α :=
  have hcells := List.nodup_append'.1 hn
  (empty.set hd xs hcells.1 (fun c hc => h0 c (List.mem_append_left _ hc)) fun _ _ h => by cases h).set hd' ys
    hcells.2.1 (fun c hc => h0 c (List.mem_append_right _ hc)) fun _ _ h hne c hc hc' => by
      rcases update_eq_some h with ⟨rfl, rfl⟩ | ⟨-, h⟩
      · exact hcells.2.2 hc' hc
      · cases h

/-- When an operation may be called. -/
def Legal (L : Lists α) : Op α → Prop
  | .init c => c ≠ 0 ∧ ¬ L.Used c
  | .add n hd | .addTail n hd => n ≠ 0 ∧ ¬ L.Used n ∧ ∃ xs, L.seq hd = some xs
  | .del n => ∃ hd xs, L.seq hd = some xs ∧ n ∈ xs

/-- Putting an unused cell anywhere into a list gives lists again. -/
theorem exists_insert (L : Lists α) {n hd : α} {xs ys : List α} (hn : n ≠ 0) (hu : ¬ L.Used n)
    (hs : L.seq hd = some xs) (hp : ys.Perm (n :: xs)) : ∃ L' : Lists α, L'.seq = Function.update L.seq hd (some ys) := by
  have hm : ∀ c, c ∈ hd :: ys ↔ c = n ∨ c ∈ hd :: xs := fun c => by
    simp only [List.mem_cons, hp.mem_iff]; tauto
  have hp' : (hd :: ys).Perm (n :: hd :: xs) := (hp.cons hd).trans (.swap n hd xs)
  refine ⟨L.set hd ys ?_ (fun c hc => ?_) (fun hd' zs hz hne c hc hc' => ?_), rfl⟩
  · rw [hp'.nodup_iff, List.nodup_cons]
    exact ⟨fun h => hu ⟨hd, xs, hs, h⟩, L.nodup hs⟩
  · rcases (hm c).1 hc with rfl | hc
    · exact hn
    · exact L.nonnull hs c hc
  · rcases (hm c).1 hc with rfl | hc
    · exact hu ⟨hd', zs, hz, hc'⟩
    · exact L.disjoint hs hz hne.symm c hc hc'

/-- Taking a node out of a list gives lists again, none of which uses the node. -/
theorem exists_remove (L : Lists α) {n hd : α} {l₁ l₂ : List α} (hs : L.seq hd = some (l₁ ++ n :: l₂)) :
    ∃ L' : Lists α, L'.seq = Function.update L.seq hd (some (l₁ ++ l₂)) ∧ ¬ L'.Used n := by
  have hsub : (hd :: (l₁ ++ l₂)).Sublist (hd :: (l₁ ++ n :: l₂)) := by simp
  refine ⟨L.set hd (l₁ ++ l₂) ((L.nodup hs).sublist hsub) (fun c hc => L.nonnull hs c (hsub.subset hc))
    (fun hd' ys hy hne c hc => L.disjoint hs hy hne.symm c (hsub.subset hc)), rfl, ?_⟩
  rintro ⟨hd', ys, hy, hm⟩
  rcases update_eq_some hy with ⟨rfl, rfl⟩ | ⟨hne, hy⟩
  · have hperm : (hd' :: (l₁ ++ n :: l₂)).Perm (n :: hd' :: (l₁ ++ l₂)) :=
      (List.perm_middle.cons hd').trans (.swap n hd' _)
    exact (List.nodup_cons.1 (hperm.nodup_iff.1 (L.nodup hs))).1 hm
  · exact L.disjoint hs hy hne.symm n (by simp) hm

/-- Every legal operation has an outcome. -/
theorem legal_iff (L : Lists α) (op : Op α) : L.Legal op ↔ ∃ L', Step L op L' := by
  constructor
  · intro h
    cases op with
    | init c =>
      obtain ⟨h0, hu⟩ := h
      refine ⟨L.set c [] (by simp) (by simpa using h0) (fun hd xs hs _ c' hc' h' => ?_), .init h0 hu rfl⟩
      rw [List.mem_singleton.1 hc'] at h'
      exact hu ⟨hd, xs, hs, h'⟩
    | add n hd =>
      obtain ⟨hn, hu, xs, hs⟩ := h
      obtain ⟨L', hL'⟩ := L.exists_insert hn hu hs (.refl (n :: xs))
      exact ⟨L', .add hn hu hs hL'⟩
    | addTail n hd =>
      obtain ⟨hn, hu, xs, hs⟩ := h
      obtain ⟨L', hL'⟩ := L.exists_insert hn hu hs (List.perm_append_singleton n xs)
      exact ⟨L', .addTail hn hu hs hL'⟩
    | del n =>
      obtain ⟨hd, xs, hs, hn⟩ := h
      obtain ⟨l₁, l₂, rfl⟩ := List.append_of_mem hn
      obtain ⟨L', hL', -⟩ := L.exists_remove hs
      exact ⟨L', .del hs hL'⟩
  · rintro ⟨L', h⟩
    cases h with
    | init h0 hu _ => exact ⟨h0, hu⟩
    | add hn hu hs _ => exact ⟨hn, hu, _, hs⟩
    | addTail hn hu hs _ => exact ⟨hn, hu, _, hs⟩
    | del hs _ => exact ⟨_, _, hs, by simp⟩

section Two
variable {hd hd' c : α} {xs ys zs : List α} {hn : (hd :: xs ++ hd' :: ys).Nodup}
  {h0 : ∀ c ∈ hd :: xs ++ hd' :: ys, c ≠ 0}

theorem not_used_two (hc : c ∉ hd :: xs ++ hd' :: ys) : ¬ (two hd hd' xs ys hn h0).Used c := by
  rintro ⟨a, as, hs, hm⟩
  rcases update_eq_some hs with ⟨rfl, rfl⟩ | ⟨-, hs⟩
  · exact hc (List.mem_append_right _ hm)
  · rcases update_eq_some hs with ⟨rfl, rfl⟩ | ⟨-, hs⟩
    · exact hc (List.mem_append_left _ hm)
    · cases hs

theorem wellFormed_two {h : Heap α} (hleft : Ring (fun c => (h c).next) (fun c => (h c).prev) hd xs)
    (hright : Ring (fun c => (h c).next) (fun c => (h c).prev) hd' ys) : WellFormed h (two hd hd' xs ys hn h0) := by
  intro a as hs
  rcases update_eq_some hs with ⟨rfl, rfl⟩ | ⟨-, hs⟩
  · exact hright
  · rcases update_eq_some hs with ⟨rfl, rfl⟩ | ⟨-, hs⟩
    · exact hleft
    · cases hs

theorem two_left {hn' : (hd :: zs ++ hd' :: ys).Nodup} {h0' : ∀ c ∈ hd :: zs ++ hd' :: ys, c ≠ 0} :
    (two hd hd' zs ys hn' h0').seq = Function.update (two hd hd' xs ys hn h0).seq hd (some zs) := by
  have hne : hd' ≠ hd := by
    rintro rfl
    exact (List.nodup_append'.1 hn).2.2 List.mem_cons_self List.mem_cons_self
  simp only [two, set, Function.update_comm hne, Function.update_idem]

theorem two_right {hn' : (hd :: xs ++ hd' :: zs).Nodup} {h0' : ∀ c ∈ hd :: xs ++ hd' :: zs, c ≠ 0} :
    (two hd hd' xs zs hn' h0').seq = Function.update (two hd hd' xs ys hn h0).seq hd' (some zs) := by
  simp only [two, set, Function.update_idem]

end Two

end Lists

/-! ## One operation -/

/-- A new ring for one head, with the cells of the other lists left alone. -/
theorem wellFormed_update {h h' : Heap α} {L L' : Lists α} {hd : α} {ys : List α} (hw : WellFormed h L)
    (hs : L'.seq = Function.update L.seq hd (some ys))
    (hr : Ring (fun c => (h' c).next) (fun c => (h' c).prev) hd ys)
    (hf : ∀ hd' xs, L.seq hd' = some xs → hd' ≠ hd → ∀ c ∈ hd' :: xs, h' c = h c) : WellFormed h' L' := by
  intro a xs ha
  rw [hs] at ha
  rcases update_eq_some ha with ⟨rfl, rfl⟩ | ⟨hne, ha⟩
  · exact hr
  · have hf' := hf a xs ha hne
    apply ring_congr (hw a xs ha)
    · intro c hc
      rw [hf' c hc]
    · intro c hc
      rw [hf' c hc]

/-- The new node's and its neighbours' links change, all in `n :: hd :: xs`. -/
theorem exec_insert {h : Heap α} {L L' : Lists α} {n hd a b : α} {xs ys : List α} (hw : WellFormed h L)
    (hn : n ≠ 0) (hu : ¬ L.Used n) (hs : L.seq hd = some xs) (ha : a ∈ hd :: xs) (hb : b ∈ hd :: xs)
    (hs' : L'.seq = Function.update L.seq hd (some ys))
    (hring : ∀ h' : Heap α, (∀ x, (h' x).next = if x = a then n else if x = n then b else (h x).next) →
      (∀ x, (h' x).prev = if x = n then a else if x = b then n else (h x).prev) →
      Ring (fun c => (h' c).next) (fun c => (h' c).prev) hd ys) :
    ∃ h', __listAdd n a b h = some h' ∧ WellFormed h' L' ∧ ∀ c, ¬ L.Used c → c ≠ n → h' c = h c := by
  obtain ⟨h', he, hnext, hprev⟩ := listAdd_links h hn (L.nonnull hs a ha) (L.nonnull hs b hb)
  have hf : ∀ c, c ∉ hd :: xs → c ≠ n → h' c = h c := fun c hc hcn => by
    have hca : c ≠ a := fun e => hc (e ▸ ha)
    have hcb : c ≠ b := fun e => hc (e ▸ hb)
    ext
    · simp [hnext, hca, hcn]
    · simp [hprev, hcb, hcn]
  refine ⟨h', he, wellFormed_update hw hs' (hring h' hnext hprev) (fun hd' zs hz hne c hc => ?_), fun c hc hcn => ?_⟩
  · exact hf c (L.disjoint hz hs hne c hc) (fun e => hu ⟨hd', zs, hz, e ▸ hc⟩)
  · exact hf c (fun hm => hc ⟨hd, xs, hs, hm⟩) hcn

theorem exec_init {h : Heap α} {L L' : Lists α} {c : α} (hw : WellFormed h L) (h0 : c ≠ 0) (hu : ¬ L.Used c)
    (hs : L'.seq = Function.update L.seq c (some [])) :
    ∃ h', initListHead c h = some h' ∧ WellFormed h' L' ∧ ∀ x, ¬ L.Used x → x ≠ c → h' x = h x := by
  obtain ⟨h', he, hnext, hprev⟩ := initListHead_links h h0
  have hf : ∀ x, x ≠ c → h' x = h x := fun x hx => by ext <;> simp [hnext, hprev, hx]
  refine ⟨h', he, wellFormed_update hw hs ?_ (fun hd xs hx _ x hm => hf x ?_), fun x _ hx => hf x hx⟩
  · rw [ring_nil]; exact ⟨by simp [hnext], by simp [hprev]⟩
  · rintro rfl; exact hu ⟨hd, xs, hx, hm⟩

theorem exec_add {h : Heap α} {L L' : Lists α} {n hd : α} {xs : List α} (hw : WellFormed h L) (hn : n ≠ 0)
    (hu : ¬ L.Used n) (hs : L.seq hd = some xs) (hs' : L'.seq = Function.update L.seq hd (some (n :: xs))) :
    ∃ h', listAdd n hd h = some h' ∧ WellFormed h' L' ∧ ∀ c, ¬ L.Used c → c ≠ n → h' c = h c := by
  have hr := hw hd xs hs
  have hnm : n ∉ hd :: xs := fun hm => hu ⟨hd, xs, hs, hm⟩
  have hhd : hd ≠ 0 := L.nonnull hs hd (by simp)
  -- The neighbours are the head and what follows it, the head again if the list is empty.
  have hb : (h hd).next ∈ hd :: xs := (ring_closed hr (by simp)).1
  have hadd : listAdd n hd h = __listAdd n hd (h hd).next h := by simp [listAdd, Heap.load_of_ne hhd]
  rw [hadd]
  apply exec_insert hw hn hu hs (by simp) hb hs'
  intro h' hnext hprev
  have hnb : n ≠ (h hd).next := fun e => hnm (e ▸ hb)
  have hnhd : n ≠ hd := fun e => hnm (by simp [e])
  refine ring_insert_front hr (L.nodup hs) hnm ⟨by simp [hnext], by simp [hprev]⟩ ⟨by simp [hnext, hnhd], ?_⟩
    (fun c h1 h2 => by simp [hnext, h1, h2]) (fun c h1 h2 => ?_)
  · simp [hprev, hnb.symm]
  · simp [hprev, h1, h2]

theorem exec_addTail {h : Heap α} {L L' : Lists α} {n hd : α} {xs : List α} (hw : WellFormed h L) (hn : n ≠ 0)
    (hu : ¬ L.Used n) (hs : L.seq hd = some xs) (hs' : L'.seq = Function.update L.seq hd (some (xs ++ [n]))) :
    ∃ h', listAddTail n hd h = some h' ∧ WellFormed h' L' ∧ ∀ c, ¬ L.Used c → c ≠ n → h' c = h c := by
  have hr := hw hd xs hs
  have hnm : n ∉ hd :: xs := fun hm => hu ⟨hd, xs, hs, hm⟩
  have hhd : hd ≠ 0 := L.nonnull hs hd (by simp)
  have ha : (h hd).prev ∈ hd :: xs := (ring_closed hr (by simp)).2
  have hadd : listAddTail n hd h = __listAdd n (h hd).prev hd h := by simp [listAddTail, Heap.load_of_ne hhd]
  rw [hadd]
  apply exec_insert hw hn hu hs ha (by simp) hs'
  intro h' hnext hprev
  have hna : n ≠ (h hd).prev := fun e => hnm (e ▸ ha)
  have hnhd : n ≠ hd := fun e => hnm (by simp [e])
  refine ring_insert_back hr (L.nodup hs) hnm ⟨by simp [hnext], by simp [hprev]⟩ ⟨by simp [hnext, hna], ?_⟩
    (fun c h1 h2 => by simp [hnext, h1, h2]) (fun c h1 h2 => by simp [hprev, h1, h2])
  simp [hprev, hnhd.symm]

theorem exec_del {h : Heap α} {L L' : Lists α} {n hd : α} {l₁ l₂ : List α} (hw : WellFormed h L)
    (hs : L.seq hd = some (l₁ ++ n :: l₂)) (hs' : L'.seq = Function.update L.seq hd (some (l₁ ++ l₂))) :
    ∃ h', listDel n h = some h' ∧ WellFormed h' L' ∧ ∀ c, ¬ L.Used c → h' c = h c := by
  have hr := hw hd _ hs
  have hx := L.nodup hs
  -- Both neighbours are on the ring of `n`, whichever head that is.
  have hn : n ∈ hd :: (l₁ ++ n :: l₂) := by simp
  obtain ⟨hb, ha⟩ := ring_closed hr hn
  obtain ⟨hbn, han⟩ := ring_irrefl hr hx (c := n) (by simp)
  obtain ⟨h', he, hnext, hprev⟩ := listDel_links h (L.nonnull hs n hn) (L.nonnull hs _ ha) (L.nonnull hs _ hb)
  have hf : ∀ c, c ∉ hd :: (l₁ ++ n :: l₂) → h' c = h c := fun c hc => by
    have h1 : c ≠ n := fun e => hc (e ▸ hn)
    have h2 : c ≠ (h n).prev := fun e => hc (e ▸ ha)
    have h3 : c ≠ (h n).next := fun e => hc (e ▸ hb)
    ext <;> simp [hnext, hprev, h1, h2, h3]
  refine ⟨h', he, wellFormed_update hw hs' ?_ (fun hd' zs hz hne c hc => hf c (L.disjoint hz hs hne c hc)),
    fun c hc => hf c fun hm => hc ⟨hd, _, hs, hm⟩⟩
  refine ring_remove hr hx ⟨?_, ?_⟩ (fun c h1 h2 => by simp [hnext, h1, h2]) (fun c h1 h2 => by simp [hprev, h1, h2])
  · simp [hnext, han]
  · simp [hprev, hbn]

/-- Every operation does to the heap what it does to the sequences. -/
theorem exec_step {h : Heap α} {L L' : Lists α} {op : Op α} (hw : WellFormed h L) (hst : Lists.Step L op L') :
    ∃ h', op.exec h = some h' ∧ WellFormed h' L' ∧ ∀ c, ¬ L.Used c → c ≠ op.cell → h' c = h c := by
  cases hst with
  | init h0 hu hs => exact exec_init hw h0 hu hs
  | add hn hu hs hs' => exact exec_add hw hn hu hs hs'
  | addTail hn hu hs hs' => exact exec_addTail hw hn hu hs hs'
  | del hs hs' =>
    obtain ⟨h', he, hw', hf⟩ := exec_del hw hs hs'
    exact ⟨h', he, hw', fun c hc _ => hf c hc⟩

theorem listEmpty_iff {h : Heap α} {L : Lists α} (hw : WellFormed h L) {hd : α} {xs : List α}
    (hs : L.seq hd = some xs) : ∃ e, listEmpty hd h = some e ∧ (e ≠ 0 ↔ xs = []) := by
  have hx := L.nodup hs
  rw [List.nodup_cons] at hx
  refine ⟨if (h hd).next = hd then 1 else 0, ?_, ?_⟩
  · simp [listEmpty, Heap.load_of_ne (L.nonnull hs hd (by simp))]
  · rw [← ring_empty_iff (hw hd xs hs) hx.1]
    simp

/-! ## Whole runs -/

/-- A transition of the heap that does what the operation does to the sequences. -/
structure Refines (t : Tr (Lists α) (Op α)) (u : Tr (Heap α) (Op α)) : Prop where
  act : u.act = t.act
  step : Lists.Step t.pre t.act t.post
  pre : WellFormed u.pre t.pre
  post : WellFormed u.post t.post
  frame : ∀ c, ¬ t.pre.Used c → c ≠ t.act.cell → u.post c = u.pre c

/-- Every legal sequence of operations runs through without following a NULL
pointer. Each operation does to the heap what it does to the sequences,
`list_empty` then tells the empty sequences, and any legal operation may follow. -/
theorem lists_refine_sequences {h : Heap α} {L L' : Lists α} {tr : List (Tr (Lists α) (Op α))}
    (hw : WellFormed h L) (hr : Run Lists.Step L tr L') :
    ∃ htr h', exec Op.exec h (tr.map (·.act)) = some (htr, h') ∧ List.Forall₂ Refines tr htr ∧ WellFormed h' L' ∧
      (∀ hd xs, L'.seq hd = some xs → ∃ e, listEmpty hd h' = some e ∧ (e ≠ 0 ↔ xs = [])) ∧
      ∀ op, L'.Legal op ↔ ∃ L'', Lists.Step L' op L'' := by
  suffices ∃ htr h', exec Op.exec h (tr.map (·.act)) = some (htr, h') ∧ List.Forall₂ Refines tr htr ∧
      WellFormed h' L' by
    obtain ⟨htr, h', he, hf, hw'⟩ := this
    exact ⟨htr, h', he, hf, hw', fun hd xs hs => listEmpty_iff hw' hs, L'.legal_iff⟩
  induction hr with
  | nil => exact ⟨[], h, rfl, .nil, hw⟩
  | @snoc tr L₁ op L₂ _ hst ih =>
    obtain ⟨htr, h₁, he, hf, hw₁⟩ := ih
    obtain ⟨h₂, he₂, hw₂, hfr⟩ := exec_step hw₁ hst
    refine ⟨htr ++ [⟨h₁, op, h₂⟩], h₂, ?_, ?_, hw₂⟩
    · rw [List.map_append]; exact exec_snoc he he₂
    · exact List.rel_append hf (.cons ⟨rfl, hst, hw₁, hw₂, hfr⟩ .nil)

/-- Two heads set up in a memory of zeroes; of the two nodes on the first list one is moved to the second. -/
theorem lists_refine_sequences_add : ∃ htr h', exec Op.exec (fun _ => ⟨0, 0⟩) [.init 1, .init 5, .addTail 2 1, .add 3 1,
      .addTail 4 5, .del 2, .addTail 2 5] = some (htr, h') ∧ htr.length = 7 ∧
    Ring (fun c => (h' c).next) (fun c => (h' c).prev) (1 : ℕ) [3] ∧
    Ring (fun c => (h' c).next) (fun c => (h' c).prev) 5 [4, 2] ∧ listEmpty 1 h' = some 0 := by
  let L₁ : Lists ℕ := Lists.empty.set 1 [] (by simp) (by simp) (by simp [Lists.empty])
  let L₂ : Lists ℕ := .two 1 5 [] [] (by decide) (by decide)
  let L₃ : Lists ℕ := .two 1 5 [2] [] (by decide) (by decide)
  let L₄ : Lists ℕ := .two 1 5 [3, 2] [] (by decide) (by decide)
  let L₅ : Lists ℕ := .two 1 5 [3, 2] [4] (by decide) (by decide)
  let L₆ : Lists ℕ := .two 1 5 [3] [4] (by decide) (by decide)
  let L₇ : Lists ℕ := .two 1 5 [3] [4, 2] (by decide) (by decide)
  have h₁ : Lists.Step Lists.empty (.init 1) L₁ := .init (by simp) (by simp [Lists.Used, Lists.empty]) rfl
  have hfree : ¬ L₁.Used 5 := by
    rintro ⟨hd, xs, hs, hm⟩
    rcases update_eq_some hs with ⟨rfl, rfl⟩ | ⟨-, hnone⟩
    · simp at hm
    · cases hnone
  have h₂ : Lists.Step L₁ (.init 5) L₂ := .init (by simp) hfree rfl
  have h₃ : Lists.Step L₂ (.addTail 2 1) L₃ := .addTail (by simp) (Lists.not_used_two (by decide)) rfl Lists.two_left
  have h₄ : Lists.Step L₃ (.add 3 1) L₄ := .add (by simp) (Lists.not_used_two (by decide)) rfl Lists.two_left
  have h₅ : Lists.Step L₄ (.addTail 4 5) L₅ := .addTail (by simp) (Lists.not_used_two (by decide)) rfl Lists.two_right
  have h₆ : Lists.Step L₅ (.del 2) L₆ := .del (show L₅.seq 1 = some ([3] ++ 2 :: []) from rfl) Lists.two_left
  have h₇ : Lists.Step L₆ (.addTail 2 5) L₇ := .addTail (by simp) (Lists.not_used_two (by decide)) rfl Lists.two_right
  obtain ⟨htr, h', he, hf, hw, hempty, -⟩ := lists_refine_sequences (h := fun _ => ⟨0, 0⟩)
    (fun _ _ hs => by simp [Lists.empty] at hs)
    (.snoc (.snoc (.snoc (.snoc (.snoc (.snoc (.snoc .nil h₁) h₂) h₃) h₄) h₅) h₆) h₇)
  obtain ⟨e, hle, hz⟩ := hempty 1 [3] rfl
  exact ⟨htr, h', he, hf.length_eq.symm, hw 1 [3] rfl, hw 5 [4, 2] rfl, by simp_all⟩

end PortingKit.Linux
