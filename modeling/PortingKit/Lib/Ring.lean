import Mathlib.Data.List.Chain
import Mathlib.Data.List.Nodup
import Mathlib.Logic.Function.Basic
/-!
# Rings of doubly linked cells

`next` and `prev` are the two link functions of a memory of cells. A ring is a
head and a sequence of cells linked both ways, from the head through the
sequence and back. `chain_insert` and `chain_remove` are the two edits, stated
for any place in the ring, so the head may be one or both neighbours.
-/

namespace PortingKit.Lib

variable {α : Type} {next prev next' prev' : α → α}

/-- `a` and `b` are neighbours, linked both ways. -/
def Linked (next prev : α → α) (a b : α) : Prop := next a = b ∧ prev b = a

/-- The cells `xs` hang in order on the ring of `hd`. -/
def Ring (next prev : α → α) (hd : α) (xs : List α) : Prop :=
  (hd :: (xs ++ [hd])).IsChain (Linked next prev)

/-- A chain reads `next` before its last cell and `prev` after its first. -/
theorem chain_congr {l : List α} (h : l.IsChain (Linked next prev)) (hn : ∀ c ∈ l.dropLast, next' c = next c)
    (hp : ∀ c ∈ l.tail, prev' c = prev c) : l.IsChain (Linked next' prev') := by
  rw [List.isChain_iff_forall_rel_of_append_cons_cons] at h ⊢
  rintro a b l₁ l₂ rfl
  obtain ⟨h1, h2⟩ := h rfl
  exact ⟨(hn a (by simp)).trans h1, (hp b (by cases l₁ <;> simp)).trans h2⟩

/-! ## Cells that occur once, but for the first and the last -/

/-- No cell comes twice, except that the first may come again as the last. -/
def Distinct (l : List α) : Prop := l.dropLast.Nodup ∧ l.tail.Nodup

theorem distinct_ring {hd : α} {xs : List α} (h : (hd :: xs).Nodup) : Distinct (hd :: (xs ++ [hd])) := by
  constructor
  · rw [← List.cons_append, List.dropLast_concat]
    exact h
  · rw [List.nodup_cons] at h
    simpa [List.nodup_append] using ⟨h.2, fun a ha e => h.1 (e ▸ ha)⟩

/-- The cells left and right of the seam between `a` and `b`. -/
theorem distinct_seam {p s : List α} {a b : α} (h : Distinct (p ++ a :: b :: s)) :
    a ∉ p ∧ a ∉ (b :: s).dropLast ∧ b ∉ (p ++ [a]).tail ∧ b ∉ s := by
  obtain ⟨h1, h2⟩ := h
  rw [List.dropLast_append_of_ne_nil (by simp), List.dropLast_cons_of_ne_nil (by simp), List.nodup_append,
    List.nodup_cons] at h1
  refine ⟨fun ha => h1.2.2 a ha a (by simp) rfl, h1.2.1.1, ?_⟩
  rcases p with _ | ⟨c, p⟩
  · simp only [List.nil_append, List.tail_cons, List.nodup_cons] at h2 ⊢
    exact ⟨by simp, h2.1⟩
  · rw [List.cons_append, List.tail_cons, List.append_cons, List.nodup_append, List.nodup_cons] at h2
    exact ⟨fun hb => h2.2.2 b hb b (by simp) rfl, h2.2.1.1⟩

/-! ## The two edits -/

section Edits
variable {p s : List α} {a n b : α}

/-- Links off the seam between `a` and `b` are kept by any change to `a`'s
`next`, `b`'s `prev` and cells that are not in the chain. -/
theorem chain_seam (h : (p ++ a :: b :: s).IsChain (Linked next prev)) (hd : Distinct (p ++ a :: b :: s))
    (hnext : ∀ c ∈ p ++ a :: b :: s, c ≠ a → next' c = next c)
    (hprev : ∀ c ∈ p ++ a :: b :: s, c ≠ b → prev' c = prev c) :
    (p ++ [a]).IsChain (Linked next' prev') ∧ (b :: s).IsChain (Linked next' prev') := by
  obtain ⟨h1, -, h2⟩ := List.isChain_append_cons_cons.1 h
  obtain ⟨ha1, ha2, hb1, hb2⟩ := distinct_seam hd
  constructor
  · apply chain_congr h1
    · intro c hc
      rw [List.dropLast_concat] at hc
      exact hnext c (by simp [hc]) (fun e => ha1 (e ▸ hc))
    · intro c hc
      refine hprev c ?_ (fun e => hb1 (e ▸ hc))
      have := List.mem_of_mem_tail hc
      simp only [List.mem_append, List.mem_cons] at this ⊢
      tauto
  · apply chain_congr h2
    · intro c hc
      have := List.dropLast_subset _ hc
      exact hnext c (by simp only [List.mem_append, List.mem_cons] at this ⊢; tauto) (fun e => ha2 (e ▸ hc))
    · intro c hc
      exact hprev c (by simp only [List.tail_cons] at hc; simp [hc]) (fun e => hb2 (e ▸ hc))

/-- Linking `n` in between the neighbours `a` and `b`. -/
theorem chain_insert (h : (p ++ a :: b :: s).IsChain (Linked next prev)) (hd : Distinct (p ++ a :: b :: s))
    (hn : n ∉ p ++ a :: b :: s) (han : Linked next' prev' a n) (hnb : Linked next' prev' n b)
    (hnext : ∀ c, c ≠ a → c ≠ n → next' c = next c) (hprev : ∀ c, c ≠ b → c ≠ n → prev' c = prev c) :
    (p ++ a :: n :: b :: s).IsChain (Linked next' prev') := by
  obtain ⟨h1, h2⟩ := chain_seam h hd (fun c hc hca => hnext c hca fun e => hn (e ▸ hc))
    (fun c hc hcb => hprev c hcb fun e => hn (e ▸ hc))
  rw [List.isChain_append_cons_cons, List.isChain_cons_cons]
  exact ⟨h1, han, hnb, h2⟩

/-- Unlinking `n` from between its neighbours `a` and `b`. -/
theorem chain_remove (h : (p ++ a :: n :: b :: s).IsChain (Linked next prev))
    (hd : Distinct (p ++ a :: n :: b :: s)) (hab : Linked next' prev' a b)
    (hnext : ∀ c, c ≠ a → c ≠ n → next' c = next c) (hprev : ∀ c, c ≠ b → c ≠ n → prev' c = prev c) :
    (p ++ a :: b :: s).IsChain (Linked next' prev') := by
  obtain ⟨h1, -, h2⟩ := List.isChain_append_cons_cons.1 h
  rw [List.isChain_cons_cons] at h2
  obtain ⟨ha1, ha2, hn1, hn2⟩ := distinct_seam hd
  have hd' : Distinct ((p ++ [a]) ++ n :: b :: s) := by simpa using hd
  obtain ⟨hm1, hm2, hb1, hb2⟩ := distinct_seam hd'
  rw [List.isChain_append_cons_cons]
  refine ⟨chain_congr h1 (fun c hc => ?_) (fun c hc => ?_), hab, chain_congr h2.2 (fun c hc => ?_) (fun c hc => ?_)⟩
  · rw [List.dropLast_concat] at hc
    exact hnext c (fun e => ha1 (e ▸ hc)) (fun e => hm1 (by simp [← e, hc]))
  · refine hprev c (fun e => hb1 ?_) (fun e => hn1 (e ▸ hc))
    rw [List.tail_append_of_ne_nil (by simp)]
    exact List.mem_append_left _ (e ▸ hc)
  · refine hnext c (fun e => ha2 ?_) (fun e => hm2 (e ▸ hc))
    rw [List.dropLast_cons_of_ne_nil (by simp)]
    exact List.mem_cons_of_mem _ (e ▸ hc)
  · rw [List.tail_cons] at hc
    exact hprev c (fun e => hb2 (e ▸ hc)) (fun e => hn2 (by simp [← e, hc]))

end Edits

/-! ## Edits of a ring -/

section Ring
variable {hd n : α} {xs : List α}

/-- The neighbours of a cell of a ring are cells of the ring. -/
theorem ring_closed (h : Ring next prev hd xs) {c : α} (hc : c ∈ hd :: xs) :
    next c ∈ hd :: xs ∧ prev c ∈ hd :: xs := by
  constructor
  · obtain ⟨l₁, l₂, e⟩ := List.append_of_mem hc
    obtain ⟨b, s, hb⟩ : ∃ b s, l₂ ++ [hd] = b :: s := List.exists_cons_of_ne_nil (by simp)
    rw [Ring, ← List.cons_append, e, List.append_assoc, List.cons_append, hb] at h
    have hm : b ∈ l₂ ++ [hd] := by simp [hb]
    rw [(List.isChain_append_cons_cons.1 h).2.1.1, e]
    rcases List.mem_append.1 hm with hm | hm
    · simp [hm]
    · rw [← e]; simp [List.mem_singleton.1 hm]
  · have hc' : c ∈ xs ++ [hd] := by simpa [or_comm] using hc
    obtain ⟨l₁, l₂, e⟩ := List.append_of_mem hc'
    obtain ⟨p, a, ha⟩ : ∃ p a, hd :: l₁ = p ++ [a] := ⟨_, _, (List.dropLast_append_getLast (by simp)).symm⟩
    rw [Ring, e, ← List.cons_append, ha, List.append_assoc, List.singleton_append] at h
    have hm : a ∈ hd :: l₁ := by simp [ha]
    rw [(List.isChain_append_cons_cons.1 h).2.1.2]
    rcases List.mem_cons.1 hm with rfl | hm
    · simp
    · have : a ∈ xs ++ [hd] := by simp [e, hm]
      simpa [or_comm] using this

/-- The head is followed by the first cell of the sequence, or by itself. -/
theorem ring_next_head (h : Ring next prev hd xs) : next hd = xs.headD hd := by
  unfold Ring at h
  cases xs with
  | nil => exact (List.isChain_cons_cons.1 h).1.1
  | cons x xs => exact (List.isChain_cons_cons.1 h).1.1

/-- A cell of the sequence is followed by the next one, or by the head. -/
theorem ring_next_node {x : α} {l₁ l₂ : List α} (h : Ring next prev hd (l₁ ++ x :: l₂)) : next x = l₂.headD hd := by
  rw [Ring, List.append_assoc, List.cons_append, ← List.cons_append, List.isChain_append] at h
  obtain ⟨-, h, -⟩ := h
  cases l₂ with
  | nil => exact (List.isChain_cons_cons.1 h).1.1
  | cons y l₂ => exact (List.isChain_cons_cons.1 h).1.1

/-- A cell of the sequence is not its own neighbour: the head stands between. -/
theorem ring_irrefl (h : Ring next prev hd xs) (hx : (hd :: xs).Nodup) {c : α} (hc : c ∈ xs) :
    next c ≠ c ∧ prev c ≠ c := by
  obtain ⟨l₁, l₂, rfl⟩ := List.append_of_mem hc
  have hd' := distinct_ring hx
  obtain ⟨p, a, ha⟩ : ∃ p a, hd :: l₁ = p ++ [a] := ⟨_, _, (List.dropLast_append_getLast (by simp)).symm⟩
  obtain ⟨b, s, hb⟩ : ∃ b s, l₂ ++ [hd] = b :: s := List.exists_cons_of_ne_nil (by simp)
  have e : hd :: (l₁ ++ c :: l₂ ++ [hd]) = (p ++ [a]) ++ c :: b :: s := by
    rw [← ha, ← hb]; simp
  rw [Ring, e] at h
  rw [e] at hd'
  rw [(List.isChain_append_cons_cons.1 h).2.1.1]
  have h2 : (p ++ a :: c :: b :: s).IsChain (Linked next prev) := by simpa using h
  rw [(List.isChain_append_cons_cons.1 h2).2.1.2]
  obtain ⟨-, h3, h4, -⟩ := distinct_seam hd'
  have h5 : Distinct (p ++ a :: c :: (b :: s)) := by simpa using hd'
  constructor
  · rintro rfl
    exact h4 (by rw [List.tail_append_of_ne_nil (by simp)]; simp)
  · rintro rfl
    exact (distinct_seam h5).2.1 (by rw [List.dropLast_cons_of_ne_nil (by simp)]; simp)

/-- A ring reads only the links of its own cells. -/
theorem ring_congr (h : Ring next prev hd xs) (hn : ∀ c ∈ hd :: xs, next' c = next c)
    (hp : ∀ c ∈ hd :: xs, prev' c = prev c) : Ring next' prev' hd xs := by
  apply chain_congr h
  · intro c hc
    apply hn
    rwa [← List.cons_append, List.dropLast_concat] at hc
  · intro c hc
    apply hp
    simpa [or_comm] using hc

theorem ring_nil : Ring next prev hd [] ↔ Linked next prev hd hd := by
  simp [Ring]

theorem ring_empty_iff (h : Ring next prev hd xs) (hx : hd ∉ xs) : next hd = hd ↔ xs = [] := by
  rcases xs with _ | ⟨x, xs⟩
  · simp [(ring_nil.1 h).1]
  · have : next hd = x := (List.isChain_cons_cons.1 h).1.1
    simp only [this, reduceCtorEq, iff_false]
    rintro rfl
    simp at hx

/-- Linking `n` in behind the head. -/
theorem ring_insert_front (h : Ring next prev hd xs) (hx : (hd :: xs).Nodup) (hn : n ∉ hd :: xs)
    (han : Linked next' prev' hd n) (hnb : Linked next' prev' n (next hd))
    (hnext : ∀ c, c ≠ hd → c ≠ n → next' c = next c) (hprev : ∀ c, c ≠ next hd → c ≠ n → prev' c = prev c) :
    Ring next' prev' hd (n :: xs) := by
  have hd' := distinct_ring hx
  have hn' : n ∉ hd :: (xs ++ [hd]) := by simp_all
  obtain ⟨b, s, hb⟩ : ∃ b s, xs ++ [hd] = b :: s := List.exists_cons_of_ne_nil (by simp)
  rw [Ring, hb] at h
  rw [hb] at hd' hn'
  rw [(List.isChain_cons_cons.1 h).1.1] at hnb hprev
  rw [Ring, List.cons_append, hb]
  exact chain_insert (p := []) h hd' hn' han hnb hnext hprev

/-- Linking `n` in before the head, at the end of the sequence. -/
theorem ring_insert_back (h : Ring next prev hd xs) (hx : (hd :: xs).Nodup) (hn : n ∉ hd :: xs)
    (han : Linked next' prev' (prev hd) n) (hnb : Linked next' prev' n hd)
    (hnext : ∀ c, c ≠ prev hd → c ≠ n → next' c = next c) (hprev : ∀ c, c ≠ hd → c ≠ n → prev' c = prev c) :
    Ring next' prev' hd (xs ++ [n]) := by
  have hd' := distinct_ring hx
  have hn' : n ∉ hd :: (xs ++ [hd]) := by simp_all
  obtain ⟨p, a, ha⟩ : ∃ p a, hd :: xs = p ++ [a] := ⟨_, _, (List.dropLast_append_getLast (by simp)).symm⟩
  have e : ∀ l, hd :: (xs ++ l) = p ++ a :: l := fun l => by
    rw [← List.cons_append, ha, List.append_assoc, List.singleton_append]
  rw [Ring, e] at h
  rw [e] at hd' hn'
  rw [(List.isChain_append_cons_cons.1 h).2.1.2] at han hnext
  rw [Ring, List.append_assoc, e]
  exact chain_insert h hd' hn' han hnb hnext hprev

/-- Unlinking a cell of the sequence. -/
theorem ring_remove {l₁ l₂ : List α} (h : Ring next prev hd (l₁ ++ n :: l₂)) (hx : (hd :: (l₁ ++ n :: l₂)).Nodup)
    (hab : Linked next' prev' (prev n) (next n))
    (hnext : ∀ c, c ≠ prev n → c ≠ n → next' c = next c) (hprev : ∀ c, c ≠ next n → c ≠ n → prev' c = prev c) :
    Ring next' prev' hd (l₁ ++ l₂) := by
  have hd' := distinct_ring hx
  obtain ⟨p, a, ha⟩ : ∃ p a, hd :: l₁ = p ++ [a] := ⟨_, _, (List.dropLast_append_getLast (by simp)).symm⟩
  obtain ⟨b, s, hb⟩ : ∃ b s, l₂ ++ [hd] = b :: s := List.exists_cons_of_ne_nil (by simp)
  have e : ∀ l, hd :: (l₁ ++ l) = p ++ a :: l := fun l => by
    rw [← List.cons_append, ha, List.append_assoc, List.singleton_append]
  rw [Ring, List.append_assoc, List.cons_append, hb, e] at h
  rw [List.append_assoc, List.cons_append, hb, e] at hd'
  obtain ⟨-, h1, h2⟩ := List.isChain_append_cons_cons.1 h
  rw [h1.2, (List.isChain_cons_cons.1 h2).1.1] at hab
  rw [h1.2] at hnext
  rw [(List.isChain_cons_cons.1 h2).1.1] at hprev
  rw [Ring, List.append_assoc, hb, e]
  exact chain_remove h hd' hab hnext hprev

end Ring

end PortingKit.Lib
