import Mathlib.Data.Set.Finite.Lattice
import Mathlib.Logic.Relation
/-!
# Who waits for whom

`R x y` says that `x` waits for `y`. A party is stuck if its chain of waiting
runs into a cycle. Among finitely many parties the stuck ones are those of any
set in which everyone waits for someone of the set.
-/
open Relation

namespace PortingKit.Lib

variable {α : Type} {R R' : α → α → Prop} {P : Set α} {x y : α}

/-- `x` waits, through others or not, for one that waits for itself. -/
def Stuck (R : α → α → Prop) (x : α) : Prop := ∃ y, ReflTransGen R x y ∧ TransGen R y y

/-- Everyone of `P` waits for someone of `P`. -/
def Closed (R : α → α → Prop) (P : Set α) : Prop := ∀ x ∈ P, ∃ y ∈ P, R x y

theorem Stuck.waits (h : Stuck R x) : ∃ y, Stuck R y ∧ R x y := by
  obtain ⟨y, hxy, hyy⟩ := h
  rcases hxy.cases_head with rfl | ⟨z, hxz, hzy⟩
  · obtain ⟨z, hxz, hzx⟩ := TransGen.head'_iff.1 hyy
    exact ⟨z, ⟨x, hzx, hyy⟩, hxz⟩
  · exact ⟨z, ⟨y, hzy, hyy⟩, hxz⟩

theorem stuck_closed (R : α → α → Prop) : Closed R {x | Stuck R x} := fun _ h => h.waits

/-- Whoever waits for a stuck party is stuck. -/
theorem Stuck.head (hxy : R x y) (h : Stuck R y) : Stuck R x := by
  obtain ⟨z, hyz, hzz⟩ := h
  exact ⟨z, .head hxy hyz, hzz⟩

theorem Stuck.mono (hR : ∀ a b, R a b → R' a b) (h : Stuck R x) : Stuck R' x := by
  obtain ⟨y, hxy, hyy⟩ := h
  exact ⟨y, ReflTransGen.mono hR x y hxy, TransGen.mono hR y y hyy⟩

/-- Going from one to the next stays in the set. -/
theorem iterate_mem {f : α → α} (hf : ∀ y ∈ P, f y ∈ P ∧ R y (f y)) (hx : x ∈ P) (n : ℕ) :
    f^[n] x ∈ P ∧ ReflTransGen R x (f^[n] x) := by
  induction n with
  | zero => exact ⟨hx, .refl⟩
  | succ n ih =>
    rw [Function.iterate_succ_apply']
    obtain ⟨hmem, hwait⟩ := hf _ ih.1
    exact ⟨hmem, ih.2.tail hwait⟩

/-- In a finite closed set one comes twice to the same party. -/
theorem stuck_of_closed (hP : P.Finite) (hc : Closed R P) (hx : x ∈ P) : Stuck R x := by
  choose! f hf using hc
  have hmaps : Set.MapsTo (fun n => f^[n] x) Set.univ P := fun n _ => (iterate_mem hf hx n).1
  obtain ⟨m, -, n, -, hne, heq⟩ := Set.infinite_univ.exists_ne_map_eq_of_mapsTo hmaps hP
  wlog hlt : m < n generalizing m n
  · exact this n m hne.symm heq.symm (by omega)
  obtain ⟨k, rfl⟩ := Nat.exists_eq_add_of_lt hlt
  obtain ⟨hmem, hwalk⟩ := iterate_mem hf hx m
  obtain ⟨hmem', hnext⟩ := hf _ hmem
  have hback : f^[k] (f (f^[m] x)) = f^[m] x := by
    have hlen : k + 1 + m = m + k + 1 := by omega
    rw [← Function.iterate_succ_apply, ← Function.iterate_add_apply, hlen]
    exact heq.symm
  have hround := (iterate_mem hf hmem' k).2
  rw [hback] at hround
  exact ⟨f^[m] x, hwalk, .head' hnext hround⟩

end PortingKit.Lib
