import Mathlib.Data.List.FinRange
import Mathlib.Data.List.OfFn
import Mathlib.Data.Fintype.Basic
import Mathlib.Logic.Equiv.Basic

namespace SuperBadBlock.Reordering

variable {α β : Type}

-- The list with the element of position `i` moved to position `place i`.
def reorder (l : List α) (place : Equiv.Perm (Fin l.length)) : List α :=
  (List.finRange l.length).map fun k => l.get (place.symm k)

theorem map_get_finRange (l : List α) : (List.finRange l.length).map l.get = l := by
  rw [← List.ofFn_eq_map, List.ofFn_get]

-- The positions of `l` in their new order.
def positions {n : Nat} (place : Equiv.Perm (Fin n)) : List (Fin n) :=
  (List.finRange n).map place.symm

theorem reorder_eq_map_positions (l : List α) (place : Equiv.Perm (Fin l.length)) :
    reorder l place = (positions place).map l.get := by
  rw [positions, List.map_map]
  rfl

theorem positions_perm {n : Nat} (place : Equiv.Perm (Fin n)) :
    (positions place).Perm (List.finRange n) := by
  rw [List.perm_ext_iff_of_nodup]
  · intro i
    exact ⟨fun _ => List.mem_finRange i,
      fun _ => List.mem_map.mpr ⟨place i, List.mem_finRange _, place.symm_apply_apply i⟩⟩
  · exact (List.nodup_finRange n).map place.symm.injective
  · exact List.nodup_finRange n

theorem reorder_perm (l : List α) (place : Equiv.Perm (Fin l.length)) :
    (reorder l place).Perm l := by
  have hperm := (positions_perm place).map l.get
  rw [map_get_finRange] at hperm
  rw [reorder_eq_map_positions]
  exact hperm

-- Elements whose order is kept stand in the same order.
theorem filter_reorder (l : List α) (place : Equiv.Perm (Fin l.length)) (p : α → Bool)
    (h : ∀ i j, i < j → p (l.get i) = true → p (l.get j) = true → place i < place j) :
    (reorder l place).filter p = l.filter p := by
  have hsplit (ps : List (Fin l.length)) :
      (ps.map l.get).filter p = (ps.filter fun i => p (l.get i)).map l.get := List.filter_map
  have hsorted : ((List.finRange l.length).filter fun i => p (l.get i)).Pairwise (· < ·) :=
    (List.pairwise_lt_finRange _).filter _
  have hplaced : ((positions place).filter fun i => p (l.get i)).Pairwise (· < ·) := by
    rw [List.pairwise_filter, positions, List.pairwise_map]
    refine (List.pairwise_lt_finRange _).imp fun {a b} hab ha hb => ?_
    -- in the other order `place` would turn them round
    rcases lt_trichotomy (place.symm a) (place.symm b) with hlt | heq | hgt
    · exact hlt
    · exact absurd (place.symm.injective heq) (ne_of_lt hab)
    · have hback := h _ _ hgt hb ha
      rw [place.apply_symm_apply, place.apply_symm_apply] at hback
      exact absurd hab (not_lt_of_gt hback)
  have heq : (positions place).filter (fun i => p (l.get i)) =
      (List.finRange l.length).filter fun i => p (l.get i) :=
    ((positions_perm place).filter _).eq_of_pairwise
      (fun a b _ _ hab hba => absurd hab (not_lt_of_gt hba)) hplaced hsorted
  rw [reorder_eq_map_positions, hsplit, heq, ← hsplit, map_get_finRange]

theorem flatMap_filter_isEmpty (f : α → List β) (l : List α) :
    (l.filter fun x => !(f x).isEmpty).flatMap f = l.flatMap f := by
  induction l with
  | nil => rfl
  | cons x l ih =>
      by_cases hx : f x = []
      · rw [List.filter_cons_of_neg (by simp [hx]), List.flatMap_cons, hx, List.nil_append, ih]
      · rw [List.filter_cons_of_pos (by simp [hx]), List.flatMap_cons, List.flatMap_cons, ih]

-- A traversal sees no difference if the elements that contribute to it keep their order.
theorem flatMap_reorder (f : α → List β) (l : List α) (place : Equiv.Perm (Fin l.length))
    (h : ∀ i j, i < j → f (l.get i) ≠ [] → f (l.get j) ≠ [] → place i < place j) :
    (reorder l place).flatMap f = l.flatMap f := by
  rw [← flatMap_filter_isEmpty f (reorder l place), ← flatMap_filter_isEmpty f l, filter_reorder]
  intro i j hij hi hj
  exact h i j hij (by simpa using hi) (by simpa using hj)

end SuperBadBlock.Reordering
