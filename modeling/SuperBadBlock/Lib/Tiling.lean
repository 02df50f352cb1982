import Mathlib.Data.List.Nodup
import Mathlib.Order.Lattice
import Mathlib.Algebra.GroupWithZero.Nat

namespace SuperBadBlock.Tiling

variable {α : Type} (addr len : α → Nat)

-- The pieces lie one behind the other from `start` on, without a gap.
def Tiles : Nat → List α → Prop
  | _, [] => True
  | start, x :: xs => addr x = start ∧ Tiles (start + len x) xs

instance instDecidableTiles : ∀ (start : Nat) (xs : List α), Decidable (Tiles addr len start xs)
  | _, [] => isTrue trivial
  | start, x :: xs =>
      have := instDecidableTiles (start + len x) xs
      inferInstanceAs (Decidable (addr x = start ∧ Tiles addr len (start + len x) xs))

variable {addr len}

theorem Tiles.start_le {start : Nat} {xs : List α} (h : Tiles addr len start xs) :
    ∀ x ∈ xs, start ≤ addr x := by
  induction xs generalizing start with
  | nil => simp
  | cons x xs ih =>
      obtain ⟨hx, hxs⟩ := h
      refine List.forall_mem_cons.mpr ⟨hx.ge, fun y hy => ?_⟩
      have hy' := ih hxs y hy
      omega

theorem Tiles.pairwise_lt {start : Nat} {xs : List α} (h : Tiles addr len start xs)
    (hpos : ∀ x ∈ xs, 0 < len x) : xs.Pairwise fun x y => addr x < addr y := by
  induction xs generalizing start with
  | nil => exact List.Pairwise.nil
  | cons x xs ih =>
      obtain ⟨hx, hxs⟩ := h
      obtain ⟨hhead, htail⟩ := List.forall_mem_cons.mp hpos
      refine List.Pairwise.cons (fun y hy => ?_) (ih hxs htail)
      have hy' := hxs.start_le y hy
      omega

-- Any way to sort the pieces of a tiling by their address gives the tiling.
theorem Tiles.eq_of_sorted {start : Nat} {xs ys : List α} (h : Tiles addr len start xs)
    (hpos : ∀ x ∈ xs, 0 < len x) (hperm : ys.Perm xs)
    (hsorted : ys.Pairwise fun x y => addr x ≤ addr y) : ys = xs := by
  have hlt := h.pairwise_lt hpos
  have hnodup : (xs.map addr).Nodup := List.pairwise_map.mpr (hlt.imp fun h => h.ne)
  refine hperm.eq_of_pairwise (fun x y hx hy hxy hyx => ?_) hsorted (hlt.imp fun h => h.le)
  exact List.inj_on_of_nodup_map hnodup (hperm.mem_iff.mp hx) hy (le_antisymm hxy hyx)

theorem Tiles.end_le {start : Nat} {xs : List α} (h : Tiles addr len start xs) :
    ∀ x ∈ xs, addr x + len x ≤ start + (xs.map len).sum := by
  induction xs generalizing start with
  | nil => simp
  | cons x xs ih =>
      obtain ⟨hx, hxs⟩ := h
      rw [List.map_cons, List.sum_cons]
      refine List.forall_mem_cons.mpr ⟨by omega, fun y hy => ?_⟩
      have hy' := ih hxs y hy
      omega

-- A list in ascending order of the addresses, split at a bound.
theorem exists_split {xs : List α} (hsorted : xs.Pairwise fun x y => addr x ≤ addr y)
    (bound : Nat) :
    ∃ before after, xs = before ++ after ∧ (∀ x ∈ before, addr x < bound) ∧
      ∀ x ∈ after, bound ≤ addr x := by
  induction xs with
  | nil => exact ⟨[], [], rfl, by simp, by simp⟩
  | cons x xs ih =>
      obtain ⟨hhead, htail⟩ := List.pairwise_cons.mp hsorted
      by_cases hx : addr x < bound
      · obtain ⟨before, after, rfl, hbefore, hafter⟩ := ih htail
        exact ⟨x :: before, after, rfl, List.forall_mem_cons.mpr ⟨hx, hbefore⟩, hafter⟩
      · refine ⟨[], x :: xs, rfl, by simp, List.forall_mem_cons.mpr ⟨not_lt.mp hx, fun y hy => ?_⟩⟩
        exact (not_lt.mp hx).trans (hhead y hy)

-- Pieces of no length add nothing.
theorem sum_filter (p : α → Bool) (xs : List α) (h : ∀ x ∈ xs, p x = false → len x = 0) :
    ((xs.filter p).map len).sum = (xs.map len).sum := by
  induction xs with
  | nil => rfl
  | cons x xs ih =>
      obtain ⟨hhead, htail⟩ := List.forall_mem_cons.mp h
      rw [List.filter_cons, List.map_cons, List.sum_cons, ← ih htail]
      cases hp : p x with
      | true => simp
      | false => simp [hhead hp]

-- A tiling with more pieces behind it, sorted: all of the tiling that has a length
-- comes first.
theorem Tiles.split_of_sorted {start : Nat} {xs more ys : List α} (h : Tiles addr len start xs)
    (hmore : ∀ x ∈ more, start + (xs.map len).sum ≤ addr x) (hperm : ys.Perm (xs ++ more))
    (hsorted : ys.Pairwise fun x y => addr x ≤ addr y) :
    ∃ before after, ys = before ++ after ∧ (∀ x ∈ before, x ∈ xs) ∧
      (before.map len).sum = (xs.map len).sum ∧ ∀ x ∈ more, x ∈ after := by
  obtain ⟨before, after, rfl, hbefore, hafter⟩ := exists_split hsorted (start + (xs.map len).sum)
  have hfilter : before.Perm (xs.filter fun x => addr x < start + (xs.map len).sum) := by
    have hp := hperm.filter fun x => addr x < start + (xs.map len).sum
    have hself : before.filter (fun x => addr x < start + (xs.map len).sum) = before :=
      List.filter_eq_self.mpr (by simpa using hbefore)
    have hnone : after.filter (fun x => addr x < start + (xs.map len).sum) = [] :=
      List.filter_eq_nil_iff.mpr (by simpa using hafter)
    have hnoMore : more.filter (fun x => addr x < start + (xs.map len).sum) = [] :=
      List.filter_eq_nil_iff.mpr (by simpa using hmore)
    rwa [List.filter_append, List.filter_append, hself, hnone, hnoMore, List.append_nil,
      List.append_nil] at hp
  refine ⟨before, after, rfl, fun x hx => (List.mem_filter.mp (hfilter.mem_iff.mp hx)).1, ?_,
    fun x hx => ?_⟩
  · rw [(hfilter.map len).sum_nat, sum_filter]
    intro x hx hp
    have hend := h.end_le x hx
    have hle := not_lt.mp (of_decide_eq_false hp)
    omega
  · have hmem := hperm.mem_iff.mpr (List.mem_append_right xs hx)
    refine (List.mem_append.mp hmem).resolve_left fun hb => ?_
    exact absurd (hbefore x hb) (not_lt.mpr (hmore x hx))

end SuperBadBlock.Tiling
