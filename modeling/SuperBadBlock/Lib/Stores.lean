import Mathlib.Data.List.Basic
import Mathlib.Tactic.Common

namespace SuperBadBlock.Stores

variable {β : Type}

-- `len` cells from `dst` on get new contents.
structure Store (β : Type) where
  dst : Int
  len : Nat
  data : Int → β

def Store.Covers (s : Store β) (o : Int) : Prop := s.dst ≤ o ∧ o < s.dst + s.len

instance (s : Store β) (o : Int) : Decidable (s.Covers o) := inferInstanceAs (Decidable (_ ∧ _))

def Store.apply (mem : Int → β) (s : Store β) : Int → β := fun o => if s.Covers o then s.data o else mem o

def applyAll (mem : Int → β) (stores : List (Store β)) : Int → β := stores.foldl Store.apply mem

theorem applyAll_cons (mem : Int → β) (first : Store β) (stores : List (Store β)) :
    applyAll mem (first :: stores) = applyAll (first.apply mem) stores := rfl

-- Store `k` covers the cell, and no later one does.
def LastAt (stores : List (Store β)) (o : Int) (k : Nat) (s : Store β) : Prop :=
  stores[k]? = some s ∧ s.Covers o ∧ ∀ j t, k < j → stores[j]? = some t → ¬t.Covers o

theorem lastAt_succ (first : Store β) (stores : List (Store β)) (o : Int) (k : Nat) (s : Store β) :
    LastAt (first :: stores) o (k + 1) s ↔ LastAt stores o k s := by
  constructor
  · rintro ⟨hs, hcovers, hlater⟩
    exact ⟨hs, hcovers, fun j t hj ht => hlater (j + 1) t (Nat.succ_lt_succ hj) ht⟩
  · rintro ⟨hs, hcovers, hlater⟩
    refine ⟨hs, hcovers, fun j t hj ht => ?_⟩
    cases j with
    | zero => omega
    | succ j => exact hlater j t (Nat.lt_of_succ_lt_succ hj) ht

theorem lastAt_zero (first : Store β) (stores : List (Store β)) (o : Int) (s : Store β) :
    LastAt (first :: stores) o 0 s ↔ first = s ∧ s.Covers o ∧ ∀ t ∈ stores, ¬t.Covers o := by
  constructor
  · rintro ⟨hs, hcovers, hlater⟩
    refine ⟨Option.some.inj hs, hcovers, fun t ht => ?_⟩
    obtain ⟨j, hj⟩ := List.mem_iff_getElem?.mp ht
    exact hlater (j + 1) t (Nat.succ_pos j) hj
  · rintro ⟨rfl, hcovers, hlater⟩
    refine ⟨rfl, hcovers, fun j t hj ht => ?_⟩
    cases j with
    | zero => omega
    | succ j => exact hlater t (List.mem_of_getElem? ht)

-- The last store at a cell decides; where there is none, the cell is as it was.
theorem applyAll_cases (mem : Int → β) (stores : List (Store β)) (o : Int) :
    (∃ k s, LastAt stores o k s ∧ applyAll mem stores o = s.data o) ∨
      (∀ s ∈ stores, ¬s.Covers o) ∧ applyAll mem stores o = mem o := by
  induction stores generalizing mem with
  | nil => exact Or.inr ⟨by simp, rfl⟩
  | cons first stores ih =>
      rcases ih (first.apply mem) with ⟨k, s, hlast, happly⟩ | ⟨hnone, happly⟩
      · exact Or.inl ⟨k + 1, s, (lastAt_succ first stores o k s).mpr hlast, happly⟩
      · by_cases hfirst : first.Covers o
        · refine Or.inl ⟨0, first, (lastAt_zero first stores o first).mpr ⟨rfl, hfirst, hnone⟩, ?_⟩
          rw [Store.apply, if_pos hfirst] at happly
          exact happly
        · refine Or.inr ⟨List.forall_mem_cons.mpr ⟨hfirst, hnone⟩, ?_⟩
          rw [Store.apply, if_neg hfirst] at happly
          exact happly

theorem LastAt.unique {stores : List (Store β)} {o : Int} {k k' : Nat} {s s' : Store β}
    (h : LastAt stores o k s) (h' : LastAt stores o k' s') : k = k' ∧ s = s' := by
  have hindex : k = k' := by
    rcases Nat.lt_trichotomy k k' with hlt | heq | hgt
    · exact absurd h'.2.1 (h.2.2 k' s' hlt h'.1)
    · exact heq
    · exact absurd h.2.1 (h'.2.2 k s hgt h.1)
  subst hindex
  exact ⟨rfl, Option.some.inj (h.1.symm.trans h'.1)⟩

theorem LastAt.applyAll_eq {stores : List (Store β)} {o : Int} {k : Nat} {s : Store β}
    (h : LastAt stores o k s) (mem : Int → β) : applyAll mem stores o = s.data o := by
  rcases applyAll_cases mem stores o with ⟨k', s', hlast, happly⟩ | ⟨hnone, -⟩
  · rw [happly, (h.unique hlast).2]
  · exact absurd h.2.1 (hnone s (List.mem_of_getElem? h.1))

end SuperBadBlock.Stores
