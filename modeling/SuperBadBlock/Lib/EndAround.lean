import Mathlib.Algebra.BigOperators.Intervals
import Mathlib.Algebra.BigOperators.Ring.Finset
import Mathlib.Data.Int.ModEq
import Mathlib.Tactic.Ring
import Mathlib.Tactic.LinearCombination

namespace SuperBadBlock.EndAround

-- End-around carry: the part of `x` above the base is added back below it.
def fold (base x : Nat) : Nat := x % base + x / base

theorem fold_modEq (base x : Nat) (hb : 0 < base) : fold base x ≡ x [MOD base - 1] := by
  have hx : x = fold base x + (base - 1) * (x / base) := by
    have hd := Nat.mod_add_div x base
    have hs : base * (x / base) = (base - 1) * (x / base) + x / base := by
      rw [← Nat.succ_mul, Nat.succ_eq_add_one, Nat.sub_add_cancel hb]
    unfold fold
    omega
  conv_rhs => rw [hx]
  exact (Nat.add_modEq_left_iff.mpr (Nat.dvd_mul_right _ _)).symm

-- Two summands below the base leave a carry of at most one, so the folded
-- sum is again below the base.
theorem fold_add_le (base x y : Nat) (hx : x ≤ base - 1) (hy : y ≤ base - 1) (hb : 0 < base) :
    fold base (x + y) ≤ base - 1 := by
  unfold fold
  by_cases h : x + y < base
  · rw [Nat.mod_eq_of_lt h, Nat.div_eq_of_lt h]
    omega
  · have hd : (x + y) / base = 1 := Nat.div_eq_of_lt_le (by omega) (by omega)
    have hm := Nat.mod_add_div (x + y) base
    rw [hd] at hm ⊢
    omega

-- The representative of `-x` in `1 .. m`.
def complement (m x : Nat) : Nat := m - x % m

theorem complement_le (m x : Nat) : complement m x ≤ m := Nat.sub_le m _

theorem complement_eq_iff (m x y : Nat) (hm : 0 < m) :
    complement m x = complement m y ↔ x ≡ y [MOD m] := by
  have hx := Nat.mod_lt x hm
  have hy := Nat.mod_lt y hm
  simp only [complement, Nat.ModEq]
  omega

theorem complement_congr (m : Nat) {x y : Nat} (h : x ≡ y [MOD m]) :
    complement m x = complement m y := congrArg (m - ·) h

theorem complement_pos (m x : Nat) (hm : 0 < m) : 0 < complement m x :=
  Nat.sub_pos_of_lt (Nat.mod_lt x hm)

theorem add_complement_modEq (m x : Nat) (hm : 0 < m) : x + complement m x ≡ 0 [MOD m] := by
  have hlt := Nat.mod_lt x hm
  have hsum : x % m + complement m x = m := by
    unfold complement
    omega
  have hleft : x + complement m x ≡ x % m + complement m x [MOD m] :=
    (Nat.mod_modEq x m).symm.add_right _
  rw [hsum] at hleft
  exact hleft.trans (Nat.modEq_zero_iff_dvd.mpr (Nat.dvd_refl m))

-- Among `1 .. m` only the complement of `x` adds up with `x` to zero.
theorem eq_complement_iff (m x c : Nat) (hm : 0 < m) (hc : c ≤ m) :
    c = complement m x ↔ c ≠ 0 ∧ x + c ≡ 0 [MOD m] := by
  constructor
  · rintro rfl
    exact ⟨(complement_pos m x hm).ne', add_complement_modEq m x hm⟩
  · rintro ⟨hne, hzero⟩
    have hpos := complement_pos m x hm
    have hle := complement_le m x
    have hcongr : c ≡ complement m x [MOD m] :=
      Nat.ModEq.add_left_cancel' x (hzero.trans (add_complement_modEq m x hm).symm)
    -- two numbers of `1 .. m` that agree modulo `m` are equal
    have hshift : c - 1 ≡ complement m x - 1 [MOD m] := by
      apply Nat.ModEq.add_right_cancel' 1
      rw [Nat.sub_add_cancel (by omega), Nat.sub_add_cancel hpos]
      exact hcongr
    have heq := Nat.ModEq.eq_of_lt_of_lt hshift (by omega) (by omega)
    omega

-- The two check words of a Fletcher code over the sums `s1` and `s2`.
def check1 (m s1 s2 : Nat) : Nat := complement m (s1 + s2)

def check2 (m s1 s2 : Nat) : Nat := complement m (s1 + check1 m s1 s2)

theorem checks_eq_iff (m s1 s2 t1 t2 : Nat) (hm : 0 < m) :
    check1 m s1 s2 = check1 m t1 t2 ∧ check2 m s1 s2 = check2 m t1 t2 ↔
      s1 ≡ t1 [MOD m] ∧ s2 ≡ t2 [MOD m] := by
  constructor
  · rintro ⟨h1, h2⟩
    have hsum := (complement_eq_iff m _ _ hm).mp h1
    have hfirst : s1 ≡ t1 [MOD m] := by
      have h := (complement_eq_iff m _ _ hm).mp h2
      rw [h1] at h
      exact Nat.ModEq.add_right_cancel' _ h
    exact ⟨hfirst, Nat.ModEq.add_left_cancel hfirst hsum⟩
  · rintro ⟨h1, h2⟩
    have hc : check1 m s1 s2 = check1 m t1 t2 := complement_congr m (h1.add h2)
    exact ⟨hc, complement_congr m (hc ▸ h1.add_right _)⟩

-- The running sums over `word 0 .. word (n - 1)`: the second one adds up the
-- values the first one takes.
def sum1 (word : Nat → Nat) (n : Nat) : Nat := (Finset.range n).sum word

def sum2 (word : Nat → Nat) (n : Nat) : Nat := (Finset.range n).sum fun i => (n - i) * word i

theorem sum1_succ (word : Nat → Nat) (n : Nat) :
    sum1 word (n + 1) = word 0 + sum1 (fun i => word (i + 1)) n := by
  simp only [sum1, Finset.sum_range_succ', Nat.add_comm]

theorem sum2_succ (word : Nat → Nat) (n : Nat) :
    sum2 word (n + 1) = (n + 1) * word 0 + sum2 (fun i => word (i + 1)) n := by
  simp only [sum2, Finset.sum_range_succ', Nat.add_sub_add_right, Nat.sub_zero, Nat.add_comm]

-- Words of zero in front leave the sum to the rest.
theorem sum1_of_zero {word : Nat → Nat} {n : Nat} (h : ∀ i < n, word i = 0) (k : Nat) :
    sum1 word (n + k) = sum1 (fun i => word (n + i)) k := by
  have hfront : sum1 word n = 0 := Finset.sum_eq_zero fun i hi => h i (Finset.mem_range.mp hi)
  have hsplit : sum1 word (n + k) = sum1 word n + sum1 (fun i => word (n + i)) k :=
    Finset.sum_range_add word n k
  rw [hsplit, hfront, Nat.zero_add]

theorem sum1_succ_last (word : Nat → Nat) (n : Nat) :
    sum1 word (n + 1) = sum1 word n + word n := by
  rw [sum1, Finset.sum_range_succ, sum1]

theorem sum2_succ_last (word : Nat → Nat) (n : Nat) :
    sum2 word (n + 1) = sum2 word n + sum1 word (n + 1) := by
  simp only [sum2, sum1, Finset.sum_range_succ, ← Finset.sum_add_distrib, Nat.add_sub_cancel_left,
    Nat.one_mul, ← Nat.add_assoc]
  congr 1
  refine Finset.sum_congr rfl fun i hi => ?_
  have hlt := Finset.mem_range.mp hi
  have hsub : n + 1 - i = n - i + 1 := by omega
  rw [hsub, Nat.succ_mul]

-- Two words are the check words of what stands before them exactly if neither is
-- zero and both sums over all of it vanish.
theorem checks_eq_iff_sums_eq_zero (m : Nat) (word : Nat → Nat) (n : Nat) (hm : 0 < m)
    (h1 : word n ≤ m) (h2 : word (n + 1) ≤ m) :
    word n = check1 m (sum1 word n) (sum2 word n) ∧
        word (n + 1) = check2 m (sum1 word n) (sum2 word n) ↔
      (word n ≠ 0 ∧ word (n + 1) ≠ 0) ∧
        sum1 word (n + 2) ≡ 0 [MOD m] ∧ sum2 word (n + 2) ≡ 0 [MOD m] := by
  have hfirst : sum1 word (n + 2) = sum1 word n + word n + word (n + 1) := by
    rw [sum1_succ_last, sum1_succ_last]
  have hsecond : sum2 word (n + 2) =
      sum1 word n + sum2 word n + word n + sum1 word (n + 2) := by
    rw [sum2_succ_last, sum2_succ_last, sum1_succ_last word n]
    ring
  have hsums : sum1 word (n + 2) ≡ 0 [MOD m] ∧ sum2 word (n + 2) ≡ 0 [MOD m] ↔
      sum1 word n + sum2 word n + word n ≡ 0 [MOD m] ∧
        sum1 word n + word n + word (n + 1) ≡ 0 [MOD m] := by
    rw [hsecond, hfirst]
    constructor
    · rintro ⟨hone, htwo⟩
      exact ⟨Nat.ModEq.add_right_cancel hone htwo, hone⟩
    · rintro ⟨htwo, hone⟩
      exact ⟨hone, htwo.add hone⟩
  rw [hsums, check2]
  constructor
  · rintro ⟨hc1, hc2⟩
    rw [← hc1] at hc2
    obtain ⟨hne1, hzero1⟩ := (eq_complement_iff m _ _ hm h1).mp hc1
    obtain ⟨hne2, hzero2⟩ := (eq_complement_iff m _ _ hm h2).mp hc2
    exact ⟨⟨hne1, hne2⟩, hzero1, hzero2⟩
  · rintro ⟨⟨hne1, hne2⟩, hzero1, hzero2⟩
    have hc1 : word n = check1 m (sum1 word n) (sum2 word n) :=
      (eq_complement_iff m _ _ hm h1).mpr ⟨hne1, hzero1⟩
    rw [← hc1]
    exact ⟨rfl, (eq_complement_iff m _ _ hm h2).mpr ⟨hne2, hzero2⟩⟩

theorem sum1_modEq_iff (m n : Nat) (word other : Nat → Nat) :
    sum1 word n ≡ sum1 other n [MOD m] ↔
      (Finset.range n).sum (fun i => (word i : ℤ) - other i) ≡ 0 [ZMOD m] := by
  rw [← Int.natCast_modEq_iff, sum1, sum1, Finset.sum_sub_distrib, Int.modEq_iff_dvd,
    Int.modEq_zero_iff_dvd, ← dvd_neg]
  push_cast
  rw [neg_sub]

theorem sum2_modEq_iff (m n : Nat) (word other : Nat → Nat) :
    sum2 word n ≡ sum2 other n [MOD m] ↔
      (Finset.range n).sum (fun i => ((n : ℤ) - i) * ((word i : ℤ) - other i)) ≡ 0 [ZMOD m] := by
  have hcast (f : Nat → Nat) : ((sum2 f n : Nat) : ℤ) =
      (Finset.range n).sum fun i => ((n : ℤ) - i) * f i := by
    rw [sum2, Nat.cast_sum]
    refine Finset.sum_congr rfl fun i hi => ?_
    have hlt := Finset.mem_range.mp hi
    rw [Nat.cast_mul, Nat.cast_sub hlt.le]
  rw [← Int.natCast_modEq_iff, hcast, hcast, Int.modEq_iff_dvd, Int.modEq_zero_iff_dvd, ← dvd_neg]
  simp only [mul_sub, Finset.sum_sub_distrib, neg_sub]

-- A difference confined to two adjacent positions leaves both sums alone only
-- if it vanishes at each of the two: the weights differ by exactly one there.
theorem adjacent_modEq_zero (m : ℤ) (n j : Nat) (δ : Nat → ℤ)
    (hδ : ∀ i < n, i ≠ j → i ≠ j + 1 → δ i = 0)
    (h1 : (Finset.range n).sum δ ≡ 0 [ZMOD m])
    (h2 : (Finset.range n).sum (fun i => ((n : ℤ) - i) * δ i) ≡ 0 [ZMOD m]) (i : Nat) (hi : i < n) :
    δ i ≡ 0 [ZMOD m] := by
  -- The combination that weighs position `k` by `c - k` is also congruent to 0.
  have hweigh (c : ℤ) : (Finset.range n).sum (fun k => (c - k) * δ k) ≡ 0 [ZMOD m] := by
    have hsplit : (Finset.range n).sum (fun k => (c - k) * δ k) =
        (Finset.range n).sum (fun k => ((n : ℤ) - k) * δ k) - ((n : ℤ) - c) * (Finset.range n).sum δ := by
      rw [Finset.mul_sum, ← Finset.sum_sub_distrib]
      exact Finset.sum_congr rfl fun k _ => by ring
    rw [hsplit]
    simpa using h2.sub (h1.mul_left ((n : ℤ) - c))
  by_cases hj : i = j
  · subst hj
    have hs := hweigh ((i : ℤ) + 1)
    rw [Finset.sum_eq_single i] at hs
    · simpa using hs
    · intro k hk hne
      by_cases hnext : k = i + 1
      · simp [hnext]
      · simp [hδ k (Finset.mem_range.mp hk) hne hnext]
    · intro hn
      exact absurd (Finset.mem_range.mpr hi) hn
  by_cases hj' : i = j + 1
  · subst hj'
    have hs := hweigh (j : ℤ)
    rw [Finset.sum_eq_single (j + 1)] at hs
    · have hneg : ((j : ℤ) - ((j + 1 : Nat) : ℤ)) * δ (j + 1) = -δ (j + 1) := by
        push_cast
        ring
      rw [hneg] at hs
      simpa using hs.neg
    · intro k hk hne
      by_cases hfirst : k = j
      · simp [hfirst]
      · simp [hδ k (Finset.mem_range.mp hk) hfirst hne]
    · intro hn
      exact absurd (Finset.mem_range.mpr hi) hn
  · rw [hδ i hi hj hj']

end SuperBadBlock.EndAround
