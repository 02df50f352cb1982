import Mathlib.Algebra.BigOperators.Intervals
import Mathlib.Algebra.BigOperators.Ring.Finset
import Mathlib.Data.Int.ModEq
import Mathlib.Tactic.IntervalCases
import Mathlib.Tactic.LinearCombination
import Mathlib.Tactic.Linarith
import Mathlib.Tactic.Ring

namespace SuperBadBlock.BitErrors

-- Two signed numbers that are one or even, up to `M`, add up to a multiple of `2 * M - 1`
-- only where they cancel.
theorem cancel_of_multiple {M A B c s t : ℤ} (hM : 4 ≤ M) (hA : 0 < A ∧ A ≤ M) (hB : 0 < B ∧ B ≤ M)
    (hlowA : A = 1 ∨ A % 2 = 0) (hlowB : B = 1 ∨ B % 2 = 0) (hs : s = 1 ∨ s = -1)
    (ht : t = 1 ∨ t = -1) (h : s * A + t * B = (2 * M - 1) * c) : A = B ∧ s = -t := by
  have hsize : -(2 * M) ≤ s * A + t * B ∧ s * A + t * B ≤ 2 * M := by
    rcases hs with rfl | rfl <;> rcases ht with rfl | rfl <;> omega
  have hlow : -1 ≤ c := by
    by_contra hc
    have hmul : (2 * M - 1) * c ≤ (2 * M - 1) * (-2) :=
      mul_le_mul_of_nonneg_left (by omega) (by omega)
    omega
  have hhigh : c ≤ 1 := by
    by_contra hc
    have hmul : (2 * M - 1) * 2 ≤ (2 * M - 1) * c :=
      mul_le_mul_of_nonneg_left (by omega) (by omega)
    omega
  rcases hs with rfl | rfl <;> rcases ht with rfl | rfl <;> interval_cases c <;> omega

-- Two signed powers of two below `2 ^ width` only cancel modulo `2 ^ width - 1` where they
-- cancel as integers.
theorem signed_powers {width a b : Nat} (hwidth : 3 ≤ width) (ha : a < width) (hb : b < width)
    {s t : ℤ} (hs : s = 1 ∨ s = -1) (ht : t = 1 ∨ t = -1)
    (h : s * 2 ^ a + t * 2 ^ b ≡ 0 [ZMOD 2 ^ width - 1]) : a = b ∧ s = -t := by
  obtain ⟨w, rfl⟩ : ∃ w, width = w + 1 := ⟨width - 1, by omega⟩
  have hfour : (4 : ℤ) ≤ 2 ^ w := by
    have hpow : (2 : ℤ) ^ 2 ≤ 2 ^ w := pow_le_pow_right₀ (by norm_num) (by omega)
    linarith
  have hbound {n : Nat} (hn : n < w + 1) : (0 : ℤ) < 2 ^ n ∧ (2 : ℤ) ^ n ≤ 2 ^ w :=
    ⟨by positivity, pow_le_pow_right₀ (by norm_num) (by omega)⟩
  -- an even power, or the lowest bit
  have hlow (n : Nat) : (2 : ℤ) ^ n = 1 ∨ (2 : ℤ) ^ n % 2 = 0 := by
    cases n with
    | zero => exact Or.inl rfl
    | succ n => exact Or.inr (by rw [pow_succ', Int.mul_emod_right])
  obtain ⟨c, hc⟩ := Int.modEq_zero_iff_dvd.mp h
  rw [pow_succ'] at hc
  obtain ⟨hequal, hsign⟩ := cancel_of_multiple hfour (hbound ha) (hbound hb) (hlow a) (hlow b) hs ht hc
  exact ⟨Nat.pow_right_injective (Nat.le_refl 2) (by exact_mod_cast hequal), hsign⟩

-- One signed power of two is not zero modulo `2 ^ width - 1`.
theorem signed_power_ne {width a : Nat} (hwidth : 3 ≤ width) (ha : a < width) {s : ℤ}
    (hs : s = 1 ∨ s = -1) : ¬s * 2 ^ a ≡ 0 [ZMOD 2 ^ width - 1] := by
  intro h
  have hdouble := h.add h
  obtain ⟨-, hsign⟩ := signed_powers hwidth ha ha hs hs hdouble
  rcases hs with rfl | rfl <;> omega

section Words

variable (width : Nat)

-- What a change of bit `q` adds to the word it belongs to.
def change (bit bit' : Nat → Bool) (q : Nat) : ℤ :=
  (((bit' q).toNat : ℤ) - (bit q).toNat) * 2 ^ (q % width)

-- The number that bit `width * i` and the ones above it stand for.
def word (bit : Nat → Bool) (i : Nat) : Nat :=
  (Finset.range width).sum fun b => (bit (width * i + b)).toNat * 2 ^ b

variable {width}

-- A word is the number whose bits it has.
theorem word_eq_mod (bit : Nat → Bool) (i x : Nat)
    (h : ∀ b < width, bit (width * i + b) = x.testBit b) : word width bit i = x % 2 ^ width := by
  have hbits : word width bit i = (Finset.range width).sum fun b => (x.testBit b).toNat * 2 ^ b :=
    Finset.sum_congr rfl fun b hb => by rw [h b (Finset.mem_range.mp hb)]
  rw [hbits]
  clear h hbits
  induction width with
  | zero => rw [Finset.sum_range_zero, pow_zero, Nat.mod_one]
  | succ width ih => rw [Finset.sum_range_succ, ih, Nat.toNat_testBit, Nat.mod_pow_succ, Nat.mul_comm (2 ^ width)]

theorem word_sub_word (bit bit' : Nat → Bool) (i : Nat) :
    (word width bit' i : ℤ) - word width bit i =
      (Finset.range width).sum fun b => change width bit bit' (width * i + b) := by
  simp only [word, Nat.cast_sum, ← Finset.sum_sub_distrib]
  refine Finset.sum_congr rfl fun b hb => ?_
  have hmod : (width * i + b) % width = b := by
    rw [Nat.mul_add_mod, Nat.mod_eq_of_lt (Finset.mem_range.mp hb)]
  rw [change, hmod]
  push_cast
  ring

-- Bits are summed up word by word.
theorem sum_range_words (f : Nat → ℤ) (n : Nat) :
    (Finset.range (width * n)).sum f =
      (Finset.range n).sum fun i => (Finset.range width).sum fun b => f (width * i + b) := by
  induction n with
  | zero => simp
  | succ n ih => rw [Nat.mul_succ, Finset.sum_range_add, ih, Finset.sum_range_succ]

theorem sum_changes (hwidth : 0 < width) (bit bit' : Nat → Bool) (weight : Nat → ℤ) (n : Nat) :
    (Finset.range n).sum (fun i => weight i * ((word width bit' i : ℤ) - word width bit i)) =
      (Finset.range (width * n)).sum fun q => weight (q / width) * change width bit bit' q := by
  rw [sum_range_words]
  refine Finset.sum_congr rfl fun i _ => ?_
  rw [word_sub_word, Finset.mul_sum]
  refine Finset.sum_congr rfl fun b hb => ?_
  rw [Nat.mul_add_div hwidth, Nat.div_eq_of_lt (Finset.mem_range.mp hb), Nat.add_zero]

theorem change_of_eq {bit bit' : Nat → Bool} {q : Nat} (h : bit' q = bit q) :
    change width bit bit' q = 0 := by
  rw [change, h, sub_self, zero_mul]

theorem exists_sign (width : Nat) {bit bit' : Nat → Bool} {q : Nat} (h : bit' q ≠ bit q) :
    ∃ s : ℤ, (s = 1 ∨ s = -1) ∧ change width bit bit' q = s * 2 ^ (q % width) := by
  refine ⟨((bit' q).toNat : ℤ) - (bit q).toNat, ?_, rfl⟩
  cases hold : bit q <;> cases hnew : bit' q <;> simp_all

section Changes

variable {bit bit' : Nat → Bool} {n k k' : Nat}

-- A single changed bit shows in the sum.
theorem single_change (hwidth : 3 ≤ width) (hk : k < width * n) (hchanged : bit' k ≠ bit k)
    (honly : ∀ q < width * n, bit' q ≠ bit q → q = k) :
    ¬(Finset.range (width * n)).sum (change width bit bit') ≡ 0 [ZMOD 2 ^ width - 1] := by
  have hsum : (Finset.range (width * n)).sum (change width bit bit') = change width bit bit' k := by
    refine Finset.sum_eq_single k (fun q hq hne => change_of_eq ?_) fun hout => ?_
    · by_contra hq'
      exact hne (honly q (Finset.mem_range.mp hq) hq')
    · exact absurd (Finset.mem_range.mpr hk) hout
  obtain ⟨s, hs, hchange⟩ := exists_sign width hchanged
  rw [hsum, hchange]
  exact signed_power_ne hwidth (Nat.mod_lt k (by omega)) hs

-- Two changed bits that cancel in the sum stand at one place of two words, and then show in
-- the weighted sum.
theorem two_changes (hwidth : 3 ≤ width) (hn : n < 2 ^ width) (hk : k < width * n)
    (hk' : k' < width * n) (hne : k ≠ k') (hchanged : bit' k ≠ bit k) (hchanged' : bit' k' ≠ bit k')
    (honly : ∀ q < width * n, bit' q ≠ bit q → q = k ∨ q = k')
    (hsum : (Finset.range (width * n)).sum (change width bit bit') ≡ 0 [ZMOD 2 ^ width - 1]) :
    ¬(Finset.range (width * n)).sum
      (fun q => ((n : ℤ) - (q / width : Nat)) * change width bit bit' q) ≡ 0 [ZMOD 2 ^ width - 1] := by
  intro hweighted
  have hrest : ∀ q ∈ Finset.range (width * n), q ≠ k ∧ q ≠ k' → change width bit bit' q = 0 := by
    intro q hq hother
    refine change_of_eq ?_
    by_contra hq'
    rcases honly q (Finset.mem_range.mp hq) hq' with h | h
    · exact hother.1 h
    · exact hother.2 h
  have hout {q : Nat} (hq : q < width * n) {x : ℤ} (h : q ∉ Finset.range (width * n)) : x = 0 :=
    absurd (Finset.mem_range.mpr hq) h
  obtain ⟨s, hs, hchange⟩ := exists_sign width hchanged
  obtain ⟨t, ht, hchange'⟩ := exists_sign width hchanged'
  rw [Finset.sum_eq_add k k' hne hrest (hout hk) (hout hk'), hchange, hchange'] at hsum
  obtain ⟨hplace, hsign⟩ := signed_powers hwidth (Nat.mod_lt k (by omega)) (Nat.mod_lt k' (by omega))
    hs ht hsum
  rw [Finset.sum_eq_add k k' hne (fun q hq hother => by rw [hrest q hq hother, mul_zero]) (hout hk)
    (hout hk'), hchange, hchange', ← hplace, hsign] at hweighted
  -- a power of two is a unit, so the two words are the same
  obtain ⟨c, hc⟩ := Int.modEq_zero_iff_dvd.mp hweighted
  have hwords : ((2 : ℤ) ^ width - 1) ∣ ((k / width : Nat) : ℤ) - (k' / width : Nat) := by
    have hpow : (2 : ℤ) ^ (k % width) * 2 ^ (width - k % width) = 2 ^ width := by
      rw [← pow_add, Nat.add_sub_cancel' (Nat.mod_lt k (by omega)).le]
    have hsquare : t * t = 1 := by rcases ht with rfl | rfl <;> rfl
    refine ⟨t * c * 2 ^ (width - k % width) - (((k / width : Nat) : ℤ) - (k' / width : Nat)), ?_⟩
    linear_combination (t * 2 ^ (width - k % width)) * hc -
      (((k / width : Nat) : ℤ) - (k' / width : Nat)) * hpow -
      (((k / width : Nat) : ℤ) - (k' / width : Nat)) * 2 ^ (k % width) * 2 ^ (width - k % width) * hsquare
  have hsame : ((k / width : Nat) : ℤ) - (k' / width : Nat) = 0 := by
    have hlt : ((k / width : Nat) : ℤ) + 1 ≤ n := by exact_mod_cast Nat.div_lt_of_lt_mul hk
    have hlt' : ((k' / width : Nat) : ℤ) + 1 ≤ n := by exact_mod_cast Nat.div_lt_of_lt_mul hk'
    have hsize : (n : ℤ) + 1 ≤ 2 ^ width := by exact_mod_cast hn
    have hlow := Int.natCast_nonneg (k / width)
    have hlow' := Int.natCast_nonneg (k' / width)
    exact Int.eq_zero_of_abs_lt_dvd hwords (abs_lt.mpr ⟨by linarith, by linarith⟩)
  refine hne ?_
  have hword : k / width = k' / width := by exact_mod_cast sub_eq_zero.mp hsame
  rw [← Nat.div_add_mod k width, ← Nat.div_add_mod k' width, hplace, hword]

end Changes

-- The code of words whose sum and whose sum weighted by position vanish modulo
-- `2 ^ width - 1` notices every change of one or two bits.
theorem bits_eq_of_sums (bit bit' : Nat → Bool) (n k k' : Nat) (hwidth : 3 ≤ width)
    (hn : n < 2 ^ width) (hk : k < width * n) (hk' : k' < width * n)
    (honly : ∀ q < width * n, bit' q ≠ bit q → q = k ∨ q = k')
    (hsum : (Finset.range n).sum (fun i => (word width bit' i : ℤ) - word width bit i)
      ≡ 0 [ZMOD 2 ^ width - 1])
    (hweighted : (Finset.range n).sum
        (fun i => ((n : ℤ) - i) * ((word width bit' i : ℤ) - word width bit i))
      ≡ 0 [ZMOD 2 ^ width - 1]) :
    ∀ q < width * n, bit' q = bit q := by
  have hpos : 0 < width := by omega
  have hplain := sum_changes hpos bit bit' (fun _ => 1) n
  simp only [one_mul] at hplain
  rw [hplain] at hsum
  rw [sum_changes hpos bit bit' (fun i => (n : ℤ) - i) n] at hweighted
  have hnone {j : Nat} (hj : j < width * n) (hother : ∀ q < width * n, bit' q ≠ bit q → q = j) :
      bit' j = bit j := by
    by_contra hchanged
    exact single_change hwidth hj hchanged hother hsum
  have hkeep : bit' k = bit k ∧ bit' k' = bit k' := by
    by_cases hfirst : bit' k = bit k
    · refine ⟨hfirst, hnone hk' fun j hj hchanged => (honly j hj hchanged).resolve_left ?_⟩
      rintro rfl
      exact hchanged hfirst
    · exfalso
      by_cases hsecond : bit' k' = bit k'
      · refine hfirst (hnone hk fun j hj hchanged => (honly j hj hchanged).resolve_right ?_)
        rintro rfl
        exact hchanged hsecond
      · by_cases hsame : k = k'
        · exact hfirst (hnone hk fun j hj hchanged =>
            (honly j hj hchanged).elim id fun h => h.trans hsame.symm)
        · exact two_changes hwidth hn hk hk' hsame hfirst hsecond honly hsum hweighted
  intro q hq
  by_contra hchanged
  rcases honly q hq hchanged with rfl | rfl
  · exact hchanged hkeep.1
  · exact hchanged hkeep.2

end Words

end SuperBadBlock.BitErrors
