import SuperBadBlock.Checksum
import SuperBadBlock.Lib.EndAround
import Mathlib.Data.Nat.Bitwise

namespace SuperBadBlock

open EndAround

-- The `i`-th 32-bit word from `data` on.
def Memory.word (mem : Memory) (data : Int) (i : Nat) : Nat := mem.le (data + 4 * i) 4

theorem Memory.word_lt (mem : Memory) (data : Int) (i : Nat) : mem.word data i < 2 ^ 32 :=
  mem.le_lt _ 4

theorem Memory.word_succ (mem : Memory) (data : Int) (i : Nat) :
    mem.word data (i + 1) = mem.word (data + 4) i := by
  simp only [Memory.word]
  congr 1
  push_cast
  ring

-- Masking and shifting by 32 bits is end-around carry at base 2^32.
theorem carry_eq_fold (x : Nat) : (x &&& 0xFFFFFFFF) + (x >>> 32) = fold (2 ^ 32) x := by
  rw [fold, Nat.shiftRight_eq_div_pow, ← Nat.and_two_pow_sub_one_eq_mod]

-- Both sums stay below 2^32, so no addition of the loop wraps.
theorem u64_carry (s w : Nat) (hs : s ≤ 2 ^ 32 - 1) (hw : w ≤ 2 ^ 32 - 1) :
    u64 ((u64 (s + w) &&& 0xFFFFFFFF) + (u64 (s + w) >>> 32)) = fold (2 ^ 32) (s + w) := by
  have hsum : u64 (s + w) = s + w := Nat.mod_eq_of_lt (by omega)
  have hle := fold_add_le (2 ^ 32) s w hs hw (by decide)
  rw [hsum, carry_eq_fold]
  exact Nat.mod_eq_of_lt (by omega)

theorem val_fletcherLoop_succ (mem : Memory) (n : Nat) (data : Int) (s1 s2 : Nat)
    (h1 : s1 ≤ 2 ^ 32 - 1) (h2 : s2 ≤ 2 ^ 32 - 1) :
    (fletcherLoop mem (n + 1) data s1 s2).val =
      (fletcherLoop mem n (data + 4) (fold (2 ^ 32) (s1 + mem.word data 0))
        (fold (2 ^ 32) (s2 + fold (2 ^ 32) (s1 + mem.word data 0)))).val := by
  have hword : mem.le data 4 = mem.word data 0 := by simp [Memory.word]
  have hlt := mem.word_lt data 0
  have hfirst := fold_add_le (2 ^ 32) s1 (mem.word data 0) h1 (by omega) (by decide)
  simp only [fletcherLoop, Traced.val_bind, Memory.val_read, hword,
    u64_carry s1 (mem.word data 0) h1 (by omega), u64_carry s2 _ h2 hfirst]

-- The loop keeps both sums below 2^32 and congruent to the exact sums.
theorem fletcherLoop_spec (mem : Memory) (n : Nat) (data : Int) (s1 s2 : Nat)
    (h1 : s1 ≤ 2 ^ 32 - 1) (h2 : s2 ≤ 2 ^ 32 - 1) :
    (fletcherLoop mem n data s1 s2).val.1 ≤ 2 ^ 32 - 1 ∧
    (fletcherLoop mem n data s1 s2).val.2 ≤ 2 ^ 32 - 1 ∧
    (fletcherLoop mem n data s1 s2).val.1 ≡ s1 + sum1 (mem.word data) n [MOD 2 ^ 32 - 1] ∧
    (fletcherLoop mem n data s1 s2).val.2 ≡
      s2 + n * s1 + sum2 (mem.word data) n [MOD 2 ^ 32 - 1] := by
  induction n generalizing data s1 s2 with
  | zero => exact ⟨h1, h2, by simp [sum1, fletcherLoop, Nat.ModEq], by simp [sum2, fletcherLoop, Nat.ModEq]⟩
  | succ n ih =>
      have hlt := mem.word_lt data 0
      have hle1 := fold_add_le (2 ^ 32) s1 (mem.word data 0) h1 (by omega) (by decide)
      have hle2 := fold_add_le (2 ^ 32) s2 _ h2 hle1 (by decide)
      have hm1 := fold_modEq (2 ^ 32) (s1 + mem.word data 0) (by decide)
      have hm2 := (fold_modEq (2 ^ 32) (s2 + fold (2 ^ 32) (s1 + mem.word data 0)) (by decide)).trans
        (hm1.add_left s2)
      have hrest : (fun i => mem.word data (i + 1)) = mem.word (data + 4) :=
        funext fun i => mem.word_succ data i
      obtain ⟨hb1, hb2, hc1, hc2⟩ := ih (data + 4) _ _ hle1 hle2
      rw [val_fletcherLoop_succ mem n data s1 s2 h1 h2, sum1_succ, sum2_succ, hrest]
      refine ⟨hb1, hb2, hc1.trans ?_, hc2.trans ?_⟩
      · rw [← Nat.add_assoc]
        exact hm1.add_right _
      · have hshape : s2 + (n + 1) * s1 + ((n + 1) * mem.word data 0 + sum2 (mem.word (data + 4)) n) =
            s2 + (s1 + mem.word data 0) + n * (s1 + mem.word data 0) +
              sum2 (mem.word (data + 4)) n := by ring
        rw [hshape]
        exact (hm2.add (hm1.mul_left n)).add_right _

-- `fletcher64` packs the two check words of the exact sums side by side.
theorem val_fletcher64 (mem : Memory) (data : Int) (byteCount : Nat) :
    (fletcher64 mem data byteCount).val =
      check2 (2 ^ 32 - 1) (sum1 (mem.word data) (byteCount / 4)) (sum2 (mem.word data) (byteCount / 4)) *
          2 ^ 32 +
        check1 (2 ^ 32 - 1) (sum1 (mem.word data) (byteCount / 4)) (sum2 (mem.word data) (byteCount / 4)) := by
  obtain ⟨hb1, hb2, hc1, hc2⟩ :=
    fletcherLoop_spec mem (byteCount / 4) data 0 0 (Nat.zero_le _) (Nat.zero_le _)
  simp only [Nat.zero_add, Nat.mul_zero] at hc1 hc2
  obtain ⟨he1, he2⟩ := (checks_eq_iff _ _ _ _ _ (by decide)).mpr ⟨hc1, hc2⟩
  rw [← he1, ← he2]
  simp only [fletcher64, Traced.val_bind, Traced.val_pure]
  generalize (fletcherLoop mem (byteCount / 4) data 0 0).val = sums at *
  have hle1 : check1 (2 ^ 32 - 1) sums.1 sums.2 ≤ 2 ^ 32 - 1 := complement_le _ _
  have hle2 : check2 (2 ^ 32 - 1) sums.1 sums.2 ≤ 2 ^ 32 - 1 := complement_le _ _
  have hsum : u64 (sums.1 + sums.2) = sums.1 + sums.2 := Nat.mod_eq_of_lt (by omega)
  have hcheck : u64 (sums.1 + check1 (2 ^ 32 - 1) sums.1 sums.2) =
      sums.1 + check1 (2 ^ 32 - 1) sums.1 sums.2 := Nat.mod_eq_of_lt (by omega)
  have hshift : u64 (check2 (2 ^ 32 - 1) sums.1 sums.2 <<< 32) =
      check2 (2 ^ 32 - 1) sums.1 sums.2 <<< 32 := by
    rw [Nat.shiftLeft_eq]
    exact Nat.mod_eq_of_lt (by omega)
  have hc1 : 0xFFFFFFFF - u64 (sums.1 + sums.2) % 0xFFFFFFFF = check1 (2 ^ 32 - 1) sums.1 sums.2 := by
    rw [hsum]
    rfl
  have hc2 : 0xFFFFFFFF - u64 (sums.1 + check1 (2 ^ 32 - 1) sums.1 sums.2) % 0xFFFFFFFF =
      check2 (2 ^ 32 - 1) sums.1 sums.2 := by
    rw [hcheck]
    rfl
  rw [hc1, hc2, hshift, ← Nat.shiftLeft_add_eq_or_of_lt (by omega), Nat.shiftLeft_eq]

-- Equal checksums mean that both sums agree modulo 2^32 - 1, and nothing more.
theorem fletcher64_eq_iff_sums (mem mem' : Memory) (data data' : Int) (n n' : Nat) :
    (fletcher64 mem data (4 * n)).val = (fletcher64 mem' data' (4 * n')).val ↔
      sum1 (mem.word data) n ≡ sum1 (mem'.word data') n' [MOD 2 ^ 32 - 1] ∧
      sum2 (mem.word data) n ≡ sum2 (mem'.word data') n' [MOD 2 ^ 32 - 1] := by
  have hn : 4 * n / 4 = n := by omega
  have hn' : 4 * n' / 4 = n' := by omega
  rw [val_fletcher64, val_fletcher64, hn, hn', ← checks_eq_iff _ _ _ _ _ (by decide)]
  have hle := complement_le (2 ^ 32 - 1) (sum1 (mem.word data) n + sum2 (mem.word data) n)
  have hle' := complement_le (2 ^ 32 - 1) (sum1 (mem'.word data') n' + sum2 (mem'.word data') n')
  simp only [check1] at *
  omega

theorem fletcher64_congr {mem mem' : Memory} {data data' : Int} {n : Nat}
    (h : ∀ i < n, mem.word data i = mem'.word data' i) :
    (fletcher64 mem data (4 * n)).val = (fletcher64 mem' data' (4 * n)).val := by
  rw [fletcher64_eq_iff_sums]
  have h1 : sum1 (mem.word data) n = sum1 (mem'.word data') n :=
    Finset.sum_congr rfl fun i hi => h i (Finset.mem_range.mp hi)
  have h2 : sum2 (mem.word data) n = sum2 (mem'.word data') n :=
    Finset.sum_congr rfl fun i hi => by rw [h i (Finset.mem_range.mp hi)]
  rw [h1, h2]
  exact ⟨rfl, rfl⟩

-- The two words 0 and 2^32 - 1 name one residue.
def Flipped (w w' : Nat) : Prop :=
  (w = 0 ∧ w' = 0xFFFFFFFF) ∨ (w = 0xFFFFFFFF ∧ w' = 0)

theorem eq_or_flipped_of_modEq (w w' : Nat) (hw : w < 2 ^ 32) (hw' : w' < 2 ^ 32)
    (h : (w : ℤ) - w' ≡ 0 [ZMOD (2 ^ 32 - 1 : Nat)]) : w = w' ∨ Flipped w w' := by
  obtain ⟨c, hc⟩ := Int.modEq_zero_iff_dvd.mp h
  unfold Flipped
  push_cast at hc
  omega

-- Altered words inside two adjacent positions keep the checksum only if each
-- of them goes from one name of zero to the other.
theorem flipped_of_checksum_eq (mem mem' : Memory) (data : Int) (n j : Nat)
    (hframe : ∀ i < n, i ≠ j → i ≠ j + 1 → mem'.word data i = mem.word data i)
    (heq : (fletcher64 mem data (4 * n)).val = (fletcher64 mem' data (4 * n)).val)
    (i : Nat) (hi : i < n) (hne : mem.word data i ≠ mem'.word data i) :
    Flipped (mem.word data i) (mem'.word data i) := by
  obtain ⟨h1, h2⟩ := (fletcher64_eq_iff_sums mem mem' data data n n).mp heq
  have hzero := adjacent_modEq_zero _ n j _
    (fun k hk hj hj' => by rw [hframe k hk hj hj', sub_self])
    ((sum1_modEq_iff _ n _ _).mp h1) ((sum2_modEq_iff _ n _ _).mp h2) i hi
  exact (eq_or_flipped_of_modEq _ _ (mem.word_lt data i) (mem'.word_lt data i) hzero).resolve_left hne

theorem fletcher64_lt (mem : Memory) (data : Int) (byteCount : Nat) :
    (fletcher64 mem data byteCount).val < 2 ^ 64 := by
  have hle1 := complement_le (2 ^ 32 - 1) (sum1 (mem.word data) (byteCount / 4) +
    sum2 (mem.word data) (byteCount / 4))
  have hle2 := complement_le (2 ^ 32 - 1) (sum1 (mem.word data) (byteCount / 4) +
    check1 (2 ^ 32 - 1) (sum1 (mem.word data) (byteCount / 4)) (sum2 (mem.word data) (byteCount / 4)))
  rw [val_fletcher64]
  simp only [check2, check1] at *
  omega

-- The block with the checksum of its other 4088 bytes stored in front.
def Memory.withChecksum (mem : Memory) : Memory := fun off =>
  if 0 ≤ off ∧ off < 8 then UInt8.ofNat ((fletcher64 mem 8 4088).val / 256 ^ off.toNat) else mem off

theorem Memory.le_withChecksum (mem : Memory) (off : Int) (len : Nat) (hoff : 8 ≤ off) :
    mem.withChecksum.le off len = mem.le off len :=
  Memory.le_congr fun i hlo _ => if_neg (by omega)

theorem Memory.word_withChecksum (mem : Memory) (i : Nat) : mem.withChecksum.word 8 i = mem.word 8 i :=
  mem.le_withChecksum _ 4 (by omega)

theorem fletcher64_of_withChecksum (mem : Memory) (n : Nat) :
    (fletcher64 mem.withChecksum 8 (4 * n)).val = (fletcher64 mem 8 (4 * n)).val :=
  fletcher64_congr fun i _ => mem.word_withChecksum i

theorem le_withChecksum_zero (mem : Memory) :
    mem.withChecksum.le 0 8 = (fletcher64 mem 8 4088).val := by
  rw [Memory.le_of_bytes _ 0 8 (fletcher64 mem 8 4088).val]
  · exact Nat.mod_eq_of_lt (fletcher64_lt mem 8 4088)
  · intro i hi
    rw [Memory.withChecksum, if_pos (by omega)]
    simp

theorem fletcher64_withChecksum (mem : Memory) :
    (fletcher64 mem.withChecksum 8 4088).val = mem.withChecksum.le 0 8 :=
  (fletcher64_of_withChecksum mem 1022).trans (le_withChecksum_zero mem).symm

end SuperBadBlock
