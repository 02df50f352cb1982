import SuperBadBlock.Checksum.Theorems

namespace SuperBadBlock

open EndAround

-- The two running sums after `k` passes of the loop.
def sumsAfter (mem : Memory) (data : Int) (k : Nat) : Nat × Nat :=
  (fletcherLoop mem k data 0 0).val

theorem fletcherLoop_add (mem : Memory) (k n : Nat) (data : Int) (s1 s2 : Nat) :
    (fletcherLoop mem (k + n) data s1 s2).val =
      (fletcherLoop mem n (data + 4 * k) (fletcherLoop mem k data s1 s2).val.1
        (fletcherLoop mem k data s1 s2).val.2).val := by
  induction k generalizing data s1 s2 with
  | zero => simp [fletcherLoop]
  | succ k ih =>
      have hnext : data + 4 * ((k + 1 : Nat) : Int) = data + 4 + 4 * k := by
        push_cast
        ring
      rw [Nat.succ_add, hnext]
      simp only [fletcherLoop, Traced.val_bind]
      exact ih (data + 4) _ _

theorem sumsAfter_spec (mem : Memory) (data : Int) (k : Nat) :
    (sumsAfter mem data k).1 ≤ 2 ^ 32 - 1 ∧ (sumsAfter mem data k).2 ≤ 2 ^ 32 - 1 ∧
    (sumsAfter mem data k).1 ≡ sum1 (mem.word data) k [MOD 2 ^ 32 - 1] ∧
    (sumsAfter mem data k).2 ≡ sum2 (mem.word data) k [MOD 2 ^ 32 - 1] := by
  have h := fletcherLoop_spec mem k data 0 0 (Nat.zero_le _) (Nat.zero_le _)
  simp only [Nat.zero_add, Nat.mul_zero] at h
  exact h

-- One pass in exact arithmetic: none of its four additions needs more than 64 bits.
theorem sumsAfter_succ (mem : Memory) (data : Int) (k : Nat) :
    let s1 := (sumsAfter mem data k).1 + mem.word data k
    let f1 := (s1 &&& 0xFFFFFFFF) + (s1 >>> 32)
    let s2 := (sumsAfter mem data k).2 + f1
    let f2 := (s2 &&& 0xFFFFFFFF) + (s2 >>> 32)
    s1 < 2 ^ 64 ∧ f1 < 2 ^ 64 ∧ s2 < 2 ^ 64 ∧ f2 < 2 ^ 64 ∧
      sumsAfter mem data (k + 1) = (f1, f2) := by
  intro s1 f1 s2 f2
  obtain ⟨h1, h2, -, -⟩ := sumsAfter_spec mem data k
  have hword := mem.word_lt data k
  have hf1 : f1 = fold (2 ^ 32) s1 := carry_eq_fold s1
  have hf2 : f2 = fold (2 ^ 32) s2 := carry_eq_fold s2
  have hle1 : f1 ≤ 2 ^ 32 - 1 := by
    rw [hf1]
    exact fold_add_le (2 ^ 32) _ _ h1 (by omega) (by decide)
  have hle2 : f2 ≤ 2 ^ 32 - 1 := by
    rw [hf2]
    exact fold_add_le (2 ^ 32) _ _ h2 hle1 (by decide)
  have hword0 : mem.word (data + 4 * k) 0 = mem.word data k := by
    simp [Memory.word]
  refine ⟨by omega, by omega, by omega, by omega, ?_⟩
  have hs2 : s2 = (sumsAfter mem data k).2 + fold (2 ^ 32) s1 := by rw [← hf1]
  rw [sumsAfter, fletcherLoop_add, ← sumsAfter, val_fletcherLoop_succ mem 0 _ _ _ h1 h2, hword0,
    hf2, hs2, hf1]
  simp only [fletcherLoop, Traced.val_pure, s1]

-- `fletcher64` computes the check words of the exact sums; on the way both running
-- sums stay below 2^32, agree with the exact sums of the words read so far, and
-- nothing overflows.
theorem fletcher64_exact (mem : Memory) (data : Int) (byteCount : Nat) :
    let n := byteCount / 4
    let m := 2 ^ 32 - 1
    let c1 := m - (sum1 (mem.word data) n + sum2 (mem.word data) n) % m
    let c2 := m - (sum1 (mem.word data) n + c1) % m
    (∀ k ≤ n,
      (fletcherLoop mem n data 0 0).val = (fletcherLoop mem (n - k) (data + 4 * k)
        (sumsAfter mem data k).1 (sumsAfter mem data k).2).val ∧
      (sumsAfter mem data k).1 ≤ m ∧ (sumsAfter mem data k).2 ≤ m ∧
      (sumsAfter mem data k).1 ≡ sum1 (mem.word data) k [MOD m] ∧
      (sumsAfter mem data k).2 ≡ sum2 (mem.word data) k [MOD m]) ∧
    (∀ k < n,
      let s1 := (sumsAfter mem data k).1 + mem.word data k
      let f1 := (s1 &&& 0xFFFFFFFF) + (s1 >>> 32)
      let s2 := (sumsAfter mem data k).2 + f1
      let f2 := (s2 &&& 0xFFFFFFFF) + (s2 >>> 32)
      s1 < 2 ^ 64 ∧ f1 < 2 ^ 64 ∧ s2 < 2 ^ 64 ∧ f2 < 2 ^ 64 ∧
        sumsAfter mem data (k + 1) = (f1, f2)) ∧
    ((sumsAfter mem data n).1 + (sumsAfter mem data n).2 < 2 ^ 64 ∧
      (sumsAfter mem data n).1 + c1 < 2 ^ 64) ∧
    (fletcher64 mem data byteCount).val = c2 * 2 ^ 32 + c1 ∧
    (1 ≤ c1 ∧ c1 ≤ m) ∧ (1 ≤ c2 ∧ c2 ≤ m) := by
  intro n m c1 c2
  have hc1 : c1 = complement m (sum1 (mem.word data) n + sum2 (mem.word data) n) := rfl
  have hc2 : c2 = complement m (sum1 (mem.word data) n + c1) := rfl
  have hm : 0 < m := by decide
  have hle1 : c1 ≤ m := hc1 ▸ complement_le m _
  have hle2 : c2 ≤ m := hc2 ▸ complement_le m _
  have hm64 : m < 2 ^ 32 := by decide
  obtain ⟨hb1, hb2, -, -⟩ := sumsAfter_spec mem data n
  refine ⟨fun k hk => ⟨?_, sumsAfter_spec mem data k⟩, fun k _ => sumsAfter_succ mem data k,
    ⟨by omega, by omega⟩, val_fletcher64 mem data byteCount, ⟨?_, hle1⟩, ?_, hle2⟩
  · have hn : n = k + (n - k) := by omega
    conv_lhs => rw [hn]
    exact fletcherLoop_add mem k (n - k) data 0 0
  · rw [hc1]
    exact complement_pos m _ hm
  · rw [hc2]
    exact complement_pos m _ hm

-- The data of `n` words, followed in memory by two stored words: recomputing the
-- checksum accepts the two words exactly if the code checks itself.
theorem fletcher64_self_check (mem : Memory) (data : Int) (n : Nat) :
    (fletcher64 mem data (4 * n)).val = mem.word data (n + 1) * 2 ^ 32 + mem.word data n ↔
      (mem.word data n ≠ 0 ∧ mem.word data (n + 1) ≠ 0) ∧
        (fletcherLoop mem (n + 2) data 0 0).val.1 ≡ 0 [MOD 2 ^ 32 - 1] ∧
        (fletcherLoop mem (n + 2) data 0 0).val.2 ≡ 0 [MOD 2 ^ 32 - 1] := by
  have hlt1 := mem.word_lt data n
  have hlt2 := mem.word_lt data (n + 1)
  have hn : 4 * n / 4 = n := by omega
  obtain ⟨-, -, hs1, hs2⟩ := sumsAfter_spec mem data (n + 2)
  have hzero1 : (sumsAfter mem data (n + 2)).1 ≡ 0 [MOD 2 ^ 32 - 1] ↔
      sum1 (mem.word data) (n + 2) ≡ 0 [MOD 2 ^ 32 - 1] := ⟨hs1.symm.trans, hs1.trans⟩
  have hzero2 : (sumsAfter mem data (n + 2)).2 ≡ 0 [MOD 2 ^ 32 - 1] ↔
      sum2 (mem.word data) (n + 2) ≡ 0 [MOD 2 ^ 32 - 1] := ⟨hs2.symm.trans, hs2.trans⟩
  rw [← sumsAfter, hzero1, hzero2, ← checks_eq_iff_sums_eq_zero (2 ^ 32 - 1) (mem.word data) n
    (by decide) (by omega) (by omega), val_fletcher64, hn]
  have hle : check1 (2 ^ 32 - 1) (sum1 (mem.word data) n) (sum2 (mem.word data) n) ≤ 2 ^ 32 - 1 :=
    complement_le _ _
  -- the two halves of the result do not overlap
  omega

end SuperBadBlock
