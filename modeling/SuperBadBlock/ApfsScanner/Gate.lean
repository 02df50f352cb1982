import SuperBadBlock.ApfsScanner.Runs
import SuperBadBlock.Checksum.Theorems

namespace SuperBadBlock

open EndAround

theorem checksumLength_eq (size : Nat) (hlo : 8 ≤ size) (hhi : size < 2 ^ 32) :
    checksumLength size = size - 8 := by
  unfold checksumLength MAX_CKSUM_SIZE
  omega

theorem valid_withChecksum (mem : Memory) (htype : mem.le 24 4 ≠ 0) :
    Valid 4096 mem.withChecksum := by
  refine ⟨?_, ?_⟩
  · change mem.withChecksum.le (0 + 24) 4 ≠ 0
    rw [mem.le_withChecksum _ _ (by decide)]
    exact htype
  · rw [checksumLength_eq 4096 (by decide) (by decide)]
    exact fletcher64_withChecksum mem

-- A smaller block size leaves out the last words, and so takes the block only if
-- these add up to zero.
theorem not_valid_withChecksum (mem : Memory) (n k : Nat) (hk : n + k = 1022)
    (h : ¬sum1 (fun i => mem.withChecksum.word 8 (n + i)) k ≡ 0 [MOD 2 ^ 32 - 1]) :
    ¬Valid (4 * n + 8) mem.withChecksum := by
  simp only [Memory.word_withChecksum] at h
  rintro ⟨-, hgate⟩
  rw [checksumLength_eq _ (by omega) (by omega), Nat.add_sub_cancel] at hgate
  have hsame : (fletcher64 mem 8 (4 * n)).val = (fletcher64 mem 8 (4 * (n + k))).val := by
    rw [hk]
    exact (fletcher64_of_withChecksum mem n).symm.trans (hgate.trans (le_withChecksum_zero mem))
  have hsums := ((fletcher64_eq_iff_sums mem mem 8 8 n (n + k)).mp hsame).1
  have hsplit : sum1 (mem.word 8) (n + k) =
      sum1 (mem.word 8) n + sum1 (fun i => mem.word 8 (n + i)) k := Finset.sum_range_add _ n k
  rw [hsplit] at hsums
  exact h (Nat.ModEq.add_left_cancel' _ hsums.symm)

theorem scanBlock_of_not_valid (scanner : APFSScanner) (pos : Nat) (block : Memory)
    (sectorSize : Nat) (h : ¬Valid scanner.currentBlockSize block) :
    (scanBlock scanner pos block sectorSize).val = scanner := by
  rw [val_scanBlock, if_neg (fun hn => h hn.1), if_neg (fun hs => h hs.1)]

-- The collision law of the checksum, and what it means for the gate: altering
-- words inside two adjacent positions is noticed unless each altered word went
-- from one name of zero to the other.
theorem scanBlock_rejects_corruption :
    (∀ (mem mem' : Memory) (data data' : Int) (n : Nat),
      (fletcher64 mem data (4 * n)).val = (fletcher64 mem' data' (4 * n)).val ↔
        (Finset.range n).sum (fun i => (mem.word data i : ℤ) - mem'.word data' i)
          ≡ 0 [ZMOD 2 ^ 32 - 1] ∧
        (Finset.range n).sum
          (fun i => ((n : ℤ) - i) * ((mem.word data i : ℤ) - mem'.word data' i))
          ≡ 0 [ZMOD 2 ^ 32 - 1]) ∧
    (∀ (scanner : APFSScanner) (pos : Nat) (block block' : Memory) (sectorSize j i : Nat),
      scanner.currentBlockSize = 4096 →
      (fletcher64 block 8 4088).val = (block.o_cksum 0).val →
      (block'.o_cksum 0).val = (block.o_cksum 0).val →
      (∀ k < 1022, k ≠ j → k ≠ j + 1 → block'.word 8 k = block.word 8 k) →
      i < 1022 → block.word 8 i ≠ block'.word 8 i → ¬Flipped (block.word 8 i) (block'.word 8 i) →
      (scanBlock scanner pos block' sectorSize).val = scanner) := by
  constructor
  · intro mem mem' data data' n
    rw [fletcher64_eq_iff_sums, sum1_modEq_iff, sum2_modEq_iff]
    norm_num
  · intro scanner pos block block' sectorSize j i hsize hstored hsame hframe hi hne hflip
    apply scanBlock_of_not_valid
    rintro ⟨-, hgate⟩
    rw [hsize, checksumLength_eq 4096 (by decide) (by decide), hsame, ← hstored] at hgate
    exact hflip (flipped_of_checksum_eq block block' 8 1022 j hframe hgate.symm i hi hne)

-- A block of zeros behind its checksum, with the sixth checksummed word set.
theorem scanBlock_rejects_corruption_of_zero_block :
    (scanBlock {} 0 (fun off => if off = 28 then 1 else Memory.withChecksum (fun _ => 0) off)
      4096).val = {} := by
  have hword (k : Nat) : (Memory.withChecksum fun _ => 0).word 8 k = 0 := by
    rw [Memory.word, Memory.le_withChecksum _ _ _ (by omega)]
    rfl
  have hset : Memory.word (fun off => if off = 28 then 1 else Memory.withChecksum (fun _ => 0) off)
      8 5 = 1 := by rfl
  refine scanBlock_rejects_corruption.2 {} 0 (Memory.withChecksum fun _ => 0) _ 4096 5 5 rfl
    (fletcher64_withChecksum _) ?_ ?_ (by decide) ?_ ?_
  · exact Memory.le_congr fun i _ _ => if_neg (by omega)
  · exact fun k _ h5 _ => Memory.le_congr fun i _ _ => if_neg (by omega)
  · rw [hword, hset]
    decide
  · rw [hword, hset]
    unfold Flipped
    decide

end SuperBadBlock
