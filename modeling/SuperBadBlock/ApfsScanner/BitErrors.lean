import SuperBadBlock.ApfsScanner.Image
import SuperBadBlock.Lib.BitErrors

namespace SuperBadBlock

open EndAround

namespace Memory

-- Bit `k` counted from the block pointer, from the lowest bit of each byte on.
def bit (mem : Memory) (k : Nat) : Bool := (mem (k / 8 : Nat)).toNat.testBit (k % 8)

theorem le_add (mem : Memory) (off : Int) (m n : Nat) :
    mem.le off (m + n) = mem.le off m + 256 ^ m * mem.le (off + m) n := by
  induction m generalizing off with
  | zero => simp [Memory.le]
  | succ m ih =>
      have hnext : off + 1 + (m : Int) = off + ((m + 1 : Nat) : Int) := by
        push_cast
        ring
      rw [Nat.succ_add, Memory.le, Memory.le, ih, hnext, pow_succ']
      ring

theorem testBit_le (mem : Memory) (off len : Nat) {b : Nat} (hb : b < 8 * len) :
    (mem.le off len).testBit b = mem.bit (8 * off + b) := by
  induction len generalizing off b with
  | zero => omega
  | succ len ih =>
      have hsplit : mem.le off (len + 1) = 2 ^ 8 * mem.le ((off + 1 : Nat) : Int) len +
          (mem off).toNat := by
        rw [Memory.le, Nat.cast_add, Nat.cast_one]
        omega
      rw [hsplit, Nat.testBit_two_pow_mul_add _ (mem off).toNat_lt]
      split_ifs with hlow
      · have hbyte : (8 * off + b) / 8 = off := by omega
        have hplace : (8 * off + b) % 8 = b := by omega
        rw [bit, hbyte, hplace]
      · have hnext : 8 * (off + 1) + (b - 8) = 8 * off + b := by omega
        rw [ih (off + 1) (by omega), hnext]

theorem testBit_word (mem : Memory) (p : Nat) {b : Nat} (hb : b < 32) :
    (mem.word 0 p).testBit b = mem.bit (32 * p + b) := by
  have hoff : (0 : Int) + 4 * (p : Int) = ((4 * p : Nat) : Int) := by
    push_cast
    ring
  have hbit : 8 * (4 * p) + b = 32 * p + b := by omega
  rw [word, hoff, testBit_le mem (4 * p) 4 (by omega), hbit]

end Memory

-- The words of a block as the checksum takes them: the two check words come last.
def codeWord (block : Memory) (i : Nat) : Nat := block.word 0 ((i + 2) % 1024)

-- The bits of these words.
def codeBit (block : Memory) (q : Nat) : Bool := block.bit (32 * ((q / 32 + 2) % 1024) + q % 32)

theorem word_codeBit (block : Memory) (i : Nat) :
    BitErrors.word 32 (codeBit block) i = codeWord block i := by
  have hlt : codeWord block i < 2 ^ 32 := block.word_lt 0 _
  rw [BitErrors.word_eq_mod _ _ (codeWord block i) fun b hb => ?_, Nat.mod_eq_of_lt hlt]
  have hindex : (32 * i + b) / 32 = i := by omega
  have hplace : (32 * i + b) % 32 = b := by omega
  rw [codeBit, codeWord, Memory.testBit_word _ _ hb, hindex, hplace]

-- Both sums vanish over the words of a block that passes the gate.
theorem sums_of_valid {block : Memory} (h : Valid 4096 block) :
    sum1 (codeWord block) 1024 ≡ 0 [MOD 2 ^ 32 - 1] ∧
      sum2 (codeWord block) 1024 ≡ 0 [MOD 2 ^ 32 - 1] := by
  have hdata : ∀ i < 1022, block.word 8 i = codeWord block i := by
    intro i hi
    have hindex : (i + 2) % 1024 = i + 2 := Nat.mod_eq_of_lt (by omega)
    have hoff : (8 : Int) + 4 * (i : Int) = 0 + 4 * ((i + 2 : Nat) : Int) := by
      push_cast
      ring
    rw [codeWord, hindex, Memory.word, Memory.word, hoff]
  have hsum1 : sum1 (block.word 8) 1022 = sum1 (codeWord block) 1022 :=
    Finset.sum_congr rfl fun i hi => hdata i (Finset.mem_range.mp hi)
  have hsum2 : sum2 (block.word 8) 1022 = sum2 (codeWord block) 1022 :=
    Finset.sum_congr rfl fun i hi => by rw [hdata i (Finset.mem_range.mp hi)]
  have hstored : (block.o_cksum 0).val = codeWord block 1023 * 2 ^ 32 + codeWord block 1022 := by
    have hsplit : block.le 0 8 = block.le 0 4 + 256 ^ 4 * block.le 4 4 := Memory.le_add block 0 4 4
    have hfirst : codeWord block 1022 = block.le 0 4 := rfl
    have hsecond : codeWord block 1023 = block.le 4 4 := rfl
    have hread : (block.o_cksum 0).val = block.le 0 8 := rfl
    rw [hread, hsplit, hfirst, hsecond]
    omega
  have hlow : codeWord block 1022 ≤ 2 ^ 32 - 1 := Nat.le_sub_one_of_lt (block.word_lt 0 _)
  have hhigh : codeWord block 1023 ≤ 2 ^ 32 - 1 := Nat.le_sub_one_of_lt (block.word_lt 0 _)
  have hgate := h.2
  rw [checksumLength_eq 4096 (by decide) (by decide), hstored, MAX_CKSUM_SIZE, val_fletcher64] at hgate
  rw [show (4096 - 8) / 4 = 1022 from rfl, Nat.cast_ofNat, hsum1, hsum2] at hgate
  have hle1 : check1 (2 ^ 32 - 1) (sum1 (codeWord block) 1022) (sum2 (codeWord block) 1022) ≤
      2 ^ 32 - 1 := complement_le _ _
  have hchecks : codeWord block 1022 =
        check1 (2 ^ 32 - 1) (sum1 (codeWord block) 1022) (sum2 (codeWord block) 1022) ∧
      codeWord block 1023 =
        check2 (2 ^ 32 - 1) (sum1 (codeWord block) 1022) (sum2 (codeWord block) 1022) := by
    omega
  exact ((checks_eq_iff_sums_eq_zero (2 ^ 32 - 1) (codeWord block) 1022 (by decide) hlow hhigh).mp
    hchecks).2

-- The bits in which two blocks differ.
def flippedBits (block block' : Memory) : Finset Nat :=
  (Finset.range (8 * 4096)).filter fun k => block'.bit k ≠ block.bit k

-- Two blocks that pass the gate are the same or differ in at least three bits.
theorem three_le_card_flippedBits {block block' : Memory} (h : Valid 4096 block)
    (h' : Valid 4096 block') (hne : (flippedBits block block').Nonempty) :
    3 ≤ (flippedBits block block').card := by
  by_contra hfew
  -- at most two bits, at these two places of the code
  obtain ⟨k, k', hk, hk', hcover⟩ : ∃ k k', k < 8 * 4096 ∧ k' < 8 * 4096 ∧
      ∀ q ∈ flippedBits block block', q = k ∨ q = k' := by
    have hlt : ∀ q ∈ flippedBits block block', q < 8 * 4096 :=
      fun q hq => Finset.mem_range.mp (Finset.mem_filter.mp hq).1
    have hpos := Finset.card_pos.mpr hne
    have hcard : (flippedBits block block').card = 1 ∨ (flippedBits block block').card = 2 := by omega
    rcases hcard with hone | htwo
    · obtain ⟨k, hset⟩ := Finset.card_eq_one.mp hone
      have hk := hlt k (by simp [hset])
      exact ⟨k, k, hk, hk, fun q hq => by simpa [hset] using hq⟩
    · obtain ⟨k, k', -, hset⟩ := Finset.card_eq_two.mp htwo
      exact ⟨k, k', hlt k (by simp [hset]), hlt k' (by simp [hset]), fun q hq => by simpa [hset] using hq⟩
  obtain ⟨hsum, hweighted⟩ := sums_of_valid h
  obtain ⟨hsum', hweighted'⟩ := sums_of_valid h'
  have hmod : (((2 ^ 32 - 1 : Nat)) : ℤ) = 2 ^ 32 - 1 := by norm_num
  have hsame := BitErrors.bits_eq_of_sums (codeBit block) (codeBit block') 1024
    (32 * ((k / 32 + 1022) % 1024) + k % 32) (32 * ((k' / 32 + 1022) % 1024) + k' % 32)
    (show 3 ≤ 32 by decide) (by decide) (by omega) (by omega) (fun q hq hchanged => ?_) ?_ ?_
  · obtain ⟨q, hq⟩ := hne
    obtain ⟨hrange, hchanged⟩ := Finset.mem_filter.mp hq
    have hlt := Finset.mem_range.mp hrange
    have hbit := hsame (32 * ((q / 32 + 1022) % 1024) + q % 32) (by omega)
    have hindex : 32 * (((32 * ((q / 32 + 1022) % 1024) + q % 32) / 32 + 2) % 1024) +
        (32 * ((q / 32 + 1022) % 1024) + q % 32) % 32 = q := by omega
    rw [codeBit, codeBit, hindex] at hbit
    exact hchanged hbit
  · have hmem : 32 * ((q / 32 + 2) % 1024) + q % 32 ∈ flippedBits block block' :=
      Finset.mem_filter.mpr ⟨Finset.mem_range.mpr (by omega), hchanged⟩
    rcases hcover _ hmem with heq | heq
    · left
      omega
    · right
      omega
  · simp only [word_codeBit]
    have h1 := (sum1_modEq_iff (2 ^ 32 - 1) 1024 _ _).mp (hsum'.trans hsum.symm)
    rwa [hmod] at h1
  · simp only [word_codeBit]
    have h2 := (sum2_modEq_iff (2 ^ 32 - 1) 1024 _ _).mp (hweighted'.trans hweighted.symm)
    rwa [hmod] at h2

-- At a block size of 4096 the gate turns away every block that differs from one it takes in one
-- or two bits, wherever they are, the checksum and the type among them.
theorem scanBlock_rejects_two_bit_errors (scanner : APFSScanner) (hsize : scanner.currentBlockSize = 4096)
    (pos : Nat) (block block' : Memory) (sectorSize : Nat) (hvalid : Valid 4096 block)
    (hflipped : (flippedBits block block').Nonempty) (hfew : (flippedBits block block').card ≤ 2) :
    (scanBlock scanner pos block' sectorSize).val = scanner := by
  apply scanBlock_of_not_valid
  rw [hsize]
  intro hvalid'
  have hthree := three_le_card_flippedBits hvalid hvalid' hflipped
  omega

-- The memory with one bit turned over.
def Memory.flipBit (mem : Memory) (k : Nat) : Memory := fun o =>
  if o = (k / 8 : Nat) then UInt8.ofNat ((mem o).toNat ^^^ 2 ^ (k % 8)) else mem o

theorem Memory.bit_flipBit (mem : Memory) (k q : Nat) :
    (mem.flipBit k).bit q = (mem.bit q ^^ decide (q = k)) := by
  rw [bit, flipBit, bit]
  by_cases hbyte : q / 8 = k / 8
  · have hsmall : (mem (k / 8 : Nat)).toNat ^^^ 2 ^ (k % 8) < 256 :=
      Nat.xor_lt_two_pow (n := 8) (mem _).toNat_lt (Nat.pow_lt_pow_right (by decide) (Nat.mod_lt k (by decide)))
    have hplace : q % 8 = k % 8 ↔ q = k := by omega
    have hbits : (UInt8.ofNat ((mem (k / 8 : Nat)).toNat ^^^ 2 ^ (k % 8))).toNat =
        (mem (k / 8 : Nat)).toNat ^^^ 2 ^ (k % 8) := by
      rw [UInt8.toNat_ofNat', Nat.mod_eq_of_lt hsmall]
    rw [hbyte, if_pos rfl, hbits, Nat.testBit_xor, Nat.testBit_two_pow]
    simp only [eq_comm (a := k % 8), hplace]
  · have hne : q ≠ k := fun h => hbyte (h ▸ rfl)
    rw [if_neg (by omega), decide_eq_false hne, Bool.xor_false]

theorem flippedBits_flipBit (mem : Memory) {k : Nat} (hk : k < 8 * 4096) :
    flippedBits mem (mem.flipBit k) = {k} := by
  ext q
  simp only [flippedBits, Memory.bit_flipBit, Finset.mem_filter, Finset.mem_range, Finset.mem_singleton]
  constructor
  · rintro ⟨-, hchanged⟩
    by_contra hne
    exact hchanged (by rw [decide_eq_false hne, Bool.xor_false])
  · rintro rfl
    refine ⟨hk, ?_⟩
    cases mem.bit q <;> simp

-- One bit of the checksum of a node.
theorem scanBlock_rejects_flipped_node :
    (scanBlock {} 0 ((nodeImage { xid := 7, flags := 2, records := [] }).flipBit 3) 4096).val = {} :=
  have hflipped := flippedBits_flipBit (nodeImage { xid := 7, flags := 2, records := [] })
    (show 3 < 8 * 4096 by decide)
  scanBlock_rejects_two_bit_errors {} rfl 0 (nodeImage { xid := 7, flags := 2, records := [] }) _ 4096
    (isNode_nodeImage _).1 (by simp [hflipped]) (by simp [hflipped])

end SuperBadBlock
