import SuperBadBlock.ApfsScanner.Image

namespace SuperBadBlock

theorem within_fletcherLoop (P : Access → Prop) (mem : Memory) (n : Nat) (data : Int) (s1 s2 : Nat) :
    (fletcherLoop mem n data s1 s2).Within P ↔ ∀ i < n, P ⟨data + 4 * i, 4⟩ := by
  induction n generalizing data s1 s2 with
  | zero => simp [fletcherLoop]
  | succ n ih =>
      simp only [fletcherLoop, Traced.within_bind, Memory.within_read, ih]
      constructor
      · rintro ⟨hfirst, hrest⟩ i hi
        cases i with
        | zero => simpa using hfirst
        | succ i =>
            have hi' := hrest i (Nat.lt_of_succ_lt_succ hi)
            rwa [show data + 4 + 4 * (i : Int) = data + 4 * ((i + 1 : Nat) : Int) by
              push_cast; ring] at hi'
      · intro h
        refine ⟨by simpa using h 0 (Nat.succ_pos n), fun i hi => ?_⟩
        have hi' := h (i + 1) (Nat.succ_lt_succ hi)
        rwa [show data + 4 * ((i + 1 : Nat) : Int) = data + 4 + 4 * (i : Int) by
          push_cast; ring] at hi'

theorem within_fletcher64 (P : Access → Prop) (mem : Memory) (data : Int) (byteCount : Nat) :
    (fletcher64 mem data byteCount).Within P ↔ ∀ i < byteCount / 4, P ⟨data + 4 * i, 4⟩ := by
  simp only [fletcher64, Traced.within_bind, Traced.within_pure, and_true, within_fletcherLoop]

-- The gate of `scanBlock` at one block: the length does not wrap and is at most
-- 4088, the checksum reads inside the block, and so does the `btree_info` of a node.
structure GateInside (size : Nat) (block : Memory) : Prop where
  no_wrap : (checksumLength size : Int) = size - MAX_CKSUM_SIZE
  length : checksumLength size ≤ 4088
  reads : (fletcher64 block MAX_CKSUM_SIZE (checksumLength size)).Within Access.InBlock
  btreeInfo : IsNode size block → Access.InBlock ⟨size - sizeof_btree_info_t, 40⟩

theorem gateInside_iff (size : Nat) (block : Memory) :
    GateInside size block ↔ 8 ≤ size ∧ size ≤ 4096 ∧ (IsNode size block → 40 ≤ size) := by
  constructor
  · rintro ⟨hwrap, hlength, -, hinfo⟩
    unfold checksumLength MAX_CKSUM_SIZE at hwrap hlength
    refine ⟨by omega, by omega, fun hn => ?_⟩
    have hlo := (hinfo hn).1
    simp only [sizeof_btree_info_t] at hlo
    omega
  · rintro ⟨hlo, hhi, hnode⟩
    have hlen := checksumLength_eq size hlo (by omega)
    refine ⟨?_, by omega, ?_, fun hn => ?_⟩
    · rw [hlen, MAX_CKSUM_SIZE]
      omega
    · rw [within_fletcher64, hlen]
      intro i hi
      simp only [Access.InBlock, MAX_CKSUM_SIZE]
      omega
    · have h40 := hnode hn
      simp only [Access.InBlock, sizeof_btree_info_t]
      omega

-- Every call of a scan meets a block size that keeps the gate inside the block.
def GatesInside (blocks : List ScannedBlock) : Prop :=
  ∀ before b after, blocks = before ++ b :: after →
    GateInside (scanBlocks {} before).currentBlockSize b.block

-- Superblock `b` is accepted, and is the last one when block `c` is scanned.
def Governs (blocks : List ScannedBlock) (b c : ScannedBlock) : Prop :=
  ∃ before between after, blocks = before ++ b :: between ++ c :: after ∧
    IsSuperblock (scanBlocks {} before).currentBlockSize b.block ∧
    ∀ m ∈ between, ¬IsSuperblock (b.block.nx_block_size 0).val m.block

theorem currentBlockSize_of_no_superblock (scanner : APFSScanner) (blocks : List ScannedBlock)
    (h : ∀ b ∈ blocks, ¬IsSuperblock scanner.currentBlockSize b.block) :
    (scanBlocks scanner blocks).currentBlockSize = scanner.currentBlockSize := by
  induction blocks generalizing scanner with
  | nil => rfl
  | cons b blocks ih =>
      obtain ⟨hhead, htail⟩ := List.forall_mem_cons.mp h
      have hsize : (scanBlock scanner b.pos b.block b.sectorSize).val.currentBlockSize =
          scanner.currentBlockSize := by
        rw [currentBlockSize_scanBlock, nextBlockSize, if_neg hhead]
      rw [scanBlocks_cons, ih _ (hsize ▸ htail), hsize]

theorem currentBlockSize_after_superblock (before between : List ScannedBlock) (b : ScannedBlock)
    (hb : IsSuperblock (scanBlocks {} before).currentBlockSize b.block)
    (hbetween : ∀ m ∈ between, ¬IsSuperblock (b.block.nx_block_size 0).val m.block) :
    (scanBlocks {} (before ++ b :: between)).currentBlockSize = (b.block.nx_block_size 0).val := by
  have hsize : (scanBlock (scanBlocks {} before) b.pos b.block b.sectorSize).val.currentBlockSize =
      (b.block.nx_block_size 0).val := by
    rw [currentBlockSize_scanBlock, nextBlockSize, if_pos hb]
  rw [scanBlocks_append, scanBlocks_cons, currentBlockSize_of_no_superblock _ _ (hsize ▸ hbetween),
    hsize]

-- The block size in force is the initial one or that of the last superblock.
theorem currentBlockSize_cases (blocks : List ScannedBlock) :
    ((scanBlocks {} blocks).currentBlockSize = 4096) ∨
    ∃ before b between, blocks = before ++ b :: between ∧
      IsSuperblock (scanBlocks {} before).currentBlockSize b.block ∧
      (∀ m ∈ between, ¬IsSuperblock (b.block.nx_block_size 0).val m.block) ∧
      (scanBlocks {} blocks).currentBlockSize = (b.block.nx_block_size 0).val := by
  induction blocks using List.reverseRecOn with
  | nil => exact Or.inl rfl
  | append_singleton blocks last ih =>
      have hlast : (scanBlocks {} (blocks ++ [last])).currentBlockSize =
          nextBlockSize (scanBlocks {} blocks).currentBlockSize last.block := by
        rw [scanBlocks_append, scanBlocks_cons, scanBlocks_nil, currentBlockSize_scanBlock]
      rw [hlast, nextBlockSize]
      split_ifs with hs
      · exact Or.inr ⟨blocks, last, [], rfl, hs, by simp, rfl⟩
      · rcases ih with hsize | ⟨before, b, between, rfl, hb, hbetween, hsize⟩
        · exact Or.inl hsize
        · refine Or.inr ⟨before, b, between ++ [last], by simp, hb, ?_, hsize⟩
          rw [hsize] at hs
          exact List.forall_mem_append.mpr ⟨hbetween, List.forall_mem_singleton.mpr hs⟩

-- The gate stays inside the block over a whole scan exactly if every accepted
-- superblock that another block follows names a block size the buffer can hold.
theorem gates_inside_iff (blocks : List ScannedBlock) :
    GatesInside blocks ↔ ∀ b c, Governs blocks b c →
      8 ≤ (b.block.nx_block_size 0).val ∧ (b.block.nx_block_size 0).val ≤ 4096 ∧
      (IsNode (b.block.nx_block_size 0).val c.block → 40 ≤ (b.block.nx_block_size 0).val) := by
  constructor
  · rintro h b c ⟨before, between, after, hblocks, hb, hbetween⟩
    have hgate := h (before ++ b :: between) c after (by simpa using hblocks)
    rw [currentBlockSize_after_superblock before between b hb hbetween] at hgate
    exact (gateInside_iff _ _).mp hgate
  · intro h before c after hblocks
    rcases currentBlockSize_cases before with hsize | ⟨first, b, between, rfl, hb, hbetween, hsize⟩
    · rw [hsize, gateInside_iff]
      exact ⟨by decide, by decide, fun _ => by decide⟩
    · rw [hsize, gateInside_iff]
      exact h b c ⟨first, between, after, hblocks, hb, hbetween⟩

-- A superblock that names 8192 bytes, and any block behind it.
theorem gate_leaves_block :
    ¬GatesInside [{ pos := 0, block := superblockImage 8192 }, { pos := 4096, block := fun _ => 0 }] := by
  intro h
  have hsize : ((superblockImage 8192).nx_block_size 0).val = 8192 := by decide +kernel
  have hgate := h [{ pos := 0, block := superblockImage 8192 }] { pos := 4096, block := fun _ => 0 } [] rfl
  have hafter := currentBlockSize_after_superblock [] [] { pos := 0, block := superblockImage 8192 }
    (isSuperblock_superblockImage 8192) (by simp)
  rw [List.nil_append] at hafter
  rw [hafter, gateInside_iff, hsize] at hgate
  exact absurd hgate.2.1 (by decide)

end SuperBadBlock
