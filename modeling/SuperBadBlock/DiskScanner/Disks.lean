import SuperBadBlock.ApfsScanner.Container
import SuperBadBlock.DiskScanner.Footprint

namespace SuperBadBlock

section Images

theorem length_diskImage (blocks : List Memory) : (diskImage blocks).length = 4096 * blocks.length := by
  induction blocks with
  | nil => rfl
  | cons block blocks ih =>
      rw [diskImage, List.flatMap_cons, List.length_append, Memory.length_slice, ← diskImage, ih,
        List.length_cons]
      omega

-- Where a block of the disk lies in its image.
theorem slice_diskImage (blocks : List Memory) (k : Nat) (hk : k < blocks.length) :
    (Memory.ofList (diskImage blocks)).slice (4096 * k : Nat) 4096 = (blocks[k]).slice 0 4096 := by
  induction blocks generalizing k with
  | nil => exact absurd hk (Nat.not_lt_zero k)
  | cons block blocks ih =>
      have himage : diskImage (block :: blocks) = block.slice 0 4096 ++ diskImage blocks := rfl
      cases k with
      | zero =>
          refine List.map_congr_left fun i hi => ?_
          have hlt : i < 4096 := List.mem_range.mp hi
          have hindex : ((4096 * 0 : Nat) + (i : Int)).toNat = i := by omega
          rw [List.getElem_cons_zero, Memory.ofList, if_pos (by omega), hindex, himage,
            List.getD_eq_getElem?_getD, List.getElem?_append_left (by rw [Memory.length_slice]; exact hlt),
            getElem?_slice _ _ hlt, Option.getD_some]
      | succ k =>
          rw [List.getElem_cons_succ, ← ih k (Nat.lt_of_succ_lt_succ hk)]
          refine List.map_congr_left fun i _ => ?_
          have hindex : ((4096 * (k + 1) : Nat) + (i : Int)).toNat =
              (block.slice 0 4096).length + ((4096 * k : Nat) + (i : Int)).toNat := by
            rw [Memory.length_slice]
            omega
          rw [Memory.ofList, if_pos (by omega), himage, hindex, List.getD_append_right _ _ _ _ (by omega),
            Nat.add_sub_cancel_left, Memory.ofList, if_pos (by omega)]

theorem ofList_slice {mem : Memory} {n : Nat} (h : ∀ o : Int, o < 0 ∨ (n : Int) ≤ o → mem o = 0) :
    Memory.ofList (mem.slice 0 n) = mem := by
  funext o
  rw [Memory.ofList]
  by_cases hin : 0 ≤ o ∧ o < n
  · rw [if_pos hin.1, List.getD_eq_getElem?_getD, getElem?_slice _ _ (by omega), Option.getD_some]
    congr 1
    omega
  · split_ifs
    · rw [List.getD_eq_default _ _ (by rw [Memory.length_slice]; omega), h o (by omega)]
    · rw [h o (by omega)]

end Images

section Containers

-- Blocks that are no superblocks are passed over.
theorem superblockPositions_behind {before : List Memory}
    (h : ∀ block ∈ before, ¬IsSuperblock 4096 block) (pos : Nat) (rest : List Memory) :
    superblockPositions 4096 (blocksFrom pos (before ++ rest)) =
      superblockPositions 4096 (blocksFrom (blockPos pos before.length) rest) := by
  induction before generalizing pos with
  | nil => rfl
  | cons block before ih =>
      obtain ⟨hblock, hbefore⟩ := List.forall_mem_cons.mp h
      rw [List.cons_append, blocksFrom, superblockPositions_cons_of_not hblock, ih hbefore,
        List.length_cons, blockPos, blockPos, Function.iterate_succ_apply]

theorem blockPos_eq {n : Nat} (h : 4096 * n < 2 ^ 64) : blockPos 0 n = 4096 * n := by
  induction n with
  | zero => rfl
  | succ n ih =>
      rw [blockPos_succ, ih (by omega), u64, Nat.mod_eq_of_lt (by omega), Nat.mul_succ]

-- A container is found behind the blocks before its superblock.
theorem fsOffset_blocksFrom {before after : List Memory} {block : Memory}
    (hbefore : ∀ other ∈ before, ¬IsSuperblock 4096 other) (hblock : IsSuperblock 4096 block)
    (hpos : 0 < before.length) (hlength : 4096 * before.length < 2 ^ 64) :
    (scanBlocks {} (blocksFrom 0 (before ++ block :: after))).fsOffset = 4096 * before.length := by
  have hpositions : superblockPositions 4096 (blocksFrom 0 (before ++ block :: after)) =
      4096 * before.length :: superblockPositions (nextBlockSize 4096 block)
        (blocksFrom (u64 (4096 * before.length + 4096)) after) := by
    rw [superblockPositions_behind hbefore, blockPos_eq hlength, blocksFrom, superblockPositions,
      if_pos hblock]
    rfl
  have hne : 4096 * before.length ≠ 0 := by omega
  rw [fsOffset_scanBlocks]
  change ((0 :: superblockPositions 4096 _).find? _).getD 0 = _
  rw [hpositions]
  simp [hne]

theorem currentBlockSize_blocksFrom {disk : List DiskBlock} (h : ∀ block ∈ disk, block.Sound)
    {scanner : APFSScanner} (hsize : scanner.currentBlockSize = 4096) (pos : Nat) :
    (scanBlocks scanner (blocksFrom pos (disk.map DiskBlock.memory))).currentBlockSize = 4096 := by
  induction disk generalizing scanner pos with
  | nil => exact hsize
  | cons block disk ih =>
      obtain ⟨hblock, hdisk⟩ := List.forall_mem_cons.mp h
      rw [List.map_cons, blocksFrom, scanBlocks_cons]
      refine ih hdisk ?_ _
      rw [currentBlockSize_scanBlock, hsize]
      exact hblock.nextBlockSize

end Containers

theorem node?_ofNode (nodes : List Node) :
    (nodes.map DiskBlock.ofNode).filterMap DiskBlock.node? = nodes := by
  rw [List.filterMap_map]
  exact List.filterMap_some

-- Bytes of type 0 are ignored.
theorem sound_other {bytes : List UInt8} (htype : ((Memory.ofList bytes).o_type 0).val = 0) :
    (DiskBlock.other bytes).Sound ∧ ¬IsSuperblock 4096 (DiskBlock.other bytes).memory :=
  ⟨⟨fun h => absurd htype h.1.1, if_neg fun h => h.1.1 htype⟩, fun h => h.1.1 htype⟩

theorem node?_other {bytes : List UInt8} (htype : ((Memory.ofList bytes).o_type 0).val = 0) :
    (DiskBlock.other bytes).node? = none :=
  if_neg fun h => h.1.1 htype

-- A block with the superblock of a container.
def superblock : DiskBlock := .other ((superblockImage 4096).slice 0 40)

theorem memory_superblock : superblock.memory = superblockImage 4096 := by
  refine ofList_slice fun o ho => ?_
  simp only [superblockImage, Memory.withChecksum, Memory.store]
  rw [if_neg (by omega), if_neg (by omega), if_neg (by omega), if_neg (by omega)]

theorem sound_superblock : superblock.Sound := by
  have hsuper := isSuperblock_superblockImage 4096
  have hsize : ((superblockImage 4096).nx_block_size 0).val = 4096 := by decide +kernel
  change (IsNode 4096 superblock.memory → ∀ fs, NodeInside superblock.memory fs) ∧
    nextBlockSize 4096 superblock.memory = 4096
  rw [memory_superblock, nextBlockSize, if_pos hsuper]
  exact ⟨fun hnode => absurd hsuper (not_isSuperblock_of_isNode hnode), hsize⟩

theorem node?_superblock : superblock.node? = none := by
  change (if IsNode 4096 superblock.memory then some (nodeOf superblock.memory 4096) else none) = none
  rw [memory_superblock]
  exact if_neg fun hnode => not_isSuperblock_of_isNode hnode (isSuperblock_superblockImage 4096)

end SuperBadBlock
