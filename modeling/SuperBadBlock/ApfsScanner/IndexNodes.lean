import SuperBadBlock.ApfsScanner.Unchanged
import SuperBadBlock.ApfsScanner.Image

namespace SuperBadBlock

-- An inode record or a directory record of a leaf node mentions inode `i`.
def FromLeaf (nodes : List Node) (i : Nat) : Prop :=
  ∃ node ∈ nodes, node.IsLeaf ∧ ∃ record ∈ node.records, record.Mentions i

instance (nodes : List Node) (i : Nat) : Decidable (FromLeaf nodes i) :=
  inferInstanceAs (Decidable (∃ _ ∈ _, _))

-- Every inode of the cache and of the entry table comes from a leaf node.
def NoPhantoms (blocks : List ScannedBlock) : Prop :=
  ∀ i, ((scanBlocks {} blocks).fileSystem.cached i).isSome ∨
    i ∈ (scanBlocks {} blocks).fileSystem.entry.map EntryRow.inode →
      FromLeaf (scannedNodes 4096 blocks) i

theorem noPhantoms_iff (blocks : List ScannedBlock) :
    NoPhantoms blocks ↔ ∀ node ∈ scannedNodes 4096 blocks, ¬node.IsLeaf →
      ∀ record ∈ node.records, ∀ i, record.Mentions i → FromLeaf (scannedNodes 4096 blocks) i := by
  have hconsistent : (scanBlocks {} blocks).fileSystem.Consistent :=
    Reachable.consistent ⟨blocks, rfl⟩
  simp only [NoPhantoms, hconsistent.mem_inodes, or_self, cached_isSome_iff]
  constructor
  · exact fun h node hn _ record hr i hm => h i ⟨node, hn, record, hr, hm⟩
  · rintro h i ⟨node, hn, record, hr, hm⟩
    by_cases hleaf : node.IsLeaf
    · exact ⟨node, hn, hleaf, record, hr, hm⟩
    · exact h node hn hleaf record hr i hm

-- A scan makes no phantom files exactly if the leaf nodes mention every inode
-- that the records read out of other nodes mention. Another node leaves the
-- store alone exactly if the store has absorbed what is read out of it.
theorem no_phantoms_iff (blocks : List ScannedBlock) :
    (NoPhantoms blocks ↔ ∀ node ∈ scannedNodes 4096 blocks, ¬node.IsLeaf →
      ∀ record ∈ node.records, ∀ i, record.Mentions i →
        FromLeaf (scannedNodes 4096 blocks) i) ∧
    ∀ b : ScannedBlock, IsNode (scanBlocks {} blocks).currentBlockSize b.block →
      ¬(nodeOf b.block (scanBlocks {} blocks).currentBlockSize).IsLeaf →
      (SameStore (scanBlocks {} blocks).fileSystem
          (scanBlock (scanBlocks {} blocks) b.pos b.block b.sectorSize).val.fileSystem ↔
        Absorbed (scanBlocks {} blocks).fileSystem
          (nodeOf b.block (scanBlocks {} blocks).currentBlockSize)) := by
  refine ⟨noPhantoms_iff blocks, fun b hnode _ => ?_⟩
  have hconsistent : (scanBlocks {} blocks).fileSystem.Consistent :=
    Reachable.consistent ⟨blocks, rfl⟩
  have hsteps := steps_scanBlock (scanBlocks {} blocks) hconsistent b
  simp only [scannedNodes, if_pos hnode, List.append_nil] at hsteps
  exact hsteps.sameStore_iff_absorbed hconsistent

def leafImages : List ScannedBlock := nodeImages [⟨7, 2, [.inode 5 2 (some 4096)]⟩]

def olderIndexBlock : ScannedBlock := { pos := 0, block := nodeImage ⟨3, 0, [.inode 5 1031 none]⟩ }

-- An index node that repeats the key of an inode record of a leaf makes no file
-- of its own, and if it is older than the leaf it leaves the store alone.
theorem no_phantoms_of_repeated_key :
    NoPhantoms (nodeImages [⟨7, 2, [.inode 5 2 (some 4096)]⟩, ⟨7, 0, [.inode 5 1031 none]⟩]) ∧
    SameStore (scanBlocks {} leafImages).fileSystem
      (scanBlock (scanBlocks {} leafImages) olderIndexBlock.pos olderIndexBlock.block
        olderIndexBlock.sectorSize).val.fileSystem := by
  constructor
  · have hnodes : ([⟨7, 2, [.inode 5 2 (some 4096)]⟩, ⟨7, 0, [.inode 5 1031 none]⟩].map
        fun node => nodeOf (nodeImage node) 4096) =
        [⟨7, 2, [.inode 5 2 (some 4096)]⟩, ⟨7, 0, [.inode 5 1031 none]⟩] := by decide +kernel
    rw [(no_phantoms_iff _).1, scannedNodes_nodeImages, hnodes]
    have hall : ∀ node ∈ ([⟨7, 2, [.inode 5 2 (some 4096)]⟩, ⟨7, 0, [.inode 5 1031 none]⟩] : List Node),
        ∀ record ∈ node.records, record.id = 5 ∧ record.isInode = true := by decide
    intro node hn _ record hr i hm
    obtain ⟨hid, hinode⟩ := hall node hn record hr
    cases record with
    | inode id parentId length =>
        obtain rfl : 5 = i := hid.symm.trans hm
        decide
    | _ => cases hinode
  · have hsize : (scanBlocks {} leafImages).currentBlockSize = 4096 := by
      rw [leafImages, nodeImages, List.map_singleton, scanBlocks_cons, scanBlocks_nil,
        currentBlockSize_scanBlock]
      exact if_neg (not_isSuperblock_of_isNode (isNode_nodeImage _))
    have hnode : nodeOf olderIndexBlock.block 4096 = ⟨3, 0, [.inode 5 1031 none]⟩ := by
      decide +kernel
    have hleaf : ([⟨7, 2, [.inode 5 2 (some 4096)]⟩].map fun node => nodeOf (nodeImage node) 4096) =
        [⟨7, 2, [.inode 5 2 (some 4096)]⟩] := by decide +kernel
    have hcached : (scanBlocks {} leafImages).fileSystem.cached 5 =
        some { inode := 5, parentId := 2, versionId := 7, length := 4096, isNew := false } := by
      rw [cached_scanBlocks, leafImages, scannedNodes_nodeImages, hleaf]
      decide
    refine ((no_phantoms_iff leafImages).2 olderIndexBlock ?_ ?_).mpr ?_
    · rw [hsize]
      exact isNode_nodeImage _
    · rw [hsize, hnode]
      decide
    · rw [hsize, hnode]
      rintro i ⟨record, hr, hm⟩
      obtain rfl := List.mem_singleton.mp hr
      obtain rfl : 5 = i := hm
      exact ⟨_, hcached, Or.inl (by decide), Or.inl rfl⟩

-- The value of an index entry is the id of a child node, here 1031. Read as a
-- directory record it becomes a file.
theorem index_entry_becomes_file :
    (∀ b ∈ nodeImages [⟨7, 0, [.dirRec 2 1031 [97] 8]⟩], IsNode 4096 b.block) ∧
    ¬NoPhantoms (nodeImages [⟨7, 0, [.dirRec 2 1031 [97] 8]⟩]) := by
  refine ⟨List.forall_mem_map.mpr fun node _ => isNode_nodeImage node, fun h => ?_⟩
  have hnone := h 1031
  rw [cached_isSome_iff, scannedNodes_nodeImages] at hnone
  exact absurd (hnone (Or.inl (by decide +kernel))) (by decide +kernel)

end SuperBadBlock
