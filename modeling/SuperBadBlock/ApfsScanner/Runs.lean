import SuperBadBlock.ApfsScanner.Steps
import SuperBadBlock.Lib.KeyedFold

namespace SuperBadBlock

-- The block passes the gate of `scanBlock`.
def Valid (size : Nat) (block : Memory) : Prop :=
  (block.o_type 0).val ≠ 0 ∧
    (fletcher64 block MAX_CKSUM_SIZE (checksumLength size)).val = (block.o_cksum 0).val

instance (size : Nat) (block : Memory) : Decidable (Valid size block) :=
  inferInstanceAs (Decidable (_ ∧ _))

def objectType (block : Memory) : Nat := (block.o_type 0).val &&& 0xffff

def IsSuperblock (size : Nat) (block : Memory) : Prop :=
  Valid size block ∧ objectType block = OBJECT_TYPE_NX_SUPERBLOCK ∧
    (block.nx_magic 0).val = NX_MAGIC_NO

instance (size : Nat) (block : Memory) : Decidable (IsSuperblock size block) :=
  inferInstanceAs (Decidable (_ ∧ _))

def IsNode (size : Nat) (block : Memory) : Prop :=
  Valid size block ∧
    (objectType block = OBJECT_TYPE_BTREE_NODE ∨ objectType block = OBJECT_TYPE_BTREE)

instance (size : Nat) (block : Memory) : Decidable (IsNode size block) :=
  inferInstanceAs (Decidable (_ ∧ _))

-- A node whose values are records.
def IsLeaf (size : Nat) (block : Memory) : Prop :=
  IsNode size block ∧ (nodeOf block size).IsLeaf

instance (size : Nat) (block : Memory) : Decidable (IsLeaf size block) :=
  inferInstanceAs (Decidable (_ ∧ _))

theorem not_isSuperblock_of_isNode {size : Nat} {block : Memory} (h : IsNode size block) :
    ¬IsSuperblock size block := by
  rintro ⟨-, ht, -⟩
  rcases h.2 with h | h <;> rw [ht] at h <;> exact absurd h (by decide)

-- The three outcomes of `scanBlock`.
theorem val_scanBlock (scanner : APFSScanner) (pos : Nat) (block : Memory) (sectorSize : Nat) :
    (scanBlock scanner pos block sectorSize).val =
      if IsNode scanner.currentBlockSize block then (scanBTreeBlock block scanner).val
      else if IsSuperblock scanner.currentBlockSize block then
        { scanner with
          currentBlockSize := (block.nx_block_size 0).val
          fsOffset := if scanner.fsOffset = 0 then pos else scanner.fsOffset }
      else scanner := by
  have hgate : Valid scanner.currentBlockSize block ↔ (block.o_type 0).val ≠ 0 ∧
      (fletcher64 block MAX_CKSUM_SIZE (checksumLength scanner.currentBlockSize)).val =
        (block.o_cksum 0).val := Iff.rfl
  have hnode : IsNode scanner.currentBlockSize block ↔ Valid scanner.currentBlockSize block ∧
      (objectType block = OBJECT_TYPE_BTREE_NODE ∨ objectType block = OBJECT_TYPE_BTREE) := Iff.rfl
  have hsuper : IsSuperblock scanner.currentBlockSize block ↔ Valid scanner.currentBlockSize block ∧
      objectType block = OBJECT_TYPE_NX_SUPERBLOCK ∧ (block.nx_magic 0).val = NX_MAGIC_NO := Iff.rfl
  have htype : (block.o_type 0).val &&& 0xffff = objectType block := rfl
  simp only [scanBlock, Traced.val_bind, Traced.val_ite, Traced.val_pure, ← hgate, htype]
  by_cases hv : Valid scanner.currentBlockSize block
  · by_cases hs : objectType block = OBJECT_TYPE_NX_SUPERBLOCK
    · have hn : ¬IsNode scanner.currentBlockSize block := by
        rw [hnode, hs]
        exact fun h => absurd h.2 (by decide)
      by_cases hm : (block.nx_magic 0).val = NX_MAGIC_NO
      · simp only [hv, hs, hm, hn, hsuper, and_self, ite_true, ite_false]
        split_ifs <;> rfl
      · simp only [hv, hs, hm, hn, hsuper, and_false, ite_true, ite_false]
    · simp only [hv, hs, hnode, hsuper, true_and, false_and, ite_true, ite_false]
  · simp only [hv, hnode, hsuper, false_and, ite_false]

-- One call of `scanBlock`.
structure ScannedBlock where
  pos : Nat
  block : Memory
  sectorSize : Nat := 4096

def scanBlocks (scanner : APFSScanner) (blocks : List ScannedBlock) : APFSScanner :=
  blocks.foldl (fun scanner b => (scanBlock scanner b.pos b.block b.sectorSize).val) scanner

@[simp] theorem scanBlocks_nil (scanner : APFSScanner) : scanBlocks scanner [] = scanner := rfl

@[simp] theorem scanBlocks_cons (scanner : APFSScanner) (b : ScannedBlock)
    (blocks : List ScannedBlock) :
    scanBlocks scanner (b :: blocks) =
      scanBlocks (scanBlock scanner b.pos b.block b.sectorSize).val blocks := rfl

theorem scanBlocks_append (scanner : APFSScanner) (first second : List ScannedBlock) :
    scanBlocks scanner (first ++ second) = scanBlocks (scanBlocks scanner first) second :=
  List.foldl_append

-- A state some scan of some image passes through.
def Reachable (scanner : APFSScanner) : Prop := ∃ blocks, scanBlocks {} blocks = scanner

-- The block size in force after a block.
def nextBlockSize (size : Nat) (block : Memory) : Nat :=
  if IsSuperblock size block then (block.nx_block_size 0).val else size

theorem currentBlockSize_scanBlock (scanner : APFSScanner) (pos : Nat) (block : Memory)
    (sectorSize : Nat) :
    (scanBlock scanner pos block sectorSize).val.currentBlockSize =
      nextBlockSize scanner.currentBlockSize block := by
  rw [val_scanBlock, nextBlockSize]
  by_cases hn : IsNode scanner.currentBlockSize block
  · rw [if_pos hn, if_neg (not_isSuperblock_of_isNode hn)]
    rfl
  · rw [if_neg hn]
    split_ifs <;> rfl

-- The nodes a scan takes records from, in the order it meets them.
def scannedNodes : Nat → List ScannedBlock → List Node
  | _, [] => []
  | size, b :: blocks =>
      (if IsNode size b.block then [nodeOf b.block size] else []) ++
        scannedNodes (nextBlockSize size b.block) blocks

-- A sequence of nodes is taken whole, at one block size.
theorem scannedNodes_of_isNode {size : Nat} {blocks : List ScannedBlock}
    (h : ∀ b ∈ blocks, IsNode size b.block) :
    scannedNodes size blocks = blocks.map fun b => nodeOf b.block size := by
  induction blocks with
  | nil => rfl
  | cons b blocks ih =>
      obtain ⟨hhead, htail⟩ := List.forall_mem_cons.mp h
      have hsize : nextBlockSize size b.block = size :=
        if_neg (not_isSuperblock_of_isNode hhead)
      rw [scannedNodes, if_pos hhead, hsize, ih htail]
      rfl

theorem steps_scanBlock (scanner : APFSScanner) (h : scanner.fileSystem.Consistent)
    (b : ScannedBlock) :
    Steps scanner.fileSystem ((scannedNodes scanner.currentBlockSize [b]).flatMap Node.touches)
      (scanBlock scanner b.pos b.block b.sectorSize).val.fileSystem := by
  rw [val_scanBlock, scannedNodes, scannedNodes, List.append_nil]
  by_cases hn : IsNode scanner.currentBlockSize b.block
  · rw [if_pos hn, if_pos hn, List.flatMap_singleton]
    exact steps_scanBTreeBlock b.block scanner h
  · rw [if_neg hn, if_neg hn]
    split_ifs <;> exact .done h

theorem steps_scanBlocks (scanner : APFSScanner) (h : scanner.fileSystem.Consistent)
    (blocks : List ScannedBlock) :
    Steps scanner.fileSystem ((scannedNodes scanner.currentBlockSize blocks).flatMap Node.touches)
      (scanBlocks scanner blocks).fileSystem := by
  induction blocks generalizing scanner with
  | nil => exact .done h
  | cons b blocks ih =>
      have hstep := steps_scanBlock scanner h b
      have hrest := ih (scanBlock scanner b.pos b.block b.sectorSize).val hstep.consistent
      rw [currentBlockSize_scanBlock] at hrest
      simp only [scannedNodes, List.append_nil] at hstep
      rw [scannedNodes, List.flatMap_append, scanBlocks_cons]
      exact hstep.append hrest

theorem Reachable.consistent {scanner : APFSScanner} (h : Reachable scanner) :
    scanner.fileSystem.Consistent := by
  obtain ⟨blocks, rfl⟩ := h
  exact (steps_scanBlocks {} FileSystem.consistent_empty blocks).consistent

theorem Reachable.scanBlock {scanner : APFSScanner} (h : Reachable scanner) (pos : Nat)
    (block : Memory) (sectorSize : Nat) :
    Reachable (SuperBadBlock.scanBlock scanner pos block sectorSize).val := by
  obtain ⟨blocks, rfl⟩ := h
  exact ⟨blocks ++ [⟨pos, block, sectorSize⟩], by rw [scanBlocks_append]; rfl⟩

-- The cache after a sequence of touches.
theorem Steps.cached_eq {fs fs' : FileSystem} {touches : List (Nat × Event)}
    (h : Steps fs touches fs') :
    fs'.cached = KeyedFold.run (fun i old event => event.absorb i old) fs.cached touches := by
  induction h with
  | done _ => rfl
  | step hstep _ ih =>
      rw [ih, hstep.cached]
      rfl

-- The entry of an inode is the fold of the events of that inode.
theorem Steps.cached_apply {fs fs' : FileSystem} {touches : List (Nat × Event)}
    (h : Steps fs touches fs') (i : Nat) :
    fs'.cached i = (KeyedFold.eventsAt i touches).foldl (fun old event => event.absorb i old)
      (fs.cached i) := by
  rw [h.cached_eq, KeyedFold.run_apply]

-- The events of one inode over a list of nodes.
def eventsOf (i : Nat) (nodes : List Node) : List Event :=
  KeyedFold.eventsAt i (nodes.flatMap Node.touches)

theorem cached_scanBlocks (blocks : List ScannedBlock) (i : Nat) :
    (scanBlocks {} blocks).fileSystem.cached i =
      (eventsOf i (scannedNodes 4096 blocks)).foldl (fun old event => event.absorb i old) none :=
  (steps_scanBlocks {} FileSystem.consistent_empty blocks).cached_apply i

end SuperBadBlock
