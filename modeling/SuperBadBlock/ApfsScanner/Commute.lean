import SuperBadBlock.ApfsScanner.Attributes
import SuperBadBlock.ApfsScanner.Image
import SuperBadBlock.Lib.Reordering
import Mathlib.Tactic.FinCases

namespace SuperBadBlock

open KeyedFold Reordering

-- Inode `i` is touched by the node in the block.
def Touched (size : Nat) (b : ScannedBlock) (i : Nat) : Prop :=
  ∃ record ∈ (nodeOf b.block size).records, record.Mentions i

theorem eventsAt_touches_ne_nil (i : Nat) (node : Node) :
    eventsAt i node.touches ≠ [] ↔ ∃ record ∈ node.records, record.Mentions i := by
  have h := eventsOf_ne_nil_iff i [node]
  simp only [eventsOf, List.flatMap_singleton, List.mem_singleton, exists_eq_left] at h
  exact h

-- What an inode hears of a sequence of nodes does not depend on the order of the
-- nodes that do not touch it.
theorem eventsOf_reorder (size : Nat) (blocks : List ScannedBlock)
    (place : Equiv.Perm (Fin blocks.length)) (i : Nat)
    (h : ∀ j k, j < k → Touched size (blocks.get j) i → Touched size (blocks.get k) i →
      place j < place k) :
    eventsOf i ((reorder blocks place).map fun b => nodeOf b.block size) =
      eventsOf i (blocks.map fun b => nodeOf b.block size) := by
  have hevents (l : List ScannedBlock) : eventsOf i (l.map fun b => nodeOf b.block size) =
      l.flatMap fun b => eventsAt i (nodeOf b.block size).touches := by
    rw [eventsOf, eventsAt_flatMap, List.flatMap_map]
  rw [hevents, hevents]
  refine flatMap_reorder _ blocks place fun j k hjk hj hk => h j k hjk ?_ ?_
  · exact (eventsAt_touches_ne_nil i _).mp hj
  · exact (eventsAt_touches_ne_nil i _).mp hk

theorem cached_scanBlocks_of_isNode (scanner : APFSScanner) (h : scanner.fileSystem.Consistent)
    (blocks : List ScannedBlock) (hnode : ∀ b ∈ blocks, IsNode scanner.currentBlockSize b.block)
    (i : Nat) :
    (scanBlocks scanner blocks).fileSystem.cached i =
      (eventsOf i (blocks.map fun b => nodeOf b.block scanner.currentBlockSize)).foldl
        (fun old event => event.absorb i old) (scanner.fileSystem.cached i) := by
  rw [(steps_scanBlocks scanner h blocks).cached_apply i, scannedNodes_of_isNode hnode]
  rfl

-- From every reachable state, nodes can be scanned in any order that keeps the order
-- of each two that touch a common inode.
theorem unrelated_blocks_commute (scanner : APFSScanner) (h : Reachable scanner)
    (blocks : List ScannedBlock) (hnode : ∀ b ∈ blocks, IsNode scanner.currentBlockSize b.block)
    (place : Equiv.Perm (Fin blocks.length))
    (hplace : ∀ j k i, j < k → Touched scanner.currentBlockSize (blocks.get j) i →
      Touched scanner.currentBlockSize (blocks.get k) i → place j < place k) :
    let fs := (scanBlocks scanner blocks).fileSystem
    let fs' := (scanBlocks scanner (reorder blocks place)).fileSystem
    fs'.cached = fs.cached ∧ fs'.entry.Perm fs.entry ∧ fs'.extent.Perm fs.extent := by
  intro fs fs'
  have hnode' : ∀ b ∈ reorder blocks place, IsNode scanner.currentBlockSize b.block :=
    fun b hb => hnode b ((reorder_perm blocks place).mem_iff.mp hb)
  have hcached : fs'.cached = fs.cached := by
    funext i
    rw [cached_scanBlocks_of_isNode scanner h.consistent _ hnode' i,
      cached_scanBlocks_of_isNode scanner h.consistent _ hnode i,
      eventsOf_reorder _ _ _ i fun j k hjk => hplace j k i hjk]
  have hfs : fs.Consistent := (steps_scanBlocks scanner h.consistent blocks).consistent
  have hfs' : fs'.Consistent :=
    (steps_scanBlocks scanner h.consistent (reorder blocks place)).consistent
  exact ⟨hcached, hfs.entry_perm hfs' hcached, hfs.extent_perm hfs' hcached⟩

-- Two nodes of inode 5, and between them a directory record of inode 6.
def threeNodes : List Node :=
  [{ xid := 7, flags := 2, records := [.inode 5 2 none, .fileExtent 5 ⟨0, 40, 4096⟩] },
    { xid := 7, flags := 2, records := [.dirRec 2 6 [97] 8] },
    { xid := 9, flags := 2, records := [.inode 5 2 (some 700)] }]

theorem touched_nodeImages {nodes : List Node}
    (h : ∀ node ∈ nodes, nodeOf (nodeImage node) 4096 = node) (j : Fin (nodeImages nodes).length)
    (i : Nat) :
    Touched 4096 ((nodeImages nodes).get j) i ↔
      ∃ record ∈ (nodes.get (j.cast (List.length_map _))).records, record.Mentions i := by
  have hget : (nodeImages nodes).get j =
      { pos := 0, block := nodeImage (nodes.get (j.cast (List.length_map _))) } :=
    List.getElem_map _
  rw [Touched, hget, h _ (List.get_mem _ _)]

theorem mentioned_threeNodes (j : Fin 3) (i : Nat)
    (h : ∃ record ∈ (threeNodes.get j).records, record.Mentions i) : i = [5, 6, 5].get j := by
  fin_cases j <;> simp only [threeNodes, List.get, List.mem_cons, List.not_mem_nil, or_false,
    exists_eq_or_imp, exists_eq_left, Record.Mentions] at h ⊢ <;> exact h.symm

-- The directory record may come first.
theorem unrelated_blocks_commute_of_threeNodes :
    let place : Equiv.Perm (Fin (nodeImages threeNodes).length) := Equiv.swap ⟨0, by decide⟩ ⟨1, by decide⟩
    let fs := (scanBlocks {} (nodeImages threeNodes)).fileSystem
    let fs' := (scanBlocks {} (reorder (nodeImages threeNodes) place)).fileSystem
    fs'.cached = fs.cached ∧ fs'.entry.Perm fs.entry ∧ fs'.extent.Perm fs.extent := by
  intro place fs fs'
  have hdecodes : ∀ node ∈ threeNodes, nodeOf (nodeImage node) 4096 = node := by decide +kernel
  have hnode : ∀ b ∈ nodeImages threeNodes, IsNode 4096 b.block :=
    List.forall_mem_map.mpr fun node _ => isNode_nodeImage node
  have hswap : ∀ j k : Fin 3, j < k → [5, 6, 5].get j = [5, 6, 5].get k →
      (Equiv.swap 0 1 : Equiv.Perm (Fin 3)) j < (Equiv.swap 0 1 : Equiv.Perm (Fin 3)) k := by decide
  have hplace : ∀ j k i, j < k → Touched 4096 ((nodeImages threeNodes).get j) i →
      Touched 4096 ((nodeImages threeNodes).get k) i → place j < place k := by
    intro j k i hjk hj hk
    rw [touched_nodeImages hdecodes] at hj hk
    exact hswap j k hjk ((mentioned_threeNodes _ i hj).symm.trans (mentioned_threeNodes _ i hk))
  exact unrelated_blocks_commute {} ⟨[], rfl⟩ (nodeImages threeNodes) hnode place hplace

end SuperBadBlock
