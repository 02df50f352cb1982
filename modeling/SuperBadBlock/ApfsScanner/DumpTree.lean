import SuperBadBlock.ApfsScanner.Listing
import SuperBadBlock.FileSystem.DumpTree

namespace SuperBadBlock

open FileSystem

-- Over a scanned store, `dumpTree` ends and visits no inode twice exactly if the parent
-- links do not lead from inode 2 back to it.
theorem scanned_tree_dump_ends_iff (blocks : List ScannedBlock) (fs : FileSystem)
    (h : Coherent (scanBlocks {} blocks).fileSystem fs) :
    (∃ fuel lines fs', fs.dumpTree fuel 2 0 = some (lines, fs') ∧
      (lines.filterMap TreeLine.visited).Nodup) ↔
      ¬Relation.TransGen (TreeChild (scanBlocks {} blocks).fileSystem.entry) 2 2 := by
  have hconsistent : (scanBlocks {} blocks).fileSystem.Consistent := Reachable.consistent ⟨_, rfl⟩
  exact h.dumpTree_ends_iff hconsistent.rows_nodup (by decide) 0

-- The root and one file in it.
theorem scanned_tree_dump_ends_of_rootAndFile :
    ∃ fuel lines fs', (scanBlocks {} (nodeImages rootAndFile)).fileSystem.reopen.dumpTree fuel 2 0 =
      some (lines, fs') ∧ (lines.filterMap TreeLine.visited).Nodup := by
  refine (scanned_tree_dump_ends_iff _ _ (coherent_reopen _)).mpr fun hcycle => ?_
  obtain ⟨dir, hpath, row, hrow, hparent, hinode, -⟩ := Relation.TransGen.tail'_iff.mp hcycle
  rcases (mem_entry_rootAndFile row).mp hrow with rfl | rfl
  · -- the root's row has parent 1, and no row has inode 1
    rcases hpath.cases_tail with heq | ⟨_, -, other, hother, -, hdir, -⟩
    · exact absurd (hparent.trans heq) (by decide)
    · rcases (mem_entry_rootAndFile other).mp hother with rfl | rfl
      · exact absurd (hdir.trans hparent.symm) (by decide)
      · exact absurd (hdir.trans hparent.symm) (by decide)
  · exact absurd hinode (by decide)

-- A root that is in the directory 16, and a directory 16 that is in the root.
def rootInItself : List Node :=
  [{ xid := 7, flags := 2, records := [.inode 2 16 none, .inode 16 2 none] }]

theorem decodes_rootInItself : ∀ node ∈ rootInItself, nodeOf (nodeImage node) 4096 = node := by
  decide +kernel

-- No number of nested calls is enough.
theorem tree_dump_never_ends :
    ¬∃ fuel out, (scanBlocks {} (nodeImages rootInItself)).fileSystem.dumpTree fuel 2 0 = some out := by
  rintro ⟨fuel, out, hdump⟩
  have hconsistent : (scanBlocks {} (nodeImages rootInItself)).fileSystem.Consistent :=
    Reachable.consistent ⟨_, rfl⟩
  have hroot : { rootRow with parent_inode := 16 } ∈
      (scanBlocks {} (nodeImages rootInItself)).fileSystem.entry := by
    rw [mem_entry_nodeImages decodes_rootInItself]
    decide
  have hdir : { rootRow with inode := 16, parent_inode := 2 } ∈
      (scanBlocks {} (nodeImages rootInItself)).fileSystem.entry := by
    rw [mem_entry_nodeImages decodes_rootInItself]
    decide
  have hdown : TreeChild (scanBlocks {} (nodeImages rootInItself)).fileSystem.entry 2 16 :=
    ⟨_, hdir, rfl, rfl, by decide, by decide⟩
  have hup : TreeChild (scanBlocks {} (nodeImages rootInItself)).fileSystem.entry 16 2 :=
    ⟨_, hroot, rfl, rfl, by decide, by decide⟩
  rw [hconsistent.coherent.dumpTree_of_cycle (by decide) (.tail (.single hdown) hup) fuel 0] at hdump
  cases hdump

end SuperBadBlock
