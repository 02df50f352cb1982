import SuperBadBlock.ApfsScanner.BitErrors
import SuperBadBlock.ApfsScanner.Growth
import SuperBadBlock.ApfsScanner.Volume

namespace SuperBadBlock

-- A block as it was written, and as it is read: the same, or one that the gate takes with one
-- or two bits of it turned over.
inductive ReadAs : ScannedBlock → ScannedBlock → Prop
  | intact (b : ScannedBlock) : ReadAs b b
  | damaged {b b' : ScannedBlock} (valid : Valid 4096 b.block)
      (flipped : (flippedBits b.block b'.block).Nonempty)
      (few : (flippedBits b.block b'.block).card ≤ 2) : ReadAs b b'

-- A block that was a node and is one no more.
def LostNode (pair : ScannedBlock × ScannedBlock) (node : Node) : Prop :=
  IsNode 4096 pair.1.block ∧ (flippedBits pair.1.block pair.2.block).Nonempty ∧
    node = nodeOf pair.1.block 4096

-- What fewer blocks make of the tables: no row is made up, and none gets newer. The extents of an
-- inode are some of those it had, unless they are of an earlier generation, and there are none
-- without an entry.
structure Diminished (tables tables' : List EntryRow × List ExtentRow) : Prop where
  rows : ∀ row' ∈ tables'.1, ∃ row ∈ tables.1, row.inode = row'.inode ∧
    row'.versionId ≤ row.versionId ∧
    (row'.extentVersionId < row.extentVersionId ∨
      row'.extentVersionId = row.extentVersionId ∧
        (tables'.2.filter fun extent => extent.inode = row'.inode).Sublist
          (tables.2.filter fun extent => extent.inode = row'.inode))
  owned : ∀ extent ∈ tables'.2, extent.inode ∈ tables'.1.map EntryRow.inode

theorem not_valid_of_damaged {b b' : ScannedBlock} (valid : Valid 4096 b.block)
    (flipped : (flippedBits b.block b'.block).Nonempty)
    (few : (flippedBits b.block b'.block).card ≤ 2) : ¬Valid 4096 b'.block := by
  intro hvalid
  have hthree := three_le_card_flippedBits valid hvalid flipped
  omega

-- Read as it was written, the block does what it did; damaged, it does nothing.
theorem ReadAs.scannedNodes {b b' : ScannedBlock} (h : ReadAs b b') (rest : List ScannedBlock) :
    b' = b ∨ (¬IsNode 4096 b.block ∨ LostNode (b, b') (nodeOf b.block 4096)) ∧
      scannedNodes 4096 (b' :: rest) = scannedNodes 4096 rest := by
  cases h with
  | intact => exact Or.inl rfl
  | damaged valid flipped few =>
      have hinvalid := not_valid_of_damaged valid flipped few
      have hnode : ¬IsNode 4096 b'.block := fun hn => hinvalid hn.1
      have hkeep : nextBlockSize 4096 b'.block = 4096 := if_neg fun hs => hinvalid hs.1
      refine Or.inr ⟨?_, ?_⟩
      · by_cases hn : IsNode 4096 b.block
        · exact Or.inr ⟨hn, flipped, rfl⟩
        · exact Or.inl hn
      · rw [SuperBadBlock.scannedNodes, if_neg hnode, hkeep, List.nil_append]

theorem eventsOf_append (i : Nat) (first second : List Node) :
    eventsOf i (first ++ second) = eventsOf i first ++ eventsOf i second := by
  rw [eventsOf, List.flatMap_append]
  exact KeyedFold.eventsAt_append _ _ _

section Disk

variable {blocks blocks' : List ScannedBlock} (h : List.Forall₂ ReadAs blocks blocks')
  (hsize : ∀ b ∈ blocks, nextBlockSize 4096 b.block = 4096)

include h hsize

theorem scannedNodes_sublist : (scannedNodes 4096 blocks').Sublist (scannedNodes 4096 blocks) := by
  induction h with
  | nil => exact .slnil
  | @cons b b' blocks blocks' hread _ ih =>
      obtain ⟨hhead, htail⟩ := List.forall_mem_cons.mp hsize
      rcases hread.scannedNodes blocks' with rfl | ⟨-, hnone⟩
      · simp only [scannedNodes, hhead]
        exact (ih htail).append_left _
      · rw [hnone, scannedNodes, hhead]
        exact (ih htail).trans (List.sublist_append_right _ _)

-- An inode that no lost node mentions has the events it had.
theorem eventsOf_of_not_lost {i : Nat}
    (hi : ∀ pair ∈ blocks.zip blocks', ∀ node, LostNode pair node →
      ∀ record ∈ node.records, ¬record.Mentions i) :
    eventsOf i (scannedNodes 4096 blocks') = eventsOf i (scannedNodes 4096 blocks) := by
  induction h with
  | nil => rfl
  | @cons b b' blocks blocks' hread _ ih =>
      obtain ⟨hhead, htail⟩ := List.forall_mem_cons.mp hsize
      obtain ⟨hlost, hrest⟩ := List.forall_mem_cons.mp hi
      have htails := ih htail hrest
      rcases hread.scannedNodes blocks' with rfl | ⟨hcause, hnone⟩
      · simp only [scannedNodes, hhead, eventsOf_append, htails]
      · rw [hnone, scannedNodes, hhead, eventsOf_append, htails]
        rcases hcause with hn | hnode
        · rw [if_neg hn]
          rfl
        · have hsilent : eventsOf i [nodeOf b.block 4096] = [] := by
            by_contra hne
            obtain ⟨node, hm, record, hrecord, hmentions⟩ := (eventsOf_ne_nil_iff i _).mp hne
            rw [List.mem_singleton.mp hm] at hrecord
            exact hlost _ hnode record hrecord hmentions
          rw [if_pos hnode.1, hsilent, List.nil_append]

-- Its extents are of an earlier generation, or some of those it had.
theorem older_of_damaged {i : Nat} {e e' : Entry}
    (he : (scanBlocks {} blocks).fileSystem.cached i = some e)
    (he' : (scanBlocks {} blocks').fileSystem.cached i = some e') :
    e'.extentVersionId < e.extentVersionId ∨
      e'.extentVersionId = e.extentVersionId ∧ e'.extents.Sublist e.extents := by
  have hattached : (attachedTo i (scannedNodes 4096 blocks')).Sublist
      (attachedTo i (scannedNodes 4096 blocks)) := (scannedNodes_sublist h hsize).flatMap _
  have hgeneration := generation_eventsOf i (scannedNodes 4096 blocks)
  have hgeneration' := generation_eventsOf i (scannedNodes 4096 blocks')
  rw [← cached_scanBlocks, he, generation, Option.elim_some, Prod.mk.injEq] at hgeneration
  rw [← cached_scanBlocks, he', generation, Option.elim_some, Prod.mk.injEq] at hgeneration'
  rw [hgeneration.1, hgeneration.2, hgeneration'.1, hgeneration'.2]
  exact Generations.older_of_sublist hattached

theorem diminished_of_damaged :
    Diminished ((scanBlocks {} blocks).fileSystem.entry, (scanBlocks {} blocks).fileSystem.extent)
      ((scanBlocks {} blocks').fileSystem.entry, (scanBlocks {} blocks').fileSystem.extent) := by
  have hnodes := (scannedNodes_sublist h hsize).subset
  have hconsistent : (scanBlocks {} blocks).fileSystem.Consistent := Reachable.consistent ⟨_, rfl⟩
  have hconsistent' : (scanBlocks {} blocks').fileSystem.Consistent := Reachable.consistent ⟨_, rfl⟩
  refine ⟨fun row' hrow' => ?_, fun _ hm => hconsistent'.owned hm⟩
  obtain ⟨e', he', rfl⟩ := Option.map_eq_some_iff.mp (hconsistent'.rows row' hrow')
  rw [e'.inode_row] at he' ⊢
  obtain ⟨node, hnode, hmention⟩ :=
    (cached_isSome_iff blocks' e'.inode).mp (Option.isSome_iff_exists.mpr ⟨e', he'⟩)
  obtain ⟨e, he⟩ := Option.isSome_iff_exists.mp
    ((cached_isSome_iff blocks e'.inode).mpr ⟨node, hnodes hnode, hmention⟩)
  obtain ⟨node', hnode', hmention', hxid'⟩ := (isGreatest_versionId blocks' e'.inode e' he').1
  refine ⟨e.row, hconsistent.row_mem he, hconsistent.cached_inode he, ?_, ?_⟩
  · exact (isGreatest_versionId blocks e'.inode e he).2 ⟨node', hnodes hnode', hmention', hxid'⟩
  · rw [hconsistent.extent_filter, hconsistent'.extent_filter, he, he']
    exact (older_of_damaged h hsize he he').imp_right fun ⟨heq, hextents⟩ =>
      ⟨heq, hextents.map _⟩

end Disk

-- Damage of one or two bits of a block that the gate takes has it ignored and does no more: the
-- rows of every inode that no damaged node mentions are those of the undamaged disk, and the
-- others are some of its rows or earlier ones. No superblock changes the block size here.
theorem damage_stays_local (blocks blocks' : List ScannedBlock)
    (h : List.Forall₂ ReadAs blocks blocks')
    (hsize : ∀ b ∈ blocks, nextBlockSize 4096 b.block = 4096) :
    let fs := (scanBlocks {} blocks).fileSystem
    let fs' := (scanBlocks {} blocks').fileSystem
    (∀ i, (∀ pair ∈ blocks.zip blocks', ∀ node, LostNode pair node →
        ∀ record ∈ node.records, ¬record.Mentions i) →
      SameRows i (fs.entry, fs.extent) (fs'.entry, fs'.extent)) ∧
    Diminished (fs.entry, fs.extent) (fs'.entry, fs'.extent) := by
  intro fs fs'
  have hconsistent : fs.Consistent := Reachable.consistent ⟨_, rfl⟩
  have hconsistent' : fs'.Consistent := Reachable.consistent ⟨_, rfl⟩
  refine ⟨fun i hi => hconsistent.sameRows hconsistent' ?_, diminished_of_damaged h hsize⟩
  rw [cached_scanBlocks, cached_scanBlocks, eventsOf_of_not_lost h hsize hi]

-- The small volume with one bit of its file's node turned over: the root directory is as it was,
-- and nothing else is there that was not.
theorem damage_of_smallVolume_stays_local :
    let block := fun node => ({ pos := 0, block := encodeNode node } : ScannedBlock)
    let written := (smallVolume.format 7).map block
    let read := written.modify 1 fun b => { b with block := b.block.flipBit 800 }
    let fs := (scanBlocks {} written).fileSystem
    let fs' := (scanBlocks {} read).fileSystem
    SameRows 2 (fs.entry, fs.extent) (fs'.entry, fs'.extent) ∧
      Diminished (fs.entry, fs.extent) (fs'.entry, fs'.extent) := by
  intro block
  obtain ⟨root, file, hformat, hroot⟩ : ∃ root file, smallVolume.format 7 = [root, file] ∧
      ∀ record ∈ file.records, ¬record.Mentions 2 := ⟨_, _, rfl, by decide⟩
  have hencodable := encodable_smallVolume
  rw [hformat] at hencodable ⊢
  rw [List.map_cons, List.map_cons, List.map_nil]
  intro written read fs fs'
  obtain ⟨hdirectory, hrest⟩ := List.forall_mem_cons.mp hencodable
  have hfile : file.Encodable := hrest file (List.mem_singleton_self _)
  have hflipped := flippedBits_flipBit (encodeNode file) (show 800 < 8 * 4096 by decide)
  have hdamaged : ReadAs (block file) { block file with block := (block file).block.flipBit 800 } :=
    .damaged (isNode_encodeNode hfile).1 (by simp [block, hflipped]) (by simp [block, hflipped])
  have hsize : ∀ b ∈ written, nextBlockSize 4096 b.block = 4096 := by
    intro b hb
    rcases List.mem_pair.mp hb with rfl | rfl
    · exact if_neg (not_isSuperblock_of_isNode (isNode_encodeNode hdirectory))
    · exact if_neg (not_isSuperblock_of_isNode (isNode_encodeNode hfile))
  obtain ⟨hsame, hdiminished⟩ :=
    damage_stays_local written read (.cons (.intact _) (.cons hdamaged .nil)) hsize
  refine ⟨hsame 2 fun pair hpair node hlost => ?_, hdiminished⟩
  rcases List.mem_pair.mp hpair with rfl | rfl
  · exact absurd hlost.2.1 (by simp [flippedBits])
  · rw [hlost.2.2, nodeOf_encodeNode hfile]
    exact hroot

end SuperBadBlock
