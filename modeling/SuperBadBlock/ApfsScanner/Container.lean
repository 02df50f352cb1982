import SuperBadBlock.ApfsScanner.Image

namespace SuperBadBlock

-- The positions of the blocks accepted as NX superblocks, in the order of the scan.
def superblockPositions : Nat → List ScannedBlock → List Nat
  | _, [] => []
  | size, b :: blocks =>
      (if IsSuperblock size b.block then [b.pos] else []) ++
        superblockPositions (nextBlockSize size b.block) blocks

theorem superblockPositions_cons_of_not {size : Nat} {b : ScannedBlock}
    (h : ¬IsSuperblock size b.block) (blocks : List ScannedBlock) :
    superblockPositions size (b :: blocks) = superblockPositions size blocks := by
  rw [superblockPositions, nextBlockSize, if_neg h, if_neg h, List.nil_append]

theorem superblockPositions_append (size : Nat) (first second : List ScannedBlock) :
    superblockPositions size (first ++ second) =
      superblockPositions size first ++
        superblockPositions (first.foldl (fun size b => nextBlockSize size b.block) size) second := by
  induction first generalizing size with
  | nil => rfl
  | cons b first ih =>
      rw [List.cons_append, superblockPositions, superblockPositions, ih, List.append_assoc,
        List.foldl_cons]

-- Positions that increase over the scan increase over its superblocks.
theorem superblockPositions_sublist (size : Nat) (blocks : List ScannedBlock) :
    (superblockPositions size blocks).Sublist (blocks.map ScannedBlock.pos) := by
  induction blocks generalizing size with
  | nil => exact List.Sublist.refl _
  | cons b blocks ih =>
      rw [superblockPositions, List.map_cons]
      split_ifs
      · exact (ih _).cons_cons b.pos
      · exact (ih _).cons b.pos

theorem fsOffset_scanBlock (scanner : APFSScanner) (b : ScannedBlock) :
    (scanBlock scanner b.pos b.block b.sectorSize).val.fsOffset =
      if IsSuperblock scanner.currentBlockSize b.block ∧ scanner.fsOffset = 0 then b.pos
      else scanner.fsOffset := by
  rw [val_scanBlock]
  by_cases hn : IsNode scanner.currentBlockSize b.block
  · rw [if_pos hn, if_neg (fun h => not_isSuperblock_of_isNode hn h.1)]
    rfl
  · rw [if_neg hn]
    by_cases hs : IsSuperblock scanner.currentBlockSize b.block
    · simp only [hs, true_and, ite_true]
    · simp only [hs, false_and, ite_false]

-- A position other than 0 stays; 0 gives way to the next superblock that is not at 0.
theorem fsOffset_scanBlocks (scanner : APFSScanner) (blocks : List ScannedBlock) :
    (scanBlocks scanner blocks).fsOffset =
      ((scanner.fsOffset :: superblockPositions scanner.currentBlockSize blocks).find?
        fun pos => pos ≠ 0).getD 0 := by
  induction blocks generalizing scanner with
  | nil =>
      rw [scanBlocks_nil, superblockPositions]
      by_cases hzero : scanner.fsOffset = 0
      · simp [hzero]
      · simp [hzero]
  | cons b blocks ih =>
      rw [scanBlocks_cons, ih, currentBlockSize_scanBlock, fsOffset_scanBlock, superblockPositions]
      by_cases hs : IsSuperblock scanner.currentBlockSize b.block
      · by_cases hzero : scanner.fsOffset = 0
        · simp only [hs, hzero, true_and, ite_true, List.singleton_append, List.find?_cons,
            ne_eq, not_true_eq_false, decide_false]
        · simp [hs, hzero]
      · simp only [hs, false_and, ite_false, List.nil_append]

-- Once a superblock is accepted, the container is where the first one was found.
def StaysAtFirst (blocks : List ScannedBlock) : Prop :=
  ∀ first, (superblockPositions 4096 blocks).head? = some first →
    ∀ done rest, blocks = done ++ rest → superblockPositions 4096 done ≠ [] →
      (scanBlocks {} done).fsOffset = first

-- Position 0 is also the mark for a container that has not been found: a container
-- that starts there is moved by the next copy of its superblock, any other stays.
theorem fsOffset_stays_at_first_iff (blocks : List ScannedBlock)
    (hpos : blocks.Pairwise fun b b' => b.pos < b'.pos) :
    StaysAtFirst blocks ↔
      (superblockPositions 4096 blocks).head? ≠ some 0 ∨
        (superblockPositions 4096 blocks).tail = [] := by
  have hincreasing : (superblockPositions 4096 blocks).Pairwise (· < ·) :=
    (List.pairwise_map.mpr hpos).sublist (superblockPositions_sublist 4096 blocks)
  constructor
  · intro h
    rcases hall : superblockPositions 4096 blocks with _ | ⟨first, _ | ⟨second, others⟩⟩
    · exact Or.inr rfl
    · exact Or.inr rfl
    · refine Or.inl fun hhead => ?_
      obtain rfl : first = 0 := Option.some.inj hhead
      have hfirst := h 0 (by rw [hall]; rfl) blocks [] (List.append_nil _).symm (by simp [hall])
      rw [hall] at hincreasing
      have hsecond : 0 < second := (List.pairwise_cons.mp hincreasing).1 second List.mem_cons_self
      rw [fsOffset_scanBlocks, hall] at hfirst
      have hne : second ≠ 0 := by omega
      simp only [List.find?_cons, ne_eq, not_true_eq_false, decide_false, hne, not_false_eq_true,
        decide_true, Option.getD_some] at hfirst
  · intro hcond first hfirst done rest hblocks hdone
    -- The superblocks met so far start with the first one of the whole scan.
    have hprefix : ∃ others, superblockPositions 4096 done = first :: others ∧
        (first = 0 → others = []) := by
      rw [hblocks, superblockPositions_append] at hfirst hcond
      cases hd : superblockPositions 4096 done with
      | nil => exact absurd hd hdone
      | cons pos others =>
          rw [hd] at hfirst hcond
          obtain rfl : pos = first := Option.some.inj hfirst
          refine ⟨others, rfl, fun hzero => ?_⟩
          rcases hcond with hcond | hcond
          · exact absurd (congrArg some hzero) hcond
          · exact (List.append_eq_nil_iff.mp hcond).1
    obtain ⟨others, hothers, hzero⟩ := hprefix
    rw [fsOffset_scanBlocks, hothers]
    by_cases hfirst0 : first = 0
    · simp [hfirst0, hzero hfirst0]
    · simp [hfirst0]

-- A container behind one other block, with a second copy of its superblock.
def laterContainer : List ScannedBlock :=
  [{ pos := 0, block := fun _ => 0 }, { pos := 4096, block := superblockImage 4096 },
    { pos := 8192, block := superblockImage 4096 }]

theorem superblockPositions_superblockImages (positions : List Nat) :
    superblockPositions 4096 (positions.map fun pos => { pos := pos, block := superblockImage 4096 }) =
      positions := by
  have hsize : ((superblockImage 4096).nx_block_size 0).val = 4096 := by decide +kernel
  induction positions with
  | nil => rfl
  | cons pos positions ih =>
      have hs := isSuperblock_superblockImage 4096
      rw [List.map_cons, superblockPositions, if_pos hs, nextBlockSize, if_pos hs, hsize, ih]
      rfl

theorem not_valid_zero (size : Nat) : ¬Valid size fun _ => 0 := fun h => h.1 rfl

theorem superblockPositions_laterContainer :
    superblockPositions 4096 laterContainer = [4096, 8192] := by
  have hzero : ¬IsSuperblock 4096 ({ pos := 0, block := fun _ => 0 } : ScannedBlock).block :=
    fun h => not_valid_zero 4096 h.1
  rw [laterContainer, superblockPositions_cons_of_not hzero]
  exact superblockPositions_superblockImages [4096, 8192]

theorem fsOffset_stays_at_first_of_laterContainer : StaysAtFirst laterContainer := by
  have hpos : laterContainer.Pairwise fun b b' => b.pos < b'.pos := by
    simp [laterContainer]
  rw [fsOffset_stays_at_first_iff laterContainer hpos, superblockPositions_laterContainer]
  exact Or.inl (by decide)

-- A container at the start of the image, with a second copy of its superblock.
theorem second_superblock_moves_container :
    ¬StaysAtFirst [{ pos := 0, block := superblockImage 4096 },
      { pos := 4096, block := superblockImage 4096 }] := by
  intro h
  have hpositions := superblockPositions_superblockImages [0, 4096]
  have hfirst := h 0 (by rw [← List.map_nil]; exact congrArg List.head? hpositions) _ []
    (List.append_nil _).symm (by exact fun hnil => by cases hpositions.symm.trans hnil)
  rw [fsOffset_scanBlocks] at hfirst
  have hmoved := congrArg (fun positions => ((0 :: positions).find? fun pos : Nat => pos ≠ 0).getD 0)
    hpositions
  exact absurd (hmoved.symm.trans hfirst) (by decide)

end SuperBadBlock
