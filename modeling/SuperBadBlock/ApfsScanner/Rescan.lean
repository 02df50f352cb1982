import SuperBadBlock.ApfsScanner.Unchanged
import SuperBadBlock.ApfsScanner.Image

namespace SuperBadBlock

open KeyedFold

-- What stands behind `versionId` does not notice the second scan of a node.
theorem Attribute.twice {i : Nat} {α : Type} (attr : Attribute i α) (node : Node)
    (old : Option Entry) :
    versioned attr.none_held attr.held ((eventsOf i [node]).foldl
        (fun old event => event.absorb i old)
        ((eventsOf i [node]).foldl (fun old event => event.absorb i old) old)) =
      versioned attr.none_held attr.held
        ((eventsOf i [node]).foldl (fun old event => event.absorb i old) old) := by
  obtain ⟨writes, hwrites⟩ := attr.told_node node
  rw [attr.foldl_absorb, attr.foldl_absorb, hwrites, VersionGate.foldl_step_twice]

-- The node has extents that the store takes, and will take again.
def Repeats (fs : FileSystem) (node : Node) : Prop :=
  ∃ i, attachedExtents i false node.records ≠ [] ∧
    ∀ e, fs.cached i = some e → e.extentVersionId ≤ node.xid

theorem repeats_iff (fs : FileSystem) (node : Node) :
    Repeats fs node ↔ ∃ i, ¬(attachedExtents i false node.records = [] ∨
      node.xid < (generation (fs.cached i)).1) := by
  refine exists_congr fun i => ?_
  rw [not_or, Nat.not_lt]
  refine and_congr_right fun _ => ?_
  cases fs.cached i with
  | none => simp [generation]
  | some e => simp [generation]

section Twice

variable {fs fs' fs'' : FileSystem} {node : Node} (hfirst : Steps fs ([node].flatMap Node.touches) fs')
  (hsecond : Steps fs' ([node].flatMap Node.touches) fs'')

include hfirst hsecond in
theorem Steps.cached_twice (hrepeats : ¬Repeats fs node) : fs''.cached = fs'.cached := by
  funext i
  have h1 := hfirst.cached_apply i
  have h2 := hsecond.cached_apply i
  rw [← eventsOf] at h1 h2
  cases hc : fs'.cached i with
  | none =>
      -- nothing touches an inode that still has no entry
      have hnil : eventsOf i [node] = [] := by
        rw [List.eq_nil_iff_forall_not_mem]
        intro event hevent
        have hsome := hfirst.isSome_of_mem ((mem_eventsAt i event _).mp hevent)
        rw [hc] at hsome
        cases hsome
      rw [h2, hnil, hc]
      rfl
  | some e =>
      have hsome : (fs'.cached i).isSome := by
        rw [hc]
        rfl
      have hattribute {α : Type} (attr : Attribute i α) :
          versioned attr.none_held attr.held (fs''.cached i) =
            versioned attr.none_held attr.held (fs'.cached i) := by
        rw [h2, h1]
        exact attr.twice node (fs.cached i)
      have hgeneration : generation (fs''.cached i) = generation (fs'.cached i) := by
        rw [h2, h1, generation_node, generation_node, Generations.foldl_absorb_twice_iff]
        by_contra hnot
        exact hrepeats ((repeats_iff fs node).mpr ⟨i, hnot⟩)
      rw [← hc]
      exact cached_eq_of_attributes hfirst.consistent hsecond.consistent hsome (hsecond.isSome hsome)
        (hattribute (parentAttribute i)) (hattribute (nameAttribute i).toAttribute)
        (hattribute (lengthAttribute i).toAttribute) hgeneration

include hfirst hsecond in
theorem Steps.sameStore_iff : SameStore fs' fs'' ↔ ¬Repeats fs node := by
  constructor
  · rintro hsame hrepeats
    obtain ⟨i, hi⟩ := (repeats_iff fs node).mp hrepeats
    refine hi ((Generations.foldl_absorb_twice_iff _ _).mp ?_)
    have h1 := hfirst.cached_apply i
    have h2 := hsecond.cached_apply i
    rw [← eventsOf] at h1 h2
    rw [← generation_node, ← h1, ← generation_node, ← h2, hsame.cached]
  · intro hrepeats
    exact hsecond.sameStore_of_cached hfirst.consistent (hfirst.cached_twice hsecond hrepeats)

end Twice

-- What a second scan of the same block does.
theorem scanBlock_twice_iff (scanner : APFSScanner) (h : Reachable scanner) (b : ScannedBlock) :
    SameStore (scanBlock scanner b.pos b.block b.sectorSize).val.fileSystem
      (scanBlock (scanBlock scanner b.pos b.block b.sectorSize).val
        b.pos b.block b.sectorSize).val.fileSystem ↔
    ¬(IsNode scanner.currentBlockSize b.block ∧
      Repeats scanner.fileSystem (nodeOf b.block scanner.currentBlockSize)) := by
  have hfirst := steps_scanBlock scanner h.consistent b
  have hsecond := steps_scanBlock (scanBlock scanner b.pos b.block b.sectorSize).val
    hfirst.consistent b
  rw [currentBlockSize_scanBlock] at hsecond
  by_cases hn : IsNode scanner.currentBlockSize b.block
  · have hsize : nextBlockSize scanner.currentBlockSize b.block = scanner.currentBlockSize :=
      if_neg (not_isSuperblock_of_isNode hn)
    rw [hsize] at hsecond
    simp only [scannedNodes, if_pos hn, List.append_nil] at hfirst hsecond
    rw [hfirst.sameStore_iff hsecond]
    exact not_congr (and_iff_right hn).symm
  · have hn' : ¬IsNode (nextBlockSize scanner.currentBlockSize b.block) b.block := by
      rw [nextBlockSize]
      split_ifs with hs
      · rintro ⟨-, htype⟩
        rw [hs.2.1] at htype
        exact absurd htype (by decide)
      · exact hn
    simp only [scannedNodes, if_neg hn', List.append_nil, List.flatMap_nil] at hsecond
    refine ⟨fun _ hrepeats => hn hrepeats.1, fun _ => ?_⟩
    rw [hsecond.eq_of_nil]
    exact ⟨rfl, rfl, rfl⟩

def inodeBlock : ScannedBlock :=
  { pos := 0, block := nodeImage ⟨7, 2, [.inode 5 2 (some 4096)]⟩ }

-- A node without file extents leaves no trace of the second scan.
theorem scanBlock_twice_of_no_extents :
    SameStore (scanBlock {} inodeBlock.pos inodeBlock.block inodeBlock.sectorSize).val.fileSystem
      (scanBlock (scanBlock {} inodeBlock.pos inodeBlock.block inodeBlock.sectorSize).val
        inodeBlock.pos inodeBlock.block inodeBlock.sectorSize).val.fileSystem := by
  refine (scanBlock_twice_iff {} ⟨[], rfl⟩ inodeBlock).mpr ?_
  rintro ⟨-, i, hextents, -⟩
  have hnode : nodeOf inodeBlock.block 4096 = ⟨7, 2, [.inode 5 2 (some 4096)]⟩ := by
    decide +kernel
  exact hextents (by rw [hnode]; rfl)

theorem cached_scanBlock_once (b : ScannedBlock) (i : Nat) :
    (scanBlock {} b.pos b.block b.sectorSize).val.fileSystem.cached i =
      (eventsOf i (scannedNodes 4096 [b])).foldl (fun old event => event.absorb i old) none :=
  cached_scanBlocks [b] i

theorem cached_scanBlock_twice (b : ScannedBlock) (i : Nat) :
    (scanBlock (scanBlock {} b.pos b.block b.sectorSize).val
      b.pos b.block b.sectorSize).val.fileSystem.cached i =
      (eventsOf i (scannedNodes 4096 [b, b])).foldl (fun old event => event.absorb i old) none :=
  cached_scanBlocks [b, b] i

def extentBlock : ScannedBlock :=
  { pos := 0, block := nodeImage ⟨7, 2, [.inode 5 2 none, .fileExtent 5 ⟨0, 40, 4096⟩]⟩ }

-- The second scan of a node with a file extent adds the extent once more.
theorem scanBlock_twice_doubles_extents :
    Reachable {} ∧
    ¬SameStore (scanBlock {} extentBlock.pos extentBlock.block extentBlock.sectorSize).val.fileSystem
      (scanBlock (scanBlock {} extentBlock.pos extentBlock.block extentBlock.sectorSize).val
        extentBlock.pos extentBlock.block extentBlock.sectorSize).val.fileSystem := by
  refine ⟨⟨[], rfl⟩, fun h => ?_⟩
  have hnode : nodeOf extentBlock.block 4096 =
      ⟨7, 2, [.inode 5 2 none, .fileExtent 5 ⟨0, 40, 4096⟩]⟩ := by decide +kernel
  have hblocks : ∀ b ∈ [extentBlock, extentBlock], IsNode 4096 b.block := by
    intro b hb
    obtain rfl : b = extentBlock := by simpa using hb
    exact isNode_nodeImage _
  have honce := cached_scanBlock_once extentBlock 5
  have htwice := cached_scanBlock_twice extentBlock 5
  rw [scannedNodes_of_isNode fun b hb => hblocks b (List.mem_cons_of_mem _ hb), List.map_singleton,
    hnode] at honce
  rw [scannedNodes_of_isNode hblocks, List.map_cons, List.map_singleton, hnode] at htwice
  have heq := (htwice.symm.trans (congrFun h.cached 5)).trans honce
  exact absurd heq (by decide)

end SuperBadBlock
