import SuperBadBlock.ApfsScanner.Unchanged
import SuperBadBlock.ApfsScanner.Versions

namespace SuperBadBlock

open KeyedFold

theorem mem_records_of_mem_nodePairs {block : Memory} {size : Nat} {pair : KeyValuePair}
    (h : pair ∈ nodePairs block size) : decode block pair ∈ (nodeOf block size).records :=
  List.mem_map_of_mem h

-- The extents an entry holds, none without an entry.
theorem mem_generation {old : Option Entry} {x : EntryExtent} :
    x ∈ (generation old).2 ↔ ∃ e, old = some e ∧ x ∈ e.extents := by
  cases old with
  | none => simp [generation]
  | some e => simp [generation]

-- After a node that is not older than its extents, an inode holds the extents that the
-- node attaches to it, and those of before if the node starts no new generation.
theorem Steps.mem_extents {fs fs' : FileSystem} {node : Node}
    (h : Steps fs ([node].flatMap Node.touches) fs') {i : Nat}
    (hold : (generation (fs.cached i)).1 ≤ node.xid) (x : EntryExtent) :
    (∃ e, fs'.cached i = some e ∧ x ∈ e.extents) ↔
      x ∈ attachedExtents i false node.records ∨
        (∃ e, fs.cached i = some e ∧ x ∈ e.extents ∧
          (attachedExtents i false node.records = [] ∨ e.extentVersionId = node.xid)) := by
  have hgeneration := generation_node i node (fs.cached i)
  rw [eventsOf, ← h.cached_apply i] at hgeneration
  rw [← mem_generation, hgeneration, Generations.mem_foldl_absorb _ _ hold]
  refine or_congr_right ?_
  cases fs.cached i with
  | none => simp [generation]
  | some e => simp [generation]

-- A leaf with an inode record of `i` that names the private id `p`: the extents keyed
-- by `p` reach the entry of `i` exactly as far as they are attached to `i`, by records
-- keyed by `i` that follow an inode record, or are held already and are kept.
theorem cloned_extents_iff (scanner : APFSScanner) (hreach : Reachable scanner) (pos : Nat)
    (block : Memory) (sectorSize : Nat) (hleaf : IsLeaf scanner.currentBlockSize block)
    (pair : KeyValuePair) (hpair : pair ∈ nodePairs block scanner.currentBlockSize)
    (i parentId : Nat) (length : Option Nat) (hinode : decode block pair = .inode i parentId length)
    (hold : ∀ e, scanner.fileSystem.cached i = some e → e.versionId ≤ (block.o_xid 0).val) :
    let p := (block.private_id pair.value).val
    let records := (nodeOf block scanner.currentBlockSize).records
    let fs := scanner.fileSystem
    let fs' := (scanBlock scanner pos block sectorSize).val.fileSystem
    (∃ e, fs'.cached i = some e ∧ ∀ x, .fileExtent p x ∈ records → x ∈ e.extents) ↔
      ∀ x, .fileExtent p x ∈ records → x ∈ attachedExtents i false records ∨
        ∃ e, fs.cached i = some e ∧ x ∈ e.extents ∧
          (attachedExtents i false records = [] ∨ e.extentVersionId = (block.o_xid 0).val) := by
  intro p records fs fs'
  obtain ⟨blocks, hblocks⟩ := hreach
  have hconsistent : fs.Consistent := Reachable.consistent ⟨blocks, hblocks⟩
  have hsteps : Steps fs ([nodeOf block scanner.currentBlockSize].flatMap Node.touches) fs' := by
    have h := steps_scanBlock scanner hconsistent ⟨pos, block, sectorSize⟩
    rw [scannedNodes_of_isNode (List.forall_mem_singleton.mpr hleaf.1), List.map_singleton] at h
    exact h
  have hentry : ∃ e, fs'.cached i = some e := by
    have hmention : eventsOf i [nodeOf block scanner.currentBlockSize] ≠ [] := by
      rw [eventsOf_ne_nil_iff]
      refine ⟨_, List.mem_singleton_self _, _, mem_records_of_mem_nodePairs hpair, ?_⟩
      rw [hinode]
      rfl
    obtain ⟨event, hevent⟩ := List.exists_mem_of_ne_nil _ hmention
    have hsome := hsteps.isSome_of_mem ((mem_eventsAt i event _).mp hevent)
    exact Option.isSome_iff_exists.mp hsome
  have hversion : (generation (fs.cached i)).1 ≤ (block.o_xid 0).val := by
    have hbounded := bounded_scanBlocks blocks i
    rw [hblocks] at hbounded
    cases he : fs.cached i with
    | none => exact Nat.zero_le _
    | some e =>
        rw [he] at hbounded
        exact Nat.le_trans hbounded (hold e he)
  obtain ⟨e, he⟩ := hentry
  constructor
  · rintro ⟨e', he', hall⟩ x hx
    exact (hsteps.mem_extents hversion x).mp ⟨e', he', hall x hx⟩
  · intro hall
    refine ⟨e, he, fun x hx => ?_⟩
    obtain ⟨e', he', hmem⟩ := (hsteps.mem_extents hversion x).mpr (hall x hx)
    rw [he] at he'
    obtain rfl := Option.some.inj he'
    exact hmem

-- A node stays one when bytes behind its object header are replaced.
theorem IsNode.store {block : Memory} (h : IsNode 4096 block) {off : Int} (hoff : 28 ≤ off) (len x : Nat) :
    IsNode 4096 (block.store off len x).withChecksum := by
  have htype : (block.store off len x).withChecksum.le 24 4 = block.le 24 4 := by
    rw [Memory.le_withChecksum _ _ _ (by decide), Memory.le_store_of_disjoint]
    exact Or.inl hoff
  have hobject : objectType (block.store off len x).withChecksum = objectType block :=
    congrArg (fun n => n &&& 0xffff) htype
  refine ⟨valid_withChecksum _ ?_, hobject ▸ h.2⟩
  rw [Memory.le_store_of_disjoint _ _ _ _ _ _ (Or.inl hoff)]
  exact h.1.1

-- A node with a file in it, the inode record first. `privateId` is stored behind the
-- parent in the value of that record.
def keyedNode (extentId : Nat) : Node :=
  { xid := 7, flags := 2, records := [.inode 20 2 (some 4096), .fileExtent extentId ⟨0, 40, 4096⟩] }

def keyedImage (extentId privateId : Nat) : Memory :=
  ((nodeImage (keyedNode extentId)).store (3984 + 8) 8 privateId).withChecksum

theorem isNode_keyedImage (extentId privateId : Nat) : IsNode 4096 (keyedImage extentId privateId) :=
  (isNode_nodeImage (keyedNode extentId)).store (by decide) 8 privateId

theorem decodes_keyedImage : nodeOf (keyedImage 20 20) 4096 = keyedNode 20 := by
  decide +kernel

-- A file whose records are all keyed by its inode.
theorem cloned_extents_of_file :
    ∃ e, (scanBlock {} 0 (keyedImage 20 20) 4096).val.fileSystem.cached 20 = some e ∧
      ∀ x, .fileExtent 20 x ∈ (nodeOf (keyedImage 20 20) 4096).records → x ∈ e.extents := by
  obtain ⟨pair, hpair, hinode, hprivate⟩ : ∃ pair ∈ nodePairs (keyedImage 20 20) 4096,
      decode (keyedImage 20 20) pair = .inode 20 2 (some 4096) ∧
      ((keyedImage 20 20).private_id pair.value).val = 20 := by
    decide +kernel
  have hleaf : IsLeaf 4096 (keyedImage 20 20) := by
    refine ⟨isNode_keyedImage 20 20, ?_⟩
    rw [decodes_keyedImage]
    decide
  have h := (cloned_extents_iff {} ⟨[], rfl⟩ 0 (keyedImage 20 20) 4096 hleaf pair hpair 20 2 (some 4096)
    hinode (fun e he => by cases he)).mpr
  rw [hprivate, decodes_keyedImage] at h
  rw [decodes_keyedImage]
  refine h fun x hx => Or.inl ?_
  simpa [keyedNode, attachedExtents] using hx

def cloneImage : Memory := keyedImage 18 18

theorem decodes_cloneImage : nodeOf cloneImage 4096 = keyedNode 18 := by
  decide +kernel

-- The clone 20 of a file with private id 18, by which its extent is keyed.
theorem clone_loses_extents :
    IsLeaf 4096 cloneImage ∧
    (∃ pair ∈ nodePairs cloneImage 4096, decode cloneImage pair = .inode 20 2 (some 4096) ∧
      (cloneImage.private_id pair.value).val = 18) ∧
    .fileExtent 18 ⟨0, 40, 4096⟩ ∈ (nodeOf cloneImage 4096).records ∧
    ∃ e, (scanBlock {} 0 cloneImage 4096).val.fileSystem.cached 20 = some e ∧ e.extents = [] := by
  have hnode : IsNode 4096 cloneImage := isNode_keyedImage 18 18
  refine ⟨⟨hnode, ?_⟩, by decide +kernel, ?_, ?_⟩
  · rw [decodes_cloneImage]
    decide
  · rw [decodes_cloneImage]
    decide
  · have hnodes : ∀ b ∈ [(⟨0, cloneImage, 4096⟩ : ScannedBlock)], IsNode 4096 b.block :=
      List.forall_mem_singleton.mpr hnode
    have hcached := cached_scanBlocks [⟨0, cloneImage, 4096⟩] 20
    rw [scannedNodes_of_isNode hnodes, List.map_singleton, decodes_cloneImage, scanBlocks_cons,
      scanBlocks_nil] at hcached
    rw [hcached]
    exact ⟨{ inode := 20, parentId := 2, versionId := 7, length := 4096, isNew := false },
      by decide, rfl⟩

end SuperBadBlock
