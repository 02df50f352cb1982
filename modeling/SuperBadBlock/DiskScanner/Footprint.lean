import SuperBadBlock.ApfsScanner.Footprint
import SuperBadBlock.DiskScanner.Stale
import SuperBadBlock.FileSystem.Read.Theorems

namespace SuperBadBlock

-- The image of a disk that consists of the given blocks.
def diskImage (blocks : List Memory) : List UInt8 := blocks.flatMap fun block => block.slice 0 4096

-- The same blocks handed over one after the other from `pos` on.
def blocksFrom : Nat → List Memory → List ScannedBlock
  | _, [] => []
  | pos, block :: blocks => { pos := pos, block := block } :: blocksFrom (u64 (pos + 4096)) blocks

theorem getElem?_slice (mem : Memory) (off : Int) {n i : Nat} (h : i < n) :
    (mem.slice off n)[i]? = some (mem (off + i)) := by
  rw [Memory.slice, List.getElem?_map, List.getElem?_range h, Option.map_some]

-- Full reads of a disk hand over its blocks, whatever surrounds the buffer.
theorem handed_diskImage (before : List UInt8) (blocks : List Memory) (stale : Nat → Memory)
    (k pos : Nat) :
    List.Forall₂ SameContent (blocksFrom pos blocks)
      (handedBlocks pos (readCalls (before ++ diskImage blocks) stale k before.length
        (List.replicate blocks.length 4096))) := by
  induction blocks generalizing before k pos with
  | nil => exact .nil
  | cons block blocks ih =>
      have hlength : before.length + 4096 = (before ++ block.slice 0 4096).length := by
        rw [List.length_append, Memory.length_slice]
      have himage : before ++ diskImage (block :: blocks) =
          (before ++ block.slice 0 4096) ++ diskImage blocks := by
        rw [diskImage, List.flatMap_cons, List.append_assoc, diskImage]
      have hrest := ih (before ++ block.slice 0 4096) (k + 1) (u64 (pos + 4096))
      rw [← himage, ← hlength] at hrest
      refine .cons ⟨rfl, fun o hlo hhi => ?_⟩ hrest
      have hindex : (0 + (o - 0)).toNat = o.toNat := by omega
      simp only [ReadCall.block, Memory.copy, Int.toNat_natCast]
      rw [if_pos (by omega), himage, List.append_assoc, List.getD_eq_getElem?_getD,
        List.getElem?_append_right (by omega), List.getElem?_append_left (by rw [Memory.length_slice]; omega),
        getElem?_slice _ _ (by omega), Option.getD_some]
      congr 1
      omega

theorem sameContent_handed {image : List UInt8} {counts : List Nat}
    (hfull : ∀ count ∈ counts, count = 4096) (stale stale' : Nat → Memory) (k off pos : Nat) :
    List.Forall₂ SameContent (handedBlocks pos (readCalls image stale k off counts))
      (handedBlocks pos (readCalls image stale' k off counts)) := by
  induction counts generalizing k off pos with
  | nil => exact .nil
  | cons count counts ih =>
      obtain ⟨rfl, hrest⟩ := List.forall_mem_cons.mp hfull
      refine .cons ⟨rfl, fun o hlo hhi => ?_⟩ (ih hrest (k + 1) (off + 4096) (u64 (pos + 4096)))
      simp only [ReadCall.block, Memory.copy, Int.toNat_natCast]
      rw [if_pos (by omega), if_pos (by omega)]

-- A block of a disk: a node as it is written out, or any bytes.
inductive DiskBlock where
  | ofNode (node : Node)
  | other (bytes : List UInt8)

namespace DiskBlock

def memory : DiskBlock → Memory
  | ofNode node => encodeNode node
  | other bytes => Memory.ofList bytes

-- What a scan takes the block for.
def node? : DiskBlock → Option Node
  | ofNode node => some node
  | other bytes =>
      if IsNode 4096 (Memory.ofList bytes) then some (nodeOf (Memory.ofList bytes) 4096) else none

-- A node fits its block. Other bytes are no superblock with another block size, and where they
-- pass for a node, its records lie in the block.
def Sound : DiskBlock → Prop
  | ofNode node => node.Encodable
  | other bytes => (IsNode 4096 (Memory.ofList bytes) → ∀ fs, NodeInside (Memory.ofList bytes) fs) ∧
      nextBlockSize 4096 (Memory.ofList bytes) = 4096

theorem Sound.nextBlockSize {block : DiskBlock} (h : block.Sound) :
    nextBlockSize 4096 block.memory = 4096 := by
  cases block with
  | ofNode node => exact if_neg (not_isSuperblock_of_isNode (isNode_encodeNode h))
  | other bytes => exact h.2

theorem Sound.scannedNodes {block : DiskBlock} (h : block.Sound) :
    (if IsNode 4096 block.memory then [nodeOf block.memory 4096] else []) = block.node?.toList := by
  cases block with
  | ofNode node =>
      have hnode : IsNode 4096 (ofNode node).memory := isNode_encodeNode h
      have hsame : nodeOf (ofNode node).memory 4096 = node := nodeOf_encodeNode h
      rw [if_pos hnode, hsame]
      rfl
  | other bytes =>
      rw [node?, memory]
      split_ifs <;> rfl

-- Neither kind makes the parser look outside the block.
theorem Sound.within {block : DiskBlock} (h : block.Sound) {scanner : APFSScanner}
    (hreachable : Reachable scanner) (hsize : scanner.currentBlockSize = 4096) (pos sectorSize : Nat) :
    (scanBlock scanner pos block.memory sectorSize).Within Access.InBlock := by
  cases block with
  | ofNode node => exact within_scanBlock_encodeNode h hreachable hsize pos sectorSize
  | other bytes =>
      refine (within_scanBlock scanner hsize pos _ sectorSize).mpr fun hnode => ?_
      exact (within_scanBTreeBlock _ scanner hreachable.consistent hsize).mpr
        (h.1 hnode scanner.fileSystem)

end DiskBlock

section Disks

variable {disk : List DiskBlock} (h : ∀ block ∈ disk, block.Sound)

include h

theorem scannedNodes_disk (pos : Nat) :
    scannedNodes 4096 (blocksFrom pos (disk.map DiskBlock.memory)) = disk.filterMap DiskBlock.node? := by
  induction disk generalizing pos with
  | nil => rfl
  | cons block disk ih =>
      obtain ⟨hhead, htail⟩ := List.forall_mem_cons.mp h
      rw [List.map_cons, blocksFrom, scannedNodes, hhead.scannedNodes, hhead.nextBlockSize, ih htail,
        List.filterMap_cons]
      cases block.node? <;> rfl

theorem scanInside_disk {scanner : APFSScanner} (hreachable : Reachable scanner)
    (hsize : scanner.currentBlockSize = 4096) (pos : Nat) :
    ScanInside scanner (blocksFrom pos (disk.map DiskBlock.memory)) := by
  induction disk generalizing scanner pos with
  | nil => trivial
  | cons block disk ih =>
      obtain ⟨hhead, htail⟩ := List.forall_mem_cons.mp h
      refine ⟨hhead.within hreachable hsize _ _, ih htail (hreachable.scanBlock _ _ _) ?_ _⟩
      rw [currentBlockSize_scanBlock, hsize]
      exact hhead.nextBlockSize

-- A scan of the image of a disk is a scan of its blocks.
theorem scanBlocks_diskImage (stale : Nat → Memory) :
    scanBlocks {} (handedBlocks 0 (readCalls (diskImage (disk.map DiskBlock.memory)) stale 0 0
        (List.replicate disk.length 4096))) =
      scanBlocks {} (blocksFrom 0 (disk.map DiskBlock.memory)) ∧
    ScanInside {} (handedBlocks 0 (readCalls (diskImage (disk.map DiskBlock.memory)) stale 0 0
      (List.replicate disk.length 4096))) := by
  have hhanded := handed_diskImage [] (disk.map DiskBlock.memory) stale 0 0
  rw [List.nil_append, List.length_nil, List.length_map] at hhanded
  exact scanBlocks_of_sameContent hhanded (scanInside_disk h ⟨[], rfl⟩ rfl 0)

end Disks

-- What surrounds the buffer of `scan` has no part in a scan of full reads whose parses stay
-- inside. Those of a disk of sound blocks do, so that a new scanner makes of its image what its
-- blocks alone make.
theorem scan_blind_to_surroundings (scanner : DiskScanner) (hfd : 0 ≤ scanner.fd)
    (stale stale' : Nat → Memory) :
    let cleared := { scanner.apfs with fileSystem := scanner.apfs.fileSystem.clear }
    (∀ (image : List UInt8) (counts : List Nat), (∀ count ∈ counts, count = 4096) →
      ScanInside cleared (handedBlocks 0 (readCalls image stale 0 0 counts)) →
        (scanner.scan (readCalls image stale' 0 0 counts)).2 =
          (scanner.scan (readCalls image stale 0 0 counts)).2 ∧
        ScanInside cleared (handedBlocks 0 (readCalls image stale' 0 0 counts))) ∧
    (cleared = {} → ∀ disk : List DiskBlock, (∀ block ∈ disk, block.Sound) →
      let calls := readCalls (diskImage (disk.map DiskBlock.memory)) stale 0 0
        (List.replicate disk.length 4096)
      (scanner.scan calls).2.apfs = scanBlocks {} (blocksFrom 0 (disk.map DiskBlock.memory)) ∧
      ScanInside cleared (handedBlocks 0 calls)) := by
  intro cleared
  have hpos (image : List UInt8) {counts : List Nat} (hfull : ∀ count ∈ counts, count = 4096)
      (stale : Nat → Memory) : ∀ call ∈ readCalls image stale 0 0 counts, 0 < call.res :=
    res_pos_of_counts (fun count hm => hfull count hm ▸ (by decide)) 0 0
  refine ⟨fun image counts hfull hinside => ?_, fun hnew disk hsound => ?_⟩
  · obtain ⟨heq, hin⟩ := scanBlocks_of_sameContent (sameContent_handed hfull stale stale' 0 0 0) hinside
    rw [DiskScanner.scan_eq scanner hfd _ (hpos image hfull stale),
      DiskScanner.scan_eq scanner hfd _ (hpos image hfull stale'), heq]
    exact ⟨rfl, hin⟩
  · intro calls
    obtain ⟨heq, hin⟩ := scanBlocks_diskImage hsound stale
    have hcounts : ∀ count ∈ List.replicate disk.length 4096, count = 4096 :=
      fun count hm => List.eq_of_mem_replicate hm
    have hscan : (scanner.scan calls).2.apfs = scanBlocks cleared (handedBlocks 0 calls) := by
      rw [DiskScanner.scan_eq scanner hfd _ (hpos _ hcounts stale)]
    rw [hscan, hnew]
    exact ⟨heq, hin⟩

theorem scan_blind_to_surroundings_of_directoryFirst :
    let image := diskImage [encodeNode directoryFirst]
    let scanner : DiskScanner := { fd := 3, apfs := {} }
    (scanner.scan (readCalls image (fun _ _ => 0xff) 0 0 [4096])).2 =
      (scanner.scan (readCalls image (fun _ _ => 0) 0 0 [4096])).2 ∧
    (scanner.scan (readCalls image (fun _ _ => 0) 0 0 [4096])).2.apfs =
      scanBlocks {} [{ pos := 0, block := encodeNode directoryFirst }] := by
  intro image scanner
  have hsound : ∀ block ∈ [DiskBlock.ofNode directoryFirst], block.Sound := by
    intro block hm
    rw [List.mem_singleton.mp hm]
    exact encodable_directoryFirst
  obtain ⟨hblind, hdisk⟩ := scan_blind_to_surroundings scanner (by decide) (fun _ _ => 0) fun _ _ => 0xff
  obtain ⟨hscan, hinside⟩ := hdisk rfl [.ofNode directoryFirst] hsound
  exact ⟨(hblind image [4096] (by simp) hinside).1, hscan⟩

end SuperBadBlock
