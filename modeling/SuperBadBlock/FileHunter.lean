import SuperBadBlock.ApfsScanner.Dump.Text
import SuperBadBlock.FileSystem.TreeText
import SuperBadBlock.SbbFuse.RoundTrip

namespace SuperBadBlock

open FileSystem

-- What the tool prints when the scan is over, read from its own database and cache.
def FileHunter.dumpTree (fuel : Nat) (scanner : DiskScanner) : Option (List UInt8) :=
  (scanner.apfs.fileSystem.dumpTree fuel 2 0).map fun out => treeText out.1

-- The line of a file.
structure VolumeFile.ListedAs (file : VolumeFile) (listed : Listed) : Prop where
  inode : listed.inode = file.inode
  name : listed.name = file.name
  type : listed.type = file.type
  length : listed.length = file.length.getD 0
  extents : listed.extents.Perm file.extents

theorem VolumeFile.Shown.listedAs {e : Entry} {file : VolumeFile} (h : file.Shown e) {listed : Listed}
    (hdescribes : listed.Describes e) : file.ListedAs listed where
  inode := hdescribes.inode.trans h.inode
  name := hdescribes.name.trans h.name
  type := hdescribes.type.trans h.type
  length := hdescribes.length.trans h.length
  extents := hdescribes.extents.trans h.extents

namespace Volume

variable {V : Volume}

-- A volume whose root lies in none of its directories; inode 0 stands for nothing.
structure Rooted (V : Volume) : Prop where
  outer : ∀ root ∈ V.files, root.inode = 2 → root.parentId ∉ V.files.map VolumeFile.inode
  null : 0 ∉ V.files.map VolumeFile.inode

-- Names of whole lines or more would be read as lines.
def Printable (V : Volume) : Prop :=
  ∀ file ∈ V.files, 0 ∉ file.name ∧ Printf.newline ∉ file.name ∧ file.length.getD 0 < 2 ^ 64 ∧
    ∀ extent ∈ file.extents, extent.length < 2 ^ 64

-- The lines list the volume: what stands above a line spells the path of its file, every
-- path of the volume is there, and none is there twice.
structure ListedBy (V : Volume) (lines : List TreeLine) : Prop where
  sound : ∀ chain ∈ readTree lines, ∃ listed above file, chain = listed :: above ∧
    V.Path (partsOf Listed.name chain) file ∧ file.ListedAs listed
  complete : ∀ parts file, V.Path parts file → ∃ listed above, listed :: above ∈ readTree lines ∧
    partsOf Listed.name (listed :: above) = parts ∧ file.ListedAs listed
  once : ((readTree lines).map (partsOf Listed.name)).Nodup

section Dump

variable {store fs : FileSystem} (hstored : V.Stored store) (hrooted : V.Rooted)

include hstored hrooted

-- The rows of a volume have a root that is in no directory.
theorem Stored.rooted : ∃ root ∈ store.entry, root.inode = 2 ∧
    (∀ row ∈ store.entry, row.inode ≠ root.parent_inode) ∧ ∀ row ∈ store.entry, row.inode ≠ 0 := by
  obtain ⟨root, hroot, hinode⟩ := hstored.root
  obtain ⟨file, hfile, hshown⟩ := hstored.file_of_row root hroot
  refine ⟨root, hroot, hinode, fun row hrow hparent => ?_, fun row hrow hnull => ?_⟩
  · obtain ⟨other, hother, hrowShown⟩ := hstored.file_of_row row hrow
    refine hrooted.outer file hfile (hshown.inode.symm.trans hinode) (List.mem_map.mpr ⟨other, hother, ?_⟩)
    exact hrowShown.inode.symm.trans (hparent.trans hshown.parentId)
  · obtain ⟨other, hother, hrowShown⟩ := hstored.file_of_row row hrow
    exact hrooted.null (List.mem_map.mpr ⟨other, hother, hrowShown.inode.symm.trans hnull⟩)

-- A dump of the tables of a volume ends, and lists the volume.
theorem Stored.listed (h : Coherent store fs) (hprintable : V.Printable) :
    ∃ fuel lines fs', fs.dumpTree fuel 2 0 = some (lines, fs') ∧ V.ListedBy lines ∧
      ∀ line ∈ lines, line.Printable := by
  obtain ⟨root, hroot, hinode, houter, hnull⟩ := hstored.rooted hrooted
  have hunique := hstored.inodes_nodup
  obtain ⟨fuel, lines, fs', hdump, -⟩ := (h.dumpTree_ends_iff hunique (by decide) 0).mpr
    (not_cycle_of_root hunique hroot hinode houter)
  obtain ⟨chains, hnodup, hmem, hspelled, hlists⟩ := h.chains_of_dump hunique hroot hinode hdump
  obtain ⟨hchains, hlisted⟩ := exists_tells hspelled
  refine ⟨fuel, lines, fs', hdump, ⟨fun told htold => ?_, fun parts file hpath => ?_, ?_⟩,
    fun line hline => ?_⟩
  · obtain ⟨chain, hchain, htells⟩ := hlisted told htold
    obtain ⟨last, above, rfl, hpath⟩ := TreeChain.path hunique hroot hinode ((hmem chain).mp hchain)
    obtain ⟨file, hshown, hfile⟩ := hstored.path_of_chain hroot hinode hpath
    rw [← partsOf_tells htells] at hfile
    cases htells with
    | cons hlast _ => exact ⟨_, _, file, rfl, hfile, hshown.listedAs hlast⟩
  · obtain ⟨last, hshown, hpath⟩ := hstored.chain_of_path hroot hinode hpath
    obtain ⟨above, hchain, hparts⟩ := TreeChain.of_path hunique hroot hinode houter hnull
      (.root hroot hinode) hpath
    obtain ⟨told, htold, htells⟩ := hchains _ ((hmem _).mpr hchain)
    have hnames := (partsOf_tells htells).trans hparts
    cases htells with
    | cons hlast _ => exact ⟨_, _, htold, hnames, hshown.listedAs hlast⟩
  · rw [map_partsOf_tells hspelled]
    exact hnodup.map_on fun chain hchain chain' hchain' => TreeChain.eq_of_parts hunique
      hstored.names_nodup ((hmem chain).mp hchain) ((hmem chain').mp hchain')
  · obtain ⟨row, hrow, e, level, hsame, hline⟩ := hlists.exists_row line hline
    obtain ⟨file, hfile, hshown⟩ := hstored.file_of_row row hrow
    obtain ⟨hnul, hnewline, hlength, hextents⟩ := hprintable file hfile
    rcases List.mem_cons.mp hline with rfl | hline
    · have hname : e.name = file.name := hsame.name.trans hshown.name
      have hsize : e.length = file.length.getD 0 := hsame.length.trans hshown.length
      rw [TreeLine.Printable, hname, hsize]
      exact ⟨hnul, hnewline, hlength⟩
    · obtain ⟨extent, hextent, rfl⟩ := List.mem_map.mp hline
      exact hextents extent ((hsame.extents.trans hshown.extents).mem_iff.mp hextent)

end Dump

end Volume

-- From the disk to the screen: a disk of sound blocks whose nodes describe a volume with printable
-- names is scanned, and the text that is then printed lists that volume.
theorem scanned_volume_is_listed (checkSchema : FileSystem → FileSystem)
    (hschema : ∀ fs, checkSchema fs = fs) (disk : List DiskBlock) (hsound : ∀ block ∈ disk, block.Sound)
    (V : Volume) (hnodes : V.Recoverable (disk.filterMap DiskBlock.node?)) (hrooted : V.Rooted)
    (hprintable : V.Printable) (db : FileSystem) (fd : Int) (hfd : 0 ≤ fd) (stale : Nat → Memory) :
    let found := FileHunter.main checkSchema db fd (readCalls (diskImage (disk.map DiskBlock.memory))
      stale 0 0 (List.replicate disk.length 4096))
    ∃ fuel text, FileHunter.dumpTree fuel found = some text ∧ V.ListedBy (readTreeText text) := by
  intro found
  have hfs : found.apfs.fileSystem =
      (scanBlocks {} (blocksFrom 0 (disk.map DiskBlock.memory))).fileSystem :=
    congrArg APFSScanner.fileSystem (apfs_main hschema hsound db hfd stale)
  have hstored := hnodes.stored (scannedNodes_disk hsound 0)
  have hconsistent := Reachable.consistent ⟨blocksFrom 0 (disk.map DiskBlock.memory), rfl⟩
  obtain ⟨fuel, lines, fs', hdump, hlisted, hlines⟩ :=
    hstored.listed hrooted hconsistent.coherent hprintable
  refine ⟨fuel, treeText lines, ?_, ?_⟩
  · rw [FileHunter.dumpTree, hfs, hdump, Option.map_some]
  · rw [readTreeText_treeText hlines]
    exact hlisted

theorem sound_smallDisk :
    ∀ block ∈ DiskBlock.other [] :: (smallVolume.format 7).map DiskBlock.ofNode, block.Sound :=
  List.forall_mem_cons.mpr ⟨(sound_other (by decide)).1, sound_smallVolume⟩

theorem nodes_smallDisk :
    (DiskBlock.other [] :: (smallVolume.format 7).map DiskBlock.ofNode).filterMap DiskBlock.node? =
      smallVolume.format 7 := by
  rw [List.filterMap_cons_none (node?_other (by decide)), node?_ofNode]

-- The small volume, from the disk it is written to, with a block of zeros before it: its
-- file has a line.
theorem scanned_smallVolume_is_listed :
    let disk := DiskBlock.other [] :: (smallVolume.format 7).map DiskBlock.ofNode
    let found := FileHunter.main id {} 3 (readCalls (diskImage (disk.map DiskBlock.memory))
      (fun _ _ => 0xff) 0 0 [4096, 4096, 4096])
    ∃ fuel text listed above, FileHunter.dumpTree fuel found = some text ∧
      listed :: above ∈ readTree (readTreeText text) ∧ listed.name = [97] ∧ listed.length = 6 := by
  intro disk found
  obtain ⟨fuel, text, hdump, hlisted⟩ := scanned_volume_is_listed id (fun _ => rfl) disk
    sound_smallDisk smallVolume (nodes_smallDisk ▸ recoverable_format smallVolume 7)
    ⟨by decide, by decide⟩
    (by unfold Volume.Printable; decide) {} 3 (by decide) fun _ _ => 0xff
  obtain ⟨listed, above, hline, -, hfile⟩ := hlisted.complete [[97]] smallFile
    ⟨_, List.mem_cons_self, rfl,
      .cons (List.mem_cons_of_mem _ List.mem_cons_self) rfl rfl (.nil _)⟩
  exact ⟨fuel, text, listed, above, hdump, hline, hfile.name, hfile.length⟩

-- An image opened for `dumpFile`.
def Descriptor.ofImage (image : List UInt8) : Descriptor where
  toDevice := Device.ofImage image
  lseek off := 0 ≤ off

namespace VolumeFile

variable (file : VolumeFile)

-- The extents in logical order, each of a length that one call reads.
structure Tiled (layout : List EntryExtent) : Prop where
  perm : layout.Perm file.extents
  tiles : Tiling.Tiles EntryExtent.logicalAddress EntryExtent.length 0 layout
  lengths : ∀ extent ∈ layout, 0 < extent.length ∧ extent.length < 2 ^ 31
  uint64 : file.length.getD 0 < 2 ^ 64

end VolumeFile

-- Every read of an extent inside the image is full.
theorem dumpExtents_full {descriptor : Descriptor} {imageLength fsOffset currentBlockSize : Nat}
    (hdelivers : descriptor.Delivers imageLength) (hseek : ∀ off, 0 ≤ off → descriptor.lseek off)
    (hlimit : imageLength < 2 ^ 63) {extents : List EntryExtent}
    (hlengths : ∀ extent ∈ extents, extent.length < 2 ^ 31)
    (hinside : ∀ extent ∈ extents,
      fsOffset + extent.physicalBlock * currentBlockSize + extent.length ≤ imageLength)
    (k : Nat) (position : Int) {remaining : Nat} (huint : remaining < 2 ^ 64) :
    (dumpExtents descriptor fsOffset currentBlockSize k extents position remaining).Within
      FileRead.Full := by
  induction extents generalizing k position remaining with
  | nil => exact Traced.within_pure _
  | cons extent extents ih =>
      obtain ⟨hlength, hlengths⟩ := List.forall_mem_cons.mp hlengths
      obtain ⟨hin, hinside⟩ := List.forall_mem_cons.mp hinside
      have hlt : min extent.length remaining < 2 ^ 31 := by omega
      have hnonneg : ¬extent.readLen remaining < 0 := by
        rw [EntryExtent.readLen_of_lt hlt]
        omega
      have hplace : descriptor.seek (extent.dumpOffset fsOffset currentBlockSize) position =
          (fsOffset + extent.physicalBlock * currentBlockSize : Nat) := by
        rw [Descriptor.seek, EntryExtent.dumpOffset, toOffT_of_lt (by omega),
          if_pos (hseek _ (Int.natCast_nonneg _))]
      have hreturned (off : Nat) (hoff : off = fsOffset + extent.physicalBlock * currentBlockSize) :
          (descriptor.call k extent remaining off).returned = (min extent.length remaining : Nat) := by
        rw [Descriptor.call, EntryExtent.request_of_lt hlt]
        exact hdelivers k _ _ (by omega)
      have hleft : toSizeT ((remaining : Int) - (min extent.length remaining : Nat)) =
          remaining - min extent.length remaining := toSizeT_sub (Nat.min_le_right _ _) huint
      rw [Traced.Within, log_dumpExtents_cons, if_neg hnonneg, hplace, hreturned _ rfl, hleft]
      refine List.forall_mem_cons.mpr ⟨?_, ?_⟩
      · rw [Descriptor.full_call_iff, hreturned _ rfl, EntryExtent.request_of_lt hlt]
      · split_ifs
        · simp
        · exact ih hlengths hinside (k + 1) _ (by omega)

-- From the disk to the bytes of a file: a disk of sound blocks whose nodes describe a volume is
-- scanned, and what `dumpFile` then prints for a file of the volume without gaps is read back as the content of
-- that file, wherever the container starts.
theorem scanned_file_is_printed (checkSchema : FileSystem → FileSystem)
    (hschema : ∀ fs, checkSchema fs = fs) (std : ExtentSort) (disk : List DiskBlock)
    (hsound : ∀ block ∈ disk, block.Sound) (hsize : 4096 * disk.length < 2 ^ 63) (V : Volume)
    (hnodes : V.Recoverable (disk.filterMap DiskBlock.node?)) (db : FileSystem) (fd : Int)
    (hfd : 0 ≤ fd) (stale : Nat → Memory) (file : VolumeFile) (hfile : file ∈ V.files)
    (layout : List EntryExtent) (htiled : file.Tiled layout) (address : Nat → Nat) (position : Int) :
    let image := diskImage (disk.map DiskBlock.memory)
    let apfs := (FileHunter.main checkSchema db fd
      (readCalls image stale 0 0 (List.replicate disk.length 4096))).apfs
    (∀ extent ∈ layout,
      apfs.fsOffset + extent.physicalBlock * 4096 + extent.length ≤ 4096 * disk.length) →
    let dump := dumpFile apfs std (Descriptor.ofImage image) position file.inode
    (readHexdump (dumpText address (Memory.ofList image) 0 dump.log)).flatMap Prod.snd =
      file.contentAt (Memory.ofList image) apfs.fsOffset layout := by
  intro image apfs hinside dump
  have hapfs : apfs = scanBlocks {} (blocksFrom 0 (disk.map DiskBlock.memory)) :=
    apfs_main hschema hsound db hfd stale
  have hblock : apfs.currentBlockSize = 4096 := by
    rw [hapfs]
    exact currentBlockSize_blocksFrom hsound rfl 0
  obtain ⟨xid, hdescribed⟩ := hnodes.described file hfile
  obtain ⟨e, hcached, hshown⟩ := hdescribed.cached (scannedNodes_disk hsound 0)
  rw [← hapfs, FileSystem.cached] at hcached
  obtain ⟨entry, hentry, hheap⟩ := Option.map_eq_some_iff.mp hcached
  have hconsistent : apfs.fileSystem.Consistent := by
    rw [hapfs]
    exact Reachable.consistent ⟨_, rfl⟩
  have hfind : apfs.fileSystem.findByInode file.inode = (some entry, apfs.fileSystem) := by
    rw [hconsistent.findByInode, hentry]
  have hsort : std.sort (apfs.fileSystem.heap entry).extents = layout := by
    rw [hheap]
    exact htiled.tiles.eq_of_sorted (fun extent hm => (htiled.lengths extent hm).1)
      (((std.perm _).trans hshown.extents).trans htiled.perm.symm) (std.ascending _)
  have hlength : (apfs.fileSystem.heap entry).length = file.length.getD 0 := by
    rw [hheap, hshown.length]
  have himage : image.length = 4096 * disk.length := by
    rw [length_diskImage, List.length_map]
  have hfull : (dumpExtents (Descriptor.ofImage image) apfs.fsOffset 4096 0 layout position
      (file.length.getD 0)).Within FileRead.Full :=
    dumpExtents_full (Device.delivers_ofImage image) (fun _ hoff => decide_eq_true hoff)
      (by omega) (fun extent hm => (htiled.lengths extent hm).2) (himage ▸ hinside) 0 position
      htiled.uint64
  have hval : dump.val.1 = ((layout.flatMap (EntryExtent.dataAt (Memory.ofList image) apfs.fsOffset
      4096)).take (file.length.getD 0), true) := by
    rw [val_dumpFile hfind, hsort, hlength, hblock]
    refine val_dumpExtents_of_full (fun _ hoff => decide_eq_true hoff) htiled.lengths
      (fun extent hm => ?_) htiled.uint64 hfull
    have hin := hinside extent hm
    omega
  rw [bytes_dumpText, VolumeFile.contentAt]
  exact (val_dumpFile_eq_delivered apfs std _ position file.inode).symm.trans (congrArg Prod.fst hval)

-- The disk of the small volume, with the first bytes of its file on the fourth block. There
-- is no superblock, so the container is taken to start at 0.
def dataDisk : List DiskBlock :=
  .other [] :: (smallVolume.format 7).map .ofNode ++ [.other [1, 2, 3, 4, 5, 6]]

theorem nodes_dataDisk : dataDisk.filterMap DiskBlock.node? = smallVolume.format 7 := by
  rw [dataDisk, List.filterMap_append, nodes_smallDisk,
    List.filterMap_cons_none (node?_other (by decide)), List.filterMap_nil, List.append_nil]

theorem sound_dataDisk : ∀ block ∈ dataDisk, block.Sound ∧ ¬IsSuperblock 4096 block.memory := by
  intro block hm
  rcases List.mem_append.mp hm with hm | hm
  · have hsound := sound_smallDisk block hm
    refine ⟨hsound, ?_⟩
    rcases List.mem_cons.mp hm with rfl | hm
    · exact (sound_other (by decide)).2
    · obtain ⟨node, -, rfl⟩ := List.mem_map.mp hm
      exact not_isSuperblock_of_isNode (isNode_encodeNode hsound)
  · obtain rfl := List.mem_singleton.mp hm
    exact sound_other (by decide)

theorem scanned_smallVolume_is_printed :
    ∃ apfs, apfs = (FileHunter.main id {} 3 (readCalls (diskImage (dataDisk.map DiskBlock.memory))
        (fun _ _ => 0xff) 0 0 (List.replicate dataDisk.length 4096))).apfs ∧
      (readHexdump (dumpText (fun _ => 0) (Memory.ofList (diskImage (dataDisk.map DiskBlock.memory))) 0
        (dumpFile apfs insertionSort (Descriptor.ofImage (diskImage (dataDisk.map DiskBlock.memory))) 0
          16).log)).flatMap Prod.snd =
        (Memory.ofList (diskImage (dataDisk.map DiskBlock.memory))).slice (3 * 4096) 6 := by
  have hsound : ∀ block ∈ dataDisk, block.Sound := fun block hm => (sound_dataDisk block hm).1
  have hprinted := scanned_file_is_printed id (fun _ => rfl) insertionSort dataDisk hsound (by decide)
    smallVolume (nodes_dataDisk ▸ recoverable_format smallVolume 7) {} 3 (by decide) (fun _ _ => 0xff)
    smallFile (List.mem_cons_of_mem _ List.mem_cons_self) [⟨0, 3, 4096⟩]
    ⟨List.Perm.refl _, by decide, by decide, by decide⟩ (fun _ => 0) 0
  obtain ⟨apfs, hapfs⟩ : ∃ apfs, apfs = (FileHunter.main id {} 3
      (readCalls (diskImage (dataDisk.map DiskBlock.memory)) (fun _ _ => 0xff) 0 0
        (List.replicate dataDisk.length 4096))).apfs := ⟨_, rfl⟩
  dsimp only at hprinted
  rw [← hapfs] at hprinted
  have hoffset : apfs.fsOffset = 0 := by
    have hnone : superblockPositions ({} : APFSScanner).currentBlockSize
        (blocksFrom 0 (dataDisk.map DiskBlock.memory ++ [])) = [] :=
      superblockPositions_behind (List.forall_mem_map.mpr fun block hm => (sound_dataDisk block hm).2) 0 []
    rw [List.append_nil] at hnone
    have hscan := apfs_main (fun _ : FileSystem => rfl) hsound {} (show (0 : Int) ≤ 3 by decide)
      fun _ _ => 0xff
    rw [hapfs.trans hscan, fsOffset_scanBlocks, hnone]
    rfl
  have hinside : ∀ extent ∈ [(⟨0, 3, 4096⟩ : EntryExtent)],
      apfs.fsOffset + extent.physicalBlock * 4096 + extent.length ≤ 4096 * dataDisk.length := by
    rw [hoffset]
    decide
  refine ⟨apfs, hapfs, (hprinted hinside).trans ?_⟩
  rw [hoffset, VolumeFile.contentAt, List.flatMap_singleton, EntryExtent.dataAt, Memory.take_slice]
  norm_num [smallFile]

end SuperBadBlock
