import SuperBadBlock.DiskScanner.Disks
import SuperBadBlock.SbbFuse.Volume

namespace SuperBadBlock

open FileSystem

-- What `pread` makes of a descriptor: on a bad one every call fails.
def Device.ofDescriptor (device : Device) (fd : Int) : Device where
  bytes := device.bytes
  pread k count off := if fd < 0 then -1 else device.pread k count off

-- `main` of the mount opens the image and the database and does not look at the result; from
-- there on requests are answered, the reads with `getFD()`. The names of the two files are
-- constants of the source, where the code that takes them from the arguments is left out.
def SbbFuse.main (checkSchema : FileSystem → FileSystem) (db : FileSystem) (fd : Int)
    (device : Device) : Mount × Device :=
  let (_, g_fileHunter) := DiskScanner.«open» checkSchema db fd
  ({ fileSystem := g_fileHunter.apfs.fileSystem }, device.ofDescriptor g_fileHunter.fd)

-- An image as `pread` sees it: what is asked for, up to its end.
def Device.ofImage (image : List UInt8) : Device where
  bytes := Memory.ofList image
  pread _ count off := if off < 0 then -1 else (min count (image.length - off.toNat) : Nat)

theorem Device.delivers_ofImage (image : List UInt8) :
    (Device.ofImage image).Delivers image.length := by
  intro k count off hin
  have hcount : min count (image.length - off) = count := by omega
  simp only [ofImage, Int.toNat_natCast, hcount]
  exact if_neg (by omega)

theorem Device.ofDescriptor_of_nonneg (device : Device) {fd : Int} (hfd : 0 ≤ fd) :
    device.ofDescriptor fd = device := by
  simp only [ofDescriptor, if_neg (Int.not_lt.mpr hfd)]

-- Without an image the loop ends at its first call.
theorem Device.val_readExtents_of_neg (device : Device) {fd : Int} (hfd : fd < 0) (k : Nat)
    {extents : List EntryExtent} (hne : extents ≠ []) (fileBuffer : Memory) (remaining : Nat) :
    (readExtents (device.ofDescriptor fd) k extents fileBuffer remaining).val = none := by
  cases extents with
  | nil => exact absurd rfl hne
  | cons extent extents =>
      have hanswer : (device.ofDescriptor fd).answer k extent remaining = -1 := if_pos hfd
      rw [val_readExtents_cons, hanswer]
      rfl

section Runs

variable {checkSchema : FileSystem → FileSystem} (hschema : ∀ fs, checkSchema fs = fs)

include hschema

theorem apfs_open (db : FileSystem) (fd : Int) :
    (DiskScanner.«open» checkSchema db fd).2 = { fd := fd, apfs := { fileSystem := db.reopen } } := by
  rw [DiskScanner.«open», hschema]
  split_ifs <;> rfl

-- A run of the scanner over the image of a disk is a scan of the blocks of the disk, whatever
-- the database held before.
theorem apfs_main {disk : List DiskBlock} (h : ∀ block ∈ disk, block.Sound) (db : FileSystem)
    {fd : Int} (hfd : 0 ≤ fd) (stale : Nat → Memory) :
    (FileHunter.main checkSchema db fd (readCalls (diskImage (disk.map DiskBlock.memory)) stale 0 0
      (List.replicate disk.length 4096))).apfs =
    scanBlocks {} (blocksFrom 0 (disk.map DiskBlock.memory)) := by
  have hcounts : ∀ count ∈ List.replicate disk.length 4096, 0 < count :=
    fun count hm => List.eq_of_mem_replicate hm ▸ (by decide)
  have hpos : ∀ call ∈ readCalls (diskImage (disk.map DiskBlock.memory)) stale 0 0
      (List.replicate disk.length 4096), 0 < call.res := res_pos_of_counts hcounts 0 0
  rw [← (scanBlocks_diskImage h stale).1]
  simp only [FileHunter.main, apfs_open hschema]
  rw [DiskScanner.scan_eq _ hfd _ hpos]
  rfl

theorem mounted_main (splitString : List UInt8 → UInt8 → List (List UInt8)) (std : ExtentSort)
    (device : Device) (db : FileSystem) (fd : Int) :
    Mount.Mounted splitString std (device.ofDescriptor fd) db (SbbFuse.main checkSchema db fd device).1 ∧
      (SbbFuse.main checkSchema db fd device).2 = device.ofDescriptor fd := by
  simp only [SbbFuse.main, apfs_open hschema, and_true]
  exact .start

end Runs

-- A read of a file that has extents, on a mount that could not open its image.
theorem Mount.read_of_neg {splitString : List UInt8 → UInt8 → List (List UInt8)} {std : ExtentSort}
    {device : Device} {V : Volume} {store : FileSystem} {m : Mount} {path : List UInt8}
    (h : V.Stored store) (hm : Coherent store m.fileSystem) {file : VolumeFile}
    (hpath : V.Path (splitString path slash) file) (hextents : file.extents ≠ []) {fd : Int}
    (hfd : fd < 0) (fileBuffer buf : Memory) (size : Nat) (offset : Int) :
    (m.sbb_read splitString std (device.ofDescriptor fd) path fileBuffer buf size offset).1 =
      some (0, buf) := by
  obtain ⟨entry, m', hcall, -, hshown⟩ := findByPath_of_path h hm hpath
  have hne : std.sort (m'.fileSystem.heap entry).extents ≠ [] := by
    intro hnil
    have hempty := ((std.perm _).trans hshown.extents).symm
    rw [hnil] at hempty
    exact hextents hempty.eq_nil
  have hnone := device.val_readExtents_of_neg hfd 0 hne fileBuffer (m'.fileSystem.heap entry).length
  rw [sbb_read, callback_of_found hcall]
  simp only [val_read_of_none buf offset size hnone]
  rfl

-- From the disk to the mount: a disk of sound blocks whose nodes describe a volume is scanned into
-- the database, and a mount of the database answers for that volume. The bytes of its files are
-- served if the mount got the image open and the scan found the container where `read` takes it
-- to start.
theorem scanned_volume_is_served (checkSchema : FileSystem → FileSystem)
    (hschema : ∀ fs, checkSchema fs = fs) (splitString : List UInt8 → UInt8 → List (List UInt8))
    (std : ExtentSort) (disk : List DiskBlock) (hsound : ∀ block ∈ disk, block.Sound)
    (hsize : 4096 * disk.length < 2 ^ 63) (V : Volume)
    (hnodes : V.Recoverable (disk.filterMap DiskBlock.node?)) (db : FileSystem) (fd fd' : Int)
    (hfd : 0 ≤ fd) (stale : Nat → Memory) :
    let image := diskImage (disk.map DiskBlock.memory)
    let found := FileHunter.main checkSchema db fd
      (readCalls image stale 0 0 (List.replicate disk.length 4096))
    let store := found.apfs.fileSystem
    let mount := SbbFuse.main checkSchema store fd' (Device.ofImage image)
    V.Stored store ∧
    Mount.Mounted splitString std mount.2 store mount.1 ∧
    ∀ m, Mount.Mounted splitString std mount.2 store m → ∀ path,
      (∀ file, V.Path (splitString path slash) file →
        Mount.Found splitString V m path file ∧
        (0 ≤ fd' → found.apfs.fsOffset = 0xc805000 →
          Mount.ReadsFile splitString std mount.2 (4096 * disk.length) found.apfs.fsOffset m path file) ∧
        (fd' < 0 → file.extents ≠ [] → ∀ fileBuffer buf size offset,
          (m.sbb_read splitString std mount.2 path fileBuffer buf size offset).1 = some (0, buf))) ∧
      ((∀ file, ¬V.Path (splitString path slash) file) →
        Mount.Missing splitString std mount.2 m path) := by
  intro image found store mount
  have hstore : store = (scanBlocks {} (blocksFrom 0 (disk.map DiskBlock.memory))).fileSystem :=
    congrArg APFSScanner.fileSystem (apfs_main hschema hsound db hfd stale)
  have hstored : V.Stored store := by
    rw [hstore]
    exact hnodes.stored (scannedNodes_disk hsound 0)
  have hdevice : (Device.ofImage image).Delivers (4096 * disk.length) := by
    have hlength : image.length = 4096 * disk.length := by
      rw [length_diskImage, List.length_map]
    rw [← hlength]
    exact Device.delivers_ofImage image
  obtain ⟨hmounted, hsecond⟩ := mounted_main hschema splitString std (Device.ofImage image) store fd'
  change mount.2 = _ at hsecond
  rw [hsecond]
  refine ⟨hstored, hmounted, fun m hm path => ⟨fun file hpath => ⟨?_, fun hfd' hstart => ?_,
    fun hfd' hextents => ?_⟩, ?_⟩⟩
  · exact Mount.found_of_path hstored hm.coherent.1 hpath
  · rw [hstart, Device.ofDescriptor_of_nonneg _ hfd']
    exact Mount.readsFile_of_path hstored hm.coherent.1 hpath hsize hdevice
  · exact Mount.read_of_neg hstored hm.coherent.1 hpath hextents hfd'
  · exact Mount.missing_of_no_path hstored hm.coherent.1

theorem sound_smallVolume : ∀ block ∈ (smallVolume.format 7).map DiskBlock.ofNode, block.Sound := by
  intro block hm
  obtain ⟨node, hnode, rfl⟩ := List.mem_map.mp hm
  exact encodable_smallVolume node hnode

-- The small volume in a container that starts where `read` takes it to start, with the first
-- bytes of its file on the block that the file names.
def containerDisk : List DiskBlock :=
  List.replicate 51205 (.other []) ++
    superblock :: ((smallVolume.format 7).map .ofNode ++ [.other [1, 2, 3, 4, 5, 6]])

theorem length_containerDisk : containerDisk.length = 51209 := by
  rw [containerDisk, List.length_append, List.length_replicate]
  rfl

theorem sound_containerDisk : ∀ block ∈ containerDisk, block.Sound := by
  intro block hm
  rcases List.mem_append.mp hm with hm | hm
  · rw [List.eq_of_mem_replicate hm]
    exact (sound_other (by decide)).1
  · rcases List.mem_cons.mp hm with rfl | hm
    · exact sound_superblock
    · rcases List.mem_append.mp hm with hm | hm
      · exact sound_smallVolume block hm
      · rw [List.mem_singleton.mp hm]
        exact (sound_other (by decide)).1

theorem nodes_containerDisk : containerDisk.filterMap DiskBlock.node? = smallVolume.format 7 := by
  have hnone : (List.replicate 51205 (DiskBlock.other [])).filterMap DiskBlock.node? = [] := by
    refine List.filterMap_eq_nil_iff.mpr fun block hm => ?_
    rw [List.eq_of_mem_replicate hm]
    exact node?_other (by decide)
  rw [containerDisk, List.filterMap_append, hnone, List.nil_append,
    List.filterMap_cons_none node?_superblock, List.filterMap_append, node?_ofNode,
    List.filterMap_cons_none (node?_other (by decide)), List.filterMap_nil, List.append_nil]

theorem fsOffset_containerDisk :
    (scanBlocks {} (blocksFrom 0 (containerDisk.map DiskBlock.memory))).fsOffset = 0xc805000 := by
  rw [containerDisk, List.map_append, List.map_cons, fsOffset_blocksFrom]
  · rw [List.length_map, List.length_replicate]
  · intro other hm
    obtain ⟨block, hblock, rfl⟩ := List.mem_map.mp hm
    rw [List.eq_of_mem_replicate hblock]
    exact (sound_other (by decide)).2
  · rw [memory_superblock]
    exact isSuperblock_superblockImage 4096
  · rw [List.length_map, List.length_replicate]
    decide
  · rw [List.length_map, List.length_replicate]
    decide

theorem contentAt_containerDisk :
    smallFile.contentAt (Memory.ofList (diskImage (containerDisk.map DiskBlock.memory))) 0xc805000
      [⟨0, 3, 4096⟩] = [1, 2, 3, 4, 5, 6] := by
  have hlength : 51208 < (containerDisk.map DiskBlock.memory).length := by
    rw [List.length_map, length_containerDisk]
    decide
  have hblock : (containerDisk.map DiskBlock.memory)[51208] = Memory.ofList [1, 2, 3, 4, 5, 6] := by
    simp only [List.getElem_map, containerDisk]
    rw [List.getElem_append_right (by rw [List.length_replicate]; decide)]
    simp only [List.length_replicate]
    rfl
  have hdata := slice_diskImage (containerDisk.map DiskBlock.memory) 51208 hlength
  rw [hblock] at hdata
  rw [VolumeFile.contentAt, List.flatMap_singleton, EntryExtent.dataAt]
  change List.take 6 ((Memory.ofList (diskImage (containerDisk.map DiskBlock.memory))).slice
    (4096 * 51208 : Nat) 4096) = _
  rw [hdata, Memory.take_slice]
  decide

-- Its file, through the mount.
theorem scanned_smallVolume_is_served :
    ∃ store device buf, store = (FileHunter.main id {} 3 (readCalls
        (diskImage (containerDisk.map DiskBlock.memory)) (fun _ _ => 0xff) 0 0
        (List.replicate containerDisk.length 4096))).apfs.fileSystem ∧
      device = Device.ofImage (diskImage (containerDisk.map DiskBlock.memory)) ∧
      ((SbbFuse.main id store 4 device).1.sbb_read splitPath insertionSort
        (SbbFuse.main id store 4 device).2 [47, 97] (fun _ => 0xff) (fun _ => 0) 10 2).1 =
          some (4, buf) ∧ buf.slice 0 4 = [3, 4, 5, 6] := by
  have hserved := scanned_volume_is_served id (fun _ => rfl) splitPath insertionSort
    containerDisk sound_containerDisk (by rw [length_containerDisk]; decide) smallVolume
    (nodes_containerDisk ▸ recoverable_format smallVolume 7) {} 3 4 (by decide) fun _ _ => 0xff
  have hscan : (FileHunter.main id {} 3 (readCalls (diskImage (containerDisk.map DiskBlock.memory))
      (fun _ _ => 0xff) 0 0 (List.replicate containerDisk.length 4096))).apfs = _ :=
    apfs_main (fun _ => rfl) sound_containerDisk {} (by decide) fun _ _ => 0xff
  dsimp only at hserved
  rw [hscan, fsOffset_containerDisk, length_containerDisk] at hserved
  obtain ⟨-, hmounted, hserves⟩ := hserved
  obtain ⟨-, hread, -⟩ := (hserves _ hmounted [47, 97]).1 _ Mount.path_smallFile
  obtain ⟨buf, hreply, hbytes⟩ := hread (by decide) rfl [⟨0, 3, 4096⟩]
    ⟨List.Perm.refl _, by decide, by decide, by decide, by decide, by decide, by decide⟩ (by decide)
    (fun _ => 0xff) (fun _ => 0) 10 2 (by decide) (by decide)
  refine ⟨_, _, buf, rfl, rfl, ?_, ?_⟩
  · rw [hscan]
    exact hreply
  · change buf.slice 0 4 = ((smallFile.contentAt (Memory.ofList
      (diskImage (containerDisk.map DiskBlock.memory))) 0xc805000 _).drop 2).take 4 at hbytes
    rw [hbytes, contentAt_containerDisk]
    rfl

end SuperBadBlock
