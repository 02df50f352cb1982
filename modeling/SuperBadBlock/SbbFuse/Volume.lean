import SuperBadBlock.ApfsScanner.Volume
import SuperBadBlock.SbbFuse.Theorems

namespace SuperBadBlock

open FileSystem

namespace Device

-- `pread` delivers whatever lies inside the image.
def Delivers (device : Device) (imageLength : Nat) : Prop :=
  ∀ (k count off : Nat), off + count ≤ imageLength → device.pread k count off = count

theorem Delivers.full {device : Device} {imageLength : Nat} (h : device.Delivers imageLength)
    (hlimit : imageLength < 2 ^ 63) {extents : List EntryExtent}
    (hlengths : ∀ extent ∈ extents, extent.length < 2 ^ 31)
    (hinside : ∀ extent ∈ extents,
      0xc805000 + 4096 * extent.physicalBlock + extent.length ≤ imageLength)
    (k : Nat) (fileBuffer : Memory) {remaining : Nat} (huint : remaining < 2 ^ 64) :
    (readExtents device k extents fileBuffer remaining).Within Pread.Full := by
  induction extents generalizing k fileBuffer remaining with
  | nil => exact Traced.within_pure _
  | cons extent extents ih =>
      obtain ⟨hlength, hlengths⟩ := List.forall_mem_cons.mp hlengths
      obtain ⟨hin, hinside⟩ := List.forall_mem_cons.mp hinside
      have hrequest : extent.request remaining = min extent.length remaining :=
        EntryExtent.request_of_lt (by omega)
      have hoffset : extent.imageOffset = (0xc805000 + 4096 * extent.physicalBlock : Nat) :=
        EntryExtent.imageOffset_of_lt (by omega)
      have hanswer : device.answer k extent remaining = (min extent.length remaining : Nat) := by
        rw [Device.answer, hrequest, hoffset]
        exact h k _ _ (by omega)
      have hleft : toSizeT ((remaining : Int) - (min extent.length remaining : Nat)) =
          remaining - min extent.length remaining := toSizeT_sub (Nat.min_le_right _ _) huint
      rw [within_readExtents_cons]
      refine ⟨?_, fun _ => ?_⟩
      · rw [Pread.Full, Device.call, hanswer, hrequest]
      · rw [hanswer, hleft]
        exact ih hlengths hinside (k + 1) _ (by omega)

end Device

namespace VolumeFile

variable (file : VolumeFile)

-- What `sbb_getattr` has to say about the file.
def stat (stbuf : Stat) : Stat :=
  if file.type = DT_REG then
    { stbuf with st_mode := S_IFREG ||| 0o444, st_nlink := 1, st_size := file.length.getD 0 }
  else if file.type = DT_DIR then { stbuf with st_mode := S_IFDIR ||| 0o755, st_nlink := 2 }
  else stbuf

-- The extents in logical order.
def Laid (layout : List EntryExtent) : Prop :=
  Entry.Laid { length := file.length.getD 0, extents := file.extents } layout

-- The bytes of the file in a container that starts at `fsOffset`.
def contentAt (image : Memory) (fsOffset : Nat) (layout : List EntryExtent) : List UInt8 :=
  (layout.flatMap (EntryExtent.dataAt image fsOffset 4096)).take (file.length.getD 0)

variable {file}

-- `read` goes by its own idea of where the container starts.
theorem contentAt_builtin (image : Memory) (layout : List EntryExtent) :
    file.contentAt image 0xc805000 layout =
      (layout.flatMap (EntryExtent.data image)).take (file.length.getD 0) := by
  have hdata (extent : EntryExtent) : extent.dataAt image 0xc805000 4096 = extent.data image := by
    rw [EntryExtent.dataAt, EntryExtent.data, Nat.mul_comm]
    push_cast
    rfl
  rw [contentAt, funext hdata]

theorem Laid.entry {layout : List EntryExtent} (h : file.Laid layout) {e : Entry}
    (hshown : file.Shown e) : e.Laid layout where
  perm := h.perm.trans hshown.extents.symm
  tiles := h.tiles
  covers := hshown.length ▸ h.covers
  lengths := h.lengths
  starts := hshown.length ▸ h.starts
  offsets := h.offsets
  uint64 := hshown.length ▸ h.uint64

end VolumeFile

namespace Volume

variable (V : Volume)

-- The parts lead from the root to the file.
def Path (parts : List (List UInt8)) (file : VolumeFile) : Prop :=
  ∃ root ∈ V.files, root.inode = 2 ∧
    NamedTree.Chain VolumeFile.parentId VolumeFile.inode VolumeFile.name V.files root parts file

-- The entries of a directory.
def children (file : VolumeFile) : List VolumeFile :=
  V.files.filter fun child => child.parentId = file.inode

variable {V} {store : FileSystem}

section Tables

theorem exists_of_forall₂ {α β : Type} {R : α → β → Prop} {l : List α} {l' : List β}
    (h : List.Forall₂ R l l') : ∀ x ∈ l, ∃ y ∈ l', R x y := by
  induction h with
  | nil => simp
  | cons hhead _ ih =>
      refine List.forall_mem_cons.mpr ⟨⟨_, List.mem_cons_self, hhead⟩, fun x hx => ?_⟩
      obtain ⟨y, hy, hxy⟩ := ih x hx
      exact ⟨y, List.mem_cons_of_mem _ hy, hxy⟩

theorem Stored.row_of_file (h : V.Stored store) :
    ∀ file ∈ V.files, ∃ row ∈ store.entry, file.Shown (loaded store.extent row) := by
  obtain ⟨rows, hperm, hrows⟩ := h
  intro file hm
  obtain ⟨row, hrow, hshown⟩ := exists_of_forall₂ hrows file hm
  exact ⟨row, hperm.mem_iff.mp hrow, hshown⟩

theorem Stored.file_of_row (h : V.Stored store) :
    ∀ row ∈ store.entry, ∃ file ∈ V.files, file.Shown (loaded store.extent row) := by
  obtain ⟨rows, hperm, hrows⟩ := h
  exact fun row hrow => exists_of_forall₂
    (R := fun row file => VolumeFile.Shown file (loaded store.extent row)) hrows.flip row (hperm.mem_iff.mpr hrow)

theorem Stored.inodes_nodup (h : V.Stored store) : (store.entry.map EntryRow.inode).Nodup := by
  obtain ⟨rows, hperm, hrows⟩ := h
  rw [← (hperm.map EntryRow.inode).nodup_iff, map_inode_of_shown hrows]
  exact V.inodes

theorem map_name_of_shown {files : List VolumeFile} {rows : List EntryRow}
    (h : List.Forall₂ (fun file row => file.Shown (loaded store.extent row)) files rows) :
    rows.map (fun row => (row.parent_inode, row.name)) =
      files.map fun file => (file.parentId, file.name) := by
  induction h with
  | nil => rfl
  | cons hshown _ ih =>
      exact congrArg₂ List.cons (Prod.ext hshown.parentId hshown.name) ih

theorem Stored.names_nodup (h : V.Stored store) :
    (store.entry.map fun row => (row.parent_inode, row.name)).Nodup := by
  obtain ⟨rows, hperm, hrows⟩ := h
  rw [← (hperm.map _).nodup_iff, map_name_of_shown hrows]
  exact V.names

-- The rows of a directory have the names of its files.
theorem Stored.children_perm (h : V.Stored store) (file : VolumeFile) :
    ((store.entry.filter fun row => row.parent_inode = file.inode).map EntryRow.name).Perm
      ((V.children file).map VolumeFile.name) := by
  obtain ⟨rows, hperm, hrows⟩ := h
  have hnames := congrArg (fun pairs : List (Nat × List UInt8) =>
    (pairs.filter fun pair => pair.1 = file.inode).map Prod.snd) (map_name_of_shown hrows)
  simp only [List.filter_map, List.map_map] at hnames
  exact ((hperm.filter _).map _).symm.trans (List.Perm.of_eq hnames)

variable {row last : EntryRow} {file : VolumeFile} {parts : List (List UInt8)}

theorem Stored.root (h : V.Stored store) : ∃ root ∈ store.entry, root.inode = 2 := by
  obtain ⟨file, hfile, hinode⟩ := List.mem_map.mp V.root
  obtain ⟨row, hrow, hshown⟩ := h.row_of_file file hfile
  exact ⟨row, hrow, hshown.inode.trans hinode⟩

-- What the rows lead to is what the files lead to.
theorem Stored.path_of_chain (h : V.Stored store) (hrow : row ∈ store.entry) (hinode : row.inode = 2)
    (hchain : Chain store.entry row parts last) :
    ∃ file, file.Shown (loaded store.extent last) ∧ V.Path parts file := by
  obtain ⟨root, hroot, hshown⟩ := h.file_of_row row hrow
  obtain ⟨file, hfile, hpath⟩ := NamedTree.Chain.transfer
    (R := fun row file => VolumeFile.Shown file (loaded store.extent row))
    (fun _ _ hs => hs.inode.symm) (fun _ _ hs => hs.parentId.symm) (fun _ _ hs => hs.name.symm)
    h.file_of_row hchain hshown
  exact ⟨file, hfile, root, hroot, hshown.inode.symm.trans hinode, hpath⟩

theorem Stored.chain_of_path (h : V.Stored store) (hrow : row ∈ store.entry) (hinode : row.inode = 2)
    (hpath : V.Path parts file) :
    ∃ last, file.Shown (loaded store.extent last) ∧ Chain store.entry row parts last := by
  obtain ⟨root, hroot, hroot2, hchain⟩ := hpath
  obtain ⟨first, hfirst, hshown⟩ := h.row_of_file root hroot
  obtain rfl := List.inj_on_of_nodup_map h.inodes_nodup hfirst hrow
    ((hshown.inode.trans hroot2).trans hinode.symm)
  exact NamedTree.Chain.transfer
    (R := fun file row => VolumeFile.Shown file (loaded store.extent row))
    (fun _ _ hs => hs.inode) (fun _ _ hs => hs.parentId) (fun _ _ hs => hs.name)
    h.row_of_file hchain hshown

end Tables

end Volume

namespace Mount

variable {splitString : List UInt8 → UInt8 → List (List UInt8)} {std : ExtentSort} {device : Device}
  {V : Volume} {store : FileSystem} {m : Mount} {path : List UInt8}

-- The lookup of a callback finds the file its path leads to.
theorem findByPath_of_path (h : V.Stored store) (hm : Coherent store m.fileSystem)
    {file : VolumeFile} (hpath : V.Path (splitString path slash) file) :
    ∃ entry m', m.findByPath splitString path = (some (some entry), m') ∧
      Coherent store m'.fileSystem ∧ file.Shown (m'.fileSystem.heap entry) := by
  obtain ⟨root, hroot, hinode⟩ := h.root
  obtain ⟨last, hlast, hchain⟩ := h.chain_of_path hroot hinode hpath
  obtain ⟨hkeeps, found, hfound, hrel⟩ := hm.findByPath splitString h.inodes_nodup hroot hinode path
  rw [descend, (NamedTree.descend_eq_some_iff h.names_nodup).mpr hchain] at hrel
  cases hrel with
  | @some entry _ hsame =>
      rw [findByPath_eq, hfound]
      exact ⟨entry, _, rfl, hkeeps, hlast.congr hsame⟩

theorem findByPath_of_no_path (h : V.Stored store) (hm : Coherent store m.fileSystem)
    (hpath : ∀ file, ¬V.Path (splitString path slash) file) :
    (m.findByPath splitString path).1 = some none := by
  obtain ⟨root, hroot, hinode⟩ := h.root
  obtain ⟨-, found, hfound, hrel⟩ := hm.findByPath splitString h.inodes_nodup hroot hinode path
  cases hdescend : descend store.entry root (splitString path slash) with
  | some last =>
      obtain ⟨file, -, hfile⟩ := h.path_of_chain hroot hinode
        ((NamedTree.descend_eq_some_iff h.names_nodup).mp hdescend)
      exact absurd hfile (hpath file)
  | none =>
      rw [hdescend] at hrel
      cases hrel with
      | none =>
          rw [findByPath_eq]
          exact hfound

-- A callback that finds an entry answers for it.
theorem callback_of_found {α : Type} {entry : EntryPtr} {m' : Mount}
    (hcall : m.findByPath splitString path = (some (some entry), m')) (notFound : α)
    (found : Mount → EntryPtr → α × Mount) :
    m.callback splitString path notFound found = (some (found m' entry).1, (found m' entry).2) := by
  rw [callback, hcall]

-- The replies to the requests for a path that leads nowhere.
structure Missing (splitString : List UInt8 → UInt8 → List (List UInt8)) (std : ExtentSort)
    (device : Device) (m : Mount) (path : List UInt8) : Prop where
  getattr : ∀ stbuf, (m.sbb_getattr splitString path stbuf).1 = some (-ENOENT, stbuf)
  readdir : (m.sbb_readdir splitString path).1 = some (-ENOENT, [])
  «open» : ∀ flags, (m.sbb_open splitString path flags).1 = some (-ENOENT)
  read : ∀ fileBuffer buf size offset,
    (m.sbb_read splitString std device path fileBuffer buf size offset).1 = some (-ENOENT, buf)

-- The replies to the requests for a path that leads to a file of the volume, but for its data.
structure Found (splitString : List UInt8 → UInt8 → List (List UInt8)) (V : Volume) (m : Mount)
    (path : List UInt8) (file : VolumeFile) : Prop where
  getattr : ∀ stbuf, (m.sbb_getattr splitString path stbuf).1 = some (0, file.stat stbuf)
  readdir : ∃ names, (m.sbb_readdir splitString path).1 = some (0, [dot] :: [dot, dot] :: names) ∧
    names.Perm ((V.children file).map VolumeFile.name)
  «open» : ∀ flags, (m.sbb_open splitString path flags).1 =
    some (if flags &&& O_ACCMODE ≠ O_RDONLY then -EACCES else 0)

-- The replies to the reads of a file whose extents leave no gap and lie inside the image: the
-- part asked for, from a container that starts at `fsOffset`.
def ReadsFile (splitString : List UInt8 → UInt8 → List (List UInt8)) (std : ExtentSort)
    (device : Device) (imageLength fsOffset : Nat) (m : Mount) (path : List UInt8)
    (file : VolumeFile) : Prop :=
  ∀ layout, file.Laid layout →
    (∀ extent ∈ layout, fsOffset + 4096 * extent.physicalBlock + extent.length ≤ imageLength) →
    ∀ (fileBuffer buf : Memory) (size offset : Nat), size < 2 ^ 31 → offset < 2 ^ 63 →
      let n := readCount (file.length.getD 0) offset size
      ∃ buf', (m.sbb_read splitString std device path fileBuffer buf size offset).1 =
          some ((n : Int), buf') ∧
        buf'.slice 0 n = ((file.contentAt device.bytes fsOffset layout).drop offset).take n

theorem missing_of_no_path (h : V.Stored store) (hm : Coherent store m.fileSystem)
    (hpath : ∀ file, ¬V.Path (splitString path slash) file) :
    Missing splitString std device m path := by
  have hlookup := findByPath_of_no_path h hm hpath
  rcases hcall : m.findByPath splitString path with ⟨found, m'⟩
  rw [hcall] at hlookup
  obtain rfl := hlookup
  constructor
  · intro stbuf
    rw [sbb_getattr, callback, hcall]
  · rw [sbb_readdir, callback, hcall]
  · intro flags
    rw [sbb_open, callback, hcall]
  · intro fileBuffer buf size offset
    rw [sbb_read, callback, hcall]

theorem found_of_path (h : V.Stored store) (hm : Coherent store m.fileSystem) {file : VolumeFile}
    (hpath : V.Path (splitString path slash) file) : Found splitString V m path file := by
  obtain ⟨entry, m', hcall, hcoherent, hshown⟩ := findByPath_of_path h hm hpath
  constructor
  · intro stbuf
    rw [sbb_getattr, callback_of_found hcall]
    simp only [hshown.type, hshown.length, VolumeFile.stat]
  · have hchildren := (hcoherent.toServes.findByParentInode file.inode).2
    have hnames := congrArg (List.map Entry.name) hchildren
    simp only [List.map_map] at hnames
    refine ⟨_, ?_, h.children_perm file⟩
    rw [sbb_readdir, callback_of_found hcall]
    simp only [hshown.inode]
    exact congrArg (fun names => some ((0 : Int), [dot] :: [dot, dot] :: names)) hnames
  · intro flags
    rw [sbb_open, callback_of_found hcall]
    split_ifs <;> rfl

theorem readsFile_of_path (h : V.Stored store) (hm : Coherent store m.fileSystem) {file : VolumeFile}
    (hpath : V.Path (splitString path slash) file) {imageLength : Nat} (hlimit : imageLength < 2 ^ 63)
    (hdevice : device.Delivers imageLength) :
    ReadsFile splitString std device imageLength 0xc805000 m path file := by
  obtain ⟨entry, m', hcall, -, hshown⟩ := findByPath_of_path h hm hpath
  intro layout hlaid hinside fileBuffer buf size offset hsize hoffset n
  have hentry := hlaid.entry hshown
  have hfull : (m'.fileSystem.read std device fileBuffer entry buf offset size).Within Pread.Full := by
    rw [within_read, hentry.sort_eq std]
    exact hdevice.full hlimit (fun extent he => (hlaid.lengths extent he).2) hinside 0 fileBuffer
      hentry.uint64
  obtain ⟨-, hn, hslice, -⟩ := read_spec hentry std fileBuffer buf hoffset (by omega) hfull
  rw [hshown.length] at hn hslice
  have hle : n ≤ size ∧ min n (file.length.getD 0 - offset) = n := by
    simp only [n, readCount]
    split_ifs <;> omega
  refine ⟨(m'.fileSystem.read std device fileBuffer entry buf offset size).val.2.1, ?_, ?_⟩
  · have hint : toInt ((readCount (file.length.getD 0) offset size : Nat) : Int) = (n : Int) :=
      toInt_of_lt (show n < 2 ^ 31 by omega)
    rw [sbb_read, callback_of_found hcall]
    simp only [hn, hint]
  · rw [hslice, VolumeFile.contentAt_builtin, List.drop_take, List.take_take, hle.2]

-- A mount of the tables of a volume serves the volume: in every state it gets to, a path
-- that leads to a file is answered with the attributes and the entries of that file, and any
-- other path with `-ENOENT`. Its bytes are served if the container starts where `read` takes
-- it to start.
theorem mount_serves_volume (splitString : List UInt8 → UInt8 → List (List UInt8))
    (std : ExtentSort) (device : Device) (V : Volume) (store : FileSystem) (h : V.Stored store)
    (m : Mount) (hm : Mounted splitString std device store m) (path : List UInt8) :
    (∀ file, V.Path (splitString path slash) file → Found splitString V m path file ∧
      ∀ imageLength, imageLength < 2 ^ 63 → device.Delivers imageLength →
        ∀ fsOffset, fsOffset = 0xc805000 →
          ReadsFile splitString std device imageLength fsOffset m path file) ∧
    ((∀ file, ¬V.Path (splitString path slash) file) → Missing splitString std device m path) := by
  have hcoherent := hm.coherent.1
  refine ⟨fun file hpath => ⟨found_of_path h hcoherent hpath, ?_⟩, missing_of_no_path h hcoherent⟩
  rintro imageLength hlimit hdevice fsOffset rfl
  exact readsFile_of_path h hcoherent hpath hlimit hdevice

theorem delivers_wholeDevice (imageLength : Nat) : wholeDevice.Delivers imageLength :=
  fun _ _ _ _ => rfl

theorem path_smallFile : smallVolume.Path (splitPath [47, 97] slash) smallFile := by
  have hparts : splitPath [47, 97] slash = [[97]] := by decide +kernel
  rw [hparts]
  exact ⟨_, List.mem_cons_self, rfl,
    .cons (List.mem_cons_of_mem _ List.mem_cons_self) rfl rfl (.nil _)⟩

-- It is read through a mount of what a scan of its volume left.
theorem mount_serves_smallVolume :
    let store := (scanBlocks {} ((smallVolume.format 7).map fun node =>
      { pos := 0, block := encodeNode node })).fileSystem
    let m : Mount := { fileSystem := store.reopen }
    ∃ buf, (m.sbb_read splitPath insertionSort wholeDevice [47, 97] (fun _ => 0) (fun _ => 0) 10 2).1 =
      some (4, buf) ∧ buf.slice 0 4 = [3, 3, 3, 3] := by
  intro store m
  have hstored : smallVolume.Stored store :=
    (recoverable_format smallVolume 7).stored (scannedNodes_map_encodeNode encodable_smallVolume)
  have hserves := mount_serves_volume splitPath insertionSort wholeDevice smallVolume store hstored m
    .start [47, 97]
  have hreads := (hserves.1 _ path_smallFile).2 (0xc805000 + 4096 * 4) (by decide)
    (delivers_wholeDevice _) 0xc805000 rfl
  obtain ⟨buf, hreply, hbytes⟩ := hreads [⟨0, 3, 4096⟩]
    ⟨List.Perm.refl _, by decide, by decide, by decide, by decide, by decide, by decide⟩ (by decide)
    (fun _ => 0) (fun _ => 0) 10 2 (by decide) (by decide)
  refine ⟨buf, hreply, hbytes.trans ?_⟩
  decide +kernel

end Mount

end SuperBadBlock
