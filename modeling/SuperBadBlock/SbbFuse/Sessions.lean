import SuperBadBlock.SbbFuse.Theorems

namespace SuperBadBlock

open FileSystem

-- Extents of distinct addresses have one order, so any two sorts of them agree.
theorem ExtentSort.sort_eq_of_perm (std : ExtentSort) {extents extents' : List EntryExtent}
    (hperm : extents'.Perm extents) (hdistinct : (extents.map EntryExtent.logicalAddress).Nodup) :
    std.sort extents' = std.sort extents := by
  have hall : (std.sort extents').Perm (std.sort extents) :=
    ((std.perm extents').trans hperm).trans (std.perm extents).symm
  refine hall.eq_of_pairwise (fun first second hfirst hsecond hle hge => ?_) (std.ascending extents')
    (std.ascending extents)
  have hmem : first ∈ extents := hperm.mem_iff.mp ((std.perm extents').mem_iff.mp hfirst)
  exact List.inj_on_of_nodup_map hdistinct hmem ((std.perm extents).mem_iff.mp hsecond)
    (Nat.le_antisymm hle hge)

namespace FileSystem

-- A read looks at the length of its entry and at the sorted extents, and at nothing else of
-- the file system.
theorem val_read_congr (fs : FileSystem) (entry : EntryPtr) (device : Device) {fs' : FileSystem}
    {std : ExtentSort} {entry' : EntryPtr} (hlength : (fs'.heap entry').length = (fs.heap entry).length)
    (hsort : std.sort (fs'.heap entry').extents = std.sort (fs.heap entry).extents)
    (fileBuffer buffer : Memory) (offset : Int) (size : Nat) :
    (fs'.read std device fileBuffer entry' buffer offset size).val.1 =
      (fs.read std device fileBuffer entry buffer offset size).val.1 ∧
    (fs'.read std device fileBuffer entry' buffer offset size).val.2.1 =
      (fs.read std device fileBuffer entry buffer offset size).val.2.1 := by
  simp only [read, Traced.val_bind, heap_sorted, hlength, hsort]
  cases (readExtents device 0 (std.sort (fs.heap entry).extents) fileBuffer
      (fs.heap entry).length).val with
  | none => exact ⟨rfl, rfl⟩
  | some file =>
      simp only [Traced.val_ite, Traced.val_pure]
      split_ifs <;> exact ⟨rfl, rfl⟩

-- Whether the loop runs to its end is up to the answers of `pread`, not to the array.
theorem readExtents_eq_none_congr (device : Device) (k : Nat) (extents : List EntryExtent)
    (fileBuffer fileBuffer' : Memory) (remaining : Nat) :
    (readExtents device k extents fileBuffer remaining).val = none ↔
      (readExtents device k extents fileBuffer' remaining).val = none := by
  induction extents generalizing k fileBuffer fileBuffer' remaining with
  | nil => exact iff_of_false (Option.some_ne_none _) (Option.some_ne_none _)
  | cons extent extents ih =>
      rw [val_readExtents_cons, val_readExtents_cons]
      split_ifs
      · exact Iff.rfl
      · exact ih _ _ _ _

-- What `read` returns does not depend on what its array held.
theorem read_result_congr (fs : FileSystem) (std : ExtentSort) (device : Device) (entry : EntryPtr)
    (fileBuffer fileBuffer' buffer : Memory) (offset : Int) (size : Nat) :
    (fs.read std device fileBuffer entry buffer offset size).val.1 =
      (fs.read std device fileBuffer' entry buffer offset size).val.1 := by
  have hnone := readExtents_eq_none_congr device 0 (std.sort (fs.heap entry).extents) fileBuffer
    fileBuffer' (fs.heap entry).length
  cases hfile : (readExtents device 0 (std.sort (fs.heap entry).extents) fileBuffer
      (fs.heap entry).length).val with
  | none => rw [val_read_of_none buffer offset size hfile, val_read_of_none buffer offset size (hnone.mp hfile)]
  | some file =>
      cases hfile' : (readExtents device 0 (std.sort (fs.heap entry).extents) fileBuffer'
          (fs.heap entry).length).val with
      | none =>
          rw [hnone.mpr hfile'] at hfile
          cases hfile
      | some file' =>
          rw [read, read, Traced.val_bind, Traced.val_bind, heap_sorted, hfile, hfile']
          simp only [Traced.val_ite, Traced.val_pure]
          split_ifs <;> rfl

-- Where the extents leave no gap and every call is full, nothing of the array is handed out.
theorem read_blind_to_array {fs : FileSystem} {entry : EntryPtr} {layout : List EntryExtent}
    (h : (fs.heap entry).Laid layout) (std : ExtentSort) {device : Device}
    (hfull : ∀ fileBuffer,
      (readExtents device 0 layout fileBuffer (fs.heap entry).length).Within Pread.Full)
    (fileBuffer fileBuffer' buffer : Memory) {offset size : Nat} (hoffset : offset < 2 ^ 63)
    (hsize : size < 2 ^ 63) :
    (fs.read std device fileBuffer entry buffer offset size).val =
      (fs.read std device fileBuffer' entry buffer offset size).val := by
  have hfile (fileBuffer : Memory) : ∃ file,
      (readExtents device 0 (std.sort (fs.heap entry).extents) fileBuffer (fs.heap entry).length).val =
        some file ∧ file.slice 0 (fs.heap entry).length =
          (layout.flatMap (EntryExtent.data device.bytes)).take (fs.heap entry).length := by
    rw [h.sort_eq std]
    obtain ⟨-, file, hfile, hslice, -⟩ := readExtents_spec (fs.heap entry).length h.uint64 layout 0 0
      fileBuffer h.tiles (by simpa using h.covers) h.lengths h.starts h.offsets (hfull fileBuffer)
    exact ⟨file, hfile, hslice⟩
  obtain ⟨file, hval, hslice⟩ := hfile fileBuffer
  obtain ⟨file', hval', hslice'⟩ := hfile fileBuffer'
  have hsame : ∀ i < (fs.heap entry).length, file (0 + i) = file' (0 + i) := fun i hi =>
    List.map_inj_left.mp (hslice.trans hslice'.symm) i (List.mem_range.mpr hi)
  rw [val_read buffer hoffset hsize h.uint64 hval, val_read buffer hoffset hsize h.uint64 hval']
  refine Prod.ext rfl (Prod.ext ?_ rfl)
  funext o
  simp only [Memory.copy]
  split_ifs with hin
  · have hend : (offset : Int) + o < (fs.heap entry).length := by
      rw [readCount] at hin
      split_ifs at hin <;> omega
    have hplace : (0 : Int) + ((offset : Int) + (o - 0)).toNat = (offset : Int) + (o - 0) := by omega
    rw [← hplace]
    exact hsame _ (by omega)
  · rfl

variable {store fs fs' : FileSystem}

-- What a query by name returns is made from its row, whatever the cache holds.
theorem Serves.findByName_loaded (h : Serves store fs) {inode : Nat} {name : List UInt8} {q : EntryPtr}
    (hcall : fs.findByName inode name = (some q, fs')) :
    ∃ row ∈ store.entry, fs'.heap q = loaded store.extent row := by
  rw [FileSystem.findByName, h.entry] at hcall
  cases hf : store.entry.find? fun row => decide (row.parent_inode = inode ∧ row.name = name) with
  | none =>
      rw [hf] at hcall
      cases hcall
  | some row =>
      rw [hf] at hcall
      cases hcall
      refine ⟨row, List.mem_of_find?_eq_some hf, ?_⟩
      rw [← h.extent]
      exact (h.getEntryFromQuery row).2

theorem Serves.findParts_loaded (h : Serves store fs) {p q : EntryPtr} {parts : List (List UInt8)}
    (hne : parts ≠ []) (hcall : fs.findParts p parts = (some q, fs')) :
    ∃ row ∈ store.entry, fs'.heap q = loaded store.extent row := by
  induction parts generalizing fs p with
  | nil => exact absurd rfl hne
  | cons part parts ih =>
      rw [FileSystem.findParts] at hcall
      have hserves := (h.findByName (fs.heap p).inode part).1
      rcases hname : fs.findByName (fs.heap p).inode part with ⟨_ | next, after⟩
      · rw [hname] at hcall
        cases hcall
      · rw [hname] at hcall hserves
        cases parts with
        | nil =>
            cases hcall
            exact h.findByName_loaded hname
        | cons part' parts => exact ih hserves (List.cons_ne_nil _ _) hcall

theorem Coherent.findByPath_loaded (h : Coherent store fs)
    {splitString : List UInt8 → UInt8 → List (List UInt8)} {path : List UInt8} {q : EntryPtr}
    (hparts : splitString path slash ≠ [])
    (hfound : (fs.findByPath splitString path).1 = some (some q)) :
    ∃ row ∈ store.entry, (fs.findByPath splitString path).2.heap q = loaded store.extent row := by
  rcases h.findByInode 2 with ⟨p, _, hp, -, -, hcoherent, -⟩ | ⟨-, hnone⟩
  · rcases hcall : fs.findByInode 2 with ⟨_, after⟩
    rw [hcall] at hp hcoherent
    obtain rfl := hp
    rw [findByPath_of_root splitString hcall] at hfound ⊢
    exact hcoherent.toServes.findParts_loaded hparts (Prod.ext (Option.some.inj hfound) rfl)
  · rw [FileSystem.findByPath, hnone] at hfound
    dsimp only at hfound
    split_ifs at hfound
    cases hfound

end FileSystem

namespace Mount

-- What goes back to the kernel.
inductive Reply where
  | getattr (result : Int) (stbuf : Stat)
  | readdir (result : Int) (names : List (List UInt8))
  | «open» (result : Int)
  | read (result : Int) (buf : Memory)

def Reply.result : Reply → Int
  | getattr result _ => result
  | readdir result _ => result
  | «open» result => result
  | read result _ => result

variable (splitString : List UInt8 → UInt8 → List (List UInt8))

-- The entry of `sbb_oper` for a request, with all that it hands back.
def reply (std : ExtentSort) (device : Device) (m : Mount) : Request → Option Reply × Mount
  | .getattr path stbuf =>
      let (answer, m) := m.sbb_getattr splitString path stbuf
      (answer.map fun answer => .getattr answer.1 answer.2, m)
  | .readdir path =>
      let (answer, m) := m.sbb_readdir splitString path
      (answer.map fun answer => .readdir answer.1 answer.2, m)
  | .«open» path flags =>
      let (answer, m) := m.sbb_open splitString path flags
      (answer.map .«open», m)
  | .read path fileBuffer buf size offset =>
      let (answer, m) := m.sbb_read splitString std device path fileBuffer buf size offset
      (answer.map fun answer => .read answer.1 answer.2, m)

-- The request, with other bytes in the array that `read` allocates.
def Request.withArray (fileBuffer : Memory) : Request → Request
  | read path _ buf size offset => .read path fileBuffer buf size offset
  | request => request

-- `off_t` and the caller's buffer hold what is asked for.
def Request.InRange : Request → Prop
  | read _ _ _ size offset => size < 2 ^ 63 ∧ 0 ≤ offset ∧ offset < 2 ^ 63
  | _ => True

end Mount

-- The mount without its cache, its objects and its mutex: every reply is made from the
-- tables and the image alone.
namespace TableServer

variable (splitString : List UInt8 → UInt8 → List (List UInt8)) (std : ExtentSort)
  (device : Device) (store : FileSystem)

-- The row that the parts lead to; the outer `none` is the null pointer that is followed
-- where there is no root.
def lookup (parts : List (List UInt8)) : Option (Option EntryRow) :=
  match store.entry.find? fun row => row.inode = 2 with
  | some root => some (descend store.entry root parts)
  | none => if parts = [] then some none else none

def getattr (stbuf : Stat) (row : EntryRow) : Int × Stat :=
  (0, if row.type = DT_REG then
      { stbuf with st_mode := S_IFREG ||| 0o444, st_nlink := 1, st_size := row.length }
    else if row.type = DT_DIR then { stbuf with st_mode := S_IFDIR ||| 0o755, st_nlink := 2 }
    else stbuf)

def readdir (row : EntryRow) : Int × List (List UInt8) :=
  (0, [dot] :: [dot, dot] ::
    (store.entry.filter fun child => child.parent_inode = row.inode).map EntryRow.name)

def «open» (flags : Nat) (_ : EntryRow) : Int := if flags &&& O_ACCMODE ≠ O_RDONLY then -EACCES else 0

def read (fileBuffer buf : Memory) (size : Nat) (offset : Int) (row : EntryRow) : Int × Memory :=
  let fs : FileSystem := { heap := fun _ => loaded store.extent row }
  let (n, buf, _) := (fs.read std device fileBuffer 0 buf offset size).val
  (toInt n, buf)

-- The extents of the row leave no gap, and what they ask for is delivered.
def Whole (row : EntryRow) : Prop :=
  ∃ layout, (loaded store.extent row).Laid layout ∧
    ∀ fileBuffer, (readExtents device 0 layout fileBuffer row.length).Within Pread.Full

def reply : Mount.Request → Option Mount.Reply
  | .getattr path stbuf => (lookup store (splitString path slash)).map fun found =>
      let answer := found.elim (-ENOENT, stbuf) (getattr stbuf)
      .getattr answer.1 answer.2
  | .readdir path => (lookup store (splitString path slash)).map fun found =>
      let answer := found.elim (-ENOENT, []) (readdir store)
      .readdir answer.1 answer.2
  | .«open» path flags => (lookup store (splitString path slash)).map fun found =>
      .«open» (found.elim (-ENOENT) («open» flags))
  | .read path fileBuffer buf size offset => (lookup store (splitString path slash)).map fun found =>
      let answer := found.elim (-ENOENT, buf) (read std device store fileBuffer buf size offset)
      .read answer.1 answer.2

section Arrays

variable {std device store}

theorem read_fst_congr (fileBuffer fileBuffer' buf : Memory) (size : Nat) (offset : Int) (row : EntryRow) :
    (read std device store fileBuffer buf size offset row).1 =
      (read std device store fileBuffer' buf size offset row).1 :=
  congrArg toInt (read_result_congr { heap := fun _ => loaded store.extent row } std device 0 fileBuffer
    fileBuffer' buf offset size)

theorem read_of_whole {row : EntryRow} (h : Whole device store row) (fileBuffer fileBuffer' buf : Memory)
    {size : Nat} {offset : Int} (hsize : size < 2 ^ 63) (hoffset : 0 ≤ offset ∧ offset < 2 ^ 63) :
    read std device store fileBuffer buf size offset row =
      read std device store fileBuffer' buf size offset row := by
  obtain ⟨layout, hlaid, hfull⟩ := h
  obtain ⟨n, rfl⟩ := Int.eq_ofNat_of_zero_le hoffset.1
  let fs : FileSystem := { heap := fun _ => loaded store.extent row }
  have hentry : (fs.heap 0).Laid layout := hlaid
  have hval := read_blind_to_array hentry std hfull fileBuffer fileBuffer' buf
    (show n < 2 ^ 63 by omega) hsize
  simp only [read]
  exact congrArg (fun val => (toInt val.1, val.2.1)) hval

-- The array never shows in a result, and in nothing else for a file that is whole.
theorem result_withArray (request : Mount.Request) (fileBuffer : Memory) :
    (reply splitString std device store (request.withArray fileBuffer)).map Mount.Reply.result =
      (reply splitString std device store request).map Mount.Reply.result := by
  cases request with
  | read path fileBuffer' buf size offset =>
      simp only [reply, Mount.Request.withArray, Option.map_map]
      refine congrArg (fun f => Option.map f _) (funext fun found => ?_)
      cases found with
      | none => rfl
      | some row => exact read_fst_congr fileBuffer fileBuffer' buf size offset row
  | _ => rfl

theorem reply_withArray (request : Mount.Request) (fileBuffer : Memory) (hrange : request.InRange)
    (hwhole : ∀ row, lookup store (splitString request.path slash) = some (some row) →
      Whole device store row) :
    reply splitString std device store (request.withArray fileBuffer) =
      reply splitString std device store request := by
  cases request with
  | read path fileBuffer' buf size offset =>
      simp only [reply, Mount.Request.withArray]
      rw [Mount.Request.path] at hwhole
      cases hlookup : lookup store (splitString path slash) with
      | none => rfl
      | some found =>
          cases found with
          | none => rfl
          | some row =>
              simp only [Option.map_some, Option.elim_some]
              rw [read_of_whole (hwhole row hlookup) fileBuffer fileBuffer' buf hrange.1 hrange.2]
  | _ => rfl

end Arrays

end TableServer

namespace Mount

variable {splitString : List UInt8 → UInt8 → List (List UInt8)} {std : ExtentSort} {device : Device}
  {store : FileSystem} {m : Mount}

-- An object that shows a row: it is made from the row, or it is the cached root, whose
-- extents an earlier read may have sorted.
def Shows (store : FileSystem) (e : Entry) (row : EntryRow) : Prop :=
  SameFile (loaded store.extent row) e ∧ (e = loaded store.extent row ∨ row.inode = 2)

-- Every lookup of a mount is one in the tables.
theorem findByPath_shows (h : Coherent store m.fileSystem)
    (hunique : (store.entry.map EntryRow.inode).Nodup) (path : List UInt8) :
    Option.Rel (Option.Rel fun q row => Shows store ((m.findByPath splitString path).2.fileSystem.heap q) row)
      (m.findByPath splitString path).1 (TableServer.lookup store (splitString path slash)) := by
  rw [findByPath_eq, TableServer.lookup]
  cases hroot : store.entry.find? fun row => decide (row.inode = 2) with
  | none =>
      have hmissing : 2 ∉ store.entry.map EntryRow.inode := by
        intro hm
        obtain ⟨row, hrow, hinode⟩ := List.mem_map.mp hm
        exact List.find?_eq_none.mp hroot row hrow (decide_eq_true hinode)
      rcases h.findByInode 2 with ⟨_, row, -, hrow, hinode, -⟩ | ⟨-, hnone⟩
      · exact absurd (List.mem_map.mpr ⟨row, hrow, hinode⟩) hmissing
      · rw [FileSystem.findByPath, hnone]
        dsimp only
        split_ifs with hparts
        · exact .some .none
        · exact .none
  | some root =>
      have hrow := List.mem_of_find?_eq_some hroot
      have hinode : root.inode = 2 := of_decide_eq_true
        (List.find?_some (p := fun row : EntryRow => decide (row.inode = 2)) hroot)
      obtain ⟨-, found, hfound, hrel⟩ := h.findByPath splitString hunique hrow hinode path
      rw [hfound]
      refine .some ?_
      cases hlast : descend store.entry root (splitString path slash) with
      | none =>
          rw [hlast] at hrel
          cases hrel
          exact .none
      | some last =>
          rw [hlast] at hrel
          cases hrel with
          | @some q _ hsame =>
              refine .some ⟨hsame, ?_⟩
              by_cases hparts : splitString path slash = []
              · rw [hparts] at hlast
                obtain rfl := Option.some.inj hlast
                exact Or.inr hinode
              · -- behind the root every object is a new one
                left
                obtain ⟨row, hm, hheap⟩ := h.findByPath_loaded hparts hfound
                have hinodes : row.inode = last.inode :=
                  (congrArg Entry.inode hheap).symm.trans hsame.inode
                rw [hheap, List.inj_on_of_nodup_map hunique hm (NamedTree.mem_of_descend hrow hlast) hinodes]

-- A callback is the handler of its entry, applied to the row that the tables lead to.
theorem callback_eq_lookup {α : Type} (h : Coherent store m.fileSystem)
    (hunique : (store.entry.map EntryRow.inode).Nodup) (path : List UInt8) (notFound : α)
    {found : Mount → EntryPtr → α × Mount} {answer : EntryRow → α}
    (hfound : ∀ m entry row, Coherent store m.fileSystem → Shows store (m.fileSystem.heap entry) row →
      (found m entry).1 = answer row) :
    (m.callback splitString path notFound found).1 =
      (TableServer.lookup store (splitString path slash)).map fun row => row.elim notFound answer := by
  have hlookup : Option.Rel (Option.Rel fun q row =>
        Shows store ((m.findByPath splitString path).2.fileSystem.heap q) row)
      (m.findByPath splitString path).1 (TableServer.lookup store (splitString path slash)) :=
    findByPath_shows h hunique path
  have hkeeps : Coherent store (m.findByPath splitString path).2.fileSystem := by
    rw [findByPath_eq]
    exact h.findByPath_keeps splitString path
  rw [callback]
  generalize TableServer.lookup store (splitString path slash) = row at hlookup
  rcases hcall : m.findByPath splitString path with ⟨result, m'⟩
  rw [hcall] at hlookup hkeeps
  cases hlookup with
  | none => rfl
  | some hrow =>
      cases hrow with
      | none => rfl
      | some hshows => exact congrArg some (hfound m' _ _ hkeeps hshows)

section Callbacks

variable (h : Coherent store m.fileSystem) (hunique : (store.entry.map EntryRow.inode).Nodup)
  (path : List UInt8)

include h hunique

theorem sbb_getattr_eq (stbuf : Stat) : (m.sbb_getattr splitString path stbuf).1 =
    (TableServer.lookup store (splitString path slash)).map fun row =>
      row.elim (-ENOENT, stbuf) (TableServer.getattr stbuf) := by
  refine callback_eq_lookup h hunique path _ fun m entry row _ hshows => ?_
  obtain ⟨hsame, -⟩ := hshows
  simp only [TableServer.getattr, hsame.type, hsame.length]
  rfl

theorem sbb_readdir_eq : (m.sbb_readdir splitString path).1 =
    (TableServer.lookup store (splitString path slash)).map fun row =>
      row.elim (-ENOENT, []) (TableServer.readdir store) := by
  refine callback_eq_lookup h hunique path _ fun m entry row hm hshows => ?_
  have hinode : (m.fileSystem.heap entry).inode = row.inode := hshows.1.inode
  have hchildren := congrArg (List.map Entry.name) (hm.toServes.findByParentInode row.inode).2
  simp only [List.map_map] at hchildren
  simp only [TableServer.readdir, hinode]
  exact congrArg (fun names => ((0 : Int), [dot] :: [dot, dot] :: names)) hchildren

theorem sbb_open_eq (flags : Nat) : (m.sbb_open splitString path flags).1 =
    (TableServer.lookup store (splitString path slash)).map fun row =>
      row.elim (-ENOENT) (TableServer.«open» flags) := by
  refine callback_eq_lookup h hunique path _ fun m entry row _ _ => ?_
  rw [TableServer.«open»]
  split_ifs <;> rfl

theorem sbb_read_eq (std : ExtentSort) (device : Device)
    (hroot : ((store.extent.filter fun row => row.inode = 2).map ExtentRow.logical_address).Nodup)
    (fileBuffer buf : Memory) (size : Nat) (offset : Int) :
    (m.sbb_read splitString std device path fileBuffer buf size offset).1 =
    (TableServer.lookup store (splitString path slash)).map fun row =>
      row.elim (-ENOENT, buf) (TableServer.read std device store fileBuffer buf size offset) := by
  refine callback_eq_lookup h hunique path _ fun m entry row _ hshows => ?_
  obtain ⟨hsame, hexact⟩ := hshows
  have hsort : std.sort (m.fileSystem.heap entry).extents = std.sort (loaded store.extent row).extents := by
    rcases hexact with heq | hinode
    · rw [heq]
    · refine std.sort_eq_of_perm hsame.extents ?_
      have hrows : (loaded store.extent row).extents.map EntryExtent.logicalAddress =
          (store.extent.filter fun r => r.inode = 2).map ExtentRow.logical_address := by
        rw [loaded, List.map_map, hinode]
        rfl
      exact hrows ▸ hroot
  obtain ⟨hn, hbuf⟩ := val_read_congr { heap := fun _ => loaded store.extent row } 0 device
    hsame.length hsort fileBuffer buf offset size
  simp only [TableServer.read]
  exact Prod.ext (congrArg toInt hn) hbuf

end Callbacks

theorem reply_eq_tables (h : Coherent store m.fileSystem)
    (hunique : (store.entry.map EntryRow.inode).Nodup)
    (hroot : ((store.extent.filter fun row => row.inode = 2).map ExtentRow.logical_address).Nodup)
    (request : Request) : (m.reply splitString std device request).1 =
      TableServer.reply splitString std device store request := by
  cases request with
  | getattr path stbuf =>
      simp only [reply, TableServer.reply, sbb_getattr_eq h hunique, Option.map_map]
      rfl
  | readdir path =>
      simp only [reply, TableServer.reply, sbb_readdir_eq h hunique, Option.map_map]
      rfl
  | «open» path flags =>
      simp only [reply, TableServer.reply, sbb_open_eq h hunique, Option.map_map]
      rfl
  | read path fileBuffer buf size offset =>
      simp only [reply, TableServer.reply, sbb_read_eq h hunique path std device hroot, Option.map_map]
      rfl

-- Over tables with one row for each inode, a mount answers every request as the tables do,
-- in every state it gets to, and never changes them: what was asked before is of no account.
-- The tables may even be read into another array, as far as results go, and altogether where
-- the file is whole.
theorem replies_from_tables (splitString : List UInt8 → UInt8 → List (List UInt8)) (std : ExtentSort)
    (device : Device) (store : FileSystem) (hunique : (store.entry.map EntryRow.inode).Nodup)
    (hroot : ((store.extent.filter fun row => row.inode = 2).map ExtentRow.logical_address).Nodup)
    (m : Mount) (hm : Mounted splitString std device store m) (request : Request)
    (fileBuffer : Memory) :
    let reply := (m.reply splitString std device request).1
    let server := TableServer.reply splitString std device store
    reply = server request ∧
    reply.map Reply.result = (server (request.withArray fileBuffer)).map Reply.result ∧
    (request.InRange →
      (∀ row, TableServer.lookup store (splitString request.path slash) = some (some row) →
        TableServer.Whole device store row) → reply = server (request.withArray fileBuffer)) ∧
    m.fileSystem.entry = store.entry ∧ m.fileSystem.extent = store.extent := by
  intro reply server
  obtain ⟨hcoherent, -⟩ := hm.coherent
  have hreply : reply = server request := reply_eq_tables hcoherent hunique hroot request
  refine ⟨hreply, ?_, fun hrange hwhole => ?_, hcoherent.entry, hcoherent.extent⟩
  · rw [hreply]
    exact (TableServer.result_withArray splitString request fileBuffer).symm
  · rw [hreply]
    exact (TableServer.reply_withArray splitString request fileBuffer hrange hwhole).symm

-- The attributes of a file, asked for after the root was listed, and some of its bytes, read
-- into two arrays.
theorem replies_from_treeStore :
    let m : Mount := { fileSystem := treeStore.reopen }
    let m' := (m.answer splitPath insertionSort wholeDevice (.readdir [47])).2
    (m'.reply splitPath insertionSort wholeDevice (.getattr [97, 47, 98] {})).1 =
      some (.getattr 0 { st_mode := 0x8124, st_nlink := 1, st_size := 4096 }) ∧
    (m'.reply splitPath insertionSort wholeDevice (.read [97, 47, 98] (fun _ => 0xff) (fun _ => 0) 4 10)).1 =
      TableServer.reply splitPath insertionSort wholeDevice treeStore
        (.read [97, 47, 98] (fun _ => 0) (fun _ => 0) 4 10) := by
  intro m m'
  have hfirst : m.answer splitPath insertionSort wholeDevice (.readdir [47]) = (some 0, m') :=
    Prod.ext (by decide +kernel) rfl
  have hm : Mounted splitPath insertionSort wholeDevice treeStore m' := .step .start hfirst
  have hparts : splitPath [97, 47, 98] slash = [[97], [98]] := by decide +kernel
  have hreplies (request : Request) := replies_from_tables splitPath insertionSort wholeDevice treeStore
    (by decide) (by decide) m' hm request fun _ => 0
  constructor
  · rw [(hreplies (.getattr [97, 47, 98] {})).1, TableServer.reply, hparts]
    rfl
  · refine (hreplies (.read [97, 47, 98] (fun _ => 0xff) (fun _ => 0) 4 10)).2.2.1
      ⟨by decide, by decide, by decide⟩ fun row hrow => ?_
    rw [Request.path, hparts] at hrow
    obtain rfl : treeFile = row := Option.some.inj (Option.some.inj hrow)
    refine ⟨[⟨0, 40, 4096⟩],
      ⟨List.Perm.refl _, by decide, by decide, by decide, by decide, by decide, by decide⟩,
      fun fileBuffer => ?_⟩
    exact full_readExtents_wholeDevice _ _ _ _

end Mount

end SuperBadBlock
