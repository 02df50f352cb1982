import SuperBadBlock.ApfsScanner.Image
import SuperBadBlock.Lib.Reordering

namespace SuperBadBlock

open Grouping Reordering

-- What `scanPair` does with a record in a node with this `o_xid`, in any state.
def Record.scan (xid : Nat) (state : Option EntryPtr × FileSystem) :
    Record → Option EntryPtr × FileSystem
  | inode id parentId length =>
      let (fileEntry, fs) := state.2.findOrNew id
      let fs := if (fs.heap fileEntry).versionId ≤ xid then
          fs.modify fileEntry fun e => { e with
            parentId := parentId, versionId := xid, length := length.getD e.length }
        else fs
      (some fileEntry, fs.updateEntry fileEntry)
  | fileExtent _ extent =>
      match state with
      | (none, fs) => (none, fs)
      | (some fileEntry, fs) =>
          if (fs.heap fileEntry).extentVersionId ≤ xid then
            let fs := if (fs.heap fileEntry).extentVersionId < xid then
                fs.modify fileEntry fun e => { e with
                  extents := [], extentsUpdated := true, extentVersionId := xid }
              else fs
            let fs := fs.modify fileEntry fun e => { e with
              extents := e.extents ++ [extent], extentsUpdated := true }
            (some fileEntry, fs.updateEntry fileEntry)
          else (some fileEntry, fs)
  | dirRec _ fileId name type =>
      let (childEntry, fs) := state.2.findOrNew fileId
      let fs := if (fs.heap childEntry).versionId ≤ xid then
          let fs := match state.1 with
            | some dir => fs.modify childEntry fun e => { e with parentId := (fs.heap dir).inode }
            | none => fs
          fs.modify childEntry fun e => { e with name := name, versionId := xid, type := type }
        else fs
      (state.1, fs.updateEntry childEntry)
  | other _ => state

-- A group from its first record to the write-back at its end.
def scanRecords (xid : Nat) (fs : FileSystem) (records : List Record) : FileSystem :=
  match records.foldl (Record.scan xid) (none, fs) with
  | (some fileEntry, fs) => fs.updateEntry fileEntry
  | (none, fs) => fs

-- `m_objId2inode` after a record.
def Record.note (objId2inode : Nat → Option Nat) : Record → Nat → Option Nat
  | dirRec id fileId _ _ => insertNew objId2inode id fileId
  | _ => objId2inode

def Node.scan (node : Node) (scanner : APFSScanner) : APFSScanner :=
  { scanner with
    objId2inode := node.records.foldl Record.note scanner.objId2inode
    fileSystem := node.groups.foldl (fun fs entry => scanRecords node.xid fs entry.2)
      scanner.fileSystem }

section Refinement

variable (block : Memory)

theorem val_scanInode (pair : KeyValuePair) (id : Nat) (fileEntry : Option EntryPtr) (fs : FileSystem) :
    (some (scanInode block pair id fs).val.1, (scanInode block pair id fs).val.2) =
      (Record.inode id (block.parent_id pair.value).val (inodeLength block pair).val).scan
        (block.o_xid 0).val (fileEntry, fs) := by
  simp only [scanInode, Record.scan, Traced.val_bind, Traced.val_ite, Traced.val_pure]
  split_ifs <;> rfl

theorem val_scanFileExtent (id : Nat) (fileEntry : Option EntryPtr) (jKey valPtr : Int)
    (fs : FileSystem) :
    (fileEntry, (scanFileExtent block fileEntry jKey valPtr fs).val) =
      (Record.fileExtent id {
        logicalAddress := (block.logical_addr jKey).val
        physicalBlock := (block.phys_block_num valPtr).val
        length := (block.len_and_flags valPtr).val &&& J_FILE_EXTENT_LEN_MASK }).scan
        (block.o_xid 0).val (fileEntry, fs) := by
  cases fileEntry with
  | none => rfl
  | some fileEntry =>
      simp only [scanFileExtent, Record.scan, Traced.val_bind, Traced.val_ite, Traced.val_pure]
      split_ifs <;> rfl

theorem val_scanDirRec (id : Nat) (fileEntry : Option EntryPtr) (jKey valPtr : Int)
    (fs : FileSystem) :
    (fileEntry, (scanDirRec block fileEntry jKey valPtr fs).val) =
      (Record.dirRec id (block.file_id valPtr).val (block.drec_name jKey).val
        ((block.drec_flags valPtr).val &&& DREC_TYPE_MASK)).scan
        (block.o_xid 0).val (fileEntry, fs) := by
  simp only [scanDirRec, Record.scan, Traced.val_bind, Traced.val_ite, Traced.val_pure]
  split_ifs <;> rfl

theorem val_scanPair (state : Option EntryPtr × FileSystem) (pair : KeyValuePair) :
    (scanPair block state pair).val = (decode block pair).scan (block.o_xid 0).val state := by
  obtain ⟨fileEntry, fs⟩ := state
  unfold scanPair decode
  simp only [Traced.val_bind, Traced.val_ite, Traced.val_pure]
  generalize (block.obj_id_and_type pair.key).val >>> OBJ_TYPE_SHIFT = type
  by_cases hinode : type = APFS_TYPE_INODE
  · subst hinode
    exact val_scanInode block pair _ fileEntry fs
  by_cases hextent : type = APFS_TYPE_FILE_EXTENT
  · subst hextent
    exact val_scanFileExtent block _ fileEntry pair.key pair.value fs
  by_cases hdir : type = APFS_TYPE_DIR_REC
  · subst hdir
    exact val_scanDirRec block _ fileEntry pair.key pair.value fs
  · simp only [hinode, hextent, hdir, ite_false, ite_self, Record.scan]

theorem val_scanGroup (fs : FileSystem) (pairs : List KeyValuePair) :
    (scanGroup block fs pairs).val =
      scanRecords (block.o_xid 0).val fs (pairs.map (decode block)) := by
  have hpairs : (pairs.foldlM (scanPair block) (none, fs)).val =
      (pairs.map (decode block)).foldl (Record.scan (block.o_xid 0).val) (none, fs) := by
    simp only [Traced.val_foldlM, val_scanPair, List.foldl_map]
  simp only [scanGroup, scanRecords, Traced.val_bind, hpairs]
  rcases (pairs.map (decode block)).foldl (Record.scan (block.o_xid 0).val) (none, fs) with
    ⟨_ | p, fs⟩
  · rfl
  · rfl

theorem objId2inode_groupEntries (keyBasePtr valBasePtr : Int) (tableOfContents : List KvLoc)
    (objId2inode : Nat → Option Nat) (entries : List (Nat × List KeyValuePair)) :
    (tableOfContents.foldlM (groupEntry block keyBasePtr valBasePtr) (objId2inode, entries)).val.1 =
      ((tableOfContents.map (pairOf keyBasePtr valBasePtr)).map (decode block)).foldl Record.note
        objId2inode := by
  induction tableOfContents generalizing objId2inode entries with
  | nil => rfl
  | cons toc tableOfContents ih =>
      have hstep : (groupEntry block keyBasePtr valBasePtr (objId2inode, entries) toc).val.1 =
          (decode block (pairOf keyBasePtr valBasePtr toc)).note objId2inode := by
        have hne :
            APFS_TYPE_DIR_REC ≠ APFS_TYPE_INODE ∧ APFS_TYPE_DIR_REC ≠ APFS_TYPE_FILE_EXTENT := by
          decide
        simp only [groupEntry, decode, pairOf, Traced.val_bind, Traced.val_pure, Traced.val_ite]
        by_cases hdir : (block.obj_id_and_type (keyBasePtr + toc.kOff)).val >>> OBJ_TYPE_SHIFT =
            APFS_TYPE_DIR_REC
        · simp only [hdir, hne.1, hne.2, ite_true, ite_false, Record.note]
        · simp only [hdir, ite_false]
          split_ifs <;> rfl
      rw [List.foldlM_cons, Traced.val_bind, List.map_cons, List.map_cons, List.foldl_cons, ← hstep]
      exact ih _ _

-- What a node does, from any state, is said by its `o_xid` and its records.
theorem val_scanBTreeBlock_eq (scanner : APFSScanner) :
    (scanBTreeBlock block scanner).val = (nodeOf block scanner.currentBlockSize).scan scanner := by
  have hobjId2inode : (scanBTreeBlock block scanner).val.objId2inode =
      (nodeOf block scanner.currentBlockSize).records.foldl Record.note scanner.objId2inode :=
    objId2inode_groupEntries block _ _ _ scanner.objId2inode []
  have hfileSystem : (scanBTreeBlock block scanner).val.fileSystem =
      (nodeOf block scanner.currentBlockSize).groups.foldl
        (fun fs entry => scanRecords (block.o_xid 0).val fs entry.2) scanner.fileSystem := by
    have hgroups (groups : List (Nat × List KeyValuePair)) (fs : FileSystem) :
        (groups.foldlM (fun fs entry => scanGroup block fs entry.2) fs).val =
          (mapValues (decode block) groups).foldl
            (fun fs entry => scanRecords (block.o_xid 0).val fs entry.2) fs := by
      rw [mapValues, List.foldl_map, Traced.val_foldlM]
      simp only [val_scanGroup]
    rw [val_scanBTreeBlock, Node.groups, nodeOf, group_map]
    exact hgroups _ _
  have hfields (result : APFSScanner) (hmap : result.objId2inode =
        (nodeOf block scanner.currentBlockSize).records.foldl Record.note scanner.objId2inode)
      (hfs : result.fileSystem = (nodeOf block scanner.currentBlockSize).groups.foldl
        (fun fs entry => scanRecords (block.o_xid 0).val fs entry.2) scanner.fileSystem)
      (hsize : result.currentBlockSize = scanner.currentBlockSize)
      (hoffset : result.fsOffset = scanner.fsOffset) :
      result = (nodeOf block scanner.currentBlockSize).scan scanner := by
    cases result
    cases hmap
    cases hfs
    cases hsize
    cases hoffset
    rfl
  exact hfields _ hobjId2inode hfileSystem rfl rfl

end Refinement

theorem Record.note_of_ne {record : Record} {i : Nat} (h : record.id ≠ i)
    (objId2inode : Nat → Option Nat) : record.note objId2inode i = objId2inode i := by
  cases record with
  | dirRec id fileId name type =>
      exact (insertNew_apply objId2inode id fileId i).trans (if_neg (Ne.symm h))
  | _ => rfl

theorem Record.note_congr (record : Record) {i : Nat} {objId2inode objId2inode' : Nat → Option Nat}
    (h : objId2inode i = objId2inode' i) :
    record.note objId2inode i = record.note objId2inode' i := by
  by_cases hid : record.id = i
  · subst hid
    cases record with
    | dirRec id fileId name type =>
        change objId2inode id = objId2inode' id at h
        change insertNew objId2inode id fileId id = insertNew objId2inode' id fileId id
        rw [insertNew_apply, insertNew_apply, h]
    | _ => exact h
  · rw [Record.note_of_ne hid, Record.note_of_ne hid, h]

-- What `m_objId2inode` says about an object depends on the records of that object.
theorem foldl_note_filter (i : Nat) (records : List Record)
    {objId2inode objId2inode' : Nat → Option Nat} (h : objId2inode i = objId2inode' i) :
    records.foldl Record.note objId2inode i =
      (records.filter fun record => record.id = i).foldl Record.note objId2inode' i := by
  induction records generalizing objId2inode objId2inode' with
  | nil => exact h
  | cons record records ih =>
      by_cases hid : record.id = i
      · rw [List.filter_cons_of_pos (by simp [hid]), List.foldl_cons, List.foldl_cons]
        exact ih (record.note_congr h)
      · rw [List.filter_cons_of_neg (by simp [hid]), List.foldl_cons]
        exact ih ((Record.note_of_ne hid objId2inode).trans h)

-- The second list has the records of the first moved around, none of them past
-- another one with its id.
def Rearranged (records records' : List Record) : Prop :=
  ∃ place : Equiv.Perm (Fin records.length),
    (∀ j k, j < k → (records.get j).id = (records.get k).id → place j < place k) ∧
      records' = reorder records place

theorem Rearranged.filter {records records' : List Record} (h : Rearranged records records') (i : Nat) :
    (records'.filter fun record => record.id = i) = records.filter fun record => record.id = i := by
  obtain ⟨place, hplace, rfl⟩ := h
  refine filter_reorder records place _ fun j k hjk hj hk => hplace j k hjk ?_
  exact (of_decide_eq_true hj).trans (of_decide_eq_true hk).symm

theorem Node.scan_of_rearranged {node node' : Node} (hxid : node'.xid = node.xid)
    (h : Rearranged node.records node'.records) (scanner : APFSScanner) :
    node'.scan scanner = node.scan scanner := by
  have hgroups : node'.groups = node.groups := group_eq_of_filter h.filter
  have hnotes : node'.records.foldl Record.note scanner.objId2inode =
      node.records.foldl Record.note scanner.objId2inode := by
    funext i
    rw [foldl_note_filter i node'.records rfl, foldl_note_filter i node.records rfl, h.filter]
  rw [Node.scan, Node.scan, hgroups, hxid, hnotes]

-- The comparison that sorts the pairs of a node by object id.
def idLE (block : Memory) : KeyValuePair → KeyValuePair → Bool :=
  keyLE fun pair => (decode block pair).id

-- The map holds the pairs in the order of the stable sort by object id. A node has the effect
-- of its records in that order, each of them once, with the write-back where an id ends; so it
-- only matters how the records of one id follow each other.
theorem grouping_is_stable_sort (block : Memory) (scanner : APFSScanner) :
    let node := nodeOf block scanner.currentBlockSize
    (nodeEntries block scanner).flatMap Prod.snd =
      (nodePairs block scanner.currentBlockSize).mergeSort (idLE block) ∧
    (scanBTreeBlock block scanner).val.fileSystem =
      ((node.records.mergeSort (keyLE Record.id)).splitBy fun first second =>
        first.id = second.id).foldl (scanRecords node.xid) scanner.fileSystem ∧
    ∀ block' : Memory,
      (nodeOf block' scanner.currentBlockSize).xid = node.xid →
      Rearranged node.records (nodeOf block' scanner.currentBlockSize).records →
      (scanBTreeBlock block' scanner).val = (scanBTreeBlock block scanner).val := by
  intro node
  refine ⟨?_, ?_, fun block' hxid hrecords => ?_⟩
  · rw [nodeEntries_eq, flatMap_group]
    rfl
  · have hgroups : (scanBTreeBlock block scanner).val.fileSystem =
        node.groups.foldl (fun fs entry => scanRecords node.xid fs entry.2) scanner.fileSystem :=
      congrArg APFSScanner.fileSystem (val_scanBTreeBlock_eq block scanner)
    rw [hgroups, ← map_snd_group, List.foldl_map]
    rfl
  · rw [val_scanBTreeBlock_eq, val_scanBTreeBlock_eq, Node.scan_of_rearranged hxid hrecords]

-- Inode 6 is a directory with inode 5 in it.
def directoryFirst : Node where
  xid := 7
  flags := 2
  records := [.inode 6 2 none, .inode 5 6 (some 4096), .dirRec 6 5 [97] 8,
    .fileExtent 5 ⟨0, 40, 4096⟩]

def fileFirst : Node where
  xid := 7
  flags := 2
  records := [.inode 5 6 (some 4096), .inode 6 2 none, .dirRec 6 5 [97] 8,
    .fileExtent 5 ⟨0, 40, 4096⟩]

theorem rearranged_fileFirst : Rearranged directoryFirst.records fileFirst.records :=
  ⟨Equiv.swap ⟨0, by decide⟩ ⟨1, by decide⟩, by decide, by decide⟩

theorem grouping_is_stable_sort_of_fileFirst :
    (scanBTreeBlock (nodeImage fileFirst) {}).val =
      (scanBTreeBlock (nodeImage directoryFirst) {}).val := by
  have hdirectory : nodeOf (nodeImage directoryFirst) 4096 = directoryFirst := by decide +kernel
  have hfile : nodeOf (nodeImage fileFirst) 4096 = fileFirst := by decide +kernel
  have hrearranged := rearranged_fileFirst
  rw [← hdirectory, ← hfile] at hrearranged
  refine (grouping_is_stable_sort (nodeImage directoryFirst) {}).2.2 _ ?_ hrearranged
  change (nodeOf (nodeImage fileFirst) 4096).xid = (nodeOf (nodeImage directoryFirst) 4096).xid
  rw [hdirectory, hfile]
  rfl

end SuperBadBlock
