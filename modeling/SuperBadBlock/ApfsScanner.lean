import SuperBadBlock.Apfs
import SuperBadBlock.Checksum
import SuperBadBlock.FileSystem
import SuperBadBlock.Lib.Grouping

namespace SuperBadBlock

-- Pointers are byte offsets from the block pointer.
structure KeyValuePair where
  key : Int
  valueLength : Nat
  value : Int

-- The members of `APFSScanner`, with the `FileSystem` it writes to.
structure APFSScanner where
  objId2inode : Nat → Option Nat := fun _ => none
  currentBlockSize : Nat := 4096
  fsOffset : Nat := 0
  fileSystem : FileSystem := {}

-- The loop over the extended fields in `scanInode`: `num` fields are left,
-- `field` and `xdataptr` walk the headers and the data. `hasSize` and `length`
-- are one optional length.
def scanXFields (block : Memory) : Nat → Int → Int → Option Nat → Parse (Option Nat)
  | 0, _, _, length => pure length
  | num + 1, field, xdataptr, length => do
      let x_type ← block.x_type field
      let length ← if x_type = INO_EXT_TYPE_DSTREAM then do
          let size ← block.dstream_size xdataptr
          pure (some size)
        else pure length
      let x_size ← block.x_size field
      scanXFields block num (field + sizeof_x_field_t)
        (xdataptr + ((x_size + 7) &&& 0xFFFFFFF8 : Nat)) length

-- The size found in the extended fields of an inode value, if there is one.
def inodeLength (block : Memory) (pair : KeyValuePair) : Parse (Option Nat) := do
  let xfieldLength : Int := pair.valueLength - sizeof_j_inode_val_t
  if xfieldLength > sizeof_xf_blob_t then do
    let blob := pair.value + sizeof_j_inode_val_t
    let xf_num_exts ← block.xf_num_exts blob
    let xfields := blob + sizeof_xf_blob_t
    let xdataptr := blob + sizeof_xf_blob_t + xf_num_exts * sizeof_x_field_t
    scanXFields block xf_num_exts xfields xdataptr none
  else pure none

def scanInode (block : Memory) (pair : KeyValuePair) (valueId : Nat) (fs : FileSystem) :
    Parse (EntryPtr × FileSystem) := do
  let (fileEntry, fs) := fs.findOrNew valueId
  let length ← inodeLength block pair
  let o_xid ← block.o_xid 0
  let fs ← if (fs.heap fileEntry).versionId ≤ o_xid then do
      let parent_id ← block.parent_id pair.value
      pure (fs.modify fileEntry fun e => { e with
        parentId := parent_id, versionId := o_xid, length := length.getD e.length })
    else pure fs
  pure (fileEntry, fs.updateEntry fileEntry)

def scanFileExtent (block : Memory) (fileEntry : Option EntryPtr) (jKey valPtr : Int)
    (fs : FileSystem) : Parse FileSystem := do
  let _len ← block.len_and_flags valPtr
  match fileEntry with
  | none => pure fs
  | some fileEntry => do
      let o_xid ← block.o_xid 0
      if (fs.heap fileEntry).extentVersionId ≤ o_xid then do
        -- New extents!
        let fs := if (fs.heap fileEntry).extentVersionId < o_xid then
            fs.modify fileEntry fun e => { e with
              extents := [], extentsUpdated := true, extentVersionId := o_xid }
          else fs
        let logical_addr ← block.logical_addr jKey
        let phys_block_num ← block.phys_block_num valPtr
        let len_and_flags ← block.len_and_flags valPtr
        let extent : EntryExtent := {
          logicalAddress := logical_addr, physicalBlock := phys_block_num,
          length := len_and_flags &&& J_FILE_EXTENT_LEN_MASK }
        let fs := fs.modify fileEntry fun e => { e with
          extents := e.extents ++ [extent], extentsUpdated := true }
        pure (fs.updateEntry fileEntry)
      else pure fs

def scanDirRec (block : Memory) (fileEntry : Option EntryPtr) (jKey valPtr : Int)
    (fs : FileSystem) : Parse FileSystem := do
  let file_id ← block.file_id valPtr
  let (childEntry, fs) := fs.findOrNew file_id
  let o_xid ← block.o_xid 0
  let fs ← if (fs.heap childEntry).versionId ≤ o_xid then do
      let fs := match fileEntry with
        | some dir => fs.modify childEntry fun e => { e with parentId := (fs.heap dir).inode }
        | none => fs
      let name ← block.drec_name jKey
      let flags ← block.drec_flags valPtr
      pure (fs.modify childEntry fun e => { e with
        name := name, versionId := o_xid, type := flags &&& DREC_TYPE_MASK })
    else pure fs
  pure (fs.updateEntry childEntry)

-- The loops that fill `tableOfContents`, one for each entry layout.
def readKvoffs (block : Memory) (btreeInfo toc : Int) (btn_nkeys : Nat) : Parse (List KvLoc) :=
  (List.range btn_nkeys).foldlM (fun (tableOfContents : List KvLoc) (i : Nat) => do
    let k ← block.read (toc + i * sizeof_kvoff_t) 2
    let bt_key_size ← block.bt_key_size btreeInfo
    let v ← block.read (toc + i * sizeof_kvoff_t + 2) 2
    let bt_val_size ← block.bt_val_size btreeInfo
    pure (tableOfContents ++ [{
      kOff := k, kLen := bt_key_size % 2 ^ 16, vOff := v, vLen := bt_val_size % 2 ^ 16 }])) []

def readKvlocs (block : Memory) (toc : Int) (btn_nkeys : Nat) : Parse (List KvLoc) :=
  (List.range btn_nkeys).foldlM (fun (tableOfContents : List KvLoc) (i : Nat) => do
    let kOff ← block.read (toc + i * sizeof_kvloc_t) 2
    let kLen ← block.read (toc + i * sizeof_kvloc_t + 2) 2
    let vOff ← block.read (toc + i * sizeof_kvloc_t + 4) 2
    let vLen ← block.read (toc + i * sizeof_kvloc_t + 6) 2
    pure (tableOfContents ++ [{ kOff := kOff, kLen := kLen, vOff := vOff, vLen := vLen }])) []

-- The first half of `scanBTreeBlock`: where keys and values lie, and the
-- table of contents.
def readNode (block : Memory) (currentBlockSize : Nat) : Parse (Int × Int × List KvLoc) := do
  let btreeInfo : Int := currentBlockSize - sizeof_btree_info_t
  let off ← block.btn_table_space_off 0
  let len ← block.btn_table_space_len 0
  let keyBasePtr := sizeof_btree_node_phys_t + off + len
  let btn_flags ← block.btn_flags 0
  let valBasePtr : Int := if btn_flags &&& BTNODE_ROOT ≠ 0 then
      currentBlockSize - sizeof_btree_info_t
    else currentBlockSize
  let btn_nkeys ← block.btn_nkeys 0
  let toc := sizeof_btree_node_phys_t + off
  let tableOfContents ← if btn_flags &&& BTNODE_FIXED_KV_SIZE ≠ 0 then
      readKvoffs block btreeInfo toc btn_nkeys
    else readKvlocs block toc btn_nkeys
  pure (keyBasePtr, valBasePtr, tableOfContents)

-- One step of the loop that groups the values by their object id.
def groupEntry (block : Memory) (keyBasePtr valBasePtr : Int)
    (state : (Nat → Option Nat) × List (Nat × List KeyValuePair)) (toc : KvLoc) :
    Parse ((Nat → Option Nat) × List (Nat × List KeyValuePair)) := do
  let (objId2inode, entries) := state
  let keyPtr := keyBasePtr + toc.kOff
  let jValue := valBasePtr - toc.vOff
  let obj_id_and_type ← block.obj_id_and_type keyPtr
  let id := obj_id_and_type &&& OBJ_ID_MASK
  let entryType := obj_id_and_type >>> OBJ_TYPE_SHIFT
  let objId2inode ← if entryType = APFS_TYPE_DIR_REC then do
      let file_id ← block.file_id jValue
      pure (insertNew objId2inode id file_id)
    else pure objId2inode
  let pair := { key := keyPtr, valueLength := toc.vLen, value := jValue }
  pure (objId2inode, Grouping.push id pair entries)

-- One step of the loop over the records of a group; `fileEntry` is the entry
-- of the last inode record seen in it.
def scanPair (block : Memory) (state : Option EntryPtr × FileSystem) (pair : KeyValuePair) :
    Parse (Option EntryPtr × FileSystem) := do
  let (fileEntry, fs) := state
  let obj_id_and_type ← block.obj_id_and_type pair.key
  let valueType := obj_id_and_type >>> OBJ_TYPE_SHIFT
  let valueId := obj_id_and_type &&& OBJ_ID_MASK
  if valueType = APFS_TYPE_ANY then pure (fileEntry, fs)
  else if valueType = APFS_TYPE_INODE then do
    let (fileEntry, fs) ← scanInode block pair valueId fs
    pure (some fileEntry, fs)
  else if valueType = APFS_TYPE_FILE_EXTENT then do
    let fs ← scanFileExtent block fileEntry pair.key pair.value fs
    pure (fileEntry, fs)
  else if valueType = APFS_TYPE_DIR_REC then do
    let fs ← scanDirRec block fileEntry pair.key pair.value fs
    pure (fileEntry, fs)
  else pure (fileEntry, fs)

def scanGroup (block : Memory) (fs : FileSystem) (keyValues : List KeyValuePair) :
    Parse FileSystem := do
  let (fileEntry, fs) ← keyValues.foldlM (scanPair block) (none, fs)
  match fileEntry with
  | some fileEntry => pure (fs.updateEntry fileEntry)
  | none => pure fs

def scanBTreeBlock (block : Memory) (scanner : APFSScanner) : Parse APFSScanner := do
  let (keyBasePtr, valBasePtr, tableOfContents) ← readNode block scanner.currentBlockSize
  let (objId2inode, entries) ←
    tableOfContents.foldlM (groupEntry block keyBasePtr valBasePtr) (scanner.objId2inode, [])
  let fs ← entries.foldlM (fun fs entry => scanGroup block fs entry.2) scanner.fileSystem
  pure { scanner with objId2inode := objId2inode, fileSystem := fs }

-- `m_currentBlockSize - MAX_CKSUM_SIZE` in `unsigned int` arithmetic.
def checksumLength (currentBlockSize : Nat) : Nat :=
  (((currentBlockSize : Int) - MAX_CKSUM_SIZE) % 2 ^ 32).toNat

def scanBlock (scanner : APFSScanner) (pos : Nat) (block : Memory) (_sectorSize : Nat) :
    Parse APFSScanner := do
  let cksum ← fletcher64 block MAX_CKSUM_SIZE (checksumLength scanner.currentBlockSize)
  let o_type ← block.o_type 0
  let o_cksum ← block.o_cksum 0
  if o_type ≠ 0 ∧ cksum = o_cksum then
    let type := o_type &&& 0xffff
    if type = OBJECT_TYPE_NX_SUPERBLOCK then do
      let nx_magic ← block.nx_magic 0
      if nx_magic = NX_MAGIC_NO then do
        let nx_block_size ← block.nx_block_size 0
        let scanner := { scanner with currentBlockSize := nx_block_size }
        pure (if scanner.fsOffset = 0 then { scanner with fsOffset := pos } else scanner)
      else pure scanner
    else if type = OBJECT_TYPE_BTREE_NODE ∨ type = OBJECT_TYPE_BTREE then
      scanBTreeBlock block scanner
    else pure scanner
  else pure scanner

end SuperBadBlock
