import SuperBadBlock.ApfsScanner
import SuperBadBlock.FileSystem.Consistent

namespace SuperBadBlock

-- A record of a node, as far as the scanner looks at it.
inductive Record where
  | inode (id parentId : Nat) (length : Option Nat)
  | fileExtent (id : Nat) (extent : EntryExtent)
  | dirRec (id fileId : Nat) (name : List UInt8) (type : Nat)
  | other (id : Nat)
deriving DecidableEq

-- The object id of the record's key.
def Record.id : Record → Nat
  | inode id _ _ => id
  | fileExtent id _ => id
  | dirRec id _ _ _ => id
  | other id => id

def Record.isInode : Record → Bool
  | inode _ _ _ => true
  | _ => false

def decode (block : Memory) (pair : KeyValuePair) : Record :=
  let obj_id_and_type := (block.obj_id_and_type pair.key).val
  let id := obj_id_and_type &&& OBJ_ID_MASK
  let type := obj_id_and_type >>> OBJ_TYPE_SHIFT
  if type = APFS_TYPE_INODE then
    .inode id (block.parent_id pair.value).val (inodeLength block pair).val
  else if type = APFS_TYPE_FILE_EXTENT then
    .fileExtent id {
      logicalAddress := (block.logical_addr pair.key).val
      physicalBlock := (block.phys_block_num pair.value).val
      length := (block.len_and_flags pair.value).val &&& J_FILE_EXTENT_LEN_MASK }
  else if type = APFS_TYPE_DIR_REC then
    .dirRec id (block.file_id pair.value).val (block.drec_name pair.key).val
      ((block.drec_flags pair.value).val &&& DREC_TYPE_MASK)
  else .other id

@[simp] theorem id_decode (block : Memory) (pair : KeyValuePair) :
    (decode block pair).id = (block.obj_id_and_type pair.key).val &&& OBJ_ID_MASK := by
  unfold decode
  simp only []
  split_ifs <;> rfl

-- What a record has to say about one inode, with the `o_xid` of its node. A
-- directory record gives a parent only after the inode record of its directory.
inductive Event where
  | inode (xid parentId : Nat) (length : Option Nat)
  | extent (xid : Nat) (extent : EntryExtent)
  | dirRec (xid : Nat) (parentId : Option Nat) (name : List UInt8) (type : Nat)
deriving DecidableEq

def Event.xid : Event → Nat
  | inode xid _ _ => xid
  | extent xid _ => xid
  | dirRec xid _ _ _ => xid

-- The entry of inode `i` after an event. An extent only ever reaches an inode
-- that has an entry.
def Event.absorb (i : Nat) (old : Option Entry) : Event → Option Entry
  | inode xid parentId length =>
      let e := old.getD { inode := i, isNew := false }
      some (if e.versionId ≤ xid then
        { e with parentId := parentId, versionId := xid, length := length.getD e.length } else e)
  | extent xid added => old.map fun e =>
      if e.extentVersionId ≤ xid then
        { e with
          extents := (if e.extentVersionId < xid then [] else e.extents) ++ [added]
          extentVersionId := xid }
      else e
  | dirRec xid parentId name type =>
      let e := old.getD { inode := i, isNew := false }
      some (if e.versionId ≤ xid then
        { e with
          parentId := parentId.getD e.parentId, name := name, versionId := xid, type := type }
        else e)

-- The inode a record touches and what it says about it. `attached` tells
-- whether an inode record of the same group came before.
def Record.touch (xid : Nat) (attached : Bool) : Record → Option (Nat × Event)
  | inode id parentId length => some (id, .inode xid parentId length)
  | fileExtent id extent => if attached then some (id, .extent xid extent) else none
  | dirRec id fileId name type =>
      some (fileId, .dirRec xid (if attached then some id else none) name type)
  | other _ => none

def groupTouches (xid : Nat) (attached : Bool) : List Record → List (Nat × Event)
  | [] => []
  | record :: records =>
      (record.touch xid attached).toList ++
        groupTouches xid (attached || record.isInode) records

-- A B-tree node, with its records in the order of the table of contents.
structure Node where
  xid : Nat
  flags : Nat
  records : List Record
deriving DecidableEq

def Node.IsLeaf (node : Node) : Prop := node.flags &&& BTNODE_LEAF ≠ 0

instance (node : Node) : Decidable node.IsLeaf := inferInstanceAs (Decidable (_ ≠ _))

def Node.groups (node : Node) : List (Nat × List Record) :=
  Grouping.group Record.id node.records

-- The records of a node in the order `scanBTreeBlock` handles them.
def Node.scanned (node : Node) : List Record := node.groups.flatMap Prod.snd

theorem Node.mem_scanned {node : Node} {record : Record} :
    record ∈ node.scanned ↔ record ∈ node.records :=
  (Grouping.group_perm Record.id node.records).mem_iff

-- The record makes or updates the entry of inode `i`.
def Record.Mentions (i : Nat) : Record → Prop
  | inode id _ _ => id = i
  | dirRec _ fileId _ _ => fileId = i
  | _ => False

instance (i : Nat) : DecidablePred (Record.Mentions i)
  | .inode id _ _ => inferInstanceAs (Decidable (id = i))
  | .dirRec _ fileId _ _ => inferInstanceAs (Decidable (fileId = i))
  | .fileExtent _ _ => inferInstanceAs (Decidable False)
  | .other _ => inferInstanceAs (Decidable False)

-- The touches of a node, in the order `scanBTreeBlock` makes them.
def Node.touches (node : Node) : List (Nat × Event) :=
  node.groups.flatMap fun entry => groupTouches node.xid false entry.2

def pairOf (keyBasePtr valBasePtr : Int) (toc : KvLoc) : KeyValuePair where
  key := keyBasePtr + toc.kOff
  valueLength := toc.vLen
  value := valBasePtr - toc.vOff

-- The pairs of a node, in the order of the table of contents.
def nodePairs (block : Memory) (currentBlockSize : Nat) : List KeyValuePair :=
  let (keyBasePtr, valBasePtr, tableOfContents) := (readNode block currentBlockSize).val
  tableOfContents.map (pairOf keyBasePtr valBasePtr)

def nodeOf (block : Memory) (currentBlockSize : Nat) : Node where
  xid := (block.o_xid 0).val
  flags := (block.btn_flags 0).val
  records := (nodePairs block currentBlockSize).map (decode block)

end SuperBadBlock
