import SuperBadBlock.ApfsScanner.BlockSize
import SuperBadBlock.ApfsScanner.Placement
import SuperBadBlock.ApfsScanner.StableSort
import SuperBadBlock.ApfsScanner.XFields

namespace SuperBadBlock

-- A data stream of this size; the other members of j_dstream_t are zero.
def streamField (size : Nat) : XField where
  type := 8
  flags := 0
  data := toBytes 8 size ++ List.replicate 32 0
  padding := []
  size_lt := by simp
  padded := by simp

def inodeValue (id parentId : Nat) (length : Option Nat) : InodeValue where
  fixed := toBytes 8 parentId ++ (toBytes 8 id ++ List.replicate 76 0)
  xf_used_data := toBytes 2 (40 * length.toList.length)
  xfields := length.toList.map streamField
  length_fixed := by simp
  length_xf_used_data := by simp
  xf_num_exts_lt := by cases length <;> simp

namespace Record

-- j_key_t
def header (id type : Nat) : List UInt8 := toBytes 8 (id + type * 2 ^ OBJ_TYPE_SHIFT)

-- The key of a record as it is stored: j_inode_key_t, j_file_extent_key_t or
-- j_drec_hashed_key_t.
def keyBytes : Record → List UInt8
  | inode id _ _ => header id APFS_TYPE_INODE
  | fileExtent id extent => header id APFS_TYPE_FILE_EXTENT ++ toBytes 8 extent.logicalAddress
  | dirRec id _ name _ =>
      header id APFS_TYPE_DIR_REC ++ (toBytes 4 (name.length + 1) ++ (name ++ [0]))
  | other id => header id APFS_TYPE_ANY

-- Its value: j_inode_val_t, j_file_extent_val_t or j_drec_val_t.
def valueBytes : Record → List UInt8
  | inode id parentId length => (inodeValue id parentId length).bytes
  | fileExtent _ extent =>
      toBytes 8 extent.length ++ (toBytes 8 extent.physicalBlock ++ List.replicate 8 0)
  | dirRec _ fileId _ type => toBytes 8 fileId ++ (List.replicate 8 0 ++ toBytes 2 type)
  | other _ => []

-- The members of the record fit the widths they are stored with.
def Fits : Record → Prop
  | inode id parentId length => id < 2 ^ 60 ∧ parentId < 2 ^ 64 ∧ ∀ size ∈ length, size < 2 ^ 64
  | fileExtent id extent =>
      id < 2 ^ 60 ∧ extent.logicalAddress < 2 ^ 64 ∧ extent.physicalBlock < 2 ^ 64 ∧
        extent.length < 2 ^ 56
  | dirRec id fileId name type => id < 2 ^ 60 ∧ fileId < 2 ^ 64 ∧ 0 ∉ name ∧ type < 16
  | other id => id < 2 ^ 60

instance : DecidablePred Fits
  | inode _ _ _ => inferInstanceAs (Decidable (_ ∧ _))
  | fileExtent _ _ => inferInstanceAs (Decidable (_ ∧ _))
  | dirRec _ _ _ _ => inferInstanceAs (Decidable (_ ∧ _))
  | other _ => inferInstanceAs (Decidable (_ < _))

@[simp] theorem length_header (id type : Nat) : (header id type).length = 8 := length_toBytes _ _

theorem length_keyBytes (record : Record) : 8 ≤ record.keyBytes.length := by
  cases record <;> simp [keyBytes]

end Record

section Decode

variable {block : Memory}

-- The id is in the low 60 bits of the first word of a key, the type above them.
theorem Memory.Holds.header {p : Int} {id type : Nat} (h : block.Holds p (Record.header id type))
    (hid : id < 2 ^ 60) (htype : type < 16) :
    (block.obj_id_and_type p).val &&& OBJ_ID_MASK = id ∧
      (block.obj_id_and_type p).val >>> OBJ_TYPE_SHIFT = type := by
  have hread : (block.obj_id_and_type p).val = id + type * 2 ^ 60 :=
    h.le_toBytes (by rw [OBJ_TYPE_SHIFT]; omega)
  have hmask : OBJ_ID_MASK = 2 ^ 60 - 1 := by decide
  rw [hread, hmask, Nat.and_two_pow_sub_one_eq_mod, OBJ_TYPE_SHIFT, Nat.shiftRight_eq_div_pow]
  omega

theorem Memory.Holds.cstringUpTo {p : Int} {name : List UInt8} (h : block.Holds p (name ++ [0]))
    (hname : 0 ∉ name) {fuel : Nat} (hfuel : name.length < fuel) :
    (block.cstringUpTo fuel p).val = name := by
  induction name generalizing p fuel with
  | nil =>
      obtain ⟨fuel, rfl⟩ := Nat.exists_eq_succ_of_ne_zero (Nat.ne_of_gt hfuel)
      rw [List.nil_append, Memory.Holds.cons_iff] at h
      simp [Memory.cstringUpTo, h.1]
  | cons c name ih =>
      obtain ⟨fuel, rfl⟩ := Nat.exists_eq_succ_of_ne_zero (Nat.ne_of_gt (Nat.zero_lt_of_lt hfuel))
      rw [List.cons_append, Memory.Holds.cons_iff] at h
      have hne : c ≠ 0 := fun hc => hname (hc ▸ List.mem_cons_self)
      have hrest := ih h.2 (fun hm => hname (List.mem_cons_of_mem c hm))
        (Nat.lt_of_succ_lt_succ hfuel)
      simp only [Memory.cstringUpTo, Traced.val_bind, Memory.val_byte, h.1, hne,
        if_false, Traced.val_pure, hrest]

theorem Memory.Holds.cstring {p : Int} {name : List UInt8} (h : block.Holds p (name ++ [0]))
    (hname : 0 ∉ name) (hlength : name.length < 2 ^ 64) : (block.cstring p).val = name :=
  h.cstringUpTo hname hlength

-- The size that `scanInode` takes from an inode value is that of its last data stream.
theorem val_inodeLength {pair : KeyValuePair} {value : InodeValue}
    (hvalue : block.Holds pair.value value.bytes) (hlength : pair.valueLength = value.bytes.length)
    (hdstream : ∀ f ∈ value.xfields, f.IsDStream → 8 ≤ f.data.length) :
    (inodeLength block pair).val = lastDStream none value.xfields := by
  obtain ⟨hnum, hheaders, hbodies⟩ := InodeValue.parts hvalue
  by_cases hne : value.xfields = []
  · have hshort : ¬(pair.valueLength : Int) - sizeof_j_inode_val_t > sizeof_xf_blob_t := by
      rw [hlength, InodeValue.length_bytes, hne, sizeof_j_inode_val_t, sizeof_xf_blob_t]
      simp
    simp only [inodeLength, if_neg hshort, Traced.val_pure, hne, lastDStream]
  · have hlong := InodeValue.tested (Nat.le_of_eq hlength.symm) hne
    have hblob : pair.value + sizeof_j_inode_val_t + sizeof_xf_blob_t = pair.value + 96 := by
      rw [sizeof_j_inode_val_t, sizeof_xf_blob_t]
      omega
    have hdata : pair.value + 96 + (value.xfields.length : Int) * sizeof_x_field_t =
        pair.value + 96 + 4 * value.xfields.length := by
      rw [sizeof_x_field_t, Int.mul_comm]
    have hnum' : (block.xf_num_exts (pair.value + sizeof_j_inode_val_t)).val =
        value.xfields.length := hnum
    simp only [inodeLength, if_pos hlong, Traced.val_bind, hnum', hblob, hdata]
    exact val_scanXFields_eq hheaders hbodies hdstream none

theorem lastDStream_inodeValue (id parentId : Nat) {length : Option Nat}
    (hlength : ∀ size ∈ length, size < 2 ^ 64) :
    lastDStream none (inodeValue id parentId length).xfields = length := by
  cases length with
  | none => rfl
  | some size =>
      have htype : (streamField size).IsDStream := rfl
      have hsize : (streamField size).dstreamSize = size := by
        have htake : (streamField size).data.take 8 = toBytes 8 size :=
          List.take_left' (length_toBytes 8 size)
        rw [XField.dstreamSize, htake, ofBytes_toBytes]
        exact Nat.mod_eq_of_lt (hlength size rfl)
      change lastDStream none [streamField size] = some size
      rw [lastDStream, if_pos htype, hsize]
      rfl

theorem dstream_inodeValue (id parentId : Nat) (length : Option Nat) :
    ∀ f ∈ (inodeValue id parentId length).xfields, f.IsDStream → 8 ≤ f.data.length := by
  intro f hf _
  obtain ⟨size, -, rfl⟩ := List.mem_map.mp hf
  simp [streamField]

-- A stored record is decoded as it was.
theorem decode_of_holds {pair : KeyValuePair} {record : Record} (hfits : record.Fits)
    (hkey : block.Holds pair.key record.keyBytes) (hvalue : block.Holds pair.value record.valueBytes)
    (hlength : pair.valueLength = record.valueBytes.length)
    (hname : record.keyBytes.length < 2 ^ 64) : decode block pair = record := by
  cases record with
  | inode id parentId length =>
      obtain ⟨hid, hparent, hsize⟩ := hfits
      obtain ⟨hmask, htype⟩ := Memory.Holds.header hkey hid (by decide)
      have hread : (block.parent_id pair.value).val = parentId := by
        have hfixed := (Memory.Holds.append_iff.mp hvalue).1
        exact (Memory.Holds.append_iff.mp hfixed).1.le_toBytes hparent
      have hsize : (inodeLength block pair).val = length :=
        (val_inodeLength hvalue hlength (dstream_inodeValue id parentId length)).trans
          (lastDStream_inodeValue id parentId hsize)
      simp only [decode, hmask, htype, hread, hsize, if_true]
  | fileExtent id extent =>
      obtain ⟨hid, hlogical, hphys, hlen⟩ := hfits
      obtain ⟨hheader, hlogicalBytes⟩ := Memory.Holds.append_iff.mp hkey
      obtain ⟨hmask, htype⟩ := Memory.Holds.header hheader hid (by decide)
      obtain ⟨hlenBytes, hrest⟩ := Memory.Holds.append_iff.mp hvalue
      have hlogical : (block.logical_addr pair.key).val = extent.logicalAddress :=
        hlogicalBytes.le_toBytes hlogical
      have hphys : (block.phys_block_num pair.value).val = extent.physicalBlock := by
        have hbytes := (Memory.Holds.append_iff.mp hrest).1
        rw [length_toBytes] at hbytes
        exact hbytes.le_toBytes hphys
      have hlen : (block.len_and_flags pair.value).val &&& J_FILE_EXTENT_LEN_MASK = extent.length := by
        have hread : (block.len_and_flags pair.value).val = extent.length :=
          hlenBytes.le_toBytes (by omega)
        have hmask : J_FILE_EXTENT_LEN_MASK = 2 ^ 56 - 1 := by decide
        rw [hread, hmask, Nat.and_two_pow_sub_one_eq_mod, Nat.mod_eq_of_lt hlen]
      have hne : APFS_TYPE_FILE_EXTENT ≠ APFS_TYPE_INODE := by decide
      simp only [decode, hmask, htype, hne, hlogical, hphys, hlen, if_true, if_false]
  | dirRec id fileId name type =>
      obtain ⟨hid, hfile, hnul, htypeLt⟩ := hfits
      obtain ⟨hheader, hrest⟩ := Memory.Holds.append_iff.mp hkey
      obtain ⟨hmask, htype⟩ := Memory.Holds.header hheader hid (by decide)
      obtain ⟨hfileBytes, hvalueRest⟩ := Memory.Holds.append_iff.mp hvalue
      have hfile : (block.file_id pair.value).val = fileId := hfileBytes.le_toBytes hfile
      have hname : (block.drec_name pair.key).val = name := by
        have hbytes := (Memory.Holds.append_iff.mp hrest).2
        rw [Record.length_header, length_toBytes, Int.add_assoc] at hbytes
        refine hbytes.cstring hnul ?_
        simp only [Record.keyBytes, List.length_append] at hname
        omega
      have hflags : (block.drec_flags pair.value).val &&& DREC_TYPE_MASK = type := by
        have hbytes := (Memory.Holds.append_iff.mp hvalueRest).2
        rw [length_toBytes, List.length_replicate, Int.add_assoc] at hbytes
        have hread : (block.drec_flags pair.value).val = type := hbytes.le_toBytes (by omega)
        have hmask : DREC_TYPE_MASK = 2 ^ 4 - 1 := by decide
        rw [hread, hmask, Nat.and_two_pow_sub_one_eq_mod, Nat.mod_eq_of_lt htypeLt]
      have hne : APFS_TYPE_DIR_REC ≠ APFS_TYPE_INODE ∧ APFS_TYPE_DIR_REC ≠ APFS_TYPE_FILE_EXTENT := by
        decide
      simp only [decode, hmask, htype, hne.1, hne.2, hfile, hname, hflags, if_true, if_false]
  | other id =>
      obtain ⟨hmask, htype⟩ := Memory.Holds.header hkey hfits (by decide)
      have hne : APFS_TYPE_ANY ≠ APFS_TYPE_INODE ∧ APFS_TYPE_ANY ≠ APFS_TYPE_FILE_EXTENT ∧
          APFS_TYPE_ANY ≠ APFS_TYPE_DIR_REC := by
        decide
      simp only [decode, hmask, htype, hne.1, hne.2.1, hne.2.2, if_false]

end Decode

-- Keys one behind another from the key area on, values back from the end of the node.
def placeRecords : Nat → Nat → List Record → List PlacedRecord
  | _, _, [] => []
  | kOff, vOff, record :: records =>
      { key := record.keyBytes, value := record.valueBytes, kOff := kOff
        vOff := vOff + record.valueBytes.length } ::
        placeRecords (kOff + record.keyBytes.length) (vOff + record.valueBytes.length) records

@[simp] theorem length_placeRecords (kOff vOff : Nat) (records : List Record) :
    (placeRecords kOff vOff records).length = records.length := by
  induction records generalizing kOff vOff with
  | nil => rfl
  | cons record records ih => rw [placeRecords, List.length_cons, ih, List.length_cons]

theorem mem_placeRecords {kOff vOff : Nat} {records : List Record} {r : PlacedRecord}
    (h : r ∈ placeRecords kOff vOff records) :
    ∃ before record after, records = before ++ record :: after ∧
      r.key = record.keyBytes ∧ r.value = record.valueBytes ∧
      r.kOff = kOff + (before.flatMap Record.keyBytes).length ∧
      r.vOff = vOff + (before.flatMap Record.valueBytes).length + record.valueBytes.length := by
  induction records generalizing kOff vOff with
  | nil => cases h
  | cons first records ih =>
      rcases List.mem_cons.mp h with rfl | h
      · exact ⟨[], first, records, rfl, rfl, rfl, rfl, rfl⟩
      · obtain ⟨before, record, after, rfl, hkey, hvalue, hkOff, hvOff⟩ := ih h
        refine ⟨first :: before, record, after, rfl, hkey, hvalue, ?_, ?_⟩
        · rw [hkOff, List.flatMap_cons, List.length_append, Nat.add_assoc]
        · rw [hvOff, List.flatMap_cons, List.length_append, Nat.add_assoc vOff]

namespace Node

-- The node with its table of contents right behind the header.
def placed (node : Node) : PlacedNode where
  flags := node.flags
  tableOff := 0
  tableLen := 8 * node.records.length
  records := placeRecords 0 0 node.records

def objectType (node : Node) : Nat :=
  if node.placed.Root then OBJECT_TYPE_BTREE else OBJECT_TYPE_BTREE_NODE

-- obj_phys_t and the rest of btree_node_phys_t
def headerBytes (node : Node) : List UInt8 :=
  List.replicate 16 0 ++ (toBytes 8 node.xid ++ (toBytes 4 node.objectType ++ (List.replicate 4 0 ++
    (toBytes 2 node.flags ++ (List.replicate 2 0 ++ (toBytes 4 node.records.length ++
      ((toBytes 2 0 ++ toBytes 2 (8 * node.records.length)) ++ List.replicate 12 0)))))))

-- The bytes of the node up to the last value.
def usedSpace (node : Node) : Nat :=
  56 + 8 * node.records.length + (node.records.flatMap Record.keyBytes).length +
    (node.records.flatMap Record.valueBytes).length

def bytes (node : Node) : List UInt8 :=
  node.headerBytes ++ (node.placed.records.flatMap node.placed.tocEntry ++
    (node.records.flatMap Record.keyBytes ++
      (List.replicate (node.placed.valueEnd - node.usedSpace) 0 ++
        (node.records.reverse.flatMap Record.valueBytes ++
          List.replicate (4096 - node.placed.valueEnd) 0))))

-- The node fits a block of 4096 bytes.
structure Encodable (node : Node) : Prop where
  xid_lt : node.xid < 2 ^ 64
  flags_lt : node.flags < 2 ^ 16
  variableSize : ¬node.placed.FixedSize
  records_fit : ∀ record ∈ node.records, record.Fits
  space : node.usedSpace ≤ node.placed.valueEnd

end Node

-- The block the node is written as.
def encodeNode (node : Node) : Memory := (Memory.ofList node.bytes).withChecksum

section Blocks

variable {node : Node}

theorem Memory.Holds.withChecksum {mem : Memory} {off : Int} {bytes : List UInt8}
    (h : mem.Holds off bytes) (hoff : 8 ≤ off) : mem.withChecksum.Holds off bytes := by
  intro i b hb
  rw [Memory.withChecksum, if_neg (by omega)]
  exact h i b hb

theorem PlacedNode.valueEnd_le (node : PlacedNode) : node.valueEnd ≤ 4096 := by
  rw [valueEnd]
  split_ifs <;> decide

namespace Node

theorem length_toc (h : node.Encodable) :
    (node.placed.records.flatMap node.placed.tocEntry).length = 8 * node.records.length := by
  have hsize : node.placed.tocSize = 8 := if_neg h.variableSize
  rw [List.length_flatMap, List.map_congr_left fun r _ => node.placed.length_tocEntry r,
    List.map_const', List.sum_replicate_nat, hsize, Nat.mul_comm]
  exact congrArg (8 * ·) (length_placeRecords 0 0 node.records)

theorem length_reverse_values (records : List Record) :
    (records.reverse.flatMap Record.valueBytes).length =
      (records.flatMap Record.valueBytes).length := by
  rw [List.length_flatMap, List.length_flatMap, List.map_reverse, List.sum_reverse]

-- The parts of the block, each at its place.
theorem Encodable.parts (h : node.Encodable) :
    (encodeNode node).Holds 16 (toBytes 8 node.xid) ∧
    (encodeNode node).Holds 24 (toBytes 4 node.objectType) ∧
    (encodeNode node).Holds 32 (toBytes 2 node.flags) ∧
    (encodeNode node).Holds 36 (toBytes 4 node.records.length) ∧
    (encodeNode node).Holds 40 (toBytes 2 0 ++ toBytes 2 (8 * node.records.length)) ∧
    (encodeNode node).Holds 56 (node.placed.records.flatMap node.placed.tocEntry) ∧
    (encodeNode node).Holds (56 + 8 * node.records.length : Nat)
      (node.records.flatMap Record.keyBytes) ∧
    (encodeNode node).Holds
      (node.placed.valueEnd - (node.records.flatMap Record.valueBytes).length : Nat)
      (node.records.reverse.flatMap Record.valueBytes) := by
  have hspace := h.space
  rw [usedSpace] at hspace
  have hall := Memory.holds_ofList node.bytes
  rw [encodeNode]
  generalize Memory.ofList node.bytes = mem at hall ⊢
  simp only [bytes, headerBytes, Memory.Holds.append_iff, length_toc h, length_toBytes,
    List.length_replicate, List.append_assoc] at hall
  obtain ⟨-, hxid, htype, -, hflags, -, hnkeys, hoff, hlen, -, htoc, hkeys, -, hvalues, -⟩ := hall
  have hstored {off off' : Int} {part : List UInt8} (hpart : mem.Holds off part) (heq : off = off')
      (hbehind : 8 ≤ off') : mem.withChecksum.Holds off' part := (heq ▸ hpart).withChecksum hbehind
  refine ⟨hstored hxid (by omega) (by omega), hstored htype (by omega) (by omega),
    hstored hflags (by omega) (by omega), hstored hnkeys (by omega) (by omega),
    Memory.Holds.append_iff.mpr ⟨hstored hoff (by omega) (by omega),
      hstored hlen (by rw [length_toBytes]; omega) (by rw [length_toBytes]; omega)⟩,
    hstored htoc (by omega) (by omega), hstored hkeys (by omega) (by omega),
    hstored hvalues (by rw [usedSpace]; omega) (by omega)⟩

-- The place of one record among the others.
theorem Encodable.place (h : node.Encodable) {r : PlacedRecord} (hr : r ∈ node.placed.records) :
    node.placed.keyAt r + r.key.length ≤ 4096 ∧
    r.value.length ≤ r.vOff ∧ r.vOff ≤ node.placed.valueEnd ∧
    (encodeNode node).Holds (node.placed.keyAt r) r.key ∧
    (encodeNode node).Holds (node.placed.valueAt r) r.value := by
  obtain ⟨before, record, after, hrecords, hkey, hvalue, hkOff, hvOff⟩ := mem_placeRecords hr
  obtain ⟨-, -, -, -, -, -, hkeys, hvalues⟩ := h.parts
  have hspace := h.space
  have hend := node.placed.valueEnd_le
  have hkeyAt : node.placed.keyAt r =
      (56 + 8 * node.records.length : Nat) + (before.flatMap Record.keyBytes).length := by
    rw [PlacedNode.keyAt, hkOff]
    simp only [placed]
    omega
  rw [usedSpace] at hspace
  simp only [hrecords, List.flatMap_append, List.flatMap_cons, List.length_append,
    List.reverse_append, List.reverse_cons, List.flatMap_nil, List.append_nil, List.append_assoc,
    Memory.Holds.append_iff, length_reverse_values] at hspace hkeys hvalues hkeyAt
  have hvalueAt : node.placed.valueAt r = (node.placed.valueEnd -
      ((before.flatMap Record.valueBytes).length + (record.valueBytes.length +
        (after.flatMap Record.valueBytes).length)) : Nat) +
        ((after.flatMap Record.valueBytes).length : Int) := by
    rw [PlacedNode.valueAt, hvOff]
    omega
  rw [hkeyAt, hvalueAt, hkey, hvalue]
  exact ⟨by omega, by omega, by omega, hkeys.2.1, hvalues.2.1⟩

theorem Encodable.laidOut (h : node.Encodable) : node.placed.LaidOut (encodeNode node) where
  flags_lt := h.flags_lt
  table_inside := by
    have hspace := h.space
    have hend := node.placed.valueEnd_le
    rw [usedSpace] at hspace
    simp only [placed]
    omega
  toc_inside := by
    have hspace := h.space
    have hend := node.placed.valueEnd_le
    have hsize : node.placed.tocSize = 8 := if_neg h.variableSize
    have hlength : node.placed.records.length = node.records.length := length_placeRecords 0 0 _
    rw [usedSpace] at hspace
    rw [hsize, hlength]
    simp only [placed]
    omega
  key_inside r hr := (h.place hr).1
  value_inside r hr := ⟨(h.place hr).2.1, (h.place hr).2.2.1⟩
  key_length r hr := by
    obtain ⟨-, record, -, -, hkey, -⟩ := mem_placeRecords hr
    rw [hkey]
    exact record.length_keyBytes
  btn_flags := h.parts.2.2.1
  btn_nkeys := by
    have hlength : node.placed.records.length = node.records.length := length_placeRecords 0 0 _
    rw [hlength]
    exact h.parts.2.2.2.1
  btn_table_space := h.parts.2.2.2.2.1
  toc := h.parts.2.2.2.2.2.1
  keys r hr := (h.place hr).2.2.2.1
  values r hr := (h.place hr).2.2.2.2
  trailer hfixed := absurd hfixed h.variableSize

end Node

theorem map_decode_placeRecords {block : Memory} {laid : PlacedNode} (hvariable : ¬laid.FixedSize)
    {records : List Record} (hfits : ∀ record ∈ records, record.Fits)
    (hkeys : ∀ record ∈ records, record.keyBytes.length < 2 ^ 64) {kOff vOff : Nat}
    {pairs : List KeyValuePair}
    (h : List.Forall₂ (Decoded block laid) (placeRecords kOff vOff records) pairs) :
    pairs.map (decode block) = records := by
  induction records generalizing kOff vOff pairs with
  | nil =>
      cases h
      rfl
  | cons record records ih =>
      obtain ⟨hfit, hfits⟩ := List.forall_mem_cons.mp hfits
      obtain ⟨hlt, hkeys⟩ := List.forall_mem_cons.mp hkeys
      cases h with
      | cons hhead htail =>
          rw [List.map_cons, ih hfits hkeys htail, decode_of_holds hfit hhead.key_bytes
            hhead.value_bytes (hhead.valueLength fun hfixed => absurd hfixed hvariable) hlt]

-- A key is no longer than the node.
theorem Node.Encodable.keyBytes_lt (h : node.Encodable) :
    ∀ record ∈ node.records, record.keyBytes.length < 2 ^ 64 := by
  intro record hr
  have hspace := h.space
  have hend := node.placed.valueEnd_le
  obtain ⟨before, after, hrecords⟩ := List.append_of_mem hr
  simp only [Node.usedSpace, hrecords, List.flatMap_append, List.flatMap_cons,
    List.length_append] at hspace
  omega

theorem isNode_encodeNode (h : node.Encodable) : IsNode 4096 (encodeNode node) := by
  have htypes : node.objectType = OBJECT_TYPE_BTREE ∨ node.objectType = OBJECT_TYPE_BTREE_NODE := by
    rw [Node.objectType]
    split_ifs
    · exact Or.inl rfl
    · exact Or.inr rfl
  have hlt : node.objectType < 256 ^ 4 := by
    rcases htypes with htype | htype <;> rw [htype] <;> decide
  have hread : (encodeNode node).le 24 4 = node.objectType := h.parts.2.1.le_toBytes hlt
  refine ⟨valid_withChecksum _ ?_, ?_⟩
  · rw [← Memory.le_withChecksum _ _ _ (by decide), ← encodeNode, hread]
    rcases htypes with htype | htype <;> rw [htype] <;> decide
  · have htype : objectType (encodeNode node) = node.objectType &&& 0xffff :=
      congrArg (· &&& 0xffff) hread
    rw [htype]
    rcases htypes with htype | htype <;> rw [htype] <;> decide

-- A node that fits a block is read back from it as it was.
theorem nodeOf_encodeNode (h : node.Encodable) : nodeOf (encodeNode node) 4096 = node := by
  have hxid : ((encodeNode node).o_xid 0).val = node.xid := h.parts.1.le_toBytes h.xid_lt
  have hflags : ((encodeNode node).btn_flags 0).val = node.flags := h.laidOut.header.1
  rw [nodeOf, hxid, hflags, map_decode_placeRecords h.variableSize h.records_fit h.keyBytes_lt
    h.laidOut.decoded_pairs]

end Blocks

section Inside

variable {block : Memory} {pair : KeyValuePair} {fs : FileSystem} {attached : Bool}

theorem length_inodeValue (id parentId : Nat) (length : Option Nat) :
    (inodeValue id parentId length).bytes.length = 96 + 44 * length.toList.length := by
  cases length with
  | none => rfl
  | some size =>
      rw [InodeValue.length_bytes]
      simp [inodeValue, streamField, XField.body]

theorem xfieldsInside_of_holds {id parentId : Nat} {length : Option Nat}
    (hvalue : block.Holds pair.value (inodeValue id parentId length).bytes)
    (hlo : 0 ≤ pair.value) (hhi : pair.value + (inodeValue id parentId length).bytes.length ≤ 4096) :
    XFieldsInside block pair := by
  have hnum : (block.xf_num_exts (pair.value + 92)).val = length.toList.length := by
    rw [(InodeValue.parts hvalue).1]
    exact List.length_map _
  rw [length_inodeValue] at hhi
  intro _
  rw [hnum]
  refine ⟨⟨by simp only; omega, by simp only; omega⟩, fun k hk => ?_⟩
  cases length with
  | none => exact absurd hk (Nat.not_lt_zero k)
  | some size =>
      obtain rfl : k = 0 := Nat.lt_one_iff.mp hk
      rw [xdataOffset_zero]
      simp only [Access.InBlock, Option.toList_some, List.length_singleton] at hhi ⊢
      omega

-- The scanner reads of a stored record what the record holds.
theorem recordInside_of_holds {record : Record} (hfits : record.Fits)
    (hkey : block.Holds pair.key record.keyBytes) (hvalue : block.Holds pair.value record.valueBytes)
    (hkeyIn : 0 ≤ pair.key ∧ pair.key + record.keyBytes.length ≤ 4096)
    (hvalueIn : 0 ≤ pair.value ∧ pair.value + record.valueBytes.length ≤ 4096) :
    RecordInside block fs attached pair := by
  have hhead := record.length_keyBytes
  have hkeyRead : Access.InBlock ⟨pair.key, 8⟩ := by
    simp only [Access.InBlock]
    omega
  cases record with
  | inode id parentId length =>
      have htype := (Memory.Holds.header hkey hfits.1 (by decide)).2
      refine ⟨hkeyRead, fun _ => ⟨xfieldsInside_of_holds hvalue hvalueIn.1 hvalueIn.2, fun _ => ?_⟩,
        fun hextent => ?_, fun hdir => ?_⟩
      · have hlength := length_inodeValue id parentId length
        simp only [Record.valueBytes] at hvalueIn
        simp only [Access.InBlock]
        omega
      · exact absurd (htype.symm.trans hextent) (by decide)
      · exact absurd (htype.symm.trans hdir) (by decide)
  | fileExtent id extent =>
      have htype := (Memory.Holds.header (Memory.Holds.append_iff.mp hkey).1 hfits.1 (by decide)).2
      simp only [Record.keyBytes, Record.valueBytes, List.length_append, List.length_replicate,
        Record.length_header, length_toBytes] at hkeyIn hvalueIn
      refine ⟨hkeyRead, fun hinode => ?_, fun _ => ⟨?_, fun _ _ => ⟨?_, ?_⟩⟩, fun hdir => ?_⟩
      · exact absurd (htype.symm.trans hinode) (by decide)
      · simp only [Access.InBlock]
        omega
      · simp only [Access.InBlock]
        omega
      · simp only [Access.InBlock]
        omega
      · exact absurd (htype.symm.trans hdir) (by decide)
  | dirRec id fileId name type =>
      obtain ⟨hheader, hrest⟩ := Memory.Holds.append_iff.mp hkey
      have htype := (Memory.Holds.header hheader hfits.1 (by decide)).2
      simp only [Record.keyBytes, Record.valueBytes, List.length_append, List.length_replicate,
        List.length_singleton, Record.length_header, length_toBytes] at hkeyIn hvalueIn
      refine ⟨hkeyRead, fun hinode => ?_, fun hextent => ?_, fun _ => ⟨?_, fun _ => ⟨?_, ?_⟩⟩⟩
      · exact absurd (htype.symm.trans hinode) (by decide)
      · exact absurd (htype.symm.trans hextent) (by decide)
      · simp only [Access.InBlock]
        omega
      · -- the NUL behind the name
        obtain ⟨-, hname⟩ := Memory.Holds.append_iff.mp hrest
        have hnul := (Memory.Holds.cons_iff.mp (Memory.Holds.append_iff.mp hname).2).1
        rw [Record.length_header, length_toBytes, Int.add_assoc pair.key] at hnul
        exact ⟨name.length, by omega, hnul⟩
      · simp only [Access.InBlock]
        omega
  | other id =>
      have htype := (Memory.Holds.header hkey hfits (by decide)).2
      refine ⟨hkeyRead, fun hinode => ?_, fun hextent => ?_, fun hdir => ?_⟩
      · exact absurd (htype.symm.trans hinode) (by decide)
      · exact absurd (htype.symm.trans hextent) (by decide)
      · exact absurd (htype.symm.trans hdir) (by decide)

theorem nodeInside_encodeNode {node : Node} (h : node.Encodable) (fs : FileSystem) :
    NodeInside (encodeNode node) fs := by
  obtain ⟨hflags, hnkeys, hoff, -⟩ := h.laidOut.header
  have hlength : node.placed.records.length = node.records.length := length_placeRecords 0 0 _
  refine ⟨?_, fun i hi => ?_⟩
  · have htoc := h.laidOut.toc_inside
    have hsize : node.placed.tocSize = 8 := if_neg h.variableSize
    have hstep : (if node.placed.flags &&& BTNODE_FIXED_KV_SIZE ≠ 0 then 4 else 8) = 8 :=
      if_neg h.variableSize
    rw [hsize] at htoc
    rw [hnkeys, hoff, hflags, hstep]
    omega
  · rw [hnkeys] at hi
    have hr := List.getElem?_eq_getElem hi
    have hm := List.mem_of_getElem? hr
    have hdecoded := h.laidOut.decoded hr
    generalize node.placed.records[i] = r at hdecoded hm
    obtain ⟨hkeyIn, hvalueLe, hvOff, -, -⟩ := h.place hm
    have hend := node.placed.valueEnd_le
    obtain ⟨before, record, after, hrecords, hkey, hvalue, -⟩ := mem_placeRecords hm
    have hfits := h.records_fit record (hrecords ▸ List.mem_append_right _ List.mem_cons_self)
    have hkeyAt : 0 ≤ node.placed.keyAt r := by
      rw [PlacedNode.keyAt]
      omega
    refine recordInside_of_holds hfits (hkey ▸ hdecoded.key_bytes) (hvalue ▸ hdecoded.value_bytes)
      ⟨hdecoded.key ▸ hkeyAt, ?_⟩ ?_
    · rw [hdecoded.key, ← hkey]
      exact hkeyIn
    · rw [hdecoded.value, ← hvalue, PlacedNode.valueAt]
      omega

-- Outside the parser, `scanBlock` reads no more than the block.
theorem within_scanBlock (scanner : APFSScanner) (hsize : scanner.currentBlockSize = 4096) (pos : Nat)
    (block : Memory) (sectorSize : Nat) :
    (scanBlock scanner pos block sectorSize).Within Access.InBlock ↔
      (IsNode 4096 block → (scanBTreeBlock block scanner).Within Access.InBlock) := by
  have hchecksum : (fletcher64 block MAX_CKSUM_SIZE
      (checksumLength scanner.currentBlockSize)).Within Access.InBlock := by
    rw [hsize, within_fletcher64, checksumLength_eq 4096 (by decide) (by decide), MAX_CKSUM_SIZE]
    intro i hi
    simp only [Access.InBlock]
    omega
  have htypeIn : (block.o_type 0).Within Access.InBlock :=
    (Memory.within_read _ _ _ _).mpr (by decide)
  have hcksumIn : (block.o_cksum 0).Within Access.InBlock :=
    (Memory.within_read _ _ _ _).mpr (by decide)
  have hmagicIn : (block.nx_magic 0).Within Access.InBlock :=
    (Memory.within_read _ _ _ _).mpr (by decide)
  have hblockSizeIn : (block.nx_block_size 0).Within Access.InBlock :=
    (Memory.within_read _ _ _ _).mpr (by decide)
  have hgate : Valid 4096 block ↔ (block.o_type 0).val ≠ 0 ∧
      (fletcher64 block MAX_CKSUM_SIZE (checksumLength scanner.currentBlockSize)).val =
        (block.o_cksum 0).val := by
    rw [hsize]
    rfl
  have htype : (block.o_type 0).val &&& 0xffff = objectType block := rfl
  have hnode : IsNode 4096 block ↔ Valid 4096 block ∧
      (objectType block = OBJECT_TYPE_BTREE_NODE ∨ objectType block = OBJECT_TYPE_BTREE) := Iff.rfl
  simp only [scanBlock, Traced.within_bind, Traced.within_ite, Traced.within_pure, ← hgate, htype,
    hchecksum, hnode, htypeIn, hcksumIn, hmagicIn, hblockSizeIn, true_and, and_true, implies_true]
  have hother (h : objectType block = OBJECT_TYPE_BTREE_NODE ∨ objectType block = OBJECT_TYPE_BTREE) :
      objectType block ≠ OBJECT_TYPE_NX_SUPERBLOCK := by
    rcases h with h | h <;> rw [h] <;> decide
  exact ⟨fun h hn => h hn.1 (hother hn.2) hn.2, fun h hv _ ht => h ⟨hv, ht⟩⟩

end Inside

theorem within_scanBlock_encodeNode {node : Node} (h : node.Encodable) {scanner : APFSScanner}
    (hreachable : Reachable scanner) (hsize : scanner.currentBlockSize = 4096) (pos : Nat)
    (sectorSize : Nat) :
    (scanBlock scanner pos (encodeNode node) sectorSize).Within Access.InBlock := by
  rw [within_scanBlock scanner hsize]
  intro _
  rw [within_scanBTreeBlock _ scanner hreachable.consistent hsize]
  exact nodeInside_encodeNode h scanner.fileSystem

-- A node that fits a block is accepted from the block it is written to, taken for what it
-- is, and parsed without a look outside the block, in every state of a scan that works with
-- blocks of 4096 bytes.
theorem encoded_node_scanned (node : Node) (h : node.Encodable) (scanner : APFSScanner)
    (hreachable : Reachable scanner) (hsize : scanner.currentBlockSize = 4096) (pos : Nat)
    (sectorSize : Nat) :
    nodeOf (encodeNode node) 4096 = node ∧
    (scanBlock scanner pos (encodeNode node) sectorSize).val = node.scan scanner ∧
    (scanBlock scanner pos (encodeNode node) sectorSize).Within Access.InBlock := by
  have hnode := isNode_encodeNode h
  refine ⟨nodeOf_encodeNode h, ?_, within_scanBlock_encodeNode h hreachable hsize pos sectorSize⟩
  rw [val_scanBlock, hsize, if_pos hnode, val_scanBTreeBlock_eq, hsize, nodeOf_encodeNode h]

theorem encodable_directoryFirst : directoryFirst.Encodable where
  xid_lt := by decide
  flags_lt := by decide
  variableSize := by decide
  records_fit := by decide
  space := by decide +kernel

theorem encoded_node_scanned_of_directoryFirst :
    nodeOf (encodeNode directoryFirst) 4096 = directoryFirst ∧
      (scanBlock {} 4096 (encodeNode directoryFirst) 4096).val = directoryFirst.scan {} :=
  have h := encoded_node_scanned directoryFirst encodable_directoryFirst {} ⟨[], rfl⟩ rfl 4096 4096
  ⟨h.1, h.2.1⟩

end SuperBadBlock
