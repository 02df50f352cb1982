import SuperBadBlock.ApfsScanner.Reads
import SuperBadBlock.Memory.Bytes

namespace SuperBadBlock

-- A record with the offsets that the table of contents gives it.
structure PlacedRecord where
  key : List UInt8
  value : List UInt8
  kOff : Nat
  vOff : Nat

-- The object id in the first bytes of the key.
def PlacedRecord.id (r : PlacedRecord) : Nat := ofBytes (r.key.take 8) &&& OBJ_ID_MASK

structure PlacedNode where
  flags : Nat
  tableOff : Nat
  tableLen : Nat
  records : List PlacedRecord

namespace PlacedNode

variable (node : PlacedNode)

def Root : Prop := node.flags &&& BTNODE_ROOT ≠ 0

def FixedSize : Prop := node.flags &&& BTNODE_FIXED_KV_SIZE ≠ 0

instance : Decidable node.Root := inferInstanceAs (Decidable (_ ≠ _))

instance : Decidable node.FixedSize := inferInstanceAs (Decidable (_ ≠ _))

-- The values of a root end where its `btree_info` begins.
def valueEnd : Nat := if node.Root then 4056 else 4096

def keyAt (r : PlacedRecord) : Int := 56 + node.tableOff + node.tableLen + r.kOff

def valueAt (r : PlacedRecord) : Int := node.valueEnd - r.vOff

-- kvoff_t or kvloc_t
def tocEntry (r : PlacedRecord) : List UInt8 :=
  if node.FixedSize then toBytes 2 r.kOff ++ toBytes 2 r.vOff
  else toBytes 2 r.kOff ++ (toBytes 2 r.key.length ++ (toBytes 2 r.vOff ++ toBytes 2 r.value.length))

def tocSize : Nat := if node.FixedSize then 4 else 8

-- The node stands in a block of 4096 bytes: its header, its table of contents, every
-- key and every value, and the sizes in the trailer of a root of fixed-size records.
structure LaidOut (block : Memory) : Prop where
  flags_lt : node.flags < 2 ^ 16
  table_inside : 56 + node.tableOff + node.tableLen ≤ 4096
  toc_inside : 56 + node.tableOff + node.tocSize * node.records.length ≤ 4096
  key_inside : ∀ r ∈ node.records, node.keyAt r + r.key.length ≤ 4096
  value_inside : ∀ r ∈ node.records, r.value.length ≤ r.vOff ∧ r.vOff ≤ node.valueEnd
  key_length : ∀ r ∈ node.records, 8 ≤ r.key.length
  btn_flags : block.Holds 32 (toBytes 2 node.flags)
  btn_nkeys : block.Holds 36 (toBytes 4 node.records.length)
  btn_table_space : block.Holds 40 (toBytes 2 node.tableOff ++ toBytes 2 node.tableLen)
  toc : block.Holds (56 + node.tableOff) (node.records.flatMap node.tocEntry)
  keys : ∀ r ∈ node.records, block.Holds (node.keyAt r) r.key
  values : ∀ r ∈ node.records, block.Holds (node.valueAt r) r.value
  trailer : node.FixedSize → node.Root → ∀ r ∈ node.records,
    block.Holds 4064 (toBytes 4 r.key.length ++ toBytes 4 r.value.length)

theorem length_tocEntry (r : PlacedRecord) : (node.tocEntry r).length = node.tocSize := by
  rw [tocEntry, tocSize]
  split_ifs <;> simp

end PlacedNode

-- Pieces of one length that are behind one another.
theorem Memory.Holds.piece {α : Type} {mem : Memory} {off : Int} {f : α → List UInt8} {size : Nat}
    {l : List α} (h : mem.Holds off (l.flatMap f)) (hsize : ∀ x, (f x).length = size) {i : Nat} {x : α}
    (hx : l[i]? = some x) : mem.Holds (off + size * i) (f x) := by
  induction l generalizing off i with
  | nil => cases hx
  | cons first l ih =>
      rw [List.flatMap_cons, append_iff, hsize] at h
      cases i with
      | zero =>
          obtain rfl := Option.some.inj hx
          simpa using h.1
      | succ i =>
          have hnext := ih h.2 (by simpa using hx)
          rw [show off + (size : Int) + size * i = off + size * ((i + 1 : Nat) : Int) by
            push_cast; ring] at hnext
          exact hnext

-- A pair the scanner made for a record.
structure Decoded (block : Memory) (node : PlacedNode) (r : PlacedRecord) (pair : KeyValuePair) :
    Prop where
  key : pair.key = node.keyAt r
  value : pair.value = node.valueAt r
  key_bytes : block.Holds pair.key r.key
  value_bytes : block.Holds pair.value r.value
  valueLength : (node.FixedSize → node.Root) → pair.valueLength = r.value.length

namespace PlacedNode

variable {node : PlacedNode} {block : Memory}

theorem LaidOut.header (h : node.LaidOut block) :
    (block.btn_flags 0).val = node.flags ∧ (block.btn_nkeys 0).val = node.records.length ∧
    (block.btn_table_space_off 0).val = node.tableOff ∧
    (block.btn_table_space_len 0).val = node.tableLen := by
  have htable := h.table_inside
  have hrecords : node.records.length < 256 ^ 4 := by
    have htoc := h.toc_inside
    have hsize : 4 ≤ node.tocSize := by
      rw [tocSize]
      split_ifs <;> decide
    have hmul := Nat.mul_le_mul_right node.records.length hsize
    omega
  obtain ⟨hoff, hlen⟩ := Memory.Holds.append_iff.mp h.btn_table_space
  exact ⟨h.btn_flags.le_toBytes h.flags_lt, h.btn_nkeys.le_toBytes hrecords,
    hoff.le_toBytes (by omega), hlen.le_toBytes (by omega)⟩

theorem LaidOut.tocPair_eq (h : node.LaidOut block) (i : Nat) :
    tocPair block i =
      if node.FixedSize then
        { key := 56 + node.tableOff + node.tableLen + block.le (56 + node.tableOff + 4 * i) 2
          valueLength := (block.bt_val_size 4056).val % 2 ^ 16
          value := node.valueEnd - block.le (56 + node.tableOff + 4 * i + 2) 2 }
      else
        { key := 56 + node.tableOff + node.tableLen + block.le (56 + node.tableOff + 8 * i) 2
          valueLength := block.le (56 + node.tableOff + 8 * i + 6) 2
          value := node.valueEnd - block.le (56 + node.tableOff + 8 * i + 4) 2 } := by
  obtain ⟨hflags, -, hoff, hlen⟩ := h.header
  have hend : (if node.flags &&& BTNODE_ROOT ≠ 0 then 4056 else 4096 : Int) = node.valueEnd := by
    have hcast := apply_ite (Nat.cast : Nat → Int) node.Root 4056 4096
    exact hcast.symm
  rw [tocPair, hflags, hoff, hlen, hend, Int.mul_comm 4, Int.mul_comm 8]
  rfl

-- Entry `i` of the table of contents leads to record `i`.
theorem LaidOut.decoded (h : node.LaidOut block) {i : Nat} {r : PlacedRecord}
    (hr : node.records[i]? = some r) : Decoded block node r (tocPair block i) := by
  have hm := List.mem_of_getElem? hr
  have hkey := h.key_inside r hm
  obtain ⟨hvalue, hvOff⟩ := h.value_inside r hm
  have hend : node.valueEnd ≤ 4096 := by
    rw [valueEnd]
    split_ifs <;> decide
  have hkOff : r.kOff < 256 ^ 2 := by
    rw [keyAt] at hkey
    omega
  have hentry := h.toc.piece node.length_tocEntry hr
  have hplace : (tocPair block i).key = node.keyAt r ∧ (tocPair block i).value = node.valueAt r ∧
      ((node.FixedSize → node.Root) → (tocPair block i).valueLength = r.value.length) := by
    rw [h.tocPair_eq, keyAt, valueAt]
    by_cases hfixed : node.FixedSize
    · rw [tocEntry, tocSize, if_pos hfixed, if_pos hfixed, Memory.Holds.append_iff,
        length_toBytes] at hentry
      have hk := hentry.1.le_toBytes hkOff
      have hv := hentry.2.le_toBytes (by omega : r.vOff < 256 ^ 2)
      rw [if_pos hfixed]
      refine ⟨congrArg (fun k : Nat => 56 + (node.tableOff : Int) + node.tableLen + k) hk,
        congrArg (fun v : Nat => (node.valueEnd : Int) - v) hv, fun hroot => ?_⟩
      obtain ⟨-, hsize⟩ := Memory.Holds.append_iff.mp (h.trailer hfixed (hroot hfixed) r hm)
      have hread : (block.bt_val_size 4056).val = r.value.length := hsize.le_toBytes (by omega)
      rw [hread]
      exact Nat.mod_eq_of_lt (by omega)
    · rw [tocEntry, tocSize, if_neg hfixed, if_neg hfixed, Memory.Holds.append_iff,
        Memory.Holds.append_iff, Memory.Holds.append_iff, length_toBytes, length_toBytes,
        length_toBytes] at hentry
      obtain ⟨hkEntry, -, hvEntry, hlEntry⟩ := hentry
      rw [Int.add_assoc _ _ ((2 : Nat) : Int)] at hvEntry
      rw [Int.add_assoc _ _ ((2 : Nat) : Int), Int.add_assoc _ _ ((2 : Nat) : Int)] at hlEntry
      have hk := hkEntry.le_toBytes hkOff
      have hv := hvEntry.le_toBytes (by omega : r.vOff < 256 ^ 2)
      have hl := hlEntry.le_toBytes (by omega : r.value.length < 256 ^ 2)
      rw [if_neg hfixed]
      exact ⟨congrArg (fun k : Nat => 56 + (node.tableOff : Int) + node.tableLen + k) hk,
        congrArg (fun v : Nat => (node.valueEnd : Int) - v) hv, fun _ => hl⟩
  exact ⟨hplace.1, hplace.2.1, hplace.1 ▸ h.keys r hm, hplace.2.1 ▸ h.values r hm, hplace.2.2⟩

theorem LaidOut.decoded_pairs (h : node.LaidOut block) :
    List.Forall₂ (Decoded block node) node.records (nodePairs block 4096) := by
  have hnkeys := h.header.2.1
  rw [nodePairs_eq, hnkeys, List.forall₂_iff_get]
  refine ⟨by simp, fun i hi hi' => ?_⟩
  rw [List.get_eq_getElem, List.get_eq_getElem, List.getElem_map, List.getElem_range]
  exact h.decoded (List.getElem?_eq_getElem hi)

theorem id_of_decoded {r : PlacedRecord} {pair : KeyValuePair} (hkey : 8 ≤ r.key.length)
    (h : Decoded block node r pair) : (decode block pair).id = r.id := by
  have hread : (block.obj_id_and_type pair.key).val = ofBytes (r.key.take 8) := h.key_bytes.le_eq hkey
  rw [id_decode, hread, PlacedRecord.id]

-- The pairs of one object, in the order of the table of contents.
theorem LaidOut.decoded_filter (h : node.LaidOut block) (id : Nat) :
    List.Forall₂ (Decoded block node) (node.records.filter fun r => r.id = id)
      ((nodePairs block 4096).filter fun pair => (decode block pair).id = id) := by
  have hpairs := h.decoded_pairs
  have hkeys := h.key_length
  revert hpairs hkeys
  generalize node.records = records
  generalize nodePairs block 4096 = pairs
  intro hpairs hkeys
  induction hpairs with
  | nil => exact .nil
  | cons hhead htail ih =>
      obtain ⟨hfirst, hrest⟩ := List.forall_mem_cons.mp hkeys
      have hid := id_of_decoded hfirst hhead
      rw [List.filter_cons, List.filter_cons, hid]
      split_ifs
      · exact .cons hhead (ih hrest)
      · exact ih hrest

end PlacedNode

-- From a node of any of the four shapes the scanner collects, for each object, its
-- records as they were laid out. Only a node of fixed-size records that has no
-- trailer leaves their sizes open.
theorem toc_decoded (block : Memory) (scanner : APFSScanner) (node : PlacedNode)
    (hnode : node.LaidOut block) (hsize : scanner.currentBlockSize = 4096) :
    (scanBTreeBlock block scanner).val.fileSystem =
      ((nodeEntries block scanner).foldlM (fun fs entry => scanGroup block fs entry.2)
        scanner.fileSystem).val ∧
    Grouping.Sorted (nodeEntries block scanner) ∧
    (∀ id, id ∈ (nodeEntries block scanner).map Prod.fst ↔ ∃ r ∈ node.records, r.id = id) ∧
    ∀ entry ∈ nodeEntries block scanner,
      List.Forall₂ (Decoded block node) (node.records.filter fun r => r.id = entry.1) entry.2 := by
  have hentries := nodeEntries_eq block scanner
  rw [hsize] at hentries
  have hsorted := Grouping.sorted_group (fun pair => (decode block pair).id) (nodePairs block 4096)
  have hlookup (id : Nat) :
      Grouping.lookup id (nodeEntries block scanner) =
        (nodePairs block 4096).filter fun pair => (decode block pair).id = id := by
    rw [hentries, Grouping.lookup_group]
  have hgroup : ∀ entry ∈ nodeEntries block scanner,
      List.Forall₂ (Decoded block node) (node.records.filter fun r => r.id = entry.1) entry.2 := by
    intro entry hm
    rw [← Grouping.lookup_of_mem (hentries ▸ hsorted) hm, hlookup]
    exact hnode.decoded_filter entry.1
  refine ⟨fileSystem_scanBTreeBlock block scanner, hentries ▸ hsorted, fun id => ?_, hgroup⟩
  constructor
  · intro hid
    obtain ⟨entry, hm, rfl⟩ := List.mem_map.mp hid
    obtain ⟨pair, hpair, hkey⟩ := Grouping.mem_group_key (hentries ▸ hm)
    have hfilter : pair ∈ (nodePairs block 4096).filter fun pair => (decode block pair).id = entry.1 :=
      List.mem_filter.mpr ⟨hpair, decide_eq_true hkey⟩
    have hpos := List.length_pos_of_mem hfilter
    rw [← (hnode.decoded_filter entry.1).length_eq] at hpos
    obtain ⟨r, hr⟩ := List.exists_mem_of_length_pos hpos
    obtain ⟨hrecord, hid⟩ := List.mem_filter.mp hr
    exact ⟨r, hrecord, of_decide_eq_true hid⟩
  · rintro ⟨r, hr, rfl⟩
    have hfilter : r ∈ node.records.filter fun other => other.id = r.id :=
      List.mem_filter.mpr ⟨hr, decide_eq_true rfl⟩
    have hlength := (hnode.decoded_filter r.id).length_eq
    have hpos := List.length_pos_of_mem hfilter
    rw [hlength, ← hlookup] at hpos
    exact Grouping.mem_keys_of_lookup (List.length_pos_iff.mp hpos)

-- A root with records of fixed size, two of them under one object id.
def fixedRoot : PlacedNode where
  flags := 7
  tableOff := 0
  tableLen := 16
  records :=
    [{ key := toBytes 8 (5 + 3 * 2 ^ 60), value := toBytes 8 2 ++ toBytes 8 5, kOff := 0, vOff := 16 },
      { key := toBytes 8 (4 + 3 * 2 ^ 60), value := toBytes 8 2 ++ toBytes 8 4, kOff := 16, vOff := 48 },
      { key := toBytes 8 (5 + 1 * 2 ^ 60), value := toBytes 8 9 ++ toBytes 8 9, kOff := 8, vOff := 32 }]

def fixedRootImage : Memory :=
  let mem : Memory := fun _ => 0
  let mem := ((mem.store 32 2 7).store 36 4 3).store 42 2 16
  let mem := (((mem.store 58 2 16).store 60 2 16).store 62 2 48).store 64 2 8
  let mem := mem.store 66 2 32
  let mem := ((mem.store 72 8 (5 + 3 * 2 ^ 60)).store 88 8 (4 + 3 * 2 ^ 60)).store 80 8 (5 + 1 * 2 ^ 60)
  let mem := ((mem.store 4040 8 2).store 4048 8 5).store 4008 8 2
  let mem := ((mem.store 4016 8 4).store 4024 8 9).store 4032 8 9
  (mem.store 4064 4 8).store 4068 4 16

theorem laidOut_fixedRoot : fixedRoot.LaidOut fixedRootImage where
  flags_lt := by decide
  table_inside := by decide
  toc_inside := by decide
  key_inside := by decide
  value_inside := by decide
  key_length := by decide
  btn_flags := by decide +kernel
  btn_nkeys := by decide +kernel
  btn_table_space := by decide +kernel
  toc := by decide +kernel
  keys := by decide +kernel
  values := by decide +kernel
  trailer _ _ := by decide +kernel

theorem toc_decoded_of_fixedRoot :
    ∃ pairs, (5, pairs) ∈ nodeEntries fixedRootImage {} ∧ pairs.map KeyValuePair.key = [72, 80] ∧
      pairs.map KeyValuePair.value = [4040, 4024] ∧
      pairs.map KeyValuePair.valueLength = [16, 16] := by
  obtain ⟨-, -, hkeys, hgroups⟩ := toc_decoded fixedRootImage {} fixedRoot laidOut_fixedRoot rfl
  obtain ⟨⟨id, pairs⟩, hm, rfl⟩ := List.mem_map.mp ((hkeys 5).mpr (by decide))
  refine ⟨pairs, hm, ?_⟩
  have hpairs := hgroups _ hm
  have hrecords : (fixedRoot.records.filter fun r => r.id = 5) =
      [{ key := toBytes 8 (5 + 3 * 2 ^ 60), value := toBytes 8 2 ++ toBytes 8 5, kOff := 0, vOff := 16 },
        { key := toBytes 8 (5 + 1 * 2 ^ 60), value := toBytes 8 9 ++ toBytes 8 9, kOff := 8, vOff := 32 }] := by
    rfl
  rw [hrecords] at hpairs
  obtain ⟨first, others, hfirst, hothers, rfl⟩ := List.forall₂_cons_left_iff.mp hpairs
  obtain ⟨second, rest, hsecond, hrest, rfl⟩ := List.forall₂_cons_left_iff.mp hothers
  obtain rfl := List.forall₂_nil_left_iff.mp hrest
  simp only [List.map_cons, List.map_nil, hfirst.key, hfirst.value, hsecond.key, hsecond.value,
    hfirst.valueLength (fun _ => by decide), hsecond.valueLength (fun _ => by decide)]
  decide

end SuperBadBlock
