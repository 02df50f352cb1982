import SuperBadBlock.ApfsScanner.Attributes
import SuperBadBlock.ApfsScanner.Extents
import SuperBadBlock.ApfsScanner.Image

namespace SuperBadBlock

open KeyedFold

-- The record type of a file system tree; the other types are not told apart.
def Record.type : Record → Nat
  | inode _ _ _ => APFS_TYPE_INODE
  | fileExtent _ _ => APFS_TYPE_FILE_EXTENT
  | dirRec _ _ _ _ => APFS_TYPE_DIR_REC
  | other _ => APFS_TYPE_ANY

-- Inode, file extent and directory records in the order of a file system tree.
structure LeafRecords (records : List Record) : Prop where
  typed : ∀ record ∈ records, record.type ≠ APFS_TYPE_ANY
  sorted : records.Pairwise fun first second =>
    first.id < second.id ∨ (first.id = second.id ∧ first.type ≤ second.type)

theorem LeafRecords.sublist {first second : List Record} (h : LeafRecords second)
    (hs : first.Sublist second) : LeafRecords first :=
  ⟨fun record hm => h.typed record (hs.subset hm), h.sorted.sublist hs⟩

def holdsInode (records : List Record) (id : Nat) : Bool :=
  records.any fun record => record.isInode && record.id = id

theorem holdsInode_cons (record : Record) (records : List Record) (id : Nat) :
    holdsInode (record :: records) id =
      ((record.isInode && record.id = id) || holdsInode records id) := rfl

theorem holdsInode_iff (records : List Record) (id : Nat) :
    holdsInode records id = true ↔ ∃ record ∈ records, record.isInode = true ∧ record.id = id := by
  simp [holdsInode]

theorem holdsInode_filter (records : List Record) (id : Nat) :
    holdsInode (records.filter fun record => record.id = id) id = holdsInode records id := by
  rw [Bool.eq_iff_iff, holdsInode_iff, holdsInode_iff]
  constructor
  · rintro ⟨record, hm, hinode, hid⟩
    exact ⟨record, (List.mem_filter.mp hm).1, hinode, hid⟩
  · rintro ⟨record, hm, hinode, hid⟩
    exact ⟨record, List.mem_filter.mpr ⟨hm, by simpa using hid⟩, hinode, hid⟩

-- Of the records of one object the inode record comes first.
theorem LeafRecords.inode_first {records : List Record} (h : LeafRecords records) :
    records.Pairwise fun first second =>
      first.id = second.id → second.isInode = true → first.isInode = true := by
  refine h.sorted.imp_of_mem fun {first second} hf _ hlt heq hinode => ?_
  have htype := h.typed first hf
  rcases hlt with hlt | ⟨-, hle⟩
  · exact absurd heq (Nat.ne_of_lt hlt)
  · cases second with
    | inode _ _ _ =>
        cases first with
        | inode _ _ _ => rfl
        | fileExtent _ _ => exact absurd hle (by simp [Record.type]; decide)
        | dirRec _ _ _ _ => exact absurd hle (by simp [Record.type]; decide)
        | other _ => exact absurd rfl htype
    | _ => cases hinode

-- In a sorted group a record is attached exactly if the group has an inode record.
theorem groupTouches_of_sorted (xid id : Nat) (attached : Bool) (records : List Record)
    (hid : ∀ record ∈ records, record.id = id) (h : LeafRecords records) :
    groupTouches xid attached records =
      records.flatMap fun record => (record.touch xid (attached || holdsInode records id)).toList := by
  induction records generalizing attached with
  | nil => rfl
  | cons record records ih =>
      obtain ⟨hhead, htail⟩ := List.forall_mem_cons.mp hid
      obtain ⟨hfirst, -⟩ := List.pairwise_cons.mp h.inode_first
      have hholds : holdsInode (record :: records) id =
          (record.isInode || holdsInode records id) := by
        rw [holdsInode_cons, decide_eq_true hhead, Bool.and_true]
      rw [groupTouches, List.flatMap_cons, hholds, ← Bool.or_assoc,
        ih _ htail (h.sublist (List.sublist_cons_self _ _))]
      congr 1
      cases hinode : record.isInode with
      | true =>
          cases record with
          | inode _ _ _ => rfl
          | _ => cases hinode
      | false =>
          have hnone : holdsInode records id = false := by
            rw [← Bool.not_eq_true, holdsInode_iff]
            rintro ⟨other, hm, ho, hi⟩
            exact absurd (hfirst other hm (hhead.trans hi.symm) ho) (by simp [hinode])
          rw [hnone, Bool.or_false, Bool.or_false]

theorem Node.scanned_of_sorted (node : Node) (h : LeafRecords node.records) :
    node.scanned = node.records :=
  Grouping.flatMap_group_of_sorted (h.sorted.imp fun hlt => by omega)

-- The touches of a sorted node, record by record.
theorem Node.touches_of_sorted (node : Node) (h : LeafRecords node.records) :
    node.touches = node.records.flatMap fun record =>
      (record.touch node.xid (holdsInode node.records record.id)).toList := by
  have hgroups (f : Record → List (Nat × Event)) :
      node.records.flatMap f = node.groups.flatMap fun entry => entry.2.flatMap f := by
    rw [← List.flatMap_assoc]
    exact congrArg (List.flatMap f) (node.scanned_of_sorted h).symm
  rw [hgroups, Node.touches]
  refine List.flatMap_congr fun entry hm => ?_
  have hgroup : entry.2 = node.records.filter fun record => record.id = entry.1 := by
    rw [← Grouping.lookup_of_mem (Grouping.sorted_group _ _) hm, Grouping.lookup_group]
  have hid : ∀ record ∈ entry.2, record.id = entry.1 := Grouping.keyed_group _ _ entry hm
  have hholds : holdsInode entry.2 entry.1 = holdsInode node.records entry.1 := by
    rw [hgroup, holdsInode_filter]
  rw [groupTouches_of_sorted _ entry.1 _ _ hid (h.sublist (hgroup ▸ List.filter_sublist))]
  refine List.flatMap_congr fun record hr => ?_
  rw [Bool.false_or, hholds, hid record hr]

-- The parents that the records of one node give inode `i`.
def parentLinks (i : Nat) (records : List Record) : List Nat :=
  records.filterMap fun
    | .inode id parentId _ => if id = i then some parentId else none
    | .dirRec id fileId _ _ => if fileId = i ∧ holdsInode records id then some id else none
    | _ => none

def extentsOf (i : Nat) (records : List Record) : List EntryExtent :=
  records.filterMap fun
    | .fileExtent id extent => if id = i then some extent else none
    | _ => none

-- What one touch of a record tells about the parent of `i`.
def parentWrite (i : Nat) (attached : Bool) : Record → Option (Option Nat)
  | .inode id parentId _ => if id = i then some (some parentId) else none
  | .dirRec id fileId _ _ =>
      if fileId = i then some (if attached then some id else none) else none
  | _ => none

theorem told_parent_touch (i xid : Nat) (attached : Bool) (record : Record) :
    (eventsAt i (record.touch xid attached).toList).filterMap (parentAttribute i).told =
      ((parentWrite i attached record).map fun write => (xid, write)).toList := by
  cases record with
  | inode id parentId length =>
      by_cases hi : id = i <;> simp [Record.touch, eventsAt, parentWrite, parentAttribute, hi]
  | dirRec id fileId name type =>
      by_cases hi : fileId = i <;> simp [Record.touch, eventsAt, parentWrite, parentAttribute, hi]
  | fileExtent id extent =>
      cases attached <;> by_cases hi : id = i <;>
        simp [Record.touch, eventsAt, parentWrite, parentAttribute, hi]
  | other id => rfl

theorem told_parent_touches (i : Nat) (node : Node) (h : LeafRecords node.records) :
    (eventsAt i node.touches).filterMap (parentAttribute i).told =
      (node.records.filterMap fun record =>
        parentWrite i (holdsInode node.records record.id) record).map fun write =>
          (node.xid, write) := by
  rw [node.touches_of_sorted h, eventsAt_flatMap, List.filterMap_flatMap, List.map_filterMap,
    List.filterMap_eq_flatMap_toList]
  exact List.flatMap_congr fun record _ => told_parent_touch i _ _ record

theorem filterMap_parentWrite (i : Nat) (records : List Record) :
    (records.filterMap fun record =>
      parentWrite i (holdsInode records record.id) record).filterMap id = parentLinks i records := by
  rw [List.filterMap_filterMap, parentLinks]
  refine List.filterMap_congr fun record _ => ?_
  cases record with
  | inode id parentId length => by_cases hi : id = i <;> simp [parentWrite, hi]
  | dirRec id fileId name type =>
      by_cases hi : fileId = i <;> cases hh : holdsInode records id <;>
        simp [parentWrite, Record.id, hi, hh]
  | fileExtent id extent => rfl
  | other id => rfl

theorem told_parent_eventsOf (i : Nat) (nodes : List Node)
    (hleaf : ∀ node ∈ nodes, LeafRecords node.records) :
    (eventsOf i nodes).filterMap (parentAttribute i).told = nodes.flatMap fun node =>
      (node.records.filterMap fun record =>
        parentWrite i (holdsInode node.records record.id) record).map fun write =>
          (node.xid, write) := by
  rw [eventsOf, eventsAt_flatMap, List.filterMap_flatMap]
  exact List.flatMap_congr fun node hm => told_parent_touches i node (hleaf node hm)

-- Batches of one version: the last value wins.
theorem held_of_told {α : Type} {i xid : Nat} (attr : Attribute i α) {nodes : List Node}
    (hxid : ∀ node ∈ nodes, node.xid = xid) (writes : Node → List (Option α))
    (htold : (eventsOf i nodes).filterMap attr.told =
      nodes.flatMap fun node => (writes node).map fun write => (node.xid, write)) {e : Entry}
    (he : (eventsOf i nodes).foldl (fun old event => event.absorb i old) none = some e) :
    attr.held e = (nodes.flatMap fun node => (writes node).filterMap id).getLastD attr.none_held := by
  have hversion : ∀ event ∈ (eventsOf i nodes).filterMap attr.told, event.1 = xid := by
    rw [htold]
    intro event hm
    obtain ⟨node, hnode, hwrite⟩ := List.mem_flatMap.mp hm
    obtain ⟨write, -, rfl⟩ := List.mem_map.mp hwrite
    exact hxid node hnode
  have hfold := congrArg Prod.snd (attr.foldl_absorb (eventsOf i nodes) none)
  rw [he, VersionGate.foldl_step_same _ hversion _ (Nat.zero_le _), htold,
    List.filterMap_flatMap] at hfold
  simp only [List.filterMap_map] at hfold
  exact hfold

theorem parentId_of_sorted {i xid : Nat} {nodes : List Node} (hxid : ∀ node ∈ nodes, node.xid = xid)
    (hleaf : ∀ node ∈ nodes, LeafRecords node.records) {e : Entry}
    (he : (eventsOf i nodes).foldl (fun old event => event.absorb i old) none = some e) :
    e.parentId = (nodes.flatMap fun node => parentLinks i node.records).getLastD 0 := by
  have hheld := held_of_told (parentAttribute i) hxid _ (told_parent_eventsOf i nodes hleaf) he
  simp only [filterMap_parentWrite] at hheld
  exact hheld

-- What a record gives on its own does not depend on the cuts.
theorem held_of_sorted {α : Type} {i xid : Nat} (attr : RecordAttribute i α) {nodes : List Node}
    (hxid : ∀ node ∈ nodes, node.xid = xid)
    (hleaf : ∀ node ∈ nodes, LeafRecords node.records) {e : Entry}
    (he : (eventsOf i nodes).foldl (fun old event => event.absorb i old) none = some e) :
    attr.held e = ((nodes.flatMap Node.records).filterMap attr.given).getLastD attr.none_held := by
  rw [held_of_told attr.toAttribute hxid attr.writes (attr.told_eventsOf nodes) he,
    List.filterMap_flatMap]
  congr 1
  refine List.flatMap_congr fun node hm => ?_
  rw [RecordAttribute.writes, node.scanned_of_sorted (hleaf node hm), List.filterMap_map,
    List.filterMap_filter]
  refine List.filterMap_congr fun record _ => ?_
  split_ifs with hmentions
  · rfl
  · exact (not_not.mp (mt (attr.mentions record) (by simpa using hmentions))).symm

theorem extents_of_sorted {i xid : Nat} {nodes : List Node} (hxid : ∀ node ∈ nodes, node.xid = xid)
    {e : Entry}
    (he : (eventsOf i nodes).foldl (fun old event => event.absorb i old) none = some e) :
    e.extents = nodes.flatMap fun node => attachedExtents i false node.records := by
  have hgen := congrArg Prod.snd (generation_eventsOf i nodes)
  have hmem : ∀ record ∈ attachedTo i nodes, record.1 = xid := by
    intro record hm
    obtain ⟨node, hnode, hextent⟩ := List.mem_flatMap.mp hm
    obtain ⟨extent, -, rfl⟩ := List.mem_map.mp hextent
    exact hxid node hnode
  have hall : (attachedTo i nodes).filter (fun record =>
      record.1 = Generations.newest (attachedTo i nodes)) = attachedTo i nodes := by
    refine List.filter_eq_self.mpr fun record hm => ?_
    obtain ⟨newest, hn, hnewest⟩ := Generations.newest_mem (List.ne_nil_of_mem hm)
    rw [decide_eq_true_eq, ← hnewest, hmem record hm, hmem newest hn]
  rw [he, hall, attachedTo, List.map_flatMap] at hgen
  simp only [List.map_map, Function.comp_def, List.map_id'] at hgen
  exact hgen

theorem attachedExtents_of_sorted (i : Nat) (attached : Bool) (records : List Record)
    (h : LeafRecords records) :
    attachedExtents i attached records =
      if attached || holdsInode records i then extentsOf i records else [] := by
  induction records generalizing attached with
  | nil => simp [attachedExtents, extentsOf]
  | cons record records ih =>
      obtain ⟨hfirst, -⟩ := List.pairwise_cons.mp h.inode_first
      have hi (attached : Bool) := ih attached (h.sublist (List.sublist_cons_self _ _))
      cases record with
      | inode id parentId length =>
          rw [attachedExtents, hi, holdsInode_cons, Bool.or_assoc]
          rfl
      | fileExtent id extent =>
          rw [attachedExtents, hi, holdsInode_cons]
          simp only [Record.isInode, Bool.false_and, Bool.false_or]
          by_cases hid : id = i
          · subst hid
            have hnone : holdsInode records id = false := by
              rw [← Bool.not_eq_true, holdsInode_iff]
              rintro ⟨other, hm, ho, heq⟩
              exact Bool.false_ne_true (hfirst other hm heq.symm ho)
            cases attached <;> simp [hnone, extentsOf]
          · have hext : extentsOf i (.fileExtent id extent :: records) = extentsOf i records := by
              simp [extentsOf, hid]
            simp [hid, hext]
      | dirRec id fileId name type => exact hi attached
      | other id => exact hi attached

-- What the rest of the program sees of an entry.
structure Outcome where
  parentId : Nat
  name : List UInt8
  type : Nat
  length : Nat
  extents : List EntryExtent
deriving DecidableEq

def Entry.outcome (e : Entry) : Outcome where
  parentId := e.parentId
  name := e.name
  type := e.type
  length := e.length
  extents := e.extents

-- What a scan makes of the records of one transaction, cut into nodes.
def outcomeOf (i : Nat) (segments : List (List Record)) : Option Outcome :=
  if ∃ record ∈ segments.flatten, record.Mentions i then
    some {
      parentId := (segments.flatMap (parentLinks i)).getLastD 0
      name := ((segments.flatten.filterMap (nameAttribute i).given).getLastD ([], 0)).1
      type := ((segments.flatten.filterMap (nameAttribute i).given).getLastD ([], 0)).2
      length := (segments.flatten.filterMap (lengthAttribute i).given).getLastD 0
      extents := segments.flatMap (attachedExtents i false) }
  else none

theorem outcome_eventsOf (i xid : Nat) (nodes : List Node) (hxid : ∀ node ∈ nodes, node.xid = xid)
    (hleaf : ∀ node ∈ nodes, LeafRecords node.records) :
    ((eventsOf i nodes).foldl (fun old event => event.absorb i old) none).map Entry.outcome =
      outcomeOf i (nodes.map Node.records) := by
  have hmentions : (∃ record ∈ (nodes.map Node.records).flatten, record.Mentions i) ↔
      eventsOf i nodes ≠ [] := by
    rw [eventsOf_ne_nil_iff, ← List.flatMap_def]
    simp only [List.mem_flatMap]
    exact ⟨fun ⟨record, ⟨node, hn, hr⟩, hm⟩ => ⟨node, hn, record, hr, hm⟩,
      fun ⟨node, hn, record, hr, hm⟩ => ⟨record, ⟨node, hn, hr⟩, hm⟩⟩
  unfold outcomeOf
  by_cases hne : eventsOf i nodes = []
  · rw [if_neg (by simpa [hne] using hmentions), hne]
    rfl
  · obtain ⟨e, he⟩ := Option.isSome_iff_exists.mp
      (isSome_foldl_grounded i _ (grounded_eventsOf i nodes) hne)
    have hname := held_of_sorted (nameAttribute i) hxid hleaf he
    have hlength := held_of_sorted (lengthAttribute i) hxid hleaf he
    rw [List.flatMap_def] at hname hlength
    rw [if_pos (hmentions.mpr hne), he, Option.map_some, Entry.outcome, List.flatMap_map,
      List.flatMap_map, ← parentId_of_sorted hxid hleaf he, ← extents_of_sorted hxid he]
    have hlen : e.length = _ := hlength
    have hn : e.name = _ := congrArg Prod.fst hname
    have ht : e.type = _ := congrArg Prod.snd hname
    rw [hlen, hn, ht]
    rfl

-- A file extent whose inode record was cut off into another node.
def Detached (segments : List (List Record)) : Prop :=
  ∃ segment ∈ segments, ∃ id extent, .fileExtent id extent ∈ segment ∧
    holdsInode segments.flatten id = true ∧ holdsInode segment id = false

theorem extentsOf_eq_nil (i : Nat) (records : List Record) :
    extentsOf i records = [] ↔ ∀ extent, .fileExtent i extent ∉ records := by
  unfold extentsOf
  rw [List.filterMap_eq_nil_iff]
  constructor
  · intro h extent hm
    simpa using h _ hm
  · intro h record hm
    cases record with
    | fileExtent id extent =>
        refine if_neg ?_
        rintro rfl
        exact h extent hm
    | _ => rfl

theorem flatMap_sublist {α β : Type} {f g : α → List β} {l : List α}
    (h : ∀ x ∈ l, (f x).Sublist (g x)) : (l.flatMap f).Sublist (l.flatMap g) := by
  induction l with
  | nil => exact List.Sublist.refl []
  | cons x l ih =>
      obtain ⟨hhead, htail⟩ := List.forall_mem_cons.mp h
      exact hhead.append (ih htail)

theorem flatMap_eq_of_sublist {α β : Type} {f g : α → List β} {l : List α}
    (h : ∀ x ∈ l, (f x).Sublist (g x)) (heq : l.flatMap f = l.flatMap g) :
    ∀ x ∈ l, f x = g x := by
  induction l with
  | nil => simp
  | cons x l ih =>
      obtain ⟨hhead, htail⟩ := List.forall_mem_cons.mp h
      have hlen := congrArg List.length heq
      have hrest := (flatMap_sublist htail).length_le
      have hfirst := hhead.length_le
      simp only [List.flatMap_cons, List.length_append] at hlen
      have hx : f x = g x := hhead.eq_of_length (by omega)
      rw [List.flatMap_cons, List.flatMap_cons, hx, List.append_cancel_left_eq] at heq
      exact List.forall_mem_cons.mpr ⟨hx, ih htail heq⟩

theorem holdsInode_of_mem {segments : List (List Record)} {segment : List Record} {id : Nat}
    (hm : segment ∈ segments) (h : holdsInode segment id = true) :
    holdsInode segments.flatten id = true := by
  rw [holdsInode_iff] at h ⊢
  obtain ⟨record, hr, hinode⟩ := h
  exact ⟨record, List.mem_flatten.mpr ⟨segment, hm, hr⟩, hinode⟩

-- The cuts keep the extents of every inode exactly if they detach none.
theorem extents_kept_iff (segments : List (List Record)) (h : LeafRecords segments.flatten) :
    (∀ i, segments.flatMap (attachedExtents i false) = attachedExtents i false segments.flatten) ↔
      ¬Detached segments := by
  have hsegment : ∀ segment ∈ segments, LeafRecords segment := fun segment hm =>
    h.sublist (List.sublist_flatten_of_mem hm)
  have heach (i : Nat) : ∀ segment ∈ segments, attachedExtents i false segment =
      if holdsInode segment i then extentsOf i segment else [] := fun segment hm => by
    rw [attachedExtents_of_sorted i false segment (hsegment segment hm), Bool.false_or]
  have hall (i : Nat) : extentsOf i segments.flatten = segments.flatMap (extentsOf i) := by
    unfold extentsOf
    rw [List.filterMap_flatten, List.flatMap_def]
  simp only [attachedExtents_of_sorted _ false _ h, Bool.false_or, hall,
    fun i => List.flatMap_congr (heach i)]
  constructor
  · rintro heq ⟨segment, hm, id, extent, hextent, hwhole, hsegment⟩
    have hid := heq id
    rw [if_pos hwhole] at hid
    have hsub : ∀ segment ∈ segments, (if holdsInode segment id then extentsOf id segment else
        []).Sublist (extentsOf id segment) := by
      intro segment _
      split_ifs
      · exact List.Sublist.refl _
      · exact List.nil_sublist _
    have hnil := flatMap_eq_of_sublist hsub hid segment hm
    rw [hsegment, if_neg Bool.false_ne_true, eq_comm, extentsOf_eq_nil] at hnil
    exact hnil extent hextent
  · intro hkept i
    cases hwhole : holdsInode segments.flatten i with
    | false =>
        rw [if_neg Bool.false_ne_true, List.flatMap_eq_nil_iff]
        intro segment hm
        refine if_neg fun hholds => ?_
        rw [holdsInode_of_mem hm hholds] at hwhole
        cases hwhole
    | true =>
        rw [if_pos rfl]
        refine List.flatMap_congr fun segment hm => ?_
        cases hholds : holdsInode segment i with
        | true => exact if_pos rfl
        | false =>
            rw [if_neg Bool.false_ne_true, eq_comm, extentsOf_eq_nil]
            exact fun extent hextent => hkept ⟨segment, hm, i, extent, hextent, hwhole, hholds⟩

-- The leaf nodes of `blocks` are the leaf node of `whole` cut into pieces.
structure Cut (whole : ScannedBlock) (blocks : List ScannedBlock) : Prop where
  whole_leaf : IsLeaf 4096 whole.block
  leaf : ∀ b ∈ blocks, IsLeaf 4096 b.block
  xid : ∀ b ∈ blocks, (nodeOf b.block 4096).xid = (nodeOf whole.block 4096).xid
  records : (blocks.map fun b => (nodeOf b.block 4096).records).flatten =
    (nodeOf whole.block 4096).records
  sorted : LeafRecords (nodeOf whole.block 4096).records

-- Scanning the pieces gives every inode what scanning the whole gives it.
def SameOutcomes (whole : ScannedBlock) (blocks : List ScannedBlock) : Prop :=
  ∀ i, ((scanBlocks {} blocks).fileSystem.cached i).map Entry.outcome =
    ((scanBlocks {} [whole]).fileSystem.cached i).map Entry.outcome

theorem Cut.outcomes {whole : ScannedBlock} {blocks : List ScannedBlock} (h : Cut whole blocks)
    (i : Nat) :
    ((scanBlocks {} blocks).fileSystem.cached i).map Entry.outcome =
      outcomeOf i (blocks.map fun b => (nodeOf b.block 4096).records) ∧
    ((scanBlocks {} [whole]).fileSystem.cached i).map Entry.outcome =
      outcomeOf i [(nodeOf whole.block 4096).records] := by
  have hblocks := scannedNodes_of_isNode fun b hb => (h.leaf b hb).1
  have hwhole := scannedNodes_of_isNode (List.forall_mem_singleton.mpr h.whole_leaf.1)
  rw [cached_scanBlocks, cached_scanBlocks, hblocks, hwhole]
  constructor
  · rw [outcome_eventsOf i (nodeOf whole.block 4096).xid, List.map_map]
    · rfl
    · exact List.forall_mem_map.mpr h.xid
    · refine List.forall_mem_map.mpr fun b hb => h.sorted.sublist ?_
      rw [← h.records]
      exact List.sublist_flatten_of_mem (List.mem_map_of_mem hb)
  · rw [outcome_eventsOf i (nodeOf whole.block 4096).xid]
    · rfl
    · exact List.forall_mem_singleton.mpr rfl
    · exact List.forall_mem_singleton.mpr h.sorted

theorem parentLinks_eq_nil {i : Nat} {records : List Record}
    (h : ¬∃ record ∈ records, record.Mentions i) : parentLinks i records = [] := by
  refine List.filterMap_eq_nil_iff.mpr fun record hm => ?_
  have hnot : ¬record.Mentions i := fun hmentions => h ⟨record, hm, hmentions⟩
  cases record with
  | inode id parentId length => exact if_neg hnot
  | dirRec id fileId name type => exact if_neg fun hlink => hnot hlink.1
  | fileExtent id extent => rfl
  | other id => rfl

theorem attachedExtents_eq_nil {i : Nat} {records : List Record} (hs : LeafRecords records)
    (h : ¬∃ record ∈ records, record.Mentions i) : attachedExtents i false records = [] := by
  rw [attachedExtents_of_sorted i false records hs, if_neg]
  rw [Bool.false_or, holdsInode_iff]
  rintro ⟨record, hm, hinode, hid⟩
  cases record with
  | inode id parentId length => exact h ⟨_, hm, hid⟩
  | _ => cases hinode

theorem outcomeOf_eq_iff (i : Nat) (segments : List (List Record))
    (hs : LeafRecords segments.flatten) :
    outcomeOf i segments = outcomeOf i [segments.flatten] ↔
      (segments.flatMap (parentLinks i)).getLastD 0 =
        (parentLinks i segments.flatten).getLastD 0 ∧
      segments.flatMap (attachedExtents i false) = attachedExtents i false segments.flatten := by
  simp only [outcomeOf, List.flatten_singleton, List.flatMap_singleton]
  by_cases hm : ∃ record ∈ segments.flatten, record.Mentions i
  · simp only [if_pos hm, Option.some.injEq, Outcome.mk.injEq, true_and]
  · have hsegment (segment : List Record) (hseg : segment ∈ segments) :
        ¬∃ record ∈ segment, record.Mentions i := by
      rintro ⟨record, hr, hmentions⟩
      exact hm ⟨record, List.mem_flatten.mpr ⟨segment, hseg, hr⟩, hmentions⟩
    have hparents : segments.flatMap (parentLinks i) = [] :=
      List.flatMap_eq_nil_iff.mpr fun segment hseg => parentLinks_eq_nil (hsegment segment hseg)
    have hextents : segments.flatMap (attachedExtents i false) = [] :=
      List.flatMap_eq_nil_iff.mpr fun segment hseg => attachedExtents_eq_nil
        (hs.sublist (List.sublist_flatten_of_mem hseg)) (hsegment segment hseg)
    simp only [if_neg hm, hparents, hextents, parentLinks_eq_nil hm, attachedExtents_eq_nil hs hm,
      and_self]

-- Cutting a node changes nothing exactly if no file extent is detached from its
-- inode record, and every inode keeps its last parent without the links of the
-- directories that are cut off from theirs.
theorem same_outcomes_iff (whole : ScannedBlock) (blocks : List ScannedBlock) (h : Cut whole blocks) :
    SameOutcomes whole blocks ↔
      ¬Detached (blocks.map fun b => (nodeOf b.block 4096).records) ∧
      ∀ i, ((blocks.map fun b => (nodeOf b.block 4096).records).flatMap (parentLinks i)).getLastD 0 =
        (parentLinks i (nodeOf whole.block 4096).records).getLastD 0 := by
  have hsorted := h.sorted
  rw [← h.records] at hsorted
  unfold SameOutcomes
  simp only [fun i => (h.outcomes i).1, fun i => (h.outcomes i).2, ← h.records,
    fun i => outcomeOf_eq_iff i _ hsorted, ← extents_kept_iff _ hsorted, forall_and]
  exact and_comm

-- The records of a directory and of a file in it.
def directoryRecords : List Record := [.inode 2 1 none, .dirRec 2 5 [97] 8]

def fileRecords : List Record := [.inode 5 2 (some 4096), .fileExtent 5 ⟨0, 40, 4096⟩]

def leafNode (records : List Record) : Node := { xid := 7, flags := 2, records := records }

def leafBlock (records : List Record) : ScannedBlock :=
  { pos := 0, block := nodeImage (leafNode records) }

theorem isLeaf_leafBlock (records : List Record) : IsLeaf 4096 (leafBlock records).block := by
  have hflags : 2 % 2 ^ 16 &&& BTNODE_LEAF ≠ 0 := by decide
  exact isLeaf_nodeImage (leafNode records) hflags

-- Images that decode to their records.
def Decodes (records : List Record) : Prop :=
  nodeOf (leafBlock records).block 4096 = leafNode records

instance (records : List Record) : Decidable (Decodes records) :=
  inferInstanceAs (Decidable (_ = _))

theorem Decodes.records {records : List Record} (h : Decodes records) :
    (nodeOf (leafBlock records).block 4096).records = records := congrArg Node.records h

theorem Decodes.xid {records : List Record} (h : Decodes records) :
    (nodeOf (leafBlock records).block 4096).xid = 7 := congrArg Node.xid h

theorem cut_leafBlocks (first second : List Record) (hfirst : Decodes first)
    (hsecond : Decodes second) (hwhole : Decodes (first ++ second))
    (hsorted : LeafRecords (first ++ second)) :
    Cut (leafBlock (first ++ second)) [leafBlock first, leafBlock second] where
  whole_leaf := isLeaf_leafBlock (first ++ second)
  leaf := List.forall_mem_cons.mpr ⟨isLeaf_leafBlock first, List.forall_mem_singleton.mpr
    (isLeaf_leafBlock second)⟩
  xid := by simp [hfirst.xid, hsecond.xid, hwhole.xid]
  records := by simp [hfirst.records, hsecond.records, hwhole.records]
  sorted := hwhole.records.symm ▸ hsorted

-- A cut between two objects is harmless.
theorem same_outcomes_of_cut_between_objects :
    SameOutcomes (leafBlock (directoryRecords ++ fileRecords))
      [leafBlock directoryRecords, leafBlock fileRecords] := by
  have hdirectory : Decodes directoryRecords := by decide +kernel
  have hfile : Decodes fileRecords := by decide +kernel
  have hwhole : Decodes (directoryRecords ++ fileRecords) := by decide +kernel
  refine (same_outcomes_iff _ _ (cut_leafBlocks directoryRecords fileRecords hdirectory hfile hwhole
    ⟨by decide, by decide⟩)).mpr ⟨?_, fun i => ?_⟩
  · simp only [List.map_cons, List.map_nil, hdirectory.records, hfile.records]
    simp [Detached, directoryRecords, fileRecords, holdsInode, Record.isInode, Record.id]
  · simp only [List.map_cons, List.map_nil, hdirectory.records, hfile.records, hwhole.records]
    have hlinks : [directoryRecords, fileRecords].flatMap (parentLinks i) =
        parentLinks i (directoryRecords ++ fileRecords) := by
      by_cases h2 : i = 2
      · subst h2
        decide
      by_cases h5 : i = 5
      · subst h5
        decide
      -- no other inode has a link
      simp [parentLinks, directoryRecords, fileRecords, Ne.symm h2, Ne.symm h5]
    rw [hlinks]

-- A cut between an inode record and the file extent behind it loses the extent.
theorem extent_lost_at_cut :
    Cut (leafBlock ([.inode 5 2 (some 4096)] ++ [.fileExtent 5 ⟨0, 40, 4096⟩]))
      [leafBlock [.inode 5 2 (some 4096)], leafBlock [.fileExtent 5 ⟨0, 40, 4096⟩]] ∧
    ¬SameOutcomes (leafBlock ([.inode 5 2 (some 4096)] ++ [.fileExtent 5 ⟨0, 40, 4096⟩]))
      [leafBlock [.inode 5 2 (some 4096)], leafBlock [.fileExtent 5 ⟨0, 40, 4096⟩]] := by
  have hinode : Decodes [.inode 5 2 (some 4096)] := by decide +kernel
  have hextent : Decodes [.fileExtent 5 ⟨0, 40, 4096⟩] := by decide +kernel
  have hwhole : Decodes ([.inode 5 2 (some 4096)] ++ [.fileExtent 5 ⟨0, 40, 4096⟩]) := by
    decide +kernel
  have hcut := cut_leafBlocks _ _ hinode hextent hwhole ⟨by decide, by decide⟩
  refine ⟨hcut, fun h => ?_⟩
  have hfive := h 5
  rw [(hcut.outcomes 5).1, (hcut.outcomes 5).2, hwhole.records] at hfive
  simp only [List.map_cons, List.map_nil, hinode.records, hextent.records] at hfive
  exact absurd hfive (by decide)

end SuperBadBlock
