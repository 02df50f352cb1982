import SuperBadBlock.ApfsScanner.Attributes
import SuperBadBlock.ApfsScanner.Encode
import SuperBadBlock.ApfsScanner.Extents
import SuperBadBlock.FileSystem.Reopen

namespace SuperBadBlock

open KeyedFold

-- A file or a directory of a volume; a directory has no data stream, and so no length.
structure VolumeFile where
  inode : Nat
  parentId : Nat
  name : List UInt8
  type : Nat
  length : Option Nat
  extents : List EntryExtent
deriving DecidableEq

namespace VolumeFile

variable (file : VolumeFile)

def inodeRecord : Record := .inode file.inode file.parentId file.length

def dirRecord : Record := .dirRec file.parentId file.inode file.name file.type

-- The entry is the one of the file; the order of its extents is left open.
structure Shown (e : Entry) : Prop where
  inode : e.inode = file.inode
  parentId : e.parentId = file.parentId
  name : e.name = file.name
  type : e.type = file.type
  length : e.length = file.length.getD 0
  extents : e.extents.Perm file.extents

-- The extents of the newest generation.
def newestExtents (i : Nat) (nodes : List Node) : List EntryExtent :=
  ((attachedTo i nodes).filter fun record =>
    record.1 = Generations.newest (attachedTo i nodes)).map Prod.snd

-- Among the nodes that mention the file, those of the newest transaction agree on it and
-- hold both its records. Older generations say what they like, but for a length where
-- there is none.
structure Described (nodes : List Node) (xid : Nat) : Prop where
  newest : ∀ node ∈ nodes, ∀ record ∈ node.records, record.Mentions file.inode → node.xid ≤ xid
  agree : ∀ node ∈ nodes, node.xid = xid → ∀ record ∈ node.records, record.Mentions file.inode →
    record = file.inodeRecord ∨ record = file.dirRecord
  inodeRecord : ∃ node ∈ nodes, node.xid = xid ∧ file.inodeRecord ∈ node.records
  dirRecord : ∃ node ∈ nodes, node.xid = xid ∧ file.dirRecord ∈ node.records
  length : file.length = none → ∀ node ∈ nodes, ∀ parentId length,
    .inode file.inode parentId length ∈ node.records → length = none
  extents : (newestExtents file.inode nodes).Perm file.extents

end VolumeFile

section Events

theorem exists_record_of_touch {xid : Nat} {attached : Bool} {records : List Record}
    {touch : Nat × Event} (h : touch ∈ groupTouches xid attached records) :
    ∃ record ∈ records, ∃ attached, record.touch xid attached = some touch := by
  induction records generalizing attached with
  | nil => cases h
  | cons record records ih =>
      rw [groupTouches, List.mem_append, Option.mem_toList] at h
      rcases h with h | h
      · exact ⟨record, List.mem_cons_self, attached, h⟩
      · obtain ⟨other, hm, htouch⟩ := ih h
        exact ⟨other, List.mem_cons_of_mem _ hm, htouch⟩

theorem exists_touch_of_record (xid : Nat) (attached : Bool) {records : List Record}
    {record : Record} (h : record ∈ records) :
    ∃ attached', ∀ touch, record.touch xid attached' = some touch →
      touch ∈ groupTouches xid attached records := by
  induction records generalizing attached with
  | nil => cases h
  | cons first records ih =>
      rcases List.mem_cons.mp h with rfl | h
      · refine ⟨attached, fun touch htouch => ?_⟩
        rw [groupTouches, htouch]
        exact List.mem_append_left _ (Option.mem_toList.mpr rfl)
      · obtain ⟨attached', htouch⟩ := ih (attached || first.isInode) h
        exact ⟨attached', fun touch ht => List.mem_append_right _ (htouch touch ht)⟩

variable {i : Nat} {nodes : List Node}

-- Every event comes from a record of a node, and carries the `o_xid` of that node.
theorem exists_record_of_event {event : Event} (h : event ∈ eventsOf i nodes) :
    ∃ node ∈ nodes, ∃ record ∈ node.records, ∃ attached,
      record.touch node.xid attached = some (i, event) := by
  obtain ⟨node, hnode, htouch⟩ := List.mem_flatMap.mp ((mem_eventsAt _ _ _).mp h)
  obtain ⟨entry, hentry, hgroup⟩ := List.mem_flatMap.mp htouch
  obtain ⟨record, hrecord, hfound⟩ := exists_record_of_touch hgroup
  exact ⟨node, hnode, record,
    Node.mem_scanned.mp (List.mem_flatMap.mpr ⟨entry, hentry, hrecord⟩), hfound⟩

theorem exists_event_of_record {node : Node} (hnode : node ∈ nodes) {record : Record}
    (hrecord : record ∈ node.records) :
    ∃ attached, ∀ event, record.touch node.xid attached = some (i, event) →
      event ∈ eventsOf i nodes := by
  obtain ⟨entry, hentry, hm⟩ := List.mem_flatMap.mp (Node.mem_scanned.mpr hrecord)
  obtain ⟨attached, htouch⟩ := exists_touch_of_record node.xid false hm
  refine ⟨attached, fun event hevent => (mem_eventsAt _ _ _).mpr ?_⟩
  exact List.mem_flatMap.mpr ⟨node, hnode, List.mem_flatMap.mpr ⟨entry, hentry, htouch _ hevent⟩⟩

end Events

namespace VolumeFile

variable {file : VolumeFile} {nodes : List Node} {xid : Nat}

-- What the events of the newest transaction say about the file.
theorem Described.event (h : file.Described nodes xid) {event : Event}
    (hm : event ∈ eventsOf file.inode nodes) (hextent : event.extent? = none) :
    event.xid ≤ xid ∧ (event.xid = xid →
      event = .inode xid file.parentId file.length ∨
      ∃ parentId, (parentId = none ∨ parentId = some file.parentId) ∧
        event = .dirRec xid parentId file.name file.type) := by
  obtain ⟨node, hnode, record, hrecord, attached, htouch⟩ := exists_record_of_event hm
  have hxid := xid_of_touch htouch
  have hmentions : record.Mentions file.inode := by
    cases record with
    | inode id parentId length => exact congrArg Prod.fst (Option.some.inj htouch)
    | dirRec id fileId name type => exact congrArg Prod.fst (Option.some.inj htouch)
    | fileExtent id extent =>
        cases attached with
        | false => cases htouch
        | true =>
            cases htouch
            cases hextent
    | other id => cases htouch
  rw [hxid]
  refine ⟨h.newest node hnode record hrecord hmentions, fun heq => ?_⟩
  rcases h.agree node hnode heq record hrecord hmentions with rfl | rfl
  · left
    have htold := congrArg Prod.snd (Option.some.inj htouch)
    exact htold.symm.trans (by rw [heq])
  · right
    have htold := congrArg Prod.snd (Option.some.inj htouch)
    refine ⟨if attached then some file.parentId else none, ?_, htold.symm.trans (by rw [heq])⟩
    cases attached
    · exact Or.inl rfl
    · exact Or.inr rfl

theorem Described.inode_event (h : file.Described nodes xid) :
    .inode xid file.parentId file.length ∈ eventsOf file.inode nodes := by
  obtain ⟨node, hnode, rfl, hrecord⟩ := h.inodeRecord
  obtain ⟨attached, hevent⟩ := exists_event_of_record (i := file.inode) hnode hrecord
  exact hevent _ rfl

theorem Described.dir_event (h : file.Described nodes xid) :
    ∃ parentId, .dirRec xid parentId file.name file.type ∈ eventsOf file.inode nodes := by
  obtain ⟨node, hnode, rfl, hrecord⟩ := h.dirRecord
  obtain ⟨attached, hevent⟩ := exists_event_of_record (i := file.inode) hnode hrecord
  exact ⟨_, hevent _ rfl⟩

-- What the newest records agree on is what the entry holds, whatever older ones say and
-- in whatever order they come.
theorem Described.held {α : Type} (h : file.Described nodes xid) (attr : Attribute file.inode α)
    {e : Entry} (he : (eventsOf file.inode nodes).foldl
      (fun old event => event.absorb file.inode old) none = some e)
    {a : α} (hextent : ∀ xid added, attr.told (.extent xid added) = none)
    (hinode : ∀ b, attr.told (.inode xid file.parentId file.length) = some (xid, some b) → b = a)
    (hdir : ∀ parentId, parentId = none ∨ parentId = some file.parentId → ∀ b,
      attr.told (.dirRec xid parentId file.name file.type) = some (xid, some b) → b = a)
    (hgiven : ∃ event ∈ eventsOf file.inode nodes, attr.told event = some (xid, some a)) :
    attr.held e = a := by
  have htold : ∀ event ∈ eventsOf file.inode nodes, ∀ write, attr.told event = some write →
      event.extent? = none := by
    intro event _ write htold
    cases event with
    | inode xid' parentId length => rfl
    | dirRec xid' parentId name type => rfl
    | extent xid' added =>
        rw [hextent] at htold
        cases htold
  have hrun : ((eventsOf file.inode nodes).filterMap attr.told).foldl VersionGate.step
      (0, attr.none_held) = (xid, a) := by
    refine VersionGate.foldl_step_of_newest _ _ (Nat.zero_le _) (fun write hm => ?_) (fun b hb => ?_)
      (Or.inl ?_)
    · obtain ⟨event, hevent, hwrite⟩ := List.mem_filterMap.mp hm
      rw [attr.stamped event write hwrite]
      exact (h.event hevent (htold event hevent write hwrite)).1
    · obtain ⟨event, hevent, hwrite⟩ := List.mem_filterMap.mp hb
      have hxid : event.xid = xid := (attr.stamped event _ hwrite).symm
      rcases (h.event hevent (htold event hevent _ hwrite)).2 hxid with rfl | ⟨parentId, hparent, rfl⟩
      · exact hinode b hwrite
      · exact hdir parentId hparent b hwrite
    · obtain ⟨event, hevent, hwrite⟩ := hgiven
      exact List.mem_filterMap.mpr ⟨event, hevent, hwrite⟩
  have hfold := attr.foldl_absorb (eventsOf file.inode nodes) none
  rw [he] at hfold
  exact congrArg Prod.snd (hfold.trans hrun)

-- A file without a length gets none from any generation.
theorem Described.length_of_none (h : file.Described nodes xid) (hnone : file.length = none)
    {e : Entry} (he : (eventsOf file.inode nodes).foldl
      (fun old event => event.absorb file.inode old) none = some e) : e.length = 0 := by
  have hfold := (lengthAttribute file.inode).foldl_absorb (eventsOf file.inode nodes) none
  rw [he] at hfold
  refine (congrArg Prod.snd hfold).trans (VersionGate.foldl_step_snd_of_none _ _ fun write hm => ?_)
  obtain ⟨event, hevent, htold⟩ := List.mem_filterMap.mp hm
  obtain ⟨node, hnode, record, hrecord, attached, htouch⟩ := exists_record_of_event hevent
  cases record with
  | inode id parentId length =>
      cases htouch
      cases htold
      exact h.length hnone node hnode parentId length hrecord
  | dirRec id fileId name type =>
      cases htouch
      cases htold
      rfl
  | fileExtent id extent =>
      cases attached with
      | false => cases htouch
      | true =>
          cases htouch
          cases htold
  | other id => cases htouch

-- The entry that the events leave is the one of the file.
theorem Described.shown (h : file.Described nodes xid) {e : Entry} (hinode : e.inode = file.inode)
    (he : (eventsOf file.inode nodes).foldl (fun old event => event.absorb file.inode old) none =
      some e) : file.Shown e := by
  obtain ⟨dirParent, hdir⟩ := h.dir_event
  have hparent : e.parentId = file.parentId := by
    refine h.held (parentAttribute file.inode) he (fun _ _ => rfl) (fun b htold => ?_)
      (fun parentId hparentId b htold => ?_) ⟨_, h.inode_event, rfl⟩
    · cases htold
      rfl
    · cases htold
      rcases hparentId with hnone | hsome
      · cases hnone
      · exact Option.some.inj hsome
  have hname : (e.name, e.type) = (file.name, file.type) := by
    refine h.held (nameAttribute file.inode).toAttribute he (fun _ _ => rfl) (fun b htold => ?_)
      (fun parentId _ b htold => ?_) ⟨_, hdir, rfl⟩
    · cases htold
    · cases htold
      rfl
  have hlength : e.length = file.length.getD 0 := by
    cases hsize : file.length with
    | none => exact h.length_of_none hsize he
    | some size =>
        refine h.held (lengthAttribute file.inode).toAttribute he (fun _ _ => rfl) (fun b htold => ?_)
          (fun parentId _ b htold => ?_) ⟨_, h.inode_event, congrArg (fun l => some (xid, l)) hsize⟩
        · have hlengths := congrArg Prod.snd (Option.some.inj htold)
          exact Option.some.inj (hlengths.symm.trans hsize)
        · cases htold
  have hextents : e.extents = newestExtents file.inode nodes := by
    have hgeneration := generation_eventsOf file.inode nodes
    rw [he] at hgeneration
    exact congrArg Prod.snd hgeneration
  exact ⟨hinode, hparent, congrArg Prod.fst hname, congrArg Prod.snd hname, hlength,
    hextents ▸ h.extents⟩

theorem newestExtents_perm (i : Nat) {nodes' : List Node} (h : nodes'.Perm nodes) :
    (newestExtents i nodes').Perm (newestExtents i nodes) := by
  have hattached : (attachedTo i nodes').Perm (attachedTo i nodes) := h.flatMap_right _
  rw [newestExtents, newestExtents, Generations.newest_perm hattached]
  exact (hattached.filter _).map _

-- The order of the nodes is of no account.
theorem Described.perm (h : file.Described nodes xid) {nodes' : List Node}
    (hperm : nodes'.Perm nodes) : file.Described nodes' xid where
  newest node hm := h.newest node (hperm.mem_iff.mp hm)
  agree node hm := h.agree node (hperm.mem_iff.mp hm)
  inodeRecord := by
    obtain ⟨node, hm, hrecord⟩ := h.inodeRecord
    exact ⟨node, hperm.mem_iff.mpr hm, hrecord⟩
  dirRecord := by
    obtain ⟨node, hm, hrecord⟩ := h.dirRecord
    exact ⟨node, hperm.mem_iff.mpr hm, hrecord⟩
  length hnone node hm := h.length hnone node (hperm.mem_iff.mp hm)
  extents := (newestExtents_perm file.inode hperm).trans h.extents

theorem Described.cached (h : file.Described nodes xid) {blocks : List ScannedBlock}
    (hnodes : scannedNodes 4096 blocks = nodes) :
    ∃ e, (scanBlocks {} blocks).fileSystem.cached file.inode = some e ∧ file.Shown e := by
  have hconsistent := Reachable.consistent ⟨blocks, rfl⟩
  obtain ⟨node, hnode, -, hrecord⟩ := h.inodeRecord
  have hsome : ((scanBlocks {} blocks).fileSystem.cached file.inode).isSome :=
    (cached_isSome_iff blocks file.inode).mpr ⟨node, hnodes ▸ hnode, _, hrecord, rfl⟩
  obtain ⟨e, he⟩ := Option.isSome_iff_exists.mp hsome
  refine ⟨e, he, h.shown (hconsistent.cached_inode he) ?_⟩
  rw [← hnodes, ← cached_scanBlocks]
  exact he

theorem Shown.congr {e e' : Entry} (h : file.Shown e) (hsame : SameFile e e') : file.Shown e' where
  inode := hsame.inode.trans h.inode
  parentId := hsame.parentId.trans h.parentId
  name := hsame.name.trans h.name
  type := hsame.type.trans h.type
  length := hsame.length.trans h.length
  extents := hsame.extents.trans h.extents

theorem Described.row (h : file.Described nodes xid) {blocks : List ScannedBlock}
    (hnodes : scannedNodes 4096 blocks = nodes) :
    ∃ row ∈ (scanBlocks {} blocks).fileSystem.entry,
      file.Shown (FileSystem.loaded (scanBlocks {} blocks).fileSystem.extent row) := by
  have hconsistent := Reachable.consistent ⟨blocks, rfl⟩
  obtain ⟨e, he, hshown⟩ := h.cached hnodes
  refine ⟨e.row, hconsistent.row_mem he, ?_⟩
  obtain ⟨e', he', hsame⟩ := hconsistent.sameFile_loaded (hconsistent.row_mem he)
  rw [e.inode_row, hshown.inode, he] at he'
  exact hshown.congr (Option.some.inj he' ▸ hsame)

end VolumeFile

-- The files of a volume. There is a root, no two files share their inode, and none
-- share both parent and name.
structure Volume where
  files : List VolumeFile
  root : 2 ∈ files.map VolumeFile.inode
  inodes : (files.map VolumeFile.inode).Nodup
  names : (files.map fun file => (file.parentId, file.name)).Nodup

namespace Volume

variable (V : Volume)

-- The nodes describe every file of the volume, and mention no other, in whatever generation.
structure Recoverable (nodes : List Node) : Prop where
  described : ∀ file ∈ V.files, ∃ xid, file.Described nodes xid
  closed : ∀ node ∈ nodes, ∀ record ∈ node.records, ∀ i, record.Mentions i →
    i ∈ V.files.map VolumeFile.inode

-- The tables hold one row for each file, and no other.
def Stored (fs : FileSystem) : Prop :=
  ∃ rows, rows.Perm fs.entry ∧
    List.Forall₂ (fun file row => file.Shown (FileSystem.loaded fs.extent row)) V.files rows

variable {V} {nodes : List Node}

theorem Recoverable.perm (h : V.Recoverable nodes) {nodes' : List Node} (hperm : nodes'.Perm nodes) :
    V.Recoverable nodes' where
  described file hm := by
    obtain ⟨xid, hdescribed⟩ := h.described file hm
    exact ⟨xid, hdescribed.perm hperm⟩
  closed node hm := h.closed node (hperm.mem_iff.mp hm)

theorem Recoverable.isSome_cached_iff (h : V.Recoverable nodes) {blocks : List ScannedBlock}
    (hnodes : scannedNodes 4096 blocks = nodes) (i : Nat) :
    ((scanBlocks {} blocks).fileSystem.cached i).isSome ↔ i ∈ V.files.map VolumeFile.inode := by
  constructor
  · intro hsome
    obtain ⟨node, hnode, record, hrecord, hmentions⟩ := (cached_isSome_iff blocks i).mp hsome
    exact h.closed node (hnodes ▸ hnode) record hrecord i hmentions
  · intro hi
    obtain ⟨file, hm, rfl⟩ := List.mem_map.mp hi
    obtain ⟨xid, hdescribed⟩ := h.described file hm
    obtain ⟨e, he, -⟩ := hdescribed.cached hnodes
    exact Option.isSome_iff_exists.mpr ⟨e, he⟩

end Volume

section Format

-- The records of a file: its name in the directory, its inode, and where its data lies.
def VolumeFile.records (file : VolumeFile) : List Record :=
  file.dirRecord :: file.inodeRecord :: file.extents.map (.fileExtent file.inode)

-- A leaf with the records of a file.
def VolumeFile.node (xid : Nat) (file : VolumeFile) : Node where
  xid := xid
  flags := BTNODE_LEAF
  records := file.records

-- One leaf for each file, all of one transaction.
def Volume.format (V : Volume) (xid : Nat) : List Node := V.files.map (VolumeFile.node xid)

theorem attachedExtents_map_fileExtent (i id : Nat) (attached : Bool) (extents : List EntryExtent) :
    attachedExtents i attached (extents.map (.fileExtent id)) =
      if id = i ∧ attached then extents else [] := by
  induction extents with
  | nil => simp [attachedExtents]
  | cons extent extents ih =>
      rw [List.map_cons, attachedExtents, ih]
      split_ifs <;> rfl

theorem attachedExtents_records (i : Nat) (file : VolumeFile) :
    attachedExtents i false file.records = if file.inode = i then file.extents else [] := by
  have hextents := attachedExtents_map_fileExtent i file.inode (file.inode = i) file.extents
  simp only [VolumeFile.records, VolumeFile.dirRecord, VolumeFile.inodeRecord, attachedExtents,
    Bool.false_or, hextents, decide_eq_true_eq, and_self]

-- A record of a file mentions that file.
theorem mentions_records {file : VolumeFile} {record : Record} (h : record ∈ file.records) {i : Nat}
    (hi : record.Mentions i) :
    file.inode = i ∧ (record = file.inodeRecord ∨ record = file.dirRecord) := by
  rcases List.mem_cons.mp h with rfl | h
  · exact ⟨hi, Or.inr rfl⟩
  · rcases List.mem_cons.mp h with rfl | h
    · exact ⟨hi, Or.inl rfl⟩
    · obtain ⟨extent, -, rfl⟩ := List.mem_map.mp h
      exact absurd hi id

-- Of the files, one has the inode.
theorem flatMap_of_inode {α : Type} (f : VolumeFile → List α) {files : List VolumeFile}
    (hinodes : (files.map VolumeFile.inode).Nodup) {file : VolumeFile} (hm : file ∈ files) :
    (files.flatMap fun other => if other.inode = file.inode then f other else []) = f file := by
  induction files with
  | nil => cases hm
  | cons first files ih =>
      obtain ⟨hfresh, hinodes⟩ := List.nodup_cons.mp hinodes
      rw [List.flatMap_cons]
      rcases List.mem_cons.mp hm with rfl | hm
      · have hrest : (files.flatMap fun other => if other.inode = file.inode then f other else []) =
            [] := by
          rw [List.flatMap_eq_nil_iff]
          intro other hother
          exact if_neg fun hinode => hfresh (List.mem_map.mpr ⟨other, hother, hinode⟩)
        rw [if_pos rfl, hrest, List.append_nil]
      · have hne : first.inode ≠ file.inode := fun hinode =>
          hfresh (List.mem_map.mpr ⟨file, hm, hinode.symm⟩)
        rw [if_neg hne, List.nil_append, ih hinodes hm]

theorem newestExtents_format (V : Volume) (xid : Nat) {file : VolumeFile} (hm : file ∈ V.files) :
    VolumeFile.newestExtents file.inode (V.format xid) = file.extents := by
  have hattached : attachedTo file.inode (V.format xid) =
      file.extents.map fun extent => (xid, extent) := by
    rw [← flatMap_of_inode (fun other => other.extents.map fun extent => (xid, extent)) V.inodes hm,
      attachedTo, Volume.format, List.flatMap_map]
    refine List.flatMap_congr fun other _ => ?_
    simp only [VolumeFile.node, attachedExtents_records]
    split_ifs <;> rfl
  rw [VolumeFile.newestExtents, hattached, Generations.filter_newest_of_same]

-- A formatted volume can be recovered.
theorem recoverable_format (V : Volume) (xid : Nat) : V.Recoverable (V.format xid) := by
  have hfile : ∀ node ∈ V.format xid, ∃ file ∈ V.files, node = file.node xid := by
    intro node hnode
    obtain ⟨file, hm, rfl⟩ := List.mem_map.mp hnode
    exact ⟨file, hm, rfl⟩
  refine ⟨fun file hm => ⟨xid, ?_⟩, fun node hnode record hrecord i hi => ?_⟩
  · have hnode : file.node xid ∈ V.format xid := List.mem_map_of_mem hm
    refine ⟨?_, ?_, ⟨_, hnode, rfl, ?_⟩, ⟨_, hnode, rfl, ?_⟩, ?_, ?_⟩
    · intro node hn record _ _
      obtain ⟨other, -, rfl⟩ := hfile node hn
      exact Nat.le_refl xid
    · intro node hn _ record hrecord hmentions
      obtain ⟨other, hother, rfl⟩ := hfile node hn
      obtain ⟨hinode, hrecords⟩ := mentions_records hrecord hmentions
      obtain rfl := List.inj_on_of_nodup_map V.inodes hother hm hinode
      exact hrecords
    · exact List.mem_cons_of_mem _ List.mem_cons_self
    · exact List.mem_cons_self
    · intro hnone node hn parentId length hrecord
      obtain ⟨other, hother, rfl⟩ := hfile node hn
      obtain ⟨hinode, hrecords⟩ := mentions_records hrecord (i := file.inode) rfl
      obtain rfl := List.inj_on_of_nodup_map V.inodes hother hm hinode
      rcases hrecords with heq | heq
      · cases heq
        exact hnone
      · cases heq
    · rw [newestExtents_format V xid hm]
  · obtain ⟨file, hm, rfl⟩ := hfile node hnode
    obtain ⟨rfl, -⟩ := mentions_records hrecord hi
    exact List.mem_map_of_mem hm

end Format

-- Partners that are found one by one, taken together.
theorem exists_forall₂ {α β : Type} {R : α → β → Prop} {l : List α} {m : List β}
    (h : ∀ x ∈ l, ∃ y ∈ m, R x y) : ∃ ys, List.Forall₂ R l ys ∧ ∀ y ∈ ys, y ∈ m := by
  induction l with
  | nil => exact ⟨[], .nil, by simp⟩
  | cons x l ih =>
      obtain ⟨⟨y, hy, hxy⟩, htail⟩ := List.forall_mem_cons.mp h
      obtain ⟨ys, hys, hmem⟩ := ih htail
      exact ⟨y :: ys, .cons hxy hys, List.forall_mem_cons.mpr ⟨hy, hmem⟩⟩

theorem map_inode_of_shown {extent : List ExtentRow} {files : List VolumeFile} {rows : List EntryRow}
    (h : List.Forall₂ (fun file row => file.Shown (FileSystem.loaded extent row)) files rows) :
    rows.map EntryRow.inode = files.map VolumeFile.inode := by
  induction h with
  | nil => rfl
  | cons hshown _ ih => exact congrArg₂ List.cons hshown.inode ih

theorem Volume.Recoverable.stored {V : Volume} {nodes : List Node} (h : V.Recoverable nodes)
    {blocks : List ScannedBlock} (hnodes : scannedNodes 4096 blocks = nodes) :
    V.Stored (scanBlocks {} blocks).fileSystem := by
  have hconsistent := Reachable.consistent ⟨blocks, rfl⟩
  have hrow (file : VolumeFile) (hm : file ∈ V.files) :
      ∃ row ∈ (scanBlocks {} blocks).fileSystem.entry,
        file.Shown (FileSystem.loaded (scanBlocks {} blocks).fileSystem.extent row) := by
    obtain ⟨xid, hdescribed⟩ := h.described file hm
    exact hdescribed.row hnodes
  generalize hfs : (scanBlocks {} blocks).fileSystem = fs at hconsistent hrow ⊢
  obtain ⟨rows, hrows, hmem⟩ := exists_forall₂ hrow
  have hinodes := map_inode_of_shown hrows
  refine ⟨rows, ?_, hrows⟩
  rw [List.perm_ext_iff_of_nodup (List.Nodup.of_map EntryRow.inode (hinodes ▸ V.inodes))
    (List.Nodup.of_map _ hconsistent.rows_nodup)]
  refine fun row => ⟨hmem row, fun hentry => ?_⟩
  have hinode : row.inode ∈ rows.map EntryRow.inode := by
    rw [hinodes, ← h.isSome_cached_iff hnodes, hfs, ← hconsistent.mem_inodes]
    exact List.mem_map_of_mem hentry
  obtain ⟨other, hother, heq⟩ := List.mem_map.mp hinode
  obtain rfl := List.inj_on_of_nodup_map hconsistent.rows_nodup (hmem other hother) hentry heq
  exact hother

-- Whatever order the nodes are met in, and whatever older generations of them are among
-- them, a scan leaves in the cache and in the tables the files of the volume as they were
-- last. Beside them there are rows of the inodes that are mentioned somewhere and of no other,
-- so that nothing else is there if the nodes of all generations are of the volume alone.
theorem volume_recovered (V : Volume) (nodes : List Node)
    (h : ∀ file ∈ V.files, ∃ xid, file.Described nodes xid)
    (blocks : List ScannedBlock) (horder : (scannedNodes 4096 blocks).Perm nodes) :
    let fs := (scanBlocks {} blocks).fileSystem
    (∀ file ∈ V.files, ∃ e, fs.cached file.inode = some e ∧ file.Shown e) ∧
    (∀ file ∈ V.files, ∃ row ∈ fs.entry, file.Shown (FileSystem.loaded fs.extent row)) ∧
    (fs.entry.map EntryRow.inode).Nodup ∧
    (∀ i, i ∈ fs.entry.map EntryRow.inode ↔
      ∃ node ∈ nodes, ∃ record ∈ node.records, record.Mentions i) ∧
    (V.Recoverable nodes → V.Stored fs) := by
  intro fs
  have hconsistent : fs.Consistent := Reachable.consistent ⟨blocks, rfl⟩
  have hdescribed : ∀ file ∈ V.files, ∃ xid, file.Described (scannedNodes 4096 blocks) xid := by
    intro file hm
    obtain ⟨xid, hfile⟩ := h file hm
    exact ⟨xid, hfile.perm horder⟩
  refine ⟨fun file hm => ?_, fun file hm => ?_, hconsistent.rows_nodup, fun i => ?_, fun hnodes =>
    (hnodes.perm horder).stored rfl⟩
  · obtain ⟨xid, hfile⟩ := hdescribed file hm
    exact hfile.cached rfl
  · obtain ⟨xid, hfile⟩ := hdescribed file hm
    exact hfile.row rfl
  · rw [hconsistent.mem_inodes, cached_isSome_iff]
    simp only [horder.mem_iff]

theorem scannedNodes_map_encodeNode {nodes : List Node} (h : ∀ node ∈ nodes, node.Encodable) :
    scannedNodes 4096 (nodes.map fun node => { pos := 0, block := encodeNode node }) = nodes := by
  rw [scannedNodes_of_isNode, List.map_map]
  · exact (List.map_congr_left fun node hm => nodeOf_encodeNode (h node hm)).trans (List.map_id nodes)
  · exact List.forall_mem_map.mpr fun node hm => isNode_encodeNode (h node hm)

-- The root directory, and a file of six bytes in it.
def smallVolume : Volume where
  files := [
    { inode := 2, parentId := 1, name := [114, 111, 111, 116], type := 4, length := none, extents := [] },
    { inode := 16, parentId := 2, name := [97], type := 8, length := some 6, extents := [⟨0, 3, 4096⟩] }]
  root := by decide
  inodes := by decide
  names := by decide

def smallFile : VolumeFile where
  inode := 16
  parentId := 2
  name := [97]
  type := 8
  length := some 6
  extents := [⟨0, 3, 4096⟩]

theorem encodable_smallVolume : ∀ node ∈ smallVolume.format 7, node.Encodable := by
  have hall : ∀ node ∈ smallVolume.format 7, node.xid < 2 ^ 64 ∧ node.flags < 2 ^ 16 ∧
      ¬node.flags &&& BTNODE_FIXED_KV_SIZE ≠ 0 ∧ (∀ record ∈ node.records, record.Fits) ∧
      node.usedSpace ≤ node.placed.valueEnd := by decide +kernel
  intro node hm
  obtain ⟨hxid, hflags, hvariable, hfit, hspace⟩ := hall node hm
  exact ⟨hxid, hflags, hvariable, hfit, hspace⟩

-- Its nodes, met in the other order.
theorem volume_recovered_of_smallVolume :
    smallVolume.Stored (scanBlocks {} ((smallVolume.format 7).reverse.map fun node =>
      { pos := 0, block := encodeNode node })).fileSystem := by
  have hencodable : ∀ node ∈ (smallVolume.format 7).reverse, node.Encodable :=
    fun node hm => encodable_smallVolume node (List.mem_reverse.mp hm)
  have hnodes := scannedNodes_map_encodeNode hencodable
  have hrecoverable := recoverable_format smallVolume 7
  refine (volume_recovered smallVolume (smallVolume.format 7) hrecoverable.described _ ?_).2.2.2.2
    hrecoverable
  rw [hnodes]
  exact List.reverse_perm _

end SuperBadBlock
