import SuperBadBlock.ApfsScanner.Events
import SuperBadBlock.Lib.VersionGate

namespace SuperBadBlock

open KeyedFold

-- The version of an entry and a part of it; before there is an entry, version 0.
def versioned {α : Type} (none_held : α) (held : Entry → α) (old : Option Entry) : Nat × α :=
  old.elim (0, none_held) fun e => (e.versionId, held e)

-- An attribute of inode `i` that stands behind `versionId`: what an event tells
-- about it, and where the entry keeps it. Every event but an extent raises the
-- version.
structure Attribute (i : Nat) (α : Type) where
  told : Event → Option (Nat × Option α)
  held : Entry → α
  none_held : α
  stamped : ∀ event write, told event = some write → write.1 = event.xid
  tells : ∀ event : Event, event.extent? = none → (told event).isSome
  absorbs : ∀ old event,
    versioned none_held held (event.absorb i old) =
      (told event).toList.foldl VersionGate.step (versioned none_held held old)

-- An attribute that a record gives on its own, wherever it stands in its group.
structure RecordAttribute (i : Nat) (α : Type) extends Attribute i α where
  given : Record → Option α
  mentions : ∀ record, given record ≠ none → record.Mentions i
  touches : ∀ xid attached record,
    (eventsAt i (record.touch xid attached).toList).filterMap told =
      if record.Mentions i then [(xid, given record)] else []

section Laws

variable {i : Nat} {α : Type} {told : Event → Option (Nat × Option α)} (held : Entry → α)
  {given : Record → Option α}

-- Both kinds of records go through the same gate; what differs is the update.
theorem gate_eq_step (old : Option Entry) (xid : Nat) (update : Entry → Entry) (write : Option α)
    (hversion : ∀ e, (update e).versionId = xid) (hheld : ∀ e, held (update e) = write.getD (held e))
    (e : Entry) (he : e = old.getD { inode := i, isNew := false }) :
    ((if e.versionId ≤ xid then update e else e).versionId,
        held (if e.versionId ≤ xid then update e else e)) =
      VersionGate.step (versioned (held { inode := i, isNew := false }) held old) (xid, write) := by
  have hold : versioned (held { inode := i, isNew := false }) held old = (e.versionId, held e) := by
    rw [he]
    cases old <;> rfl
  rw [hold, VersionGate.step]
  split_ifs
  · rw [hversion, hheld]
  · rfl

theorem absorbs_of_updates
    (hinode : ∀ xid parentId length, ∃ write, told (.inode xid parentId length) = some (xid, write) ∧
      ∀ e : Entry, held { e with
        parentId := parentId, versionId := xid, length := length.getD e.length } = write.getD (held e))
    (hdirRec : ∀ xid parentId name type, ∃ write,
      told (.dirRec xid parentId name type) = some (xid, write) ∧
      ∀ e : Entry, held { e with
        parentId := parentId.getD e.parentId, name := name, versionId := xid, type := type } =
          write.getD (held e))
    (hextent : ∀ xid added, told (.extent xid added) = none)
    (hkeep : ∀ (e : Entry) extents xid,
      held { e with extents := extents, extentVersionId := xid } = held e)
    (old : Option Entry) (event : Event) :
    versioned (held { inode := i, isNew := false }) held (event.absorb i old) =
      (told event).toList.foldl VersionGate.step
        (versioned (held { inode := i, isNew := false }) held old) := by
  cases event with
  | inode xid parentId length =>
      obtain ⟨write, htold, hheld⟩ := hinode xid parentId length
      rw [htold]
      exact gate_eq_step held old xid _ write (fun _ => rfl) hheld _ rfl
  | dirRec xid parentId name type =>
      obtain ⟨write, htold, hheld⟩ := hdirRec xid parentId name type
      rw [htold]
      exact gate_eq_step held old xid _ write (fun _ => rfl) hheld _ rfl
  | extent xid added =>
      rw [hextent]
      cases old with
      | none => rfl
      | some e =>
          simp only [Event.absorb, versioned, Option.map_some, Option.elim_some, Option.toList_none,
            List.foldl_nil]
          split_ifs
          · exact congrArg _ (hkeep e _ _)
          · exact congrArg _ (hkeep e _ _)
          · rfl

theorem touches_of_given
    (hinode : ∀ xid parentId length,
      told (.inode xid parentId length) = some (xid, given (.inode i parentId length)))
    (hdirRec : ∀ xid parentId id name type,
      told (.dirRec xid parentId name type) = some (xid, given (.dirRec id i name type)))
    (hextent : ∀ xid added, told (.extent xid added) = none)
    (xid : Nat) (attached : Bool) (record : Record) :
    (eventsAt i (record.touch xid attached).toList).filterMap told =
      if record.Mentions i then [(xid, given record)] else [] := by
  cases record with
  | inode id parentId length =>
      by_cases hi : id = i
      · subst hi
        simp [Record.touch, eventsAt, Record.Mentions, hinode]
      · simp [Record.touch, eventsAt, Record.Mentions, hi]
  | dirRec id fileId name type =>
      by_cases hi : fileId = i
      · subst hi
        simp [Record.touch, eventsAt, Record.Mentions, hdirRec _ _ id]
      · simp [Record.touch, eventsAt, Record.Mentions, hi]
  | fileExtent id extent =>
      by_cases hi : id = i
      · cases attached <;> simp [Record.touch, eventsAt, Record.Mentions, hi, hextent]
      · cases attached <;> simp [Record.touch, eventsAt, Record.Mentions, hi]
  | other id => rfl

end Laws

-- The parent, from inode records and from directory records that know their
-- directory.
def parentAttribute (i : Nat) : Attribute i Nat where
  told
    | .inode xid parentId _ => some (xid, some parentId)
    | .dirRec xid parentId _ _ => some (xid, parentId)
    | .extent _ _ => none
  held e := e.parentId
  none_held := 0
  stamped event write h := by cases event <;> cases h <;> rfl
  tells event h := by cases event <;> first | rfl | cases h
  absorbs := absorbs_of_updates Entry.parentId (fun _ _ _ => ⟨_, rfl, fun _ => rfl⟩)
    (fun _ _ _ _ => ⟨_, rfl, fun _ => rfl⟩) (fun _ _ => rfl) fun _ _ _ => rfl

-- Name and type, from the directory records for `i`.
def nameAttribute (i : Nat) : RecordAttribute i (List UInt8 × Nat) where
  told
    | .inode xid _ _ => some (xid, none)
    | .dirRec xid _ name type => some (xid, some (name, type))
    | .extent _ _ => none
  held e := (e.name, e.type)
  none_held := ([], 0)
  stamped event write h := by cases event <;> cases h <;> rfl
  tells event h := by cases event <;> first | rfl | cases h
  absorbs := absorbs_of_updates (fun e => (e.name, e.type)) (fun _ _ _ => ⟨_, rfl, fun _ => rfl⟩)
    (fun _ _ _ _ => ⟨_, rfl, fun _ => rfl⟩) (fun _ _ => rfl) fun _ _ _ => rfl
  given
    | .dirRec _ fileId name type => if fileId = i then some (name, type) else none
    | _ => none
  mentions record h := by
    cases record with
    | dirRec id fileId name type =>
        by_contra hne
        exact h (if_neg hne)
    | _ => exact absurd rfl h
  touches := touches_of_given (fun _ _ _ => rfl) (fun _ _ _ _ _ => by simp) fun _ _ => rfl

-- The length, from the inode records of `i` that have a data stream.
def lengthAttribute (i : Nat) : RecordAttribute i Nat where
  told
    | .inode xid _ length => some (xid, length)
    | .dirRec xid _ _ _ => some (xid, none)
    | .extent _ _ => none
  held e := e.length
  none_held := 0
  stamped event write h := by cases event <;> cases h <;> rfl
  tells event h := by cases event <;> first | rfl | cases h
  absorbs := absorbs_of_updates Entry.length (fun _ _ _ => ⟨_, rfl, fun _ => rfl⟩)
    (fun _ _ _ _ => ⟨_, rfl, fun _ => rfl⟩) (fun _ _ => rfl) fun _ _ _ => rfl
  given
    | .inode id _ length => if id = i then length else none
    | _ => none
  mentions record h := by
    cases record with
    | inode id parentId length =>
        by_contra hne
        exact h (if_neg hne)
    | _ => exact absurd rfl h
  touches := touches_of_given (fun _ _ _ => by simp) (fun _ _ _ _ _ => rfl) fun _ _ => rfl

variable {i : Nat} {α : Type}

-- The attribute of an entry evolves as a value behind a version.
theorem Attribute.foldl_absorb (attr : Attribute i α) (events : List Event) (old : Option Entry) :
    versioned attr.none_held attr.held
        (events.foldl (fun old event => event.absorb i old) old) =
      (events.filterMap attr.told).foldl VersionGate.step
        (versioned attr.none_held attr.held old) := by
  induction events generalizing old with
  | nil => rfl
  | cons event events ih =>
      rw [List.foldl_cons, ih, attr.absorbs, ← List.foldl_append]
      cases htold : attr.told event with
      | none => rw [List.filterMap_cons_none htold]; rfl
      | some write => rw [List.filterMap_cons_some htold]; rfl

variable (attr : RecordAttribute i α)

-- The values a node gives for the attribute.
def RecordAttribute.values (node : Node) : List α := node.records.filterMap attr.given

-- The writes of a node to `versionId` and the attribute: one for each record
-- that mentions the inode.
def RecordAttribute.writes (node : Node) : List (Option α) :=
  (node.scanned.filter (Record.Mentions i)).map attr.given

theorem RecordAttribute.told_groupTouches (xid : Nat) (attached : Bool) (records : List Record) :
    (eventsAt i (groupTouches xid attached records)).filterMap attr.told =
      (records.filter (Record.Mentions i)).map fun record => (xid, attr.given record) := by
  induction records generalizing attached with
  | nil => rfl
  | cons record records ih =>
      rw [groupTouches, eventsAt_append, List.filterMap_append, ih, attr.touches]
      by_cases hm : record.Mentions i
      · rw [if_pos hm, List.filter_cons_of_pos (by simpa using hm)]
        rfl
      · rw [if_neg hm, List.filter_cons_of_neg (by simpa using hm)]
        rfl

theorem RecordAttribute.told_touches (node : Node) :
    (eventsAt i node.touches).filterMap attr.told =
      (attr.writes node).map fun write => (node.xid, write) := by
  rw [Node.touches, eventsAt_flatMap, List.filterMap_flatMap, writes, Node.scanned,
    List.filter_flatMap, List.map_flatMap, List.map_flatMap]
  refine List.flatMap_congr fun entry _ => ?_
  rw [attr.told_groupTouches, List.map_map]
  rfl

theorem RecordAttribute.told_eventsOf (nodes : List Node) :
    (eventsOf i nodes).filterMap attr.told =
      nodes.flatMap fun node => (attr.writes node).map fun write => (node.xid, write) := by
  rw [eventsOf, eventsAt_flatMap, List.filterMap_flatMap]
  exact List.flatMap_congr fun node _ => attr.told_touches node

-- An inode has an event exactly if a record mentions it.
theorem eventsOf_ne_nil_iff (i : Nat) (nodes : List Node) :
    eventsOf i nodes ≠ [] ↔ ∃ node ∈ nodes, ∃ record ∈ node.records, record.Mentions i := by
  have htold := (nameAttribute i).told_eventsOf nodes
  have hwrites : (eventsOf i nodes).filterMap (nameAttribute i).told ≠ [] ↔
      ∃ node ∈ nodes, ∃ record ∈ node.records, record.Mentions i := by
    simp [htold, RecordAttribute.writes, Node.mem_scanned, List.flatMap_eq_nil_iff]
  rw [← hwrites]
  refine ⟨fun hne hnil => ?_, fun hne hnil => hne (by rw [hnil]; rfl)⟩
  obtain ⟨event, hm, hevent⟩ := (grounded_eventsOf i nodes).exists_mem hne
  have htold := (nameAttribute i).tells event hevent
  rw [List.filterMap_eq_nil_iff.mp hnil event hm] at htold
  cases htold

theorem cached_isSome_iff (blocks : List ScannedBlock) (i : Nat) :
    ((scanBlocks {} blocks).fileSystem.cached i).isSome ↔
      ∃ node ∈ scannedNodes 4096 blocks, ∃ record ∈ node.records, record.Mentions i := by
  rw [cached_scanBlocks, ← eventsOf_ne_nil_iff]
  constructor
  · intro hsome hnil
    rw [hnil] at hsome
    cases hsome
  · exact isSome_foldl_grounded i _ (grounded_eventsOf i _)

end SuperBadBlock
