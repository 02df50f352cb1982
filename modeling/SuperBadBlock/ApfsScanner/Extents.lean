import SuperBadBlock.ApfsScanner.Events
import SuperBadBlock.ApfsScanner.Image
import SuperBadBlock.Lib.Generations

namespace SuperBadBlock

open KeyedFold

-- The extents of the file extent records of inode `i` that come after an inode
-- record of `i`, in the order of the records.
def attachedExtents (i : Nat) (attached : Bool) : List Record → List EntryExtent
  | [] => []
  | .inode id _ _ :: records => attachedExtents i (attached || id = i) records
  | .fileExtent id extent :: records =>
      (if id = i ∧ attached then [extent] else []) ++ attachedExtents i attached records
  | _ :: records => attachedExtents i attached records

-- The extents attached to an inode over a scan, each with the `o_xid` of its node.
def attachedTo (i : Nat) (nodes : List Node) : List (Nat × EntryExtent) :=
  nodes.flatMap fun node => (attachedExtents i false node.records).map fun extent => (node.xid, extent)

-- The generation of extents an entry holds.
def generation (old : Option Entry) : Nat × List EntryExtent :=
  old.elim (0, []) fun e => (e.extentVersionId, e.extents)

theorem generation_absorb (i : Nat) (old : Option Entry) (event : Event)
    (h : event.extent? ≠ none → old.isSome) :
    generation (event.absorb i old) =
      (event.extent?.toList).foldl Generations.absorb (generation old) := by
  cases event with
  | inode xid parentId length =>
      cases old <;> simp only [Event.absorb, Event.extent?, generation] <;> split_ifs <;> rfl
  | dirRec xid parentId name type =>
      cases old <;> simp only [Event.absorb, Event.extent?, generation] <;> split_ifs <;> rfl
  | extent xid added =>
      obtain ⟨e, rfl⟩ := Option.isSome_iff_exists.mp (h (by simp [Event.extent?]))
      simp only [Event.absorb, Event.extent?, generation, Option.map_some, Option.elim_some,
        Option.toList_some, List.foldl_cons, List.foldl_nil, Generations.absorb]
      split_ifs <;> rfl

-- On grounded events the generation of an entry evolves by the rule of the
-- library, whatever the other events do to it.
theorem generation_foldl (i : Nat) (events : List Event) (old : Option Entry)
    (h : Grounded old.isSome events) :
    generation (events.foldl (fun old event => event.absorb i old) old) =
      (events.filterMap Event.extent?).foldl Generations.absorb (generation old) := by
  induction events generalizing old with
  | nil => rfl
  | cons event events ih =>
      have hhead : event.extent? ≠ none → old.isSome := by
        cases event with
        | extent xid added => exact fun _ => h.1
        | inode xid parentId length => exact fun hn => absurd rfl hn
        | dirRec xid parentId name type => exact fun hn => absurd rfl hn
      have htail : Grounded true events := by
        cases event with
        | extent xid added => exact h.2.mono
        | inode xid parentId length => exact h
        | dirRec xid parentId name type => exact h
      have hsome := isSome_absorb i old event hhead
      have hi := ih (event.absorb i old) (hsome ▸ htail)
      rw [List.foldl_cons, hi, generation_absorb i old event hhead, ← List.foldl_append]
      cases event <;> rfl

-- A group of another key has no extents for `i`.
theorem extents_groupTouches_of_ne {i xid : Nat} (attached : Bool) (records : List Record)
    (h : ∀ record ∈ records, record.id ≠ i) :
    (eventsAt i (groupTouches xid attached records)).filterMap Event.extent? = [] := by
  induction records generalizing attached with
  | nil => rfl
  | cons record records ih =>
      obtain ⟨hhead, htail⟩ := List.forall_mem_cons.mp h
      rw [groupTouches, eventsAt_append, List.filterMap_append, ih _ htail, List.append_nil]
      cases record with
      | inode id parentId length => simp [Record.touch, eventsAt, show id ≠ i from hhead]
      | fileExtent id extent =>
          cases attached <;> simp [Record.touch, eventsAt, show id ≠ i from hhead]
      | dirRec id fileId name type =>
          by_cases hf : fileId = i <;> simp [Record.touch, eventsAt, hf, Event.extent?]
      | other id => rfl

theorem extents_groupTouches {i xid : Nat} (attached : Bool) (records : List Record)
    (h : ∀ record ∈ records, record.id = i) :
    (eventsAt i (groupTouches xid attached records)).filterMap Event.extent? =
      (attachedExtents i attached records).map fun extent => (xid, extent) := by
  induction records generalizing attached with
  | nil => rfl
  | cons record records ih =>
      obtain ⟨hhead, htail⟩ := List.forall_mem_cons.mp h
      rw [groupTouches, eventsAt_append, List.filterMap_append, ih _ htail]
      cases record with
      | inode id parentId length =>
          obtain rfl : id = i := hhead
          simp [Record.touch, eventsAt, Event.extent?, Record.isInode, attachedExtents]
      | fileExtent id extent =>
          obtain rfl : id = i := hhead
          cases attached <;>
            simp [Record.touch, eventsAt, Event.extent?, Record.isInode, attachedExtents]
      | dirRec id fileId name type =>
          by_cases hf : fileId = i <;>
            simp [Record.touch, eventsAt, hf, Event.extent?, Record.isInode, attachedExtents]
      | other id => simp [Record.touch, eventsAt, Record.isInode, attachedExtents]

theorem attachedExtents_filter (i : Nat) (attached : Bool) (records : List Record) :
    attachedExtents i attached (records.filter fun record => record.id = i) =
      attachedExtents i attached records := by
  induction records generalizing attached with
  | nil => rfl
  | cons record records ih =>
      by_cases hi : record.id = i
      · rw [List.filter_cons_of_pos (by simpa using hi)]
        cases record <;> simp [attachedExtents, ih]
      · rw [List.filter_cons_of_neg (by simpa using hi), ih]
        cases record with
        | inode id parentId length => simp [attachedExtents, show id ≠ i from hi]
        | fileExtent id extent => simp [attachedExtents, show id ≠ i from hi]
        | dirRec id fileId name type => rfl
        | other id => rfl

-- The extent events of a node at `i` are its attached extents.
theorem extents_touches (i : Nat) (node : Node) :
    (eventsAt i node.touches).filterMap Event.extent? =
      (attachedExtents i false node.records).map fun extent => (node.xid, extent) := by
  rw [Node.touches, eventsAt_flatMap, List.filterMap_flatMap, Node.groups,
    Grouping.flatMap_of_key (Grouping.sorted_group _ _) i, Grouping.lookup_group,
    extents_groupTouches, attachedExtents_filter]
  · exact fun record hm => of_decide_eq_true (List.mem_filter.mp hm).2
  · intro entry hm hne
    exact extents_groupTouches_of_ne _ _ fun record hr =>
      (Grouping.keyed_group _ _ entry hm record hr).symm ▸ hne
  · rfl

theorem extents_eventsOf (i : Nat) (nodes : List Node) :
    (eventsOf i nodes).filterMap Event.extent? = attachedTo i nodes := by
  rw [eventsOf, eventsAt_flatMap, List.filterMap_flatMap, attachedTo]
  exact List.flatMap_congr fun node _ => extents_touches i node

theorem generation_eventsOf (i : Nat) (nodes : List Node) :
    generation ((eventsOf i nodes).foldl (fun old event => event.absorb i old) none) =
      (Generations.newest (attachedTo i nodes), ((attachedTo i nodes).filter fun record =>
        record.1 = Generations.newest (attachedTo i nodes)).map Prod.snd) := by
  rw [generation_foldl i _ none (grounded_eventsOf i nodes), extents_eventsOf]
  exact Generations.foldl_absorb _

-- The extents of an entry after a scan: all attached extents of the newest
-- generation, and no other.
theorem extents_scanBlocks (blocks : List ScannedBlock) (i : Nat)
    (h : attachedTo i (scannedNodes 4096 blocks) ≠ []) :
    ∃ e, (scanBlocks {} blocks).fileSystem.cached i = some e ∧
      (∀ record ∈ attachedTo i (scannedNodes 4096 blocks), record.1 ≤ e.extentVersionId) ∧
      (∃ record ∈ attachedTo i (scannedNodes 4096 blocks), record.1 = e.extentVersionId) ∧
      e.extents = ((attachedTo i (scannedNodes 4096 blocks)).filter fun record =>
        record.1 = e.extentVersionId).map Prod.snd := by
  have hgrounded := grounded_eventsOf i (scannedNodes 4096 blocks)
  have hne : eventsOf i (scannedNodes 4096 blocks) ≠ [] := by
    intro hnil
    have hextents := extents_eventsOf i (scannedNodes 4096 blocks)
    rw [hnil] at hextents
    exact h hextents.symm
  have hsome := isSome_foldl_grounded i _ hgrounded hne
  have hgen := generation_eventsOf i (scannedNodes 4096 blocks)
  rw [← cached_scanBlocks] at hsome hgen
  obtain ⟨e, he⟩ := Option.isSome_iff_exists.mp hsome
  rw [he, generation, Option.elim_some, Prod.mk.injEq] at hgen
  obtain ⟨hversion, hlist⟩ := hgen
  refine ⟨e, he, ?_, ?_, ?_⟩
  · intro record hm
    rw [hversion]
    exact Generations.le_newest hm
  · rw [hversion]
    exact Generations.newest_mem h
  · rw [hlist, hversion]

-- Three nodes, the newest generation in the second of them.
theorem extents_scanBlocks_of_three_nodes :
    ∃ e, (scanBlocks {} (nodeImages [
        { xid := 3, flags := 2, records := [.inode 5 2 none, .fileExtent 5 ⟨0, 90, 8192⟩] },
        { xid := 7, flags := 2, records :=
          [.inode 5 2 none, .fileExtent 5 ⟨0, 40, 4096⟩, .fileExtent 5 ⟨4096, 60, 4096⟩] },
        { xid := 3, flags := 2, records := [.inode 5 2 none, .fileExtent 5 ⟨0, 90, 8192⟩] }]
      )).fileSystem.cached 5 = some e ∧ e.extentVersionId = 7 ∧
      e.extents = [⟨0, 40, 4096⟩, ⟨4096, 60, 4096⟩] := by
  have hlist : attachedTo 5 (scannedNodes 4096 (nodeImages [
        { xid := 3, flags := 2, records := [.inode 5 2 none, .fileExtent 5 ⟨0, 90, 8192⟩] },
        { xid := 7, flags := 2, records :=
          [.inode 5 2 none, .fileExtent 5 ⟨0, 40, 4096⟩, .fileExtent 5 ⟨4096, 60, 4096⟩] },
        { xid := 3, flags := 2, records := [.inode 5 2 none, .fileExtent 5 ⟨0, 90, 8192⟩] }])) =
      [(3, ⟨0, 90, 8192⟩), (7, ⟨0, 40, 4096⟩), (7, ⟨4096, 60, 4096⟩), (3, ⟨0, 90, 8192⟩)] := by
    rw [scannedNodes_nodeImages]
    decide +kernel
  obtain ⟨e, he, hle, hmem, hextents⟩ := extents_scanBlocks _ 5 (hlist ▸ List.cons_ne_nil _ _)
  simp only [hlist, List.forall_mem_cons, List.exists_mem_cons_iff] at hle hmem
  have hversion : e.extentVersionId = 7 := by
    simp at hle hmem
    omega
  rw [hlist, hversion] at hextents
  exact ⟨e, he, hversion, hextents⟩

end SuperBadBlock
