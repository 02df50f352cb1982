import SuperBadBlock.ApfsScanner.Attributes
import SuperBadBlock.ApfsScanner.Extents

namespace SuperBadBlock

open KeyedFold

variable {fs fs' : FileSystem} {touches : List (Nat × Event)}

theorem Step.isSome {touch : Nat × Event} (h : Step fs touch fs') :
    (fs'.cached touch.1).isSome := by
  rw [← h.consistent.mem_inodes, h.inodes, List.mem_append]
  cases hc : (fs.cached touch.1).isSome with
  | false => exact Or.inr (List.mem_singleton_self _)
  | true =>
      -- the step keeps the pointer, so the entry is still cached
      obtain ⟨e, he⟩ := Option.isSome_iff_exists.mp hc
      obtain ⟨p, hp, -⟩ := Option.map_eq_some_iff.mp he
      have hkept := h.keeps _ _ hp
      have hmem := (h.consistent.mem_inodes touch.1).mpr (by simp [FileSystem.cached, hkept])
      rw [h.inodes, List.mem_append, hc] at hmem
      exact hmem

theorem Steps.isSome (h : Steps fs touches fs') {i : Nat} (hi : (fs.cached i).isSome) :
    (fs'.cached i).isSome := by
  obtain ⟨e, he⟩ := Option.isSome_iff_exists.mp hi
  obtain ⟨p, hp, -⟩ := Option.map_eq_some_iff.mp he
  simp [FileSystem.cached, h.keeps i p hp]

theorem Steps.isSome_of_mem (h : Steps fs touches fs') {touch : Nat × Event}
    (hm : touch ∈ touches) : (fs'.cached touch.1).isSome := by
  induction h with
  | done _ => cases hm
  | step hstep hrest ih =>
      rcases List.mem_cons.mp hm with rfl | hm
      · exact hrest.isSome hstep.isSome
      · exact ih hm

-- Touches of cached inodes make no new rows.
theorem Steps.inodes_of_cached (h : Steps fs touches fs')
    (hcached : ∀ touch ∈ touches, (fs.cached touch.1).isSome) :
    fs'.entry.map EntryRow.inode = fs.entry.map EntryRow.inode := by
  induction h with
  | done _ => rfl
  | step hstep hrest ih =>
      obtain ⟨hhead, htail⟩ := List.forall_mem_cons.mp hcached
      have hkeep := Steps.single hstep
      rw [ih fun touch hm => hkeep.isSome (htail touch hm), hstep.inodes, if_pos hhead,
        List.append_nil]

theorem generation_absorb_of_lt (i : Nat) (old : Option Entry) (event : Event)
    (h : ∀ xid added, event = .extent xid added → xid < (generation old).1) :
    generation (event.absorb i old) = generation old := by
  have hsome : event.extent? ≠ none → old.isSome := by
    intro hx
    cases event with
    | extent xid added =>
        cases old with
        | none => exact absurd (h xid added rfl) (Nat.not_lt_zero _)
        | some e => rfl
    | inode xid parentId length => exact absurd rfl hx
    | dirRec xid parentId name type => exact absurd rfl hx
  rw [generation_absorb i old event hsome]
  cases event with
  | extent xid added => exact if_neg (Nat.not_le.mpr (h xid added rfl))
  | inode xid parentId length => rfl
  | dirRec xid parentId name type => rfl

-- Extents older than those of their entries do not reach the extent table.
theorem Steps.extent_of_lt (h : Steps fs touches fs')
    (hold : ∀ i xid added, (i, Event.extent xid added) ∈ touches →
      xid < (generation (fs.cached i)).1) : fs'.extent = fs.extent := by
  induction h with
  | done _ => rfl
  | @step fs fs' fs'' touch touches hstep hrest ih =>
      have hhead : ∀ xid added, touch.2 = .extent xid added →
          xid < (generation (fs.cached touch.1)).1 := fun xid added he =>
        hold touch.1 xid added (he ▸ List.mem_cons_self)
      have hkeep (i : Nat) : generation (fs'.cached i) = generation (fs.cached i) := by
        rw [hstep.cached]
        by_cases hi : i = touch.1
        · subst hi
          rw [Function.update_self, generation_absorb_of_lt _ _ _ hhead]
        · rw [Function.update_of_ne hi]
      have hextent : fs'.extent = fs.extent := by
        refine hstep.extent fun hextends => ?_
        cases hevent : touch.2 with
        | extent xid added =>
            rw [hevent] at hextends
            obtain ⟨e, he, hle⟩ := hextends
            have hlt := hhead xid added hevent
            rw [he] at hlt
            exact Nat.not_lt.mpr hle hlt
        | inode xid parentId length => rw [hevent] at hextends; exact hextends
        | dirRec xid parentId name type => rw [hevent] at hextends; exact hextends
      rw [ih fun i xid added hm => by
        rw [hkeep]
        exact hold i xid added (List.mem_cons_of_mem _ hm), hextent]

-- Two settled entries of one inode that agree on every attribute are equal.
theorem entry_eq_of_attributes {e e' : Entry} (hinode : e.inode = e'.inode)
    (hsettle : e.settle = e) (hsettle' : e'.settle = e')
    (hparent : (e.versionId, e.parentId) = (e'.versionId, e'.parentId))
    (hname : (e.name, e.type) = (e'.name, e'.type)) (hlength : e.length = e'.length)
    (hgeneration : (e.extentVersionId, e.extents) = (e'.extentVersionId, e'.extents)) : e = e' := by
  rw [← hsettle, ← hsettle']
  cases e
  cases e'
  simp_all [Entry.settle]

theorem Attribute.told_node {i : Nat} {α : Type} (attr : Attribute i α) (node : Node) :
    ∃ writes : List (Option α), (eventsOf i [node]).filterMap attr.told =
      writes.map fun write => (node.xid, write) := by
  refine ⟨_, VersionGate.eq_map_of_version _ fun write hm => ?_⟩
  obtain ⟨event, hevent, htold⟩ := List.mem_filterMap.mp hm
  rw [attr.stamped event write htold]
  rw [eventsOf, mem_eventsAt, List.flatMap_singleton] at hevent
  exact xid_of_mem_touches hevent

theorem generation_node (i : Nat) (node : Node) (old : Option Entry) :
    generation ((eventsOf i [node]).foldl (fun old event => event.absorb i old) old) =
      ((attachedExtents i false node.records).map fun extent => (node.xid, extent)).foldl
        Generations.absorb (generation old) := by
  have hgrounded : Grounded old.isSome (eventsOf i [node]) := by
    cases old with
    | none => exact grounded_eventsOf i [node]
    | some e => exact (grounded_eventsOf i [node]).mono
  rw [generation_foldl i _ old hgrounded, extents_eventsOf, attachedTo, List.flatMap_singleton]

structure SameStore (fs fs' : FileSystem) : Prop where
  cached : fs'.cached = fs.cached
  entry : fs'.entry = fs.entry
  extent : fs'.extent = fs.extent

-- Two states that agree on every attribute of a cached inode hold the same entry.
theorem cached_eq_of_attributes (h : fs.Consistent) (h' : fs'.Consistent) {i : Nat}
    (hsome : (fs.cached i).isSome) (hsome' : (fs'.cached i).isSome)
    (hparent : versioned 0 Entry.parentId (fs'.cached i) = versioned 0 Entry.parentId (fs.cached i))
    (hname : versioned ([], 0) (fun e => (e.name, e.type)) (fs'.cached i) =
      versioned ([], 0) (fun e => (e.name, e.type)) (fs.cached i))
    (hlength : versioned 0 Entry.length (fs'.cached i) = versioned 0 Entry.length (fs.cached i))
    (hgeneration : generation (fs'.cached i) = generation (fs.cached i)) :
    fs'.cached i = fs.cached i := by
  obtain ⟨e, he⟩ := Option.isSome_iff_exists.mp hsome
  obtain ⟨e', he'⟩ := Option.isSome_iff_exists.mp hsome'
  rw [he, he'] at hparent hname hlength hgeneration
  rw [he, he']
  refine congrArg some (entry_eq_of_attributes ?_ (h'.cached_settle he') (h.cached_settle he) hparent
    (congrArg Prod.snd hname) (congrArg Prod.snd hlength) hgeneration)
  rw [h'.cached_inode he', h.cached_inode he]

section OneNode

variable {node : Node} (h : Steps fs ([node].flatMap Node.touches) fs')

include h

-- A node that leaves the cache alone leaves the tables alone.
theorem Steps.sameStore_of_cached (hfs : fs.Consistent) (hcached : fs'.cached = fs.cached) :
    SameStore fs fs' := by
  refine ⟨hcached, ?_, ?_⟩
  · refine hfs.entry_eq h.consistent (h.inodes_of_cached fun touch hm => ?_) hcached
    rw [← hcached]
    exact h.isSome_of_mem hm
  · refine h.extent_of_lt fun i xid added hm => ?_
    have hxid : xid = node.xid := by
      rw [List.flatMap_singleton] at hm
      exact xid_of_mem_touches hm
    have hextent : (xid, added) ∈ attachedTo i [node] := by
      rw [← extents_eventsOf]
      exact List.mem_filterMap.mpr ⟨_, (mem_eventsAt i _ _).mpr hm, rfl⟩
    have hne : attachedExtents i false node.records ≠ [] := by
      intro hnil
      rw [attachedTo, List.flatMap_singleton, hnil] at hextent
      cases hextent
    have hkeep := generation_node i node (fs.cached i)
    rw [eventsOf, ← h.cached_apply i, hcached] at hkeep
    rw [hxid]
    exact ((Generations.foldl_absorb_eq_self_iff _ _).mp hkeep.symm).resolve_left hne

theorem Steps.cached_eq_of_eventsOf {i : Nat} (hnil : eventsOf i [node] = []) :
    fs'.cached i = fs.cached i := by
  rw [h.cached_apply i, ← eventsOf, hnil]
  rfl

end OneNode

-- The last value that a node gives for an attribute, in the order of its scan.
def Attribute.lastTold {i : Nat} {α : Type} (attr : Attribute i α) (node : Node) (a : α) : α :=
  (((eventsOf i [node]).filterMap attr.told).filterMap Prod.snd).getLastD a

-- Every inode that the node mentions has an entry to which the node has nothing to
-- add: a newer one, or one that holds the values the node ends with.
def Absorbed (fs : FileSystem) (node : Node) : Prop :=
  ∀ i, (∃ record ∈ node.records, record.Mentions i) → ∃ e, fs.cached i = some e ∧
    (node.xid < e.versionId ∨ node.xid = e.versionId ∧
      (parentAttribute i).lastTold node e.parentId = e.parentId ∧
      (nameAttribute i).lastTold node (e.name, e.type) = (e.name, e.type) ∧
      (lengthAttribute i).lastTold node e.length = e.length) ∧
    (attachedExtents i false node.records = [] ∨ node.xid < e.extentVersionId)

-- An attribute keeps its value and its version through a node that mentions its
-- inode exactly if the node is older, or ends with what is there.
theorem Attribute.foldl_eq_self_iff {i : Nat} {α : Type} (attr : Attribute i α) {node : Node}
    (old : Option Entry) (hne : eventsOf i [node] ≠ []) :
    versioned attr.none_held attr.held
        ((eventsOf i [node]).foldl (fun old event => event.absorb i old) old) =
      versioned attr.none_held attr.held old ↔
    node.xid < (versioned attr.none_held attr.held old).1 ∨
      node.xid = (versioned attr.none_held attr.held old).1 ∧
        attr.lastTold node (versioned attr.none_held attr.held old).2 =
          (versioned attr.none_held attr.held old).2 := by
  obtain ⟨writes, hwrites⟩ := attr.told_node node
  have hwritten : writes ≠ [] := by
    rintro rfl
    obtain ⟨event, hm, hevent⟩ := (grounded_eventsOf i [node]).exists_mem hne
    have htold := attr.tells event hevent
    rw [List.filterMap_eq_nil_iff.mp hwrites event hm] at htold
    cases htold
  have hlast (a : α) : attr.lastTold node a = (writes.filterMap id).getLastD a := by
    rw [Attribute.lastTold, hwrites, List.filterMap_map]
    rfl
  rw [attr.foldl_absorb, hwrites, VersionGate.foldl_step_eq_self_iff, hlast]
  exact or_iff_right hwritten

-- A node leaves the store as it was exactly if the store has absorbed it.
theorem Steps.sameStore_iff_absorbed {node : Node} (hfs : fs.Consistent)
    (h : Steps fs ([node].flatMap Node.touches) fs') : SameStore fs fs' ↔ Absorbed fs node := by
  have hmention (i : Nat) : eventsOf i [node] ≠ [] ↔ ∃ record ∈ node.records, record.Mentions i := by
    simp [eventsOf_ne_nil_iff]
  constructor
  · intro hsame i hrecord
    have hne := (hmention i).mpr hrecord
    obtain ⟨event, hm⟩ := List.exists_mem_of_ne_nil _ hne
    have hsome := h.isSome_of_mem ((mem_eventsAt i event _).mp hm)
    have happly := h.cached_apply i
    rw [hsame.cached] at hsome happly
    obtain ⟨e, he⟩ := Option.isSome_iff_exists.mp hsome
    rw [← eventsOf, he] at happly
    refine ⟨e, he, ?_, ?_⟩
    · rcases ((parentAttribute i).foldl_eq_self_iff (some e) hne).mp (by rw [← happly]) with hlt | ⟨heq, hlast⟩
      · exact Or.inl hlt
      · have hnot : ¬node.xid < e.versionId := Nat.not_lt.mpr heq.ge
        exact Or.inr ⟨heq, hlast,
          ((((nameAttribute i).foldl_eq_self_iff (some e) hne).mp (by rw [← happly])).resolve_left hnot).2,
          ((((lengthAttribute i).foldl_eq_self_iff (some e) hne).mp (by rw [← happly])).resolve_left hnot).2⟩
    · have hgeneration := generation_node i node (some e)
      rw [← happly] at hgeneration
      exact (Generations.foldl_absorb_eq_self_iff _ _).mp hgeneration.symm
  · intro habsorbed
    refine h.sameStore_of_cached hfs (funext fun i => ?_)
    by_cases hne : eventsOf i [node] = []
    · exact h.cached_eq_of_eventsOf hne
    · obtain ⟨e, he, hversion, hextents⟩ := habsorbed i ((hmention i).mp hne)
      have hsome : (fs.cached i).isSome := by
        rw [he]
        rfl
      have happly := h.cached_apply i
      rw [← eventsOf, he] at happly
      refine cached_eq_of_attributes hfs h.consistent hsome (h.isSome hsome) ?_ ?_ ?_ ?_
      · rw [happly, he]
        exact ((parentAttribute i).foldl_eq_self_iff (some e) hne).mpr (hversion.imp_right fun hv => ⟨hv.1, hv.2.1⟩)
      · rw [happly, he]
        exact ((nameAttribute i).foldl_eq_self_iff (some e) hne).mpr (hversion.imp_right fun hv => ⟨hv.1, hv.2.2.1⟩)
      · rw [happly, he]
        exact ((lengthAttribute i).foldl_eq_self_iff (some e) hne).mpr (hversion.imp_right fun hv => ⟨hv.1, hv.2.2.2⟩)
      · rw [happly, he, generation_node]
        exact (Generations.foldl_absorb_eq_self_iff _ _).mpr hextents

end SuperBadBlock
