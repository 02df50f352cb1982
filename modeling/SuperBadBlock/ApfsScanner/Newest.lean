import SuperBadBlock.ApfsScanner.Attributes
import SuperBadBlock.ApfsScanner.Image

namespace SuperBadBlock

open KeyedFold

variable {i : Nat} {α : Type} (attr : RecordAttribute i α)

-- Of the nodes that give the attribute, this one has the highest `o_xid`.
def RecordAttribute.Newest (nodes : List Node) (node : Node) : Prop :=
  node ∈ nodes ∧ attr.values node ≠ [] ∧
    ∀ m ∈ nodes, attr.values m ≠ [] → m.xid ≤ node.xid

-- The entry ends up with what the newest node gives.
def RecordAttribute.NewestWins (blocks : List ScannedBlock) : Prop :=
  ∀ node, attr.Newest (scannedNodes 4096 blocks) node →
    ∃ e, (scanBlocks {} blocks).fileSystem.cached i = some e ∧
      attr.held e ∈ attr.values node

-- No node with a higher `o_xid` that mentions the inode comes before the newest
-- one, or what the visible nodes give last happens to be among its values.
def RecordAttribute.NewestShows (nodes : List Node) : Prop :=
  ∀ node, attr.Newest nodes node →
    node ∈ VersionGate.visible Node.xid attr.writes [] nodes ∨
    ((VersionGate.visible Node.xid attr.writes [] nodes).flatMap
      (VersionGate.values attr.writes)).getLastD attr.none_held ∈ attr.values node

theorem RecordAttribute.mem_values_writes (node : Node) (a : α) :
    a ∈ VersionGate.values attr.writes node ↔ a ∈ attr.values node := by
  simp only [VersionGate.values, writes, values, List.mem_filterMap, List.mem_map, List.mem_filter,
    Node.mem_scanned, decide_eq_true_eq, id_eq]
  constructor
  · rintro ⟨_, ⟨record, ⟨hm, -⟩, rfl⟩, hgiven⟩
    exact ⟨record, hm, hgiven⟩
  · rintro ⟨record, hm, hgiven⟩
    have hne : attr.given record ≠ none := by simp [hgiven]
    exact ⟨_, ⟨record, ⟨hm, attr.mentions record hne⟩, rfl⟩, hgiven⟩

theorem RecordAttribute.values_writes_eq_nil (node : Node) :
    VersionGate.values attr.writes node = [] ↔ attr.values node = [] := by
  simp only [List.eq_nil_iff_forall_not_mem, attr.mem_values_writes]

theorem RecordAttribute.newest_iff (nodes : List Node) (node : Node) :
    VersionGate.Newest Node.xid attr.writes nodes node ↔ attr.Newest nodes node := by
  simp only [VersionGate.Newest, Newest, ne_eq, attr.values_writes_eq_nil]

theorem RecordAttribute.newestWins_iff (blocks : List ScannedBlock)
    (hxid : ((scannedNodes 4096 blocks).map Node.xid).Nodup) :
    attr.NewestWins blocks ↔ attr.NewestShows (scannedNodes 4096 blocks) := by
  refine forall_congr' fun node => imp_congr_right fun hnewest => ?_
  have hlib := (attr.newest_iff _ node).mpr hnewest
  have hevents := attr.told_eventsOf (scannedNodes 4096 blocks)
  have hne : eventsOf i (scannedNodes 4096 blocks) ≠ [] := by
    intro hnil
    rw [hnil, eq_comm, List.filterMap_nil, List.flatMap_eq_nil_iff] at hevents
    exact VersionGate.writes_ne_nil hlib.2.1 (List.map_eq_nil_iff.mp (hevents node hlib.1))
  obtain ⟨e, he⟩ := Option.isSome_iff_exists.mp
    (isSome_foldl_grounded i _ (grounded_eventsOf i _) hne)
  have hheld : (VersionGate.run Node.xid attr.writes (0, attr.none_held)
      (scannedNodes 4096 blocks)).2 = attr.held e := by
    have hfold := attr.toAttribute.foldl_absorb (eventsOf i (scannedNodes 4096 blocks)) none
    rw [he, hevents] at hfold
    exact (congrArg Prod.snd hfold).symm
  rw [cached_scanBlocks, he, ← attr.mem_values_writes node, ← VersionGate.run_mem_iff hxid hlib,
    hheld, attr.mem_values_writes]
  constructor
  · rintro ⟨e', he', hmem⟩
    exact Option.some.inj he' ▸ hmem
  · exact fun hmem => ⟨e, rfl, hmem⟩

-- A scan of leaf nodes of different transactions keeps the newest name and type,
-- and the newest length, of an inode exactly when they are not outranked.
theorem newest_record_wins_iff (blocks : List ScannedBlock) (hleaf : ∀ b ∈ blocks, IsLeaf 4096 b.block)
    (hxid : (blocks.map fun b => (nodeOf b.block 4096).xid).Nodup) (i : Nat) :
    ((nameAttribute i).NewestWins blocks ↔
      (nameAttribute i).NewestShows (blocks.map fun b => nodeOf b.block 4096)) ∧
    ((lengthAttribute i).NewestWins blocks ↔
      (lengthAttribute i).NewestShows (blocks.map fun b => nodeOf b.block 4096)) := by
  have hnodes : scannedNodes 4096 blocks = blocks.map fun b => nodeOf b.block 4096 :=
    scannedNodes_of_isNode fun b hb => (hleaf b hb).1
  have hdistinct : ((scannedNodes 4096 blocks).map Node.xid).Nodup := by
    rw [hnodes, List.map_map]
    exact hxid
  rw [← hnodes]
  exact ⟨(nameAttribute i).newestWins_iff blocks hdistinct,
    (lengthAttribute i).newestWins_iff blocks hdistinct⟩

-- A directory record, and in a later transaction the inode record of its file.
def directoryThenInode : List Node :=
  [{ xid := 3, flags := 2, records := [.dirRec 2 16 [97] 8] },
    { xid := 5, flags := 2, records := [.inode 16 2 (some 700)] }]

-- In ascending order of the transactions nothing is outranked.
theorem newest_record_wins_of_ascending :
    (nameAttribute 16).NewestWins (nodeImages directoryThenInode) ∧
    (lengthAttribute 16).NewestWins (nodeImages directoryThenInode) := by
  have hiff := newest_record_wins_iff (nodeImages directoryThenInode)
    (isLeaf_nodeImages _ (by decide)) (by decide +kernel) 16
  rw [← scannedNodes_of_isNode fun b hb => (isLeaf_nodeImages directoryThenInode (by decide) b hb).1,
    scannedNodes_nodeImages] at hiff
  have hnodes : (directoryThenInode.map fun node => nodeOf (nodeImage node) 4096) =
      directoryThenInode := by decide +kernel
  rw [hnodes] at hiff
  have hname : ∀ node ∈ directoryThenInode,
      node ∈ VersionGate.visible Node.xid (nameAttribute 16).writes [] directoryThenInode := by
    decide
  have hlength : ∀ node ∈ directoryThenInode,
      node ∈ VersionGate.visible Node.xid (lengthAttribute 16).writes [] directoryThenInode := by
    decide
  exact ⟨hiff.1.mpr fun node hnewest => Or.inl (hname node hnewest.1),
    hiff.2.mpr fun node hnewest => Or.inl (hlength node hnewest.1)⟩

-- The other order: the inode record hides the directory record.
theorem newest_record_loses :
    (∀ b ∈ nodeImages directoryThenInode.reverse, IsLeaf 4096 b.block) ∧
    ((nodeImages directoryThenInode.reverse).map fun b => (nodeOf b.block 4096).xid).Nodup ∧
    ¬(nameAttribute 16).NewestWins (nodeImages directoryThenInode.reverse) := by
  refine ⟨isLeaf_nodeImages _ (by decide), by decide +kernel, fun h => ?_⟩
  unfold RecordAttribute.NewestWins RecordAttribute.Newest at h
  rw [cached_scanBlocks, scannedNodes_nodeImages] at h
  obtain ⟨e, he, hmem⟩ := h { xid := 3, flags := 2, records := [.dirRec 2 16 [97] 8] } (by decide +kernel)
  have hentry : some e = some { inode := 16, parentId := 2, versionId := 5, length := 700, isNew := false } :=
    he.symm.trans (by decide +kernel)
  rw [Option.some.inj hentry] at hmem
  exact absurd hmem (by decide)

end SuperBadBlock
