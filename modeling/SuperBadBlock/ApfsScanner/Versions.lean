import SuperBadBlock.ApfsScanner.Attributes
import SuperBadBlock.ApfsScanner.Image

namespace SuperBadBlock

open KeyedFold

-- A node of transaction `xid` has an inode or directory record for inode `i`.
def MentionedAt (nodes : List Node) (i xid : Nat) : Prop :=
  ∃ node ∈ nodes, (∃ record ∈ node.records, record.Mentions i) ∧ node.xid = xid

theorem mem_told_eventsOf {i : Nat} {α : Type} (attr : RecordAttribute i α) (nodes : List Node)
    (xid : Nat) :
    (∃ write ∈ (eventsOf i nodes).filterMap attr.told, write.1 = xid) ↔ MentionedAt nodes i xid := by
  rw [attr.told_eventsOf]
  simp only [List.mem_flatMap, List.mem_map, RecordAttribute.writes, List.mem_filter,
    Node.mem_scanned, decide_eq_true_eq, MentionedAt]
  constructor
  · rintro ⟨write, ⟨node, hn, _, ⟨record, ⟨hr, hm⟩, rfl⟩, rfl⟩, rfl⟩
    exact ⟨node, hn, ⟨record, hr, hm⟩, rfl⟩
  · rintro ⟨node, hn, ⟨record, hr, hm⟩, rfl⟩
    exact ⟨_, ⟨node, hn, _, ⟨record, ⟨hr, hm⟩, rfl⟩, rfl⟩, rfl⟩

theorem isGreatest_versionId (blocks : List ScannedBlock) (i : Nat) (e : Entry)
    (he : (scanBlocks {} blocks).fileSystem.cached i = some e) :
    IsGreatest {xid | MentionedAt (scannedNodes 4096 blocks) i xid} e.versionId := by
  have hfold := (nameAttribute i).foldl_absorb (eventsOf i (scannedNodes 4096 blocks)) none
  rw [← cached_scanBlocks, he] at hfold
  have hversion : e.versionId =
      (((eventsOf i (scannedNodes 4096 blocks)).filterMap (nameAttribute i).told).foldl
        VersionGate.step (0, (nameAttribute i).none_held)).1 := congrArg Prod.fst hfold
  have hmentioned : ∃ node ∈ scannedNodes 4096 blocks, ∃ record ∈ node.records, record.Mentions i := by
    rw [← cached_isSome_iff, he]
    rfl
  obtain ⟨node, hn, hr⟩ := hmentioned
  have hne : (eventsOf i (scannedNodes 4096 blocks)).filterMap (nameAttribute i).told ≠ [] := by
    intro hnil
    have hmem := (mem_told_eventsOf (nameAttribute i) _ node.xid).mpr ⟨node, hn, hr, rfl⟩
    rw [hnil] at hmem
    obtain ⟨write, hm, -⟩ := hmem
    cases hm
  have hgreatest := VersionGate.isGreatest_foldl_step _ (nameAttribute i).none_held hne
  simp only [mem_told_eventsOf] at hgreatest
  rw [hversion]
  exact hgreatest

-- The version depends on the accepted nodes alone, not on when they come.
theorem versionId_eq_of_same_nodes {blocks blocks' : List ScannedBlock}
    (h : ∀ node, node ∈ scannedNodes 4096 blocks' ↔ node ∈ scannedNodes 4096 blocks) (i : Nat) :
    ((scanBlocks {} blocks').fileSystem.cached i).map Entry.versionId =
      ((scanBlocks {} blocks).fileSystem.cached i).map Entry.versionId := by
  have hsome := cached_isSome_iff blocks i
  have hsome' := cached_isSome_iff blocks' i
  simp only [h] at hsome'
  cases he : (scanBlocks {} blocks).fileSystem.cached i with
  | none =>
      rw [he] at hsome
      rw [← hsome, Option.isSome_none] at hsome'
      rw [Option.not_isSome_iff_eq_none.mp fun hs => Bool.false_ne_true (hsome'.mp hs)]
  | some e =>
      rw [he] at hsome
      rw [← hsome] at hsome'
      obtain ⟨e', he'⟩ := Option.isSome_iff_exists.mp (hsome'.mpr rfl)
      have hgreatest' := isGreatest_versionId blocks' i e' he'
      simp only [MentionedAt, h] at hgreatest'
      rw [he', Option.map_some, Option.map_some,
        hgreatest'.unique (isGreatest_versionId blocks i e he)]

theorem scannedNodes_of_fixed_size {size : Nat} {blocks : List ScannedBlock}
    (h : ∀ b ∈ blocks, nextBlockSize size b.block = size) :
    scannedNodes size blocks =
      (blocks.filter fun b => IsNode size b.block).map fun b => nodeOf b.block size := by
  induction blocks with
  | nil => rfl
  | cons b blocks ih =>
      obtain ⟨hhead, htail⟩ := List.forall_mem_cons.mp h
      rw [scannedNodes, hhead, ih htail]
      by_cases hn : IsNode size b.block
      · rw [if_pos hn, List.filter_cons_of_pos (by simpa using hn)]
        rfl
      · rw [if_neg hn, List.filter_cons_of_neg (by simpa using hn)]
        rfl

theorem scannedNodes_perm_of_fixed_size {size : Nat} {blocks blocks' : List ScannedBlock}
    (hperm : blocks'.Perm blocks) (h : ∀ b ∈ blocks, nextBlockSize size b.block = size) :
    (scannedNodes size blocks').Perm (scannedNodes size blocks) := by
  have h' : ∀ b ∈ blocks', nextBlockSize size b.block = size := fun b hb => h b (hperm.mem_iff.mp hb)
  rw [scannedNodes_of_fixed_size h, scannedNodes_of_fixed_size h']
  exact (hperm.filter _).map _

-- The two versions of an entry; before there is an entry, version 0.
def version (old : Option Entry) : Nat := old.elim 0 Entry.versionId

def extentVersion (old : Option Entry) : Nat := old.elim 0 Entry.extentVersionId

theorem version_absorb (i : Nat) (old : Option Entry) (event : Event) :
    version (event.absorb i old) =
      (((nameAttribute i).told event).toList.foldl VersionGate.step
        (versioned (nameAttribute i).none_held (nameAttribute i).held old)).1 := by
  rw [← (nameAttribute i).absorbs]
  cases event.absorb i old <;> rfl

theorem version_le_absorb (i : Nat) (old : Option Entry) (event : Event) :
    version old ≤ version (event.absorb i old) := by
  have hold : version old =
      (versioned (nameAttribute i).none_held (nameAttribute i).held old).1 := by cases old <;> rfl
  rw [version_absorb, hold]
  exact VersionGate.le_foldl_step _ _

theorem xid_le_version_absorb (i : Nat) (old : Option Entry) (event : Event)
    (h : event.extent? = none) : event.xid ≤ version (event.absorb i old) := by
  obtain ⟨write, hwrite⟩ := Option.isSome_iff_exists.mp ((nameAttribute i).tells event h)
  rw [version_absorb, ← (nameAttribute i).stamped event write hwrite, hwrite]
  exact VersionGate.version_le_foldl_step (List.mem_singleton_self write) _

-- Only an extent raises the version of the extents, and only to its own.
theorem extentVersion_absorb_le (i : Nat) (old : Option Entry) (event : Event) (bound : Nat)
    (hold : extentVersion old ≤ bound) (hevent : event.extent? ≠ none → event.xid ≤ bound) :
    extentVersion (event.absorb i old) ≤ bound := by
  cases event with
  | inode xid parentId length =>
      cases old <;> simp only [Event.absorb, extentVersion, Option.elim_some] <;> split_ifs <;>
        exact hold
  | dirRec xid parentId name type =>
      cases old <;> simp only [Event.absorb, extentVersion, Option.elim_some] <;> split_ifs <;>
        exact hold
  | extent xid added =>
      cases old with
      | none => exact hold
      | some e =>
          by_cases hle : e.extentVersionId ≤ xid
          · simp only [Event.absorb, extentVersion, Option.map_some, Option.elim_some, if_pos hle]
            exact hevent (Option.some_ne_none _)
          · simp only [Event.absorb, extentVersion, Option.map_some, Option.elim_some, if_neg hle]
            exact hold

-- What inode and directory records may change, and file extents may not.
structure SameAttributes (e e' : Entry) : Prop where
  parentId : e'.parentId = e.parentId
  name : e'.name = e.name
  type : e'.type = e.type
  length : e'.length = e.length
  versionId : e'.versionId = e.versionId

theorem sameAttributes_absorb (i : Nat) (e : Entry) (event : Event) (hold : event.xid < e.versionId) :
    ∃ e', event.absorb i (some e) = some e' ∧ SameAttributes e e' := by
  cases event with
  | inode xid parentId length =>
      exact ⟨e, congrArg some (if_neg (Nat.not_le.mpr hold)), ⟨rfl, rfl, rfl, rfl, rfl⟩⟩
  | dirRec xid parentId name type =>
      exact ⟨e, congrArg some (if_neg (Nat.not_le.mpr hold)), ⟨rfl, rfl, rfl, rfl, rfl⟩⟩
  | extent xid added =>
      by_cases hle : e.extentVersionId ≤ xid
      · exact ⟨_, congrArg some (if_pos hle), ⟨rfl, rfl, rfl, rfl, rfl⟩⟩
      · exact ⟨_, congrArg some (if_neg hle), ⟨rfl, rfl, rfl, rfl, rfl⟩⟩

-- No entry has extents newer than what it knows about itself.
def Bounded (fs : FileSystem) : Prop :=
  ∀ i, extentVersion (fs.cached i) ≤ version (fs.cached i)

section Touches

variable {fs fs' : FileSystem} {touch : Nat × Event}

theorem Step.version_le (h : Step fs touch fs') (i : Nat) :
    version (fs.cached i) ≤ version (fs'.cached i) := by
  rw [h.cached]
  by_cases hi : i = touch.1
  · subst hi
    rw [Function.update_self]
    exact version_le_absorb _ _ _
  · rw [Function.update_of_ne hi]

theorem Step.bounded (h : Step fs touch fs') (hb : Bounded fs)
    (hextent : touch.2.extent? ≠ none → touch.2.xid ≤ version (fs.cached touch.1)) : Bounded fs' := by
  intro i
  refine Nat.le_trans ?_ (h.version_le i)
  rw [h.cached]
  by_cases hi : i = touch.1
  · subst hi
    rw [Function.update_self]
    exact extentVersion_absorb_le _ _ _ _ (hb _) hextent
  · rw [Function.update_of_ne hi]
    exact hb i

theorem Step.sameAttributes (h : Step fs touch fs') {i : Nat} {e : Entry}
    (he : fs.cached i = some e) (hold : touch.2.xid < e.versionId) :
    ∃ e', fs'.cached i = some e' ∧ SameAttributes e e' := by
  rw [h.cached]
  by_cases hi : i = touch.1
  · subst hi
    rw [Function.update_self, he]
    exact sameAttributes_absorb _ e _ hold
  · rw [Function.update_of_ne hi]
    exact ⟨e, he, ⟨rfl, rfl, rfl, rfl, rfl⟩⟩

end Touches

-- Inside a group of records with key `id`: once an inode record has been seen, the
-- entry is at least as new as the node, so the extents that follow stay below it.
structure InGroup (block : Memory) (id : Nat) (attached : Bool)
    (state : Option EntryPtr × FileSystem) : Prop where
  consistent : state.2.Consistent
  holds : Holds state.2 id attached state.1
  bounded : Bounded state.2
  stamped : attached = true → (block.o_xid 0).val ≤ version (state.2.cached id)

section Groups

variable {block : Memory} {id : Nat} {attached : Bool} {state : Option EntryPtr × FileSystem}

theorem InGroup.steps (h : InGroup block id attached state) {pair : KeyValuePair}
    (hid : (decode block pair).id = id) :
    Steps state.2 ((decode block pair).touch (block.o_xid 0).val attached).toList
      (scanPair block state pair).val.2 := by
  have hholds := h.holds
  rw [← hid] at hholds
  exact (steps_scanPair block h.consistent pair attached state.1 hholds).1

theorem InGroup.next (h : InGroup block id attached state) {pair : KeyValuePair}
    (hid : (decode block pair).id = id) :
    InGroup block id (attached || (decode block pair).isInode) (scanPair block state pair).val := by
  have hsteps := h.steps hid
  have hholds := h.holds
  rw [← hid] at hholds
  have hnext := (steps_scanPair block h.consistent pair attached state.1 hholds).2
  rw [hid] at hnext
  cases htouch : (decode block pair).touch (block.o_xid 0).val attached with
  | none =>
      rw [htouch] at hsteps
      have hsame := hsteps.eq_of_nil
      refine ⟨hsteps.consistent, hnext, hsame ▸ h.bounded, fun ha => ?_⟩
      rw [hsame]
      apply h.stamped
      cases hrecord : decode block pair with
      | inode _ _ _ => rw [hrecord] at htouch; cases htouch
      | _ => simpa [hrecord, Record.isInode] using ha
  | some touch =>
      rw [htouch] at hsteps
      have hstep := hsteps.of_single
      have hxid := xid_of_touch htouch
      refine ⟨hsteps.consistent, hnext, hstep.bounded h.bounded fun hextent => ?_, fun ha => ?_⟩
      · -- an extent is taken only behind an inode record
        cases hrecord : decode block pair with
        | fileExtent id' extent =>
            rw [hrecord] at htouch hid
            obtain rfl : id' = id := hid
            cases ha : attached with
            | false => rw [ha] at htouch; cases htouch
            | true =>
                rw [ha] at htouch
                cases htouch
                exact h.stamped ha
        | inode _ _ _ => rw [hrecord] at htouch; cases htouch; exact absurd rfl hextent
        | dirRec _ _ _ _ => rw [hrecord] at htouch; cases htouch; exact absurd rfl hextent
        | other _ => rw [hrecord] at htouch; cases htouch
      · cases hrecord : decode block pair with
        | inode id' parentId length =>
            rw [hrecord] at htouch hid
            obtain rfl : id' = id := hid
            cases htouch
            rw [hstep.cached, Function.update_self]
            exact xid_le_version_absorb _ _ (.inode _ parentId length) rfl
        | _ =>
            refine Nat.le_trans (h.stamped ?_) (hstep.version_le id)
            simpa [hrecord, Record.isInode] using ha

-- A record of an older node leaves what an entry says about itself alone.
theorem InGroup.sameAttributes (h : InGroup block id attached state) {pair : KeyValuePair}
    (hid : (decode block pair).id = id) {i : Nat} {e : Entry} (he : state.2.cached i = some e)
    (hold : (block.o_xid 0).val < e.versionId) :
    ∃ e', (scanPair block state pair).val.2.cached i = some e' ∧
      SameAttributes e e' := by
  have hsteps := h.steps hid
  cases htouch : (decode block pair).touch (block.o_xid 0).val attached with
  | none =>
      rw [htouch] at hsteps
      rw [hsteps.eq_of_nil]
      exact ⟨e, he, ⟨rfl, rfl, rfl, rfl, rfl⟩⟩
  | some touch =>
      rw [htouch] at hsteps
      exact hsteps.of_single.sameAttributes he (xid_of_touch htouch ▸ hold)

theorem InGroup.run (h : InGroup block id attached state) (pairs : List KeyValuePair)
    (hid : ∀ pair ∈ pairs, (decode block pair).id = id) :
    ∃ attached', InGroup block id attached' (pairs.foldlM (scanPair block) state).val := by
  induction pairs generalizing attached state with
  | nil => exact ⟨attached, h⟩
  | cons pair pairs ih =>
      obtain ⟨hhead, htail⟩ := List.forall_mem_cons.mp hid
      rw [List.foldlM_cons, Traced.val_bind]
      exact ih (h.next hhead) htail

theorem inGroup_start {fs : FileSystem} (h : fs.Consistent) (hb : Bounded fs) :
    InGroup block id false (none, fs) :=
  ⟨h, ⟨rfl, by simp⟩, hb, by simp⟩

theorem bounded_scanGroups {fs : FileSystem} (h : fs.Consistent) (hb : Bounded fs)
    (groups : List (Nat × List KeyValuePair))
    (hkeyed : Grouping.Keyed (fun pair => (decode block pair).id) groups) :
    (groups.foldlM (fun fs entry => scanGroup block fs entry.2) fs).val.Consistent ∧
      Bounded (groups.foldlM (fun fs entry => scanGroup block fs entry.2) fs).val := by
  induction groups generalizing fs with
  | nil => exact ⟨h, hb⟩
  | cons entry groups ih =>
      obtain ⟨hhead, htail⟩ := List.forall_mem_cons.mp hkeyed
      obtain ⟨attached, hgroup⟩ := (inGroup_start h hb).run entry.2 hhead
      have hlast : (scanGroup block fs entry.2).val =
          (entry.2.foldlM (scanPair block) (none, fs)).val.2 := by
        simp only [scanGroup, Traced.val_bind]
        split
        · rename_i p hp
          rw [Traced.val_pure, hgroup.consistent.updateEntry_eq_self (hgroup.holds.2 p hp)]
        · rfl
      rw [List.foldlM_cons, Traced.val_bind, hlast]
      exact ih hgroup.consistent hgroup.bounded htail

end Groups

theorem bounded_scanBlock (scanner : APFSScanner) (h : scanner.fileSystem.Consistent)
    (hb : Bounded scanner.fileSystem) (b : ScannedBlock) :
    Bounded (scanBlock scanner b.pos b.block b.sectorSize).val.fileSystem := by
  rw [val_scanBlock]
  by_cases hn : IsNode scanner.currentBlockSize b.block
  · rw [if_pos hn, val_scanBTreeBlock]
    exact (bounded_scanGroups h hb _ (Grouping.keyed_group _ _)).2
  · rw [if_neg hn]
    split_ifs <;> exact hb

theorem bounded_scanBlocks (blocks : List ScannedBlock) :
    Bounded (scanBlocks {} blocks).fileSystem := by
  induction blocks using List.reverseRecOn with
  | nil => exact fun i => Nat.le_refl 0
  | append_singleton blocks b ih =>
      rw [scanBlocks_append]
      exact bounded_scanBlock _ (Reachable.consistent ⟨blocks, rfl⟩) ih b

-- A moment inside the scan of a node: the groups `before` are done, and of the
-- group of `id` the records `done`; `rest` and the groups `after` are to come.
structure Moment (block : Memory) (scanner : APFSScanner) where
  before : List (Nat × List KeyValuePair)
  id : Nat
  done : List KeyValuePair
  rest : List KeyValuePair
  after : List (Nat × List KeyValuePair)
  isNode : IsNode scanner.currentBlockSize block
  groups : Grouping.group (fun pair => (decode block pair).id)
    (nodePairs block scanner.currentBlockSize) = before ++ (id, done ++ rest) :: after

-- `fileEntry` and the file system at that moment.
def Moment.state {block : Memory} {scanner : APFSScanner} (moment : Moment block scanner) :
    Option EntryPtr × FileSystem :=
  (moment.done.foldlM (scanPair block) (none,
    (moment.before.foldlM (fun fs entry => scanGroup block fs entry.2) scanner.fileSystem).val)).val

section Moments

variable {block : Memory} {scanner : APFSScanner} (moment : Moment block scanner)

theorem Moment.keyed : Grouping.Keyed (fun pair => (decode block pair).id) moment.before ∧
    ∀ pair ∈ moment.done ++ moment.rest, (decode block pair).id = moment.id := by
  have hkeyed := Grouping.keyed_group (fun pair => (decode block pair).id)
    (nodePairs block scanner.currentBlockSize)
  rw [moment.groups, Grouping.Keyed, List.forall_mem_append, List.forall_mem_cons] at hkeyed
  exact ⟨hkeyed.1, hkeyed.2.1⟩

theorem Moment.state_start (hbefore : moment.before = []) (hdone : moment.done = []) :
    moment.state = (none, scanner.fileSystem) := by
  rw [Moment.state, hbefore, hdone]
  rfl

theorem Moment.cached_start (hbefore : moment.before = []) (hdone : moment.done = []) (i : Nat) :
    moment.state.2.cached i = scanner.fileSystem.cached i := by
  rw [moment.state_start hbefore hdone]

theorem Moment.inGroup (h : scanner.fileSystem.Consistent) (hb : Bounded scanner.fileSystem) :
    ∃ attached, InGroup block moment.id attached moment.state := by
  obtain ⟨hbefore, hgroup⟩ := moment.keyed
  obtain ⟨hconsistent, hbounded⟩ := bounded_scanGroups h hb moment.before hbefore
  exact (inGroup_start hconsistent hbounded).run moment.done fun pair hm =>
    hgroup pair (List.mem_append_left _ hm)

end Moments

-- Over every scan, `versionId` is the highest `o_xid` of the accepted nodes that
-- mention the inode, whatever the order of the same nodes; the extents are never
-- newer; and the records of an older node change nothing but extents.
theorem version_bookkeeping (blocks : List ScannedBlock) :
    (∀ i e, (scanBlocks {} blocks).fileSystem.cached i = some e →
      IsGreatest {xid | MentionedAt (scannedNodes 4096 blocks) i xid} e.versionId) ∧
    (∀ blocks', (∀ node, node ∈ scannedNodes 4096 blocks' ↔ node ∈ scannedNodes 4096 blocks) ∨
        (blocks'.Perm blocks ∧ ∀ b ∈ blocks, nextBlockSize 4096 b.block = 4096) →
      ∀ i, ((scanBlocks {} blocks').fileSystem.cached i).map Entry.versionId =
        ((scanBlocks {} blocks).fileSystem.cached i).map Entry.versionId) ∧
    (∀ i e, (scanBlocks {} blocks).fileSystem.cached i = some e → e.extentVersionId ≤ e.versionId) ∧
    ∀ (block : Memory) (moment : Moment block (scanBlocks {} blocks)),
      (∀ i e, moment.state.2.cached i = some e → e.extentVersionId ≤ e.versionId) ∧
      ∀ pair rest, moment.rest = pair :: rest → ∀ i e, moment.state.2.cached i = some e →
        (block.o_xid 0).val < e.versionId →
          ∃ e', (scanPair block moment.state pair).val.2.cached i = some e' ∧
            SameAttributes e e' := by
  have hconsistent : (scanBlocks {} blocks).fileSystem.Consistent := Reachable.consistent ⟨blocks, rfl⟩
  have hbounded (fs : FileSystem) (hb : Bounded fs) (i : Nat) (e : Entry)
      (he : fs.cached i = some e) : e.extentVersionId ≤ e.versionId := by
    have hi := hb i
    rw [he] at hi
    exact hi
  refine ⟨isGreatest_versionId blocks, fun blocks' hnodes i => versionId_eq_of_same_nodes ?_ i,
    hbounded _ (bounded_scanBlocks blocks), fun block moment => ?_⟩
  · rcases hnodes with hsame | ⟨hperm, hsize⟩
    · exact hsame
    · exact fun node => (scannedNodes_perm_of_fixed_size hperm hsize).mem_iff
  · obtain ⟨attached, hgroup⟩ := moment.inGroup hconsistent (bounded_scanBlocks blocks)
    refine ⟨hbounded _ hgroup.bounded, fun pair rest hrest i e he hold => ?_⟩
    have hid : (decode block pair).id = moment.id :=
      moment.keyed.2 pair (List.mem_append_right _ (hrest ▸ List.mem_cons_self))
    exact hgroup.sameAttributes hid he hold

def olderDirectory : Node := { xid := 3, flags := 2, records := [.dirRec 2 16 [97] 8] }

def newerInode : Node := { xid := 5, flags := 2, records := [.inode 16 2 (some 700)] }

-- Either order of the two nodes ends at version 5, and once the newer one has been
-- scanned the older record finds nothing to change.
theorem version_bookkeeping_of_two_nodes :
    ((scanBlocks {} (nodeImages [newerInode, olderDirectory])).fileSystem.cached 16).map
        Entry.versionId =
      ((scanBlocks {} (nodeImages [olderDirectory, newerInode])).fileSystem.cached 16).map
        Entry.versionId ∧
    ∃ pair e e', decode (nodeImage olderDirectory) pair = .dirRec 2 16 [97] 8 ∧
      (scanBlocks {} (nodeImages [newerInode])).fileSystem.cached 16 = some e ∧
      (scanPair (nodeImage olderDirectory)
        (none, (scanBlocks {} (nodeImages [newerInode])).fileSystem) pair).val.2.cached 16 = some e' ∧
      SameAttributes e e' := by
  have hsize (nodes : List Node) : ∀ b ∈ nodeImages nodes, nextBlockSize 4096 b.block = 4096 :=
    List.forall_mem_map.mpr fun node _ => if_neg (not_isSuperblock_of_isNode (isNode_nodeImage node))
  constructor
  · refine (version_bookkeeping _).2.1 _ (Or.inr ⟨?_, hsize _⟩) 16
    exact (List.Perm.swap olderDirectory newerInode []).map _
  · have hcurrent : (scanBlocks {} (nodeImages [newerInode])).currentBlockSize = 4096 := by
      rw [nodeImages, List.map_singleton, scanBlocks_cons, scanBlocks_nil, currentBlockSize_scanBlock]
      exact hsize [newerInode] _ List.mem_cons_self
    have hnewer : ([newerInode].map fun node => nodeOf (nodeImage node) 4096) = [newerInode] := by
      decide +kernel
    have holder : nodeOf (nodeImage olderDirectory) 4096 = olderDirectory := by decide +kernel
    obtain ⟨e, he, hversion⟩ : ∃ e, (scanBlocks {} (nodeImages [newerInode])).fileSystem.cached 16 =
        some e ∧ e.versionId = 5 := by
      rw [cached_scanBlocks, scannedNodes_nodeImages, hnewer]
      exact ⟨{ inode := 16, parentId := 2, versionId := 5, length := 700, isNew := false }, by decide, rfl⟩
    have hisNode : IsNode (scanBlocks {} (nodeImages [newerInode])).currentBlockSize
        (nodeImage olderDirectory) := by
      rw [hcurrent]
      exact isNode_nodeImage olderDirectory
    obtain ⟨pair, hpair, hdecode⟩ := List.map_eq_singleton_iff.mp (congrArg Node.records holder)
    let moment : Moment (nodeImage olderDirectory) (scanBlocks {} (nodeImages [newerInode])) := {
      before := [], id := (decode (nodeImage olderDirectory) pair).id, done := [], rest := [pair],
      after := [], isNode := hisNode, groups := by
        rw [hcurrent, hpair]
        rfl }
    have hxid : ((nodeImage olderDirectory).o_xid 0).val < e.versionId := by
      have hthree : ((nodeImage olderDirectory).o_xid 0).val = 3 := congrArg Node.xid holder
      rw [hthree, hversion]
      decide
    obtain ⟨e', he', hsame⟩ := ((version_bookkeeping _).2.2.2 _ moment).2 pair [] rfl 16 e
      ((moment.cached_start rfl rfl 16).trans he) hxid
    rw [moment.state_start rfl rfl] at he'
    exact ⟨pair, e, e', hdecode, he, he', hsame⟩

-- Between the keys at the front of the block and the value at its end nothing is stored.
theorem word_newerInode (k : Nat) (hlo : 510 ≤ k) (hhi : k < 994) :
    (nodeImage newerInode).word 8 k = 0 := by
  have hzero (off : Int) : Memory.le (fun _ => 0) off 4 = 0 := rfl
  rw [nodeImage, Memory.word_withChecksum, Memory.word]
  simp only [newerInode, storeRecords, Record.store, List.length_singleton]
  simp (disch := omega) only [Memory.le_store_of_disjoint, hzero]

-- At half its size the block has another checksum.
theorem not_valid_newerInode : ¬Valid 2048 (nodeImage newerInode) := by
  refine not_valid_withChecksum _ 510 (484 + 28) rfl ?_
  rw [EndAround.sum1_of_zero]
  · decide +kernel
  · exact fun i hi => word_newerInode (510 + i) (Nat.le_add_right 510 i) (by omega)

-- The same three blocks in two orders. A superblock that names another block size
-- decides which nodes are accepted behind it.
theorem versionId_of_reordered_superblock :
    let older : ScannedBlock := { pos := 0, block := nodeImage olderDirectory }
    let newer : ScannedBlock := { pos := 4096, block := nodeImage newerInode }
    let superblock : ScannedBlock := { pos := 8192, block := superblockImage 2048 }
    [older, superblock, newer].Perm [older, newer, superblock] ∧
    ((scanBlocks {} [older, superblock, newer]).fileSystem.cached 16).map Entry.versionId = some 3 ∧
    ((scanBlocks {} [older, newer, superblock]).fileSystem.cached 16).map Entry.versionId = some 5 := by
  intro older newer superblock
  have hnode (node : Node) : nextBlockSize 4096 (nodeImage node) = 4096 :=
    if_neg (not_isSuperblock_of_isNode (isNode_nodeImage node))
  have hsuper : nextBlockSize 4096 (superblockImage 2048) = 2048 := by
    rw [nextBlockSize, if_pos (isSuperblock_superblockImage 2048)]
    decide +kernel
  have hnotNode : ¬IsNode 4096 (superblockImage 2048) :=
    fun h => not_isSuperblock_of_isNode h (isSuperblock_superblockImage 2048)
  have hrejected : ¬IsNode 2048 (nodeImage newerInode) := fun h => not_valid_newerInode h.1
  have hnewer : nodeOf (nodeImage newerInode) 4096 = newerInode := by decide +kernel
  have holder : nodeOf (nodeImage olderDirectory) 4096 = olderDirectory := by decide +kernel
  refine ⟨(List.Perm.swap newer superblock []).cons older, ?_, ?_⟩
  · have hnodes : scannedNodes 4096 [older, superblock, newer] = [olderDirectory] := by
      simp only [scannedNodes, older, superblock, newer, hnode, hsuper, isNode_nodeImage, hnotNode,
        hrejected, holder, if_true, if_false, List.append_nil]
    rw [cached_scanBlocks, hnodes]
    decide
  · have hnodes : scannedNodes 4096 [older, newer, superblock] = [olderDirectory, newerInode] := by
      simp only [scannedNodes, older, superblock, newer, hnode, isNode_nodeImage, hnotNode, hnewer,
        holder, if_true, if_false, List.append_nil, List.cons_append, List.nil_append]
    rw [cached_scanBlocks, hnodes]
    decide

end SuperBadBlock
