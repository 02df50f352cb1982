import SuperBadBlock.ApfsScanner.Listing
import SuperBadBlock.FileSystem.Clear

namespace SuperBadBlock

open FileSystem

section Invariant

variable (block : Memory) {C : Nat → Prop} {fs : FileSystem}

theorem keeps_scanInode (h : Remembers C fs) (pair : KeyValuePair) (valueId : Nat) :
    Keeps C fs (scanInode block pair valueId fs).val.2 ∧
      Writable C (scanInode block pair valueId fs).val.2 (scanInode block pair valueId fs).val.1 := by
  obtain ⟨hfound, hentry⟩ := h.findOrNew valueId
  simp only [scanInode, Traced.val_bind, Traced.val_pure, Traced.val_ite]
  split_ifs with hversion
  · have hedit := hfound.remembers.edit hentry (f := fun e => { e with
      parentId := (block.parent_id pair.value).val, versionId := (block.o_xid 0).val,
      length := (inodeLength block pair).val.getD e.length }) rfl rfl
    exact ⟨hfound.trans hedit, hedit.writable _ hentry⟩
  · have hwrite := hfound.remembers.updateEntry hentry
    exact ⟨hfound.trans hwrite, hwrite.writable _ hentry⟩

theorem keeps_scanFileExtent (h : Remembers C fs) {fileEntry : Option EntryPtr}
    (hfile : ∀ p, fileEntry = some p → Writable C fs p) (jKey valPtr : Int) :
    Keeps C fs (scanFileExtent block fileEntry jKey valPtr fs).val := by
  cases fileEntry with
  | none => exact h.keeps
  | some p =>
      simp only [scanFileExtent, Traced.val_bind, Traced.val_pure, Traced.val_ite]
      split_ifs with hversion hnewer
      · rw [modify_modify]
        exact h.edit (hfile p rfl) rfl rfl
      · exact h.edit (hfile p rfl) rfl rfl
      · exact h.keeps

theorem keeps_scanDirRec (h : Remembers C fs) (fileEntry : Option EntryPtr) (jKey valPtr : Int) :
    Keeps C fs (scanDirRec block fileEntry jKey valPtr fs).val := by
  obtain ⟨hfound, hentry⟩ := h.findOrNew (block.file_id valPtr).val
  simp only [scanDirRec, Traced.val_bind, Traced.val_pure, Traced.val_ite]
  split_ifs with hversion
  · cases fileEntry with
    | none => exact hfound.trans (hfound.remembers.edit hentry rfl rfl)
    | some dir =>
        dsimp only
        rw [modify_modify]
        exact hfound.trans (hfound.remembers.edit hentry rfl rfl)
  · exact hfound.trans (hfound.remembers.updateEntry hentry)

theorem keeps_scanPair (h : Remembers C fs) {fileEntry : Option EntryPtr}
    (hfile : ∀ p, fileEntry = some p → Writable C fs p) (pair : KeyValuePair) :
    Keeps C fs (scanPair block (fileEntry, fs) pair).val.2 ∧
      ∀ p, (scanPair block (fileEntry, fs) pair).val.1 = some p →
        Writable C (scanPair block (fileEntry, fs) pair).val.2 p := by
  unfold scanPair
  simp only [Traced.val_bind, Traced.val_ite, Traced.val_pure]
  split_ifs with hany hinode hextent hdir
  · exact ⟨h.keeps, hfile⟩
  · obtain ⟨hkeeps, hentry⟩ := keeps_scanInode block h pair _
    refine ⟨hkeeps, fun p hp => ?_⟩
    obtain rfl := Option.some.inj hp
    exact hentry
  · have hkeeps := keeps_scanFileExtent block h hfile pair.key pair.value
    exact ⟨hkeeps, fun p hp => hkeeps.writable p (hfile p hp)⟩
  · have hkeeps := keeps_scanDirRec block h fileEntry pair.key pair.value
    exact ⟨hkeeps, fun p hp => hkeeps.writable p (hfile p hp)⟩
  · exact ⟨h.keeps, hfile⟩

theorem keeps_scanPairs (h : Remembers C fs) {fileEntry : Option EntryPtr}
    (hfile : ∀ p, fileEntry = some p → Writable C fs p) (pairs : List KeyValuePair) :
    Keeps C fs (pairs.foldlM (scanPair block) (fileEntry, fs)).val.2 ∧
      ∀ p, (pairs.foldlM (scanPair block) (fileEntry, fs)).val.1 = some p →
        Writable C (pairs.foldlM (scanPair block) (fileEntry, fs)).val.2 p := by
  induction pairs generalizing fs fileEntry with
  | nil => exact ⟨h.keeps, hfile⟩
  | cons pair pairs ih =>
      obtain ⟨hkeeps, hnext⟩ := keeps_scanPair block h hfile pair
      obtain ⟨hrest, hlast⟩ := ih hkeeps.remembers hnext
      rw [List.foldlM_cons, Traced.val_bind]
      exact ⟨hkeeps.trans hrest, hlast⟩

theorem keeps_scanGroup (h : Remembers C fs) (pairs : List KeyValuePair) :
    Keeps C fs (scanGroup block fs pairs).val := by
  obtain ⟨hkeeps, hlast⟩ := @keeps_scanPairs block C fs h none (fun p hp => by cases hp) pairs
  simp only [scanGroup, Traced.val_bind]
  split
  · rename_i p hp
    exact hkeeps.trans (hkeeps.remembers.updateEntry (hlast p hp))
  · exact hkeeps

theorem keeps_scanGroups (h : Remembers C fs) (groups : List (Nat × List KeyValuePair)) :
    Keeps C fs (groups.foldlM (fun fs entry => scanGroup block fs entry.2) fs).val := by
  induction groups generalizing fs with
  | nil => exact h.keeps
  | cons entry groups ih =>
      have hkeeps := keeps_scanGroup block h entry.2
      rw [List.foldlM_cons, Traced.val_bind]
      exact hkeeps.trans (ih hkeeps.remembers)

theorem remembers_scanBlock (scanner : APFSScanner) (h : Remembers C scanner.fileSystem) (pos : Nat)
    (sectorSize : Nat) : Remembers C (scanBlock scanner pos block sectorSize).val.fileSystem := by
  rw [val_scanBlock]
  by_cases hn : IsNode scanner.currentBlockSize block
  · rw [if_pos hn, val_scanBTreeBlock]
    exact (keeps_scanGroups block h _).remembers
  · rw [if_neg hn]
    split_ifs <;> exact h

end Invariant

theorem remembers_scanBlocks {C : Nat → Prop} (scanner : APFSScanner)
    (h : Remembers C scanner.fileSystem) (blocks : List ScannedBlock) :
    Remembers C (scanBlocks scanner blocks).fileSystem := by
  induction blocks generalizing scanner with
  | nil => exact h
  | cons b blocks ih => exact ih _ (remembers_scanBlock b.block scanner h b.pos b.sectorSize)

section Simulation

variable (block : Memory) {C : Nat → Prop} {fs fs' : FileSystem}

theorem agree_scanInode (h : AgreeOutside C fs fs') (pair : KeyValuePair) {valueId : Nat}
    (hid : ¬C valueId) :
    (scanInode block pair valueId fs').val.1 = (scanInode block pair valueId fs).val.1 ∧
      AgreeOutside C (scanInode block pair valueId fs).val.2 (scanInode block pair valueId fs').val.2 := by
  obtain ⟨hptr, hagree⟩ := h.findOrNew hid
  simp only [scanInode, Traced.val_bind, Traced.val_pure, Traced.val_ite]
  rw [hptr, hagree.heap]
  split_ifs with hversion
  · exact ⟨rfl, (hagree.modify _ _).updateEntry _⟩
  · exact ⟨rfl, hagree.updateEntry _⟩

theorem agree_scanFileExtent (h : AgreeOutside C fs fs') (fileEntry : Option EntryPtr)
    (jKey valPtr : Int) :
    AgreeOutside C (scanFileExtent block fileEntry jKey valPtr fs).val
      (scanFileExtent block fileEntry jKey valPtr fs').val := by
  cases fileEntry with
  | none => exact h
  | some p =>
      simp only [scanFileExtent, Traced.val_bind, Traced.val_pure, Traced.val_ite]
      rw [h.heap]
      split_ifs with hversion hnewer
      · exact ((h.modify _ _).modify _ _).updateEntry _
      · exact (h.modify _ _).updateEntry _
      · exact h

theorem agree_scanDirRec (h : AgreeOutside C fs fs') (fileEntry : Option EntryPtr) (jKey : Int)
    {valPtr : Int} (hid : ¬C (block.file_id valPtr).val) :
    AgreeOutside C (scanDirRec block fileEntry jKey valPtr fs).val
      (scanDirRec block fileEntry jKey valPtr fs').val := by
  obtain ⟨hptr, hagree⟩ := h.findOrNew hid
  simp only [scanDirRec, Traced.val_bind, Traced.val_pure, Traced.val_ite]
  rw [hptr, hagree.heap]
  split_ifs with hversion
  · cases fileEntry with
    | none => exact (hagree.modify _ _).updateEntry _
    | some dir => exact ((hagree.modify _ _).modify _ _).updateEntry _
  · exact hagree.updateEntry _

theorem agree_scanPair (h : AgreeOutside C fs fs') (fileEntry : Option EntryPtr) {pair : KeyValuePair}
    (hpair : ∀ i, (decode block pair).Mentions i → ¬C i) :
    (scanPair block (fileEntry, fs') pair).val.1 = (scanPair block (fileEntry, fs) pair).val.1 ∧
      AgreeOutside C (scanPair block (fileEntry, fs) pair).val.2
        (scanPair block (fileEntry, fs') pair).val.2 := by
  unfold decode at hpair
  unfold scanPair
  simp only [Traced.val_bind, Traced.val_ite, Traced.val_pure]
  split_ifs with hany hinode hextent hdir
  · exact ⟨rfl, h⟩
  · have hid : ¬C ((block.obj_id_and_type pair.key).val &&& OBJ_ID_MASK) :=
      hpair _ (by rw [if_pos hinode]; rfl)
    obtain ⟨hptr, hagree⟩ := agree_scanInode block h pair hid
    exact ⟨congrArg some hptr, hagree⟩
  · exact ⟨rfl, agree_scanFileExtent block h fileEntry pair.key pair.value⟩
  · have hid : ¬C (block.file_id pair.value).val :=
      hpair _ (by rw [if_neg hinode, if_neg hextent, if_pos hdir]; rfl)
    have hagree := agree_scanDirRec block h fileEntry pair.key hid
    exact ⟨rfl, hagree⟩
  · exact ⟨rfl, h⟩

theorem agree_scanPairs (h : AgreeOutside C fs fs') (fileEntry : Option EntryPtr)
    {pairs : List KeyValuePair} (hpairs : ∀ pair ∈ pairs, ∀ i, (decode block pair).Mentions i → ¬C i) :
    (pairs.foldlM (scanPair block) (fileEntry, fs')).val.1 =
        (pairs.foldlM (scanPair block) (fileEntry, fs)).val.1 ∧
      AgreeOutside C (pairs.foldlM (scanPair block) (fileEntry, fs)).val.2
        (pairs.foldlM (scanPair block) (fileEntry, fs')).val.2 := by
  induction pairs generalizing fs fs' fileEntry with
  | nil => exact ⟨rfl, h⟩
  | cons pair pairs ih =>
      obtain ⟨hhead, htail⟩ := List.forall_mem_cons.mp hpairs
      obtain ⟨hptr, hagree⟩ := agree_scanPair block h fileEntry hhead
      rw [List.foldlM_cons, List.foldlM_cons, Traced.val_bind, Traced.val_bind]
      rcases hstep : (scanPair block (fileEntry, fs) pair).val with ⟨next, fs₁⟩
      rcases hstep' : (scanPair block (fileEntry, fs') pair).val with ⟨next', fs₁'⟩
      rw [hstep, hstep'] at hptr hagree
      obtain rfl : next' = next := hptr
      exact ih hagree next' htail

theorem agree_scanGroup (h : AgreeOutside C fs fs') {pairs : List KeyValuePair}
    (hpairs : ∀ pair ∈ pairs, ∀ i, (decode block pair).Mentions i → ¬C i) :
    AgreeOutside C (scanGroup block fs pairs).val (scanGroup block fs' pairs).val := by
  obtain ⟨hptr, hagree⟩ := agree_scanPairs block h none hpairs
  simp only [scanGroup, Traced.val_bind]
  rw [hptr]
  split
  · exact hagree.updateEntry _
  · exact hagree

theorem agree_scanGroups (h : AgreeOutside C fs fs') {groups : List (Nat × List KeyValuePair)}
    (hgroups : ∀ entry ∈ groups, ∀ pair ∈ entry.2, ∀ i, (decode block pair).Mentions i → ¬C i) :
    AgreeOutside C (groups.foldlM (fun fs entry => scanGroup block fs entry.2) fs).val
      (groups.foldlM (fun fs entry => scanGroup block fs entry.2) fs').val := by
  induction groups generalizing fs fs' with
  | nil => exact h
  | cons entry groups ih =>
      obtain ⟨hhead, htail⟩ := List.forall_mem_cons.mp hgroups
      rw [List.foldlM_cons, List.foldlM_cons, Traced.val_bind, Traced.val_bind]
      exact ih (agree_scanGroup block h hhead) htail

-- The scan of a node that mentions no inode in `C` does not notice what the cache holds
-- of them.
theorem agree_scanBTreeBlock {scanner scanner' : APFSScanner}
    (h : AgreeOutside C scanner.fileSystem scanner'.fileSystem)
    (hsize : scanner'.currentBlockSize = scanner.currentBlockSize)
    (hrecords : ∀ record ∈ (nodeOf block scanner.currentBlockSize).records, ∀ i, record.Mentions i → ¬C i) :
    AgreeOutside C (scanBTreeBlock block scanner).val.fileSystem
      (scanBTreeBlock block scanner').val.fileSystem := by
  rw [val_scanBTreeBlock, val_scanBTreeBlock, hsize]
  refine agree_scanGroups block h fun entry hentry pair hpair => ?_
  have hmem := (Grouping.group_perm (fun pair => (decode block pair).id)
    (nodePairs block scanner.currentBlockSize)).mem_iff.mp
    (List.mem_flatMap.mpr ⟨entry, hentry, hpair⟩)
  exact hrecords _ (List.mem_map_of_mem hmem)

end Simulation

-- Nodes leave the block size alone.
theorem currentBlockSize_scanBlocks (scanner : APFSScanner) (hsize : scanner.currentBlockSize = 4096)
    {blocks : List ScannedBlock} (hnodes : ∀ b ∈ blocks, IsNode 4096 b.block) :
    (scanBlocks scanner blocks).currentBlockSize = 4096 := by
  induction blocks generalizing scanner with
  | nil => exact hsize
  | cons b blocks ih =>
      obtain ⟨hnode, hnodes⟩ := List.forall_mem_cons.mp hnodes
      refine ih _ ?_ hnodes
      rw [currentBlockSize_scanBlock, hsize]
      exact if_neg (not_isSuperblock_of_isNode hnode)

theorem agree_scanBlocks {C : Nat → Prop} (scanner scanner' : APFSScanner)
    (h : AgreeOutside C scanner.fileSystem scanner'.fileSystem)
    (hsize : scanner.currentBlockSize = 4096) (hsize' : scanner'.currentBlockSize = 4096)
    {blocks : List ScannedBlock} (hnodes : ∀ b ∈ blocks, IsNode 4096 b.block)
    (hrecords : ∀ b ∈ blocks, ∀ record ∈ (nodeOf b.block 4096).records, ∀ i, record.Mentions i → ¬C i) :
    AgreeOutside C (scanBlocks scanner blocks).fileSystem (scanBlocks scanner' blocks).fileSystem := by
  induction blocks generalizing scanner scanner' with
  | nil => exact h
  | cons b blocks ih =>
      obtain ⟨hnode, hnodes⟩ := List.forall_mem_cons.mp hnodes
      obtain ⟨hmentions, hrecords⟩ := List.forall_mem_cons.mp hrecords
      have hkeep : nextBlockSize 4096 b.block = 4096 := if_neg (not_isSuperblock_of_isNode hnode)
      rw [scanBlocks_cons, scanBlocks_cons]
      refine ih _ _ ?_ ?_ ?_ hnodes hrecords
      · rw [val_scanBlock, val_scanBlock, hsize, hsize', if_pos hnode, if_pos hnode]
        exact agree_scanBTreeBlock b.block h (hsize'.trans hsize.symm) (hsize.symm ▸ hmentions)
      · rw [currentBlockSize_scanBlock, hsize, hkeep]
      · rw [currentBlockSize_scanBlock, hsize', hkeep]

-- The states a scanner and its file system get to: over a database with tables of any
-- kind, by lookups, scanned blocks and calls of `clear`, in any order.
inductive Session : APFSScanner → Prop
  | opened (entry : List EntryRow) (extent : List ExtentRow) :
      Session { fileSystem := { entry := entry, extent := extent } }
  | scanned {scanner : APFSScanner} (pos : Nat) (block : Memory) (sectorSize : Nat) :
      Session scanner → Session (scanBlock scanner pos block sectorSize).val
  | byInode {scanner : APFSScanner} (inode : Nat) : Session scanner →
      Session { scanner with fileSystem := (scanner.fileSystem.findByInode inode).2 }
  | byParentInode {scanner : APFSScanner} (inode : Nat) : Session scanner →
      Session { scanner with fileSystem := (scanner.fileSystem.findByParentInode inode).2 }
  | byName {scanner : APFSScanner} (inode : Nat) (name : List UInt8) : Session scanner →
      Session { scanner with fileSystem := (scanner.fileSystem.findByName inode name).2 }
  | byPath {scanner : APFSScanner} (splitString : List UInt8 → UInt8 → List (List UInt8))
      (path : List UInt8) : Session scanner →
      Session { scanner with fileSystem := (scanner.fileSystem.findByPath splitString path).2 }
  | cleared {scanner : APFSScanner} : Session scanner →
      Session { scanner with fileSystem := scanner.fileSystem.clear }

theorem remembers_of_rows (entry : List EntryRow) (extent : List ExtentRow) :
    Remembers (fun _ => False) { entry := entry, extent := extent } where
  allocated i p hp := by cases hp
  keyed i p hp := by cases hp
  isNew i p hp := by cases hp
  cached _ hi := hi.elim
  unlisted _ _ hi := hi

theorem Session.remembers {scanner : APFSScanner} (h : Session scanner) :
    Remembers (fun _ => False) scanner.fileSystem := by
  induction h with
  | opened entry extent => exact remembers_of_rows entry extent
  | scanned pos block sectorSize _ ih => exact remembers_scanBlock block _ ih pos sectorSize
  | byInode inode _ ih => exact (ih.findByInode inode).1.remembers
  | byParentInode inode _ ih => exact (ih.entriesFromQuery _).remembers
  | byName inode name _ ih => exact (ih.findByName inode name).remembers
  | byPath splitString path _ ih => exact (ih.findByPath splitString path).remembers
  | cleared _ ih =>
      have hcleared := ih.clear
      exact ⟨hcleared.allocated, hcleared.keyed, hcleared.isNew, fun _ hi => hi.elim, fun _ _ hi => hi⟩

-- The state of before, had its cache been emptied as well.
theorem consistent_forgotten (heap : EntryPtr → Entry) (top : EntryPtr) :
    Consistent { heap := heap, top := top } where
  allocated := by simp
  keyed := by simp
  settled := by simp
  rows_nodup := by simp
  rows := by simp
  complete := by simp [cached]
  extents := by simp [cached]

-- An inode that a scanned node mentions has a row.
theorem listed_of_mentioned {blocks : List ScannedBlock} (hnodes : ∀ b ∈ blocks, IsNode 4096 b.block)
    {b : ScannedBlock} (hb : b ∈ blocks) {record : Record}
    (hrecord : record ∈ (nodeOf b.block 4096).records) {i : Nat} (hi : record.Mentions i) :
    i ∈ (scanBlocks {} blocks).fileSystem.entry.map EntryRow.inode := by
  have hconsistent : (scanBlocks {} blocks).fileSystem.Consistent := Reachable.consistent ⟨_, rfl⟩
  rw [hconsistent.mem_inodes, cached_scanBlocks]
  refine isSome_foldl_grounded i _ (grounded_eventsOf i _) ?_
  rw [eventsOf_ne_nil_iff, scannedNodes_of_isNode hnodes]
  exact ⟨_, List.mem_map_of_mem hb, record, hrecord, hi⟩

-- After `clear`, a scan leaves the tables of a scan that starts with nothing, exactly
-- if no node mentions an inode that is still in the cache.
theorem clear_starts_over_iff (scanner : APFSScanner) (h : Session scanner)
    (hsize : scanner.currentBlockSize = 4096) (blocks : List ScannedBlock)
    (hnodes : ∀ b ∈ blocks, IsNode 4096 b.block) :
    let again := (scanBlocks { scanner with fileSystem := scanner.fileSystem.clear } blocks).fileSystem
    let fresh := (scanBlocks {} blocks).fileSystem
    (again.entry.Perm fresh.entry ∧ again.extent.Perm fresh.extent) ↔
      ∀ b ∈ blocks, ∀ record ∈ (nodeOf b.block 4096).records, ∀ i, record.Mentions i →
        scanner.fileSystem.diskEntries i = none := by
  intro again fresh
  constructor
  · rintro ⟨hperm, -⟩ b hb record hrecord i hi
    by_contra hcached
    have hagain := remembers_scanBlocks { scanner with fileSystem := scanner.fileSystem.clear }
      h.remembers.clear blocks
    have hlisted := listed_of_mentioned hnodes hb hrecord hi
    rw [← (hperm.map EntryRow.inode).mem_iff] at hlisted
    obtain ⟨row, hrow, rfl⟩ := List.mem_map.mp hlisted
    exact hagain.unlisted row hrow hcached
  · intro hnone
    let forgotten : APFSScanner := { scanner with
      fileSystem := { heap := scanner.fileSystem.heap, top := scanner.fileSystem.top } }
    have hsteps := steps_scanBlocks forgotten (consistent_forgotten _ _) blocks
    have hfresh := steps_scanBlocks {} consistent_empty blocks
    have hcached : (scanBlocks forgotten blocks).fileSystem.cached = fresh.cached := by
      rw [hsteps.cached_eq, hfresh.cached_eq, show forgotten.currentBlockSize = 4096 from hsize]
      rfl
    have hcleared : AgreeOutside (fun i => scanner.fileSystem.diskEntries i ≠ none)
        forgotten.fileSystem scanner.fileSystem.clear :=
      ⟨scanner.fileSystem.diskEntries, rfl, fun i hi => not_not.mp hi⟩
    have hagree : AgreeOutside (fun i => scanner.fileSystem.diskEntries i ≠ none)
        (scanBlocks forgotten blocks).fileSystem again := by
      refine agree_scanBlocks forgotten { scanner with fileSystem := scanner.fileSystem.clear }
        hcleared hsize hsize hnodes ?_
      exact fun b hb record hrecord i hi => not_not.mpr (hnone b hb record hrecord i hi)
    rw [hagree.entry, hagree.extent]
    exact ⟨hfresh.consistent.entry_perm hsteps.consistent hcached,
      hfresh.consistent.extent_perm hsteps.consistent hcached⟩

-- A database of an earlier process, of which nothing has been looked up.
theorem clear_starts_over_of_opened :
    let scanner : APFSScanner := { fileSystem := { entry := [fileRow], extent := [⟨16, 0, 40, 4096⟩] } }
    let again := (scanBlocks { scanner with fileSystem := scanner.fileSystem.clear }
      (nodeImages rootAndFile)).fileSystem
    again.entry.Perm (scanBlocks {} (nodeImages rootAndFile)).fileSystem.entry ∧
      again.extent.Perm (scanBlocks {} (nodeImages rootAndFile)).fileSystem.extent := by
  intro scanner
  exact (clear_starts_over_iff scanner (.opened _ _) rfl (nodeImages rootAndFile)
    (List.forall_mem_map.mpr fun node _ => isNode_nodeImage node)).mpr fun _ _ _ _ _ _ => rfl

theorem Session.scanBlocks {scanner : APFSScanner} (h : Session scanner) (blocks : List ScannedBlock) :
    Session (SuperBadBlock.scanBlocks scanner blocks) := by
  induction blocks generalizing scanner with
  | nil => exact h
  | cons b blocks ih => exact ih (h.scanned b.pos b.block b.sectorSize)

-- A node that has been scanned, and after `clear` is scanned once more.
def scannedOnce : APFSScanner := scanBlocks {} (nodeImages rootAndFile)

def scannedAgain : APFSScanner :=
  scanBlocks { scannedOnce with fileSystem := scannedOnce.fileSystem.clear } (nodeImages rootAndFile)

-- Its file is not listed again.
theorem clear_leaves_cache :
    Session scannedOnce ∧ scannedOnce.currentBlockSize = 4096 ∧
      (∀ b ∈ nodeImages rootAndFile, IsNode 4096 b.block) ∧
      16 ∉ scannedAgain.fileSystem.entry.map EntryRow.inode ∧
      ¬scannedAgain.fileSystem.entry.Perm
        (scanBlocks {} (nodeImages rootAndFile)).fileSystem.entry := by
  have hnodes : ∀ b ∈ nodeImages rootAndFile, IsNode 4096 b.block :=
    List.forall_mem_map.mpr fun node _ => isNode_nodeImage node
  have hempty : Session {} := Session.opened [] []
  have hsession : Session scannedOnce := hempty.scanBlocks _
  have hlisted : 16 ∈ (scanBlocks {} (nodeImages rootAndFile)).fileSystem.entry.map EntryRow.inode :=
    List.mem_map.mpr ⟨fileRow, (mem_entry_rootAndFile fileRow).mpr (Or.inr rfl), rfl⟩
  have hcached : scannedOnce.fileSystem.diskEntries 16 ≠ none := by
    have hconsistent : (scanBlocks {} (nodeImages rootAndFile)).fileSystem.Consistent :=
      Reachable.consistent ⟨_, rfl⟩
    have hsome := (hconsistent.mem_inodes 16).mp hlisted
    rw [cached, Option.isSome_map] at hsome
    rw [scannedOnce]
    exact Option.isSome_iff_ne_none.mp hsome
  have hagain : Remembers (fun i => scannedOnce.fileSystem.diskEntries i ≠ none)
      scannedAgain.fileSystem := by
    rw [scannedAgain]
    exact remembers_scanBlocks { scannedOnce with fileSystem := scannedOnce.fileSystem.clear }
      hsession.remembers.clear (nodeImages rootAndFile)
  have hunlisted : 16 ∉ scannedAgain.fileSystem.entry.map EntryRow.inode := by
    intro hmem
    obtain ⟨row, hrow, hinode⟩ := List.mem_map.mp hmem
    apply hagain.unlisted row hrow
    rw [hinode]
    exact hcached
  refine ⟨hsession, currentBlockSize_scanBlocks {} rfl hnodes, hnodes, hunlisted, fun hperm => ?_⟩
  exact hunlisted ((hperm.map EntryRow.inode).mem_iff.mpr hlisted)

end SuperBadBlock
