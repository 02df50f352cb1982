import SuperBadBlock.ApfsScanner.Records

namespace SuperBadBlock

-- The event appends to the extents of an entry in this state.
def Event.Extends (old : Option Entry) : Event → Prop
  | extent xid _ => ∃ e, old = some e ∧ e.extentVersionId ≤ xid
  | _ => False

-- Everything one touch does to the file system.
structure Step (fs : FileSystem) (touch : Nat × Event) (fs' : FileSystem) : Prop where
  consistent : fs'.Consistent
  cached : fs'.cached =
    Function.update fs.cached touch.1 (touch.2.absorb touch.1 (fs.cached touch.1))
  keeps : ∀ j p, fs.diskEntries j = some p → fs'.diskEntries j = some p
  inodes : fs'.entry.map EntryRow.inode =
    fs.entry.map EntryRow.inode ++ if (fs.cached touch.1).isSome then [] else [touch.1]
  extent : ¬touch.2.Extends (fs.cached touch.1) → fs'.extent = fs.extent

-- An edited entry that has been written back is one step.
theorem FileSystem.Editing.step {base fs : FileSystem} {i : Nat} {p : EntryPtr} {event : Event}
    (h : Editing base fs i p) (hb : base.Consistent)
    (hevent : event.absorb i (base.cached i) = some (fs.heap p).settle)
    (hextents : ¬event.Extends (base.cached i) → (fs.heap p).extentsUpdated = false) :
    Step base (i, event) (fs.updateEntry p) where
  consistent := h.consistent_updateEntry hb
  cached := by rw [h.cached_updateEntry, hevent]
  keeps := h.keeps_updateEntry
  inodes := h.inodes_updateEntry
  extent hx := h.extent_updateEntry (hextents hx)

variable (block : Memory) {fs : FileSystem}

theorem FileSystem.Consistent.cached_settle (h : fs.Consistent) {i : Nat} {e : Entry}
    (he : fs.cached i = some e) : e.settle = e := by
  obtain ⟨p, hp, rfl⟩ := Option.map_eq_some_iff.mp he
  exact h.settled i p hp

theorem FileSystem.Consistent.getD_extentsUpdated (h : fs.Consistent) (i : Nat) :
    ((fs.cached i).getD { inode := i }).extentsUpdated = false := by
  cases he : fs.cached i with
  | none => rfl
  | some e =>
      rw [Option.getD_some, ← h.cached_settle he]
      rfl

theorem FileSystem.Consistent.getD_settle (h : fs.Consistent) (i : Nat) :
    ((fs.cached i).getD { inode := i }).settle =
      (fs.cached i).getD { inode := i, isNew := false } := by
  cases he : fs.cached i with
  | none => rfl
  | some e => exact h.cached_settle he

theorem heap_modify (fs : FileSystem) (p : EntryPtr) (f : Entry → Entry) :
    (fs.modify p f).heap p = f (fs.heap p) := Function.update_self _ _ _

theorem modify_modify (fs : FileSystem) (p : EntryPtr) (f g : Entry → Entry) :
    (fs.modify p f).modify p g = fs.modify p fun e => g (f e) := by
  simp [FileSystem.modify]

theorem step_scanInode (h : fs.Consistent) (pair : KeyValuePair) (valueId : Nat) :
    Step fs (valueId, .inode (block.o_xid 0).val (block.parent_id pair.value).val
      (inodeLength block pair).val) (scanInode block pair valueId fs).val.2 := by
  obtain ⟨hediting, hheap⟩ := h.findOrNew valueId
  have hold := h.getD_extentsUpdated valueId
  simp only [scanInode, Traced.val_bind, Traced.val_pure, Traced.val_ite, hheap]
  split_ifs with hv
  · refine (hediting.modify _ rfl rfl (fun hx => ⟨hx, rfl⟩)).step h ?_ (fun _ => ?_)
    · rw [heap_modify, hheap, Event.absorb, ← h.getD_settle]
      exact congrArg some (if_pos hv)
    · rw [heap_modify, hheap]
      exact hold
  · refine hediting.step h ?_ (fun _ => by rw [hheap, hold])
    rw [hheap, Event.absorb, ← h.getD_settle]
    exact congrArg some (if_neg hv)

theorem step_scanDirRec (h : fs.Consistent) (fileEntry : Option EntryPtr) (dirId : Nat)
    (hdir : ∀ p, fileEntry = some p → fs.diskEntries dirId = some p) (jKey valPtr : Int) :
    Step fs ((block.file_id valPtr).val, .dirRec (block.o_xid 0).val (fileEntry.map fun _ => dirId)
      (block.drec_name jKey).val ((block.drec_flags valPtr).val &&& DREC_TYPE_MASK))
      (scanDirRec block fileEntry jKey valPtr fs).val := by
  obtain ⟨hediting, hheap⟩ := h.findOrNew (block.file_id valPtr).val
  have hold := h.getD_extentsUpdated (block.file_id valPtr).val
  simp only [scanDirRec, Traced.val_bind, Traced.val_pure, Traced.val_ite, hheap]
  split_ifs with hv
  · cases fileEntry with
    | none =>
        refine (hediting.modify _ rfl rfl (fun hx => ⟨hx, rfl⟩)).step h ?_ (fun _ => ?_)
        · rw [heap_modify, hheap, Event.absorb, ← h.getD_settle]
          exact congrArg some (if_pos hv)
        · rw [heap_modify, hheap]
          exact hold
    | some dir =>
        -- The directory's own object still carries its inode number.
        have hinode := hediting.inode_of_cached h (hdir dir rfl)
        simp only [modify_modify, hinode]
        refine (hediting.modify _ rfl rfl (fun hx => ⟨hx, rfl⟩)).step h ?_ (fun _ => ?_)
        · rw [heap_modify, hheap, Event.absorb, ← h.getD_settle]
          exact congrArg some (if_pos hv)
        · rw [heap_modify, hheap]
          exact hold
  · refine hediting.step h ?_ (fun _ => by rw [hheap, hold])
    rw [hheap, Event.absorb, ← h.getD_settle]
    exact congrArg some (if_neg hv)

theorem step_scanFileExtent (h : fs.Consistent) {p : EntryPtr} {i : Nat}
    (hp : fs.diskEntries i = some p) (jKey valPtr : Int) :
    Step fs (i, .extent (block.o_xid 0).val {
        logicalAddress := (block.logical_addr jKey).val
        physicalBlock := (block.phys_block_num valPtr).val
        length := (block.len_and_flags valPtr).val &&& J_FILE_EXTENT_LEN_MASK })
      (scanFileExtent block (some p) jKey valPtr fs).val := by
  have hediting := h.editing hp
  have hcached : fs.cached i = some (fs.heap p) := by simp [FileSystem.cached, hp]
  have hsettle := h.settled i p hp
  simp only [scanFileExtent, Traced.val_bind, Traced.val_pure, Traced.val_ite]
  split_ifs with hv hlt
  · rw [modify_modify]
    refine (hediting.modify _ rfl rfl (fun hx => by cases hx)).step h ?_ (fun hx => ?_)
    · rw [heap_modify, hcached, Event.absorb, Option.map_some, if_pos hv, if_pos hlt, ← hsettle]
      rfl
    · exact absurd ⟨fs.heap p, hcached, hv⟩ hx
  · refine (hediting.modify _ rfl rfl (fun hx => by cases hx)).step h ?_ (fun hx => ?_)
    · have heq : (fs.heap p).extentVersionId = (block.o_xid 0).val := by omega
      rw [heap_modify, hcached, Event.absorb, Option.map_some, if_pos hv, if_neg hlt, ← heq, ← hsettle]
      rfl
    · exact absurd ⟨fs.heap p, hcached, hv⟩ hx
  · have hsame : (Event.extent (block.o_xid 0).val {
        logicalAddress := (block.logical_addr jKey).val
        physicalBlock := (block.phys_block_num valPtr).val
        length := (block.len_and_flags valPtr).val &&& J_FILE_EXTENT_LEN_MASK }).absorb i
          (fs.cached i) = fs.cached i := by
      rw [hcached, Event.absorb, Option.map_some, if_neg hv]
    exact ⟨h, by rw [hsame, Function.update_eq_self], fun _ _ hq => hq, by simp [hcached],
      fun _ => rfl⟩

theorem diskEntries_scanInode (h : fs.Consistent) (pair : KeyValuePair) (valueId : Nat) :
    (scanInode block pair valueId fs).val.2.diskEntries valueId =
      some (scanInode block pair valueId fs).val.1 := by
  obtain ⟨hediting, -⟩ := h.findOrNew valueId
  simp only [scanInode, Traced.val_bind, Traced.val_pure, Traced.val_ite]
  split_ifs with hv
  · rw [(hediting.modify _ rfl rfl (fun hx => ⟨hx, rfl⟩)).diskEntries_updateEntry,
      Function.update_self]
  · rw [hediting.diskEntries_updateEntry, Function.update_self]

inductive Steps : FileSystem → List (Nat × Event) → FileSystem → Prop
  | done {fs : FileSystem} : fs.Consistent → Steps fs [] fs
  | step {fs fs' fs'' : FileSystem} {touch : Nat × Event} {touches : List (Nat × Event)} :
      Step fs touch fs' → Steps fs' touches fs'' → Steps fs (touch :: touches) fs''

theorem Steps.consistent {fs fs' : FileSystem} {touches : List (Nat × Event)}
    (h : Steps fs touches fs') : fs'.Consistent := by
  induction h with
  | done h => exact h
  | step _ _ ih => exact ih

theorem Steps.eq_of_nil {fs fs' : FileSystem} (h : Steps fs [] fs') : fs' = fs := by
  cases h
  rfl

theorem Steps.single {fs fs' : FileSystem} {touch : Nat × Event} (h : Step fs touch fs') :
    Steps fs [touch] fs' := .step h (.done h.consistent)

theorem Steps.of_single {fs fs' : FileSystem} {touch : Nat × Event} (h : Steps fs [touch] fs') :
    Step fs touch fs' := by
  cases h with
  | step hstep hrest =>
      rw [hrest.eq_of_nil]
      exact hstep

theorem Steps.append {fs fs' fs'' : FileSystem} {first second : List (Nat × Event)}
    (h : Steps fs first fs') (h' : Steps fs' second fs'') : Steps fs (first ++ second) fs'' := by
  induction h with
  | done _ => exact h'
  | step hstep _ ih => exact .step hstep (ih h')

theorem Steps.keeps {fs fs' : FileSystem} {touches : List (Nat × Event)}
    (h : Steps fs touches fs') (j : Nat) (p : EntryPtr) (hp : fs.diskEntries j = some p) :
    fs'.diskEntries j = some p := by
  induction h with
  | done _ => exact hp
  | step hstep _ ih => exact ih (hstep.keeps j p hp)

-- `fileEntry` is the cached object of inode `id` once an inode record of the
-- group has been seen, and null before.
def Holds (fs : FileSystem) (id : Nat) (attached : Bool) (fileEntry : Option EntryPtr) : Prop :=
  fileEntry.isSome = attached ∧ ∀ p, fileEntry = some p → fs.diskEntries id = some p

theorem Holds.keeps {fs fs' : FileSystem} {id : Nat} {attached : Bool} {fileEntry : Option EntryPtr}
    {touches : List (Nat × Event)} (h : Holds fs id attached fileEntry) (hs : Steps fs touches fs') :
    Holds fs' id attached fileEntry :=
  ⟨h.1, fun p hp => hs.keeps id p (h.2 p hp)⟩

theorem steps_scanPair (h : fs.Consistent) (pair : KeyValuePair) (attached : Bool)
    (fileEntry : Option EntryPtr) (hfile : Holds fs (decode block pair).id attached fileEntry) :
    Steps fs ((decode block pair).touch (block.o_xid 0).val attached).toList
      (scanPair block (fileEntry, fs) pair).val.2 ∧
    Holds (scanPair block (fileEntry, fs) pair).val.2 (decode block pair).id
      (attached || (decode block pair).isInode) (scanPair block (fileEntry, fs) pair).val.1 := by
  rw [id_decode] at hfile ⊢
  unfold scanPair decode
  simp only [Traced.val_bind, Traced.val_ite, Traced.val_pure]
  generalize htype : (block.obj_id_and_type pair.key).val >>> OBJ_TYPE_SHIFT = type
  by_cases hinode : type = APFS_TYPE_INODE
  · subst hinode
    have hstep := step_scanInode block h pair
      ((block.obj_id_and_type pair.key).val &&& OBJ_ID_MASK)
    have hentry := diskEntries_scanInode block h pair
      ((block.obj_id_and_type pair.key).val &&& OBJ_ID_MASK)
    simp only [show APFS_TYPE_INODE ≠ APFS_TYPE_ANY by decide, ite_true, ite_false]
    refine ⟨.single hstep, by simp [Record.isInode], fun p hp => ?_⟩
    rw [hentry]
    exact hp
  by_cases hextent : type = APFS_TYPE_FILE_EXTENT
  · subst hextent
    simp only [show APFS_TYPE_FILE_EXTENT ≠ APFS_TYPE_ANY by decide, hinode, ite_true, ite_false,
      Record.touch, Record.isInode, Bool.or_false]
    cases fileEntry with
    | none =>
        obtain rfl : attached = false := by simpa using hfile.1.symm
        exact ⟨.done h, hfile⟩
    | some p =>
        obtain rfl : attached = true := by simpa using hfile.1.symm
        have hsteps := Steps.single (step_scanFileExtent block h (hfile.2 p rfl) pair.key pair.value)
        exact ⟨hsteps, hfile.keeps hsteps⟩
  by_cases hdir : type = APFS_TYPE_DIR_REC
  · subst hdir
    have hsteps := Steps.single (step_scanDirRec block h fileEntry _ hfile.2 pair.key pair.value)
    have hparent : (fileEntry.map fun _ => (block.obj_id_and_type pair.key).val &&& OBJ_ID_MASK) =
        if attached then some ((block.obj_id_and_type pair.key).val &&& OBJ_ID_MASK) else none := by
      rw [← hfile.1]
      cases fileEntry <;> rfl
    rw [hparent] at hsteps
    simp only [show APFS_TYPE_DIR_REC ≠ APFS_TYPE_ANY by decide, hinode, hextent, ite_true, ite_false,
      Record.touch, Record.isInode, Bool.or_false]
    exact ⟨hsteps, hfile.keeps hsteps⟩
  · simp only [hinode, hextent, hdir, ite_false, ite_self, Record.touch, Record.isInode, Bool.or_false]
    exact ⟨.done h, hfile⟩

theorem steps_scanPairs (h : fs.Consistent) (id : Nat) (pairs : List KeyValuePair)
    (hid : ∀ pair ∈ pairs, (decode block pair).id = id) (attached : Bool)
    (fileEntry : Option EntryPtr) (hfile : Holds fs id attached fileEntry) :
    Steps fs (groupTouches (block.o_xid 0).val attached (pairs.map (decode block)))
      (pairs.foldlM (scanPair block) (fileEntry, fs)).val.2 ∧
    ∃ attached', Holds (pairs.foldlM (scanPair block) (fileEntry, fs)).val.2 id attached'
      (pairs.foldlM (scanPair block) (fileEntry, fs)).val.1 := by
  induction pairs generalizing fs attached fileEntry with
  | nil => exact ⟨.done h, attached, hfile⟩
  | cons pair pairs ih =>
      obtain ⟨hhead, htail⟩ := List.forall_mem_cons.mp hid
      rw [← hhead] at hfile
      obtain ⟨hsteps, hnext⟩ := steps_scanPair block h pair attached fileEntry hfile
      rw [hhead] at hnext
      obtain ⟨hrest, hlast⟩ := ih hsteps.consistent htail _ _ hnext
      rw [List.foldlM_cons, Traced.val_bind, List.map_cons, groupTouches]
      exact ⟨hsteps.append hrest, hlast⟩

-- The write-back at the end of a group finds nothing left to write.
theorem steps_scanGroup (h : fs.Consistent) (id : Nat) (pairs : List KeyValuePair)
    (hid : ∀ pair ∈ pairs, (decode block pair).id = id) :
    Steps fs (groupTouches (block.o_xid 0).val false (pairs.map (decode block)))
      (scanGroup block fs pairs).val := by
  obtain ⟨hsteps, attached, hfile⟩ := steps_scanPairs block h id pairs hid false none ⟨rfl, by simp⟩
  simp only [scanGroup, Traced.val_bind]
  split
  · rename_i p hp
    rw [Traced.val_pure, hsteps.consistent.updateEntry_eq_self (hfile.2 p hp)]
    exact hsteps
  · exact hsteps

theorem steps_scanGroups (h : fs.Consistent) (groups : List (Nat × List KeyValuePair))
    (hkeyed : Grouping.Keyed (fun pair => (decode block pair).id) groups) :
    Steps fs ((Grouping.mapValues (decode block) groups).flatMap fun entry =>
        groupTouches (block.o_xid 0).val false entry.2)
      (groups.foldlM (fun fs entry => scanGroup block fs entry.2) fs).val := by
  induction groups generalizing fs with
  | nil => exact .done h
  | cons entry groups ih =>
      obtain ⟨hhead, htail⟩ := List.forall_mem_cons.mp hkeyed
      have hsteps := steps_scanGroup block h entry.1 entry.2 hhead
      exact hsteps.append (ih hsteps.consistent htail)

theorem val_groupEntries (keyBasePtr valBasePtr : Int) (tableOfContents : List KvLoc)
    (objId2inode : Nat → Option Nat) (entries : List (Nat × List KeyValuePair)) :
    (tableOfContents.foldlM (groupEntry block keyBasePtr valBasePtr) (objId2inode, entries)).val.2 =
      (tableOfContents.map (pairOf keyBasePtr valBasePtr)).foldl
        (fun groups pair => Grouping.push (decode block pair).id pair groups) entries := by
  induction tableOfContents generalizing objId2inode entries with
  | nil => rfl
  | cons toc tableOfContents ih =>
      have hstep : (groupEntry block keyBasePtr valBasePtr (objId2inode, entries) toc).val.2 =
          Grouping.push (decode block (pairOf keyBasePtr valBasePtr toc)).id
            (pairOf keyBasePtr valBasePtr toc) entries := by
        rw [id_decode, groupEntry]
        simp only [Traced.val_bind, Traced.val_pure, Traced.val_ite]
        split_ifs <;> rfl
      rw [List.foldlM_cons, Traced.val_bind, List.map_cons, List.foldl_cons, ← hstep]
      exact ih _ _

-- The map `entries` that `scanBTreeBlock` fills and then goes through.
def nodeEntries (scanner : APFSScanner) : List (Nat × List KeyValuePair) :=
  let (keyBasePtr, valBasePtr, tableOfContents) := (readNode block scanner.currentBlockSize).val
  (tableOfContents.foldlM (groupEntry block keyBasePtr valBasePtr) (scanner.objId2inode, [])).val.2

theorem fileSystem_scanBTreeBlock (scanner : APFSScanner) :
    (scanBTreeBlock block scanner).val.fileSystem =
      ((nodeEntries block scanner).foldlM (fun fs entry => scanGroup block fs entry.2)
        scanner.fileSystem).val := by
  simp only [scanBTreeBlock, Traced.val_bind, Traced.val_pure]
  rfl

theorem nodeEntries_eq (scanner : APFSScanner) :
    nodeEntries block scanner =
      Grouping.group (fun pair => (decode block pair).id) (nodePairs block scanner.currentBlockSize) :=
  val_groupEntries block _ _ _ scanner.objId2inode []

theorem val_scanBTreeBlock (scanner : APFSScanner) :
    (scanBTreeBlock block scanner).val.fileSystem =
      ((Grouping.group (fun pair => (decode block pair).id)
        (nodePairs block scanner.currentBlockSize)).foldlM
          (fun fs entry => scanGroup block fs entry.2) scanner.fileSystem).val := by
  rw [fileSystem_scanBTreeBlock, nodeEntries_eq]

-- A node acts on the file system exactly by its touches.
theorem steps_scanBTreeBlock (scanner : APFSScanner) (h : scanner.fileSystem.Consistent) :
    Steps scanner.fileSystem (nodeOf block scanner.currentBlockSize).touches
      (scanBTreeBlock block scanner).val.fileSystem := by
  rw [val_scanBTreeBlock, Node.touches, Node.groups, nodeOf, Grouping.group_map]
  exact steps_scanGroups block h _ (Grouping.keyed_group _ _)

end SuperBadBlock
