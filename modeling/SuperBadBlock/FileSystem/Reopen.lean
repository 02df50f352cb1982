import SuperBadBlock.FileSystem.Consistent

namespace SuperBadBlock

-- The two entries describe one file; the order of the extents is left open.
structure SameFile (e e' : Entry) : Prop where
  inode : e'.inode = e.inode
  parentId : e'.parentId = e.parentId
  versionId : e'.versionId = e.versionId
  type : e'.type = e.type
  name : e'.name = e.name
  length : e'.length = e.length
  extentVersionId : e'.extentVersionId = e.extentVersionId
  extents : e'.extents.Perm e.extents

namespace FileSystem

-- The entry `getEntryFromQuery` builds from a row and the extent table.
def loaded (extent : List ExtentRow) (row : EntryRow) : Entry where
  inode := row.inode
  parentId := row.parent_inode
  versionId := row.versionId
  type := row.type
  name := row.name
  length := row.length
  extents := (extent.filter fun r => r.inode = row.inode).map ExtentRow.extent
  extentVersionId := row.extentVersionId
  isNew := false
  extentsUpdated := false

theorem Consistent.sameFile_loaded {fs : FileSystem} (h : fs.Consistent) {row : EntryRow}
    (hrow : row ∈ fs.entry) :
    ∃ e, fs.cached row.inode = some e ∧ SameFile e (loaded fs.extent row) := by
  obtain ⟨e, he, hr⟩ := Option.map_eq_some_iff.mp (h.rows row hrow)
  refine ⟨e, he, ?_⟩
  have hextents : (loaded fs.extent row).extents = e.extents := by
    exact (h.extents row.inode).trans (by rw [he]; rfl)
  subst hr
  exact ⟨rfl, rfl, rfl, rfl, rfl, rfl, rfl, hextents ▸ List.Perm.refl _⟩

theorem heap_getEntryFromQuery (fs : FileSystem) (row : EntryRow) :
    (fs.getEntryFromQuery row).2.heap = Function.update fs.heap fs.top (loaded fs.extent row) := rfl

-- The loop allocates one object for each row and leaves the older ones alone.
theorem heap_entriesFromQuery (fs : FileSystem) (rows : List EntryRow) (p : EntryPtr)
    (hp : p < fs.top) : (fs.entriesFromQuery rows).2.heap p = fs.heap p := by
  induction rows generalizing fs with
  | nil => rfl
  | cons row rows ih =>
      have hrest := ih (fs.getEntryFromQuery row).2 (Nat.lt_succ_of_lt hp)
      rw [heap_getEntryFromQuery, Function.update_of_ne (Nat.ne_of_lt hp)] at hrest
      exact hrest

theorem map_heap_entriesFromQuery (fs : FileSystem) (rows : List EntryRow) :
    (fs.entriesFromQuery rows).1.map (fs.entriesFromQuery rows).2.heap =
      rows.map (loaded fs.extent) := by
  induction rows generalizing fs with
  | nil => rfl
  | cons row rows ih =>
      have hfirst : (fs.entriesFromQuery (row :: rows)).2.heap fs.top = loaded fs.extent row := by
        have h := heap_entriesFromQuery (fs.getEntryFromQuery row).2 rows fs.top (Nat.lt_succ_self _)
        rw [heap_getEntryFromQuery, Function.update_self] at h
        exact h
      rw [List.map_cons, ← hfirst]
      exact congrArg _ (ih (fs.getEntryFromQuery row).2)

-- A `FileSystem` that has just opened these tables.
def reopen (fs : FileSystem) : FileSystem := { entry := fs.entry, extent := fs.extent }

theorem heap_findByInode_reopen (fs : FileSystem) (i : Nat) :
    (fs.reopen.findByInode i).1.map (fs.reopen.findByInode i).2.heap =
      (fs.entry.find? fun row => row.inode = i).map (loaded fs.extent) := by
  unfold findByInode
  simp only [reopen]
  cases fs.entry.find? fun row => row.inode = i with
  | none => rfl
  | some row => simp [getEntryFromQuery, newEntry, loaded, ExtentRow.extent]

theorem heap_findByName_reopen (fs : FileSystem) (inode : Nat) (name : List UInt8) :
    (fs.reopen.findByName inode name).1.map (fs.reopen.findByName inode name).2.heap =
      (fs.entry.find? fun row => row.parent_inode = inode ∧ row.name = name).map
        (loaded fs.extent) := by
  unfold findByName
  simp only [reopen]
  cases fs.entry.find? fun row => decide (row.parent_inode = inode ∧ row.name = name) with
  | none => rfl
  | some row => simp [getEntryFromQuery, newEntry, loaded, ExtentRow.extent]

theorem heap_findByParentInode_reopen (fs : FileSystem) (inode : Nat) :
    (fs.reopen.findByParentInode inode).1.map (fs.reopen.findByParentInode inode).2.heap =
      (fs.entry.filter fun row => row.parent_inode = inode).map (loaded fs.extent) :=
  map_heap_entriesFromQuery fs.reopen _

variable {fs : FileSystem}

theorem Consistent.find?_eq_none (h : fs.Consistent) {i : Nat} (hi : fs.cached i = none) :
    fs.entry.find? (fun row => row.inode = i) = none := by
  rw [List.find?_eq_none]
  intro row hrow hr
  have hmem := (h.mem_inodes i).mp (List.mem_map.mpr ⟨row, hrow, of_decide_eq_true hr⟩)
  simp [hi] at hmem

-- Exactly one row for each cached inode, and no other row.
theorem Consistent.count_rows (h : fs.Consistent) (i : Nat) :
    (fs.entry.filter fun row => row.inode = i).length = if (fs.cached i).isSome then 1 else 0 := by
  have hcount : (fs.entry.filter fun row => row.inode = i).length =
      (fs.entry.map EntryRow.inode).count i := by
    rw [List.count_eq_countP, List.countP_map, List.countP_eq_length_filter]
    congr 1
  rw [hcount]
  split_ifs with hs
  · exact List.count_eq_one_of_mem h.rows_nodup ((h.mem_inodes i).mpr hs)
  · exact List.count_eq_zero_of_not_mem (fun hm => hs ((h.mem_inodes i).mp hm))

-- Whatever the cache holds, a reopened database finds under its inode.
theorem Consistent.reopen_findByInode (h : fs.Consistent) {i : Nat} {e : Entry}
    (he : fs.cached i = some e) :
    ∃ q, (fs.reopen.findByInode i).1 = some q ∧
      SameFile e ((fs.reopen.findByInode i).2.heap q) := by
  have hload := heap_findByInode_reopen fs i
  cases hf : fs.entry.find? fun row => row.inode = i with
  | none =>
      rw [List.find?_eq_none] at hf
      obtain ⟨row, hrow, hi⟩ := List.mem_map.mp (h.complete i e he)
      exact absurd (decide_eq_true hi) (hf row hrow)
  | some row =>
      have hi : row.inode = i := of_decide_eq_true (List.find?_some (p := fun row : EntryRow => decide (row.inode = i)) hf)
      obtain ⟨e', he', hsame⟩ := h.sameFile_loaded (List.mem_of_find?_eq_some hf)
      rw [hi, he] at he'
      cases he'
      rw [hf, Option.map_some, Option.map_eq_some_iff] at hload
      obtain ⟨q, hq, hheap⟩ := hload
      exact ⟨q, hq, hheap ▸ hsame⟩

theorem Consistent.reopen_findByInode_none (h : fs.Consistent) {i : Nat}
    (hi : fs.cached i = none) : (fs.reopen.findByInode i).1 = none := by
  have hload := heap_findByInode_reopen fs i
  rw [h.find?_eq_none hi, Option.map_none, Option.map_eq_none_iff] at hload
  exact hload

-- A listing loads the cached entries with that parent, and no others.
theorem Consistent.reopen_findByParentInode (h : fs.Consistent) (parent : Nat) :
    (∀ q ∈ (fs.reopen.findByParentInode parent).1, ∃ i e, fs.cached i = some e ∧
      e.parentId = parent ∧ SameFile e ((fs.reopen.findByParentInode parent).2.heap q)) ∧
    (∀ i e, fs.cached i = some e → e.parentId = parent →
      ∃ q ∈ (fs.reopen.findByParentInode parent).1,
        SameFile e ((fs.reopen.findByParentInode parent).2.heap q)) := by
  have hload := heap_findByParentInode_reopen fs parent
  constructor
  · intro q hq
    have hm := List.mem_map_of_mem (f := (fs.reopen.findByParentInode parent).2.heap) hq
    rw [hload, List.mem_map] at hm
    obtain ⟨row, hrow, heq⟩ := hm
    obtain ⟨hrow, hparent⟩ := List.mem_filter.mp hrow
    obtain ⟨e, he, hsame⟩ := h.sameFile_loaded hrow
    exact ⟨row.inode, e, he, hsame.parentId.symm.trans (of_decide_eq_true hparent), heq ▸ hsame⟩
  · intro i e he hparent
    have hrow := h.row_mem he
    obtain ⟨e', he', hsame⟩ := h.sameFile_loaded hrow
    rw [Entry.inode_row, h.cached_inode he, he] at he'
    cases he'
    have hm : loaded fs.extent e.row ∈
        (fs.entry.filter fun row => row.parent_inode = parent).map (loaded fs.extent) :=
      List.mem_map_of_mem (List.mem_filter.mpr ⟨hrow, decide_eq_true hparent⟩)
    rw [← hload, List.mem_map] at hm
    obtain ⟨q, hq, heq⟩ := hm
    exact ⟨q, hq, heq ▸ hsame⟩

theorem Consistent.reopen_findByName (h : fs.Consistent) (parent : Nat) (name : List UInt8) :
    (∀ q, (fs.reopen.findByName parent name).1 = some q → ∃ i e, fs.cached i = some e ∧
      e.parentId = parent ∧ e.name = name ∧
      SameFile e ((fs.reopen.findByName parent name).2.heap q)) ∧
    (∀ i e, fs.cached i = some e → e.parentId = parent → e.name = name →
      (fs.reopen.findByName parent name).1.isSome) := by
  have hload := heap_findByName_reopen fs parent name
  cases hf : fs.entry.find? fun row => row.parent_inode = parent ∧ row.name = name with
  | none =>
      rw [hf, Option.map_none, Option.map_eq_none_iff] at hload
      rw [List.find?_eq_none] at hf
      refine ⟨fun q hq => by simp [hload] at hq, fun i e he hparent hname => ?_⟩
      exact absurd (decide_eq_true ⟨hparent, hname⟩) (hf e.row (h.row_mem he))
  | some row =>
      obtain ⟨e, he, hsame⟩ := h.sameFile_loaded (List.mem_of_find?_eq_some hf)
      have hrow : row.parent_inode = parent ∧ row.name = name := of_decide_eq_true
        (List.find?_some (p := fun row : EntryRow => decide (row.parent_inode = parent ∧ row.name = name)) hf)
      rw [hf, Option.map_some, Option.map_eq_some_iff] at hload
      obtain ⟨q, hq, hheap⟩ := hload
      refine ⟨fun q' hq' => ?_, fun _ _ _ _ _ => by simp [hq]⟩
      obtain rfl : q = q' := Option.some.inj (hq.symm.trans hq')
      exact ⟨row.inode, e, he, hsame.parentId.symm.trans hrow.1, hsame.name.symm.trans hrow.2,
        hheap ▸ hsame⟩

end FileSystem

end SuperBadBlock
