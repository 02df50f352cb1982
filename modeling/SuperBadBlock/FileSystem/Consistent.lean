import SuperBadBlock.FileSystem
import Mathlib.Data.List.Nodup
import Mathlib.Tactic.Common

namespace SuperBadBlock

-- What `addEntry` and `updateEntry` write for an entry.
def Entry.row (e : Entry) : EntryRow where
  inode := e.inode
  parent_inode := e.parentId
  versionId := e.versionId
  type := e.type
  name := e.name
  length := e.length
  extentVersionId := e.extentVersionId

def EntryExtent.row (inode : Nat) (extent : EntryExtent) : ExtentRow where
  inode := inode
  logical_address := extent.logicalAddress
  physical_block := extent.physicalBlock
  length := extent.length

def ExtentRow.extent (row : ExtentRow) : EntryExtent where
  logicalAddress := row.logical_address
  physicalBlock := row.physical_block
  length := row.length

@[simp] theorem EntryExtent.extent_row (inode : Nat) (extent : EntryExtent) :
    (extent.row inode).extent = extent := rfl

@[simp] theorem EntryExtent.inode_row (inode : Nat) (extent : EntryExtent) :
    (extent.row inode).inode = inode := rfl

@[simp] theorem Entry.inode_row (e : Entry) : e.row.inode = e.inode := rfl

-- An entry without pending work: `updateEntry` leaves both flags cleared.
def Entry.settle (e : Entry) : Entry := { e with isNew := false, extentsUpdated := false }

@[simp] theorem Entry.row_settle (e : Entry) : e.settle.row = e.row := rfl

@[simp] theorem Entry.inode_settle (e : Entry) : e.settle.inode = e.inode := rfl

@[simp] theorem Entry.extents_settle (e : Entry) : e.settle.extents = e.extents := rfl

theorem Entry.settle_eq_self {e : Entry} (hn : e.isNew = false) (hx : e.extentsUpdated = false) :
    e.settle = e := by
  cases e
  simp_all [Entry.settle]

namespace FileSystem

-- The entry `m_diskEntries` holds for an inode.
def cached (fs : FileSystem) (inode : Nat) : Option Entry :=
  (fs.diskEntries inode).map fs.heap

-- The cache and the two tables tell one story. Each cached object is allocated,
-- sits under its own inode and has no pending work; the entry table has one row
-- for each cached inode, and the extent table lists each entry's extents.
structure Consistent (fs : FileSystem) : Prop where
  allocated : ∀ i p, fs.diskEntries i = some p → p < fs.top
  keyed : ∀ i p, fs.diskEntries i = some p → (fs.heap p).inode = i
  settled : ∀ i p, fs.diskEntries i = some p → (fs.heap p).settle = fs.heap p
  rows_nodup : (fs.entry.map EntryRow.inode).Nodup
  rows : ∀ row ∈ fs.entry, (fs.cached row.inode).map Entry.row = some row
  complete : ∀ i e, fs.cached i = some e → i ∈ fs.entry.map EntryRow.inode
  extents : ∀ i, (fs.extent.filter fun row => row.inode = i).map ExtentRow.extent =
    (fs.cached i).elim [] Entry.extents

theorem consistent_empty : Consistent {} where
  allocated := by simp
  keyed := by simp
  settled := by simp
  rows_nodup := by simp
  rows := by simp
  complete := by simp [cached]
  extents := by simp [cached]

theorem Consistent.row_mem {fs : FileSystem} (h : fs.Consistent) {i : Nat} {e : Entry}
    (he : fs.cached i = some e) : e.row ∈ fs.entry := by
  obtain ⟨row, hrow, rfl⟩ := List.mem_map.mp (h.complete i e he)
  have hr := h.rows row hrow
  rw [he] at hr
  exact (Option.some.inj hr) ▸ hrow

theorem Consistent.cached_inode {fs : FileSystem} (h : fs.Consistent) {i : Nat} {e : Entry}
    (he : fs.cached i = some e) : e.inode = i := by
  obtain ⟨p, hp, rfl⟩ := Option.map_eq_some_iff.mp he
  exact h.keyed i p hp

-- The entry table is determined by the cache and the order of its rows.
theorem Consistent.entry_eq {fs fs' : FileSystem} (h : fs.Consistent) (h' : fs'.Consistent)
    (horder : fs'.entry.map EntryRow.inode = fs.entry.map EntryRow.inode)
    (hcached : fs'.cached = fs.cached) : fs'.entry = fs.entry := by
  have hsome (g : FileSystem) (hg : g.Consistent) :
      g.entry.map some = (g.entry.map EntryRow.inode).map fun i => (g.cached i).map Entry.row := by
    rw [List.map_map]
    exact List.map_congr_left fun row hrow => (hg.rows row hrow).symm
  have hmap : fs'.entry.map some = fs.entry.map some := by
    rw [hsome fs' h', hsome fs h, horder, hcached]
  exact List.map_injective_iff.mpr (fun _ _ => Option.some.inj) hmap

theorem Consistent.mem_inodes {fs : FileSystem} (h : fs.Consistent) (i : Nat) :
    i ∈ fs.entry.map EntryRow.inode ↔ (fs.cached i).isSome := by
  constructor
  · intro hi
    obtain ⟨row, hrow, rfl⟩ := List.mem_map.mp hi
    have hr := h.rows row hrow
    cases hc : fs.cached row.inode with
    | none => simp [hc] at hr
    | some e => rfl
  · intro hs
    obtain ⟨e, he⟩ := Option.isSome_iff_exists.mp hs
    exact h.complete i e he

theorem Consistent.mem_entry {fs : FileSystem} (h : fs.Consistent) (row : EntryRow) :
    row ∈ fs.entry ↔ (fs.cached row.inode).map Entry.row = some row := by
  constructor
  · exact h.rows row
  · intro hrow
    obtain ⟨e, he, rfl⟩ := Option.map_eq_some_iff.mp hrow
    exact h.row_mem he

-- Two consistent states with one cache have the same tables up to the order of rows.
theorem Consistent.entry_perm {fs fs' : FileSystem} (h : fs.Consistent) (h' : fs'.Consistent)
    (hcached : fs'.cached = fs.cached) : fs'.entry.Perm fs.entry := by
  rw [List.perm_ext_iff_of_nodup (List.Nodup.of_map _ h'.rows_nodup) (List.Nodup.of_map _ h.rows_nodup)]
  intro row
  rw [h'.mem_entry, h.mem_entry, hcached]

theorem Consistent.extent_filter {fs : FileSystem} (h : fs.Consistent) (i : Nat) :
    fs.extent.filter (fun row => row.inode = i) =
      ((fs.cached i).elim [] Entry.extents).map (EntryExtent.row i) := by
  rw [← h.extents i, List.map_map]
  conv_lhs => rw [← List.map_id (fs.extent.filter _)]
  refine List.map_congr_left fun row hrow => ?_
  rw [← of_decide_eq_true (List.mem_filter.mp hrow).2]
  rfl

theorem Consistent.extent_perm {fs fs' : FileSystem} (h : fs.Consistent) (h' : fs'.Consistent)
    (hcached : fs'.cached = fs.cached) : fs'.extent.Perm fs.extent := by
  rw [List.perm_iff_count]
  intro row
  have hcount (l : List ExtentRow) :
      l.count row = (l.filter fun r => r.inode = row.inode).count row :=
    (List.count_filter (by simp)).symm
  rw [hcount, hcount fs.extent, h'.extent_filter, h.extent_filter, hcached]

-- Without a cached entry there is no row either, so the query finds nothing.
theorem Consistent.findByInode {fs : FileSystem} (h : fs.Consistent) (i : Nat) :
    fs.findByInode i = (fs.diskEntries i, fs) := by
  cases hd : fs.diskEntries i with
  | some p => simp [FileSystem.findByInode, hd]
  | none =>
      have hnone : fs.entry.find? (fun row => row.inode = i) = none := by
        rw [List.find?_eq_none]
        intro row hrow hi
        have hr := h.rows row hrow
        simp only [of_decide_eq_true hi, cached, hd, Option.map_none] at hr
        cases hr
      simp [FileSystem.findByInode, hd, hnone]

-- The closed form of `updateEntry`.
theorem updateEntry_eq (fs : FileSystem) (p : EntryPtr) :
    fs.updateEntry p =
      { heap := Function.update fs.heap p (fs.heap p).settle
        top := fs.top
        diskEntries := if (fs.heap p).isNew then insertNew fs.diskEntries (fs.heap p).inode p
          else fs.diskEntries
        entry := if (fs.heap p).isNew then fs.entry ++ [(fs.heap p).row]
          else fs.entry.map fun row => if row.inode = (fs.heap p).inode then (fs.heap p).row else row
        extent := if (fs.heap p).extentsUpdated then
            (fs.extent.filter fun row => row.inode ≠ (fs.heap p).inode) ++
              (fs.heap p).extents.map (EntryExtent.row (fs.heap p).inode)
          else fs.extent } := by
  have hrow : (fs.entry.map fun row => if row.inode = (fs.heap p).inode then
      { row with
        parent_inode := (fs.heap p).parentId, versionId := (fs.heap p).versionId,
        type := (fs.heap p).type, name := (fs.heap p).name, length := (fs.heap p).length,
        extentVersionId := (fs.heap p).extentVersionId } else row) =
      fs.entry.map fun row => if row.inode = (fs.heap p).inode then (fs.heap p).row else row := by
    refine List.map_congr_left fun row _ => ?_
    by_cases hi : row.inode = (fs.heap p).inode
    · simp [hi, Entry.row]
    · simp [hi]
  cases hn : (fs.heap p).isNew <;> cases hx : (fs.heap p).extentsUpdated
  · simp only [updateEntry, hn, hx, hrow, Bool.false_eq_true, ite_false,
      Entry.settle_eq_self hn hx, Function.update_eq_self]
  · simp only [updateEntry, modify, hn, hx, hrow, Bool.false_eq_true, ite_false, ite_true]
    rfl
  · simp only [updateEntry, addEntry, modify, hn, hx, Bool.false_eq_true, ite_false, ite_true]
    rfl
  · simp only [updateEntry, addEntry, modify, hn, hx, ite_true, Function.update_idem,
      Function.update_self]
    rfl

-- `fs` is `base` with the object at `p` being edited: it is the cached object of
-- inode `i`, or a new one for an inode that has none.
structure Editing (base fs : FileSystem) (i : Nat) (p : EntryPtr) : Prop where
  allocated : p < fs.top
  top_le : base.top ≤ fs.top
  diskEntries : fs.diskEntries = base.diskEntries
  entry : fs.entry = base.entry
  extent : fs.extent = base.extent
  frame : ∀ j q, j ≠ i → base.diskEntries j = some q → q ≠ p ∧ fs.heap q = base.heap q
  inode : (fs.heap p).inode = i
  place : (base.diskEntries i = some p ∧ (fs.heap p).isNew = false) ∨
    (base.diskEntries i = none ∧ (fs.heap p).isNew = true)
  extents : (fs.heap p).extentsUpdated = false →
    (fs.heap p).extents = (base.cached i).elim [] Entry.extents

theorem Consistent.isNew_eq {fs : FileSystem} (h : fs.Consistent) {i : Nat} {p : EntryPtr}
    (hp : fs.diskEntries i = some p) : (fs.heap p).isNew = false := by
  rw [← h.settled i p hp]
  rfl

theorem Consistent.extentsUpdated_eq {fs : FileSystem} (h : fs.Consistent) {i : Nat} {p : EntryPtr}
    (hp : fs.diskEntries i = some p) : (fs.heap p).extentsUpdated = false := by
  rw [← h.settled i p hp]
  rfl

theorem Consistent.editing {fs : FileSystem} (h : fs.Consistent) {i : Nat} {p : EntryPtr}
    (hp : fs.diskEntries i = some p) : Editing fs fs i p where
  allocated := h.allocated i p hp
  top_le := Nat.le_refl _
  diskEntries := rfl
  entry := rfl
  extent := rfl
  frame j q hj hq := by
    refine ⟨?_, rfl⟩
    rintro rfl
    exact hj ((h.keyed j q hq).symm.trans (h.keyed i q hp))
  inode := h.keyed i p hp
  place := Or.inl ⟨hp, h.isNew_eq hp⟩
  extents _ := by simp [cached, hp]

theorem Consistent.editing_newEntry {fs : FileSystem} (h : fs.Consistent) {i : Nat}
    (hp : fs.diskEntries i = none) :
    Editing fs (fs.newEntry { inode := i }).2 i fs.top where
  allocated := Nat.lt_succ_self _
  top_le := Nat.le_succ _
  diskEntries := rfl
  entry := rfl
  extent := rfl
  frame j q _ hq := by
    have hne : q ≠ fs.top := Nat.ne_of_lt (h.allocated j q hq)
    exact ⟨hne, Function.update_of_ne hne _ _⟩
  inode := by simp [newEntry]
  place := Or.inr ⟨hp, by simp [newEntry]⟩
  extents _ := by simp [newEntry, cached, hp]

theorem Consistent.findOrNew {fs : FileSystem} (h : fs.Consistent) (i : Nat) :
    Editing fs (fs.findOrNew i).2 i (fs.findOrNew i).1 ∧
      (fs.findOrNew i).2.heap (fs.findOrNew i).1 = (fs.cached i).getD { inode := i } := by
  unfold FileSystem.findOrNew
  rw [h.findByInode i]
  cases hp : fs.diskEntries i with
  | some p => exact ⟨h.editing hp, by simp [cached, hp]⟩
  | none => exact ⟨h.editing_newEntry hp, by simp [cached, hp, newEntry]⟩

theorem Editing.modify {base fs : FileSystem} {i : Nat} {p : EntryPtr} (h : Editing base fs i p)
    (f : Entry → Entry) (hinode : (f (fs.heap p)).inode = (fs.heap p).inode)
    (hnew : (f (fs.heap p)).isNew = (fs.heap p).isNew)
    (hextents : (f (fs.heap p)).extentsUpdated = false →
      (fs.heap p).extentsUpdated = false ∧ (f (fs.heap p)).extents = (fs.heap p).extents) :
    Editing base (fs.modify p f) i p where
  allocated := h.allocated
  top_le := h.top_le
  diskEntries := h.diskEntries
  entry := h.entry
  extent := h.extent
  frame j q hj hq := by
    obtain ⟨hne, hheap⟩ := h.frame j q hj hq
    exact ⟨hne, (Function.update_of_ne hne _ _).trans hheap⟩
  inode := by simpa [FileSystem.modify, hinode] using h.inode
  place := by simpa [FileSystem.modify, hnew] using h.place
  extents hx := by
    simp only [FileSystem.modify, Function.update_self] at hx ⊢
    obtain ⟨hold, heq⟩ := hextents hx
    rw [heq]
    exact h.extents hold

-- Editing never moves a cached object to another inode.
theorem Editing.inode_of_cached {base fs : FileSystem} {i : Nat} {p : EntryPtr}
    (h : Editing base fs i p) (hb : base.Consistent) {j : Nat} {q : EntryPtr}
    (hq : base.diskEntries j = some q) : (fs.heap q).inode = j := by
  by_cases hj : j = i
  · subst hj
    rcases h.place with ⟨hp, _⟩ | ⟨hp, _⟩
    · have heq : q = p := Option.some.inj (hq.symm.trans hp)
      rw [heq]
      exact h.inode
    · rw [hp] at hq
      cases hq
  · rw [(h.frame j q hj hq).2]
    exact hb.keyed j q hq

section Update

variable {base fs : FileSystem} {i : Nat} {p : EntryPtr}

theorem Editing.diskEntries_updateEntry (h : Editing base fs i p) :
    (fs.updateEntry p).diskEntries = Function.update base.diskEntries i (some p) := by
  rw [updateEntry_eq]
  simp only [h.inode, h.diskEntries]
  rcases h.place with ⟨hp, hn⟩ | ⟨hp, hn⟩
  · simp only [hn, Bool.false_eq_true, ite_false]
    exact (Function.update_eq_self_iff.mpr hp.symm).symm
  · simp only [hn, ite_true, insertNew, hp]

theorem Editing.cached_updateEntry (h : Editing base fs i p) :
    (fs.updateEntry p).cached = Function.update base.cached i (some (fs.heap p).settle) := by
  funext j
  have hheap : (fs.updateEntry p).heap = Function.update fs.heap p (fs.heap p).settle := by
    rw [updateEntry_eq]
  simp only [cached, h.diskEntries_updateEntry, hheap]
  by_cases hj : j = i
  · subst hj
    simp
  · simp only [Function.update_of_ne hj]
    cases hq : base.diskEntries j with
    | none => simp [cached, hq]
    | some q =>
        obtain ⟨hne, hsame⟩ := h.frame j q hj hq
        simp [cached, hq, Function.update_of_ne hne, hsame]

theorem Editing.inodes_updateEntry (h : Editing base fs i p) :
    (fs.updateEntry p).entry.map EntryRow.inode =
      base.entry.map EntryRow.inode ++ if (base.cached i).isSome then [] else [i] := by
  rw [updateEntry_eq]
  simp only [h.inode, h.entry, cached]
  rcases h.place with ⟨hp, hn⟩ | ⟨hp, hn⟩
  · simp only [hn, hp, Bool.false_eq_true, ite_false, List.map_map, Option.map_some,
      Option.isSome_some, ite_true, List.append_nil]
    refine List.map_congr_left fun row _ => ?_
    by_cases hi : row.inode = i
    · simp [hi, h.inode]
    · simp [hi]
  · simp [hn, hp, h.inode]

theorem Editing.extent_updateEntry (h : Editing base fs i p)
    (hx : (fs.heap p).extentsUpdated = false) : (fs.updateEntry p).extent = base.extent := by
  rw [updateEntry_eq]
  simp [hx, h.extent]

theorem Editing.rows_updateEntry (h : Editing base fs i p) (hb : base.Consistent) :
    ∀ row ∈ (fs.updateEntry p).entry,
      ((fs.updateEntry p).cached row.inode).map Entry.row = some row := by
  -- A row of another inode was there before, next to the entry it still shows.
  have hother (row : EntryRow) (hrow : row ∈ base.entry) (hi : row.inode ≠ i) :
      ((fs.updateEntry p).cached row.inode).map Entry.row = some row := by
    rw [h.cached_updateEntry, Function.update_of_ne hi]
    exact hb.rows row hrow
  have hself : ((fs.updateEntry p).cached (fs.heap p).row.inode).map Entry.row =
      some (fs.heap p).row := by
    simp [h.cached_updateEntry, h.inode]
  intro row hrow
  rw [updateEntry_eq] at hrow
  simp only [h.inode, h.entry] at hrow
  rcases h.place with ⟨hp, hn⟩ | ⟨hp, hn⟩
  · simp only [hn, Bool.false_eq_true, ite_false] at hrow
    obtain ⟨old, hold, rfl⟩ := List.mem_map.mp hrow
    by_cases hi : old.inode = i
    · simpa only [hi, ite_true] using hself
    · simpa only [hi, ite_false] using hother old hold hi
  · simp only [hn, ite_true, List.mem_append, List.mem_singleton] at hrow
    rcases hrow with hrow | rfl
    · refine hother row hrow ?_
      rintro rfl
      have hr := hb.rows row hrow
      simp [cached, hp] at hr
    · exact hself

theorem Editing.extents_updateEntry (h : Editing base fs i p) (hb : base.Consistent) (j : Nat) :
    ((fs.updateEntry p).extent.filter fun row => row.inode = j).map ExtentRow.extent =
      ((fs.updateEntry p).cached j).elim [] Entry.extents := by
  rw [h.cached_updateEntry]
  cases hx : (fs.heap p).extentsUpdated with
  | false =>
      rw [h.extent_updateEntry hx, hb.extents j]
      by_cases hj : j = i
      · subst hj
        simp [h.extents hx]
      · rw [Function.update_of_ne hj]
  | true =>
      rw [updateEntry_eq]
      simp only [hx, ite_true, h.inode, h.extent, List.filter_append, List.map_append,
        List.filter_filter]
      by_cases hj : j = i
      · subst hj
        have hnone : base.extent.filter (fun row => decide (row.inode = j) && decide (row.inode ≠ j)) = [] := by
          simp
        have hall : ((fs.heap p).extents.map (EntryExtent.row j)).filter (fun row => decide (row.inode = j)) =
            (fs.heap p).extents.map (EntryExtent.row j) := by
          rw [List.filter_eq_self]
          intro row hrow
          obtain ⟨extent, _, rfl⟩ := List.mem_map.mp hrow
          simp
        rw [hnone, hall]
        simp [Function.comp_def]
      · have hkeep : base.extent.filter (fun row => decide (row.inode = j) && decide (row.inode ≠ i)) =
            base.extent.filter fun row => row.inode = j := by
          refine List.filter_congr fun row _ => ?_
          by_cases hr : row.inode = j
          · simp [hr, hj]
          · simp [hr]
        have hnone : ((fs.heap p).extents.map (EntryExtent.row i)).filter (fun row => decide (row.inode = j)) = [] := by
          rw [List.filter_eq_nil_iff]
          intro row hrow
          obtain ⟨extent, _, rfl⟩ := List.mem_map.mp hrow
          simp [Ne.symm hj]
        rw [hkeep, hnone, Function.update_of_ne hj, hb.extents j]
        simp

theorem Editing.consistent_updateEntry (h : Editing base fs i p) (hb : base.Consistent) :
    (fs.updateEntry p).Consistent := by
  have hheap : (fs.updateEntry p).heap = Function.update fs.heap p (fs.heap p).settle := by
    rw [updateEntry_eq]
  have htop : (fs.updateEntry p).top = fs.top := by rw [updateEntry_eq]
  -- A cached pointer is the edited one, or an untouched one of another inode.
  have hcases (j : Nat) (q : EntryPtr) (hq : (fs.updateEntry p).diskEntries j = some q) :
      (j = i ∧ q = p) ∨ (q ≠ p ∧ fs.heap q = base.heap q ∧ base.diskEntries j = some q) := by
    rw [h.diskEntries_updateEntry] at hq
    by_cases hj : j = i
    · subst hj
      rw [Function.update_self] at hq
      exact Or.inl ⟨rfl, (Option.some.inj hq).symm⟩
    · rw [Function.update_of_ne hj] at hq
      obtain ⟨hne, hsame⟩ := h.frame j q hj hq
      exact Or.inr ⟨hne, hsame, hq⟩
  refine ⟨?_, ?_, ?_, ?_, h.rows_updateEntry hb, ?_, h.extents_updateEntry hb⟩
  · intro j q hq
    rw [htop]
    rcases hcases j q hq with ⟨_, rfl⟩ | ⟨_, _, hq⟩
    · exact h.allocated
    · exact Nat.lt_of_lt_of_le (hb.allocated j q hq) h.top_le
  · intro j q hq
    rw [hheap]
    rcases hcases j q hq with ⟨rfl, rfl⟩ | ⟨hne, hsame, hq⟩
    · simp [h.inode]
    · rw [Function.update_of_ne hne, hsame]
      exact hb.keyed j q hq
  · intro j q hq
    rw [hheap]
    rcases hcases j q hq with ⟨rfl, rfl⟩ | ⟨hne, hsame, hq⟩
    · simp [Entry.settle]
    · rw [Function.update_of_ne hne, hsame]
      exact hb.settled j q hq
  · rw [h.inodes_updateEntry]
    cases hc : base.cached i with
    | some e => simpa using hb.rows_nodup
    | none =>
        have hnot : i ∉ base.entry.map EntryRow.inode := by
          rw [hb.mem_inodes, hc]
          simp
        simp only [Option.isSome_none, Bool.false_eq_true, ite_false]
        exact List.nodup_append.mpr ⟨hb.rows_nodup, List.nodup_singleton i, by
          rintro a ha b hb' rfl
          exact hnot (List.mem_singleton.mp hb' ▸ ha)⟩
  · intro j e he
    rw [h.cached_updateEntry] at he
    rw [h.inodes_updateEntry, List.mem_append]
    by_cases hj : j = i
    · subst hj
      cases hc : base.cached j with
      | some old => exact Or.inl (hb.complete j old hc)
      | none => exact Or.inr (by simp)
    · rw [Function.update_of_ne hj] at he
      exact Or.inl (hb.complete j e he)

-- A pointer that was cached keeps its place.
theorem Editing.keeps_updateEntry (h : Editing base fs i p) (j : Nat) (q : EntryPtr)
    (hq : base.diskEntries j = some q) : (fs.updateEntry p).diskEntries j = some q := by
  rw [h.diskEntries_updateEntry]
  by_cases hj : j = i
  · subst hj
    rw [Function.update_self]
    rcases h.place with ⟨hp, _⟩ | ⟨hp, _⟩
    · exact hp.symm.trans hq
    · rw [hp] at hq
      cases hq
  · rw [Function.update_of_ne hj, hq]

end Update

-- Updating an entry that has no pending work writes what is there already.
theorem Consistent.updateEntry_eq_self {fs : FileSystem} (h : fs.Consistent) {i : Nat} {p : EntryPtr}
    (hp : fs.diskEntries i = some p) : fs.updateEntry p = fs := by
  have hrows : (fs.entry.map fun row => if row.inode = (fs.heap p).inode then (fs.heap p).row else row) =
      fs.entry := by
    conv_rhs => rw [← List.map_id fs.entry]
    refine List.map_congr_left fun row hrow => ?_
    by_cases hi : row.inode = (fs.heap p).inode
    · have hr := h.rows row hrow
      rw [hi, h.keyed i p hp, cached, hp] at hr
      simpa [hi] using hr
    · simp [hi]
  rw [updateEntry_eq, h.settled i p hp, Function.update_eq_self, h.isNew_eq hp,
    h.extentsUpdated_eq hp]
  simp only [Bool.false_eq_true, ite_false, hrows]

end FileSystem

end SuperBadBlock
