import SuperBadBlock.ApfsScanner.Unchanged
import SuperBadBlock.ApfsScanner.Versions

namespace SuperBadBlock

open KeyedFold

-- A later generation of extents replaces the one that is there, and the same one only adds
-- to it.
def Extended (old new : Option Entry) : Prop :=
  extentVersion old < extentVersion new ∨
    extentVersion old = extentVersion new ∧ old.elim [] Entry.extents <+: new.elim [] Entry.extents

theorem Extended.refl (old : Option Entry) : Extended old old := Or.inr ⟨rfl, List.prefix_rfl⟩

theorem Extended.trans {old between new : Option Entry} (h : Extended old between)
    (h' : Extended between new) : Extended old new := by
  rcases h with hlt | ⟨heq, hextents⟩
  · rcases h' with hlt' | ⟨heq', -⟩
    · exact Or.inl (Nat.lt_trans hlt hlt')
    · exact Or.inl (heq' ▸ hlt)
  · rcases h' with hlt' | ⟨heq', hextents'⟩
    · exact Or.inl (heq ▸ hlt')
    · exact Or.inr ⟨heq.trans heq', hextents.trans hextents'⟩

theorem extended_absorb (i : Nat) (old : Option Entry) (event : Event) :
    Extended old (event.absorb i old) := by
  cases old with
  | none =>
      cases event with
      | extent xid added => exact Extended.refl none
      | inode xid parentId length =>
          simp only [Extended, Event.absorb, extentVersion, Option.getD_none]
          split_ifs <;> exact Or.inr ⟨rfl, List.nil_prefix⟩
      | dirRec xid parentId name type =>
          simp only [Extended, Event.absorb, extentVersion, Option.getD_none]
          split_ifs <;> exact Or.inr ⟨rfl, List.nil_prefix⟩
  | some e =>
      cases event with
      | inode xid parentId length =>
          simp only [Extended, Event.absorb, extentVersion, Option.getD_some]
          split_ifs <;> exact Or.inr ⟨rfl, List.prefix_rfl⟩
      | dirRec xid parentId name type =>
          simp only [Extended, Event.absorb, extentVersion, Option.getD_some]
          split_ifs <;> exact Or.inr ⟨rfl, List.prefix_rfl⟩
      | extent xid added =>
          rcases Nat.lt_trichotomy e.extentVersionId xid with hlt | heq | hgt
          · left
            simpa [Event.absorb, extentVersion, if_pos hlt.le] using hlt
          · subst heq
            right
            simp [Event.absorb, extentVersion]
          · have hle : ¬e.extentVersionId ≤ xid := Nat.not_le.mpr hgt
            simpa [Event.absorb, if_neg hle] using Extended.refl (some e)

variable {fs fs' : FileSystem} {touches : List (Nat × Event)}

theorem Steps.version_le (h : Steps fs touches fs') (i : Nat) :
    version (fs.cached i) ≤ version (fs'.cached i) := by
  rw [h.cached_apply i]
  generalize fs.cached i = old
  induction eventsAt i touches generalizing old with
  | nil => exact Nat.le_refl _
  | cons event events ih => exact Nat.le_trans (version_le_absorb i old event) (ih _)

theorem Steps.extended (h : Steps fs touches fs') (i : Nat) :
    Extended (fs.cached i) (fs'.cached i) := by
  rw [h.cached_apply i]
  generalize fs.cached i = old
  induction eventsAt i touches generalizing old with
  | nil => exact Extended.refl old
  | cons event events ih => exact (extended_absorb i old event).trans (ih _)

-- New rows are appended.
theorem Steps.inodes_prefix (h : Steps fs touches fs') :
    fs.entry.map EntryRow.inode <+: fs'.entry.map EntryRow.inode := by
  induction h with
  | done _ => exact List.prefix_rfl
  | step hstep _ ih =>
      rw [hstep.inodes] at ih
      exact (List.prefix_append _ _).trans ih

-- The rows of `i` are the same in both.
def SameRows (i : Nat) (tables tables' : List EntryRow × List ExtentRow) : Prop :=
  (∀ row, row.inode = i → (row ∈ tables'.1 ↔ row ∈ tables.1)) ∧
    tables'.2.filter (fun row => row.inode = i) = tables.2.filter fun row => row.inode = i

theorem FileSystem.Consistent.sameRows (h : fs.Consistent) (h' : fs'.Consistent) {i : Nat}
    (hcached : fs'.cached i = fs.cached i) :
    SameRows i (fs.entry, fs.extent) (fs'.entry, fs'.extent) := by
  refine ⟨fun row hinode => ?_, ?_⟩
  · rw [h.mem_entry, h'.mem_entry, hinode, hcached]
  · rw [h.extent_filter, h'.extent_filter, hcached]

-- What more blocks make of the tables: no row goes away or moves, and none gets older. The
-- extents of an inode stay and are added to, unless a later generation of them comes, and
-- there are none without an entry.
structure Grown (tables tables' : List EntryRow × List ExtentRow) : Prop where
  inodes : tables.1.map EntryRow.inode <+: tables'.1.map EntryRow.inode
  versions : ∀ row ∈ tables.1, ∃ row' ∈ tables'.1, row'.inode = row.inode ∧
    row.versionId ≤ row'.versionId ∧
    (row.extentVersionId < row'.extentVersionId ∨
      row.extentVersionId = row'.extentVersionId ∧
        tables.2.filter (fun extent => extent.inode = row.inode) <+:
          tables'.2.filter fun extent => extent.inode = row.inode)
  owned : ∀ extent ∈ tables.2, extent.inode ∈ tables.1.map EntryRow.inode

theorem FileSystem.Consistent.owned (h : fs.Consistent) {extent : ExtentRow}
    (hm : extent ∈ fs.extent) : extent.inode ∈ fs.entry.map EntryRow.inode := by
  have hrows : extent ∈ fs.extent.filter fun row => row.inode = extent.inode :=
    List.mem_filter.mpr ⟨hm, decide_eq_true rfl⟩
  rw [h.extent_filter] at hrows
  cases hcached : fs.cached extent.inode with
  | none =>
      rw [hcached] at hrows
      cases hrows
  | some e => exact List.mem_map.mpr ⟨e.row, h.row_mem hcached, h.cached_inode hcached⟩

theorem Steps.grown (h : Steps fs touches fs') (hfs : fs.Consistent) :
    Grown (fs.entry, fs.extent) (fs'.entry, fs'.extent) where
  inodes := h.inodes_prefix
  versions row hrow := by
    obtain ⟨e, he, hrowOf⟩ := Option.map_eq_some_iff.mp (hfs.rows row hrow)
    obtain ⟨e', he'⟩ := Option.isSome_iff_exists.mp (h.isSome (Option.isSome_iff_exists.mpr ⟨e, he⟩))
    have hversion := h.version_le row.inode
    have hextended := h.extended row.inode
    rw [he, he'] at hversion
    refine ⟨e'.row, h.consistent.row_mem he', h.consistent.cached_inode he', ?_, ?_⟩
    · rw [← hrowOf]
      exact hversion
    · rw [hfs.extent_filter, h.consistent.extent_filter, ← hrowOf]
      rw [← hrowOf] at he he' hextended
      rw [he, he'] at hextended ⊢
      exact hextended.imp_right fun ⟨heq, hextents⟩ => ⟨heq, hextents.map _⟩
  owned _ hm := hfs.owned hm

-- Nodes that do not mention an inode leave its rows alone.
theorem sameRows_of_unmentioned {nodes : List Node} (hfs : fs.Consistent)
    (h : Steps fs (nodes.flatMap Node.touches) fs') {i : Nat}
    (hi : ∀ node ∈ nodes, ∀ record ∈ node.records, ¬record.Mentions i) :
    SameRows i (fs.entry, fs.extent) (fs'.entry, fs'.extent) := by
  refine hfs.sameRows h.consistent ?_
  have hnil : eventsOf i nodes = [] := by
    by_contra hne
    obtain ⟨node, hnode, record, hrecord, hmentions⟩ := (eventsOf_ne_nil_iff i nodes).mp hne
    exact hi node hnode record hrecord hmentions
  rw [h.cached_apply i, ← eventsOf, hnil]
  rfl

end SuperBadBlock
