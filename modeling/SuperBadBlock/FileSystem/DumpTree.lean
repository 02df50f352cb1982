import SuperBadBlock.Lib.Descent
import SuperBadBlock.FileSystem.Lookup

namespace SuperBadBlock

-- What `dumpTree` prints, line by line. `level` is how far a line is indented.
inductive TreeLine where
  | notFound (level dirId : Nat)
  | dir (level dirId : Nat) (name : List UInt8) (type length : Nat)
  | extent (level : Nat) (extent : EntryExtent)
deriving DecidableEq

-- The inode that is visited, for the line a visit starts with.
def TreeLine.visited : TreeLine → Option Nat
  | notFound _ dirId => some dirId
  | dir _ dirId _ _ _ => some dirId
  | extent _ _ => none

theorem filterMap_visited_dir (level dirId : Nat) (name : List UInt8) (type length : Nat)
    (extents : List EntryExtent) :
    (TreeLine.dir level dirId name type length :: extents.map (.extent level)).filterMap
      TreeLine.visited = [dirId] := by
  have hfirst : TreeLine.visited (.dir level dirId name type length) = some dirId := rfl
  rw [List.filterMap_cons_some hfirst, List.filterMap_map]
  exact congrArg _ (List.filterMap_eq_nil_iff.mpr fun _ _ => rfl)

namespace FileSystem

-- The loop over the children of `dirId`; `dump` is the call for one of them.
def dumpChildren (dump : FileSystem → Nat → Option (List TreeLine × FileSystem)) (dirId : Nat)
    (fs : FileSystem) : List EntryPtr → Option (List TreeLine × FileSystem)
  | [] => some ([], fs)
  | child :: children =>
      if (fs.heap child).inode = dirId then dumpChildren dump dirId fs children
      else match dump fs (fs.heap child).inode with
        | none => none
        | some (lines, fs) =>
            (dumpChildren dump dirId fs children).map fun rest => (lines ++ rest.1, rest.2)

-- `none` stands for a call that is still running when it has used up `fuel`, the
-- number of calls that may be nested.
def dumpTree (fuel : Nat) (fs : FileSystem) (dirId level : Nat) :
    Option (List TreeLine × FileSystem) :=
  if dirId = 0 then some ([], fs) else
  match fuel with
  | 0 => none
  | fuel + 1 =>
      match fs.findByInode dirId with
      | (none, fs) => some ([.notFound level dirId], fs)
      | (some dir, fs) =>
          let e := fs.heap dir
          let lines := .dir level dirId e.name e.type e.length :: e.extents.map (.extent level)
          let (children, fs) := fs.findByParentInode dirId
          let below := dumpChildren (fun fs inode => dumpTree fuel fs inode (level + 1)) dirId fs children
          below.map fun rest => (lines ++ rest.1, rest.2)

theorem dumpTree_zero (fuel : Nat) (fs : FileSystem) (level : Nat) :
    fs.dumpTree fuel 0 level = some ([], fs) := by
  cases fuel with
  | zero => rfl
  | succ fuel => rfl

-- The objects that are there stay as they are.
structure Grows (fs fs' : FileSystem) : Prop where
  top : fs.top ≤ fs'.top
  heap : ∀ p < fs.top, fs'.heap p = fs.heap p

theorem Grows.refl (fs : FileSystem) : Grows fs fs := ⟨Nat.le_refl _, fun _ _ => rfl⟩

theorem Grows.trans {fs fs' fs'' : FileSystem} (h : Grows fs fs') (h' : Grows fs' fs'') :
    Grows fs fs'' where
  top := Nat.le_trans h.top h'.top
  heap p hp := (h'.heap p (Nat.lt_of_lt_of_le hp h.top)).trans (h.heap p hp)

theorem grows_getEntryFromQuery (fs : FileSystem) (row : EntryRow) :
    Grows fs (fs.getEntryFromQuery row).2 where
  top := Nat.le_succ fs.top
  heap p hp := by rw [heap_getEntryFromQuery, Function.update_of_ne (Nat.ne_of_lt hp)]

theorem grows_findByInode (fs : FileSystem) (inode : Nat) : Grows fs (fs.findByInode inode).2 := by
  unfold findByInode
  cases fs.diskEntries inode with
  | some p => exact .refl fs
  | none =>
      cases fs.entry.find? fun row => decide (row.inode = inode) with
      | none => exact .refl fs
      | some row => exact grows_getEntryFromQuery fs row

theorem grows_entriesFromQuery (fs : FileSystem) (rows : List EntryRow) :
    Grows fs (fs.entriesFromQuery rows).2 := by
  induction rows generalizing fs with
  | nil => exact .refl fs
  | cons row rows ih => exact (grows_getEntryFromQuery fs row).trans (ih _)

theorem lt_top_of_mem_entriesFromQuery (fs : FileSystem) (rows : List EntryRow) :
    ∀ c ∈ (fs.entriesFromQuery rows).1, c < (fs.entriesFromQuery rows).2.top := by
  induction rows generalizing fs with
  | nil =>
      intro c hc
      cases hc
  | cons row rows ih =>
      intro c hc
      rcases List.mem_cons.mp hc with rfl | hc
      · exact Nat.lt_of_lt_of_le (Nat.lt_succ_self _)
          (grows_entriesFromQuery (fs.getEntryFromQuery row).2 rows).top
      · exact ih _ c hc

-- A row below `dir` that `dumpTree` goes to: it skips a row that is its own parent,
-- and nothing is printed for inode 0.
def TreeChild (rows : List EntryRow) (dir child : Nat) : Prop :=
  ∃ row ∈ rows, row.parent_inode = dir ∧ row.inode = child ∧ child ≠ dir ∧ child ≠ 0

-- The same, for a directory that has a row itself, in the order of the rows.
def treeChildren (rows : List EntryRow) (dir : Nat) : List Nat :=
  if dir ∈ rows.map EntryRow.inode then
    ((rows.filter fun row => row.parent_inode = dir).map EntryRow.inode).filter
      fun inode => inode ≠ dir ∧ inode ≠ 0
  else []

theorem mem_treeChildren {rows : List EntryRow} {dir child : Nat} :
    child ∈ treeChildren rows dir ↔ dir ∈ rows.map EntryRow.inode ∧ TreeChild rows dir child := by
  rw [treeChildren]
  split_ifs with hdir
  · rw [List.mem_filter, decide_eq_true_iff, List.mem_map]
    simp only [List.mem_filter, decide_eq_true_iff, TreeChild]
    constructor
    · rintro ⟨⟨row, ⟨hrow, hparent⟩, hinode⟩, hne, hzero⟩
      exact ⟨hdir, row, hrow, hparent, hinode, hne, hzero⟩
    · rintro ⟨-, row, hrow, hparent, hinode, hne, hzero⟩
      exact ⟨⟨row, ⟨hrow, hparent⟩, hinode⟩, hne, hzero⟩
  · exact iff_of_false (List.not_mem_nil) fun h => hdir h.1

-- A call of `dumpTree` over the tables of `store`, and the nodes it visits.
structure Dumped (store fs : FileSystem) (out : List TreeLine × FileSystem) (nodes : List Nat) :
    Prop where
  coherent : Coherent store out.2
  grows : Grows fs out.2
  visited : out.1.filterMap TreeLine.visited = nodes

section Refinement

variable {store fs : FileSystem}

-- Lines that are printed before a call put their nodes in front of the nodes it visits.
theorem dumped_after {fs' : FileSystem} {call : Option (List TreeLine × FileSystem)}
    {visit : Option (List Nat)} (hcall : Option.Rel (Dumped store fs') call visit)
    (hgrows : Grows fs fs') {lines : List TreeLine} {first : List Nat}
    (hlines : lines.filterMap TreeLine.visited = first) :
    Option.Rel (Dumped store fs) (call.map fun rest => (lines ++ rest.1, rest.2))
      (visit.map fun others => first ++ others) := by
  cases hcall with
  | none => exact .none
  | some hrest =>
      refine .some ⟨hrest.coherent, hgrows.trans hrest.grows, ?_⟩
      rw [List.filterMap_append, hlines, hrest.visited]

theorem dumpChildren_refines {dump : FileSystem → Nat → Option (List TreeLine × FileSystem)}
    {visit : Nat → Option (List Nat)} {dirId : Nat} {children : List EntryPtr}
    (hzero : ∀ fs, dump fs 0 = some ([], fs))
    (hdump : ∀ fs inode, Coherent store fs → inode ≠ 0 →
      Option.Rel (Dumped store fs) (dump fs inode) (visit inode))
    (h : Coherent store fs) (hchildren : ∀ c ∈ children, c < fs.top) :
    Option.Rel (Dumped store fs) (fs.dumpChildren dump dirId children)
      (Descent.visitAll visit ((children.map fun c => (fs.heap c).inode).filter
        fun inode => inode ≠ dirId ∧ inode ≠ 0)) := by
  induction children generalizing fs with
  | nil => exact .some ⟨h, .refl fs, rfl⟩
  | cons c children ih =>
      obtain ⟨hc, hrest⟩ := List.forall_mem_cons.mp hchildren
      rw [dumpChildren, List.map_cons]
      by_cases hself : (fs.heap c).inode = dirId
      · rw [if_pos hself, List.filter_cons_of_neg (by simp [hself])]
        exact ih h hrest
      · rw [if_neg hself]
        by_cases hnull : (fs.heap c).inode = 0
        · rw [hnull, hzero, List.filter_cons_of_neg (by simp)]
          have hsame : (fun rest : List TreeLine × FileSystem => ([] ++ rest.1, rest.2)) = id := rfl
          dsimp only
          rw [hsame, Option.map_id]
          exact ih h hrest
        · rw [List.filter_cons_of_pos (by simp [hself, hnull]), Descent.visitAll]
          have hcall := hdump fs _ h hnull
          generalize dump fs (fs.heap c).inode = out at hcall
          generalize visit (fs.heap c).inode = first at hcall
          cases hcall with
          | none => exact .none
          | @some out first hout =>
              obtain ⟨lines, fs'⟩ := out
              have hheap (q : EntryPtr) (hq : q ∈ children) : fs'.heap q = fs.heap q :=
                hout.grows.heap q (hrest q hq)
              have hmap : (children.map fun q => (fs'.heap q).inode) =
                  children.map fun q => (fs.heap q).inode :=
                List.map_congr_left fun q hq => by rw [hheap q hq]
              have hothers := ih hout.coherent fun q hq => Nat.lt_of_lt_of_le (hrest q hq) hout.grows.top
              rw [hmap] at hothers
              exact dumped_after hothers hout.grows hout.visited

-- `dumpTree` is the depth-first visit of the rows.
theorem dumpTree_refines (fuel : Nat) (h : Coherent store fs) {dirId : Nat} (hdir : dirId ≠ 0)
    (level : Nat) :
    Option.Rel (Dumped store fs) (fs.dumpTree fuel dirId level)
      (Descent.visit (treeChildren store.entry) fuel dirId) := by
  induction fuel generalizing fs dirId level with
  | zero =>
      rw [dumpTree, if_neg hdir]
      exact .none
  | succ fuel ih =>
      rw [dumpTree, if_neg hdir, Descent.visit]
      have hgrows := fs.grows_findByInode dirId
      rcases h.findByInode dirId with ⟨p, row, hp, hrow, hinode, hcoherent, -⟩ | ⟨hmissing, hnone⟩
      · rcases hcall : fs.findByInode dirId with ⟨_, fs'⟩
        rw [hcall] at hp hcoherent hgrows
        obtain rfl := hp
        have hlisted : dirId ∈ store.entry.map EntryRow.inode := List.mem_map.mpr ⟨row, hrow, hinode⟩
        obtain ⟨-, hrows⟩ := hcoherent.toServes.findByParentInode dirId
        have hinodes : ((fs'.findByParentInode dirId).1.map fun c =>
            ((fs'.findByParentInode dirId).2.heap c).inode) =
            (store.entry.filter fun row => row.parent_inode = dirId).map EntryRow.inode := by
          have hmap := congrArg (List.map Entry.inode) hrows
          rw [List.map_map, List.map_map] at hmap
          exact hmap
        have hbelow : Option.Rel (Dumped store (fs'.findByParentInode dirId).2)
            ((fs'.findByParentInode dirId).2.dumpChildren
              (fun fs inode => dumpTree fuel fs inode (level + 1)) dirId
              (fs'.findByParentInode dirId).1)
            (Descent.visitAll (Descent.visit (treeChildren store.entry) fuel)
              (treeChildren store.entry dirId)) := by
          rw [treeChildren, if_pos hlisted, ← hinodes]
          exact dumpChildren_refines (fun fs => dumpTree_zero fuel fs (level + 1))
            (fun fs inode hfs hinode => ih hfs hinode (level + 1)) (hcoherent.findByParentInode dirId)
            (lt_top_of_mem_entriesFromQuery fs' _)
        have hparent : Grows fs' (fs'.findByParentInode dirId).2 := grows_entriesFromQuery fs' _
        exact dumped_after hbelow (hgrows.trans hparent) (filterMap_visited_dir level dirId _ _ _ _)
      · rw [hnone, treeChildren, if_neg hmissing]
        exact .some ⟨h, .refl fs, rfl⟩

end Refinement

theorem mem_inodes_of_treeChild {rows : List EntryRow} {dir child : Nat}
    (h : TreeChild rows dir child) : child ∈ rows.map EntryRow.inode := by
  obtain ⟨row, hrow, -, hinode, -⟩ := h
  exact List.mem_map.mpr ⟨row, hrow, hinode⟩

-- A cycle goes through directories with a row only.
theorem cycle_treeChildren_iff {rows : List EntryRow} {dir : Nat} :
    Relation.TransGen (Descent.Child (treeChildren rows)) dir dir ↔
      Relation.TransGen (TreeChild rows) dir dir := by
  constructor
  · have hchild (i j : Nat) (h : Descent.Child (treeChildren rows) i j) : TreeChild rows i j :=
      (mem_treeChildren.mp h).2
    exact Relation.TransGen.mono hchild dir dir
  · intro hcycle
    have hdir : dir ∈ rows.map EntryRow.inode := by
      obtain ⟨last, -, hlast⟩ := Relation.TransGen.tail'_iff.mp hcycle
      exact mem_inodes_of_treeChild hlast
    have hpath (child : Nat) (h : Relation.TransGen (TreeChild rows) dir child) :
        Relation.TransGen (Descent.Child (treeChildren rows)) dir child := by
      induction h with
      | single hchild => exact .single (mem_treeChildren.mpr ⟨hdir, hchild⟩)
      | tail hlast hchild ih =>
          obtain ⟨_, -, hrow⟩ := Relation.TransGen.tail'_iff.mp hlast
          exact ih.tail (mem_treeChildren.mpr ⟨mem_inodes_of_treeChild hrow, hchild⟩)
    exact hpath dir hcycle

-- On a cycle, no fuel is enough.
theorem Coherent.dumpTree_of_cycle {store fs : FileSystem} (h : Coherent store fs) {dirId : Nat}
    (hdir : dirId ≠ 0) (hcycle : Relation.TransGen (TreeChild store.entry) dirId dirId)
    (fuel level : Nat) : fs.dumpTree fuel dirId level = none := by
  have hrel := dumpTree_refines fuel h hdir level
  cases hvisit : Descent.visit (treeChildren store.entry) fuel dirId with
  | none =>
      rw [hvisit] at hrel
      cases hdump : fs.dumpTree fuel dirId level with
      | none => rfl
      | some out =>
          rw [hdump] at hrel
          cases hrel
  | some nodes => exact absurd (cycle_treeChildren_iff.mpr hcycle) (Descent.not_cycle_of_visit hvisit)

section Unique

variable {store : FileSystem} (hunique : (store.entry.map EntryRow.inode).Nodup)

include hunique

theorem nodup_treeChildren (dir : Nat) : (treeChildren store.entry dir).Nodup := by
  rw [treeChildren]
  split_ifs with hdir
  · exact (hunique.sublist (List.filter_sublist.map _)).filter _
  · exact List.nodup_nil

theorem parent_unique (i j k : Nat) (hi : Descent.Child (treeChildren store.entry) i k)
    (hj : Descent.Child (treeChildren store.entry) j k) : i = j := by
  obtain ⟨-, row, hrow, hparent, hinode, -⟩ := mem_treeChildren.mp hi
  obtain ⟨-, row', hrow', hparent', hinode', -⟩ := mem_treeChildren.mp hj
  obtain rfl := List.inj_on_of_nodup_map hunique hrow hrow' (hinode.trans hinode'.symm)
  exact hparent.symm.trans hparent'

-- With one row for each inode, the dump from a directory ends, and visits no inode
-- twice, exactly if no chain of rows leads from the directory back to it.
theorem Coherent.dumpTree_ends_iff {fs : FileSystem} (h : Coherent store fs) {dirId : Nat}
    (hdir : dirId ≠ 0) (level : Nat) :
    (∃ fuel lines fs', fs.dumpTree fuel dirId level = some (lines, fs') ∧
      (lines.filterMap TreeLine.visited).Nodup) ↔
      ¬Relation.TransGen (TreeChild store.entry) dirId dirId := by
  constructor
  · rintro ⟨fuel, lines, fs', hdump, -⟩ hcycle
    rw [h.dumpTree_of_cycle hdir hcycle fuel level] at hdump
    cases hdump
  · intro hacyclic
    rw [← cycle_treeChildren_iff, ← Descent.visit_ends_iff (parent_unique hunique)
      (nodup_treeChildren hunique)
      (fun _ _ hchild => mem_inodes_of_treeChild (mem_treeChildren.mp hchild).2)] at hacyclic
    obtain ⟨fuel, nodes, hvisit, hnodup⟩ := hacyclic
    have hrel := dumpTree_refines fuel h hdir level
    rw [hvisit] at hrel
    cases hdump : fs.dumpTree fuel dirId level with
    | none =>
        rw [hdump] at hrel
        cases hrel
    | some out =>
        rw [hdump] at hrel
        cases hrel with
        | some hout => exact ⟨fuel, out.1, out.2, hdump, hout.visited.symm ▸ hnodup⟩

end Unique

end FileSystem

end SuperBadBlock
