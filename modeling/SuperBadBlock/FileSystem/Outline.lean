import SuperBadBlock.FileSystem.DumpTree
import SuperBadBlock.Lib.Outline

namespace SuperBadBlock

-- What `dumpTree` says about an entry: everything but its versions and its parent.
structure Listed where
  inode : Nat
  name : List UInt8
  type : Nat
  length : Nat
  extents : List EntryExtent
deriving DecidableEq

-- An entry as its line has it; the order of the extents is left open.
structure Listed.Describes (listed : Listed) (e : Entry) : Prop where
  inode : listed.inode = e.inode
  name : listed.name = e.name
  type : listed.type = e.type
  length : listed.length = e.length
  extents : listed.extents.Perm e.extents

-- The entries in the lines of a dump, each with its level. An extent belongs to the entry
-- above it; those before the first entry come out on their own.
def readLines : List TreeLine → List EntryExtent × List (Nat × Listed)
  | [] => ([], [])
  | .extent _ extent :: lines =>
      let (extents, entries) := readLines lines
      (extent :: extents, entries)
  | .dir level inode name type length :: lines =>
      let (extents, entries) := readLines lines
      ([], (level, { inode, name, type, length, extents }) :: entries)
  | .notFound _ _ :: lines => ([], (readLines lines).2)

-- The chains that the indentation spells out, from each entry up to the root.
def readTree (lines : List TreeLine) : List (List Listed) :=
  Outline.spelled [] (readLines lines).2

-- The lines that are printed for an entry.
def Entry.treeLines (e : Entry) (level : Nat) : List TreeLine :=
  .dir level e.inode e.name e.type e.length :: e.extents.map (.extent level)

theorem readLines_extents (level : Nat) (extents : List EntryExtent) {lines : List TreeLine}
    (h : (readLines lines).1 = []) :
    readLines (extents.map (.extent level) ++ lines) = (extents, (readLines lines).2) := by
  induction extents with
  | nil => exact Prod.ext h rfl
  | cons extent extents ih => rw [List.map_cons, List.cons_append, readLines, ih]

theorem readLines_treeLines (e : Entry) (level : Nat) {lines : List TreeLine}
    (h : (readLines lines).1 = []) :
    readLines (e.treeLines level ++ lines) =
      ([], (level, { inode := e.inode, name := e.name, type := e.type, length := e.length,
                     extents := e.extents }) :: (readLines lines).2) := by
  rw [Entry.treeLines, List.cons_append, readLines, readLines_extents level e.extents h]

namespace FileSystem

-- The line tells a row, and the extents that are stored for it.
def Tells (store : FileSystem) (listed : Listed) (row : EntryRow) : Prop :=
  listed.Describes (loaded store.extent row)

-- A row in the tree below inode 2, and the rows it is reached through: `dumpTree` skips a
-- row that is its own parent, and prints nothing for inode 0.
inductive TreeChain (rows : List EntryRow) : List EntryRow → Prop
  | root {row : EntryRow} : row ∈ rows → row.inode = 2 → TreeChain rows [row]
  | child {row dir : EntryRow} {above : List EntryRow} : TreeChain rows (dir :: above) → row ∈ rows →
      row.parent_inode = dir.inode → row.inode ≠ dir.inode → row.inode ≠ 0 →
      TreeChain rows (row :: dir :: above)

-- The rows below a row, in the order of the table.
def rowsBelow (rows : List EntryRow) (dir : EntryRow) : List EntryRow :=
  (rows.filter fun row => row.parent_inode = dir.inode).filter fun row =>
    row.inode ≠ dir.inode ∧ row.inode ≠ 0

theorem mem_rowsBelow {rows : List EntryRow} {dir row : EntryRow} :
    row ∈ rowsBelow rows dir ↔
      row ∈ rows ∧ row.parent_inode = dir.inode ∧ row.inode ≠ dir.inode ∧ row.inode ≠ 0 := by
  simp only [rowsBelow, List.mem_filter, decide_eq_true_iff, and_assoc]

theorem treeChain_iff {rows : List EntryRow} (hunique : (rows.map EntryRow.inode).Nodup)
    {root : EntryRow} (hroot : root ∈ rows) (hinode : root.inode = 2) {chain : List EntryRow} :
    TreeChain rows chain ↔
      Relation.ReflTransGen (Descent.Child (Outline.extend (rowsBelow rows))) [root] chain := by
  constructor
  · intro h
    induction h with
    | root hrow hrow2 =>
        obtain rfl := List.inj_on_of_nodup_map hunique hrow hroot (hrow2.trans hinode.symm)
        exact .refl
    | child _ hrow hparent hself hnull ih =>
        exact ih.tail (Outline.child_extend_iff.mpr
          ⟨_, _, _, rfl, rfl, mem_rowsBelow.mpr ⟨hrow, hparent, hself, hnull⟩⟩)
  · intro h
    induction h with
    | refl => exact .root hroot hinode
    | tail _ hchild ih =>
        obtain ⟨dir, row, above, rfl, rfl, hbelow⟩ := Outline.child_extend_iff.mp hchild
        obtain ⟨hrow, hparent, hself, hnull⟩ := mem_rowsBelow.mp hbelow
        exact .child ih hrow hparent hself hnull

-- The lines of a visit of these chains.
inductive Lists (store : FileSystem) : List TreeLine → List (List EntryRow) → Prop
  | nil : Lists store [] []
  | cons {row : EntryRow} {above : List EntryRow} {e : Entry} {lines : List TreeLine}
      {chains : List (List EntryRow)} : row ∈ store.entry → SameFile (loaded store.extent row) e →
      Lists store lines chains →
      Lists store (e.treeLines above.length ++ lines) ((row :: above) :: chains)

theorem Lists.append {store : FileSystem} {lines lines' : List TreeLine}
    {chains chains' : List (List EntryRow)} (h : Lists store lines chains)
    (h' : Lists store lines' chains') : Lists store (lines ++ lines') (chains ++ chains') := by
  induction h with
  | nil => exact h'
  | cons hrow hsame _ ih =>
      rw [List.append_assoc]
      exact .cons hrow hsame ih

-- No line is printed but for a row of the table.
theorem Lists.exists_row {store : FileSystem} {lines : List TreeLine} {chains : List (List EntryRow)}
    (h : Lists store lines chains) : ∀ line ∈ lines, ∃ row ∈ store.entry, ∃ e level,
      SameFile (loaded store.extent row) e ∧ line ∈ e.treeLines level := by
  induction h with
  | nil => simp
  | cons hrow hsame _ ih =>
      exact List.forall_mem_append.mpr ⟨fun line hline => ⟨_, hrow, _, _, hsame, hline⟩, ih⟩

theorem Lists.readLines {store : FileSystem} {lines : List TreeLine} {chains : List (List EntryRow)}
    (h : Lists store lines chains) :
    (readLines lines).1 = [] ∧
      List.Forall₂ (Outline.Line (Tells store)) (readLines lines).2 chains := by
  induction h with
  | nil => exact ⟨rfl, .nil⟩
  | cons _ hsame _ ih =>
      rw [readLines_treeLines _ _ ih.1]
      refine ⟨rfl, .cons ⟨rfl, fun row hrow => ?_⟩ ih.2⟩
      obtain rfl := Option.some.inj hrow
      exact ⟨hsame.inode, hsame.name, hsame.type, hsame.length, hsame.extents⟩

-- A call of `dumpTree` over the tables of `store`, and the chains it visits.
structure Listing (store fs : FileSystem) (out : List TreeLine × FileSystem)
    (chains : List (List EntryRow)) : Prop where
  coherent : Coherent store out.2
  grows : Grows fs out.2
  lists : Lists store out.1 chains

section Refinement

variable {store fs : FileSystem}

theorem listing_after {fs' : FileSystem} {call : Option (List TreeLine × FileSystem)}
    {visit : Option (List (List EntryRow))} (hcall : Option.Rel (Listing store fs') call visit)
    (hgrows : Grows fs fs') {lines : List TreeLine} {first : List (List EntryRow)}
    (hlines : Lists store lines first) :
    Option.Rel (Listing store fs) (call.map fun rest => (lines ++ rest.1, rest.2))
      (visit.map fun others => first ++ others) := by
  cases hcall with
  | none => exact .none
  | some hrest => exact .some ⟨hrest.coherent, hgrows.trans hrest.grows, hlines.append hrest.lists⟩

-- The loop over the children goes through the rows below the directory.
theorem dumpChildren_lists {dump : FileSystem → Nat → Option (List TreeLine × FileSystem)}
    {visit : List EntryRow → Option (List (List EntryRow))} {dirId : Nat} {chain : List EntryRow}
    {children : List EntryPtr} {rows : List EntryRow} (hzero : ∀ fs, dump fs 0 = some ([], fs))
    (hdump : ∀ fs row, Coherent store fs → row ∈ store.entry → row.inode ≠ 0 →
      Option.Rel (Listing store fs) (dump fs row.inode) (visit (row :: chain)))
    (h : Coherent store fs) (hchildren : ∀ c ∈ children, c < fs.top)
    (hrows : ∀ row ∈ rows, row ∈ store.entry)
    (hinodes : (children.map fun c => (fs.heap c).inode) = rows.map EntryRow.inode) :
    Option.Rel (Listing store fs) (fs.dumpChildren dump dirId children)
      (Descent.visitAll visit ((rows.filter fun row => row.inode ≠ dirId ∧ row.inode ≠ 0).map
        fun row => row :: chain)) := by
  induction rows generalizing fs children with
  | nil =>
      obtain rfl := List.map_eq_nil_iff.mp hinodes
      exact .some ⟨h, .refl fs, .nil⟩
  | cons row rows ih =>
      obtain ⟨c, children, rfl, hinode, hrest⟩ := List.map_eq_cons_iff.mp hinodes
      obtain ⟨hc, hchildren⟩ := List.forall_mem_cons.mp hchildren
      obtain ⟨hrow, hrows⟩ := List.forall_mem_cons.mp hrows
      rw [dumpChildren, hinode]
      by_cases hself : row.inode = dirId
      · rw [if_pos hself, List.filter_cons_of_neg (by simp [hself])]
        exact ih h hchildren hrows hrest
      · rw [if_neg hself]
        by_cases hnull : row.inode = 0
        · rw [hnull, hzero, List.filter_cons_of_neg (by simp [hnull])]
          have hsame : (fun rest : List TreeLine × FileSystem => ([] ++ rest.1, rest.2)) = id := rfl
          dsimp only
          rw [hsame, Option.map_id]
          exact ih h hchildren hrows hrest
        · rw [List.filter_cons_of_pos (by simp [hself, hnull]), List.map_cons, Descent.visitAll]
          have hcall := hdump fs row h hrow hnull
          generalize dump fs row.inode = out at hcall
          generalize visit (row :: chain) = first at hcall
          cases hcall with
          | none => exact .none
          | @some out first hout =>
              obtain ⟨lines, fs'⟩ := out
              have hheap (q : EntryPtr) (hq : q ∈ children) : fs'.heap q = fs.heap q :=
                hout.grows.heap q (hchildren q hq)
              have hmap : (children.map fun q => (fs'.heap q).inode) =
                  children.map fun q => (fs.heap q).inode :=
                List.map_congr_left fun q hq => by rw [hheap q hq]
              have hothers := ih hout.coherent
                (fun q hq => Nat.lt_of_lt_of_le (hchildren q hq) hout.grows.top) hrows
                (hmap.trans hrest)
              exact listing_after hothers hout.grows hout.lists

-- With one row for each inode, `dumpTree` prints a row and then what is below it.
theorem dumpTree_lists (hunique : (store.entry.map EntryRow.inode).Nodup) (fuel : Nat)
    (h : Coherent store fs) {row : EntryRow} (hrow : row ∈ store.entry) (hnull : row.inode ≠ 0)
    (above : List EntryRow) :
    Option.Rel (Listing store fs) (fs.dumpTree fuel row.inode above.length)
      (Descent.visit (Outline.extend (rowsBelow store.entry)) fuel (row :: above)) := by
  induction fuel generalizing fs row above with
  | zero =>
      rw [dumpTree, if_neg hnull]
      exact .none
  | succ fuel ih =>
      rw [dumpTree, if_neg hnull, Descent.visit]
      have hgrows := fs.grows_findByInode row.inode
      rcases h.findByInode row.inode with ⟨p, other, hp, hother, hinode, hcoherent, hsame⟩ | ⟨hmissing, -⟩
      · obtain rfl := List.inj_on_of_nodup_map hunique hother hrow hinode
        rcases hcall : fs.findByInode other.inode with ⟨_, fs'⟩
        rw [hcall] at hp hcoherent hgrows hsame
        obtain rfl := hp
        obtain ⟨-, hrows⟩ := hcoherent.toServes.findByParentInode other.inode
        have hinodes : ((fs'.findByParentInode other.inode).1.map fun c =>
            ((fs'.findByParentInode other.inode).2.heap c).inode) =
            (store.entry.filter fun row => row.parent_inode = other.inode).map EntryRow.inode := by
          have hmap := congrArg (List.map Entry.inode) hrows
          rw [List.map_map, List.map_map] at hmap
          exact hmap
        have hbelow : Option.Rel (Listing store (fs'.findByParentInode other.inode).2)
            ((fs'.findByParentInode other.inode).2.dumpChildren
              (fun fs inode => dumpTree fuel fs inode (above.length + 1)) other.inode
              (fs'.findByParentInode other.inode).1)
            (Descent.visitAll (Descent.visit (Outline.extend (rowsBelow store.entry)) fuel)
              (Outline.extend (rowsBelow store.entry) (other :: above))) :=
          dumpChildren_lists (fun fs => dumpTree_zero fuel fs (above.length + 1))
            (fun fs row hfs hrow hnull => ih hfs hrow hnull (other :: above))
            (hcoherent.findByParentInode other.inode) (lt_top_of_mem_entriesFromQuery fs' _)
            (fun row hm => (List.mem_filter.mp hm).1) hinodes
        have hparent : Grows fs' (fs'.findByParentInode other.inode).2 := grows_entriesFromQuery fs' _
        have hfirst : Lists store ((fs'.heap p).treeLines above.length) [other :: above] := by
          have hlists : Lists store ((fs'.heap p).treeLines above.length ++ []) [other :: above] :=
            .cons hrow hsame .nil
          rwa [List.append_nil] at hlists
        have hlines := listing_after hbelow (hgrows.trans hparent) hfirst
        rw [Entry.treeLines, hsame.inode] at hlines
        exact hlines
      · exact absurd (List.mem_map_of_mem hrow) hmissing

-- The indentation of a dump spells out the whole tree of the tables: every chain of rows
-- below inode 2 is one line with what stands above it, and every line is one such chain.
theorem Coherent.chains_of_dump (h : Coherent store fs)
    (hunique : (store.entry.map EntryRow.inode).Nodup) {root : EntryRow} (hroot : root ∈ store.entry)
    (hinode : root.inode = 2) {fuel : Nat} {lines : List TreeLine} {fs' : FileSystem}
    (hdump : fs.dumpTree fuel 2 0 = some (lines, fs')) :
    ∃ chains : List (List EntryRow), chains.Nodup ∧
      (∀ chain, chain ∈ chains ↔ TreeChain store.entry chain) ∧
      List.Forall₂ (List.Forall₂ (Tells store)) (readTree lines) chains ∧ Lists store lines chains := by
  have hrel := dumpTree_lists hunique fuel h hroot (by omega) []
  rw [hinode, List.length_nil, hdump] at hrel
  generalize hvisit : Descent.visit (Outline.extend (rowsBelow store.entry)) fuel [root] = visited at hrel
  cases hrel with
  | @some _ chains hout =>
      have hnodup (dir : EntryRow) : (rowsBelow store.entry dir).Nodup :=
        ((List.Nodup.of_map EntryRow.inode hunique).filter _).filter _
      obtain ⟨hspelled, hchains, hmem⟩ := Outline.spelled_visit hnodup hvisit hout.lists.readLines.2
      exact ⟨chains, hchains, fun chain => (hmem chain).trans
        (treeChain_iff hunique hroot hinode).symm, hspelled, hout.lists⟩

end Refinement

-- The names on a chain, from below the root on.
def partsOf {α : Type} (name : α → List UInt8) (chain : List α) : List (List UInt8) :=
  (chain.dropLast.map name).reverse

theorem partsOf_cons {α : Type} (name : α → List UInt8) (x y : α) (above : List α) :
    partsOf name (x :: y :: above) = partsOf name (y :: above) ++ [name x] := by
  rw [partsOf, partsOf, List.dropLast_cons_cons, List.map_cons, List.reverse_cons]

theorem partsOf_tells {store : FileSystem} {listed : List Listed} {chain : List EntryRow}
    (h : List.Forall₂ (Tells store) listed chain) :
    partsOf Listed.name listed = partsOf EntryRow.name chain := by
  induction h with
  | nil => rfl
  | @cons first row _ _ htells hrest ih =>
      have hname : first.name = row.name := htells.name
      cases hrest with
      | nil => rfl
      | cons _ _ => rw [partsOf_cons, partsOf_cons, ih, hname]

theorem map_partsOf_tells {store : FileSystem} {listed : List (List Listed)}
    {chains : List (List EntryRow)} (h : List.Forall₂ (List.Forall₂ (Tells store)) listed chains) :
    listed.map (partsOf Listed.name) = chains.map (partsOf EntryRow.name) := by
  induction h with
  | nil => rfl
  | cons htells _ ih => rw [List.map_cons, List.map_cons, partsOf_tells htells, ih]

section Paths

variable {rows : List EntryRow} {root : EntryRow}

-- Two chains with the same names are the same.
theorem TreeChain.eq_of_parts (hunique : (rows.map EntryRow.inode).Nodup)
    (hnames : (rows.map fun row => (row.parent_inode, row.name)).Nodup)
    {chain chain' : List EntryRow} (h : TreeChain rows chain) (h' : TreeChain rows chain')
    (hparts : partsOf EntryRow.name chain = partsOf EntryRow.name chain') : chain = chain' := by
  induction h generalizing chain' with
  | root hrow hrow2 =>
      cases h' with
      | root hrow' hrow2' =>
          rw [List.inj_on_of_nodup_map hunique hrow hrow' (hrow2.trans hrow2'.symm)]
      | child =>
          rw [partsOf_cons] at hparts
          simp [partsOf] at hparts
  | child _ hrow hparent _ _ ih =>
      cases h' with
      | root =>
          rw [partsOf_cons] at hparts
          simp [partsOf] at hparts
      | child h' hrow' hparent' _ _ =>
          rw [partsOf_cons, partsOf_cons] at hparts
          obtain ⟨habove, hname⟩ := List.append_inj' hparts rfl
          obtain ⟨rfl, rfl⟩ := List.cons.inj (ih h' habove)
          have hparents := hparent.trans hparent'.symm
          have hkeys := congrArg₂ Prod.mk hparents (List.singleton_inj.mp hname)
          rw [List.inj_on_of_nodup_map hnames hrow hrow' hkeys]

variable (hunique : (rows.map EntryRow.inode).Nodup) (hroot : root ∈ rows) (hinode : root.inode = 2)

include hunique hroot hinode

-- The names on a chain lead from the root to its row.
theorem TreeChain.path {chain : List EntryRow} (h : TreeChain rows chain) :
    ∃ last above, chain = last :: above ∧ Chain rows root (partsOf EntryRow.name chain) last := by
  induction h with
  | root hrow hrow2 =>
      obtain rfl := List.inj_on_of_nodup_map hunique hrow hroot (hrow2.trans hinode.symm)
      exact ⟨_, [], rfl, .nil _⟩
  | child _ hrow hparent _ _ ih =>
      obtain ⟨dir, above, heq, hchain⟩ := ih
      obtain ⟨rfl, rfl⟩ := List.cons.inj heq
      rw [partsOf_cons]
      exact ⟨_, _, rfl, hchain.snoc hrow hparent⟩

section Rooted

variable (houter : ∀ row ∈ rows, row.inode ≠ root.parent_inode)

include houter

-- A root that is in no directory is on no cycle.
theorem not_cycle_of_root : ¬Relation.TransGen (TreeChild rows) 2 2 := by
  intro hcycle
  obtain ⟨dir, hpath, row, hrow, hparent, hrow2, hself, -⟩ := Relation.TransGen.tail'_iff.mp hcycle
  obtain rfl := List.inj_on_of_nodup_map hunique hrow hroot (hrow2.trans hinode.symm)
  rcases hpath.cases_tail with heq | ⟨_, -, other, hother, -, hdir, -⟩
  · exact hself heq.symm
  · exact houter other hother (hdir.trans hparent.symm)

-- No row of the tree is its own parent.
theorem TreeChain.not_self {row : EntryRow} {above : List EntryRow}
    (h : TreeChain rows (row :: above)) : row.parent_inode ≠ row.inode := by
  cases h with
  | root hrow hrow2 =>
      obtain rfl := List.inj_on_of_nodup_map hunique hrow hroot (hrow2.trans hinode.symm)
      exact (houter _ hrow).symm
  | child _ _ hparent hself _ =>
      rw [hparent]
      exact hself.symm

-- So every path from the root is a chain.
theorem TreeChain.of_path (hnull : ∀ row ∈ rows, row.inode ≠ 0) {row last : EntryRow}
    {above : List EntryRow} {parts : List (List UInt8)} (h : TreeChain rows (row :: above))
    (hpath : Chain rows row parts last) :
    ∃ above', TreeChain rows (last :: above') ∧
      partsOf EntryRow.name (last :: above') = partsOf EntryRow.name (row :: above) ++ parts := by
  induction hpath generalizing above with
  | nil row => exact ⟨above, h, (List.append_nil _).symm⟩
  | @cons row next last part parts hnext hparent hname _ ih =>
      have hself : next.inode ≠ row.inode := by
        intro heq
        have hm : row ∈ rows := by
          cases h with
          | root hm _ => exact hm
          | child _ hm _ _ _ => exact hm
        obtain rfl := List.inj_on_of_nodup_map hunique hnext hm heq
        exact h.not_self hunique hroot hinode houter hparent
      obtain ⟨above', hchain, hparts⟩ := ih (.child h hnext hparent hself (hnull next hnext))
      refine ⟨above', hchain, ?_⟩
      rw [hparts, partsOf_cons, hname, List.append_assoc, List.singleton_append]

end Rooted

end Paths

-- A path, looked up in the lines of a dump: the line under which its names are spelled out.
def dumpLookup (lines : List TreeLine) (parts : List (List UInt8)) : Option Listed :=
  ((readTree lines).find? fun chain => partsOf Listed.name chain = parts).bind List.head?

theorem exists_tells {store : FileSystem} {listed : List (List Listed)} {chains : List (List EntryRow)}
    (h : List.Forall₂ (List.Forall₂ (Tells store)) listed chains) :
    (∀ chain ∈ chains, ∃ told ∈ listed, List.Forall₂ (Tells store) told chain) ∧
      ∀ told ∈ listed, ∃ chain ∈ chains, List.Forall₂ (Tells store) told chain := by
  induction h with
  | nil => simp
  | cons hhead _ ih =>
      obtain ⟨hchains, hlisted⟩ := ih
      constructor
      · refine List.forall_mem_cons.mpr ⟨⟨_, List.mem_cons_self, hhead⟩, fun chain hchain => ?_⟩
        obtain ⟨told, htold, htells⟩ := hchains chain hchain
        exact ⟨told, List.mem_cons_of_mem _ htold, htells⟩
      · refine List.forall_mem_cons.mpr ⟨⟨_, List.mem_cons_self, hhead⟩, fun told htold => ?_⟩
        obtain ⟨chain, hchain, htells⟩ := hlisted told htold
        exact ⟨chain, List.mem_cons_of_mem _ hchain, htells⟩

-- It is the line of the row that the path leads to in the tables.
theorem dumpLookup_tells {store fs fs' : FileSystem} (h : Coherent store fs)
    (hunique : (store.entry.map EntryRow.inode).Nodup)
    (hnames : (store.entry.map fun row => (row.parent_inode, row.name)).Nodup) {root : EntryRow}
    (hroot : root ∈ store.entry) (hinode : root.inode = 2)
    (houter : ∀ row ∈ store.entry, row.inode ≠ root.parent_inode)
    (hnull : ∀ row ∈ store.entry, row.inode ≠ 0) {fuel : Nat} {lines : List TreeLine}
    (hdump : fs.dumpTree fuel 2 0 = some (lines, fs')) (parts : List (List UInt8)) :
    Option.Rel (Tells store) (dumpLookup lines parts) (descend store.entry root parts) := by
  obtain ⟨chains, -, hmem, hspelled, -⟩ := h.chains_of_dump hunique hroot hinode hdump
  obtain ⟨hchains, hlisted⟩ := exists_tells hspelled
  cases hfind : (readTree lines).find? fun chain => decide (partsOf Listed.name chain = parts) with
  | none =>
      cases hdescend : descend store.entry root parts with
      | none =>
          rw [dumpLookup, hfind]
          exact .none
      | some last =>
          obtain ⟨above, hchain, hparts⟩ := TreeChain.of_path hunique hroot hinode houter hnull
            (.root hroot hinode) ((NamedTree.descend_eq_some_iff hnames).mp hdescend)
          obtain ⟨told, htold, htells⟩ := hchains _ ((hmem _).mpr hchain)
          refine absurd (decide_eq_true ?_) (List.find?_eq_none.mp hfind told htold)
          rw [partsOf_tells htells, hparts]
          rfl
  | some told =>
      have htold := List.mem_of_find?_eq_some hfind
      have hparts : partsOf Listed.name told = parts := of_decide_eq_true
        (List.find?_some (p := fun chain => decide (partsOf Listed.name chain = parts)) hfind)
      obtain ⟨chain, hchain, htells⟩ := hlisted told htold
      obtain ⟨last, above, rfl, hpath⟩ := TreeChain.path hunique hroot hinode ((hmem chain).mp hchain)
      rw [← partsOf_tells htells, hparts] at hpath
      cases htells with
      | cons hlast _ =>
          rw [dumpLookup, hfind, descend, (NamedTree.descend_eq_some_iff hnames).mpr hpath]
          exact .some hlast

-- The dump and the path lookups say the same, whatever has been looked up before: a path
-- leads to an entry exactly if its names are spelled out above a line, and the entry is then
-- the one of that line. No directory has a name twice, and the root is in none of them.
theorem dump_agrees_with_lookup (splitString : List UInt8 → UInt8 → List (List UInt8))
    (store fs fs' printed : FileSystem) (h : Coherent store fs) (h' : Coherent store fs')
    (hunique : (store.entry.map EntryRow.inode).Nodup)
    (hnames : (store.entry.map fun row => (row.parent_inode, row.name)).Nodup) (root : EntryRow)
    (hroot : root ∈ store.entry) (hinode : root.inode = 2)
    (houter : ∀ row ∈ store.entry, row.inode ≠ root.parent_inode)
    (hnull : ∀ row ∈ store.entry, row.inode ≠ 0) (fuel : Nat) (lines : List TreeLine)
    (hdump : fs.dumpTree fuel 2 0 = some (lines, printed)) (path : List UInt8) :
    ∃ found, (fs'.findByPath splitString path).1 = some found ∧
      Option.Rel (fun q listed => Listed.Describes listed ((fs'.findByPath splitString path).2.heap q))
        found (dumpLookup lines (splitString path slash)) := by
  obtain ⟨-, found, hfound, hrel⟩ := h'.findByPath splitString hunique hroot hinode path
  refine ⟨found, hfound, ?_⟩
  have htells := dumpLookup_tells h hunique hnames hroot hinode houter hnull hdump
    (splitString path slash)
  generalize dumpLookup lines (splitString path slash) = line at htells ⊢
  generalize descend store.entry root (splitString path slash) = last at htells hrel
  cases hrel with
  | none =>
      cases htells
      exact .none
  | some hsame =>
      cases htells with
      | some hdescribes =>
          exact .some ⟨hdescribes.inode.trans hsame.inode.symm, hdescribes.name.trans hsame.name.symm,
            hdescribes.type.trans hsame.type.symm, hdescribes.length.trans hsame.length.symm,
            hdescribes.extents.trans hsame.extents.symm⟩

-- The file of the small tree, on the third line of its dump.
theorem dump_agrees_with_lookup_of_treeStore :
    ∃ q, (treeStore.reopen.findByPath (fun _ _ => [[97], [98]]) [97, 47, 98]).1 = some (some q) ∧
      Listed.Describes { inode := 17, name := [98], type := 8, length := 4096, extents := [⟨0, 40, 4096⟩] }
        ((treeStore.reopen.findByPath (fun _ _ => [[97], [98]]) [97, 47, 98]).2.heap q) := by
  obtain ⟨lines, printed, hdump, hline⟩ : ∃ lines printed,
      treeStore.reopen.dumpTree 3 2 0 = some (lines, printed) ∧ dumpLookup lines [[97], [98]] =
        some { inode := 17, name := [98], type := 8, length := 4096, extents := [⟨0, 40, 4096⟩] } :=
    ⟨_, _, rfl, by decide⟩
  obtain ⟨found, hfound, hrel⟩ := dump_agrees_with_lookup (fun _ _ => [[97], [98]]) treeStore
    treeStore.reopen treeStore.reopen printed (coherent_reopen treeStore) (coherent_reopen treeStore)
    (by decide) (by decide) treeRoot (by decide) rfl (by decide) (by decide) 3 lines hdump [97, 47, 98]
  rw [hline] at hrel
  cases hrel with
  | some hdescribes => exact ⟨_, hfound, hdescribes⟩

end FileSystem

end SuperBadBlock
