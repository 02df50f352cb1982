import SuperBadBlock.FileSystem.Path

namespace SuperBadBlock

theorem SameFile.refl (e : Entry) : SameFile e e :=
  ⟨rfl, rfl, rfl, rfl, rfl, rfl, rfl, List.Perm.refl _⟩

theorem SameFile.trans {e e' e'' : Entry} (h : SameFile e e') (h' : SameFile e' e'') :
    SameFile e e'' where
  inode := h'.inode.trans h.inode
  parentId := h'.parentId.trans h.parentId
  versionId := h'.versionId.trans h.versionId
  type := h'.type.trans h.type
  name := h'.name.trans h.name
  length := h'.length.trans h.length
  extentVersionId := h'.extentVersionId.trans h.extentVersionId
  extents := h'.extents.trans h.extents

namespace FileSystem

-- Whatever the cache of `fs` holds, it is the file of a row.
structure Coherent (store fs : FileSystem) : Prop extends Serves store fs where
  rows : ∀ i p, fs.diskEntries i = some p →
    ∃ row ∈ store.entry, row.inode = i ∧ SameFile (loaded store.extent row) (fs.heap p)

theorem coherent_reopen (fs : FileSystem) : Coherent fs fs.reopen where
  toServes := serves_reopen fs
  rows i p hp := by cases hp

theorem Consistent.coherent {fs : FileSystem} (h : fs.Consistent) : Coherent fs fs where
  toServes := h.serves
  rows i p hp := by
    have hcached : fs.cached i = some (fs.heap p) := by simp [cached, hp]
    refine ⟨(fs.heap p).row, h.row_mem hcached, h.keyed i p hp, ?_⟩
    have hextents : (loaded fs.extent (fs.heap p).row).extents = (fs.heap p).extents := by
      have hrows := h.extents (fs.heap p).inode
      rw [h.keyed i p hp, hcached] at hrows
      rw [← h.keyed i p hp] at hrows
      exact hrows
    exact ⟨rfl, rfl, rfl, rfl, rfl, rfl, rfl, hextents ▸ List.Perm.refl _⟩

section Lookups

variable {store fs : FileSystem}

theorem Coherent.getEntryFromQuery (h : Coherent store fs) {row : EntryRow}
    (hrow : row ∈ store.entry) :
    Coherent store (fs.getEntryFromQuery row).2 ∧
      SameFile (loaded store.extent row)
        ((fs.getEntryFromQuery row).2.heap (fs.getEntryFromQuery row).1) := by
  obtain ⟨hserves, hheap⟩ := h.toServes.getEntryFromQuery row
  rw [h.extent] at hheap
  refine ⟨⟨hserves, fun i p hp => ?_⟩, hheap ▸ SameFile.refl _⟩
  rcases insertNew_eq_some hp with hp | ⟨rfl, rfl⟩
  · obtain ⟨other, hm, hinode, hsame⟩ := h.rows i p hp
    rw [heap_getEntryFromQuery, Function.update_of_ne (Nat.ne_of_lt (h.keyed i p hp).1)]
    exact ⟨other, hm, hinode, hsame⟩
  · refine ⟨row, hrow, rfl, ?_⟩
    rw [heap_getEntryFromQuery, Function.update_self, h.extent]
    exact SameFile.refl _

theorem Coherent.findByName (h : Coherent store fs) (inode : Nat) (name : List UInt8) :
    Coherent store (fs.findByName inode name).2 ∧
      Option.Rel (fun p row => SameFile (loaded store.extent row) ((fs.findByName inode name).2.heap p))
        (fs.findByName inode name).1
        (store.entry.find? fun row => row.parent_inode = inode ∧ row.name = name) := by
  unfold FileSystem.findByName
  rw [h.entry]
  cases hf : store.entry.find? fun row => decide (row.parent_inode = inode ∧ row.name = name) with
  | none => exact ⟨h, .none⟩
  | some row =>
      obtain ⟨hcoherent, hsame⟩ := h.getEntryFromQuery (List.mem_of_find?_eq_some hf)
      exact ⟨hcoherent, .some hsame⟩

-- An inode that the cache or the table knows is found as one of its rows; any other
-- is not found, and nothing changes.
theorem Coherent.findByInode (h : Coherent store fs) (inode : Nat) :
    (∃ p row, (fs.findByInode inode).1 = some p ∧ row ∈ store.entry ∧ row.inode = inode ∧
      Coherent store (fs.findByInode inode).2 ∧
      SameFile (loaded store.extent row) ((fs.findByInode inode).2.heap p)) ∨
    (inode ∉ store.entry.map EntryRow.inode ∧ fs.findByInode inode = (none, fs)) := by
  unfold FileSystem.findByInode
  cases hd : fs.diskEntries inode with
  | some p =>
      obtain ⟨row, hm, hinode, hsame⟩ := h.rows inode p hd
      exact Or.inl ⟨p, row, rfl, hm, hinode, h, hsame⟩
  | none =>
      rw [h.entry]
      cases hf : store.entry.find? fun row => decide (row.inode = inode) with
      | some row =>
          have hm := List.mem_of_find?_eq_some hf
          have hinode : row.inode = inode := of_decide_eq_true
            (List.find?_some (p := fun row : EntryRow => decide (row.inode = inode)) hf)
          obtain ⟨hcoherent, hsame⟩ := h.getEntryFromQuery hm
          exact Or.inl ⟨_, row, rfl, hm, hinode, hcoherent, hsame⟩
      | none =>
          refine Or.inr ⟨fun hrow => ?_, rfl⟩
          obtain ⟨row, hm, hinode⟩ := List.mem_map.mp hrow
          exact List.find?_eq_none.mp hf row hm (decide_eq_true hinode)

theorem Coherent.entriesFromQuery (h : Coherent store fs) (rows : List EntryRow)
    (hrows : ∀ row ∈ rows, row ∈ store.entry) : Coherent store (fs.entriesFromQuery rows).2 := by
  induction rows generalizing fs with
  | nil => exact h
  | cons row rows ih =>
      obtain ⟨hhead, htail⟩ := List.forall_mem_cons.mp hrows
      exact ih (h.getEntryFromQuery hhead).1 htail

theorem Coherent.findByParentInode (h : Coherent store fs) (inode : Nat) :
    Coherent store (fs.findByParentInode inode).2 :=
  h.entriesFromQuery _ fun _ hm => h.entry ▸ (List.mem_filter.mp hm).1

abbrev descend (rows : List EntryRow) : EntryRow → List (List UInt8) → Option EntryRow :=
  NamedTree.descend EntryRow.parent_inode EntryRow.inode EntryRow.name rows

abbrev Chain (rows : List EntryRow) : EntryRow → List (List UInt8) → EntryRow → Prop :=
  NamedTree.Chain EntryRow.parent_inode EntryRow.inode EntryRow.name rows

-- The loop of `findByPath` walks from row to row.
theorem Coherent.findParts (h : Coherent store fs) {p : EntryPtr} {row : EntryRow}
    (hp : SameFile (loaded store.extent row) (fs.heap p)) (parts : List (List UInt8)) :
    Coherent store (fs.findParts p parts).2 ∧
      Option.Rel (fun q last => SameFile (loaded store.extent last) ((fs.findParts p parts).2.heap q))
        (fs.findParts p parts).1 (descend store.entry row parts) := by
  induction parts generalizing fs p row with
  | nil => exact ⟨h, .some hp⟩
  | cons part parts ih =>
      have hinode : (fs.heap p).inode = row.inode := hp.inode
      obtain ⟨hcoherent, hfound⟩ := h.findByName row.inode part
      rw [FileSystem.findParts, descend, NamedTree.descend, hinode]
      generalize store.entry.find? (fun next => decide (next.parent_inode = row.inode ∧
        next.name = part)) = next at hfound
      rcases hname : fs.findByName row.inode part with ⟨q, fs'⟩
      rw [hname] at hcoherent hfound
      cases hfound with
      | none => exact ⟨hcoherent, .none⟩
      | some hsame => exact ih hcoherent hsame

end Lookups

theorem findParts_append (fs : FileSystem) (p : EntryPtr) (first second : List (List UInt8)) :
    fs.findParts p (first ++ second) =
      match fs.findParts p first with
      | (some q, fs') => fs'.findParts q second
      | (none, fs') => (none, fs') := by
  induction first generalizing fs p with
  | nil => rfl
  | cons part first ih =>
      rw [List.cons_append, findParts, findParts]
      rcases fs.findByName (fs.heap p).inode part with ⟨q | q, fs'⟩
      · rfl
      · exact ih fs' q

section Paths

variable {store fs : FileSystem} (splitString : List UInt8 → UInt8 → List (List UInt8))

theorem findByPath_of_root {root : EntryPtr} {fs' : FileSystem}
    (hroot : fs.findByInode 2 = (some root, fs')) (path : List UInt8) :
    fs.findByPath splitString path =
      (some (fs'.findParts root (splitString path slash)).1,
        (fs'.findParts root (splitString path slash)).2) := by
  rw [findByPath, hroot]

-- A lookup finds the last row of the chain that its parts describe.
theorem Coherent.findByPath (h : Coherent store fs) {root : EntryRow}
    (hunique : (store.entry.map EntryRow.inode).Nodup) (hroot : root ∈ store.entry)
    (hinode : root.inode = 2) (path : List UInt8) :
    Coherent store (fs.findByPath splitString path).2 ∧
    ∃ found, (fs.findByPath splitString path).1 = some found ∧
      Option.Rel (fun q last => SameFile (loaded store.extent last)
          ((fs.findByPath splitString path).2.heap q))
        found (descend store.entry root (splitString path slash)) := by
  rcases h.findByInode 2 with ⟨p, row, hp, hrow, hinode', hcoherent, hsame⟩ | ⟨hnone, -⟩
  · obtain rfl := List.inj_on_of_nodup_map hunique hrow hroot (hinode'.trans hinode.symm)
    rcases hcall : fs.findByInode 2 with ⟨_, fs'⟩
    rw [hcall] at hp hcoherent hsame
    obtain rfl := hp
    rw [findByPath_of_root splitString hcall]
    obtain ⟨hparts, hrel⟩ := hcoherent.findParts hsame (splitString path slash)
    exact ⟨hparts, _, rfl, hrel⟩
  · exact absurd (List.mem_map.mpr ⟨root, hroot, hinode⟩) hnone

-- `findByPath` follows the rows: it returns the file at the end of the chain for the
-- parts, null without such a chain, and a path in two halves is two walks.
theorem findByPath_follows_rows (store fs : FileSystem) (h : Coherent store fs) (root : EntryRow)
    (hunique : (store.entry.map EntryRow.inode).Nodup)
    (hnames : (store.entry.map fun row => (row.parent_inode, row.name)).Nodup)
    (hroot : root ∈ store.entry) (hinode : root.inode = 2) (path : List UInt8) :
    let found := fs.findByPath splitString path
    (∀ e ∈ store.entry,
      (∃ q, found.1 = some (some q) ∧ SameFile (loaded store.extent e) (found.2.heap q)) ↔
        Chain store.entry root (splitString path slash) e) ∧
    (found.1 = some none ↔ ¬∃ e, Chain store.entry root (splitString path slash) e) ∧
    ∀ (start : List UInt8) (rest : List (List UInt8)),
      splitString path slash = splitString start slash ++ rest →
      found = match fs.findByPath splitString start with
        | (some (some q), fs') => (some (fs'.findParts q rest).1, (fs'.findParts q rest).2)
        | (notFound, fs') => (notFound, fs') := by
  intro found
  obtain ⟨-, result, hresult, hrel⟩ := h.findByPath splitString hunique hroot hinode path
  have hchain (e : EntryRow) : descend store.entry root (splitString path slash) = some e ↔
      Chain store.entry root (splitString path slash) e := NamedTree.descend_eq_some_iff hnames
  refine ⟨fun e he => ?_, ?_, fun start rest hsplit => ?_⟩
  · rw [← hchain, hresult]
    constructor
    · rintro ⟨q, hq, hsame⟩
      obtain rfl := Option.some.inj hq
      generalize hlast : descend store.entry root (splitString path slash) = last at hrel hchain ⊢
      cases hrel with
      | @some _ last hother =>
          have hm := NamedTree.mem_of_chain hroot ((hchain last).mp rfl)
          rw [List.inj_on_of_nodup_map hunique he hm (hsame.inode.symm.trans hother.inode)]
    · intro hlast
      rw [hlast] at hrel
      cases hrel with
      | @some q _ hsame => exact ⟨q, rfl, hsame⟩
  · rw [hresult]
    simp only [← hchain]
    generalize descend store.entry root (splitString path slash) = last at hrel
    cases hrel with
    | none => simp
    | some _ => simp
  · rcases hcall : fs.findByInode 2 with ⟨_ | p, fs'⟩
    · rcases h.findByInode 2 with ⟨_, _, hp, -⟩ | ⟨hnone, -⟩
      · rw [hcall] at hp
        cases hp
      · exact absurd (List.mem_map.mpr ⟨root, hroot, hinode⟩) hnone
    · rw [findByPath_of_root splitString hcall start, show found = _ from
        findByPath_of_root splitString hcall path, hsplit, findParts_append]
      rcases fs'.findParts p (splitString start slash) with ⟨q | q, fs''⟩
      · rfl
      · rfl

end Paths

-- A directory and a file in it, below the root.
def treeRoot : EntryRow := {
  inode := 2, parent_inode := 1, versionId := 7, type := 4, name := [], length := 0,
  extentVersionId := 0 }

def treeDir : EntryRow := { treeRoot with inode := 16, parent_inode := 2, name := [97] }

def treeFile : EntryRow := {
  inode := 17, parent_inode := 16, versionId := 7, type := 8, name := [98], length := 4096,
  extentVersionId := 7 }

def treeStore : FileSystem := {
  entry := [treeDir, treeFile, treeRoot]
  extent := [⟨17, 0, 40, 4096⟩] }

theorem findByPath_follows_rows_of_treeStore :
    ∃ q, (treeStore.findByPath (fun _ _ => [[97], [98]]) [97, 47, 98]).1 = some (some q) ∧
      ((treeStore.findByPath (fun _ _ => [[97], [98]]) [97, 47, 98]).2.heap q).inode = 17 := by
  obtain ⟨hfound, -, -⟩ := findByPath_follows_rows (fun _ _ => [[97], [98]]) treeStore treeStore
    (coherent_reopen treeStore) treeRoot (by decide) (by decide) (by decide) rfl [97, 47, 98]
  obtain ⟨q, hq, hsame⟩ := (hfound treeFile (by decide)).mpr
    (.cons (show treeDir ∈ treeStore.entry by decide) rfl rfl (.cons (by decide) rfl rfl (.nil _)))
  exact ⟨q, hq, hsame.inode⟩

end FileSystem

end SuperBadBlock
