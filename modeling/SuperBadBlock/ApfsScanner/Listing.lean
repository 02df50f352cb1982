import SuperBadBlock.ApfsScanner.Database
import SuperBadBlock.ApfsScanner.Attributes
import SuperBadBlock.ApfsScanner.Image
import SuperBadBlock.FileSystem.Path

namespace SuperBadBlock

open FileSystem

-- The inodes in the tree below inode 2, as far as it is made of non-empty names.
abbrev InTree (rows : List EntryRow) : Nat → Prop :=
  NamedTree.Under EntryRow.parent_inode EntryRow.inode EntryRow.name (fun name => name ≠ []) rows 2

-- In every directory of the tree, every row has a name and no two have the same.
def TreeNamed (rows : List EntryRow) : Prop :=
  ∀ dir, InTree rows dir →
    (∀ row ∈ rows, row.parent_inode = dir → row.name ≠ []) ∧
    ((rows.filter fun row => row.parent_inode = dir).map EntryRow.name).Nodup

section Paths

variable (splitString : List UInt8 → UInt8 → List (List UInt8))

-- For every path that leads to an entry: `sbb_readdir` lists the names of its children
-- behind `.` and `..`, each child is found under the path extended by its name, and
-- the names are non-empty and distinct.
def ListingAgrees (fs : FileSystem) : Prop :=
  ∀ path d fs', fs.findByPath splitString path = (some (some d), fs') →
    ∀ children listed, fs'.findByParentInode (fs'.heap d).inode = (children, listed) →
      fs.sbb_readdir splitString path =
        (some (0, [dot] :: [dot, dot] :: children.map fun c => (listed.heap c).name), listed) ∧
      (∀ c ∈ children, ∃ e fs'', listed.findByPath splitString (path ++ slash :: (listed.heap c).name) =
          (some (some e), fs'') ∧ (fs''.heap e).inode = (listed.heap c).inode) ∧
      (∀ c ∈ children, (listed.heap c).name ≠ []) ∧
      (children.map fun c => (listed.heap c).name).Nodup

theorem sbb_readdir_of_findByPath {fs fs' listed : FileSystem} {path : List UInt8} {d : EntryPtr}
    {children : List EntryPtr} (hpath : fs.findByPath splitString path = (some (some d), fs'))
    (hchildren : fs'.findByParentInode (fs'.heap d).inode = (children, listed)) :
    fs.sbb_readdir splitString path =
      (some (0, [dot] :: [dot, dot] :: children.map fun c => (listed.heap c).name), listed) := by
  simp only [sbb_readdir, hpath, hchildren]

variable {splitString}
  (hsplit : ∀ s, splitString s slash = (s.splitOn slash).filter fun part => part ≠ [])

include hsplit

theorem splitString_nil : splitString [] slash = [] := by
  rw [hsplit, List.splitOn_eq_singleton (List.not_mem_nil)]
  rfl

theorem splitString_extend (path name : List UInt8) (hname : slash ∉ name) (hne : name ≠ []) :
    splitString (path ++ slash :: name) slash = splitString path slash ++ [name] := by
  rw [hsplit, hsplit, List.splitOn_append_cons_self, List.splitOn_eq_singleton hname,
    List.filter_append]
  simp [hne]

theorem splitString_ne_nil (path : List UInt8) : ∀ part ∈ splitString path slash, part ≠ [] := by
  rw [hsplit]
  intro part hm
  exact of_decide_eq_true (List.mem_filter.mp hm).2

end Paths

section Agreement

variable {splitString : List UInt8 → UInt8 → List (List UInt8)} {store fs : FileSystem}

-- A path that resolves leads to an entry with that inode, and the listing behind it
-- loads the rows of that directory.
theorem FileSystem.Serves.listing {fs : FileSystem} (h : Serves store fs)
    (hroot : 2 ∈ store.entry.map EntryRow.inode) {path : List UInt8} {dir : Nat}
    (hdir : resolve store.entry 2 (splitString path slash) = some dir) :
    ∃ d fs' children listed, fs.findByPath splitString path = (some (some d), fs') ∧
      (fs'.heap d).inode = dir ∧ fs'.findByParentInode (fs'.heap d).inode = (children, listed) ∧
      Serves store listed ∧ children.map listed.heap =
        (store.entry.filter fun row => row.parent_inode = dir).map (loaded store.extent) := by
  obtain ⟨found, hfound, hserves, hinode⟩ := h.findByPath splitString hroot path
  rw [hdir, Option.map_eq_some_iff] at hinode
  obtain ⟨d, rfl, hd⟩ := hinode
  obtain ⟨hlisted, hchildren⟩ := hserves.findByParentInode
    ((fs.findByPath splitString path).2.heap d).inode
  refine ⟨d, _, _, _, Prod.ext hfound rfl, hd, rfl, hlisted, ?_⟩
  rw [← hd]
  exact hchildren

theorem FileSystem.Serves.resolve_of_findByPath {fs fs' : FileSystem} (h : Serves store fs)
    (hroot : 2 ∈ store.entry.map EntryRow.inode) {path : List UInt8} {d : EntryPtr}
    (hpath : fs.findByPath splitString path = (some (some d), fs')) :
    resolve store.entry 2 (splitString path slash) = some (fs'.heap d).inode := by
  obtain ⟨found, hfound, -, hinode⟩ := h.findByPath splitString hroot path
  rw [hpath] at hfound hinode
  obtain rfl := Option.some.inj hfound
  exact hinode.symm

-- The children of a listing are the rows of the directory, one for one.
section Children

variable {listed : FileSystem} {children : List EntryPtr} {dir : Nat}
  (hrows : children.map listed.heap =
    (store.entry.filter fun row => row.parent_inode = dir).map (loaded store.extent))

include hrows

theorem row_of_child {c : EntryPtr} (hc : c ∈ children) :
    ∃ row ∈ store.entry, row.parent_inode = dir ∧ listed.heap c = loaded store.extent row := by
  have hm : listed.heap c ∈ children.map listed.heap := List.mem_map_of_mem hc
  rw [hrows, List.mem_map] at hm
  obtain ⟨row, hm, heq⟩ := hm
  obtain ⟨hm, hparent⟩ := List.mem_filter.mp hm
  exact ⟨row, hm, of_decide_eq_true hparent, heq.symm⟩

theorem child_of_row {row : EntryRow} (hm : row ∈ store.entry) (hparent : row.parent_inode = dir) :
    ∃ c ∈ children, listed.heap c = loaded store.extent row := by
  have hmem : loaded store.extent row ∈ children.map listed.heap := by
    rw [hrows]
    exact List.mem_map_of_mem (List.mem_filter.mpr ⟨hm, decide_eq_true hparent⟩)
  exact List.mem_map.mp hmem

theorem names_of_children : (children.map fun c => (listed.heap c).name) =
    (store.entry.filter fun row => row.parent_inode = dir).map EntryRow.name := by
  have hmap : (children.map fun c => (listed.heap c).name) =
      (children.map listed.heap).map Entry.name := by
    rw [List.map_map]
    rfl
  rw [hmap, hrows, List.map_map]
  rfl

end Children

variable (h : Serves store fs) (hroot : 2 ∈ store.entry.map EntryRow.inode)
  (hsplit : ∀ s, splitString s slash = (s.splitOn slash).filter fun part => part ≠ [])

include h hroot hsplit

theorem listingAgrees_of_treeNamed (hslash : ∀ row ∈ store.entry, slash ∉ row.name)
    (hnamed : TreeNamed store.entry) : ListingAgrees splitString fs := by
  intro path d fs' hpath children listed hlisting
  have hdir := h.resolve_of_findByPath hroot hpath
  obtain ⟨d', fs'', children', listed', hpath', hinode, hlisting', hserves, hrows⟩ :=
    h.listing hroot hdir
  rw [hpath] at hpath'
  cases hpath'
  rw [hlisting] at hlisting'
  cases hlisting'
  obtain ⟨hnames, hnodup⟩ := hnamed _ (NamedTree.under_of_resolve .root
    (splitString_ne_nil hsplit path) hdir)
  refine ⟨sbb_readdir_of_findByPath splitString hpath hlisting, fun c hc => ?_, fun c hc => ?_, ?_⟩
  · obtain ⟨row, hm, hparent, heq⟩ := row_of_child hrows hc
    have hfind : store.entry.find? (fun r => r.parent_inode = row.parent_inode ∧ r.name = row.name) =
        some row := NamedTree.find?_of_nodup hm (hparent ▸ hnodup)
    have hresolve : resolve store.entry 2
        (splitString (path ++ slash :: (listed.heap c).name) slash) = some row.inode := by
      have hname : (listed.heap c).name = row.name := by rw [heq]; rfl
      unfold resolve at hdir ⊢
      rw [hname, splitString_extend hsplit path row.name (hslash row hm) (hnames row hm hparent),
        NamedTree.resolve_append, hdir, Option.bind_some, NamedTree.resolve, ← hparent, hfind]
      rfl
    obtain ⟨e, fs'', -, -, hfound, he, -⟩ := hserves.listing hroot hresolve
    refine ⟨e, fs'', hfound, ?_⟩
    rw [he, heq]
    rfl
  · obtain ⟨row, hm, hparent, heq⟩ := row_of_child hrows hc
    rw [heq]
    exact hnames row hm hparent
  · rw [names_of_children hrows]
    exact hnodup

-- Where listing and lookup agree, a path leads to every inode of the tree.
theorem exists_path_of_inTree (hagrees : ListingAgrees splitString fs) {dir : Nat}
    (hdir : InTree store.entry dir) :
    ∃ path, resolve store.entry 2 (splitString path slash) = some dir := by
  induction hdir with
  | root => exact ⟨[], by rw [splitString_nil hsplit]; rfl⟩
  | @child row _ hm hname ih =>
      obtain ⟨path, hpath⟩ := ih
      obtain ⟨d, fs', children, listed, hfound, -, hlisting, hserves, hrows⟩ := h.listing hroot hpath
      obtain ⟨c, hc, heq⟩ := child_of_row hrows hm rfl
      obtain ⟨e, fs'', he, hinode⟩ := (hagrees path d fs' hfound children listed hlisting).2.1 c hc
      refine ⟨path ++ slash :: (listed.heap c).name, ?_⟩
      rw [hserves.resolve_of_findByPath hroot he, hinode, heq]
      rfl

theorem treeNamed_of_listingAgrees (hagrees : ListingAgrees splitString fs) : TreeNamed store.entry := by
  intro dir hdir
  obtain ⟨path, hpath⟩ := exists_path_of_inTree h hroot hsplit hagrees hdir
  obtain ⟨d, fs', children, listed, hfound, -, hlisting, -, hrows⟩ := h.listing hroot hpath
  obtain ⟨-, -, hnames, hnodup⟩ := hagrees path d fs' hfound children listed hlisting
  constructor
  · intro row hm hparent
    obtain ⟨c, hc, heq⟩ := child_of_row hrows hm hparent
    have hname := hnames c hc
    rw [heq] at hname
    exact hname
  · rw [names_of_children hrows] at hnodup
    exact hnodup

end Agreement

-- Over a scanned store, in the scanner's own process or over the reopened database,
-- listing and lookup agree exactly if the tree below inode 2 is well named.
theorem listing_agrees_iff (splitString : List UInt8 → UInt8 → List (List UInt8))
    (hsplit : ∀ s, splitString s slash = (s.splitOn slash).filter fun part => part ≠ [])
    (blocks : List ScannedBlock) (fs : FileSystem) (h : Serves (scanBlocks {} blocks).fileSystem fs)
    (hroot : 2 ∈ (scanBlocks {} blocks).fileSystem.entry.map EntryRow.inode)
    (hslash : ∀ row ∈ (scanBlocks {} blocks).fileSystem.entry, slash ∉ row.name) :
    ListingAgrees splitString fs ↔ TreeNamed (scanBlocks {} blocks).fileSystem.entry :=
  ⟨treeNamed_of_listingAgrees h hroot hsplit, listingAgrees_of_treeNamed h hroot hsplit hslash⟩

def splitPath (s : List UInt8) (separator : UInt8) : List (List UInt8) :=
  (s.splitOn separator).filter fun part => part ≠ []

-- A row of the entry table after a scan of node images.
theorem mem_entry_nodeImages {nodes : List Node}
    (hdecodes : ∀ node ∈ nodes, nodeOf (nodeImage node) 4096 = node) (row : EntryRow) :
    row ∈ (scanBlocks {} (nodeImages nodes)).fileSystem.entry ↔
      ((eventsOf row.inode nodes).foldl (fun old event => event.absorb row.inode old) none).map
        Entry.row = some row := by
  have hconsistent : (scanBlocks {} (nodeImages nodes)).fileSystem.Consistent :=
    Reachable.consistent ⟨_, rfl⟩
  rw [hconsistent.mem_entry, cached_nodeImages hdecodes]

theorem mentioned_of_mem_entry {nodes : List Node}
    (hdecodes : ∀ node ∈ nodes, nodeOf (nodeImage node) 4096 = node) {row : EntryRow}
    (h : row ∈ (scanBlocks {} (nodeImages nodes)).fileSystem.entry) :
    ∃ node ∈ nodes, ∃ record ∈ node.records, record.Mentions row.inode := by
  rw [mem_entry_nodeImages hdecodes] at h
  rw [← eventsOf_ne_nil_iff]
  intro hnil
  rw [hnil] at h
  cases h

-- The root and one file in it.
def rootAndFile : List Node := [{ xid := 7, flags := 2, records := [.inode 2 1 none, .dirRec 2 16 [97] 8] }]

def rootRow : EntryRow :=
  { inode := 2, parent_inode := 1, versionId := 7, type := 0, name := [], length := 0, extentVersionId := 0 }

def fileRow : EntryRow :=
  { inode := 16, parent_inode := 2, versionId := 7, type := 8, name := [97], length := 0, extentVersionId := 0 }

theorem decodes_rootAndFile : ∀ node ∈ rootAndFile, nodeOf (nodeImage node) 4096 = node := by
  decide +kernel

theorem mem_entry_rootAndFile (row : EntryRow) :
    row ∈ (scanBlocks {} (nodeImages rootAndFile)).fileSystem.entry ↔ row = rootRow ∨ row = fileRow := by
  constructor
  · intro h
    obtain ⟨node, hn, record, hr, hm⟩ := mentioned_of_mem_entry decodes_rootAndFile h
    rw [mem_entry_nodeImages decodes_rootAndFile] at h
    simp only [rootAndFile, List.mem_singleton] at hn
    subst hn
    simp only [List.mem_cons, List.not_mem_nil, or_false] at hr
    rcases hr with rfl | rfl
    · simp only [Record.Mentions] at hm
      rw [← hm] at h
      exact Or.inl (Option.some.inj h).symm
    · simp only [Record.Mentions] at hm
      rw [← hm] at h
      exact Or.inr (Option.some.inj h).symm
  · rw [mem_entry_nodeImages decodes_rootAndFile]
    rintro (rfl | rfl)
    · decide
    · decide

theorem treeNamed_rootAndFile :
    TreeNamed (scanBlocks {} (nodeImages rootAndFile)).fileSystem.entry := by
  intro dir hdir
  have hplace : dir = 2 ∨ dir = 16 := by
    cases hdir with
    | root => exact Or.inl rfl
    | child _ hm hname =>
        rcases (mem_entry_rootAndFile _).mp hm with rfl | rfl
        · exact absurd rfl hname
        · exact Or.inr rfl
  -- the root's own row has parent 1, so every child is the file
  have hchild (row : EntryRow) (hm : row ∈ (scanBlocks {} (nodeImages rootAndFile)).fileSystem.entry)
      (hparent : row.parent_inode = dir) : row = fileRow := by
    rcases (mem_entry_rootAndFile row).mp hm with rfl | rfl
    · rcases hplace with rfl | rfl
      · exact absurd hparent (by decide)
      · exact absurd hparent (by decide)
    · rfl
  constructor
  · intro row hm hparent
    rw [hchild row hm hparent]
    decide
  · have hconsistent : (scanBlocks {} (nodeImages rootAndFile)).fileSystem.Consistent :=
      Reachable.consistent ⟨_, rfl⟩
    refine List.Nodup.map_on ?_ ((List.Nodup.of_map _ hconsistent.rows_nodup).filter _)
    intro row hrow other hother _
    obtain ⟨hm, hparent⟩ := List.mem_filter.mp hrow
    obtain ⟨hm', hparent'⟩ := List.mem_filter.mp hother
    rw [hchild row hm (of_decide_eq_true hparent), hchild other hm' (of_decide_eq_true hparent')]

-- One file with a name of its own.
theorem listing_agrees_of_rootAndFile :
    ListingAgrees splitPath (scanBlocks {} (nodeImages rootAndFile)).fileSystem.reopen := by
  have hroot : rootRow ∈ (scanBlocks {} (nodeImages rootAndFile)).fileSystem.entry :=
    (mem_entry_rootAndFile _).mpr (Or.inl rfl)
  have hslash : ∀ row ∈ (scanBlocks {} (nodeImages rootAndFile)).fileSystem.entry,
      slash ∉ row.name := by
    intro row hm
    rcases (mem_entry_rootAndFile row).mp hm with rfl | rfl
    · decide
    · decide
  exact (listing_agrees_iff splitPath (fun _ => rfl) _ _ (serves_reopen _)
    (List.mem_map.mpr ⟨rootRow, hroot, rfl⟩) hslash).mpr treeNamed_rootAndFile

-- A file, and in a later transaction another one under its name.
def recreatedFile : List Node :=
  [{ xid := 3, flags := 2, records := [.inode 2 1 none, .dirRec 2 16 [97] 8] },
    { xid := 5, flags := 2, records := [.inode 2 1 none, .dirRec 2 17 [97] 8] }]

theorem decodes_recreatedFile : ∀ node ∈ recreatedFile, nodeOf (nodeImage node) 4096 = node := by
  decide +kernel

-- Both are listed under one name, and only one of them can be looked up.
theorem recreated_file_unreachable :
    2 ∈ (scanBlocks {} (nodeImages recreatedFile)).fileSystem.entry.map EntryRow.inode ∧
    (∀ row ∈ (scanBlocks {} (nodeImages recreatedFile)).fileSystem.entry, slash ∉ row.name) ∧
    ¬ListingAgrees splitPath (scanBlocks {} (nodeImages recreatedFile)).fileSystem.reopen := by
  have hroot : { rootRow with versionId := 5 } ∈
      (scanBlocks {} (nodeImages recreatedFile)).fileSystem.entry := by
    rw [mem_entry_nodeImages decodes_recreatedFile]
    decide
  have hold : { fileRow with versionId := 3 } ∈
      (scanBlocks {} (nodeImages recreatedFile)).fileSystem.entry := by
    rw [mem_entry_nodeImages decodes_recreatedFile]
    decide
  have hnew : { fileRow with inode := 17, versionId := 5 } ∈
      (scanBlocks {} (nodeImages recreatedFile)).fileSystem.entry := by
    rw [mem_entry_nodeImages decodes_recreatedFile]
    decide
  have hinodes : 2 ∈ (scanBlocks {} (nodeImages recreatedFile)).fileSystem.entry.map EntryRow.inode :=
    List.mem_map.mpr ⟨_, hroot, rfl⟩
  refine ⟨hinodes, fun row hm => ?_, fun hagrees => ?_⟩
  · obtain ⟨node, hn, record, hr, hmention⟩ := mentioned_of_mem_entry decodes_recreatedFile hm
    have hplace : row.inode = 2 ∨ row.inode = 16 ∨ row.inode = 17 := by
      simp only [recreatedFile, List.mem_cons, List.not_mem_nil, or_false] at hn
      rcases hn with rfl | rfl <;> simp only [List.mem_cons, List.not_mem_nil, or_false] at hr <;>
        rcases hr with rfl | rfl <;> simp only [Record.Mentions] at hmention <;> omega
    rw [mem_entry_nodeImages decodes_recreatedFile] at hm
    rcases hplace with hi | hi | hi <;> rw [hi] at hm <;> rw [← Option.some.inj hm] <;> decide
  · have hnamed := treeNamed_of_listingAgrees (serves_reopen _) hinodes (fun _ => rfl) hagrees
    have heq := List.inj_on_of_nodup_map (hnamed 2 .root).2
      (List.mem_filter.mpr ⟨hold, by decide⟩) (List.mem_filter.mpr ⟨hnew, by decide⟩) rfl
    exact absurd heq (by decide)

end SuperBadBlock
