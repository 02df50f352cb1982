import SuperBadBlock.FileSystem.Path

namespace SuperBadBlock

theorem insertNew_of_ne_none {α : Type} {map : Nat → Option α} {i : Nat} (h : map i ≠ none) (key : Nat)
    (value : α) : insertNew map key value i = map i := by
  obtain ⟨old, hold⟩ := Option.ne_none_iff_exists'.mp h
  rw [insertNew_apply]
  split_ifs with hi
  · rw [← hi, hold]
    rfl
  · rfl

namespace FileSystem

-- Between two operations, over tables of any kind: a cached object is allocated, sits
-- under its own inode and is no longer new. The inodes in `C` are cached, and no row
-- has one of them.
structure Remembers (C : Nat → Prop) (fs : FileSystem) : Prop where
  allocated : ∀ i p, fs.diskEntries i = some p → p < fs.top
  keyed : ∀ i p, fs.diskEntries i = some p → (fs.heap p).inode = i
  isNew : ∀ i p, fs.diskEntries i = some p → (fs.heap p).isNew = false
  cached : ∀ i, C i → fs.diskEntries i ≠ none
  unlisted : ∀ row ∈ fs.entry, ¬C row.inode

-- An object that can be written back: a new one is not of an inode in `C`.
structure Writable (C : Nat → Prop) (fs : FileSystem) (p : EntryPtr) : Prop where
  allocated : p < fs.top
  isNew : (fs.heap p).isNew = true → ¬C (fs.heap p).inode

structure Keeps (C : Nat → Prop) (fs fs' : FileSystem) : Prop where
  remembers : Remembers C fs'
  writable : ∀ p, Writable C fs p → Writable C fs' p

section Remembers

variable {C : Nat → Prop} {fs fs' fs'' : FileSystem}

theorem Remembers.keeps (h : Remembers C fs) : Keeps C fs fs := ⟨h, fun _ hp => hp⟩

theorem Keeps.trans (h : Keeps C fs fs') (h' : Keeps C fs' fs'') : Keeps C fs fs'' :=
  ⟨h'.remembers, fun p hp => h'.writable p (h.writable p hp)⟩

theorem Remembers.writable (h : Remembers C fs) {i : Nat} {p : EntryPtr}
    (hp : fs.diskEntries i = some p) : Writable C fs p := by
  refine ⟨h.allocated i p hp, fun hnew => ?_⟩
  rw [h.isNew i p hp] at hnew
  cases hnew

theorem Remembers.newEntry (h : Remembers C fs) (e : Entry) : Keeps C fs (fs.newEntry e).2 := by
  have hheap (p : EntryPtr) (hp : p < fs.top) : (fs.newEntry e).2.heap p = fs.heap p :=
    Function.update_of_ne (Nat.ne_of_lt hp) _ _
  constructor
  · constructor
    · exact fun i p hp => Nat.lt_succ_of_lt (h.allocated i p hp)
    · intro i p hp
      rw [hheap p (h.allocated i p hp)]
      exact h.keyed i p hp
    · intro i p hp
      rw [hheap p (h.allocated i p hp)]
      exact h.isNew i p hp
    · exact h.cached
    · exact h.unlisted
  · intro p hp
    refine ⟨Nat.lt_succ_of_lt hp.allocated, ?_⟩
    rw [hheap p hp.allocated]
    exact hp.isNew

theorem Remembers.getEntryFromQuery (h : Remembers C fs) (row : EntryRow) :
    Keeps C fs (fs.getEntryFromQuery row).2 ∧
      Writable C (fs.getEntryFromQuery row).2 (fs.getEntryFromQuery row).1 := by
  have hloaded : (fs.getEntryFromQuery row).2.heap fs.top = loaded fs.extent row := by
    rw [heap_getEntryFromQuery, Function.update_self]
  have hheap (p : EntryPtr) (hp : p < fs.top) : (fs.getEntryFromQuery row).2.heap p = fs.heap p := by
    rw [heap_getEntryFromQuery, Function.update_of_ne (Nat.ne_of_lt hp)]
  have hcases (i : Nat) (p : EntryPtr) (hp : (fs.getEntryFromQuery row).2.diskEntries i = some p) :
      fs.diskEntries i = some p ∨ i = row.inode ∧ p = fs.top := insertNew_eq_some hp
  refine ⟨⟨⟨?_, ?_, ?_, ?_, h.unlisted⟩, ?_⟩, Nat.lt_succ_self _, ?_⟩
  · intro i p hp
    rcases hcases i p hp with hp | ⟨-, rfl⟩
    · exact Nat.lt_succ_of_lt (h.allocated i p hp)
    · exact Nat.lt_succ_self _
  · intro i p hp
    rcases hcases i p hp with hp | ⟨rfl, rfl⟩
    · rw [hheap p (h.allocated i p hp)]
      exact h.keyed i p hp
    · rw [hloaded]
      rfl
  · intro i p hp
    rcases hcases i p hp with hp | ⟨rfl, rfl⟩
    · rw [hheap p (h.allocated i p hp)]
      exact h.isNew i p hp
    · rw [hloaded]
      rfl
  · intro i hi
    have hkept : (fs.getEntryFromQuery row).2.diskEntries i = fs.diskEntries i :=
      insertNew_of_ne_none (h.cached i hi) row.inode fs.top
    rw [hkept]
    exact h.cached i hi
  · intro p hp
    refine ⟨Nat.lt_succ_of_lt hp.allocated, ?_⟩
    rw [hheap p hp.allocated]
    exact hp.isNew
  · intro hnew
    have hold : ((fs.getEntryFromQuery row).2.heap fs.top).isNew = false := by rw [hloaded]; rfl
    exact absurd (hold.symm.trans hnew) Bool.false_ne_true

theorem Remembers.findByInode (h : Remembers C fs) (i : Nat) :
    Keeps C fs (fs.findByInode i).2 ∧
      ∀ p, (fs.findByInode i).1 = some p → Writable C (fs.findByInode i).2 p := by
  unfold FileSystem.findByInode
  cases hd : fs.diskEntries i with
  | some q =>
      refine ⟨h.keeps, fun p hp => ?_⟩
      obtain rfl := Option.some.inj hp
      exact h.writable hd
  | none =>
      cases fs.entry.find? fun row => decide (row.inode = i) with
      | none => exact ⟨h.keeps, fun p hp => by cases hp⟩
      | some row =>
          obtain ⟨hkeeps, hwritable⟩ := h.getEntryFromQuery row
          refine ⟨hkeeps, fun p hp => ?_⟩
          obtain rfl := Option.some.inj hp
          exact hwritable

theorem Remembers.findByName (h : Remembers C fs) (inode : Nat) (name : List UInt8) :
    Keeps C fs (fs.findByName inode name).2 := by
  unfold FileSystem.findByName
  cases fs.entry.find? fun row => decide (row.parent_inode = inode ∧ row.name = name) with
  | none => exact h.keeps
  | some row => exact (h.getEntryFromQuery row).1

theorem Remembers.entriesFromQuery (h : Remembers C fs) (rows : List EntryRow) :
    Keeps C fs (fs.entriesFromQuery rows).2 := by
  induction rows generalizing fs with
  | nil => exact h.keeps
  | cons row rows ih =>
      obtain ⟨hkeeps, -⟩ := h.getEntryFromQuery row
      exact hkeeps.trans (ih hkeeps.remembers)

theorem Remembers.findParts (h : Remembers C fs) (p : EntryPtr) (parts : List (List UInt8)) :
    Keeps C fs (fs.findParts p parts).2 := by
  induction parts generalizing fs p with
  | nil => exact h.keeps
  | cons part parts ih =>
      have hkeeps := h.findByName (fs.heap p).inode part
      rw [FileSystem.findParts]
      rcases hname : fs.findByName (fs.heap p).inode part with ⟨q | q, fs'⟩
      · rw [hname] at hkeeps
        exact hkeeps
      · rw [hname] at hkeeps
        exact hkeeps.trans (ih hkeeps.remembers q)

theorem Remembers.findByPath (h : Remembers C fs)
    (splitString : List UInt8 → UInt8 → List (List UInt8)) (path : List UInt8) :
    Keeps C fs (fs.findByPath splitString path).2 := by
  obtain ⟨hkeeps, -⟩ := h.findByInode 2
  rw [FileSystem.findByPath]
  rcases hroot : fs.findByInode 2 with ⟨root | root, fs'⟩
  · rw [hroot] at hkeeps
    exact hkeeps
  · rw [hroot] at hkeeps
    exact hkeeps.trans (hkeeps.remembers.findParts root _)

theorem diskEntries_of_not_found {fs fs' : FileSystem} {i : Nat}
    (h : fs.findByInode i = (none, fs')) : fs'.diskEntries i = none := by
  unfold FileSystem.findByInode at h
  cases hd : fs.diskEntries i with
  | some q =>
      rw [hd] at h
      cases h
  | none =>
      rw [hd] at h
      cases hf : fs.entry.find? fun row => decide (row.inode = i) with
      | none =>
          rw [hf] at h
          obtain rfl := (Prod.mk.inj h).2
          exact hd
      | some row =>
          rw [hf] at h
          cases h

-- An inode that is not found is not cached, so it is none of `C`.
theorem Remembers.findOrNew (h : Remembers C fs) (i : Nat) :
    Keeps C fs (fs.findOrNew i).2 ∧ Writable C (fs.findOrNew i).2 (fs.findOrNew i).1 := by
  obtain ⟨hkeeps, hwritable⟩ := h.findByInode i
  rw [FileSystem.findOrNew]
  rcases hfound : fs.findByInode i with ⟨p | p, fs'⟩
  · rw [hfound] at hkeeps hwritable
    refine ⟨hkeeps.trans (hkeeps.remembers.newEntry _), Nat.lt_succ_self _, fun _ hi => ?_⟩
    have hinode : (fs'.newEntry { inode := i }).2.heap fs'.top = { inode := i } :=
      Function.update_self _ _ _
    have huncached : fs'.diskEntries i = none := diskEntries_of_not_found hfound
    have hkey : C i := by
      dsimp only at hi
      rw [show (fs'.newEntry { inode := i }).1 = fs'.top from rfl, hinode] at hi
      exact hi
    exact hkeeps.remembers.cached i hkey huncached
  · rw [hfound] at hkeeps hwritable
    exact ⟨hkeeps, hwritable p rfl⟩

theorem Remembers.modify (h : Remembers C fs) (p : EntryPtr) {f : Entry → Entry}
    (hinode : (f (fs.heap p)).inode = (fs.heap p).inode)
    (hnew : (f (fs.heap p)).isNew = (fs.heap p).isNew) : Keeps C fs (fs.modify p f) := by
  have hsame (q : EntryPtr) : ((fs.modify p f).heap q).inode = (fs.heap q).inode ∧
      ((fs.modify p f).heap q).isNew = (fs.heap q).isNew := by
    by_cases hq : q = p
    · subst hq
      have hheap : (fs.modify q f).heap q = f (fs.heap q) := Function.update_self _ _ _
      rw [hheap]
      exact ⟨hinode, hnew⟩
    · have hheap : (fs.modify p f).heap q = fs.heap q := Function.update_of_ne hq _ _
      rw [hheap]
      exact ⟨rfl, rfl⟩
  refine ⟨⟨h.allocated, ?_, ?_, h.cached, h.unlisted⟩, fun q hq => ⟨hq.allocated, ?_⟩⟩
  · exact fun i q hq => (hsame q).1.trans (h.keyed i q hq)
  · exact fun i q hq => (hsame q).2.trans (h.isNew i q hq)
  · rw [(hsame q).1, (hsame q).2]
    exact hq.isNew

theorem heap_updateEntry (fs : FileSystem) (p : EntryPtr) :
    (fs.updateEntry p).heap = Function.update fs.heap p (fs.heap p).settle := by
  rw [updateEntry_eq]

theorem top_updateEntry (fs : FileSystem) (p : EntryPtr) : (fs.updateEntry p).top = fs.top := by
  rw [updateEntry_eq]

theorem inode_heap_updateEntry (fs : FileSystem) (p q : EntryPtr) :
    ((fs.updateEntry p).heap q).inode = (fs.heap q).inode := by
  rw [heap_updateEntry]
  by_cases hq : q = p
  · subst hq
    rw [Function.update_self, Entry.inode_settle]
  · rw [Function.update_of_ne hq]

theorem isNew_heap_updateEntry (fs : FileSystem) (p q : EntryPtr) :
    ((fs.updateEntry p).heap q).isNew = if q = p then false else (fs.heap q).isNew := by
  rw [heap_updateEntry]
  split_ifs with hq
  · subst hq
    rw [Function.update_self]
    rfl
  · rw [Function.update_of_ne hq]

theorem diskEntries_of_updateEntry {fs : FileSystem} {p q : EntryPtr} {i : Nat}
    (h : (fs.updateEntry p).diskEntries i = some q) :
    fs.diskEntries i = some q ∨ i = (fs.heap p).inode ∧ q = p := by
  rw [updateEntry_eq] at h
  dsimp only at h
  split_ifs at h
  · exact insertNew_eq_some h
  · exact Or.inl h

theorem diskEntries_updateEntry_of_ne_none {fs : FileSystem} {i : Nat} (h : fs.diskEntries i ≠ none)
    (p : EntryPtr) : (fs.updateEntry p).diskEntries i = fs.diskEntries i := by
  rw [updateEntry_eq]
  dsimp only
  split_ifs
  · exact insertNew_of_ne_none h _ _
  · rfl

-- The only row of another inode than before is that of a new object.
theorem inode_of_mem_updateEntry {fs : FileSystem} {p : EntryPtr} {row : EntryRow}
    (h : row ∈ (fs.updateEntry p).entry) :
    (∃ old ∈ fs.entry, old.inode = row.inode) ∨
      (fs.heap p).isNew = true ∧ (fs.heap p).inode = row.inode := by
  rw [updateEntry_eq] at h
  dsimp only at h
  split_ifs at h with hnew
  · rcases List.mem_append.mp h with hold | hrow
    · exact Or.inl ⟨row, hold, rfl⟩
    · obtain rfl := List.mem_singleton.mp hrow
      exact Or.inr ⟨hnew, rfl⟩
  · obtain ⟨old, hold, rfl⟩ := List.mem_map.mp h
    refine Or.inl ⟨old, hold, ?_⟩
    split_ifs with hi
    · exact hi
    · rfl

-- Writing back makes a row for a new object only, and that is of no inode in `C`.
theorem Remembers.updateEntry (h : Remembers C fs) {p : EntryPtr} (hp : Writable C fs p) :
    Keeps C fs (fs.updateEntry p) := by
  constructor
  · constructor
    · intro i q hq
      rw [top_updateEntry]
      rcases diskEntries_of_updateEntry hq with hq | ⟨-, rfl⟩
      · exact h.allocated i q hq
      · exact hp.allocated
    · intro i q hq
      rw [inode_heap_updateEntry]
      rcases diskEntries_of_updateEntry hq with hq | ⟨rfl, rfl⟩
      · exact h.keyed i q hq
      · rfl
    · intro i q hq
      rw [isNew_heap_updateEntry]
      split_ifs with heq
      · rfl
      · rcases diskEntries_of_updateEntry hq with hq | ⟨-, rfl⟩
        · exact h.isNew i q hq
        · exact absurd rfl heq
    · intro i hi
      rw [diskEntries_updateEntry_of_ne_none (h.cached i hi)]
      exact h.cached i hi
    · intro row hrow
      rcases inode_of_mem_updateEntry hrow with ⟨old, hold, hinode⟩ | ⟨hnew, hinode⟩
      · rw [← hinode]
        exact h.unlisted old hold
      · rw [← hinode]
        exact hp.isNew hnew
  · intro q hq
    refine ⟨?_, fun hnew => ?_⟩
    · rw [top_updateEntry]
      exact hq.allocated
    · rw [inode_heap_updateEntry]
      rw [isNew_heap_updateEntry] at hnew
      split_ifs at hnew
      exact hq.isNew hnew

theorem Remembers.edit (h : Remembers C fs) {p : EntryPtr} (hp : Writable C fs p) {f : Entry → Entry}
    (hinode : (f (fs.heap p)).inode = (fs.heap p).inode)
    (hnew : (f (fs.heap p)).isNew = (fs.heap p).isNew) : Keeps C fs ((fs.modify p f).updateEntry p) := by
  have hedit := h.modify p hinode hnew
  exact hedit.trans (hedit.remembers.updateEntry (hedit.writable p hp))

-- `clear` leaves the cache as it is: no row has an inode that is in it.
theorem Remembers.clear (h : Remembers C fs) : Remembers (fun i => fs.diskEntries i ≠ none) fs.clear where
  allocated := h.allocated
  keyed := h.keyed
  isNew := h.isNew
  cached _ hi := hi
  unlisted _ hrow := absurd hrow List.not_mem_nil

end Remembers

-- The two states differ only in what their caches hold of the inodes in `C`.
def AgreeOutside (C : Nat → Prop) (fs fs' : FileSystem) : Prop :=
  ∃ diskEntries, fs' = { fs with diskEntries := diskEntries } ∧
    ∀ i, ¬C i → diskEntries i = fs.diskEntries i

section AgreeOutside

variable {C : Nat → Prop} {fs fs' : FileSystem}

theorem AgreeOutside.heap (h : AgreeOutside C fs fs') : fs'.heap = fs.heap := by
  obtain ⟨diskEntries, rfl, -⟩ := h
  rfl

theorem AgreeOutside.entry (h : AgreeOutside C fs fs') : fs'.entry = fs.entry := by
  obtain ⟨diskEntries, rfl, -⟩ := h
  rfl

theorem AgreeOutside.extent (h : AgreeOutside C fs fs') : fs'.extent = fs.extent := by
  obtain ⟨diskEntries, rfl, -⟩ := h
  rfl

theorem AgreeOutside.newEntry (h : AgreeOutside C fs fs') (e : Entry) :
    (fs'.newEntry e).1 = (fs.newEntry e).1 ∧ AgreeOutside C (fs.newEntry e).2 (fs'.newEntry e).2 := by
  obtain ⟨diskEntries, rfl, hagree⟩ := h
  exact ⟨rfl, diskEntries, rfl, hagree⟩

theorem AgreeOutside.modify (h : AgreeOutside C fs fs') (p : EntryPtr) (f : Entry → Entry) :
    AgreeOutside C (fs.modify p f) (fs'.modify p f) := by
  obtain ⟨diskEntries, rfl, hagree⟩ := h
  exact ⟨diskEntries, rfl, hagree⟩

theorem insertNew_agree {map map' : Nat → Option EntryPtr} (h : ∀ i, ¬C i → map' i = map i) (key : Nat)
    (p : EntryPtr) (i : Nat) (hi : ¬C i) : insertNew map' key p i = insertNew map key p i := by
  rw [insertNew_apply, insertNew_apply]
  split_ifs with hkey
  · rw [← hkey, h i hi]
  · exact h i hi

theorem AgreeOutside.getEntryFromQuery (h : AgreeOutside C fs fs') (row : EntryRow) :
    (fs'.getEntryFromQuery row).1 = (fs.getEntryFromQuery row).1 ∧
      AgreeOutside C (fs.getEntryFromQuery row).2 (fs'.getEntryFromQuery row).2 := by
  obtain ⟨diskEntries, rfl, hagree⟩ := h
  exact ⟨rfl, insertNew diskEntries row.inode fs.top, rfl, insertNew_agree hagree _ _⟩

theorem AgreeOutside.findByInode (h : AgreeOutside C fs fs') {i : Nat} (hi : ¬C i) :
    (fs'.findByInode i).1 = (fs.findByInode i).1 ∧
      AgreeOutside C (fs.findByInode i).2 (fs'.findByInode i).2 := by
  obtain ⟨diskEntries, rfl, hagree⟩ := id h
  unfold FileSystem.findByInode
  dsimp only
  rw [hagree i hi]
  cases fs.diskEntries i with
  | some p => exact ⟨rfl, h⟩
  | none =>
      cases fs.entry.find? fun row => decide (row.inode = i) with
      | none => exact ⟨rfl, h⟩
      | some row =>
          obtain ⟨hptr, hrest⟩ := h.getEntryFromQuery row
          exact ⟨congrArg some hptr, hrest⟩

theorem AgreeOutside.findOrNew (h : AgreeOutside C fs fs') {i : Nat} (hi : ¬C i) :
    (fs'.findOrNew i).1 = (fs.findOrNew i).1 ∧
      AgreeOutside C (fs.findOrNew i).2 (fs'.findOrNew i).2 := by
  obtain ⟨hptr, hagree⟩ := h.findByInode hi
  rw [FileSystem.findOrNew, FileSystem.findOrNew]
  rcases hfound : fs.findByInode i with ⟨p, fs₁⟩
  rcases hfound' : fs'.findByInode i with ⟨p', fs₁'⟩
  rw [hfound, hfound'] at hptr hagree
  obtain rfl : p' = p := hptr
  cases p' with
  | none => exact hagree.newEntry _
  | some p => exact ⟨rfl, hagree⟩

theorem AgreeOutside.updateEntry (h : AgreeOutside C fs fs') (p : EntryPtr) :
    AgreeOutside C (fs.updateEntry p) (fs'.updateEntry p) := by
  obtain ⟨diskEntries, rfl, hagree⟩ := h
  rw [updateEntry_eq, updateEntry_eq]
  refine ⟨_, rfl, fun i hi => ?_⟩
  dsimp only
  split_ifs
  · exact insertNew_agree hagree _ _ i hi
  · exact hagree i hi

end AgreeOutside

end FileSystem

end SuperBadBlock
