import SuperBadBlock.FileSystem.Reopen
import SuperBadBlock.Lib.NamedTree

namespace SuperBadBlock

-- `'/'` and `'.'`
def slash : UInt8 := 47

def dot : UInt8 := 46

def ENOENT : Int := 2

namespace FileSystem

-- The loop of `findByPath` over the parts behind `partEntry`.
def findParts (fs : FileSystem) (partEntry : EntryPtr) :
    List (List UInt8) → Option EntryPtr × FileSystem
  | [] => (some partEntry, fs)
  | part :: parts =>
      match fs.findByName (fs.heap partEntry).inode part with
      | (some partEntry, fs) => fs.findParts partEntry parts
      | (none, fs) => (none, fs)

variable (splitString : List UInt8 → UInt8 → List (List UInt8))

-- Without an entry for inode 2 the loop follows a null pointer; that outcome is the
-- outer `none`.
def findByPath (fs : FileSystem) (path : List UInt8) : Option (Option EntryPtr) × FileSystem :=
  let parts := splitString path slash
  match fs.findByInode 2 with
  | (some root, fs) =>
      let (partEntry, fs) := fs.findParts root parts
      (some partEntry, fs)
  | (none, fs) => (if parts = [] then some none else none, fs)

-- `sbb_readdir`: its result, and the names it hands to `filler`.
def sbb_readdir (fs : FileSystem) (path : List UInt8) :
    Option (Int × List (List UInt8)) × FileSystem :=
  match fs.findByPath splitString path with
  | (none, fs) => (none, fs)
  | (some none, fs) => (some (-ENOENT, []), fs)
  | (some (some entry), fs) =>
      let (children, fs) := fs.findByParentInode (fs.heap entry).inode
      (some (0, [dot] :: [dot, dot] :: children.map fun child => (fs.heap child).name), fs)

-- `fs` works on the tables of `store`, and its cache holds every object under its
-- own inode.
structure Serves (store fs : FileSystem) : Prop where
  entry : fs.entry = store.entry
  extent : fs.extent = store.extent
  keyed : ∀ i p, fs.diskEntries i = some p → p < fs.top ∧ (fs.heap p).inode = i

theorem Consistent.serves {fs : FileSystem} (h : fs.Consistent) : Serves fs fs where
  entry := rfl
  extent := rfl
  keyed i p hp := ⟨h.allocated i p hp, h.keyed i p hp⟩

theorem serves_reopen (fs : FileSystem) : Serves fs fs.reopen where
  entry := rfl
  extent := rfl
  keyed i p hp := by cases hp

section Lookups

variable {store fs : FileSystem}

-- Every query only adds objects and cache entries.
theorem Serves.getEntryFromQuery (h : Serves store fs) (row : EntryRow) :
    Serves store (fs.getEntryFromQuery row).2 ∧
      (fs.getEntryFromQuery row).2.heap (fs.getEntryFromQuery row).1 = loaded fs.extent row := by
  have hheap := heap_getEntryFromQuery fs row
  refine ⟨⟨h.entry, h.extent, fun i p hp => ?_⟩, ?_⟩
  · rcases insertNew_eq_some hp with hp | ⟨rfl, rfl⟩
    · obtain ⟨hlt, hinode⟩ := h.keyed i p hp
      refine ⟨Nat.lt_succ_of_lt hlt, ?_⟩
      rw [hheap, Function.update_of_ne (Nat.ne_of_lt hlt)]
      exact hinode
    · refine ⟨Nat.lt_succ_self _, ?_⟩
      rw [hheap, Function.update_self]
      rfl
  · rw [hheap]
    exact Function.update_self _ _ _

theorem Serves.findByName (h : Serves store fs) (inode : Nat) (name : List UInt8) :
    Serves store (fs.findByName inode name).2 ∧
      (fs.findByName inode name).1.map (fun p => ((fs.findByName inode name).2.heap p).inode) =
        (store.entry.find? fun row => row.parent_inode = inode ∧ row.name = name).map
          EntryRow.inode := by
  unfold FileSystem.findByName
  rw [h.entry]
  cases hf : store.entry.find? fun row => decide (row.parent_inode = inode ∧ row.name = name) with
  | none => exact ⟨h, rfl⟩
  | some row =>
      obtain ⟨hserves, hheap⟩ := h.getEntryFromQuery row
      refine ⟨hserves, ?_⟩
      simp only [Option.map_some]
      rw [hheap]
      rfl

theorem Serves.findByInode (h : Serves store fs) (inode : Nat)
    (hrow : inode ∈ store.entry.map EntryRow.inode) :
    ∃ p, (fs.findByInode inode).1 = some p ∧ Serves store (fs.findByInode inode).2 ∧
      ((fs.findByInode inode).2.heap p).inode = inode := by
  unfold FileSystem.findByInode
  cases hd : fs.diskEntries inode with
  | some p => exact ⟨p, rfl, h, (h.keyed inode p hd).2⟩
  | none =>
      rw [h.entry]
      cases hf : store.entry.find? fun row => decide (row.inode = inode) with
      | none =>
          obtain ⟨row, hm, hi⟩ := List.mem_map.mp hrow
          exact absurd (decide_eq_true hi) (List.find?_eq_none.mp hf row hm)
      | some row =>
          obtain ⟨hserves, hheap⟩ := h.getEntryFromQuery row
          refine ⟨_, rfl, hserves, ?_⟩
          simp only []
          rw [hheap]
          exact of_decide_eq_true
            (List.find?_some (p := fun row : EntryRow => decide (row.inode = inode)) hf)

theorem Serves.entriesFromQuery (h : Serves store fs) (rows : List EntryRow) :
    Serves store (fs.entriesFromQuery rows).2 := by
  induction rows generalizing fs with
  | nil => exact h
  | cons row rows ih => exact ih (h.getEntryFromQuery row).1

theorem Serves.findByParentInode (h : Serves store fs) (inode : Nat) :
    Serves store (fs.findByParentInode inode).2 ∧
      (fs.findByParentInode inode).1.map (fs.findByParentInode inode).2.heap =
        (store.entry.filter fun row => row.parent_inode = inode).map (loaded store.extent) := by
  rw [← h.entry, ← h.extent]
  exact ⟨h.entriesFromQuery _, map_heap_entriesFromQuery fs _⟩

abbrev resolve (rows : List EntryRow) : Nat → List (List UInt8) → Option Nat :=
  NamedTree.resolve EntryRow.parent_inode EntryRow.inode EntryRow.name rows

theorem Serves.findParts (h : Serves store fs) (p : EntryPtr) (parts : List (List UInt8)) :
    Serves store (fs.findParts p parts).2 ∧
      (fs.findParts p parts).1.map (fun q => ((fs.findParts p parts).2.heap q).inode) =
        resolve store.entry (fs.heap p).inode parts := by
  induction parts generalizing fs p with
  | nil => exact ⟨h, rfl⟩
  | cons part parts ih =>
      obtain ⟨hserves, hfound⟩ := h.findByName (fs.heap p).inode part
      rw [FileSystem.findParts, resolve, NamedTree.resolve]
      rcases hname : fs.findByName (fs.heap p).inode part with ⟨q | q, fs'⟩
      · rw [hname] at hserves hfound
        refine ⟨hserves, ?_⟩
        rw [Option.map_none, eq_comm, Option.map_eq_none_iff] at hfound
        rw [hfound]
        rfl
      · rw [hname] at hserves hfound
        obtain ⟨row, hrow, hinode⟩ := Option.map_eq_some_iff.mp hfound.symm
        obtain ⟨hrest, heq⟩ := ih hserves q
        refine ⟨hrest, ?_⟩
        rw [hrow]
        simp only [] at hinode heq ⊢
        rw [heq, ← hinode]

-- A lookup by path is the resolution of its parts from inode 2 on.
theorem Serves.findByPath (h : Serves store fs) (hroot : 2 ∈ store.entry.map EntryRow.inode)
    (path : List UInt8) :
    ∃ found, (fs.findByPath splitString path).1 = some found ∧
      Serves store (fs.findByPath splitString path).2 ∧
      found.map (fun p => ((fs.findByPath splitString path).2.heap p).inode) =
        resolve store.entry 2 (splitString path slash) := by
  obtain ⟨root, hfound, hserves, hinode⟩ := h.findByInode 2 hroot
  rcases hcall : fs.findByInode 2 with ⟨_, fs'⟩
  rw [hcall] at hfound hserves hinode
  obtain rfl := hfound
  obtain ⟨hparts, heq⟩ := hserves.findParts root (splitString path slash)
  simp only [FileSystem.findByPath, hcall]
  rw [hinode] at heq
  exact ⟨_, rfl, hparts, heq⟩

end Lookups

end FileSystem

end SuperBadBlock
