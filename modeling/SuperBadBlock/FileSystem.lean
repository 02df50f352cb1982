import Mathlib.Logic.Function.Basic
import Mathlib.Data.List.Basic
import Mathlib.Tactic.SplitIfs

namespace SuperBadBlock

structure EntryExtent where
  logicalAddress : Nat := 0
  physicalBlock : Nat := 0
  length : Nat := 0
deriving DecidableEq

-- `new Entry()` value-initialises: `type` and `length`, which have no
-- initialiser of their own, start as zero.
structure Entry where
  inode : Nat := 0
  parentId : Nat := 0
  versionId : Nat := 0
  type : Nat := 0
  name : List UInt8 := []
  length : Nat := 0
  extents : List EntryExtent := []
  extentVersionId : Nat := 0
  isNew : Bool := true
  extentsUpdated : Bool := false
deriving DecidableEq

-- A row of the `entry` table.
structure EntryRow where
  inode : Nat
  parent_inode : Nat
  versionId : Nat
  type : Nat
  name : List UInt8
  length : Nat
  extentVersionId : Nat
deriving DecidableEq

-- A row of the `extent` table.
structure ExtentRow where
  inode : Nat
  logical_address : Nat
  physical_block : Nat
  length : Nat
deriving DecidableEq

-- `Entry*`: the address of an `Entry` object.
abbrev EntryPtr := Nat

-- `std::map::insert`, which keeps a value that is already there.
def insertNew {α : Type} (map : Nat → Option α) (key : Nat) (value : α) : Nat → Option α :=
  match map key with
  | some _ => map
  | none => Function.update map key (some value)

theorem insertNew_apply {α : Type} (map : Nat → Option α) (key : Nat) (value : α) (i : Nat) :
    insertNew map key value i = if i = key then some ((map key).getD value) else map i := by
  cases hkey : map key with
  | some old =>
      simp only [insertNew, hkey]
      split_ifs with hi
      · rw [hi, hkey]
        rfl
      · rfl
  | none =>
      simp only [insertNew, hkey]
      exact Function.update_apply map key (some value) i

theorem insertNew_eq_some {α : Type} {map : Nat → Option α} {key i : Nat} {value found : α}
    (h : insertNew map key value i = some found) : map i = some found ∨ (i = key ∧ found = value) := by
  rw [insertNew_apply] at h
  split_ifs at h with hi
  · subst hi
    cases hold : map i with
    | some old =>
        rw [hold] at h
        exact Or.inl h
    | none =>
        rw [hold] at h
        exact Or.inr ⟨rfl, (Option.some.inj h).symm⟩
  · exact Or.inl h

-- The objects behind the `Entry*` pointers, the cache `m_diskEntries`, and the
-- two tables of the database. Statements are taken to succeed, and a table
-- keeps its rows in insertion order.
structure FileSystem where
  heap : EntryPtr → Entry := fun _ => {}
  top : EntryPtr := 0
  diskEntries : Nat → Option EntryPtr := fun _ => none
  entry : List EntryRow := []
  extent : List ExtentRow := []

namespace FileSystem

-- `new Entry()` with the fields the caller sets at once.
def newEntry (fs : FileSystem) (entry : Entry) : EntryPtr × FileSystem :=
  (fs.top, { fs with heap := Function.update fs.heap fs.top entry, top := fs.top + 1 })

-- Assignment through an `Entry*`.
def modify (fs : FileSystem) (entry : EntryPtr) (f : Entry → Entry) : FileSystem :=
  { fs with heap := Function.update fs.heap entry (f (fs.heap entry)) }

def clear (fs : FileSystem) : FileSystem :=
  { fs with entry := [], extent := [] }

def addEntry (fs : FileSystem) (entry : EntryPtr) : FileSystem :=
  let e := fs.heap entry
  let fs := { fs with diskEntries := insertNew fs.diskEntries e.inode entry }
  let row : EntryRow := {
    inode := e.inode, parent_inode := e.parentId, versionId := e.versionId, type := e.type,
    name := e.name, length := e.length, extentVersionId := e.extentVersionId }
  let fs := { fs with entry := fs.entry ++ [row] }
  fs.modify entry fun e => { e with isNew := false }

def updateEntry (fs : FileSystem) (entry : EntryPtr) : FileSystem :=
  let e := fs.heap entry
  let fs := if e.isNew then fs.addEntry entry else
    { fs with entry := fs.entry.map fun row =>
        if row.inode = e.inode then
          { row with
            parent_inode := e.parentId, versionId := e.versionId, type := e.type,
            name := e.name, length := e.length, extentVersionId := e.extentVersionId }
        else row }
  if e.extentsUpdated then
    let rows := e.extents.map fun extent : EntryExtent => ({
      inode := e.inode, logical_address := extent.logicalAddress,
      physical_block := extent.physicalBlock, length := extent.length } : ExtentRow)
    let fs := { fs with extent := fs.extent.filter (fun row : ExtentRow => row.inode ≠ e.inode) ++ rows }
    fs.modify entry fun e => { e with extentsUpdated := false }
  else fs

def getEntryFromQuery (fs : FileSystem) (row : EntryRow) : EntryPtr × FileSystem :=
  let extents := (fs.extent.filter fun r => r.inode = row.inode).map fun r => ({
    logicalAddress := r.logical_address, physicalBlock := r.physical_block,
    length := r.length } : EntryExtent)
  let (entry, fs) := fs.newEntry {
    inode := row.inode, parentId := row.parent_inode, versionId := row.versionId,
    type := row.type, name := row.name, length := row.length,
    extents := extents, extentVersionId := row.extentVersionId,
    isNew := false, extentsUpdated := false }
  (entry, { fs with diskEntries := insertNew fs.diskEntries row.inode entry })

def findByInode (fs : FileSystem) (inode : Nat) : Option EntryPtr × FileSystem :=
  match fs.diskEntries inode with
  | some entry => (some entry, fs)
  | none =>
      match fs.entry.find? fun row => row.inode = inode with
      | some row =>
          let (entry, fs) := fs.getEntryFromQuery row
          (some entry, fs)
      | none => (none, fs)

-- The lookup that `scanInode` and `scanDirRec` start with: an inode without an
-- entry gets a new one.
def findOrNew (fs : FileSystem) (inode : Nat) : EntryPtr × FileSystem :=
  match fs.findByInode inode with
  | (some entry, fs) => (entry, fs)
  | (none, fs) => fs.newEntry { inode := inode }

-- The `while (ps->step())` loop over the rows of a query.
def entriesFromQuery (fs : FileSystem) : List EntryRow → List EntryPtr × FileSystem
  | [] => ([], fs)
  | row :: rows =>
      let (entry, fs) := fs.getEntryFromQuery row
      let (entries, fs) := fs.entriesFromQuery rows
      (entry :: entries, fs)

def findByParentInode (fs : FileSystem) (inode : Nat) : List EntryPtr × FileSystem :=
  fs.entriesFromQuery (fs.entry.filter fun row => row.parent_inode = inode)

def findByName (fs : FileSystem) (inode : Nat) (name : List UInt8) :
    Option EntryPtr × FileSystem :=
  match fs.entry.find? fun row => row.parent_inode = inode ∧ row.name = name with
  | some row =>
      let (entry, fs) := fs.getEntryFromQuery row
      (some entry, fs)
  | none => (none, fs)

end FileSystem

end SuperBadBlock
