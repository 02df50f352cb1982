import SuperBadBlock.DiskScanner

namespace SuperBadBlock

-- The image cannot be opened, or the first read of it fails.
def StartFails (fd : Int) (calls : List ReadCall) : Prop :=
  fd < 0 ∨ ∃ call rest, calls = call :: rest ∧ call.res < 0

namespace DiskScanner

-- A loop whose first read fails hands no block to the scanner.
theorem scanLoop_of_startFails (scanner : DiskScanner) (pos : Nat) (calls : List ReadCall)
    (h : StartFails scanner.fd calls) : scanner.scanLoop pos calls = scanner := by
  cases calls with
  | nil => rfl
  | cons call calls =>
      have hresult : call.result scanner.fd < 0 := by
        rw [ReadCall.result]
        rcases h with hfd | ⟨_, _, hcalls, hres⟩
        · rw [if_pos hfd]
          decide
        · cases hcalls
          split_ifs
          · decide
          · exact hres
      rw [scanLoop]
      simp only [if_neg (ne_of_lt hresult), if_pos hresult, ite_self]

end DiskScanner

-- `clear` has run by then, whatever the database held.
theorem tables_main_of_startFails (checkSchema : FileSystem → FileSystem) (db : FileSystem)
    {fd : Int} {calls : List ReadCall} (h : StartFails fd calls) :
    (FileHunter.main checkSchema db fd calls).apfs.fileSystem.entry = [] ∧
      (FileHunter.main checkSchema db fd calls).apfs.fileSystem.extent = [] := by
  have hopen : (DiskScanner.«open» checkSchema db fd).2 =
      { fd := fd, apfs := { fileSystem := checkSchema db.reopen } } := by
    rw [DiskScanner.«open»]
    split_ifs <;> rfl
  simp only [FileHunter.main, hopen, DiskScanner.scan]
  rw [DiskScanner.scanLoop_of_startFails _ _ _ h]
  exact ⟨rfl, rfl⟩

-- A run that cannot even start leaves the tables as they were exactly if there was
-- nothing in them.
theorem failed_start_keeps_tables_iff (checkSchema : FileSystem → FileSystem) (db : FileSystem)
    (fd : Int) (calls : List ReadCall) (h : StartFails fd calls) :
    ((FileHunter.main checkSchema db fd calls).apfs.fileSystem.entry = db.entry ∧
      (FileHunter.main checkSchema db fd calls).apfs.fileSystem.extent = db.extent) ↔
    db.entry = [] ∧ db.extent = [] := by
  obtain ⟨hentry, hextent⟩ := tables_main_of_startFails checkSchema db h
  rw [hentry, hextent]
  exact and_congr eq_comm eq_comm

theorem failed_start_keeps_empty_tables :
    (FileHunter.main id {} (-1) []).apfs.fileSystem.entry = ({} : FileSystem).entry ∧
      (FileHunter.main id {} (-1) []).apfs.fileSystem.extent = ({} : FileSystem).extent :=
  (failed_start_keeps_tables_iff id {} (-1) [] (Or.inl (by decide))).mpr ⟨rfl, rfl⟩

-- The database of an earlier scan, and an image path that does not exist.
theorem failed_open_destroys :
    let row : EntryRow := {
      inode := 16, parent_inode := 2, versionId := 7, type := 8, name := [97], length := 700,
      extentVersionId := 7 }
    let db : FileSystem := { entry := [row], extent := [⟨16, 0, 40, 4096⟩] }
    (DiskScanner.«open» id db (-1)).1 = false ∧
      ¬((FileHunter.main id db (-1) []).apfs.fileSystem.entry = db.entry ∧
        (FileHunter.main id db (-1) []).apfs.fileSystem.extent = db.extent) := by
  intro row db
  have hfails : StartFails (-1) [] := Or.inl (by decide)
  obtain ⟨hentry, -⟩ := tables_main_of_startFails id db hfails
  refine ⟨rfl, fun h => ?_⟩
  rw [hentry] at h
  cases h.1

end SuperBadBlock
