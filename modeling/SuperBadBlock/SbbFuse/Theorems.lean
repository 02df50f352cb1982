import SuperBadBlock.SbbFuse
import SuperBadBlock.ApfsScanner.Listing
import SuperBadBlock.FileSystem.Read.Theorems

namespace SuperBadBlock

namespace FileSystem

variable {store fs : FileSystem}

-- Sorting the extents of an entry in place leaves it the same file.
theorem Coherent.sortExtents (h : Coherent store fs) (std : ExtentSort) (entry : EntryPtr) :
    Coherent store (fs.modify entry fun e => { e with extents := std.sort e.extents }) := by
  have hheap (p : EntryPtr) :
      SameFile (fs.heap p)
        ((fs.modify entry fun e => { e with extents := std.sort e.extents }).heap p) := by
    by_cases hp : p = entry
    · subst hp
      rw [heap_sorted]
      exact ⟨rfl, rfl, rfl, rfl, rfl, rfl, rfl, std.perm _⟩
    · have hother : (fs.modify entry fun e => { e with extents := std.sort e.extents }).heap p =
          fs.heap p := Function.update_of_ne hp _ _
      rw [hother]
      exact SameFile.refl _
  refine ⟨⟨h.entry, h.extent, fun i p hp => ?_⟩, fun i p hp => ?_⟩
  · obtain ⟨hlt, hinode⟩ := h.keyed i p hp
    exact ⟨hlt, (hheap p).inode.trans hinode⟩
  · obtain ⟨row, hm, hinode, hsame⟩ := h.rows i p hp
    exact ⟨row, hm, hinode, hsame.trans (hheap p)⟩

theorem fileSystem_read (fs : FileSystem) (std : ExtentSort) (device : Device) (fileBuffer : Memory)
    (entry : EntryPtr) (buffer : Memory) (offset : Int) (size : Nat) :
    (fs.read std device fileBuffer entry buffer offset size).val.2.2 =
      fs.modify entry fun e => { e with extents := std.sort e.extents } := by
  rw [read, Traced.val_bind, heap_sorted]
  cases (readExtents device 0 (std.sort (fs.heap entry).extents) fileBuffer
      (fs.heap entry).length).val with
  | none => rfl
  | some file =>
      simp only [Traced.val_ite, Traced.val_pure]
      split_ifs <;> rfl

variable (splitString : List UInt8 → UInt8 → List (List UInt8))

theorem Coherent.findByPath_keeps (h : Coherent store fs) (path : List UInt8) :
    Coherent store (fs.findByPath splitString path).2 := by
  rcases h.findByInode 2 with ⟨p, row, hp, -, -, hcoherent, hsame⟩ | ⟨-, hnone⟩
  · rcases hcall : fs.findByInode 2 with ⟨_, fs'⟩
    rw [hcall] at hp hcoherent hsame
    obtain rfl := hp
    rw [findByPath_of_root splitString hcall]
    exact (hcoherent.findParts hsame _).1
  · rw [FileSystem.findByPath, hnone]
    exact h

-- The null pointer is followed exactly where the root is missing and a part is left
-- to look up.
theorem Coherent.findByPath_isSome_iff (h : Coherent store fs) (path : List UInt8) :
    (fs.findByPath splitString path).1.isSome ↔
      2 ∈ store.entry.map EntryRow.inode ∨ splitString path slash = [] := by
  rcases h.findByInode 2 with ⟨p, row, hp, hrow, hinode, -, -⟩ | ⟨hmissing, hnone⟩
  · rcases hcall : fs.findByInode 2 with ⟨_, fs'⟩
    rw [hcall] at hp
    obtain rfl := hp
    rw [findByPath_of_root splitString hcall]
    exact iff_of_true rfl (Or.inl (List.mem_map.mpr ⟨row, hrow, hinode⟩))
  · rw [FileSystem.findByPath, hnone]
    by_cases hparts : splitString path slash = []
    · simp [hparts]
    · simp [hparts, hmissing]

end FileSystem

namespace Mount

open FileSystem

variable {splitString : List UInt8 → UInt8 → List (List UInt8)} {std : ExtentSort} {device : Device}
  {store : FileSystem} {m : Mount}

-- The mutex is held on after a null pointer, and released in every other case.
theorem findByPath_eq (m : Mount) (path : List UInt8) :
    m.findByPath splitString path =
      ((m.fileSystem.findByPath splitString path).1,
        { fileSystem := (m.fileSystem.findByPath splitString path).2
          locked := (m.fileSystem.findByPath splitString path).1.isNone }) := by
  rw [Mount.findByPath]
  dsimp only
  rcases m.fileSystem.findByPath splitString path with ⟨found | found, fs⟩ <;> rfl

theorem fst_findByPath (m : Mount) (path : List UInt8) :
    (m.findByPath splitString path).1 = (m.fileSystem.findByPath splitString path).1 := by
  rw [findByPath_eq]

-- A handler of a found entry works on the tables as they are and leaves the mutex alone.
structure Handler (store : FileSystem) {α : Type} (found : Mount → EntryPtr → α × Mount) : Prop where
  coherent : ∀ m entry, Coherent store m.fileSystem → Coherent store (found m entry).2.fileSystem
  locked : ∀ m entry, (found m entry).2.locked = m.locked

-- What a callback makes of its lookup: no reply, and a mutex that stays locked, after
-- a null pointer; the answer without an entry where the lookup gives none.
structure Outcome {α : Type} (splitString : List UInt8 → UInt8 → List (List UInt8))
    (store : FileSystem) (m : Mount) (path : List UInt8) (notFound : α) (reply : Option α × Mount) :
    Prop where
  coherent : Coherent store reply.2.fileSystem
  locked : reply.2.locked = reply.1.isNone
  isSome : reply.1.isSome ↔ (m.findByPath splitString path).1.isSome
  null : (m.findByPath splitString path).1 = some none → reply.1 = some notFound

theorem Outcome.map {α β : Type} {path : List UInt8} {notFound : α} {reply : Option α × Mount}
    (h : Outcome splitString store m path notFound reply) (f : α → β) :
    Outcome splitString store m path (f notFound) (reply.1.map f, reply.2) where
  coherent := h.coherent
  locked := by rw [h.locked, Option.isNone_map]
  isSome := by rw [Option.isSome_map, h.isSome]
  null hp := by rw [h.null hp, Option.map_some]

theorem outcome_callback {α : Type} (h : Coherent store m.fileSystem) (path : List UInt8)
    (notFound : α) {found : Mount → EntryPtr → α × Mount} (hfound : Handler store found) :
    Outcome splitString store m path notFound (m.callback splitString path notFound found) := by
  have hkeeps := h.findByPath_keeps splitString path
  have hlookup := @findByPath_eq splitString m path
  rcases hcall : m.fileSystem.findByPath splitString path with ⟨_ | _ | entry, fs⟩
  · rw [hcall] at hkeeps hlookup
    refine ⟨?_, ?_, ?_, ?_⟩ <;> rw [callback, hlookup]
    · exact hkeeps
    · rfl
    · exact Iff.rfl
    · exact fun hp => absurd hp (by simp)
  · rw [hcall] at hkeeps hlookup
    refine ⟨?_, ?_, ?_, ?_⟩ <;> rw [callback, hlookup]
    · exact hkeeps
    · rfl
    · exact iff_of_true rfl rfl
    · exact fun _ => rfl
  · rw [hcall] at hkeeps hlookup
    refine ⟨?_, ?_, ?_, ?_⟩ <;> rw [callback, hlookup]
    · exact hfound.coherent { fileSystem := fs, locked := false } entry hkeeps
    · exact hfound.locked { fileSystem := fs, locked := false } entry
    · exact iff_of_true rfl rfl
    · exact fun hp => absurd hp (by simp)

-- Every request comes down to its lookup.
theorem outcome_answer (h : Coherent store m.fileSystem) (request : Request) :
    Outcome splitString store m request.path (-ENOENT) (m.answer splitString std device request) := by
  cases request with
  | getattr path stbuf =>
      have hout : Outcome splitString store m path (-ENOENT, stbuf)
          (m.sbb_getattr splitString path stbuf) := by
        refine outcome_callback h path (-ENOENT, stbuf) ?_
        exact ⟨fun _ _ hm => hm, fun _ _ => rfl⟩
      exact hout.map Prod.fst
  | readdir path =>
      have hout : Outcome splitString store m path (-ENOENT, []) (m.sbb_readdir splitString path) := by
        refine outcome_callback h path (-ENOENT, []) ?_
        exact ⟨fun _ _ hm => hm.findByParentInode _, fun _ _ => rfl⟩
      exact hout.map Prod.fst
  | «open» path flags =>
      have hout : Outcome splitString store m path (-ENOENT) (m.sbb_open splitString path flags) := by
        refine outcome_callback h path (-ENOENT) ⟨fun m _ hm => ?_, fun m _ => ?_⟩
        · split_ifs <;> exact hm
        · split_ifs <;> rfl
      exact hout
  | read path fileBuffer buf size offset =>
      have hout : Outcome splitString store m path (-ENOENT, buf)
          (m.sbb_read splitString std device path fileBuffer buf size offset) := by
        refine outcome_callback h path (-ENOENT, buf) ⟨fun m entry hm => ?_, fun _ _ => rfl⟩
        have hread := fileSystem_read m.fileSystem std device fileBuffer entry buf offset size
        exact (congrArg (Coherent store) hread).mpr (hm.sortExtents std entry)
      exact hout.map Prod.fst

theorem Mounted.coherent (h : Mounted splitString std device store m) :
    Coherent store m.fileSystem ∧ m.locked = false := by
  induction h with
  | start => exact ⟨coherent_reopen store, rfl⟩
  | @step m m' request result _ hanswer ih =>
      have hout := @outcome_answer splitString std device store m ih.1 request
      obtain ⟨hkeeps, hlocked, -, -⟩ := hout
      rw [hanswer] at hkeeps hlocked
      exact ⟨hkeeps, hlocked⟩

-- In a state a mount gets to, a request is answered exactly if its lookup follows no
-- null pointer.
theorem answered_iff (h : Mounted splitString std device store m) (request : Request) :
    Answered splitString std device m request ↔
      2 ∈ store.entry.map EntryRow.inode ∨ splitString request.path slash = [] := by
  obtain ⟨hcoherent, hfree⟩ := h.coherent
  have hout := @outcome_answer splitString std device store m hcoherent request
  rw [← hcoherent.findByPath_isSome_iff splitString request.path, ← fst_findByPath, ← hout.isSome]
  constructor
  · rintro ⟨-, result, m', hanswer, -⟩
    rw [hanswer]
    rfl
  · intro hsome
    obtain ⟨result, hresult⟩ := Option.isSome_iff_exists.mp hsome
    refine ⟨hfree, result, _, Prod.ext hresult rfl, ?_, ?_⟩
    · rw [hout.locked, hresult]
      rfl
    · rcases hfound : (m.findByPath splitString request.path).1 with _ | _ | entry
      · rw [hout.isSome, hfound] at hsome
        cases hsome
      · have hnull := hout.null hfound
        rw [hresult] at hnull
        exact Or.inr ⟨rfl, Option.some.inj hnull⟩
      · exact Or.inl ⟨entry, rfl⟩

-- A mount of what a scan found answers every request for a path, in every state it
-- gets to, exactly if some record names the root inode or the path has no part.
theorem callbacks_answer_iff (splitString : List UInt8 → UInt8 → List (List UInt8))
    (std : ExtentSort) (device : Device) (blocks : List ScannedBlock) (path : List UInt8) :
    (∀ m, Mounted splitString std device (scanBlocks {} blocks).fileSystem m →
      ∀ request, Request.path request = path → Answered splitString std device m request) ↔
    (∃ node ∈ scannedNodes 4096 blocks, ∃ record ∈ node.records, record.Mentions 2) ∨
      splitString path slash = [] := by
  have hconsistent := Reachable.consistent ⟨blocks, rfl⟩
  rw [← cached_isSome_iff, ← hconsistent.mem_inodes]
  constructor
  · intro h
    have hstart : Mounted splitString std device (scanBlocks {} blocks).fileSystem _ := .start
    exact (answered_iff hstart (.readdir path)).mp (h _ hstart (.readdir path) rfl)
  · rintro h m hm request rfl
    exact (answered_iff hm request).mpr h

-- One recovered file, and no record of the root.
def rootless : List Node := [{ xid := 7, flags := 2, records := [.inode 16 5 none] }]

theorem not_mentioned_rootless :
    ¬∃ node ∈ scannedNodes 4096 (nodeImages rootless), ∃ record ∈ node.records, record.Mentions 2 := by
  have hdecodes : ∀ node ∈ rootless, nodeOf (nodeImage node) 4096 = node := by decide +kernel
  rw [scannedNodes_nodeImages, List.map_congr_left hdecodes]
  decide

theorem lost_root_crashes :
    let m : Mount := { fileSystem := (scanBlocks {} (nodeImages rootless)).fileSystem.reopen }
    (m.sbb_getattr splitPath [47, 97] {}).1 = none ∧ (m.sbb_getattr splitPath [47, 97] {}).2.locked = true ∧
      ¬Answered splitPath insertionSort wholeDevice m (.getattr [47, 97] {}) := by
  intro m
  have hm : Mounted splitPath insertionSort wholeDevice
      (scanBlocks {} (nodeImages rootless)).fileSystem m := .start
  have hout : Outcome splitPath (scanBlocks {} (nodeImages rootless)).fileSystem m [47, 97]
      (-ENOENT, ({} : Stat)) (m.sbb_getattr splitPath [47, 97] {}) := by
    refine outcome_callback hm.coherent.1 [47, 97] (-ENOENT, ({} : Stat)) ?_
    exact ⟨fun _ _ hm => hm, fun _ _ => rfl⟩
  have hconsistent := Reachable.consistent ⟨nodeImages rootless, rfl⟩
  have hmissing : 2 ∉ (scanBlocks {} (nodeImages rootless)).fileSystem.entry.map EntryRow.inode := by
    rw [hconsistent.mem_inodes, cached_isSome_iff]
    exact not_mentioned_rootless
  have hparts : splitPath [47, 97] slash ≠ [] := by decide +kernel
  have hlookup := hm.coherent.1.findByPath_isSome_iff splitPath [47, 97]
  have hnull : (m.sbb_getattr splitPath [47, 97] {}).1 = none := by
    rw [← Option.not_isSome_iff_eq_none, hout.isSome, fst_findByPath, hlookup]
    exact fun hfound => hfound.elim hmissing hparts
  refine ⟨hnull, by rw [hout.locked, hnull]; rfl, fun hanswered => ?_⟩
  exact ((answered_iff hm (.getattr [47, 97] {})).mp hanswered).elim hmissing hparts

end Mount

end SuperBadBlock
