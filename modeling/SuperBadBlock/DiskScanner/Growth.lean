import SuperBadBlock.ApfsScanner.Growth
import SuperBadBlock.ApfsScanner.Volume
import SuperBadBlock.DiskScanner.Stop

namespace SuperBadBlock

-- The calls up to the first one that delivers nothing.
def received (fd : Int) (calls : List ReadCall) : List ReadCall :=
  calls.takeWhile fun call => 0 < call.result fd

theorem handedBlocks_take (pos k : Nat) (calls : List ReadCall) :
    handedBlocks pos (calls.take k) = (handedBlocks pos calls).take k := by
  induction calls generalizing pos k with
  | nil => simp [handedBlocks]
  | cons call calls ih =>
      cases k with
      | zero => rfl
      | succ k => rw [List.take_succ_cons, handedBlocks, ih, handedBlocks, List.take_succ_cons]

theorem received_cons_of_pos {fd : Int} {call : ReadCall} (h : 0 < call.result fd)
    (calls : List ReadCall) : received fd (call :: calls) = call :: received fd calls :=
  List.takeWhile_cons_of_pos (decide_eq_true h)

theorem received_cons_of_not_pos {fd : Int} {call : ReadCall} (h : ¬0 < call.result fd)
    (calls : List ReadCall) : received fd (call :: calls) = [] :=
  List.takeWhile_cons_of_neg (by simpa using h)

theorem received_take (fd : Int) (k : Nat) (calls : List ReadCall) :
    received fd (calls.take k) = (received fd calls).take k := by
  induction calls generalizing k with
  | nil => simp [received]
  | cons call calls ih =>
      cases k with
      | zero => rfl
      | succ k =>
          rw [List.take_succ_cons]
          by_cases hcall : 0 < call.result fd
          · rw [received_cons_of_pos hcall, received_cons_of_pos hcall, List.take_succ_cons, ih]
          · rw [received_cons_of_not_pos hcall, received_cons_of_not_pos hcall, List.take_nil]

namespace DiskScanner

theorem scanLoop_received (scanner : DiskScanner) (hrunning : scanner.running = true) (pos : Nat)
    (calls : List ReadCall) :
    (scanner.scanLoop pos calls).apfs =
      scanBlocks scanner.apfs (handedBlocks pos (received scanner.fd calls)) := by
  induction calls generalizing scanner pos with
  | nil => rfl
  | cons call calls ih =>
      rw [scanLoop, if_pos hrunning]
      by_cases hcall : 0 < call.result scanner.fd
      · have hres : call.result scanner.fd = call.res := (ReadCall.result_of_pos hcall).2
        rw [received_cons_of_pos hcall, handedBlocks, scanBlocks_cons]
        dsimp only
        rw [if_neg (by omega), if_neg (by omega), ← hres]
        exact ih { scanner with
          apfs := (scanBlock scanner.apfs pos call.block (call.result scanner.fd).toNat).val } hrunning _
      · rw [received_cons_of_not_pos hcall]
        dsimp only
        split_ifs
        · rfl
        · rfl
        · omega

-- A scan is a scan of the blocks it gets.
theorem apfs_scan_received (scanner : DiskScanner) (calls : List ReadCall) :
    (scanner.scan calls).2.apfs =
      scanBlocks scanner.clear.apfs (handedBlocks 0 (received scanner.fd calls)) :=
  scanLoop_received { scanner.clear with running := true } rfl 0 calls

end DiskScanner

-- The two statements of `clear`; no transaction is open, so that each of them commits by itself.
def FileSystem.deleteEntries (fs : FileSystem) : FileSystem := { fs with entry := [] }

def FileSystem.deleteExtents (fs : FileSystem) : FileSystem := { fs with extent := [] }

theorem FileSystem.clear_eq (fs : FileSystem) : fs.clear = fs.deleteEntries.deleteExtents := rfl

namespace ScanRun

-- What the database file may hold if the process is killed before the next step is done.
def leftByKill (s : ScanRun) : List (List EntryRow × List ExtentRow) :=
  match s.next with
  | .clear =>
      let fs := s.scanner.apfs.fileSystem
      [s.committed, (fs.deleteEntries.entry, fs.deleteEntries.extent),
        (fs.deleteEntries.deleteExtents.entry, fs.deleteEntries.deleteExtents.extent)]
  | _ => [s.committed, s.step.committed]

theorem committed_step_mem (s : ScanRun) : s.step.committed ∈ s.leftByKill := by
  rw [leftByKill]
  split
  · have hstep : s.step.committed = s.scanner.clear.tables := by rw [step, ‹s.next = .clear›]
    rw [hstep, DiskScanner.tables, DiskScanner.clear, FileSystem.clear_eq]
    simp
  · simp

-- Behind `clear` only the end of a transaction commits.
theorem committed_step {s : ScanRun} (hclear : s.next ≠ .clear) (hend : s.next ≠ .endTransaction) :
    s.step.committed = s.committed := by
  obtain ⟨next, scanner, pos, block, res, calls, handed, committed⟩ := s
  cases next with
  | clear => exact absurd rfl hclear
  | endTransaction => exact absurd rfl hend
  | read =>
      cases calls with
      | nil => rfl
      | cons call calls => rfl
  | _ => rfl

-- A kill behind `clear` leaves the rows of a scan of what has been handed over, or of all but
-- its last block.
theorem eq_scan_of_leftByKill (scanner : DiskScanner) (calls : List ReadCall) (stops : Nat → Bool)
    {m : Nat} (hm : 0 < m) {left : List EntryRow × List ExtentRow}
    (hleft : left ∈ (run scanner calls stops m).leftByKill) :
    ∃ k, k ≤ (run scanner calls stops m).handed.length ∧
      (run scanner calls stops m).handed.length ≤ k + 1 ∧
      left = (scanner.scan (calls.take k)).2.tables := by
  obtain ⟨read, rest, h⟩ := progress_run scanner calls stops hm
  generalize run scanner calls stops m = s at *
  have hclear : s.next ≠ .clear := by
    intro hnext
    have hhere := h.here
    rw [Here, hnext] at hhere
    exact hhere
  have hcases : left = s.committed ∨ left = s.step.committed := by
    rw [leftByKill] at hleft
    split at hleft
    · exact absurd ‹_› hclear
    · simpa using hleft
  obtain ⟨k, hk, hcommitted⟩ := h.committed_eq
  have hbefore : k ≤ s.handed.length ∧ s.handed.length ≤ k + 1 := by omega
  rcases hcases with rfl | rfl
  · exact ⟨k, hbefore.1, hbefore.2, hcommitted⟩
  · by_cases hend : s.next = .endTransaction
    · refine ⟨s.handed.length, Nat.le_refl _, Nat.le_succ _, ?_⟩
      rw [h.take_handed, ← h.tables, ScanRun.step, hend]
    · exact ⟨k, hbefore.1, hbefore.2, (committed_step hclear hend).trans hcommitted⟩

end ScanRun

-- What a scan has of the image at some moment is a part of what it has in the end.
theorem scan_take_is_part (scanner : DiskScanner) (hclear : scanner.clear.apfs = {})
    (calls : List ReadCall) (k : Nat) :
    let blocks := handedBlocks 0 (received scanner.fd calls)
    Grown (scanner.scan (calls.take k)).2.tables (scanner.scan calls).2.tables ∧
    ∀ i, (∀ node ∈ scannedNodes (scanBlocks {} (blocks.take k)).currentBlockSize (blocks.drop k),
        ∀ record ∈ node.records, ¬record.Mentions i) →
      SameRows i (scanner.scan (calls.take k)).2.tables (scanner.scan calls).2.tables := by
  intro blocks
  have hseen : (scanner.scan (calls.take k)).2.apfs = scanBlocks {} (blocks.take k) := by
    rw [DiskScanner.apfs_scan_received, hclear, received_take, handedBlocks_take]
  have hfull : (scanner.scan calls).2.apfs =
      scanBlocks (scanBlocks {} (blocks.take k)) (blocks.drop k) := by
    rw [DiskScanner.apfs_scan_received, hclear, ← scanBlocks_append, List.take_append_drop]
  have hconsistent : (scanBlocks {} (blocks.take k)).fileSystem.Consistent :=
    Reachable.consistent ⟨_, rfl⟩
  have hsteps := steps_scanBlocks (scanBlocks {} (blocks.take k)) hconsistent (blocks.drop k)
  rw [DiskScanner.tables, DiskScanner.tables, hseen, hfull]
  exact ⟨hsteps.grown hconsistent, fun i hi => sameRows_of_unmentioned hconsistent hsteps hi⟩

-- A scan that is killed, with stop requests before that or without: while `clear` runs the
-- database has its old rows, or what is left of them behind the first statement; from then on
-- it has a part of what the whole scan finds. There rows stay where they are and only get newer,
-- extents of one generation are added to, and the rows of an inode that the rest of the image
-- does not mention are final.
theorem killed_scan_is_part_of_whole (checkSchema : FileSystem → FileSystem)
    (hschema : ∀ fs, checkSchema fs = fs) (db : FileSystem) (fd : Int) (calls : List ReadCall)
    (stops : Nat → Bool) (m : Nat) :
    let scanner := (DiskScanner.«open» checkSchema db fd).2
    let killed := ScanRun.run scanner calls stops m
    let whole := (scanner.scan calls).2.tables
    let blocks := handedBlocks 0 (received fd calls)
    ∀ left ∈ killed.leftByKill,
      m = 0 ∧ (left = (db.entry, db.extent) ∨ left = ([], db.extent)) ∨
      Grown left whole ∧
      ∃ k, k ≤ killed.handed.length ∧ killed.handed.length ≤ k + 1 ∧
        ∀ i, (∀ node ∈ scannedNodes (scanBlocks {} (blocks.take k)).currentBlockSize (blocks.drop k),
            ∀ record ∈ node.records, ¬record.Mentions i) →
          SameRows i left whole := by
  intro scanner killed whole blocks left hleft
  have hfs : scanner.apfs = { fileSystem := db.reopen } := by
    simp only [scanner, DiskScanner.«open», hschema]
    split_ifs <;> rfl
  have hfd : scanner.fd = fd := by
    simp only [scanner, DiskScanner.«open»]
    split_ifs <;> rfl
  have hclear : scanner.clear.apfs = {} := by
    rw [DiskScanner.clear, hfs]
    rfl
  have hpart (k : Nat) := scan_take_is_part scanner hclear calls k
  rw [hfd] at hpart
  rcases Nat.eq_zero_or_pos m with rfl | hm
  · have htables : scanner.tables = (db.entry, db.extent) := by
      rw [DiskScanner.tables, hfs]
      rfl
    have hbetween : scanner.apfs.fileSystem.extent = db.extent := congrArg Prod.snd htables
    have hcases : left = scanner.tables ∨ left = ([], scanner.apfs.fileSystem.extent) ∨
        left = scanner.clear.tables := by
      rw [DiskScanner.tables, DiskScanner.tables, DiskScanner.clear, FileSystem.clear_eq]
      simp only [killed, ScanRun.run, Interrupts.run, ScanRun.enter, ScanRun.leftByKill,
        List.mem_cons, List.not_mem_nil, or_false] at hleft
      exact hleft
    rcases hcases with hold | hold | hnew
    · exact Or.inl ⟨rfl, Or.inl (hold.trans htables)⟩
    · exact Or.inl ⟨rfl, Or.inr (hold.trans (by rw [hbetween]))⟩
    · rw [show left = (scanner.scan (calls.take 0)).2.tables from hnew]
      exact Or.inr ⟨(hpart 0).1, 0, Nat.le_refl _, Nat.zero_le _, (hpart 0).2⟩
  · obtain ⟨k, hle, hlt, rfl⟩ := ScanRun.eq_scan_of_leftByKill scanner calls stops hm hleft
    exact Or.inr ⟨(hpart k).1, k, hle, hlt, (hpart k).2⟩

-- The nodes of what is left of the blocks are nodes of all of them.
theorem mem_scannedNodes_of_drop {node : Node} (scanner : APFSScanner) (blocks : List ScannedBlock)
    (k : Nat) (h : node ∈ scannedNodes (scanBlocks scanner (blocks.take k)).currentBlockSize
      (blocks.drop k)) : node ∈ scannedNodes scanner.currentBlockSize blocks := by
  induction blocks generalizing scanner k with
  | nil => simp [scannedNodes] at h
  | cons b blocks ih =>
      cases k with
      | zero => exact h
      | succ k =>
          rw [List.take_succ_cons, List.drop_succ_cons, scanBlocks_cons] at h
          have hrest := ih _ k h
          rw [currentBlockSize_scanBlock] at hrest
          exact List.mem_append_right _ hrest

theorem call_of_handedBlock {b : ScannedBlock} {pos : Nat} {calls : List ReadCall}
    (h : b ∈ handedBlocks pos calls) : ∃ call ∈ calls, b.block = call.block := by
  induction calls generalizing pos with
  | nil => cases h
  | cons call calls ih =>
      rcases List.mem_cons.mp h with rfl | h
      · exact ⟨call, List.mem_cons_self, rfl⟩
      · obtain ⟨other, hm, hblock⟩ := ih h
        exact ⟨other, List.mem_cons_of_mem _ hm, hblock⟩

-- The small volume, killed when the transaction of its first node has ended. No node mentions
-- inode 99, so that its rows are final: there are none.
theorem killed_scan_of_smallVolume :
    let calls := (smallVolume.format 7).map fun node =>
      ({ res := 4096, data := encodeNode node, stale := encodeNode node } : ReadCall)
    let scanner := (DiskScanner.«open» id {} 3).2
    let killed := ScanRun.run scanner calls (fun _ => false) 6
    let whole := (scanner.scan calls).2.tables
    Grown killed.step.committed whole ∧ ∃ k, k ≤ killed.handed.length ∧
      killed.handed.length ≤ k + 1 ∧ SameRows 99 killed.step.committed whole := by
  intro calls scanner killed whole
  have hnodes : ∀ b ∈ handedBlocks 0 (received 3 calls), ∃ node ∈ smallVolume.format 7,
      IsNode 4096 b.block ∧ nodeOf b.block 4096 = node := by
    intro b hb
    obtain ⟨call, hcall, hblock⟩ := call_of_handedBlock hb
    obtain ⟨node, hnode, rfl⟩ := List.mem_map.mp (List.takeWhile_subset _ hcall)
    have hsame : b.block = encodeNode node := by
      rw [hblock, ReadCall.block]
      funext o
      simp only [Memory.copy, Int.zero_add, Int.sub_zero, ite_self]
    have hencodable := encodable_smallVolume node hnode
    exact ⟨node, hnode, hsame ▸ isNode_encodeNode hencodable, hsame ▸ nodeOf_encodeNode hencodable⟩
  have hsilent : ∀ node ∈ smallVolume.format 7, ∀ record ∈ node.records, ¬record.Mentions 99 := by
    decide
  have hpart := (killed_scan_is_part_of_whole id (fun _ => rfl) {} 3 calls (fun _ => false) 6
    killed.step.committed killed.committed_step_mem).resolve_left fun h => absurd h.1 (by decide)
  obtain ⟨hgrown, k, hle, hlt, hsame⟩ := hpart
  refine ⟨hgrown, k, hle, hlt, hsame 99 fun node hnode => ?_⟩
  have hm := mem_scannedNodes_of_drop _ _ _ hnode
  rw [scannedNodes_of_isNode fun b hb => (hnodes b hb).choose_spec.2.1] at hm
  obtain ⟨b, hb, rfl⟩ := List.mem_map.mp hm
  obtain ⟨node, hnode, -, hdecoded⟩ := hnodes b hb
  exact hdecoded ▸ hsilent node hnode

end SuperBadBlock
