import SuperBadBlock.DiskScanner.Stale
import SuperBadBlock.Lib.Interrupts

namespace SuperBadBlock

namespace DiskScanner

-- All that the signal handler does.
def stop (scanner : DiskScanner) : DiskScanner := { scanner with running := false }

-- The rows of the two tables.
def tables (scanner : DiskScanner) : List EntryRow × List ExtentRow :=
  (scanner.apfs.fileSystem.entry, scanner.apfs.fileSystem.extent)

def clear (scanner : DiskScanner) : DiskScanner :=
  { scanner with apfs := { scanner.apfs with fileSystem := scanner.apfs.fileSystem.clear } }

end DiskScanner

-- What `scan` does next.
inductive ScanStep where
  | clear
  | setRunning
  | loopTest
  | read
  | startTransaction
  | scanBlock
  | endTransaction
  | advancePos
  | returned
deriving DecidableEq

-- From the first loop test on.
def ScanStep.inLoop : ScanStep → Bool
  | clear | setRunning => false
  | _ => true

-- A call of `scan` between two of its steps: its variables, the reads that are still to
-- come, the calls of `scanBlock` it has made, and the rows that another connection
-- to the database sees.
structure ScanRun where
  next : ScanStep
  scanner : DiskScanner
  pos : Nat
  block : Memory
  res : Int
  calls : List ReadCall
  handed : List ScannedBlock
  committed : List EntryRow × List ExtentRow

namespace ScanRun

def enter (scanner : DiskScanner) (calls : List ReadCall) : ScanRun where
  next := .clear
  scanner := scanner
  pos := 0
  block := fun _ => 0
  res := 0
  calls := calls
  handed := []
  committed := scanner.tables

def step (s : ScanRun) : ScanRun :=
  match s.next with
  | .clear =>
      -- no transaction is open, so that the rows are gone at once
      { s with scanner := s.scanner.clear, committed := s.scanner.clear.tables, next := .setRunning }
  | .setRunning =>
      { s with pos := 0, scanner := { s.scanner with running := true }, next := .loopTest }
  | .loopTest => { s with next := if s.scanner.running then .read else .returned }
  | .read =>
      match s.calls with
      | [] => { s with next := .returned }
      | call :: calls =>
          let res := call.result s.scanner.fd
          { s with
            block := call.block, res := res, calls := calls
            next := if res = 0 then .returned else if res < 0 then .returned else .startTransaction }
  | .startTransaction => { s with next := .scanBlock }
  | .scanBlock =>
      let apfs := (SuperBadBlock.scanBlock s.scanner.apfs s.pos s.block s.res.toNat).val
      { s with
        scanner := { s.scanner with apfs := apfs }
        handed := s.handed ++ [{ pos := s.pos, block := s.block, sectorSize := s.res.toNat }]
        next := .endTransaction }
  | .endTransaction => { s with committed := s.scanner.tables, next := .advancePos }
  | .advancePos => { s with pos := u64 (s.pos + 4096), next := .loopTest }
  | .returned => s

def stop (s : ScanRun) : ScanRun := { s with scanner := s.scanner.stop }

-- The call of `scan` after `n` steps; `stops n` tells whether the signal handler runs
-- between step `n - 1` and step `n`.
def run (scanner : DiskScanner) (calls : List ReadCall) (stops : Nat → Bool) (n : Nat) : ScanRun :=
  Interrupts.run step stop stops (enter scanner calls) n

theorem inLoop_step {s : ScanRun} (h : s.next.inLoop = true) : s.step.next.inLoop = true := by
  obtain ⟨next, scanner, pos, block, res, calls, handed, committed⟩ := s
  cases next with
  | clear => exact absurd h Bool.false_ne_true
  | setRunning => exact absurd h Bool.false_ne_true
  | loopTest =>
      simp only [step]
      split_ifs <;> rfl
  | read =>
      cases calls with
      | nil => rfl
      | cons call calls =>
          simp only [step]
          split_ifs <;> rfl
  | _ => rfl

-- Only the step behind `clear` writes the flag.
theorem running_step {s : ScanRun} (h : s.next ≠ .setRunning) :
    s.step.scanner.running = s.scanner.running := by
  obtain ⟨next, scanner, pos, block, res, calls, handed, committed⟩ := s
  cases next with
  | setRunning => exact absurd rfl h
  | read =>
      cases calls with
      | nil => rfl
      | cons call calls => rfl
  | _ => rfl

-- Without a stop the flag stays up in the loop.
theorem raised_step {s : ScanRun} (h : s.next.inLoop = true → s.scanner.running = true) :
    s.step.next.inLoop = true → s.step.scanner.running = true := by
  intro hloop
  by_cases hset : s.next = .setRunning
  · rw [step, hset]
  · rw [running_step hset]
    refine h ?_
    cases hnext : s.next with
    | clear =>
        rw [step, hnext] at hloop
        exact absurd hloop Bool.false_ne_true
    | setRunning => exact absurd hnext hset
    | _ => rfl

-- What is left of the call when no stop comes any more.
def finish (s : ScanRun) : DiskScanner :=
  match s.next with
  | .clear => { s.scanner.clear with running := true }.scanLoop 0 s.calls
  | .setRunning => { s.scanner with running := true }.scanLoop 0 s.calls
  | .loopTest | .read => s.scanner.scanLoop s.pos s.calls
  | .startTransaction | .scanBlock =>
      let apfs := (SuperBadBlock.scanBlock s.scanner.apfs s.pos s.block s.res.toNat).val
      { s.scanner with apfs := apfs }.scanLoop (u64 (s.pos + 4096)) s.calls
  | .endTransaction | .advancePos => s.scanner.scanLoop (u64 (s.pos + 4096)) s.calls
  | .returned => s.scanner

theorem finish_of_returned {s : ScanRun} (h : s.next = .returned) : s.finish = s.scanner := by
  rw [finish, h]

theorem finish_step {s : ScanRun} (h : s.next.inLoop = true → s.scanner.running = true) :
    s.step.finish = s.finish := by
  obtain ⟨next, scanner, pos, block, res, calls, handed, committed⟩ := s
  cases next with
  | loopTest =>
      have hrunning : scanner.running = true := h rfl
      simp only [step, finish, if_pos hrunning]
  | read =>
      have hrunning : scanner.running = true := h rfl
      cases calls with
      | nil => rfl
      | cons call calls =>
          simp only [step, finish, DiskScanner.scanLoop, if_pos hrunning]
          split_ifs <;> rfl
  | _ => rfl

-- An upper bound on the steps that are left, whatever the flag says.
def stepsLeft (s : ScanRun) : Nat :=
  match s.next with
  | .clear => 6 * s.calls.length + 4
  | .setRunning => 6 * s.calls.length + 3
  | .loopTest => 6 * s.calls.length + 2
  | .read => 6 * s.calls.length + 1
  | .startTransaction => 6 * s.calls.length + 6
  | .scanBlock => 6 * s.calls.length + 5
  | .endTransaction => 6 * s.calls.length + 4
  | .advancePos => 6 * s.calls.length + 3
  | .returned => 0

theorem returned_of_stepsLeft {s : ScanRun} (h : s.stepsLeft ≤ 0) : s.next = .returned := by
  obtain ⟨next, scanner, pos, block, res, calls, handed, committed⟩ := s
  cases next with
  | returned => rfl
  | _ =>
      simp only [stepsLeft] at h
      omega

theorem stepsLeft_step (s : ScanRun) : s.step.stepsLeft ≤ s.stepsLeft - 1 := by
  obtain ⟨next, scanner, pos, block, res, calls, handed, committed⟩ := s
  cases next with
  | loopTest =>
      simp only [step, stepsLeft]
      split_ifs
      · simp only
        omega
      · simp only
        omega
  | read =>
      cases calls with
      | nil => exact Nat.zero_le _
      | cons call calls =>
          simp only [step, stepsLeft, List.length_cons]
          split_ifs <;> simp only <;> omega
  | _ =>
      simp only [step, stepsLeft]
      omega

variable (scanner : DiskScanner) (calls : List ReadCall) (stops : Nat → Bool)

-- `scan` returns in every interleaving.
theorem run_returns {n : Nat} (hn : 6 * calls.length + 4 ≤ n) :
    (run scanner calls stops n).next = .returned := by
  have hinv : Interrupts.Invariant step stop fun _ => True :=
    ⟨fun _ _ => trivial, fun _ _ => trivial⟩
  have hrank : (run scanner calls stops (0 + n)).stepsLeft ≤ 6 * calls.length + 4 - n :=
    hinv.rank_run (fun s _ => stepsLeft_step s) (fun _ _ => Nat.le_refl _) trivial n
  rw [Nat.zero_add, Nat.sub_eq_zero_of_le hn] at hrank
  exact returned_of_stepsLeft hrank

-- Without a stop the steps are those of `scan`.
theorem run_eq_scan {n : Nat} (hn : 6 * calls.length + 4 ≤ n) :
    (run scanner calls (fun _ => false) n).scanner = (scanner.scan calls).2 := by
  have hstep (s : ScanRun)
      (h : (s.next.inLoop = true → s.scanner.running = true) ∧ s.finish = (scanner.scan calls).2) :
      (s.step.next.inLoop = true → s.step.scanner.running = true) ∧
        s.step.finish = (scanner.scan calls).2 :=
    ⟨raised_step h.1, (finish_step h.1).trans h.2⟩
  have hstart : ((enter scanner calls).next.inLoop = true →
      (enter scanner calls).scanner.running = true) ∧
      (enter scanner calls).finish = (scanner.scan calls).2 :=
    ⟨fun h => absurd h Bool.false_ne_true, rfl⟩
  have hfinish : (run scanner calls (fun _ => false) n).finish = (scanner.scan calls).2 :=
    (Interrupts.run_undisturbed hstep hstart n).2
  rw [← hfinish]
  exact (finish_of_returned (run_returns scanner calls _ hn)).symm

end ScanRun

end SuperBadBlock
