import SuperBadBlock.DiskScanner.Steps

namespace SuperBadBlock

-- The call puts bytes into the buffer.
def Delivers (fd : Int) (calls : List ReadCall) : Prop :=
  ∃ call rest, calls = call :: rest ∧ 0 < call.result fd

theorem ReadCall.result_of_pos {call : ReadCall} {fd : Int} (h : 0 < call.result fd) :
    0 ≤ fd ∧ call.result fd = call.res := by
  by_cases hfd : fd < 0
  · rw [ReadCall.result, if_pos hfd] at h
    exact absurd h (by decide)
  · exact ⟨by omega, if_neg hfd⟩

theorem delivered_append_singleton {calls : List ReadCall} {call : ReadCall} {fd : Int}
    (h : ∀ c ∈ calls, 0 < c.result fd) (hcall : 0 < call.result fd) :
    ∀ c ∈ calls ++ [call], 0 < c.result fd := by
  intro c hc
  rcases List.mem_append.mp hc with hc | hc
  · exact h c hc
  · rw [List.mem_singleton.mp hc]
    exact hcall

theorem handedBlocks_append_singleton (pos : Nat) (calls : List ReadCall) (call : ReadCall) :
    handedBlocks pos (calls ++ [call]) = handedBlocks pos calls ++
      [{ pos := blockPos pos calls.length, block := call.block, sectorSize := call.res.toNat }] := by
  induction calls generalizing pos with
  | nil => rfl
  | cons first calls ih =>
      rw [List.cons_append, handedBlocks, ih, handedBlocks, List.cons_append, List.length_cons,
        blockPos, blockPos, Function.iterate_succ_apply]

theorem length_handedBlocks (pos : Nat) (calls : List ReadCall) :
    (handedBlocks pos calls).length = calls.length := by
  induction calls generalizing pos with
  | nil => rfl
  | cons call calls ih => rw [handedBlocks, List.length_cons, ih, List.length_cons]

namespace DiskScanner

variable {scanner : DiskScanner} {calls : List ReadCall}

theorem apfs_scan_of_delivered (h : ∀ call ∈ calls, 0 < call.result scanner.fd) :
    (scanner.scan calls).2.apfs = scanBlocks scanner.clear.apfs (handedBlocks 0 calls) := by
  cases calls with
  | nil => rfl
  | cons call calls =>
      have hfd := (ReadCall.result_of_pos (h call List.mem_cons_self)).1
      have hres (c : ReadCall) (hc : c ∈ call :: calls) : 0 < c.res := by
        have hpos := h c hc
        rw [(ReadCall.result_of_pos hpos).2] at hpos
        exact hpos
      simp only [scan_eq scanner hfd _ hres, clear]

theorem apfs_scan_append_singleton {call : ReadCall} (h : ∀ c ∈ calls, 0 < c.result scanner.fd)
    (hcall : 0 < call.result scanner.fd) :
    (scanner.scan (calls ++ [call])).2.apfs =
      (scanBlock (scanner.scan calls).2.apfs (blockPos 0 calls.length) call.block
        call.res.toNat).val := by
  rw [apfs_scan_of_delivered (delivered_append_singleton h hcall), apfs_scan_of_delivered h,
    handedBlocks_append_singleton, scanBlocks_append]
  rfl

end DiskScanner

namespace ScanRun

variable {scanner : DiskScanner} {calls read rest : List ReadCall} {s : ScanRun}

-- Where the loop stands when the blocks of the calls `read` have been handed over and
-- the calls `rest` are left; `here` is what holds before one step or the other.
def Here (scanner : DiskScanner) (read rest : List ReadCall) (s : ScanRun) : Prop :=
  match s.next with
  | .clear => False
  | .setRunning =>
      read = [] ∧ s.calls = rest ∧ s.committed = (scanner.scan read).2.tables
  | .loopTest | .read =>
      s.calls = rest ∧ s.pos = blockPos 0 read.length ∧
        s.committed = (scanner.scan read).2.tables
  | .startTransaction | .scanBlock =>
      ∃ call, rest = call :: s.calls ∧ 0 < call.result scanner.fd ∧ s.block = call.block ∧
        s.res = call.res ∧ s.pos = blockPos 0 read.length ∧
        s.committed = (scanner.scan read).2.tables
  | .endTransaction =>
      s.calls = rest ∧ u64 (s.pos + 4096) = blockPos 0 read.length ∧
        ∃ before call, read = before ++ [call] ∧ s.committed = (scanner.scan before).2.tables
  | .advancePos =>
      s.calls = rest ∧ u64 (s.pos + 4096) = blockPos 0 read.length ∧
        s.committed = (scanner.scan read).2.tables
  | .returned => s.committed = (scanner.scan read).2.tables

structure Progress (scanner : DiskScanner) (calls read rest : List ReadCall) (s : ScanRun) :
    Prop where
  calls_eq : calls = read ++ rest
  delivered : ∀ call ∈ read, 0 < call.result scanner.fd
  fd : s.scanner.fd = scanner.fd
  handed : s.handed = handedBlocks 0 read
  apfs : s.scanner.apfs = (scanner.scan read).2.apfs
  here : Here scanner read rest s

theorem Progress.tables (h : Progress scanner calls read rest s) :
    s.scanner.tables = (scanner.scan read).2.tables := by
  rw [DiskScanner.tables, h.apfs]
  rfl

theorem Progress.committed_of_closed (h : Progress scanner calls read rest s)
    (hclosed : s.next ≠ .endTransaction) : s.committed = (scanner.scan read).2.tables := by
  obtain ⟨next, current, pos, block, res, left, handed, committed⟩ := s
  have hhere := h.here
  cases next with
  | clear => exact absurd hhere id
  | startTransaction =>
      obtain ⟨-, -, -, -, -, -, hcommitted⟩ := hhere
      exact hcommitted
  | scanBlock =>
      obtain ⟨-, -, -, -, -, -, hcommitted⟩ := hhere
      exact hcommitted
  | endTransaction => exact absurd rfl hclosed
  | returned => exact hhere
  | _ => exact hhere.2.2

theorem Progress.committed_of_open (h : Progress scanner calls read rest s)
    (hopen : s.next = .endTransaction) :
    ∃ before call, read = before ++ [call] ∧ s.committed = (scanner.scan before).2.tables := by
  have hhere := h.here
  rw [Here, hopen] at hhere
  exact hhere.2.2

theorem Progress.stop (h : Progress scanner calls read rest s) :
    Progress scanner calls read rest s.stop :=
  ⟨h.calls_eq, h.delivered, h.fd, h.handed, h.apfs, h.here⟩

theorem Progress.step (h : Progress scanner calls read rest s) :
    ∃ read rest, Progress scanner calls read rest s.step := by
  have htables := h.tables
  obtain ⟨next, current, pos, block, res, left, handed, committed⟩ := s
  obtain ⟨hcalls, hdelivered, hfd, hhanded, hapfs, hhere⟩ := h
  cases next with
  | clear => exact absurd hhere id
  | setRunning =>
      obtain ⟨hread, hleft, hcommitted⟩ := hhere
      subst hread
      exact ⟨[], rest, hcalls, hdelivered, hfd, hhanded, hapfs, hleft, rfl, hcommitted⟩
  | loopTest =>
      refine ⟨read, rest, hcalls, hdelivered, hfd, hhanded, hapfs, ?_⟩
      simp only [Here, ScanRun.step]
      split_ifs
      · exact hhere
      · exact hhere.2.2
  | read =>
      obtain ⟨hleft, hpos, hcommitted⟩ := hhere
      cases left with
      | nil => exact ⟨read, rest, hcalls, hdelivered, hfd, hhanded, hapfs, hcommitted⟩
      | cons call left =>
          refine ⟨read, rest, hcalls, hdelivered, hfd, hhanded, hapfs, ?_⟩
          simp only [Here, ScanRun.step]
          split_ifs with hzero hneg
          · exact hcommitted
          · exact hcommitted
          · have hresult : 0 < call.result scanner.fd := by
              rw [← hfd]
              dsimp only at hzero hneg ⊢
              omega
            have hres : call.result current.fd = call.res := by
              rw [hfd]
              exact (ReadCall.result_of_pos hresult).2
            exact ⟨call, hleft.symm, hresult, rfl, hres, hpos, hcommitted⟩
  | startTransaction => exact ⟨read, rest, hcalls, hdelivered, hfd, hhanded, hapfs, hhere⟩
  | scanBlock =>
      obtain ⟨call, hrest, hresult, hblock, hres, hpos, hcommitted⟩ := hhere
      dsimp only at hrest hblock hres hpos hcommitted hhanded hapfs
      subst hrest hblock hres hpos
      have hall := delivered_append_singleton hdelivered hresult
      refine ⟨read ++ [call], left, ?_, hall, hfd, ?_, ?_, rfl, ?_, read, call, rfl, hcommitted⟩
      · rw [hcalls, List.append_assoc, List.singleton_append]
      · rw [handedBlocks_append_singleton, ← hhanded]
        rfl
      · rw [DiskScanner.apfs_scan_append_singleton hdelivered hresult, ← hapfs]
        rfl
      · rw [List.length_append, List.length_singleton, blockPos_succ]
        rfl
  | endTransaction =>
      obtain ⟨hleft, hpos, -⟩ := hhere
      exact ⟨read, rest, hcalls, hdelivered, hfd, hhanded, hapfs, hleft, hpos, htables⟩
  | advancePos => exact ⟨read, rest, hcalls, hdelivered, hfd, hhanded, hapfs, hhere⟩
  | returned => exact ⟨read, rest, hcalls, hdelivered, hfd, hhanded, hapfs, hhere⟩

theorem progress_run (scanner : DiskScanner) (calls : List ReadCall) (stops : Nat → Bool)
    {n : Nat} (hn : 0 < n) : ∃ read rest, Progress scanner calls read rest (run scanner calls stops n) := by
  have hinv : Interrupts.Invariant ScanRun.step ScanRun.stop fun s =>
      ∃ read rest, Progress scanner calls read rest s := by
    refine ⟨fun s h => ?_, fun s h => ?_⟩
    · obtain ⟨read, rest, h⟩ := h
      exact h.step
    · obtain ⟨read, rest, h⟩ := h
      exact ⟨read, rest, h.stop⟩
  refine hinv.run ?_ (Nat.succ_le_of_lt hn)
  have hnone : ∀ call ∈ ([] : List ReadCall), 0 < call.result scanner.fd :=
    fun _ hm => absurd hm List.not_mem_nil
  refine ⟨[], calls, ?_⟩
  cases hdue : stops 0 with
  | true =>
      rw [Interrupts.run_succ_of_due hdue]
      exact ⟨rfl, hnone, rfl, rfl, rfl, rfl, rfl, rfl⟩
  | false =>
      rw [Interrupts.run_succ_of_not_due hdue]
      exact ⟨rfl, hnone, rfl, rfl, rfl, rfl, rfl, rfl⟩

-- The blocks that are handed over in the end if the loop test fails from now on.
def lastHanded (s : ScanRun) : List ScannedBlock :=
  match s.next with
  | .read =>
      match s.calls with
      | [] => s.handed
      | call :: _ =>
          if 0 < call.result s.scanner.fd then
            s.handed ++ [{
              pos := s.pos, block := call.block, sectorSize := (call.result s.scanner.fd).toNat }]
          else s.handed
  | .startTransaction | .scanBlock =>
      s.handed ++ [{ pos := s.pos, block := s.block, sectorSize := s.res.toNat }]
  | _ => s.handed

theorem lastHanded_step (hloop : s.next.inLoop = true) (hrunning : s.scanner.running = false) :
    s.step.lastHanded = s.lastHanded := by
  obtain ⟨next, current, pos, block, res, left, handed, committed⟩ := s
  cases next with
  | clear => exact absurd hloop Bool.false_ne_true
  | setRunning => exact absurd hloop Bool.false_ne_true
  | loopTest =>
      have hfalse : current.running = false := hrunning
      simp only [ScanRun.step, lastHanded, hfalse, Bool.false_eq_true, ite_false]
  | read =>
      cases left with
      | nil => rfl
      | cons call left =>
          simp only [ScanRun.step, lastHanded]
          split_ifs with hzero hpos hneg hpos hpos
          · omega
          · rfl
          · omega
          · rfl
          · rfl
          · omega
  | _ => rfl

-- A block is on its way to the scanner.
def InBuffer (s : ScanRun) : Prop := s.next = .startTransaction ∨ s.next = .scanBlock

-- The loop test has let in an iteration whose block has not been handed over yet.
def InIteration (s : ScanRun) : Prop := s.next = .read ∨ s.InBuffer

theorem inLoop_of_inBuffer (s : ScanRun) (h : s.InBuffer) : s.next.inLoop = true := by
  rcases h with h | h
  · rw [h]
    rfl
  · rw [h]
    rfl

theorem inLoop_of_inIteration (s : ScanRun) (h : s.InIteration) : s.next.inLoop = true := by
  rcases h with h | h
  · rw [h]
    rfl
  · exact inLoop_of_inBuffer s h

-- The next step gets a block.
def ReadsBlock (s : ScanRun) : Prop := s.next = .read ∧ Delivers s.scanner.fd s.calls

theorem lastHanded_of_readsBlock (h : s.ReadsBlock) :
    ∃ b : ScannedBlock, b.pos = s.pos ∧ s.lastHanded = s.handed ++ [b] := by
  obtain ⟨hnext, call, rest, hcalls, hres⟩ := h
  refine
    ⟨{ pos := s.pos, block := call.block, sectorSize := (call.result s.scanner.fd).toNat }, rfl, ?_⟩
  rw [lastHanded, hnext, hcalls]
  exact if_pos hres

theorem lastHanded_of_inBuffer (h : s.InBuffer) :
    ∃ b : ScannedBlock, b.pos = s.pos ∧ s.lastHanded = s.handed ++ [b] := by
  refine ⟨{ pos := s.pos, block := s.block, sectorSize := s.res.toNat }, rfl, ?_⟩
  rcases h with h | h
  · rw [lastHanded, h]
  · rw [lastHanded, h]

theorem lastHanded_of_not (hread : ¬s.ReadsBlock) (hbuffer : ¬s.InBuffer) :
    s.lastHanded = s.handed := by
  obtain ⟨next, current, pos, block, res, left, handed, committed⟩ := s
  cases next with
  | read =>
      cases left with
      | nil => rfl
      | cons call left => exact if_neg fun hres => hread ⟨rfl, call, left, rfl, hres⟩
  | startTransaction => exact absurd (Or.inl rfl) hbuffer
  | scanBlock => exact absurd (Or.inr rfl) hbuffer
  | _ => rfl

theorem lastHanded_cases (s : ScanRun) :
    s.lastHanded = s.handed ∨ (s.ReadsBlock ∨ s.InBuffer) ∧
      ∃ b : ScannedBlock, b.pos = s.pos ∧ s.lastHanded = s.handed ++ [b] := by
  by_cases hread : s.ReadsBlock
  · exact Or.inr ⟨Or.inl hread, lastHanded_of_readsBlock hread⟩
  by_cases hbuffer : s.InBuffer
  · exact Or.inr ⟨Or.inr hbuffer, lastHanded_of_inBuffer hbuffer⟩
  · exact Or.inl (lastHanded_of_not hread hbuffer)

theorem handed_step (s : ScanRun) : s.handed <+: s.step.handed := by
  obtain ⟨next, current, pos, block, res, left, handed, committed⟩ := s
  cases next with
  | scanBlock => exact List.prefix_append _ _
  | read =>
      cases left with
      | nil => exact List.prefix_refl _
      | cons call left => exact List.prefix_refl _
  | _ => exact List.prefix_refl _

section Stopped

variable (scanner : DiskScanner) (calls : List ReadCall) (stops : Nat → Bool)

theorem handed_run_prefix {n m : Nat} (h : n ≤ m) :
    (run scanner calls stops n).handed <+: (run scanner calls stops m).handed := by
  have hinv : Interrupts.Invariant ScanRun.step ScanRun.stop fun s =>
      (run scanner calls stops n).handed <+: s.handed :=
    ⟨fun s hs => hs.trans s.handed_step, fun _ hs => hs⟩
  exact hinv.run (List.prefix_refl _) h

-- One step, with the stop that may come before it.
theorem run_succ (n : Nat) :
    run scanner calls stops (n + 1) =
      ScanRun.step { run scanner calls stops n with
        scanner := { (run scanner calls stops n).scanner with
          running := (run scanner calls stops n).scanner.running && !stops n } } := by
  cases hdue : stops n with
  | true =>
      rw [run, Interrupts.run_succ_of_due hdue, Bool.not_true, Bool.and_false]
      rfl
  | false =>
      rw [run, Interrupts.run_succ_of_not_due hdue, Bool.not_false, Bool.and_true]
      rfl

theorem run_one :
    run scanner calls stops 1 = { enter scanner calls with
      next := .setRunning
      scanner := { scanner.clear with running := scanner.running && !stops 0 }
      committed := scanner.clear.tables } := by
  rw [run_succ]
  rfl

theorem run_two :
    run scanner calls stops 2 = { enter scanner calls with
      next := .loopTest
      scanner := { scanner.clear with running := true }
      committed := scanner.clear.tables } := by
  rw [run_succ, run_one]
  rfl

theorem inLoop_run {n : Nat} (h : 2 ≤ n) : (run scanner calls stops n).next.inLoop = true := by
  have hinv : Interrupts.Invariant ScanRun.step ScanRun.stop fun s => s.next.inLoop = true :=
    ⟨fun _ hs => inLoop_step hs, fun _ hs => hs⟩
  refine hinv.run ?_ h
  change (run scanner calls stops 2).next.inLoop = true
  rw [run_two]
  rfl

-- The flag is down for good once a stop comes in the loop.
theorem stopped_invariant (blocks : List ScannedBlock) :
    Interrupts.Invariant ScanRun.step ScanRun.stop fun s =>
      s.next.inLoop = true ∧ s.scanner.running = false ∧ s.lastHanded = blocks := by
  refine ⟨fun s h => ?_, fun s h => ⟨h.1, rfl, h.2.2⟩⟩
  obtain ⟨hloop, hrunning, hlast⟩ := h
  have hset : s.next ≠ .setRunning := by
    intro hnext
    rw [hnext] at hloop
    exact absurd hloop Bool.false_ne_true
  exact ⟨inLoop_step hloop, (running_step hset).trans hrunning,
    (lastHanded_step hloop hrunning).trans hlast⟩

variable {scanner calls stops}

-- A stop in the loop lets through the block that is being processed and no other.
theorem handed_of_stop {n m : Nat} (hdue : stops n = true)
    (hloop : (run scanner calls stops n).next.inLoop = true) (hnm : n ≤ m) :
    (run scanner calls stops m).handed = (run scanner calls stops n).handed ∨
      ((run scanner calls stops n).ReadsBlock ∨ (run scanner calls stops n).InBuffer) ∧
      ∃ b : ScannedBlock, b.pos = (run scanner calls stops n).pos ∧
        (run scanner calls stops m).handed = (run scanner calls stops n).handed ++ [b] := by
  rcases Nat.eq_or_lt_of_le hnm with rfl | hlt
  · exact Or.inl rfl
  have hprefix := handed_run_prefix scanner calls stops hnm
  obtain ⟨-, -, hlast⟩ := (stopped_invariant (run scanner calls stops n).lastHanded).run_handled hdue
    ⟨hloop, rfl, rfl⟩ hlt
  change (run scanner calls stops m).lastHanded = _ at hlast
  generalize run scanner calls stops m = s' at *
  generalize run scanner calls stops n = s at *
  rcases s.lastHanded_cases with hs | ⟨hprocessing, b, hb, hs⟩
  · rcases s'.lastHanded_cases with hs' | ⟨-, b', -, hs'⟩
    · exact Or.inl (hs'.symm.trans (hlast.trans hs))
    · rw [hs, hs'] at hlast
      have hlength := hprefix.length_le
      rw [← hlast, List.length_append, List.length_singleton] at hlength
      omega
  · rcases s'.lastHanded_cases with hs' | ⟨-, b', -, hs'⟩
    · exact Or.inr ⟨hprocessing, b, hb, hs'.symm.trans (hlast.trans hs)⟩
    · rw [hs, hs'] at hlast
      exact Or.inl (List.append_inj' hlast rfl).1

-- The steps to the end once the flag is down.
def stepsToReturn (s : ScanRun) : Nat :=
  match s.next with
  | .read => 6
  | .startTransaction => 5
  | .scanBlock => 4
  | .endTransaction => 3
  | .advancePos => 2
  | .loopTest => 1
  | _ => 0

theorem stepsToReturn_le (s : ScanRun) : s.stepsToReturn ≤ 6 := by
  unfold stepsToReturn
  split <;> decide

theorem stepsToReturn_step (hloop : s.next.inLoop = true) (hrunning : s.scanner.running = false) :
    s.step.stepsToReturn ≤ s.stepsToReturn - 1 := by
  obtain ⟨next, current, pos, block, res, left, handed, committed⟩ := s
  cases next with
  | clear => exact absurd hloop Bool.false_ne_true
  | setRunning => exact absurd hloop Bool.false_ne_true
  | loopTest =>
      have hfalse : current.running = false := hrunning
      simp only [ScanRun.step, stepsToReturn, hfalse, Bool.false_eq_true, ite_false]
      decide
  | read =>
      cases left with
      | nil => exact Nat.zero_le _
      | cons call left =>
          simp only [ScanRun.step, stepsToReturn]
          split_ifs <;> decide
  | _ => exact Nat.le_refl _

theorem returned_of_stepsToReturn (hloop : s.next.inLoop = true) (h : s.stepsToReturn = 0) :
    s.next = .returned := by
  obtain ⟨next, current, pos, block, res, left, handed, committed⟩ := s
  cases next with
  | clear => exact absurd hloop Bool.false_ne_true
  | setRunning => exact absurd hloop Bool.false_ne_true
  | returned => rfl
  | _ => cases h

theorem returned_run {n m : Nat} (h : (run scanner calls stops n).next = .returned) (hnm : n ≤ m) :
    (run scanner calls stops m).next = .returned ∧
      (run scanner calls stops m).handed = (run scanner calls stops n).handed := by
  have hinv : Interrupts.Invariant ScanRun.step ScanRun.stop fun s =>
      s.next = .returned ∧ s.handed = (run scanner calls stops n).handed := by
    refine ⟨fun s hs => ?_, fun _ hs => hs⟩
    rw [ScanRun.step, hs.1]
    exact hs
  exact hinv.run ⟨h, rfl⟩ hnm

theorem returns_of_stop {n : Nat} (hdue : stops n = true)
    (hloop : (run scanner calls stops n).next.inLoop = true) :
    (run scanner calls stops (n + 6)).next = .returned := by
  have hinv := stopped_invariant (run scanner calls stops n).lastHanded
  have hstopped := hinv.run_handled hdue ⟨hloop, rfl, rfl⟩ (Nat.lt_succ_self n)
  have hfirst : (run scanner calls stops (n + 1)).stepsToReturn ≤ 5 := by
    have hstep := stepsToReturn_step (s := (run scanner calls stops n).stop) hloop rfl
    have hbound := stepsToReturn_le (run scanner calls stops n).stop
    rw [run, Interrupts.run_succ_of_due hdue]
    change ((run scanner calls stops n).stop.step).stepsToReturn ≤ 5
    omega
  have hrank := hinv.rank_run (fun s hs => stepsToReturn_step hs.1 hs.2.1) (fun _ _ => Nat.le_refl _)
    hstopped 5
  have hend := hinv.run hstopped (Nat.le_add_right (n + 1) 5)
  refine returned_of_stepsToReturn hend.1 (Nat.le_zero.mp (Nat.le_trans hrank ?_))
  exact Nat.le_of_eq (Nat.sub_eq_zero_of_le hfirst)

theorem step_of_readsBlock (h : s.ReadsBlock) :
    s.step.next = .startTransaction ∧ s.step.handed = s.handed := by
  obtain ⟨hnext, call, rest, hcalls, hres⟩ := h
  have hzero : call.result s.scanner.fd ≠ 0 := by omega
  have hneg : ¬call.result s.scanner.fd < 0 := by omega
  simp only [ScanRun.step, hnext, hcalls, if_neg hzero, if_neg hneg, and_self]

theorem step_of_not_delivers (hnext : s.next = .read) (h : ¬Delivers s.scanner.fd s.calls) :
    s.step.next = .returned ∧ s.step.handed = s.handed := by
  cases hcalls : s.calls with
  | nil => simp only [ScanRun.step, hnext, hcalls, and_self]
  | cons call rest =>
      have hres : ¬0 < call.result s.scanner.fd := fun hpos => h ⟨call, rest, hcalls, hpos⟩
      simp only [ScanRun.step, hnext, hcalls, and_true]
      split_ifs with hzero hneg
      · rfl
      · rfl
      · omega

-- A block that is read is handed over, stop or no stop.
theorem handed_of_readsBlock {n : Nat} (h : (run scanner calls stops n).ReadsBlock) :
    ∃ b : ScannedBlock, (run scanner calls stops (n + 3)).handed =
      (run scanner calls stops n).handed ++ [b] := by
  obtain ⟨hread, hsame⟩ : (run scanner calls stops (n + 1)).next = .startTransaction ∧
      (run scanner calls stops (n + 1)).handed = (run scanner calls stops n).handed := by
    rw [run_succ]
    exact step_of_readsBlock h
  obtain ⟨hstarted, hsame'⟩ : (run scanner calls stops (n + 2)).next = .scanBlock ∧
      (run scanner calls stops (n + 2)).handed = (run scanner calls stops n).handed := by
    rw [run_succ, ScanRun.step]
    simp only [hread, hsame, and_self]
  refine ⟨{
    pos := (run scanner calls stops (n + 2)).pos, block := (run scanner calls stops (n + 2)).block
    sectorSize := (run scanner calls stops (n + 2)).res.toNat }, ?_⟩
  rw [run_succ, ScanRun.step]
  simp only [hstarted, hsame']

theorem Progress.take_handed (h : Progress scanner calls read rest s) :
    calls.take s.handed.length = read := by
  rw [h.handed, length_handedBlocks, h.calls_eq, List.take_left]

-- The rows are those of a scan of what has been handed over, or of all but the last block
-- while that one's transaction is open.
theorem Progress.committed_eq (h : Progress scanner calls read rest s) :
    ∃ k, (k = s.handed.length ∨ s.next = .endTransaction ∧ k + 1 = s.handed.length) ∧
      s.committed = (scanner.scan (calls.take k)).2.tables := by
  by_cases hopen : s.next = .endTransaction
  · obtain ⟨before, call, hread, hcommitted⟩ := h.committed_of_open hopen
    refine ⟨before.length, Or.inr ⟨hopen, ?_⟩, ?_⟩
    · rw [h.handed, length_handedBlocks, hread, List.length_append, List.length_singleton]
    · rw [h.calls_eq, hread, List.append_assoc, List.take_left]
      exact hcommitted
  · exact ⟨s.handed.length, Or.inl rfl, h.take_handed.symm ▸ h.committed_of_closed hopen⟩

-- From its first step on the call has handed over the blocks of a part of the reads.
theorem tables_run (scanner : DiskScanner) (calls : List ReadCall) (stops : Nat → Bool) {m : Nat}
    (hm : 0 < m) :
    (run scanner calls stops m).handed =
      handedBlocks 0 (calls.take (run scanner calls stops m).handed.length) ∧
    ∃ k, (k = (run scanner calls stops m).handed.length ∨
        (run scanner calls stops m).next = .endTransaction ∧
          k + 1 = (run scanner calls stops m).handed.length) ∧
      (run scanner calls stops m).committed = (scanner.scan (calls.take k)).2.tables := by
  obtain ⟨read, rest, h⟩ := progress_run scanner calls stops hm
  exact ⟨h.take_handed.symm ▸ h.handed, h.committed_eq⟩

end Stopped

end ScanRun

open ScanRun

-- What a stop request is for, in one run of `scan`. `processing` tells in which states a
-- block is already being processed. The tables are at any time those of a scan of the part
-- of the image that has been handed over, without the block of an open transaction.
structure StopKept (processing : ScanRun → Prop) (scanner : DiskScanner) (calls : List ReadCall)
    (stops : Nat → Bool) : Prop where
  handed : ∀ n m, stops n = true → n ≤ m →
    (run scanner calls stops m).handed = (run scanner calls stops n).handed ∨
      processing (run scanner calls stops n) ∧
      ∃ b : ScannedBlock, b.pos = (run scanner calls stops n).pos ∧
        (run scanner calls stops m).handed = (run scanner calls stops n).handed ++ [b]
  returns : ∀ n, stops n = true → (run scanner calls stops (n + 6)).next = .returned
  tables : ∀ m, 0 < m →
    (run scanner calls stops m).handed =
      handedBlocks 0 (calls.take (run scanner calls stops m).handed.length) ∧
    ∃ k, (k = (run scanner calls stops m).handed.length ∨
        (run scanner calls stops m).next = .endTransaction ∧
          k + 1 = (run scanner calls stops m).handed.length) ∧
      (run scanner calls stops m).committed = (scanner.scan (calls.take k)).2.tables

-- A stop comes before the flag is raised and none between that and the first loop test,
-- and there is a block to read.
def Overwritten (fd : Int) (calls : List ReadCall) (stops : Nat → Bool) : Prop :=
  (stops 0 = true ∨ stops 1 = true) ∧ stops 2 = false ∧ Delivers fd calls

section Kept

-- The states before the first loop test.
theorem run_early (scanner : DiskScanner) (calls : List ReadCall) (stops : Nat → Bool) {n : Nat}
    (hn : n < 2) :
    (run scanner calls stops n).handed = [] ∧ (run scanner calls stops n).next.inLoop = false := by
  match n with
  | 0 => exact ⟨rfl, rfl⟩
  | 1 =>
      rw [run_one]
      exact ⟨rfl, rfl⟩

variable {scanner : DiskScanner} {calls : List ReadCall} {stops : Nat → Bool}

theorem run_three :
    run scanner calls stops 3 = { enter scanner calls with
      next := if !stops 2 then .read else .returned
      scanner := { scanner.clear with running := !stops 2 }
      committed := scanner.clear.tables } := by
  rw [run_succ, run_two]
  rfl

theorem readsBlock_run_three (h : stops 2 = false) (hdelivers : Delivers scanner.fd calls) :
    (run scanner calls stops 3).ReadsBlock := by
  rw [run_three, h]
  exact ⟨rfl, hdelivers⟩

-- Without a block to read, or with a stop right behind the one that is lost, nothing is
-- handed over at all.
theorem nothing_handed (h : stops 2 = true ∨ ¬Delivers scanner.fd calls) :
    (run scanner calls stops 4).next = .returned ∧ (run scanner calls stops 4).handed = [] := by
  cases htwo : stops 2 with
  | true =>
      have hthree : (run scanner calls stops 3).next = .returned ∧
          (run scanner calls stops 3).handed = [] := by
        rw [run_three, htwo]
        exact ⟨rfl, rfl⟩
      obtain ⟨hnext, hhanded⟩ := returned_run hthree.1 (Nat.le_succ 3)
      exact ⟨hnext, hhanded.trans hthree.2⟩
  | false =>
      have hnothing : ¬Delivers scanner.fd calls := h.resolve_left (by simp [htwo])
      rw [run_succ, run_three, htwo]
      exact step_of_not_delivers rfl hnothing

theorem silent_of_early (h : ¬Overwritten scanner.fd calls stops) {n : Nat} (hn : n < 2)
    (hdue : stops n = true) : stops 2 = true ∨ ¬Delivers scanner.fd calls := by
  have hearly : stops 0 = true ∨ stops 1 = true := by
    match n with
    | 0 => exact Or.inl hdue
    | 1 => exact Or.inr hdue
  by_cases htwo : stops 2 = true
  · exact Or.inl htwo
  · exact Or.inr fun hdelivers => h ⟨hearly, Bool.eq_false_iff.mpr htwo, hdelivers⟩

theorem nothing_handed_of_early (h : ¬Overwritten scanner.fd calls stops) {n : Nat} (hn : n < 2)
    (hdue : stops n = true) (m : Nat) : (run scanner calls stops m).handed = [] := by
  obtain ⟨hnext, hhanded⟩ := nothing_handed (silent_of_early h hn hdue)
  by_cases hm : 4 ≤ m
  · exact (returned_run hnext hm).2.trans hhanded
  · have hprefix := handed_run_prefix scanner calls stops (Nat.le_of_not_le hm)
    rw [hhanded] at hprefix
    exact List.prefix_nil.mp hprefix

theorem not_stopKept_of_overwritten {processing : ScanRun → Prop}
    (hprocessing : ∀ s, processing s → s.next.inLoop = true)
    (h : Overwritten scanner.fd calls stops) : ¬StopKept processing scanner calls stops := by
  obtain ⟨hearly, htwo, hdelivers⟩ := h
  intro hkept
  obtain ⟨b, hb⟩ := handed_of_readsBlock (readsBlock_run_three htwo hdelivers)
  obtain ⟨n, hn, hdue⟩ : ∃ n, n < 2 ∧ stops n = true := by
    rcases hearly with hzero | hone
    · exact ⟨0, by decide, hzero⟩
    · exact ⟨1, by decide, hone⟩
  obtain ⟨hhanded, hloop⟩ := run_early scanner calls stops hn
  rcases hkept.handed n 6 hdue (by omega) with hsame | ⟨hstate, -⟩
  · rw [hb, hhanded] at hsame
    exact List.append_ne_nil_of_right_ne_nil _ (List.cons_ne_nil b []) hsame
  · rw [hprocessing _ hstate] at hloop
    cases hloop

theorem stopKept_of_not_overwritten {processing : ScanRun → Prop}
    (hprocessing : ∀ n, stops n = true → (run scanner calls stops n).ReadsBlock ∨
      (run scanner calls stops n).InBuffer → processing (run scanner calls stops n))
    (h : ¬Overwritten scanner.fd calls stops) : StopKept processing scanner calls stops where
  handed := by
    intro n m hdue hnm
    by_cases hn : 2 ≤ n
    · rcases handed_of_stop hdue (inLoop_run scanner calls stops hn) hnm with
        hsame | ⟨hstate, hlast⟩
      · exact Or.inl hsame
      · exact Or.inr ⟨hprocessing n hdue hstate, hlast⟩
    · have hnone := nothing_handed_of_early h (by omega) hdue
      exact Or.inl ((hnone m).trans (hnone n).symm)
  returns := by
    intro n hdue
    by_cases hn : 2 ≤ n
    · exact returns_of_stop hdue (inLoop_run scanner calls stops hn)
    · have hreturned := (nothing_handed (silent_of_early h (by omega) hdue)).1
      exact (returned_run hreturned (by omega)).1
  tables := fun m hm => tables_run scanner calls stops hm

end Kept

-- A stop request is lost exactly if it comes before the flag is raised, no other follows
-- before the first loop test, and there is a block to read. Counted from the read on instead
-- of the loop test, one more block comes through where a stop falls between the two.
theorem stop_kept_iff (scanner : DiskScanner) (calls : List ReadCall) (stops : Nat → Bool) :
    (StopKept InIteration scanner calls stops ↔ ¬Overwritten scanner.fd calls stops) ∧
    (StopKept InBuffer scanner calls stops ↔ ¬Overwritten scanner.fd calls stops ∧
      ∀ n, stops n = true → ¬(run scanner calls stops n).ReadsBlock) := by
  constructor
  · constructor
    · exact fun hkept hover => not_stopKept_of_overwritten inLoop_of_inIteration hover hkept
    · intro hover
      refine stopKept_of_not_overwritten (fun n _ hstate => ?_) hover
      rcases hstate with hread | hstate
      · exact Or.inl hread.1
      · exact Or.inr hstate
  · constructor
    · refine fun hkept => ⟨fun hover => not_stopKept_of_overwritten inLoop_of_inBuffer hover hkept, ?_⟩
      intro n hdue hread
      obtain ⟨b, hb⟩ := handed_of_readsBlock hread
      rcases hkept.handed n (n + 3) hdue (Nat.le_add_right n 3) with hsame | ⟨hstate, -⟩
      · rw [hb] at hsame
        simp at hsame
      · rw [InBuffer, hread.1] at hstate
        simp at hstate
    · rintro ⟨hover, hreads⟩
      refine stopKept_of_not_overwritten (fun n hdue hstate => ?_) hover
      exact hstate.resolve_left (hreads n hdue)

-- A stop between `clear` and the assignment behind it, and an image of two blocks.
theorem stop_during_clear_is_lost :
    let call : ReadCall := { res := 4096, data := fun _ => 0, stale := fun _ => 0 }
    let scanner : DiskScanner := { fd := 3, apfs := {} }
    let stops : Nat → Bool := fun n => n = 1
    (run scanner [call, call] stops 16).next = .returned ∧
      (run scanner [call, call] stops 16).handed.length = 2 ∧
      ¬StopKept InIteration scanner [call, call] stops := by
  intro call scanner stops
  have hreturned : (run scanner [call, call] stops 16).next = .returned := by decide +kernel
  have hboth : (run scanner [call, call] stops 16).handed.length = 2 := by decide +kernel
  refine
    ⟨hreturned, hboth, not_stopKept_of_overwritten inLoop_of_inIteration ⟨Or.inr rfl, rfl, ?_⟩⟩
  exact ⟨call, [call], rfl, by decide⟩

end SuperBadBlock
