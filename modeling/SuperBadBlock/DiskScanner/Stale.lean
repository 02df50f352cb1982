import SuperBadBlock.DiskScanner
import SuperBadBlock.ApfsScanner.Image

namespace SuperBadBlock

-- The calls of `::read` on an image that return the given counts, from byte `off`
-- on; call `k` finds `stale k` in the buffer.
def readCalls (image : List UInt8) (stale : Nat → Memory) : Nat → Nat → List Nat → List ReadCall
  | _, _, [] => []
  | k, off, count :: counts =>
      { res := count, data := fun o => image.getD (off + o.toNat) 0, stale := stale k } ::
        readCalls image stale (k + 1) (off + count) counts

-- What `scan` hands to `scanBlock`.
def handedBlocks : Nat → List ReadCall → List ScannedBlock
  | _, [] => []
  | pos, call :: calls =>
      { pos := pos, block := call.block, sectorSize := call.res.toNat } ::
        handedBlocks (u64 (pos + 4096)) calls

-- The position of the block that is handed over behind `n` others.
def blockPos (pos n : Nat) : Nat := (fun pos => u64 (pos + 4096))^[n] pos

theorem blockPos_succ (pos n : Nat) : blockPos pos (n + 1) = u64 (blockPos pos n + 4096) :=
  Function.iterate_succ_apply' _ n pos

namespace DiskScanner

theorem scanLoop_eq (scanner : DiskScanner) (hfd : 0 ≤ scanner.fd) (hrunning : scanner.running = true)
    (pos : Nat) (calls : List ReadCall) (hres : ∀ call ∈ calls, 0 < call.res) :
    scanner.scanLoop pos calls =
      { scanner with apfs := scanBlocks scanner.apfs (handedBlocks pos calls) } := by
  induction calls generalizing scanner pos with
  | nil => rfl
  | cons call calls ih =>
      obtain ⟨hfirst, hrest⟩ := List.forall_mem_cons.mp hres
      have hresult : call.result scanner.fd = call.res := if_neg (by omega)
      have hzero : call.res ≠ 0 := by omega
      have hneg : ¬call.res < 0 := by omega
      have hnext := ih
        { scanner with apfs := (scanBlock scanner.apfs pos call.block call.res.toNat).val }
        hfd hrunning (u64 (pos + 4096)) hrest
      rw [scanLoop, if_pos hrunning, hresult]
      dsimp only at hnext ⊢
      rw [if_neg hzero, if_neg hneg, hnext, handedBlocks, scanBlocks_cons]

-- `scan` clears the tables and scans what was handed over.
theorem scan_eq (scanner : DiskScanner) (hfd : 0 ≤ scanner.fd) (calls : List ReadCall)
    (hres : ∀ call ∈ calls, 0 < call.res) :
    (scanner.scan calls).2 =
      { scanner with
        apfs := scanBlocks { scanner.apfs with fileSystem := scanner.apfs.fileSystem.clear }
          (handedBlocks 0 calls)
        running := true } := by
  rw [scan]
  dsimp only
  exact scanLoop_eq
    { scanner with
      apfs := { scanner.apfs with fileSystem := scanner.apfs.fileSystem.clear }, running := true }
    hfd rfl 0 calls hres

end DiskScanner

section Calls

variable {image : List UInt8} {stale stale' : Nat → Memory}

theorem res_pos_of_counts {counts : List Nat} (h : ∀ count ∈ counts, 0 < count) (k off : Nat) :
    ∀ call ∈ readCalls image stale k off counts, 0 < call.res := by
  induction counts generalizing k off with
  | nil => simp [readCalls]
  | cons count counts ih =>
      obtain ⟨hfirst, hrest⟩ := List.forall_mem_cons.mp h
      refine List.forall_mem_cons.mpr ⟨?_, ih hrest (k + 1) (off + count)⟩
      exact Int.natCast_pos.mpr hfirst

-- Call `k` delivers its count of bytes from where the ones before it ended.
theorem block_of_handed {counts : List Nat} {k off pos j : Nat} {b : ScannedBlock}
    (h : (handedBlocks pos (readCalls image stale k off counts))[j]? = some b) :
    ∃ count, counts[j]? = some count ∧ ∀ o : Int, b.block o =
      if 0 ≤ o ∧ o < count then image.getD (off + (counts.take j).sum + o.toNat) 0
      else stale (k + j) o := by
  induction counts generalizing k off pos j with
  | nil => cases h
  | cons count counts ih =>
      rw [readCalls, handedBlocks] at h
      cases j with
      | zero =>
          obtain rfl := Option.some.inj h
          refine ⟨count, rfl, fun o => ?_⟩
          simp only [ReadCall.block, Memory.copy, Int.toNat_natCast, Int.zero_add, Int.sub_zero,
            List.take_zero, List.sum_nil, Nat.add_zero]
      | succ j =>
          obtain ⟨c, hc, hblock⟩ := ih (by simpa using h)
          refine ⟨c, by simpa using hc, fun o => ?_⟩
          rw [hblock, List.take_succ_cons, List.sum_cons, ← Nat.add_assoc, Nat.add_right_comm k 1 j]
          rfl

theorem exists_handed {counts : List Nat} {k off pos j count : Nat} (h : counts[j]? = some count) :
    ∃ b, (handedBlocks pos (readCalls image stale k off counts))[j]? = some b := by
  induction counts generalizing k off pos j with
  | nil => cases h
  | cons first counts ih =>
      cases j with
      | zero => exact ⟨_, rfl⟩
      | succ j =>
          rw [List.getElem?_cons_succ] at h
          rw [readCalls, handedBlocks, List.getElem?_cons_succ]
          exact ih h

-- A copy to the start leaves nothing of the cells it covers.
theorem copy_congr_outside {mem mem' : Memory} (source : Memory) {n : Nat}
    (h : ∀ o : Int, o < 0 ∨ n ≤ o → mem o = mem' o) :
    mem.copy 0 source 0 n = mem'.copy 0 source 0 n := by
  funext o
  rw [Memory.copy, Memory.copy]
  split_ifs with ho
  · rfl
  · exact h o (by omega)

-- Full reads leave nothing of the old buffer.
theorem handedBlocks_of_full {counts : List Nat} (hfull : ∀ count ∈ counts, count = 4096)
    (houtside : ∀ (k : Nat) (o : Int), o < 0 ∨ 4096 ≤ o → stale k o = stale' k o) (k off pos : Nat) :
    handedBlocks pos (readCalls image stale k off counts) =
      handedBlocks pos (readCalls image stale' k off counts) := by
  induction counts generalizing k off pos with
  | nil => rfl
  | cons count counts ih =>
      obtain ⟨rfl, hrest⟩ := List.forall_mem_cons.mp hfull
      have hblock := copy_congr_outside (fun o => image.getD (off + o.toNat) 0) (houtside k)
      simp only [readCalls, handedBlocks, ReadCall.block, Int.toNat_natCast, ih hrest, hblock]

theorem pos_of_handed_of_full {counts : List Nat} (hfull : ∀ count ∈ counts, count = 4096)
    {k off pos j : Nat} {b : ScannedBlock} (hbound : pos + counts.sum < 2 ^ 64)
    (h : (handedBlocks pos (readCalls image stale k off counts))[j]? = some b) :
    b.pos = pos + (counts.take j).sum := by
  induction counts generalizing k off pos j with
  | nil => cases h
  | cons count counts ih =>
      obtain ⟨rfl, hrest⟩ := List.forall_mem_cons.mp hfull
      rw [List.sum_cons] at hbound
      rw [readCalls, handedBlocks] at h
      cases j with
      | zero =>
          obtain rfl := Option.some.inj h
          rfl
      | succ j =>
          have hpos : u64 (pos + 4096) = pos + 4096 := Nat.mod_eq_of_lt (by omega)
          have hlater : u64 (pos + 4096) + counts.sum < 2 ^ 64 := by omega
          rw [List.getElem?_cons_succ] at h
          rw [ih hrest hlater h, hpos, List.take_succ_cons, List.sum_cons, Nat.add_assoc]

end Calls

-- Nothing of the old buffer gets into the result, and every block that is handed over
-- is the part of the image at its position.
structure ImageOnly (scanner : DiskScanner) (image : List UInt8) (counts : List Nat) : Prop where
  result : ∀ stale stale' : Nat → Memory,
    (∀ (k : Nat) (o : Int), o < 0 ∨ 4096 ≤ o → stale k o = stale' k o) →
    (scanner.scan (readCalls image stale 0 0 counts)).2 =
      (scanner.scan (readCalls image stale' 0 0 counts)).2
  blocks : ∀ (stale : Nat → Memory) (j : Nat) (b : ScannedBlock),
    (handedBlocks 0 (readCalls image stale 0 0 counts))[j]? = some b →
      b.pos = (counts.take j).sum ∧ ∀ i < 4096, image[b.pos + i]? = some (b.block (i : Nat))

-- A scan is about the image alone exactly when every read up to the end of the image
-- delivers a whole block.
theorem scan_of_image_iff (scanner : DiskScanner) (hfd : 0 ≤ scanner.fd) (image : List UInt8)
    (himage : image.length < 2 ^ 64) (counts : List Nat)
    (hcounts : ∀ count ∈ counts, 1 ≤ count ∧ count ≤ 4096) (hend : counts.sum = image.length) :
    ImageOnly scanner image counts ↔ ∀ count ∈ counts, count = 4096 := by
  have hpos (stale : Nat → Memory) :
      ∀ call ∈ readCalls image stale 0 0 counts, 0 < call.res :=
    res_pos_of_counts (fun count hm => (hcounts count hm).1) 0 0
  constructor
  · intro h count hm
    obtain ⟨j, hj⟩ := List.mem_iff_getElem?.mp hm
    by_contra hne
    have hshort : count < 4096 := Nat.lt_of_le_of_ne (hcounts count hm).2 hne
    -- The first byte behind the ones that were read is whatever was there.
    have hbyte (old : UInt8) : ∃ i, image[i]? = some old ∧ i = (counts.take j).sum + count := by
      have hcalled : ∃ b, (handedBlocks 0 (readCalls image (fun _ _ => old) 0 0 counts))[j]? = some b :=
        exists_handed hj
      obtain ⟨b, hb⟩ := hcalled
      obtain ⟨c, hc, hblock⟩ := block_of_handed hb
      obtain rfl : c = count := Option.some.inj (hc.symm.trans hj)
      obtain ⟨hstart, hbytes⟩ := h.blocks (fun _ _ => old) j b hb
      have hi := hbytes c hshort
      rw [hblock, if_neg (by omega), hstart] at hi
      exact ⟨_, hi, rfl⟩
    obtain ⟨i, hzero, rfl⟩ := hbyte 0
    obtain ⟨i, hone, rfl⟩ := hbyte 1
    rw [hzero] at hone
    cases hone
  · intro hfull
    refine ⟨fun stale stale' houtside => ?_, fun stale j b hb => ?_⟩
    · rw [DiskScanner.scan_eq scanner hfd _ (hpos stale), DiskScanner.scan_eq scanner hfd _ (hpos stale'),
        handedBlocks_of_full hfull houtside]
    · have hstart := pos_of_handed_of_full hfull (by omega) hb
      rw [Nat.zero_add] at hstart
      obtain ⟨count, hcount, hblock⟩ := block_of_handed hb
      obtain rfl := hfull count (List.mem_of_getElem? hcount)
      refine ⟨hstart, fun i hi => ?_⟩
      have htake : (counts.take j).sum + 4096 ≤ image.length := by
        have hsplit := List.sum_take_add_sum_drop counts j
        have hdrop : counts.drop j = 4096 :: counts.drop (j + 1) := by
          obtain ⟨hj, hget⟩ := List.getElem?_eq_some_iff.mp hcount
          rw [List.drop_eq_getElem_cons hj, hget]
        rw [hdrop, List.sum_cons] at hsplit
        omega
      have hin : 0 ≤ (i : Int) ∧ (i : Int) < (4096 : Nat) := by omega
      rw [hblock, if_pos hin, hstart, Int.toNat_natCast, Nat.zero_add,
        List.getD_eq_getElem?_getD, List.getElem?_eq_getElem (by omega), Option.getD_some]

theorem scan_of_image_of_whole_block :
    ImageOnly { fd := 3, apfs := {} } (List.replicate 4096 1) [4096] :=
  (scan_of_image_iff { fd := 3, apfs := {} } (by decide) (List.replicate 4096 1)
    (by rw [List.length_replicate]; decide) [4096] (by simp)
    (by rw [List.length_replicate]; rfl)).mpr (by simp)

-- The first byte of a node, and buffers that hold the rest of it, and zeros.
def staleNode : Node := { xid := 7, flags := 2, records := [.inode 16 2 none] }

def cutImage : List UInt8 := [nodeImage staleNode 0]

def zeroBlock : Memory := fun o => if 0 ≤ o ∧ o < 4096 then 0 else nodeImage staleNode o

def cutBlock (stale : Memory) : Memory := fun o => if o = 0 then nodeImage staleNode 0 else stale o

theorem handedBlocks_cutImage (stale : Memory) :
    handedBlocks 0 (readCalls cutImage (fun _ => stale) 0 0 [1]) =
      [{ pos := 0, block := cutBlock stale, sectorSize := 1 }] := by
  have hblock : stale.copy 0 (fun o => cutImage.getD (0 + o.toNat) 0) 0 1 = cutBlock stale := by
    funext o
    by_cases ho : o = 0
    · subst ho
      rfl
    · rw [Memory.copy, cutBlock, if_neg (by omega), if_neg ho]
  simp only [readCalls, handedBlocks, ReadCall.block, Int.toNat_natCast, hblock]

theorem fileSystem_scan_cutImage (stale : Memory) :
    (DiskScanner.scan { fd := 3, apfs := {} }
      (readCalls cutImage (fun _ => stale) 0 0 [1])).2.apfs.fileSystem =
      (scanBlocks {} [{ pos := 0, block := cutBlock stale, sectorSize := 1 }]).fileSystem := by
  rw [DiskScanner.scan_eq _ (by decide) _ (res_pos_of_counts (by simp) 0 0), handedBlocks_cutImage]
  rfl

-- An image of one byte: what else the buffer holds makes a file of it, or nothing.
theorem stale_bytes_become_file :
    let scanner : DiskScanner := { fd := 3, apfs := {} }
    ((scanner.scan (readCalls cutImage (fun _ => nodeImage staleNode) 0 0 [1])).2.apfs.fileSystem.cached
      16).isSome ∧
    (scanner.scan (readCalls cutImage (fun _ => zeroBlock) 0 0 [1])).2.apfs.fileSystem.cached 16 = none ∧
    ¬ImageOnly scanner cutImage [1] := by
  intro scanner
  have hsame : cutBlock (nodeImage staleNode) = nodeImage staleNode := by
    funext o
    rw [cutBlock]
    split_ifs with ho
    · rw [ho]
    · rfl
  have hdecodes : nodeOf (nodeImage staleNode) 4096 = staleNode := by decide +kernel
  have hfile : ((scanner.scan (readCalls cutImage (fun _ => nodeImage staleNode) 0 0
      [1])).2.apfs.fileSystem.cached 16).isSome := by
    rw [fileSystem_scan_cutImage, hsame, cached_scanBlocks, scannedNodes,
      if_pos (isNode_nodeImage staleNode), hdecodes]
    rfl
  have hnone : (scanner.scan (readCalls cutImage (fun _ => zeroBlock) 0 0
      [1])).2.apfs.fileSystem.cached 16 = none := by
    have hnot : ¬IsNode 4096 (cutBlock zeroBlock) := fun h => h.1.1 rfl
    rw [fileSystem_scan_cutImage, cached_scanBlocks, scannedNodes, if_neg hnot]
    rfl
  refine ⟨hfile, hnone, fun h => ?_⟩
  have hagree := h.result (fun _ => nodeImage staleNode) (fun _ => zeroBlock)
    (fun _ o ho => (if_neg (by omega)).symm)
  rw [hagree, hnone] at hfile
  cases hfile

end SuperBadBlock
