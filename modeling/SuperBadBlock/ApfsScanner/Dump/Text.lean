import SuperBadBlock.ApfsScanner.Dump.Agreement
import SuperBadBlock.Hexdump

namespace SuperBadBlock

-- What a call of `::read` stored in the buffer.
def FileRead.delivered (image : Memory) (call : FileRead) : List UInt8 :=
  image.slice call.off call.returned.toNat

-- What `dumpFile` prints: `hexdump` gets the buffer of each call that delivers something.
-- `address` is where the `k`-th buffer is allocated.
def dumpText (address : Nat → Nat) (image : Memory) : Nat → List FileRead → List UInt8
  | _, [] => []
  | k, call :: calls =>
      (if call.returned ≤ 0 then [] else hexdump (address k) (call.delivered image)) ++
        dumpText address image (k + 1) calls

theorem delivered_of_not_pos {image : Memory} {call : FileRead} (h : call.returned ≤ 0) :
    call.delivered image = [] := by
  rw [FileRead.delivered, Int.toNat_of_nonpos h]
  rfl

-- The text is read back buffer by buffer.
theorem readHexdump_dumpText (address : Nat → Nat) (image : Memory) (k : Nat) (calls : List FileRead) :
    readHexdump (dumpText address image k calls) =
      (calls.zipIdx k).flatMap fun call => hexdumpRows (address call.2) (call.1.delivered image) := by
  induction calls generalizing k with
  | nil => rfl
  | cons call calls ih =>
      rw [dumpText, List.zipIdx_cons, List.flatMap_cons]
      split_ifs with hend
      · rw [delivered_of_not_pos hend, List.nil_append, ih]
        rfl
      · rw [readHexdump_append, ih]

theorem bytes_dumpText (address : Nat → Nat) (image : Memory) (k : Nat) (calls : List FileRead) :
    (readHexdump (dumpText address image k calls)).flatMap Prod.snd =
      calls.flatMap (FileRead.delivered image) := by
  rw [readHexdump_dumpText, List.flatMap_assoc]
  simp only [flatten_hexdumpRows]
  rw [← List.flatMap_map (f := Prod.fst) (g := FileRead.delivered image), List.zipIdx_map_fst]

section Loop

variable {descriptor : Descriptor} {fsOffset currentBlockSize : Nat}

-- `dumpFile` hands out what its calls deliver, and nothing else.
theorem val_dumpExtents_eq_delivered (k : Nat) (extents : List EntryExtent) (position : Int)
    (remaining : Nat) :
    (dumpExtents descriptor fsOffset currentBlockSize k extents position remaining).val.1 =
      (dumpExtents descriptor fsOffset currentBlockSize k extents position remaining).log.flatMap
        (FileRead.delivered descriptor.bytes) := by
  induction extents generalizing k position remaining with
  | nil => rfl
  | cons extent extents ih =>
      rw [log_dumpExtents_cons]
      by_cases hneg : extent.readLen remaining < 0
      · have hval : (dumpExtents descriptor fsOffset currentBlockSize k (extent :: extents) position
            remaining).val = ([], false) := by
          rw [dumpExtents]
          exact congrArg Traced.val (if_pos hneg)
        rw [hval, if_pos hneg]
        rfl
      · rw [val_dumpExtents_cons k extent extents position remaining hneg, if_neg hneg,
          List.flatMap_cons]
        split_ifs with hend
        · rw [delivered_of_not_pos hend]
          rfl
        · exact congrArg (_ ++ ·) (ih _ _ _)

-- Where every call delivers what is asked for, these are the bytes of the extents.
theorem val_dumpExtents_of_full (hseek : ∀ off, 0 ≤ off → descriptor.lseek off) {k : Nat}
    {extents : List EntryExtent} {position : Int} {remaining : Nat}
    (hlengths : ∀ extent ∈ extents, 0 < extent.length ∧ extent.length < 2 ^ 31)
    (hoffsets : ∀ extent ∈ extents, fsOffset + extent.physicalBlock * currentBlockSize < 2 ^ 63)
    (huint : remaining < 2 ^ 64)
    (hfull : (dumpExtents descriptor fsOffset currentBlockSize k extents position
      remaining).Within FileRead.Full) :
    (dumpExtents descriptor fsOffset currentBlockSize k extents position remaining).val =
      ((extents.flatMap (EntryExtent.dataAt descriptor.bytes fsOffset currentBlockSize)).take remaining,
        true) := by
  induction extents generalizing k position remaining with
  | nil =>
      rw [List.flatMap_nil, List.take_nil]
      rfl
  | cons extent extents ih =>
      obtain ⟨⟨hpos, hlength⟩, hlengths⟩ := List.forall_mem_cons.mp hlengths
      obtain ⟨hoffset, hoffsets⟩ := List.forall_mem_cons.mp hoffsets
      have hlt : min extent.length remaining < 2 ^ 31 := by omega
      have hnonneg : ¬extent.readLen remaining < 0 := by
        rw [EntryExtent.readLen_of_lt hlt]
        omega
      have hdump : extent.dumpOffset fsOffset currentBlockSize =
          (fsOffset + extent.physicalBlock * currentBlockSize : Nat) := toOffT_of_lt hoffset
      have hplace : descriptor.seek (extent.dumpOffset fsOffset currentBlockSize) position =
          (fsOffset + extent.physicalBlock * currentBlockSize : Nat) := by
        rw [Descriptor.seek, hdump, if_pos (hseek _ (Int.natCast_nonneg _))]
      obtain ⟨hreturned, hrest⟩ := full_dump_cons hnonneg hfull
      rw [EntryExtent.request_of_lt hlt] at hreturned hrest
      rw [val_dumpExtents_cons k extent extents position remaining hnonneg]
      simp only [hplace] at hreturned hrest ⊢
      rw [hreturned, List.flatMap_cons]
      rcases Nat.eq_zero_or_pos remaining with rfl | hleft
      · rw [Nat.min_zero, if_pos (by omega), List.take_zero]
      · have hgo : ¬((min extent.length remaining : Nat) : Int) ≤ 0 := by omega
        have hsub : toSizeT ((remaining : Int) - (min extent.length remaining : Nat)) =
            remaining - min extent.length remaining := toSizeT_sub (Nat.min_le_right _ _) huint
        have hothers := ih hlengths hoffsets (by omega) (hsub ▸ hrest (by omega))
        rw [if_neg hgo, hsub, hothers, List.take_append, EntryExtent.dataAt, Memory.take_slice,
          Memory.length_slice, Int.toNat_natCast, Nat.min_comm remaining]
        have hrestLength : remaining - min extent.length remaining = remaining - extent.length := by
          omega
        rw [hrestLength]

end Loop

theorem val_dumpFile_eq_delivered (scanner : APFSScanner) (std : ExtentSort) (descriptor : Descriptor)
    (position : Int) (inode : Nat) :
    (dumpFile scanner std descriptor position inode).val.1.1 =
      (dumpFile scanner std descriptor position inode).log.flatMap
        (FileRead.delivered descriptor.bytes) := by
  rcases hentry : scanner.fileSystem.findByInode inode with ⟨entry, fs⟩
  cases entry with
  | none =>
      rw [dumpFile, hentry]
      rfl
  | some entry =>
      rw [val_dumpFile hentry, log_dumpFile hentry, val_dumpExtents_eq_delivered]

-- Whatever the image delivers, what `dumpFile` prints is read back as the bytes it got: none
-- is lost, repeated or moved, and the text says where each buffer was.
theorem dump_reads_back (address : Nat → Nat) (scanner : APFSScanner) (std : ExtentSort)
    (descriptor : Descriptor) (position : Int) (inode : Nat) :
    let dump := dumpFile scanner std descriptor position inode
    let text := dumpText address descriptor.bytes 0 dump.log
    readHexdump text = dump.log.zipIdx.flatMap (fun call =>
      hexdumpRows (address call.2) (call.1.delivered descriptor.bytes)) ∧
    (readHexdump text).flatMap Prod.snd = dump.val.1.1 := by
  intro dump text
  refine ⟨readHexdump_dumpText address descriptor.bytes 0 dump.log, ?_⟩
  rw [bytes_dumpText, val_dumpFile_eq_delivered]

-- A byte that is printed as a digit of the hex columns does not mislead the reader.
example : readHexdump (hexdump 0x1000 [0x34, 0x31, 0x20]) = [(0x1000, [0x34, 0x31, 0x20])] := by
  decide

end SuperBadBlock
