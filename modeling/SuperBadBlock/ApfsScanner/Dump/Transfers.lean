import SuperBadBlock.ApfsScanner.Dump
import SuperBadBlock.FileSystem.Read.Theorems

namespace SuperBadBlock

-- The requests are for the lesser of each extent and what is left, none of them is
-- empty, and at the end nothing is left.
def Untruncated : Nat → List EntryExtent → List Nat → Prop
  | remaining, [], [] => remaining = 0
  | remaining, extent :: extents, count :: counts =>
      count = min extent.length remaining ∧ 0 < count ∧
        Untruncated (remaining - count) extents counts
  | _, _, _ => False

-- One extent of either loop: the count asked for first decides it, and the others
-- matter only behind an untruncated one.
theorem untruncated_cons_iff {extent : EntryExtent} {extents : List EntryExtent}
    {counts : List Nat} {remaining : Nat} {rest : Prop} (hremaining : remaining < 2 ^ 63)
    (hhead : ∀ count ∈ counts.head?, count = extent.request remaining)
    (hrest : min extent.length remaining < 2 ^ 31 → 0 < min extent.length remaining →
      ∃ counts', counts = min extent.length remaining :: counts' ∧
        (Untruncated (remaining - min extent.length remaining) extents counts' ↔ rest)) :
    Untruncated remaining (extent :: extents) counts ↔
      (0 < min extent.length remaining ∧ min extent.length remaining < 2 ^ 31) ∧ rest := by
  by_cases hfits : 0 < min extent.length remaining ∧ min extent.length remaining < 2 ^ 31
  · obtain ⟨counts', rfl, hiff⟩ := hrest hfits.2 hfits.1
    rw [Untruncated, hiff, and_iff_right rfl, and_iff_right hfits.1, and_iff_right hfits]
  · refine iff_of_false (fun h => hfits ?_) (fun h => hfits h.1)
    cases counts with
    | nil => exact h.elim
    | cons count counts =>
        obtain ⟨hmin, hpos, -⟩ := h
        have hrequest := hhead count rfl
        rw [hmin, eq_comm, EntryExtent.request_eq_min_iff hremaining] at hrequest
        exact ⟨hmin ▸ hpos, hrequest⟩

section Loops

variable {length : Nat} {extents : List EntryExtent} {start k : Nat}

theorem untruncated_readExtents_iff {device : Device} {fileBuffer : Memory}
    (hlength : length < 2 ^ 63)
    (htiles : Tiling.Tiles EntryExtent.logicalAddress EntryExtent.length start extents)
    (hcovers : length ≤ start + (extents.map EntryExtent.length).sum)
    (hstarts : ∀ extent ∈ extents, extent.logicalAddress < length)
    (hfull : (readExtents device k extents fileBuffer (length - start)).Within Pread.Full) :
    Untruncated (length - start) extents
        ((readExtents device k extents fileBuffer (length - start)).log.map Pread.count) ↔
      ∀ extent ∈ extents, 0 < extent.length ∧
        min extent.length (length - extent.logicalAddress) < 2 ^ 31 := by
  induction extents generalizing k start fileBuffer with
  | nil =>
      have hend : length - start = 0 := Nat.sub_eq_zero_of_le (by simpa using hcovers)
      exact iff_of_true hend (by simp)
  | cons extent extents ih =>
      obtain ⟨rfl, htiles⟩ := htiles
      obtain ⟨hstart, hstarts⟩ := List.forall_mem_cons.mp hstarts
      rw [List.map_cons, List.sum_cons] at hcovers
      rw [within_readExtents_cons] at hfull
      obtain ⟨hcall, hrest⟩ := hfull
      rw [log_readExtents_cons, List.map_cons, List.forall_mem_cons,
        untruncated_cons_iff (by omega) (by simp [Device.call])]
      · exact and_congr_left' (by omega)
      · intro hfits hpos
        have hanswer := Device.answer_of_full hcall hfits
        have hgo : ¬((min extent.length (length - extent.logicalAddress) : Nat) : Int) ≤ 0 := by omega
        have hnext : length - extent.logicalAddress -
            min extent.length (length - extent.logicalAddress) =
              length - (extent.logicalAddress + extent.length) := by omega
        rw [hanswer, toSizeT_sub (Nat.min_le_right _ _) (by omega), hnext] at hrest ⊢
        have hi := ih htiles (by omega) hstarts (hrest (not_le.mp hgo))
        rw [if_neg hgo]
        exact ⟨_, by rw [Device.call, EntryExtent.request_of_lt hfits], hi⟩

theorem untruncated_dumpExtents_iff {descriptor : Descriptor} {fsOffset currentBlockSize : Nat}
    {position : Int} (hlength : length < 2 ^ 63)
    (htiles : Tiling.Tiles EntryExtent.logicalAddress EntryExtent.length start extents)
    (hcovers : length ≤ start + (extents.map EntryExtent.length).sum)
    (hstarts : ∀ extent ∈ extents, extent.logicalAddress < length)
    (hfull : (dumpExtents descriptor fsOffset currentBlockSize k extents position
      (length - start)).Within FileRead.Full) :
    Untruncated (length - start) extents
        ((dumpExtents descriptor fsOffset currentBlockSize k extents position
          (length - start)).log.map FileRead.count) ↔
      ∀ extent ∈ extents, 0 < extent.length ∧
        min extent.length (length - extent.logicalAddress) < 2 ^ 31 := by
  induction extents generalizing k start position with
  | nil =>
      have hend : length - start = 0 := Nat.sub_eq_zero_of_le (by simpa using hcovers)
      exact iff_of_true hend (by simp)
  | cons extent extents ih =>
      obtain ⟨rfl, htiles⟩ := htiles
      obtain ⟨hstart, hstarts⟩ := List.forall_mem_cons.mp hstarts
      rw [List.map_cons, List.sum_cons] at hcovers
      rw [Traced.Within, log_dumpExtents_cons] at hfull
      rw [log_dumpExtents_cons, List.forall_mem_cons, untruncated_cons_iff (by omega)]
      · exact and_congr_left' (by omega)
      · split_ifs <;> simp [Descriptor.call]
      · intro hfits hpos
        have hreadLen : ¬extent.readLen (length - extent.logicalAddress) < 0 := by
          rw [EntryExtent.readLen_of_lt hfits]
          omega
        rw [if_neg hreadLen, List.forall_mem_cons] at hfull
        obtain ⟨hcall, hrest⟩ := hfull
        have hreturned := Descriptor.returned_of_full hcall hfits
        have hgo : ¬((min extent.length (length - extent.logicalAddress) : Nat) : Int) ≤ 0 := by omega
        have hnext : length - extent.logicalAddress -
            min extent.length (length - extent.logicalAddress) =
              length - (extent.logicalAddress + extent.length) := by omega
        rw [if_neg hreadLen]
        rw [hreturned, toSizeT_sub (Nat.min_le_right _ _) (by omega), hnext, if_neg hgo] at hrest ⊢
        have hi := ih htiles (by omega) hstarts hrest
        exact ⟨_, by rw [List.map_cons, Descriptor.call, EntryExtent.request_of_lt hfits], hi⟩

end Loops

-- Both loops ask for exactly what is left of each extent, exactly when no extent is
-- empty and what each of them has of the file fits an `int`.
theorem transfers_untruncated_iff (scanner : APFSScanner) (inode : Nat) (entry : EntryPtr)
    (fs : FileSystem) (std : ExtentSort) (descriptor : Descriptor) (position : Int)
    (fileBuffer buffer : Memory) (offset : Int) (size : Nat)
    (hentry : scanner.fileSystem.findByInode inode = (some entry, fs))
    (htiles : Tiling.Tiles EntryExtent.logicalAddress EntryExtent.length 0
      (std.sort (fs.heap entry).extents))
    (hcovers : (fs.heap entry).length ≤ ((fs.heap entry).extents.map EntryExtent.length).sum)
    (hend : ((fs.heap entry).extents.map EntryExtent.length).sum < 2 ^ 63)
    (hstarts : ∀ extent ∈ (fs.heap entry).extents, extent.logicalAddress < (fs.heap entry).length)
    (hread : (fs.read std descriptor.toDevice fileBuffer entry buffer offset size).Within Pread.Full)
    (hdump : (dumpFile scanner std descriptor position inode).Within FileRead.Full) :
    let untruncated := ∀ extent ∈ (fs.heap entry).extents, 0 < extent.length ∧
      min extent.length ((fs.heap entry).length - extent.logicalAddress) < 2 ^ 31
    (Untruncated (fs.heap entry).length (std.sort (fs.heap entry).extents)
        ((fs.read std descriptor.toDevice fileBuffer entry buffer offset size).log.map Pread.count) ↔
      untruncated) ∧
    (Untruncated (fs.heap entry).length (std.sort (fs.heap entry).extents)
        ((dumpFile scanner std descriptor position inode).log.map FileRead.count) ↔
      untruncated) := by
  intro untruncated
  have hmem (extent : EntryExtent) :
      extent ∈ std.sort (fs.heap entry).extents ↔ extent ∈ (fs.heap entry).extents :=
    (std.perm _).mem_iff
  have hlength : (fs.heap entry).length < 2 ^ 63 := by omega
  have hstarts' : ∀ extent ∈ std.sort (fs.heap entry).extents,
      extent.logicalAddress < (fs.heap entry).length :=
    fun extent hm => hstarts extent ((hmem extent).mp hm)
  have hcovers' : (fs.heap entry).length ≤
      0 + ((std.sort (fs.heap entry).extents).map EntryExtent.length).sum := by
    rw [Nat.zero_add, ((std.perm (fs.heap entry).extents).map EntryExtent.length).sum_nat]
    exact hcovers
  rw [FileSystem.within_read] at hread
  rw [Traced.Within, log_dumpFile hentry] at hdump
  have hreadIff := untruncated_readExtents_iff hlength htiles hcovers' hstarts' hread
  have hdumpIff := untruncated_dumpExtents_iff hlength htiles hcovers' hstarts' hdump
  simp only [hmem, Nat.sub_zero] at hreadIff hdumpIff
  rw [FileSystem.log_read, log_dumpFile hentry]
  exact ⟨hreadIff, hdumpIff⟩

-- A descriptor that can be moved anywhere and delivers whatever it is asked for, and
-- a scanner with one file.
def wholeDescriptor : Descriptor := { wholeDevice with lseek := fun _ => true }

def scannerOf (entry : Entry) : APFSScanner :=
  { fileSystem := { heap := fun _ => entry, diskEntries := fun _ => some 0 } }

theorem transfers_untruncated_of_twoExtents :
    Untruncated 6 (insertionSort.sort twoExtents.extents)
        (((scannerOf twoExtents).fileSystem.read insertionSort wholeDevice (fun _ => 0) 0
          (fun _ => 0) 0 6).log.map Pread.count) ∧
    Untruncated 6 (insertionSort.sort twoExtents.extents)
        ((dumpFile (scannerOf twoExtents) insertionSort wholeDescriptor 0 16).log.map
          FileRead.count) := by
  have hboth := transfers_untruncated_iff (scannerOf twoExtents) 16 0
    (scannerOf twoExtents).fileSystem insertionSort wholeDescriptor 0 (fun _ => 0) (fun _ => 0) 0 6
    rfl (by decide) (by decide) (by decide) (by decide)
    ((FileSystem.within_read _ _ _ _ _ _ _ _).mpr (full_readExtents_wholeDevice _ _ _ _))
    (by decide +kernel)
  exact ⟨hboth.1.mpr (by decide), hboth.2.mpr (by decide)⟩

-- A file of 2^32 bytes in one extent. Both loops ask for no bytes and end there.
def longFile : Entry := { length := 2 ^ 32, extents := [⟨0, 1, 2 ^ 32⟩] }

theorem long_extent_is_truncated :
    let read := (scannerOf longFile).fileSystem.read insertionSort wholeDevice (fun _ => 0) 0
      (fun _ => 0) 0 4096
    let dump := dumpFile (scannerOf longFile) insertionSort wholeDescriptor 0 16
    read.log.map Pread.count = [0] ∧ dump.log.map FileRead.count = [0] ∧
      read.Within Pread.Full ∧ dump.Within FileRead.Full ∧
      ¬Untruncated longFile.length longFile.extents (read.log.map Pread.count) ∧
      ¬Untruncated longFile.length longFile.extents (dump.log.map FileRead.count) := by
  intro read dump
  have hread : read.log.map Pread.count = [0] := by decide +kernel
  have hdump : dump.log.map FileRead.count = [0] := by decide +kernel
  have hempty : ¬Untruncated longFile.length longFile.extents [0] :=
    fun h => absurd h.2.1 (by decide)
  refine ⟨hread, hdump, ?_, by decide +kernel, by rwa [hread], by rwa [hdump]⟩
  exact (FileSystem.within_read _ _ _ _ _ _ _ _).mpr (full_readExtents_wholeDevice _ _ _ _)

end SuperBadBlock
