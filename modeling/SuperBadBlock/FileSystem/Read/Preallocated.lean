import SuperBadBlock.FileSystem.Read.Theorems

namespace SuperBadBlock

section Full

variable {device : Device}

-- With full reads an extent is the end of the loop when nothing is asked for, and
-- otherwise the loop goes on behind it.
theorem readExtents_full_cons {k : Nat} {extent : EntryExtent} {extents : List EntryExtent}
    {fileBuffer : Memory} {remaining : Nat} (hlength : extent.length < 2 ^ 31)
    (huint : remaining < 2 ^ 64)
    (hfull : (readExtents device k (extent :: extents) fileBuffer remaining).Within Pread.Full) :
    (min extent.length remaining = 0 →
      (readExtents device k (extent :: extents) fileBuffer remaining).val = none) ∧
    (0 < min extent.length remaining → ∃ file,
      (readExtents device k (extent :: extents) fileBuffer remaining).val =
        (readExtents device (k + 1) extents file (remaining - extent.length)).val ∧
      (readExtents device (k + 1) extents file (remaining - extent.length)).Within Pread.Full) := by
  rw [within_readExtents_cons] at hfull
  obtain ⟨hcall, hrest⟩ := hfull
  have hanswer := Device.answer_of_full hcall (by omega)
  have hleft : toSizeT ((remaining : Int) - (min extent.length remaining : Nat)) =
      remaining - extent.length := by
    rw [toSizeT_sub (Nat.min_le_right _ _) huint]
    omega
  rw [val_readExtents_cons]
  rw [hanswer, hleft] at hrest ⊢
  constructor
  · intro hzero
    rw [if_pos (by omega)]
  · intro hpos
    rw [if_neg (by omega)]
    exact ⟨_, rfl, hrest (by omega)⟩

-- Once the extents so far make up what was left to read, one more extent ends the
-- loop as an error would.
theorem readExtents_exhausted {before : List EntryExtent} {extent : EntryExtent}
    {after : List EntryExtent} {k : Nat} {fileBuffer : Memory} {remaining : Nat}
    (hlengths : ∀ x ∈ before, x.length < 2 ^ 31) (huint : remaining < 2 ^ 64)
    (hsum : remaining ≤ (before.map EntryExtent.length).sum)
    (hfull : (readExtents device k (before ++ extent :: after) fileBuffer remaining).Within
      Pread.Full) :
    (readExtents device k (before ++ extent :: after) fileBuffer remaining).val = none := by
  induction before generalizing k fileBuffer remaining with
  | nil =>
      obtain rfl : remaining = 0 := by simpa using hsum
      rw [List.nil_append] at hfull ⊢
      rw [within_readExtents_cons] at hfull
      rw [val_readExtents_cons, Device.answer_of_full hfull.1 (by simp), if_pos (by simp)]
  | cons x before ih =>
      obtain ⟨hlength, hlengths⟩ := List.forall_mem_cons.mp hlengths
      rw [List.map_cons, List.sum_cons] at hsum
      rw [List.cons_append] at hfull ⊢
      obtain ⟨hstop, hgo⟩ := readExtents_full_cons hlength huint hfull
      rcases Nat.eq_zero_or_pos (min x.length remaining) with hzero | hpos
      · exact hstop hzero
      · obtain ⟨file, hval, hrest⟩ := hgo hpos
        rw [hval]
        exact ih hlengths (by omega) (by omega) hrest

-- An extent of no length ends the loop as well, if the loop gets to it.
theorem readExtents_of_empty_extent {extents : List EntryExtent} {k : Nat} {fileBuffer : Memory}
    {remaining : Nat} (hlengths : ∀ x ∈ extents, x.length < 2 ^ 31) (huint : remaining < 2 ^ 64)
    (hempty : ∃ x ∈ extents, x.length = 0)
    (hfull : (readExtents device k extents fileBuffer remaining).Within Pread.Full) :
    (readExtents device k extents fileBuffer remaining).val = none := by
  induction extents generalizing k fileBuffer remaining with
  | nil => simp at hempty
  | cons x extents ih =>
      obtain ⟨hlength, hlengths⟩ := List.forall_mem_cons.mp hlengths
      obtain ⟨hstop, hgo⟩ := readExtents_full_cons hlength huint hfull
      rcases Nat.eq_zero_or_pos (min x.length remaining) with hzero | hpos
      · exact hstop hzero
      · obtain ⟨file, hval, hrest⟩ := hgo hpos
        rw [hval]
        have hne : x.length ≠ 0 := by omega
        exact ih hlengths (by omega) (((List.exists_mem_cons_iff _ _ _).mp hempty).resolve_left hne) hrest

-- The loop over a tiling runs to its end when no extent is empty or lies behind
-- the end of the file.
theorem readExtents_tiles_eq_none_iff {length : Nat} (huint : length < 2 ^ 64)
    {extents : List EntryExtent} {k start : Nat} {fileBuffer : Memory}
    (htiles : Tiling.Tiles EntryExtent.logicalAddress EntryExtent.length start extents)
    (hlengths : ∀ x ∈ extents, x.length < 2 ^ 31)
    (hfull : (readExtents device k extents fileBuffer (length - start)).Within Pread.Full) :
    (readExtents device k extents fileBuffer (length - start)).val = none ↔
      ∃ x ∈ extents, x.length = 0 ∨ length ≤ x.logicalAddress := by
  induction extents generalizing k start fileBuffer with
  | nil => exact iff_of_false (fun h => nomatch h) (by simp)
  | cons x extents ih =>
      obtain ⟨hlength, hlengths⟩ := List.forall_mem_cons.mp hlengths
      obtain ⟨rfl, htiles⟩ := htiles
      obtain ⟨hstop, hgo⟩ := readExtents_full_cons hlength (by omega) hfull
      rw [List.exists_mem_cons_iff]
      rcases Nat.eq_zero_or_pos (min x.length (length - x.logicalAddress)) with hzero | hpos
      · exact iff_of_true (hstop hzero) (Or.inl (by omega))
      · obtain ⟨file, hval, hrest⟩ := hgo hpos
        rw [Nat.sub_sub] at hval hrest
        rw [hval, ih htiles hlengths hrest, or_iff_right (by omega)]

end Full

-- Two reads return the same value and deliver the same bytes.
def SameResult (read read' : Traced Pread (Int × Memory × FileSystem)) : Prop :=
  read.val.1 = read'.val.1 ∧
    read.val.2.1.slice 0 read.val.1.toNat = read'.val.2.1.slice 0 read'.val.1.toNat

-- The file with other extents.
def FileSystem.withExtents (fs : FileSystem) (entry : EntryPtr) (extents : List EntryExtent) :
    FileSystem :=
  fs.modify entry fun e => { e with extents := extents }

section Extended

variable {fs : FileSystem} {std : ExtentSort} {device : Device} {fileBuffer : Memory}
  {entry : EntryPtr} {extents more : List EntryExtent}

theorem heap_withExtents :
    (fs.withExtents entry extents).heap entry = { fs.heap entry with extents := extents } :=
  Function.update_self _ _ _

-- A loop that runs to its end is followed by a return value of zero only when
-- nothing was asked for within the file.
theorem val_read_eq_zero_iff {file : Memory} (buffer : Memory) (offset : Int) {size : Nat}
    (huint : (fs.heap entry).length < 2 ^ 64) (hsize : size < 2 ^ 64)
    (hfile : (readExtents device 0 (std.sort (fs.heap entry).extents) fileBuffer
      (fs.heap entry).length).val = some file) :
    (fs.read std device fileBuffer entry buffer offset size).val.1 = 0 ↔
      (fs.heap entry).length ≤ toSizeT offset ∨ size = 0 := by
  have hzero {n : Nat} (hn : n < 2 ^ 64) : toSsizeT n = 0 ↔ n = 0 := by
    rw [toSsizeT, Int.bmod_def]
    split_ifs <;> omega
  rw [FileSystem.read, Traced.val_bind, FileSystem.heap_sorted, hfile]
  simp only [Traced.val_ite, Traced.val_pure]
  by_cases hin : toSizeT offset < (fs.heap entry).length
  · have hclamp : toSizeT ((fs.heap entry).length - offset) ≠ 0 ∧
        toSizeT ((fs.heap entry).length - offset) < 2 ^ 64 := by
      rw [toSizeT] at hin ⊢
      omega
    rw [if_pos hin, hzero (by split_ifs <;> omega), or_iff_right (not_le.mpr hin)]
    split_ifs with hend
    · refine iff_of_false hclamp.1 fun hsize => ?_
      rw [hsize, Nat.cast_zero, Int.add_zero] at hend
      omega
    · exact Iff.rfl
  · rw [if_neg hin]
    exact iff_of_true rfl (Or.inl (not_lt.mp hin))

-- With one more extent behind a tiling that covers the file, the loop never runs
-- to its end.
theorem readExtents_extended
    (htiles : Tiling.Tiles EntryExtent.logicalAddress EntryExtent.length 0
      (std.sort (fs.heap entry).extents))
    (hcovers : (fs.heap entry).length ≤ ((fs.heap entry).extents.map EntryExtent.length).sum)
    (hlengths : ∀ x ∈ (fs.heap entry).extents, x.length < 2 ^ 31)
    (huint : (fs.heap entry).length < 2 ^ 64)
    (hperm : extents.Perm ((fs.heap entry).extents ++ more))
    (hmore : Tiling.Tiles EntryExtent.logicalAddress EntryExtent.length
      ((fs.heap entry).extents.map EntryExtent.length).sum more) (hne : more ≠ [])
    (hfull : (readExtents device 0 (std.sort extents) fileBuffer (fs.heap entry).length).Within
      Pread.Full) :
    (readExtents device 0 (std.sort extents) fileBuffer (fs.heap entry).length).val = none := by
  have hsum := ((std.perm (fs.heap entry).extents).map EntryExtent.length).sum_nat
  rw [← hsum] at hcovers hmore
  have hsortPerm : (std.sort extents).Perm (std.sort (fs.heap entry).extents ++ more) :=
    (std.perm extents).trans (hperm.trans ((std.perm _).symm.append_right more))
  obtain ⟨before, after, hsplit, hbefore, hlength, hafter⟩ :=
    htiles.split_of_sorted (by simpa using hmore.start_le) hsortPerm (std.ascending extents)
  obtain ⟨y, after, rfl⟩ : ∃ y rest, after = y :: rest := by
    obtain ⟨x, hx⟩ := List.exists_mem_of_ne_nil more hne
    exact List.exists_cons_of_ne_nil (List.ne_nil_of_mem (hafter x hx))
  rw [hsplit] at hfull ⊢
  refine readExtents_exhausted (fun x hx => ?_) huint (hlength ▸ hcovers) hfull
  exact hlengths x ((std.perm _).mem_iff.mp (hbefore x hx))

-- The same extents stored in another order.
theorem val_readExtents_reordered
    (htiles : Tiling.Tiles EntryExtent.logicalAddress EntryExtent.length 0
      (std.sort (fs.heap entry).extents))
    (hlengths : ∀ x ∈ (fs.heap entry).extents, x.length < 2 ^ 31)
    (huint : (fs.heap entry).length < 2 ^ 64) (hperm : extents.Perm (fs.heap entry).extents)
    (hbase : (readExtents device 0 (std.sort (fs.heap entry).extents) fileBuffer
      (fs.heap entry).length).Within Pread.Full)
    (hfull : (readExtents device 0 (std.sort extents) fileBuffer (fs.heap entry).length).Within
      Pread.Full) :
    (readExtents device 0 (std.sort extents) fileBuffer (fs.heap entry).length).val =
      (readExtents device 0 (std.sort (fs.heap entry).extents) fileBuffer
        (fs.heap entry).length).val := by
  by_cases hempty : ∃ x ∈ (fs.heap entry).extents, x.length = 0
  · -- where an empty extent comes among those at its address makes no difference
    have hnone (sorted : List EntryExtent) (hsorted : sorted.Perm (fs.heap entry).extents)
        (hread : (readExtents device 0 sorted fileBuffer (fs.heap entry).length).Within Pread.Full) :
        (readExtents device 0 sorted fileBuffer (fs.heap entry).length).val = none := by
      obtain ⟨x, hx, hzero⟩ := hempty
      exact readExtents_of_empty_extent (fun y hy => hlengths y (hsorted.mem_iff.mp hy)) huint
        ⟨x, hsorted.mem_iff.mpr hx, hzero⟩ hread
    rw [hnone _ (std.perm _) hbase, hnone _ ((std.perm extents).trans hperm) hfull]
  · have hpos : ∀ x ∈ std.sort (fs.heap entry).extents, 0 < x.length := fun x hx =>
      Nat.pos_of_ne_zero fun hzero => hempty ⟨x, (std.perm _).mem_iff.mp hx, hzero⟩
    rw [htiles.eq_of_sorted hpos ((std.perm extents).trans (hperm.trans (std.perm _).symm))
      (std.ascending extents)]

-- The result depends on the extents only through the loop.
theorem sameResult_of_loop {buffer : Memory} {offset : Int} {size : Nat}
    (h : (readExtents device 0 (std.sort extents) fileBuffer (fs.heap entry).length).val =
      (readExtents device 0 (std.sort (fs.heap entry).extents) fileBuffer
        (fs.heap entry).length).val) :
    SameResult (fs.read std device fileBuffer entry buffer offset size)
      ((fs.withExtents entry extents).read std device fileBuffer entry buffer offset size) := by
  rw [SameResult, FileSystem.read, FileSystem.read, Traced.val_bind, Traced.val_bind,
    FileSystem.heap_sorted, FileSystem.heap_sorted, heap_withExtents]
  dsimp only
  rw [h]
  cases (readExtents device 0 (std.sort (fs.heap entry).extents) fileBuffer
      (fs.heap entry).length).val with
  | none => exact ⟨rfl, rfl⟩
  | some file =>
      dsimp only
      split_ifs <;> exact ⟨rfl, rfl⟩

end Extended

-- More space behind a file changes nothing exactly when there is none, when
-- nothing was asked for within the file, or when an extent of the file is empty or
-- lies behind its end already.
theorem preallocation_harmless_iff (fs : FileSystem) (std : ExtentSort) (device : Device)
    (fileBuffer : Memory) (entry : EntryPtr) (buffer : Memory) (offset : Int) (size : Nat)
    (more extents : List EntryExtent)
    (htiles : Tiling.Tiles EntryExtent.logicalAddress EntryExtent.length 0
      (std.sort (fs.heap entry).extents))
    (hcovers : (fs.heap entry).length ≤ ((fs.heap entry).extents.map EntryExtent.length).sum)
    (hlengths : ∀ x ∈ (fs.heap entry).extents, x.length < 2 ^ 31)
    (huint : (fs.heap entry).length < 2 ^ 64) (hsize : size < 2 ^ 64)
    (hperm : extents.Perm ((fs.heap entry).extents ++ more))
    (hmore : Tiling.Tiles EntryExtent.logicalAddress EntryExtent.length
      ((fs.heap entry).extents.map EntryExtent.length).sum more)
    (hbase : (fs.read std device fileBuffer entry buffer offset size).Within Pread.Full)
    (hextended : ((fs.withExtents entry extents).read std device fileBuffer entry buffer offset
      size).Within Pread.Full) :
    SameResult (fs.read std device fileBuffer entry buffer offset size)
        ((fs.withExtents entry extents).read std device fileBuffer entry buffer offset size) ↔
      more = [] ∨ (fs.heap entry).length ≤ toSizeT offset ∨ size = 0 ∨
        ∃ x ∈ (fs.heap entry).extents, x.length = 0 ∨ (fs.heap entry).length ≤ x.logicalAddress := by
  have hloop := (FileSystem.within_read _ _ _ _ _ _ _ _).mp hbase
  have hloop' := (FileSystem.within_read _ _ _ _ _ _ _ _).mp hextended
  rw [heap_withExtents] at hloop'
  by_cases hmoreNil : more = []
  · subst hmoreNil
    rw [List.append_nil] at hperm
    exact iff_of_true (sameResult_of_loop
      (val_readExtents_reordered htiles hlengths huint hperm hloop hloop')) (Or.inl rfl)
  · have hnone := readExtents_extended htiles hcovers hlengths huint hperm hmore hmoreNil hloop'
    have hzero : ((fs.withExtents entry extents).read std device fileBuffer entry buffer offset
        size).val.1 = 0 := by
      rw [FileSystem.val_read_of_none buffer offset size (by rw [heap_withExtents]; exact hnone)]
    have hsame : SameResult (fs.read std device fileBuffer entry buffer offset size)
        ((fs.withExtents entry extents).read std device fileBuffer entry buffer offset size) ↔
          (fs.read std device fileBuffer entry buffer offset size).val.1 = 0 := by
      rw [SameResult, hzero]
      refine ⟨fun h => h.1, fun h => ⟨h, ?_⟩⟩
      rw [h]
      rfl
    have hbad := readExtents_tiles_eq_none_iff huint htiles
      (fun x hx => hlengths x ((std.perm _).mem_iff.mp hx)) hloop
    simp only [(std.perm _).mem_iff, Nat.sub_zero] at hbad
    rw [hsame, or_iff_right hmoreNil, ← hbad]
    cases hval : (readExtents device 0 (std.sort (fs.heap entry).extents) fileBuffer
        (fs.heap entry).length).val with
    | none =>
        refine iff_of_true ?_ (Or.inr (Or.inr rfl))
        rw [FileSystem.val_read_of_none buffer offset size hval]
    | some file =>
        rw [val_read_eq_zero_iff buffer offset huint hsize hval]
        simp

-- A file of one block, and one more block allocated behind it.
def oneBlock : FileSystem := { heap := fun _ => { length := 4096, extents := [⟨0, 1, 4096⟩] } }

def preallocated : List EntryExtent := [⟨0, 1, 4096⟩, ⟨4096, 2, 4096⟩]

-- Behind the end of the file both reads return zero.
theorem preallocation_harmless_past_end :
    SameResult (oneBlock.read insertionSort wholeDevice (fun _ => 0) 0 (fun _ => 0) 4096 10)
      ((oneBlock.withExtents 0 preallocated).read insertionSort wholeDevice (fun _ => 0) 0
        (fun _ => 0) 4096 10) :=
  (preallocation_harmless_iff oneBlock insertionSort wholeDevice (fun _ => 0) 0 (fun _ => 0) 4096 10
    [⟨4096, 2, 4096⟩] preallocated (by decide) (by decide) (by decide) (by decide) (by decide)
    (List.Perm.refl _) (by decide)
    ((FileSystem.within_read _ _ _ _ _ _ _ _).mpr (full_readExtents_wholeDevice _ _ _ _))
    ((FileSystem.within_read _ _ _ _ _ _ _ _).mpr (full_readExtents_wholeDevice _ _ _ _))).mpr
    (Or.inr (Or.inl (by decide)))

-- A read of the whole file returns its 4096 bytes, or nothing.
theorem preallocated_block_hides_file :
    (oneBlock.read insertionSort wholeDevice (fun _ => 0) 0 (fun _ => 0) 0 4096).val.1 = 4096 ∧
    ((oneBlock.withExtents 0 preallocated).read insertionSort wholeDevice (fun _ => 0) 0
      (fun _ => 0) 0 4096).val.1 = 0 ∧
    ¬SameResult (oneBlock.read insertionSort wholeDevice (fun _ => 0) 0 (fun _ => 0) 0 4096)
      ((oneBlock.withExtents 0 preallocated).read insertionSort wholeDevice (fun _ => 0) 0
        (fun _ => 0) 0 4096) := by
  have hbase : (oneBlock.read insertionSort wholeDevice (fun _ => 0) 0 (fun _ => 0) 0 4096).val.1 =
      4096 := by decide +kernel
  have hextended : ((oneBlock.withExtents 0 preallocated).read insertionSort wholeDevice (fun _ => 0) 0
      (fun _ => 0) 0 4096).val.1 = 0 := by decide +kernel
  refine ⟨hbase, hextended, fun h => ?_⟩
  rw [SameResult, hbase, hextended] at h
  exact absurd h.1 (by decide)

end SuperBadBlock
