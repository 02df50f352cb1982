import SuperBadBlock.FileSystem.Read.Theorems

namespace SuperBadBlock

-- The positions of the file that the extent covers.
def EntryExtent.Maps (extent : EntryExtent) (p : Int) : Prop :=
  extent.logicalAddress ≤ p ∧ p < extent.logicalAddress + extent.length

-- No two extents cover the same position.
def NonOverlapping (extents : List EntryExtent) : Prop :=
  extents.Pairwise fun e1 e2 => ∀ p, ¬(e1.Maps p ∧ e2.Maps p)

-- The byte is what a call stored at position `p`, no later call having stored
-- there, and the call was the one for an extent that covers `p`.
def FromExtent (image : Memory) (extents : List EntryExtent) (calls : List Pread) (p : Int)
    (byte : UInt8) : Prop :=
  ∃ k extent store, extents[k]? = some extent ∧ extent.Maps p ∧
    Stores.LastAt (calls.map (Pread.store image)) p k store ∧ byte = store.data p

-- Each byte a read reports, at position `p` of the file, comes from an extent that
-- covers `p`, or is zero where no extent does, whatever the new array, the
-- caller's buffer and the image hold.
def NoInventedBytes (fs : FileSystem) (std : ExtentSort) (results : Nat → Int) (entry : EntryPtr)
    (offset : Int) (size : Nat) : Prop :=
  ∀ image fileBuffer buffer : Memory,
    let result := fs.read std (.scripted image results) fileBuffer entry buffer offset size
    ∀ i : Nat, i < result.val.1 →
      FromExtent image (std.sort (fs.heap entry).extents) result.log (offset + i)
          (result.val.2.1 i) ∨
        (∀ extent ∈ (fs.heap entry).extents, ¬extent.Maps (offset + i)) ∧ result.val.2.1 i = 0

theorem lt_toSsizeT_iff {n : Nat} (hn : n < 2 ^ 64) (i : Nat) :
    (i : Int) < toSsizeT n ↔ i < n ∧ n < 2 ^ 63 := by
  rw [toSsizeT, Int.bmod_def]
  split_ifs <;> omega

-- The positions a read of `size` bytes from `offset` on reports, when the loop runs
-- to its end.
theorem lt_reported_iff {fs : FileSystem} {std : ExtentSort} {device : Device}
    {fileBuffer file : Memory} {entry : EntryPtr} (buffer : Memory) (offset : Int) (size : Nat)
    (hlength : (fs.heap entry).length < 2 ^ 63) (hoffset : -2 ^ 63 ≤ offset ∧ offset < 2 ^ 63)
    (hsize : size < 2 ^ 64)
    (hfile : (readExtents device 0 (std.sort (fs.heap entry).extents) fileBuffer
      (fs.heap entry).length).val = some file) (i : Nat) :
    (i < (fs.read std device fileBuffer entry buffer offset size).val.1 ↔
      0 ≤ offset ∧ offset + size < 2 ^ 64 ∧ i < size ∧ offset + i < (fs.heap entry).length) ∧
    (i < (fs.read std device fileBuffer entry buffer offset size).val.1 →
      (fs.read std device fileBuffer entry buffer offset size).val.2.1 i = file (offset + i)) := by
  rw [FileSystem.read, Traced.val_bind, FileSystem.heap_sorted, hfile]
  simp only [Traced.val_ite, Traced.val_pure]
  by_cases hin : toSizeT offset < (fs.heap entry).length
  · rw [if_pos hin]
    rw [toSizeT] at hin
    have hclamp : toSizeT ((fs.heap entry).length - offset) = (fs.heap entry).length - offset.toNat := by
      rw [toSizeT]
      omega
    have hend : toSizeT (offset + size) = (offset.toNat + size) % 2 ^ 64 := by
      rw [toSizeT]
      omega
    dsimp only
    rw [hclamp, hend, lt_toSsizeT_iff (by split_ifs <;> omega)]
    refine ⟨?_, fun h => ?_⟩
    · split_ifs <;> omega
    · rw [Memory.copy, if_pos (by omega)]
      congr 1
  · rw [if_neg hin]
    rw [toSizeT] at hin
    dsimp only
    exact ⟨iff_of_false (by omega) (by omega), fun h => absurd h (by omega)⟩

-- A sequence of results lets the loop run to its end when all of them are positive.
theorem readExtents_scripted_eq_none_iff (image : Memory) (results : Nat → Int)
    (extents : List EntryExtent) (k : Nat) (fileBuffer : Memory) (remaining : Nat) :
    (readExtents (.scripted image results) k extents fileBuffer remaining).val = none ↔
      ∃ j < extents.length, results (k + j) ≤ 0 := by
  induction extents generalizing k fileBuffer remaining with
  | nil => exact iff_of_false (fun h => nomatch h) (by simp)
  | cons extent extents ih =>
      rw [val_readExtents_cons, Device.answer_scripted, List.length_cons]
      by_cases hr : results k ≤ 0
      · rw [if_pos hr]
        exact iff_of_true rfl ⟨0, Nat.succ_pos _, hr⟩
      · rw [if_neg hr, ih]
        constructor
        · rintro ⟨j, hj, hle⟩
          exact ⟨j + 1, Nat.succ_lt_succ hj, by rwa [← Nat.add_assoc, Nat.add_right_comm]⟩
        · rintro ⟨j, hj, hle⟩
          cases j with
          | zero => exact absurd hle hr
          | succ j =>
              exact ⟨j, Nat.lt_of_succ_lt_succ hj, by rwa [Nat.add_right_comm, Nat.add_assoc]⟩

section Sources

variable {image : Memory} {results : Nat → Int} {extents : List EntryExtent}
  {fileBuffer file : Memory} {remaining : Nat}

-- Between disjoint extents in ascending order no later call reaches a position
-- that an extent covers.
theorem not_covers_of_lt {p : Int} {k j : Nat} {first later : EntryExtent}
    (hsorted : extents.Pairwise fun e1 e2 => compareOffsets e2 e1 = false)
    (hoverlap : NonOverlapping extents) (hkj : k < j) (hfirst : extents[k]? = some first)
    (hlater : extents[j]? = some later) (hmaps : first.Maps p) (hlength : 0 < later.length) :
    p < later.logicalAddress := by
  obtain ⟨hk, rfl⟩ := List.getElem?_eq_some_iff.mp hfirst
  obtain ⟨hj, rfl⟩ := List.getElem?_eq_some_iff.mp hlater
  have hle := List.pairwise_iff_getElem.mp hsorted k j hk hj hkj
  have hno := List.pairwise_iff_getElem.mp hoverlap k j hk hj hkj extents[j].logicalAddress
  simp only [compareOffsets, decide_eq_false_iff_not, EntryExtent.Maps] at *
  omega

-- A byte from an extent lies in the part its call delivered.
theorem FromExtent.delivered {p : Int} {byte : UInt8}
    (h : FromExtent image extents
      (readExtents (.scripted image results) 0 extents fileBuffer remaining).log p byte) :
    ∃ k extent, extents[k]? = some extent ∧ extent.Maps p ∧
      p < extent.logicalAddress + results k := by
  obtain ⟨k, extent, store, hk, hmaps, ⟨hstore, hcovers, -⟩, -⟩ := h
  rw [List.getElem?_map] at hstore
  obtain ⟨call, hcall, rfl⟩ := Option.map_eq_some_iff.mp hstore
  obtain ⟨x, left, hx, rfl⟩ := call_of_getElem?_log hcall
  rw [Nat.zero_add] at hcovers
  obtain rfl := Option.some.inj (hk.symm.trans hx)
  refine ⟨k, extent, hk, hmaps, ?_⟩
  have hend := hcovers.2
  simp only [Pread.store, Device.call, Device.answer_scripted] at hend
  have hlo := hmaps.1
  omega

-- Between disjoint extents the byte that the loop leaves at such a position is the
-- one from the extent.
theorem fromExtent_of_delivered {p : Int} {k : Nat} {extent : EntryExtent}
    (hsorted : extents.Pairwise fun e1 e2 => compareOffsets e2 e1 = false)
    (hoverlap : NonOverlapping extents)
    (hbounded : (readExtents (.scripted image results) 0 extents fileBuffer remaining).Within
      Pread.Bounded)
    (hfile : (readExtents (.scripted image results) 0 extents fileBuffer remaining).val = some file)
    (hk : extents[k]? = some extent) (hmaps : extent.Maps p)
    (hend : p < extent.logicalAddress + results k) :
    FromExtent image extents
      (readExtents (.scripted image results) 0 extents fileBuffer remaining).log p (file p) := by
  obtain ⟨hlength, hstores⟩ := readExtents_completed hfile
  obtain ⟨hlt, -⟩ := List.getElem?_eq_some_iff.mp hk
  obtain ⟨call, hcall⟩ : ∃ call, (readExtents (.scripted image results) 0 extents fileBuffer
      remaining).log[k]? = some call :=
    ⟨_, List.getElem?_eq_getElem (hlength ▸ hlt)⟩
  obtain ⟨x, left, hx, heq⟩ := call_of_getElem?_log hcall
  rw [Nat.zero_add] at heq
  obtain rfl := Option.some.inj (hk.symm.trans hx)
  have hlast : Stores.LastAt ((readExtents (.scripted image results) 0 extents fileBuffer
      remaining).log.map (Pread.store image)) p k (call.store image) := by
    refine ⟨by rw [List.getElem?_map, hcall]; rfl, ?_, fun j store hkj hj hcovers => ?_⟩
    · rw [heq]
      simp only [Stores.Store.Covers, Pread.store, Device.call, Device.answer_scripted]
      have hlo := hmaps.1
      omega
    · rw [List.getElem?_map] at hj
      obtain ⟨later, hlater, rfl⟩ := Option.map_eq_some_iff.mp hj
      obtain ⟨y, left', hy, rfl⟩ := call_of_getElem?_log hlater
      rw [Nat.zero_add] at hlater hcovers
      have hle := hbounded _ (List.mem_of_getElem? hlater)
      simp only [Stores.Store.Covers, Pread.store, Pread.Bounded, Device.call,
        Device.answer_scripted] at hcovers hle
      -- a call that stores something was made for an extent that is not empty
      have hpos : 0 < y.length := by
        apply Nat.pos_of_ne_zero
        intro hzero
        rw [EntryExtent.request_of_lt (by rw [hzero]; omega), hzero] at hle
        omega
      have hbefore := not_covers_of_lt hsorted hoverlap hkj hk hy hmaps hpos
      omega
  have hbyte : file p = (call.store image).data p := by
    rw [hstores]
    exact hlast.applyAll_eq fileBuffer
  exact ⟨k, extent, call.store image, hk, hmaps, hlast, hbyte⟩

-- Nothing but ones in the image and the new array leaves nothing but ones.
theorem ones_of_completed {file : Memory}
    (h : (readExtents (.scripted (fun _ => 1) results) 0 extents (fun _ => 1) remaining).val =
      some file) (p : Int) : file p = 1 := by
  obtain ⟨-, hstores⟩ := readExtents_completed h
  rw [hstores]
  rcases Stores.applyAll_cases (fun _ => 1) ((readExtents (.scripted (fun _ => 1) results) 0 extents
    (fun _ => 1) remaining).log.map (Pread.store fun _ => 1)) p with ⟨k, s, hlast, happly⟩ | ⟨-, happly⟩
  · obtain ⟨call, -, rfl⟩ := List.mem_map.mp (List.mem_of_getElem? hlast.1)
    exact happly
  · exact happly

end Sources

section Reads

variable {fs : FileSystem} {std : ExtentSort} {results : Nat → Int} {entry : EntryPtr}
  {offset : Int} {size : Nat}

theorem readExtents_sort_eq_none_iff (image fileBuffer : Memory) :
    (readExtents (.scripted image results) 0 (std.sort (fs.heap entry).extents) fileBuffer
        (fs.heap entry).length).val = none ↔
      ∃ k < (fs.heap entry).extents.length, results k ≤ 0 := by
  have hcount := (std.perm (fs.heap entry).extents).length_eq
  have hnone := readExtents_scripted_eq_none_iff image results
    (std.sort (fs.heap entry).extents) 0 fileBuffer (fs.heap entry).length
  simp only [Nat.zero_add, hcount] at hnone
  exact hnone

theorem NoInventedBytes.delivered (h : NoInventedBytes fs std results entry offset size)
    (hlength : (fs.heap entry).length < 2 ^ 63) (hoffset : 0 ≤ offset ∧ offset < 2 ^ 63)
    (hsize : offset + size < 2 ^ 64)
    (hpos : ¬∃ k < (fs.heap entry).extents.length, results k ≤ 0) {p : Int} (hlo : offset ≤ p)
    (hhi : p < offset + size) (hend : p < (fs.heap entry).length) :
    ∃ k extent, (std.sort (fs.heap entry).extents)[k]? = some extent ∧ extent.Maps p ∧
      p < extent.logicalAddress + results k := by
  -- an image and a new array without a zero in them
  rw [← readExtents_sort_eq_none_iff (fun _ => 1) (fun _ => 1)] at hpos
  obtain ⟨file, hfile⟩ := Option.ne_none_iff_exists'.mp hpos
  have hp : offset + ((p - offset).toNat : Nat) = p := by omega
  obtain ⟨hreported, hbyte⟩ := lt_reported_iff (fun _ => 0) offset size hlength (by omega)
    (by omega) hfile (p - offset).toNat
  rw [hp] at hreported hbyte
  have hi := hreported.mpr ⟨by omega, by omega, by omega, hend⟩
  rcases h (fun _ => 1) (fun _ => 1) (fun _ => 0) (p - offset).toNat hi with hfrom | ⟨-, hzero⟩
  · rw [hp, FileSystem.log_read] at hfrom
    exact hfrom.delivered
  · rw [hbyte hi, ones_of_completed hfile p] at hzero
    exact absurd hzero (by decide)

end Reads

-- Read bytes are never invented exactly when nothing is reported, or no position
-- that was asked for lies between the extents or behind what the call for its
-- extent delivered. Where `offset + size` wraps, `size` is above 2^63 and stays as it
-- is: `memcpy` is then asked for more bytes than a caller's buffer can have, and the
-- return value is negative.
theorem no_invented_bytes_iff (fs : FileSystem) (std : ExtentSort) (results : Nat → Int)
    (entry : EntryPtr) (offset : Int) (size : Nat) (hlength : (fs.heap entry).length < 2 ^ 63)
    (hoffset : -2 ^ 63 ≤ offset ∧ offset < 2 ^ 63) (hsize : size < 2 ^ 64)
    (hoverlap : NonOverlapping (fs.heap entry).extents)
    (hbounded : ∀ image fileBuffer buffer : Memory,
      (fs.read std (.scripted image results) fileBuffer entry buffer offset size).Within
        Pread.Bounded) :
    NoInventedBytes fs std results entry offset size ↔
      (∃ k < (fs.heap entry).extents.length, results k ≤ 0) ∨ offset < 0 ∨ 2 ^ 64 ≤ offset + size ∨
        ∀ p, offset ≤ p → p < offset + size → p < (fs.heap entry).length →
          ∃ k extent, (std.sort (fs.heap entry).extents)[k]? = some extent ∧ extent.Maps p ∧
            p < extent.logicalAddress + results k := by
  constructor
  · intro h
    exact or_iff_not_imp_left.mpr fun hpos => or_iff_not_imp_left.mpr fun hneg =>
      or_iff_not_imp_left.mpr fun hwrap p hlo hhi hend =>
        h.delivered hlength (by omega) (by omega) hpos hlo hhi hend
  · intro h image fileBuffer buffer result i hi
    cases hval : (readExtents (.scripted image results) 0 (std.sort (fs.heap entry).extents)
        fileBuffer (fs.heap entry).length).val with
    | none =>
        have hzero : result.val.1 = 0 := by rw [FileSystem.val_read_of_none buffer offset size hval]
        omega
    | some file =>
        obtain ⟨hreported, hbyte⟩ := lt_reported_iff buffer offset size hlength hoffset hsize hval i
        obtain ⟨hneg, hwrap, hsize', hend⟩ := hreported.mp hi
        have hpos : ¬∃ k < (fs.heap entry).extents.length, results k ≤ 0 := by
          rw [← readExtents_sort_eq_none_iff image fileBuffer, hval]
          exact Option.some_ne_none file
        obtain ⟨k, extent, hk, hmaps, hlt⟩ := ((h.resolve_left hpos).resolve_left
          (by omega)).resolve_left (by omega) (offset + i) (by omega) (by omega) hend
        left
        rw [FileSystem.log_read, hbyte hi]
        refine fromExtent_of_delivered (std.sorted _) ?_ ?_ hval hk hmaps hlt
        · exact hoverlap.perm (std.perm _).symm fun hno p hp => hno p hp.symm
        · exact (FileSystem.within_read _ _ _ _ _ _ _ _).mp (hbounded image fileBuffer buffer)

-- A read from the middle of two extents that are delivered as asked for.
theorem no_invented_bytes_of_twoExtents :
    NoInventedBytes { heap := fun _ => twoExtents } insertionSort (fun k => if k = 0 then 4 else 2) 0
      2 10 := by
  refine (no_invented_bytes_iff { heap := fun _ => twoExtents } insertionSort
    (fun k => if k = 0 then 4 else 2) 0 2 10 (by decide) (by decide) (by decide) ?_ ?_).mpr ?_
  · refine List.pairwise_pair.mpr fun p hp => ?_
    simp only [EntryExtent.Maps] at hp
    omega
  · intro image fileBuffer buffer
    rw [FileSystem.within_read, sort_twoExtents]
    have hlength : twoExtents.length = 6 := rfl
    simp only [hlength, within_readExtents_cons, Device.answer_scripted, Pread.Bounded, Device.call]
    exact ⟨by decide, fun _ => ⟨by decide, fun _ => Traced.within_pure _⟩⟩
  · refine Or.inr (Or.inr (Or.inr fun p hlo hhi hend => ?_))
    have hlast : p < 6 := hend
    rw [sort_twoExtents]
    rcases lt_or_ge p 4 with hp | hp
    · refine ⟨0, _, rfl, ?_, ?_⟩
      · simp only [EntryExtent.Maps]
        omega
      · simp only [if_true]
        omega
    · refine ⟨1, _, rfl, ?_, ?_⟩
      · simp only [EntryExtent.Maps]
        omega
      · simp only [one_ne_zero, if_false]
        omega

-- A file of 8192 bytes with only its first half allocated, and a read from the
-- second half; and a file of 4096 bytes of which the image delivers 512.
theorem gap_and_short_read_invent :
    ¬NoInventedBytes { heap := fun _ => { length := 8192, extents := [⟨0, 1, 4096⟩] } } insertionSort
      (fun _ => 4096) 0 4096 1 ∧
    ¬NoInventedBytes { heap := fun _ => { length := 4096, extents := [⟨0, 1, 4096⟩] } } insertionSort
      (fun _ => 512) 0 1000 1 := by
  have hsingle : insertionSort.sort [⟨0, 1, 4096⟩] = [⟨0, 1, 4096⟩] := rfl
  constructor
  · intro h
    obtain ⟨k, extent, hk, hmaps, -⟩ := h.delivered (p := 4096) (by decide) (by decide) (by decide)
      (by simp) (by decide) (by decide) (by decide)
    rw [hsingle] at hk
    rw [List.mem_singleton.mp (List.mem_of_getElem? hk)] at hmaps
    exact absurd hmaps.2 (by decide)
  · intro h
    obtain ⟨k, extent, hk, -, hlt⟩ := h.delivered (p := 1000) (by decide) (by decide) (by decide)
      (by simp) (by decide) (by decide) (by decide)
    rw [hsingle] at hk
    rw [List.mem_singleton.mp (List.mem_of_getElem? hk)] at hlt
    exact absurd hlt (by decide)

end SuperBadBlock
