import SuperBadBlock.ApfsScanner.Image
import SuperBadBlock.FileSystem.Read.Theorems
import Mathlib.Data.Int.ConditionallyCompleteOrder
import Mathlib.Order.Interval.Set.Defs

namespace SuperBadBlock

-- The bytes of the file buffer that the call may store to are bytes it has.
def Pread.Contained (length : Nat) (call : Pread) : Prop :=
  Set.Ico call.dst (call.dst + call.count) ⊆ Set.Ico 0 (length : Int)

-- What the calls before the `k`-th have delivered.
def delivered (results : Nat → Int) : Nat → Nat
  | 0 => 0
  | k + 1 => delivered results k + (results k).toNat

-- The extent, reached when `done` bytes of a file have been delivered, leaves
-- nothing to ask for, or as much has been delivered as lies before it, or it ends
-- within the file. From 2^31 bytes on, the part an `int` keeps has to fit.
def EntryExtent.Fits (length done : Nat) (extent : EntryExtent) : Prop :=
  let wanted := min extent.length (length - done)
  wanted = 0 ∨
  (wanted < 2 ^ 31 ∧
    (extent.logicalAddress ≤ done ∨ extent.logicalAddress + extent.length ≤ length)) ∨
  (2 ^ 31 ≤ wanted ∧ wanted % 2 ^ 32 < 2 ^ 31 ∧
    (wanted % 2 ^ 32 = 0 ∨ extent.logicalAddress + wanted % 2 ^ 32 ≤ length))

theorem Pread.contained_iff (length la count : Nat) (off r : Int) :
    Pread.Contained length ⟨la, count, off, r⟩ ↔ count = 0 ∨ la + count ≤ length := by
  rcases Nat.eq_zero_or_pos count with rfl | hcount
  · simp [Contained]
  · rw [Contained, Set.Ico_subset_Ico_iff (by simpa using hcount)]
    simp only
    omega

-- A request lies in the buffer exactly where the extent fits.
theorem contained_call_iff {length done : Nat} (hdone : done ≤ length) (hlength : length < 2 ^ 63)
    (device : Device) (k : Nat) (extent : EntryExtent) :
    (device.call k extent (length - done)).Contained length ↔ extent.Fits length done := by
  rw [Device.call, Pread.contained_iff, EntryExtent.request_eq, EntryExtent.Fits]
  split_ifs <;> omega

-- A request that lies in the buffer asks for no more than what is left.
theorem request_le_of_fits {length done : Nat} (hlength : length < 2 ^ 63) {extent : EntryExtent}
    (h : extent.Fits length done) : extent.request (length - done) ≤ length - done := by
  rw [EntryExtent.request_eq]
  simp only [EntryExtent.Fits] at h
  split_ifs <;> omega

theorem forall_getElem?_cons {α : Type} (P : Nat → α → Prop) (y : α) (ys : List α) :
    (∀ j x, (y :: ys)[j]? = some x → P j x) ↔ P 0 y ∧ ∀ j x, ys[j]? = some x → P (j + 1) x := by
  constructor
  · intro h
    exact ⟨h 0 y rfl, fun j x hx => h (j + 1) x hx⟩
  · rintro ⟨hzero, hsucc⟩ j x hx
    cases j with
    | zero => exact Option.some.inj hx ▸ hzero
    | succ j => exact hsucc j x hx

-- The loop from the `k`-th extent on, with positive answers so far.
theorem contained_readExtents_iff {length : Nat} (hlength : length < 2 ^ 63) (image : Memory)
    (results : Nat → Int) (extents : List EntryExtent) (k : Nat) (fileBuffer : Memory)
    (hpos : ∀ j < k, 0 < results j) (hdone : delivered results k ≤ length)
    (hbounded : (readExtents (.scripted image results) k extents fileBuffer
      (length - delivered results k)).Within Pread.Bounded) :
    (readExtents (.scripted image results) k extents fileBuffer
        (length - delivered results k)).Within (Pread.Contained length) ↔
      ∀ j extent, extents[j]? = some extent → (∀ i < k + j, 0 < results i) →
        extent.Fits length (delivered results (k + j)) := by
  induction extents generalizing k fileBuffer with
  | nil => exact iff_of_true (Traced.within_pure _) (fun _ _ hx => absurd hx (by simp))
  | cons extent extents ih =>
      rw [within_readExtents_cons, Device.answer_scripted] at hbounded ⊢
      obtain ⟨hhere, hrest⟩ := hbounded
      have hhead : ((∀ i < k + 0, 0 < results i) → extent.Fits length (delivered results (k + 0))) ↔
          extent.Fits length (delivered results k) := ⟨fun h => h hpos, fun h _ => h⟩
      rw [contained_call_iff hdone hlength, forall_getElem?_cons
        fun j (x : EntryExtent) =>
          (∀ i < k + j, 0 < results i) → x.Fits length (delivered results (k + j)), hhead]
      refine and_congr_right fun hfits => ?_
      by_cases hr : 0 < results k
      · have hle := request_le_of_fits hlength hfits
        simp only [Pread.Bounded, Device.call, Device.answer_scripted] at hhere
        have hpos' : ∀ j < k + 1, 0 < results j := Nat.forall_lt_succ_right.mpr ⟨hpos, hr⟩
        have hdone' : delivered results (k + 1) ≤ length := by
          rw [delivered]
          omega
        have hleft : toSizeT ((length - delivered results k : Nat) - results k) =
            length - delivered results (k + 1) := by
          rw [delivered, toSizeT]
          omega
        rw [hleft] at hrest ⊢
        have hi := ih (k + 1) _ hpos' hdone' (hrest hr)
        rw [forall_prop_of_true hr, hi]
        simp only [Nat.add_assoc, Nat.add_comm 1]
      · refine iff_of_true (fun h => absurd h hr) (fun j x _ hall => ?_)
        exact absurd (hall k (by omega)) hr

-- Every `pread` of a read lands inside the file buffer exactly when every extent
-- the loop comes to fits the file. No larger array than one of 2^63 bytes exists,
-- so a longer file fails before the first `pread`.
theorem preads_contained_iff (fs : FileSystem) (std : ExtentSort) (image : Memory)
    (results : Nat → Int) (fileBuffer : Memory) (entry : EntryPtr) (buffer : Memory) (offset : Int)
    (size : Nat) (hlength : (fs.heap entry).length < 2 ^ 63)
    (hbounded : (fs.read std (.scripted image results) fileBuffer entry buffer offset size).Within
      Pread.Bounded) :
    (fs.read std (.scripted image results) fileBuffer entry buffer offset size).Within
        (Pread.Contained (fs.heap entry).length) ↔
      ∀ k extent, (std.sort (fs.heap entry).extents)[k]? = some extent →
        (∀ j < k, 0 < results j) →
        extent.Fits (fs.heap entry).length (delivered results k) := by
  rw [FileSystem.within_read] at hbounded ⊢
  have hloop := contained_readExtents_iff hlength image results
    (std.sort (fs.heap entry).extents) 0 fileBuffer (by simp) (Nat.zero_le _) hbounded
  simp only [Nat.zero_add] at hloop
  exact hloop

-- Both extents of a file of six bytes fit, also when the last one reaches past
-- its end.
theorem preads_contained_of_twoExtents :
    (FileSystem.read { heap := fun _ => twoExtents } insertionSort
      (.scripted (fun _ => 0) fun k => if k = 0 then 4 else 2) (fun _ => 0) 0 (fun _ => 0) 0 6).Within
        (Pread.Contained 6) := by
  refine (preads_contained_iff { heap := fun _ => twoExtents } insertionSort (fun _ => 0)
    (fun k => if k = 0 then 4 else 2) (fun _ => 0) 0 (fun _ => 0) 0 6 (by decide)
    (by decide +kernel)).mpr fun k extent hk _ => ?_
  rw [sort_twoExtents] at hk
  match k with
  | 0 =>
      rw [← Option.some.inj hk]
      exact Or.inr (Or.inl (by decide))
  | 1 =>
      rw [← Option.some.inj hk]
      exact Or.inr (Or.inl (by decide))
  | k + 2 => exact absurd hk (by simp)

-- A file of 6000 bytes, the first 4096 of them not allocated. Its extent is
-- rounded up to a whole block.
def sparseFile : List Node :=
  [{ xid := 5, flags := 2, records := [.inode 16 2 (some 6000), .fileExtent 16 ⟨4096, 1, 4096⟩] }]

theorem sparse_file_overruns :
    ∃ entry, (scanBlocks {} (nodeImages sparseFile)).fileSystem.diskEntries 16 = some entry ∧
      let fs := (scanBlocks {} (nodeImages sparseFile)).fileSystem
      let result := fs.read insertionSort (.scripted (fun _ => 0) fun _ => 4096) (fun _ => 0) entry
        (fun _ => 0) 0 6000
      result.Within Pread.Bounded ∧ ¬result.Within (Pread.Contained (fs.heap entry).length) := by
  have hdecodes : ∀ node ∈ sparseFile, nodeOf (nodeImage node) 4096 = node := by
    decide +kernel
  obtain ⟨e, he, hlength, hextents⟩ : ∃ e, (scanBlocks {} (nodeImages sparseFile)).fileSystem.cached 16 =
      some e ∧ e.length = 6000 ∧ e.extents = [⟨4096, 1, 4096⟩] := by
    rw [cached_nodeImages hdecodes]
    exact ⟨_, rfl, by decide, by decide⟩
  obtain ⟨entry, hentry, rfl⟩ := Option.map_eq_some_iff.mp he
  refine ⟨entry, hentry, ?_⟩
  have hsort : insertionSort.sort [⟨4096, 1, 4096⟩] = [⟨4096, 1, 4096⟩] := rfl
  have hrequest : EntryExtent.request ⟨4096, 1, 4096⟩ 6000 = 4096 := by decide
  simp only [FileSystem.within_read, hlength, hextents, hsort, within_readExtents_cons,
    Device.answer_scripted, Device.call, Pread.contained_iff, Pread.Bounded, hrequest]
  refine ⟨⟨by decide, fun _ => Traced.within_pure _⟩, fun h => ?_⟩
  exact absurd h.1 (by decide)

end SuperBadBlock
