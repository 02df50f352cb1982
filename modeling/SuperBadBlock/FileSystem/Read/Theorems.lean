import SuperBadBlock.FileSystem.Read.Loop
import Mathlib.Data.List.Sort

namespace SuperBadBlock

namespace Memory

theorem length_slice (mem : Memory) (off : Int) (n : Nat) : (mem.slice off n).length = n := by
  simp [slice]

theorem slice_congr {mem mem' : Memory} {off off' : Int} {n : Nat}
    (h : ∀ i : Nat, i < n → mem (off + i) = mem' (off' + i)) : mem.slice off n = mem'.slice off' n :=
  List.map_congr_left fun i hi => h i (List.mem_range.mp hi)

theorem slice_add (mem : Memory) (off : Int) (m n : Nat) :
    mem.slice off (m + n) = mem.slice off m ++ mem.slice (off + m) n := by
  simp only [slice, List.range_add, List.map_append, List.map_map]
  congr 1
  refine List.map_congr_left fun i _ => ?_
  simp only [Function.comp_apply, Nat.cast_add, Int.add_assoc]

theorem take_slice (mem : Memory) (off : Int) (m n : Nat) :
    (mem.slice off n).take m = mem.slice off (min m n) := by
  rw [slice, ← List.map_take, List.take_range, slice]

theorem drop_slice (mem : Memory) (off : Int) (m n : Nat) :
    (mem.slice off n).drop m = mem.slice (off + m) (n - m) := by
  by_cases hm : m ≤ n
  · obtain ⟨k, rfl⟩ := Nat.exists_eq_add_of_le hm
    rw [slice_add, List.drop_left' (length_slice mem off m), Nat.add_sub_cancel_left]
  · rw [List.drop_eq_nil_of_le (by rw [length_slice]; omega), Nat.sub_eq_zero_of_le (by omega)]
    rfl

theorem slice_copy (mem source : Memory) (dst src : Int) (n : Nat) :
    (mem.copy dst source src n).slice dst n = source.slice src n := by
  refine slice_congr fun i hi => ?_
  rw [copy, if_pos (by omega)]
  congr 1
  omega

theorem copy_of_lt (mem source : Memory) (dst src o : Int) (n : Nat) (h : o < dst) :
    mem.copy dst source src n o = mem o := if_neg (by omega)

end Memory

variable {device : Device}

-- One pass of the loop, with the conversions resolved: `count` bytes are asked
-- for, and when they all come the loop goes on behind them.
theorem readExtents_cons (device : Device) (k : Nat) {extent : EntryExtent} (extents : List EntryExtent)
    (fileBuffer : Memory) {remaining : Nat} (hlength : 0 < extent.length ∧ extent.length < 2 ^ 31)
    (hoffset : 0xc805000 + 4096 * extent.physicalBlock < 2 ^ 63) (hremaining : 0 < remaining)
    (huint : remaining < 2 ^ 64) (P : Pread → Prop) :
    let count := min extent.length remaining
    let off : Int := (0xc805000 + 4096 * extent.physicalBlock : Nat)
    let rest := readExtents device (k + 1) extents
      (fileBuffer.copy extent.logicalAddress device.bytes off count) (remaining - count)
    ((readExtents device k (extent :: extents) fileBuffer remaining).Within P →
      P ⟨extent.logicalAddress, count, off, device.pread k count off⟩) ∧
    (device.pread k count off = count →
      (readExtents device k (extent :: extents) fileBuffer remaining).val = rest.val ∧
      ((readExtents device k (extent :: extents) fileBuffer remaining).Within P ↔
        P ⟨extent.logicalAddress, count, off, count⟩ ∧ rest.Within P)) := by
  intro count off rest
  have hcount : extent.request remaining = count := EntryExtent.request_of_lt (by omega)
  have hoff : extent.imageOffset = off := EntryExtent.imageOffset_of_lt hoffset
  have hanswer : device.answer k extent remaining = device.pread k count off := by
    rw [Device.answer, hcount, hoff]
  simp only [within_readExtents_cons, val_readExtents_cons, Device.call, hcount, hoff, hanswer]
  refine ⟨fun h => h.1, fun hfull => ?_⟩
  have hpos : 0 < (count : Int) := by omega
  have hleft : toSizeT ((remaining : Int) - (count : Int)) = remaining - count :=
    toSizeT_sub (Nat.min_le_right _ _) huint
  rw [hfull, hleft, if_neg (not_le.mpr hpos), Int.toNat_natCast]
  exact ⟨rfl, and_congr_right fun _ => forall_prop_of_true hpos⟩

-- The loop from the extent at `start` on. What is left to read is `length - start`
-- all along, also behind a last extent that reaches past the end of the file.
theorem readExtents_spec (length : Nat) (huint : length < 2 ^ 64) (extents : List EntryExtent)
    (k start : Nat) (fileBuffer : Memory)
    (htiles : Tiling.Tiles EntryExtent.logicalAddress EntryExtent.length start extents)
    (hcovers : length ≤ start + (extents.map EntryExtent.length).sum)
    (hlengths : ∀ extent ∈ extents, 0 < extent.length ∧ extent.length < 2 ^ 31)
    (hstarts : ∀ extent ∈ extents, extent.logicalAddress < length)
    (hoffsets : ∀ extent ∈ extents, 0xc805000 + 4096 * extent.physicalBlock < 2 ^ 63)
    (hfull : (readExtents device k extents fileBuffer (length - start)).Within Pread.Full) :
    (readExtents device k extents fileBuffer (length - start)).Within (Pread.Inside length) ∧
    ∃ result, (readExtents device k extents fileBuffer (length - start)).val = some result ∧
      result.slice start (length - start) =
        (extents.flatMap (EntryExtent.data device.bytes)).take (length - start) ∧
      ∀ o : Int, o < start → result o = fileBuffer o := by
  induction extents generalizing k start fileBuffer with
  | nil =>
      have hend : length - start = 0 := Nat.sub_eq_zero_of_le (by simpa using hcovers)
      rw [hend]
      exact ⟨Traced.within_pure _, fileBuffer, rfl, rfl, fun _ _ => rfl⟩
  | cons extent extents ih =>
      obtain ⟨rfl, htiles⟩ := htiles
      obtain ⟨hlength, hlengths⟩ := List.forall_mem_cons.mp hlengths
      obtain ⟨hstart, hstarts⟩ := List.forall_mem_cons.mp hstarts
      obtain ⟨hoffset, hoffsets⟩ := List.forall_mem_cons.mp hoffsets
      rw [List.map_cons, List.sum_cons] at hcovers
      have hremaining : 0 < length - extent.logicalAddress := by omega
      have hstep := readExtents_cons device k extents fileBuffer hlength hoffset hremaining (by omega)
      have hread := (hstep Pread.Full).1 hfull
      obtain ⟨hval, hinside⟩ := (hstep (Pread.Inside length)).2 hread
      have hrest := (((hstep Pread.Full).2 hread).2.mp hfull).2
      have hleft : length - extent.logicalAddress -
          min extent.length (length - extent.logicalAddress) =
            length - (extent.logicalAddress + extent.length) := by omega
      rw [hleft] at hval hinside hrest
      obtain ⟨hwithin, result, hresult, hslice, hframe⟩ :=
        ih (k + 1) (extent.logicalAddress + extent.length) _ htiles (by omega) hlengths hstarts hoffsets hrest
      refine ⟨hinside.mpr ⟨?_, hwithin⟩, result, hval.trans hresult, ?_, fun o ho => ?_⟩
      · simp only [Pread.Inside]
        omega
      · have hsplit : length - extent.logicalAddress =
            min extent.length (length - extent.logicalAddress) +
              (length - (extent.logicalAddress + extent.length)) := by omega
        have hhead : result.slice extent.logicalAddress
            (min extent.length (length - extent.logicalAddress)) =
              (extent.data device.bytes).take (length - extent.logicalAddress) := by
          rw [Memory.slice_congr fun i hi => hframe (extent.logicalAddress + i) (by omega),
            Memory.slice_copy, EntryExtent.data, Memory.take_slice,
            Nat.min_comm (length - extent.logicalAddress)]
          push_cast
          rfl
        have htail : result.slice (extent.logicalAddress +
            (min extent.length (length - extent.logicalAddress) : Nat))
              (length - (extent.logicalAddress + extent.length)) =
              (extents.flatMap (EntryExtent.data device.bytes)).take
                (length - (extent.logicalAddress + extent.length)) := by
          by_cases hlast : length ≤ extent.logicalAddress + extent.length
          · rw [Nat.sub_eq_zero_of_le hlast, List.take_zero]
            rfl
          · rw [Nat.min_eq_left (by omega), ← hslice, Nat.cast_add]
        rw [List.flatMap_cons, List.take_append, EntryExtent.data, Memory.length_slice,
          Nat.sub_sub, ← htail, ← EntryExtent.data, ← hhead, ← Memory.slice_add, ← hsplit]
      · rw [hframe o (by omega), Memory.copy_of_lt _ _ _ _ _ _ ho]

theorem ExtentSort.ascending (std : ExtentSort) (extents : List EntryExtent) :
    (std.sort extents).Pairwise fun x y => x.logicalAddress ≤ y.logicalAddress := by
  refine (std.sorted extents).imp fun hle => ?_
  simpa [compareOffsets] using hle

section Laid

variable {entry : Entry} {layout : List EntryExtent}

theorem Entry.Laid.sort_eq (h : entry.Laid layout) (std : ExtentSort) :
    std.sort entry.extents = layout :=
  h.tiles.eq_of_sorted (fun extent hm => (h.lengths extent hm).1)
    ((std.perm entry.extents).trans h.perm.symm) (std.ascending entry.extents)

theorem Entry.Laid.sorted (h : entry.Laid layout) (std : ExtentSort) :
    { entry with extents := std.sort entry.extents : Entry }.Laid layout where
  perm := by rw [h.sort_eq std]
  tiles := h.tiles
  covers := h.covers
  lengths := h.lengths
  starts := h.starts
  offsets := h.offsets
  uint64 := h.uint64

end Laid

namespace FileSystem

theorem heap_sorted (fs : FileSystem) (std : ExtentSort) (entry : EntryPtr) :
    (fs.modify entry fun e => { e with extents := std.sort e.extents }).heap entry =
      { fs.heap entry with extents := std.sort (fs.heap entry).extents } :=
  Function.update_self _ _ _

-- The calls of a read are those of its loop.
theorem log_read (fs : FileSystem) (std : ExtentSort) (fileBuffer : Memory) (entry : EntryPtr)
    (buffer : Memory) (offset : Int) (size : Nat) :
    (fs.read std device fileBuffer entry buffer offset size).log =
      (readExtents device 0 (std.sort (fs.heap entry).extents) fileBuffer
        (fs.heap entry).length).log := by
  rw [read, Traced.log_bind, heap_sorted]
  cases (readExtents device 0 (std.sort (fs.heap entry).extents) fileBuffer
      (fs.heap entry).length).val with
  | none => exact List.append_nil _
  | some file => simp only [Traced.log_ite, Traced.log_pure, ite_self, List.append_nil]

theorem within_read (P : Pread → Prop) (fs : FileSystem) (std : ExtentSort)
    (fileBuffer : Memory) (entry : EntryPtr) (buffer : Memory) (offset : Int) (size : Nat) :
    (fs.read std device fileBuffer entry buffer offset size).Within P ↔
      (readExtents device 0 (std.sort (fs.heap entry).extents) fileBuffer
        (fs.heap entry).length).Within P := by
  rw [Traced.Within, log_read, Traced.Within]

-- A loop that stops early reports nothing.
theorem val_read_of_none {fs : FileSystem} {std : ExtentSort} {fileBuffer : Memory}
    {entry : EntryPtr} (buffer : Memory) (offset : Int) (size : Nat)
    (hnone : (readExtents device 0 (std.sort (fs.heap entry).extents) fileBuffer
      (fs.heap entry).length).val = none) :
    (fs.read std device fileBuffer entry buffer offset size).val =
      (0, buffer, fs.modify entry fun e => { e with extents := std.sort e.extents }) := by
  rw [read, Traced.val_bind, heap_sorted, hnone]
  rfl

-- The bytes that a read of `size` bytes from `offset` on delivers.
def readCount (length offset size : Nat) : Nat :=
  if offset < length then min size (length - offset) else 0

-- What `read` delivers once the loop has filled the file buffer.
theorem val_read {fs : FileSystem} {std : ExtentSort} {fileBuffer file : Memory}
    {entry : EntryPtr} (buffer : Memory) {offset size : Nat} (hoffset : offset < 2 ^ 63)
    (hsize : size < 2 ^ 63) (huint : (fs.heap entry).length < 2 ^ 64)
    (hfile : (readExtents device 0 (std.sort (fs.heap entry).extents) fileBuffer
      (fs.heap entry).length).val = some file) :
    (fs.read std device fileBuffer entry buffer offset size).val =
      (((readCount (fs.heap entry).length offset size : Nat) : Int),
        buffer.copy 0 file offset (readCount (fs.heap entry).length offset size),
        fs.modify entry fun e => { e with extents := std.sort e.extents }) := by
  have hcopy : buffer.copy 0 file offset 0 = buffer := by
    funext o
    exact if_neg (by omega)
  have hend : toSizeT ((offset : Int) + (size : Int)) = offset + size := by
    rw [← Nat.cast_add, toSizeT_of_lt (by omega)]
  rw [read, Traced.val_bind, heap_sorted, hfile]
  simp only [Traced.val_ite, Traced.val_pure, toSizeT_of_lt (show offset < 2 ^ 64 by omega), hend,
    readCount]
  by_cases hin : offset < (fs.heap entry).length
  · have hleft : toSizeT (((fs.heap entry).length : Int) - (offset : Int)) =
        (fs.heap entry).length - offset := by
      rw [← Nat.cast_sub hin.le, toSizeT_of_lt (by omega)]
    have hcount : (if offset + size > (fs.heap entry).length then (fs.heap entry).length - offset
        else size) = min size ((fs.heap entry).length - offset) := by
      split_ifs <;> omega
    rw [if_pos hin, if_pos hin, hleft, hcount, toSsizeT_of_lt (by omega)]
  · rw [if_neg hin, if_neg hin, hcopy]
    rfl

theorem read_spec {fs : FileSystem} {entry : EntryPtr} {layout : List EntryExtent}
    (h : (fs.heap entry).Laid layout) (std : ExtentSort) (fileBuffer buffer : Memory)
    {offset size : Nat} (hoffset : offset < 2 ^ 63) (hsize : size < 2 ^ 63)
    (hfull : (fs.read std device fileBuffer entry buffer offset size).Within Pread.Full) :
    let result := fs.read std device fileBuffer entry buffer offset size
    let n := readCount (fs.heap entry).length offset size
    result.Within (Pread.Inside (fs.heap entry).length) ∧
    result.val.1 = n ∧
    result.val.2.1.slice 0 n =
      ((layout.flatMap (EntryExtent.data device.bytes)).drop offset).take n ∧
    result.val.2.2.heap entry =
      { fs.heap entry with extents := std.sort (fs.heap entry).extents } := by
  intro result n
  rw [within_read, h.sort_eq std] at hfull
  obtain ⟨hinside, file, hfile, hslice, -⟩ := readExtents_spec (fs.heap entry).length h.uint64
    layout 0 0 fileBuffer h.tiles (by simpa using h.covers) h.lengths h.starts h.offsets hfull
  have hval : result.val = ((n : Int), buffer.copy 0 file offset n, _) :=
    val_read buffer hoffset hsize h.uint64 (by rw [h.sort_eq std]; exact hfile)
  have hn : min n ((fs.heap entry).length - offset) = n := by
    simp only [n, readCount]
    split_ifs <;> omega
  refine ⟨?_, by rw [hval], ?_, by rw [hval, heap_sorted]⟩
  · rw [within_read, h.sort_eq std]
    exact hinside
  · calc result.val.2.1.slice 0 n
        = file.slice offset n := by rw [hval, Memory.slice_copy]
      _ = ((file.slice 0 (fs.heap entry).length).drop offset).take n := by
          rw [Memory.drop_slice, Memory.take_slice, hn, Int.zero_add]
      _ = ((layout.flatMap (EntryExtent.data device.bytes)).drop offset).take n := by
          rw [Nat.sub_zero, Nat.cast_zero] at hslice
          rw [hslice, List.drop_take, List.take_take, hn]

-- Reads that follow each other deliver consecutive parts of the file.
theorem readPieces_spec {std : ExtentSort} {entry : EntryPtr} {layout : List EntryExtent}
    {length : Nat} (pieces : List Piece) {fs : FileSystem} (h : (fs.heap entry).Laid layout)
    (hlength : (fs.heap entry).length = length) {offset : Nat}
    (hend : offset + (pieces.map Piece.size).sum < 2 ^ 63)
    (hfull : (readPieces std device entry fs offset pieces).Within Pread.Full) :
    (readPieces std device entry fs offset pieces).val =
      (((layout.flatMap (EntryExtent.data device.bytes)).take length).drop offset).take
        (pieces.map Piece.size).sum := by
  induction pieces generalizing fs offset with
  | nil => simp [readPieces]
  | cons piece pieces ih =>
      rw [List.map_cons, List.sum_cons] at hend ⊢
      have hnext : (offset : Int) + (piece.size : Int) = ((offset + piece.size : Nat) : Int) := by
        push_cast
        rfl
      rw [readPieces, Traced.within_bind, hnext, Traced.within_bind] at hfull
      obtain ⟨-, hn, hslice, hentry⟩ := read_spec h std piece.fileBuffer piece.buffer
        (by omega) (by omega) hfull.1
      have hlaid := h.sorted std
      rw [← hentry] at hlaid
      have hrest := ih hlaid (by rw [hentry]; exact hlength) (by omega) hfull.2.1
      have hcount : min piece.size (length - offset) = readCount length offset piece.size := by
        rw [readCount]
        split_ifs <;> omega
      have hpiece : ((layout.flatMap (EntryExtent.data device.bytes)).drop offset).take
          (readCount length offset piece.size) =
            (((layout.flatMap (EntryExtent.data device.bytes)).take length).drop offset).take
              piece.size := by
        rw [List.drop_take, List.take_take, hcount]
      rw [readPieces, Traced.val_bind, hnext, Traced.val_bind, Traced.val_pure]
      rw [hrest, hn, Int.toNat_natCast, hslice, hlength, hpiece, List.take_add, List.drop_drop]

end FileSystem

-- A read delivers exactly the part of the file that was asked for, whatever the
-- order of the stored extents, and a file read in pieces is the file read at once.
theorem read_exact (std : ExtentSort) (device : Device) (fs : FileSystem) (entry : EntryPtr)
    (layout : List EntryExtent) (h : (fs.heap entry).Laid layout) :
    (∀ (fileBuffer buffer : Memory) (offset size : Nat), offset < 2 ^ 63 → size < 2 ^ 63 →
      let result := fs.read std device fileBuffer entry buffer offset size
      let length := (fs.heap entry).length
      let n := if offset < length then min size (length - offset) else 0
      result.Within Pread.Full →
        result.val.1 = n ∧
        result.val.2.1.slice 0 n =
          ((layout.flatMap (EntryExtent.data device.bytes)).drop offset).take n ∧
        result.Within (Pread.Inside length)) ∧
    ∀ (fileBuffer buffer : Memory) (pieces : List Piece),
      (pieces.map Piece.size).sum = (fs.heap entry).length → (fs.heap entry).length < 2 ^ 63 →
      let whole := fs.read std device fileBuffer entry buffer 0 (fs.heap entry).length
      whole.Within Pread.Full → (fs.readPieces std device entry 0 pieces).Within Pread.Full →
        (fs.readPieces std device entry 0 pieces).val =
          whole.val.2.1.slice 0 (fs.heap entry).length := by
  constructor
  · intro fileBuffer buffer offset size hoffset hsize result length n hfull
    obtain ⟨hinside, hn, hslice, -⟩ :=
      FileSystem.read_spec h std fileBuffer buffer hoffset hsize hfull
    exact ⟨hn, hslice, hinside⟩
  · intro fileBuffer buffer pieces hsum hlength whole hwhole hpieces
    have hzero : 0 < 2 ^ 63 := by decide
    obtain ⟨-, -, hslice, -⟩ :=
      FileSystem.read_spec h std fileBuffer buffer hzero hlength hwhole
    have hcount : FileSystem.readCount (fs.heap entry).length 0 (fs.heap entry).length =
        (fs.heap entry).length := by
      rw [FileSystem.readCount]
      split_ifs <;> omega
    have hparts := FileSystem.readPieces_spec pieces h rfl
      (by rw [hsum, Nat.zero_add]; exact hlength) hpieces
    rw [hcount] at hslice
    rw [hsum, List.drop_zero, List.take_take, Nat.min_self] at hparts
    exact hparts.trans hslice.symm

-- A sort by insertion, and a device that delivers whatever it is asked for.
def insertionSort : ExtentSort where
  sort := List.insertionSort fun e1 e2 => e1.logicalAddress ≤ e2.logicalAddress
  perm := List.perm_insertionSort _
  sorted extents := by
    have htotal : Std.Total fun e1 e2 : EntryExtent => e1.logicalAddress ≤ e2.logicalAddress :=
      ⟨fun e1 e2 => Nat.le_total e1.logicalAddress e2.logicalAddress⟩
    have htrans : IsTrans EntryExtent fun e1 e2 => e1.logicalAddress ≤ e2.logicalAddress :=
      ⟨fun _ _ _ => Nat.le_trans⟩
    refine (List.pairwise_insertionSort _ extents).imp fun hle => ?_
    simpa [compareOffsets] using hle

def wholeDevice : Device where
  bytes o := UInt8.ofNat ((o - 0xc805000).toNat / 4096)
  pread _ count _ := count

theorem full_readExtents_wholeDevice (extents : List EntryExtent) (k : Nat) (fileBuffer : Memory)
    (remaining : Nat) :
    (readExtents wholeDevice k extents fileBuffer remaining).Within Pread.Full := by
  induction extents generalizing k fileBuffer remaining with
  | nil => exact Traced.within_pure _
  | cons extent extents ih =>
      have hall (dst : Int) (count : Nat) (off : Int) :
          Pread.Full ⟨dst, count, off, wholeDevice.pread k count off⟩ := rfl
      rw [readExtents, Traced.within_bind, Device.within_preadInto, Traced.within_ite]
      exact ⟨hall _ _ _, fun _ => Traced.within_pure _, fun _ => ih _ _ _⟩

-- Two extents of four bytes stored in reverse order, in a file of six bytes.
def twoExtents : Entry := {
  length := 6
  extents := [{ logicalAddress := 4, physicalBlock := 7, length := 4 },
    { logicalAddress := 0, physicalBlock := 3, length := 4 }] }

theorem sort_twoExtents : insertionSort.sort twoExtents.extents =
    [{ logicalAddress := 0, physicalBlock := 3, length := 4 },
      { logicalAddress := 4, physicalBlock := 7, length := 4 }] := by decide

theorem read_exact_twoExtents :
    (FileSystem.read { heap := fun _ => twoExtents } insertionSort wholeDevice (fun _ => 0) 0
      (fun _ => 0) 2 10).val.2.1.slice 0 4 = [3, 3, 7, 7] := by
  have hlaid : twoExtents.Laid
      [{ logicalAddress := 0, physicalBlock := 3, length := 4 },
        { logicalAddress := 4, physicalBlock := 7, length := 4 }] :=
    ⟨List.Perm.swap _ _ _, by decide, by decide, by decide, by decide, by decide, by decide⟩
  have hfull : (FileSystem.read { heap := fun _ => twoExtents } insertionSort wholeDevice
      (fun _ => 0) 0 (fun _ => 0) 2 10).Within Pread.Full :=
    (FileSystem.within_read _ _ _ _ _ _ _ _).mpr (full_readExtents_wholeDevice _ _ _ _)
  exact ((read_exact insertionSort wholeDevice { heap := fun _ => twoExtents } 0 _ hlaid).1
    (fun _ => 0) (fun _ => 0) 2 10 (by decide) (by decide) hfull).2.1

end SuperBadBlock
