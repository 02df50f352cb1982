import SuperBadBlock.ApfsScanner.Dump.Transfers
import SuperBadBlock.ApfsScanner.Container

namespace SuperBadBlock

theorem Device.full_call_iff {device : Device} {k : Nat} {extent : EntryExtent} {remaining : Nat} :
    (device.call k extent remaining).Full ↔
      device.answer k extent remaining = extent.request remaining := by
  simp only [Pread.Full, Device.call]

theorem Descriptor.full_call_iff {descriptor : Descriptor} {k : Nat} {extent : EntryExtent}
    {remaining : Nat} {off : Int} :
    (descriptor.call k extent remaining off).Full ↔
      (descriptor.call k extent remaining off).returned = extent.request remaining := by
  simp only [FileRead.Full, Descriptor.call]

section Loops

variable {descriptor : Descriptor} {fsOffset currentBlockSize : Nat}

theorem full_dump_cons {k : Nat} {extent : EntryExtent} {extents : List EntryExtent} {position : Int}
    {remaining : Nat} (hnonneg : ¬extent.readLen remaining < 0)
    (h : (dumpExtents descriptor fsOffset currentBlockSize k (extent :: extents) position
      remaining).Within FileRead.Full) :
    let off := descriptor.seek (extent.dumpOffset fsOffset currentBlockSize) position
    (descriptor.call k extent remaining off).returned = extent.request remaining ∧
      (0 < extent.request remaining →
        (dumpExtents descriptor fsOffset currentBlockSize (k + 1) extents
          (off + extent.request remaining)
          (toSizeT (remaining - extent.request remaining))).Within FileRead.Full) := by
  intro off
  rw [Traced.Within, log_dumpExtents_cons, if_neg hnonneg, List.forall_mem_cons] at h
  obtain ⟨hcall, hrest⟩ := h
  have hreturned := Descriptor.full_call_iff.mp hcall
  refine ⟨hreturned, fun hpos => ?_⟩
  rw [hreturned, if_neg (by omega)] at hrest
  exact hrest

theorem val_dumpExtents_cons (k : Nat) (extent : EntryExtent) (extents : List EntryExtent)
    (position : Int) (remaining : Nat) (hnonneg : ¬extent.readLen remaining < 0) :
    let off := descriptor.seek (extent.dumpOffset fsOffset currentBlockSize) position
    let call := descriptor.call k extent remaining off
    (dumpExtents descriptor fsOffset currentBlockSize k (extent :: extents) position remaining).val =
      if call.returned ≤ 0 then ([], true)
      else
        let rest := (dumpExtents descriptor fsOffset currentBlockSize (k + 1) extents
          (off + call.returned) (toSizeT (remaining - call.returned))).val
        (descriptor.bytes.slice off call.returned.toNat ++ rest.1, rest.2) := by
  intro off call
  rw [dumpExtents]
  change (if extent.readLen remaining < 0 then pure ([], false) else (do
    let r ← descriptor.readAt k (extent.request remaining) off
    if r ≤ 0 then pure ([], true)
    else do
      let rest ← dumpExtents descriptor fsOffset currentBlockSize (k + 1) extents (off + r)
        (toSizeT (remaining - r))
      pure (descriptor.bytes.slice off r.toNat ++ rest.1, rest.2)) : Traced FileRead _).val = _
  rw [if_neg hnonneg, Traced.val_bind, Traced.val_ite, Traced.val_pure, Traced.val_bind,
    Traced.val_pure]
  rfl

-- What a call of `pread` stored in the file buffer.
def Pread.delivered (image : Memory) (call : Pread) : List UInt8 :=
  image.slice call.off call.returned.toNat

end Loops

theorem val_dumpFile {scanner : APFSScanner} {inode : Nat} {entry : EntryPtr} {fs : FileSystem}
    (hentry : scanner.fileSystem.findByInode inode = (some entry, fs)) (std : ExtentSort)
    (descriptor : Descriptor) (position : Int) :
    (dumpFile scanner std descriptor position inode).val.1 =
      (dumpExtents descriptor scanner.fsOffset scanner.currentBlockSize 0
        (std.sort (fs.heap entry).extents) position (fs.heap entry).length).val := by
  have hsorted : (fs.modify entry fun e => { e with extents := std.sort e.extents }).heap entry =
      { fs.heap entry with extents := std.sort (fs.heap entry).extents } := Function.update_self _ _ _
  rw [dumpFile, hentry]
  dsimp only
  rw [Traced.val_bind, Traced.val_pure, hsorted]

def fileEntry : Entry :=
  { inode := 16, parentId := 2, versionId := 7, length := 4096, extents := [⟨0, 5, 4096⟩],
    extentVersionId := 7, isNew := false }

end SuperBadBlock
