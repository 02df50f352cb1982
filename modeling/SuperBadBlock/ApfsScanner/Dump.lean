import SuperBadBlock.ApfsScanner
import SuperBadBlock.FileSystem.Read.Loop

namespace SuperBadBlock

-- An open image. `::read` is `pread` at the position of the descriptor, which
-- `lseek` moves where it succeeds.
structure Descriptor extends Device where
  lseek : Int → Bool

-- One call of `::read`, with the position it is made at.
structure FileRead where
  off : Int
  count : Nat
  returned : Int

def FileRead.Full (call : FileRead) : Prop := call.returned = call.count

instance (call : FileRead) : Decidable call.Full := inferInstanceAs (Decidable (_ = _))

def Descriptor.readAt (descriptor : Descriptor) (k count : Nat) (position : Int) :
    Traced FileRead Int :=
  let r := descriptor.pread k count position
  ⟨r, [⟨position, count, r⟩]⟩

-- The loop of `dumpFile`: the bytes given to `hexdump`, and whether it ends without
-- an exception. `new uint8_t[readLen]` throws for a negative `readLen`.
def dumpExtents (descriptor : Descriptor) (fsOffset currentBlockSize : Nat) :
    Nat → List EntryExtent → Int → Nat → Traced FileRead (List UInt8 × Bool)
  | _, [], _, _ => pure ([], true)
  | k, extentIt :: extents, position, remaining =>
      let readLen := toInt (min extentIt.length remaining : Nat)
      let offset := toOffT (fsOffset + extentIt.physicalBlock * currentBlockSize : Nat)
      let position := if descriptor.lseek offset then offset else position
      if readLen < 0 then pure ([], false)
      else do
        let count := toSizeT readLen
        let r ← descriptor.readAt k count position
        if r ≤ 0 then pure ([], true)
        else do
          let rest ← dumpExtents descriptor fsOffset currentBlockSize (k + 1) extents (position + r)
            (toSizeT (remaining - r))
          pure (descriptor.bytes.slice position r.toNat ++ rest.1, rest.2)

-- The sort is done in place, by the same comparison as in `read`.
def dumpFile (scanner : APFSScanner) (std : ExtentSort) (descriptor : Descriptor) (position : Int)
    (inode : Nat) : Traced FileRead ((List UInt8 × Bool) × APFSScanner) :=
  match scanner.fileSystem.findByInode inode with
  | (none, fs) => pure (([], true), { scanner with fileSystem := fs })
  | (some entry, fs) => do
      let fs := fs.modify entry fun e => { e with extents := std.sort e.extents }
      let e := fs.heap entry
      let dumped ← dumpExtents descriptor scanner.fsOffset scanner.currentBlockSize 0 e.extents
        position e.length
      pure (dumped, { scanner with fileSystem := fs })

-- Where `lseek` is asked to move to, and the position it leaves.
def EntryExtent.dumpOffset (extent : EntryExtent) (fsOffset currentBlockSize : Nat) : Int :=
  toOffT (fsOffset + extent.physicalBlock * currentBlockSize : Nat)

def Descriptor.seek (descriptor : Descriptor) (offset position : Int) : Int :=
  if descriptor.lseek offset then offset else position

-- The `k`-th call of the loop, made at `off`.
def Descriptor.call (descriptor : Descriptor) (k : Nat) (extent : EntryExtent) (remaining : Nat)
    (off : Int) : FileRead where
  off := off
  count := extent.request remaining
  returned := descriptor.pread k (extent.request remaining) off

theorem Descriptor.returned_of_full {descriptor : Descriptor} {k : Nat} {extent : EntryExtent}
    {remaining : Nat} {off : Int} (hfull : (descriptor.call k extent remaining off).Full)
    (hlt : min extent.length remaining < 2 ^ 31) :
    (descriptor.call k extent remaining off).returned = (min extent.length remaining : Nat) := by
  rw [FileRead.Full] at hfull
  rw [hfull, Descriptor.call, EntryExtent.request_of_lt hlt]

theorem log_dumpExtents_cons (descriptor : Descriptor) (fsOffset currentBlockSize k : Nat)
    (extent : EntryExtent) (extents : List EntryExtent) (position : Int) (remaining : Nat) :
    let off := descriptor.seek (extent.dumpOffset fsOffset currentBlockSize) position
    let call := descriptor.call k extent remaining off
    (dumpExtents descriptor fsOffset currentBlockSize k (extent :: extents) position remaining).log =
      if extent.readLen remaining < 0 then []
      else call :: if call.returned ≤ 0 then []
        else (dumpExtents descriptor fsOffset currentBlockSize (k + 1) extents (off + call.returned)
          (toSizeT (remaining - call.returned))).log := by
  intro off call
  rw [dumpExtents]
  change (if extent.readLen remaining < 0 then pure ([], false) else (do
    let r ← descriptor.readAt k (extent.request remaining) off
    if r ≤ 0 then pure ([], true)
    else do
      let rest ← dumpExtents descriptor fsOffset currentBlockSize (k + 1) extents (off + r)
        (toSizeT (remaining - r))
      pure (descriptor.bytes.slice off r.toNat ++ rest.1, rest.2)) : Traced FileRead _).log = _
  rw [Traced.log_ite, Traced.log_pure, Traced.log_bind, Traced.log_ite, Traced.log_pure,
    Traced.log_bind, Traced.log_pure, List.append_nil]
  rfl

-- The calls of `dumpFile` for an inode that has an entry.
theorem log_dumpFile {scanner : APFSScanner} {inode : Nat} {entry : EntryPtr} {fs : FileSystem}
    (hentry : scanner.fileSystem.findByInode inode = (some entry, fs)) (std : ExtentSort)
    (descriptor : Descriptor) (position : Int) :
    (dumpFile scanner std descriptor position inode).log =
      (dumpExtents descriptor scanner.fsOffset scanner.currentBlockSize 0
        (std.sort (fs.heap entry).extents) position (fs.heap entry).length).log := by
  have hsorted : (fs.modify entry fun e => { e with extents := std.sort e.extents }).heap entry =
      { fs.heap entry with extents := std.sort (fs.heap entry).extents } := Function.update_self _ _ _
  rw [dumpFile, hentry]
  dsimp only
  rw [Traced.log_bind, Traced.log_pure, List.append_nil, hsorted]

end SuperBadBlock
