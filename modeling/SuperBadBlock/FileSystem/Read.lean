import SuperBadBlock.FileSystem
import SuperBadBlock.Memory
import SuperBadBlock.Lib.Tiling

namespace SuperBadBlock

-- `memcpy(mem + dst, source + src, n)`.
def Memory.copy (mem : Memory) (dst : Int) (source : Memory) (src : Int) (n : Nat) : Memory :=
  fun o => if dst ≤ o ∧ o < dst + n then source (src + (o - dst)) else mem o

-- The `n` bytes from `off` on.
def Memory.slice (mem : Memory) (off : Int) (n : Nat) : List UInt8 :=
  (List.range n).map fun i : Nat => mem (off + i)

-- Conversions to `int`, `off_t`, `ssize_t` and `size_t`.
def toInt (x : Int) : Int := x.bmod (2 ^ 32)

def toOffT (x : Int) : Int := x.bmod (2 ^ 64)

def toSsizeT (x : Int) : Int := x.bmod (2 ^ 64)

def toSizeT (x : Int) : Nat := (x % 2 ^ 64).toNat

-- What is behind the file descriptor: the bytes of the image, and what the `k`-th
-- call of `pread` in a read returns for a count and an offset.
structure Device where
  bytes : Memory
  pread : Nat → Nat → Int → Int

-- One call of `pread`; `dst` is counted from the start of the file buffer.
structure Pread where
  dst : Int
  count : Nat
  off : Int
  returned : Int
deriving DecidableEq

def Pread.Full (call : Pread) : Prop := call.returned = call.count

instance (call : Pread) : Decidable call.Full := inferInstanceAs (Decidable (_ = _))

def Pread.Inside (length : Nat) (call : Pread) : Prop :=
  0 ≤ call.dst ∧ call.dst + call.count ≤ length

-- `pread` stores exactly the bytes it returns.
def Device.preadInto (device : Device) (k : Nat) (fileBuffer : Memory) (dst : Int) (count : Nat)
    (off : Int) : Traced Pread (Int × Memory) :=
  let r := device.pread k count off
  ⟨(r, fileBuffer.copy dst device.bytes off r.toNat), [⟨dst, count, off, r⟩]⟩

def compareOffsets (e1 e2 : EntryExtent) : Bool := e1.logicalAddress < e2.logicalAddress

-- `std::sort` with `compareOffsets`, which may order equal addresses in any way.
structure ExtentSort where
  sort : List EntryExtent → List EntryExtent
  perm : ∀ extents, (sort extents).Perm extents
  sorted : ∀ extents, (sort extents).Pairwise fun e1 e2 => compareOffsets e2 e1 = false

-- The loop over the extents, the next one being the `k`-th; `none` is the early
-- `return 0`.
def readExtents (device : Device) :
    Nat → List EntryExtent → Memory → Nat → Traced Pread (Option Memory)
  | _, [], fileBuffer, _ => pure (some fileBuffer)
  | k, extentIt :: extents, fileBuffer, remaining => do
      let readLen := toInt (min extentIt.length remaining : Nat)
      let off := toOffT (0xc805000 + (extentIt.physicalBlock * 4096 : Nat))
      let (r, fileBuffer) ←
        device.preadInto k fileBuffer extentIt.logicalAddress (toSizeT readLen) off
      if r ≤ 0 then pure none
      else readExtents device (k + 1) extents fileBuffer (toSizeT (remaining - r))

-- `fileBuffer` is what the new array holds before the first `pread`; the array is
-- taken to fit the memory. The sort is done in place. The results are the return
-- value, the caller's buffer and the file system.
def FileSystem.read (fs : FileSystem) (std : ExtentSort) (device : Device) (fileBuffer : Memory)
    (entry : EntryPtr) (buffer : Memory) (offset : Int) (size : Nat) :
    Traced Pread (Int × Memory × FileSystem) := do
  let fs := fs.modify entry fun e => { e with extents := std.sort e.extents }
  let e := fs.heap entry
  let done ← readExtents device 0 e.extents fileBuffer e.length
  match done with
  | none => pure (0, buffer, fs)
  | some fileBuffer =>
      if toSizeT offset < e.length then
        let size := if toSizeT (offset + size) > e.length then toSizeT (e.length - offset) else size
        pure (toSsizeT size, buffer.copy 0 fileBuffer offset size, fs)
      else pure (0, buffer, fs)

-- One of several reads of a file, with what the new array and the caller's
-- buffer hold before it.
structure Piece where
  size : Nat
  fileBuffer : Memory
  buffer : Memory

-- The file read in pieces, each from where the one before ended.
def FileSystem.readPieces (std : ExtentSort) (device : Device) (entry : EntryPtr) :
    FileSystem → Int → List Piece → Traced Pread (List UInt8)
  | _, _, [] => pure []
  | fs, offset, piece :: pieces => do
      let (n, buffer, fs) ←
        fs.read std device piece.fileBuffer entry piece.buffer offset piece.size
      let rest ← readPieces std device entry fs (offset + piece.size) pieces
      pure (buffer.slice 0 n.toNat ++ rest)

-- The image data of one extent.
def EntryExtent.data (image : Memory) (extent : EntryExtent) : List UInt8 :=
  image.slice (0xc805000 + 4096 * extent.physicalBlock) extent.length

-- The bytes of an extent of a container that starts at `fsOffset`.
def EntryExtent.dataAt (image : Memory) (fsOffset currentBlockSize : Nat) (extent : EntryExtent) :
    List UInt8 :=
  image.slice (fsOffset + extent.physicalBlock * currentBlockSize : Nat) extent.length

-- The extents of the entry in logical order: they cover the file without a gap,
-- none is empty or lies behind its end, and `int` and `off_t` hold what `read`
-- computes from them.
structure Entry.Laid (entry : Entry) (layout : List EntryExtent) : Prop where
  perm : layout.Perm entry.extents
  tiles : Tiling.Tiles EntryExtent.logicalAddress EntryExtent.length 0 layout
  covers : entry.length ≤ (layout.map EntryExtent.length).sum
  lengths : ∀ extent ∈ layout, 0 < extent.length ∧ extent.length < 2 ^ 31
  starts : ∀ extent ∈ layout, extent.logicalAddress < entry.length
  offsets : ∀ extent ∈ layout, 0xc805000 + 4096 * extent.physicalBlock < 2 ^ 63
  uint64 : entry.length < 2 ^ 64

end SuperBadBlock
