import SuperBadBlock.FileSystem.Read
import SuperBadBlock.Lib.Stores

namespace SuperBadBlock

theorem toInt_of_lt {n : Nat} (h : n < 2 ^ 31) : toInt n = n := by
  rw [toInt]
  exact Int.bmod_eq_of_le (by omega) (by omega)

theorem toOffT_of_lt {n : Nat} (h : n < 2 ^ 63) : toOffT n = n := by
  rw [toOffT]
  exact Int.bmod_eq_of_le (by omega) (by omega)

theorem toSsizeT_of_lt {n : Nat} (h : n < 2 ^ 63) : toSsizeT n = n := toOffT_of_lt h

theorem toSizeT_of_lt {n : Nat} (h : n < 2 ^ 64) : toSizeT n = n := by
  rw [toSizeT]
  omega

-- A conversion to `int` keeps the residue, as a number from -2^31 on.
theorem toInt_eq (n : Nat) :
    toInt n = if n % 2 ^ 32 < 2 ^ 31 then ((n % 2 ^ 32 : Nat) : Int)
      else ((n % 2 ^ 32 : Nat) : Int) - 2 ^ 32 := by
  rw [toInt, Int.bmod_def]
  split_ifs <;> omega

-- The loop subtracts what it got from what was left.
theorem toSizeT_sub {m n : Nat} (hle : n ≤ m) (hm : m < 2 ^ 64) :
    toSizeT ((m : Int) - (n : Int)) = m - n := by
  rw [← Nat.cast_sub hle, toSizeT_of_lt (by omega)]

-- `readLen`, the count it is converted to, and where in the image the extent starts.
def EntryExtent.readLen (extent : EntryExtent) (remaining : Nat) : Int :=
  toInt (min extent.length remaining : Nat)

def EntryExtent.request (extent : EntryExtent) (remaining : Nat) : Nat :=
  toSizeT (extent.readLen remaining)

def EntryExtent.imageOffset (extent : EntryExtent) : Int :=
  toOffT (0xc805000 + (extent.physicalBlock * 4096 : Nat))

theorem EntryExtent.readLen_of_lt {extent : EntryExtent} {remaining : Nat}
    (h : min extent.length remaining < 2 ^ 31) :
    extent.readLen remaining = (min extent.length remaining : Nat) := toInt_of_lt h

theorem EntryExtent.request_of_lt {extent : EntryExtent} {remaining : Nat}
    (h : min extent.length remaining < 2 ^ 31) :
    extent.request remaining = min extent.length remaining := by
  rw [request, readLen_of_lt h, toSizeT_of_lt (by omega)]

theorem EntryExtent.request_eq (extent : EntryExtent) (remaining : Nat) :
    extent.request remaining =
      if min extent.length remaining % 2 ^ 32 < 2 ^ 31 then min extent.length remaining % 2 ^ 32
      else 2 ^ 64 - 2 ^ 32 + min extent.length remaining % 2 ^ 32 := by
  rw [request, readLen, toInt_eq]
  split_ifs
  · exact toSizeT_of_lt (by omega)
  · rw [toSizeT]
    omega

-- The request is the minimum exactly where the minimum fits an `int`.
theorem EntryExtent.request_eq_min_iff {extent : EntryExtent} {remaining : Nat}
    (h : remaining < 2 ^ 63) :
    extent.request remaining = min extent.length remaining ↔
      min extent.length remaining < 2 ^ 31 := by
  refine ⟨fun heq => ?_, request_of_lt⟩
  rw [request_eq] at heq
  split_ifs at heq <;> omega

theorem EntryExtent.imageOffset_of_lt {extent : EntryExtent}
    (h : 0xc805000 + 4096 * extent.physicalBlock < 2 ^ 63) :
    extent.imageOffset = (0xc805000 + 4096 * extent.physicalBlock : Nat) := by
  rw [imageOffset, ← toOffT_of_lt h]
  congr 1
  push_cast
  ring

@[simp] theorem Device.val_preadInto (device : Device) (k : Nat) (fileBuffer : Memory) (dst : Int)
    (count : Nat) (off : Int) :
    (device.preadInto k fileBuffer dst count off).val =
      (device.pread k count off,
        fileBuffer.copy dst device.bytes off (device.pread k count off).toNat) := (rfl)

@[simp] theorem Device.log_preadInto (device : Device) (k : Nat) (fileBuffer : Memory) (dst : Int)
    (count : Nat) (off : Int) :
    (device.preadInto k fileBuffer dst count off).log =
      [⟨dst, count, off, device.pread k count off⟩] := (rfl)

@[simp] theorem Device.within_preadInto (P : Pread → Prop) (device : Device) (k : Nat)
    (fileBuffer : Memory) (dst : Int) (count : Nat) (off : Int) :
    (device.preadInto k fileBuffer dst count off).Within P ↔
      P ⟨dst, count, off, device.pread k count off⟩ := by
  simp [Traced.Within, Device.preadInto]

-- What the `k`-th call of `pread` returns when `remaining` bytes are left.
def Device.answer (device : Device) (k : Nat) (extent : EntryExtent) (remaining : Nat) : Int :=
  device.pread k (extent.request remaining) extent.imageOffset

-- A device whose calls of `pread` have the given results, one after the other.
def Device.scripted (image : Memory) (results : Nat → Int) : Device where
  bytes := image
  pread k _ _ := results k

@[simp] theorem Device.answer_scripted (image : Memory) (results : Nat → Int) (k : Nat)
    (extent : EntryExtent) (remaining : Nat) :
    (Device.scripted image results).answer k extent remaining = results k := rfl

-- No more is delivered than was asked for.
def Pread.Bounded (call : Pread) : Prop := call.returned ≤ call.count

instance (call : Pread) : Decidable call.Bounded := inferInstanceAs (Decidable (_ ≤ _))

-- The call itself.
def Device.call (device : Device) (k : Nat) (extent : EntryExtent) (remaining : Nat) : Pread where
  dst := extent.logicalAddress
  count := extent.request remaining
  off := extent.imageOffset
  returned := device.answer k extent remaining

-- A full answer to an untruncated request.
theorem Device.answer_of_full {device : Device} {k : Nat} {extent : EntryExtent} {remaining : Nat}
    (hfull : (device.call k extent remaining).Full) (hlt : min extent.length remaining < 2 ^ 31) :
    device.answer k extent remaining = (min extent.length remaining : Nat) := by
  rw [Pread.Full, Device.call, EntryExtent.request_of_lt hlt] at hfull
  exact hfull

-- One pass of the loop: one call, and the rest of the loop behind a positive
-- answer.
section Step

variable (device : Device) (k : Nat) (extent : EntryExtent) (extents : List EntryExtent)
  (fileBuffer : Memory) (remaining : Nat)

theorem readExtents_step :
    readExtents device k (extent :: extents) fileBuffer remaining = (do
      let (r, fileBuffer) ← device.preadInto k fileBuffer extent.logicalAddress
        (extent.request remaining) extent.imageOffset
      if r ≤ 0 then pure none
      else readExtents device (k + 1) extents fileBuffer (toSizeT (remaining - r))) := (rfl)

theorem val_readExtents_cons :
    (readExtents device k (extent :: extents) fileBuffer remaining).val =
      if device.answer k extent remaining ≤ 0 then none
      else (readExtents device (k + 1) extents
        (fileBuffer.copy extent.logicalAddress device.bytes extent.imageOffset
          (device.answer k extent remaining).toNat)
        (toSizeT (remaining - device.answer k extent remaining))).val := by
  rw [readExtents_step, Traced.val_bind, Device.val_preadInto, Traced.val_ite, Traced.val_pure,
    Device.answer]

theorem log_readExtents_cons :
    (readExtents device k (extent :: extents) fileBuffer remaining).log =
      device.call k extent remaining ::
      if device.answer k extent remaining ≤ 0 then []
      else (readExtents device (k + 1) extents
        (fileBuffer.copy extent.logicalAddress device.bytes extent.imageOffset
          (device.answer k extent remaining).toNat)
        (toSizeT (remaining - device.answer k extent remaining))).log := by
  rw [readExtents_step, Traced.log_bind, Device.val_preadInto, Device.log_preadInto, ← Device.answer,
    List.singleton_append, Traced.log_ite, Traced.log_pure, Device.call]

theorem within_readExtents_cons (P : Pread → Prop) :
    (readExtents device k (extent :: extents) fileBuffer remaining).Within P ↔
      P (device.call k extent remaining) ∧
      (0 < device.answer k extent remaining → (readExtents device (k + 1) extents
        (fileBuffer.copy extent.logicalAddress device.bytes extent.imageOffset
          (device.answer k extent remaining).toNat)
        (toSizeT (remaining - device.answer k extent remaining))).Within P) := by
  rw [readExtents_step, Traced.within_bind, Device.within_preadInto, Device.val_preadInto,
    Traced.within_ite, ← Device.answer, not_le, Device.call]
  exact and_congr_right fun _ => and_iff_right fun _ => Traced.within_pure _

end Step

-- The bytes a call stored, and where.
def Pread.store (image : Memory) (call : Pread) : Stores.Store UInt8 where
  dst := call.dst
  len := call.returned.toNat
  data o := image (call.off + (o - call.dst))

theorem Memory.copy_eq_apply (mem source : Memory) (dst src : Int) (n : Nat) :
    mem.copy dst source src n =
      Stores.Store.apply mem ⟨dst, n, fun o => source (src + (o - dst))⟩ := (rfl)

theorem Device.apply_store_call (device : Device) (k : Nat) (extent : EntryExtent)
    (remaining : Nat) (fileBuffer : Memory) :
    ((device.call k extent remaining).store device.bytes).apply fileBuffer =
      fileBuffer.copy extent.logicalAddress device.bytes extent.imageOffset
        (device.answer k extent remaining).toNat := by
  rw [Memory.copy_eq_apply, Pread.store, Device.call]

section Calls

variable {device : Device}

-- The `j`-th call is the one for the `j`-th extent.
theorem call_of_getElem?_log {extents : List EntryExtent} {k : Nat} {fileBuffer : Memory}
    {remaining j : Nat} {call : Pread}
    (h : (readExtents device k extents fileBuffer remaining).log[j]? = some call) :
    ∃ extent left, extents[j]? = some extent ∧ call = device.call (k + j) extent left := by
  induction extents generalizing k fileBuffer remaining j with
  | nil => cases h
  | cons extent extents ih =>
      rw [log_readExtents_cons] at h
      cases j with
      | zero => exact ⟨extent, remaining, rfl, (Option.some.inj h).symm⟩
      | succ j =>
          rw [List.getElem?_cons_succ] at h
          split_ifs at h with hr
          · cases h
          · obtain ⟨x, left, hx, hcall⟩ := ih h
            exact ⟨x, left, hx, hcall.trans (by rw [Nat.add_right_comm, Nat.add_assoc])⟩

-- A loop that runs to its end has called once for each extent, and the file buffer
-- holds what the calls stored.
theorem readExtents_completed {extents : List EntryExtent} {k : Nat} {fileBuffer file : Memory}
    {remaining : Nat} (h : (readExtents device k extents fileBuffer remaining).val = some file) :
    (readExtents device k extents fileBuffer remaining).log.length = extents.length ∧
    file = Stores.applyAll fileBuffer
      ((readExtents device k extents fileBuffer remaining).log.map (Pread.store device.bytes)) := by
  induction extents generalizing k fileBuffer remaining with
  | nil => exact ⟨rfl, (Option.some.inj h).symm⟩
  | cons extent extents ih =>
      rw [val_readExtents_cons] at h
      rw [log_readExtents_cons]
      split_ifs at h ⊢ with hr
      obtain ⟨hlength, hfile⟩ := ih h
      refine ⟨by rw [List.length_cons, List.length_cons, hlength], ?_⟩
      rw [List.map_cons, Stores.applyAll_cons, Device.apply_store_call]
      exact hfile

end Calls

end SuperBadBlock
