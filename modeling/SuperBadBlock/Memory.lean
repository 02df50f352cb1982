import SuperBadBlock.Lib.Traced
import Mathlib.Data.Nat.Basic
import Mathlib.Tactic.Ring

namespace SuperBadBlock

-- The bytes the process can address, by their distance from the block pointer.
-- The block is the part at 0 .. 4095; what lies around it is arbitrary.
abbrev Memory := Int → UInt8

-- One read of `len` consecutive bytes from `off` on.
structure Access where
  off : Int
  len : Nat

def Access.InBlock (a : Access) : Prop := 0 ≤ a.off ∧ a.off + a.len ≤ 4096

instance (a : Access) : Decidable a.InBlock := inferInstanceAs (Decidable (_ ∧ _))

abbrev Parse := Traced Access

-- A little-endian unsigned integer of `len` bytes.
def Memory.le (mem : Memory) (off : Int) : Nat → Nat
  | 0 => 0
  | len + 1 => (mem off).toNat + 256 * mem.le (off + 1) len

def Memory.read (mem : Memory) (off : Int) (len : Nat) : Parse Nat :=
  ⟨mem.le off len, [⟨off, len⟩]⟩

def Memory.byte (mem : Memory) (off : Int) : Parse UInt8 := ⟨mem off, [⟨off, 1⟩]⟩

-- `std::string((char*) p)`: the bytes up to the first NUL. The bound is the
-- size of the address space, which no string exceeds.
def Memory.cstringUpTo (mem : Memory) : Nat → Int → Parse (List UInt8)
  | 0, _ => pure []
  | fuel + 1, p => do
      let c ← mem.byte p
      if c = 0 then pure [] else do
        let rest ← mem.cstringUpTo fuel (p + 1)
        pure (c :: rest)

def Memory.cstring (mem : Memory) (p : Int) : Parse (List UInt8) :=
  mem.cstringUpTo (2 ^ 64) p

@[simp] theorem Memory.val_read (mem : Memory) (off : Int) (len : Nat) :
    (mem.read off len).val = mem.le off len := (rfl)

@[simp] theorem Memory.val_byte (mem : Memory) (off : Int) : (mem.byte off).val = mem off := (rfl)

@[simp] theorem Memory.within_read (P : Access → Prop) (mem : Memory) (off : Int) (len : Nat) :
    (mem.read off len).Within P ↔ P ⟨off, len⟩ := by
  simp [Traced.Within, Memory.read]

@[simp] theorem Memory.within_byte (P : Access → Prop) (mem : Memory) (off : Int) :
    (mem.byte off).Within P ↔ P ⟨off, 1⟩ := by
  simp [Traced.Within, Memory.byte]

theorem Memory.le_lt (mem : Memory) (off : Int) (len : Nat) : mem.le off len < 256 ^ len := by
  induction len generalizing off with
  | zero => simp [Memory.le]
  | succ len ih =>
      have hb : (mem off).toNat < 256 := (mem off).toNat_lt
      have hr := ih (off + 1)
      simp only [Memory.le, pow_succ]
      omega

theorem Memory.le_congr {mem mem' : Memory} {off : Int} {len : Nat}
    (h : ∀ i : Int, off ≤ i → i < off + len → mem i = mem' i) :
    mem.le off len = mem'.le off len := by
  induction len generalizing off with
  | zero => rfl
  | succ len ih =>
      simp only [Memory.le]
      rw [h off (by omega) (by omega), ih (fun i hlo hhi => h i (by omega) (by omega))]

-- Memory that holds the low bytes of `x` reads back as `x`.
theorem Memory.le_of_bytes (mem : Memory) (off : Int) (len x : Nat)
    (h : ∀ i < len, mem (off + i) = UInt8.ofNat (x / 256 ^ i)) : mem.le off len = x % 256 ^ len := by
  induction len generalizing off x with
  | zero => simp [Memory.le, Nat.mod_one]
  | succ len ih =>
      have hfirst : (mem off).toNat = x % 256 := by
        have hb := h 0 (Nat.succ_pos len)
        simp only [Int.natCast_zero, Int.add_zero, pow_zero, Nat.div_one] at hb
        rw [hb]
        rfl
      have hrest := ih (off + 1) (x / 256) (fun i hi => by
        have hb := h (i + 1) (Nat.succ_lt_succ hi)
        rw [Nat.div_div_eq_div_mul, ← Nat.pow_succ', ← hb]
        congr 1
        push_cast
        ring)
      rw [Memory.le, hfirst, hrest, pow_succ', Nat.mod_mul]

end SuperBadBlock
