import SuperBadBlock.Memory

namespace SuperBadBlock

-- The number that bytes stand for, the least significant one first.
def ofBytes : List UInt8 → Nat
  | [] => 0
  | b :: bytes => b.toNat + 256 * ofBytes bytes

-- The low bytes of a number.
def toBytes : Nat → Nat → List UInt8
  | 0, _ => []
  | len + 1, x => UInt8.ofNat x :: toBytes len (x / 256)

@[simp] theorem length_toBytes (len x : Nat) : (toBytes len x).length = len := by
  induction len generalizing x with
  | zero => rfl
  | succ len ih => rw [toBytes, List.length_cons, ih]

theorem ofBytes_toBytes (len x : Nat) : ofBytes (toBytes len x) = x % 256 ^ len := by
  induction len generalizing x with
  | zero => simp [toBytes, ofBytes, Nat.mod_one]
  | succ len ih =>
      have hfirst : (UInt8.ofNat x).toNat = x % 256 := rfl
      rw [toBytes, ofBytes, ih, hfirst, pow_succ', Nat.mod_mul]

-- The bytes stand in the memory from `off` on.
def Memory.Holds (mem : Memory) (off : Int) (bytes : List UInt8) : Prop :=
  ∀ (i : Nat) (b : UInt8), bytes[i]? = some b → mem (off + i) = b

instance (mem : Memory) (off : Int) (bytes : List UInt8) : Decidable (mem.Holds off bytes) :=
  decidable_of_iff (∀ i : Fin bytes.length, mem (off + i) = bytes.get i) (by
    refine ⟨fun h i b hb => ?_, fun h i => h i _ (List.getElem?_eq_getElem i.isLt)⟩
    obtain ⟨hi, rfl⟩ := List.getElem?_eq_some_iff.mp hb
    exact h ⟨i, hi⟩)

namespace Memory.Holds

variable {mem : Memory} {off : Int}

theorem nil : mem.Holds off [] := by
  intro i b hb
  cases hb

theorem cons_iff {b : UInt8} {bytes : List UInt8} :
    mem.Holds off (b :: bytes) ↔ mem off = b ∧ mem.Holds (off + 1) bytes := by
  have hnext (i : Nat) : off + ((i + 1 : Nat) : Int) = off + 1 + i := by
    push_cast
    ring
  constructor
  · intro h
    refine ⟨?_, fun i c hc => ?_⟩
    · have hfirst := h 0 b rfl
      rwa [Nat.cast_zero, Int.add_zero] at hfirst
    · rw [← hnext]
      exact h (i + 1) c hc
  · rintro ⟨hfirst, hrest⟩ i c hc
    cases i with
    | zero =>
        rw [Nat.cast_zero, Int.add_zero, hfirst]
        exact Option.some.inj hc
    | succ i =>
        rw [hnext]
        exact hrest i c hc

theorem append_iff {first second : List UInt8} :
    mem.Holds off (first ++ second) ↔
      mem.Holds off first ∧ mem.Holds (off + first.length) second := by
  induction first generalizing off with
  | nil => simp [nil]
  | cons b first ih =>
      have hlength : off + 1 + (first.length : Int) = off + ((b :: first).length : Nat) := by
        rw [List.length_cons]
        push_cast
        ring
      rw [List.cons_append, cons_iff, cons_iff, ih, hlength, and_assoc]

-- A number is read back from its bytes.
theorem le_eq {bytes : List UInt8} (h : mem.Holds off bytes) {len : Nat} (hlen : len ≤ bytes.length) :
    mem.le off len = ofBytes (bytes.take len) := by
  induction len generalizing off bytes with
  | zero => simp [Memory.le, ofBytes]
  | succ len ih =>
      cases bytes with
      | nil => exact absurd hlen (Nat.not_succ_le_zero len)
      | cons b bytes =>
          obtain ⟨hfirst, hrest⟩ := cons_iff.mp h
          rw [Memory.le, List.take_succ_cons, ofBytes, hfirst, ih hrest (Nat.le_of_succ_le_succ hlen)]

theorem le_toBytes {len x : Nat} (h : mem.Holds off (toBytes len x)) (hx : x < 256 ^ len) :
    mem.le off len = x := by
  have hread := h.le_eq (show len ≤ (toBytes len x).length from Nat.le_of_eq (length_toBytes len x).symm)
  rw [List.take_of_length_le (Nat.le_of_eq (length_toBytes len x)), ofBytes_toBytes,
    Nat.mod_eq_of_lt hx] at hread
  exact hread

end Memory.Holds

-- Memory that holds the given bytes from 0 on, and zeros elsewhere.
def Memory.ofList (bytes : List UInt8) : Memory := fun o => if 0 ≤ o then bytes.getD o.toNat 0 else 0

theorem Memory.holds_ofList (bytes : List UInt8) : (Memory.ofList bytes).Holds 0 bytes := by
  intro i b hb
  have hindex : (0 + (i : Int)).toNat = i := by omega
  rw [Memory.ofList, if_pos (by omega), hindex, List.getD_eq_getElem?_getD, hb, Option.getD_some]

end SuperBadBlock
