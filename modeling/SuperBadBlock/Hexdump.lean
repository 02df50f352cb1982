import SuperBadBlock.Lib.Printf

namespace SuperBadBlock

open Printf

-- In the "C" locale, which the program never leaves.
def isprint (c : UInt8) : Bool := 32 ≤ c && c < 127

-- The two inner loops: the bytes in hex, and the bytes themselves.
def hexColumns (bytes : List UInt8) : List UInt8 :=
  bytes.flatMap fun c => padded 2 16 c.toNat ++ [32]

def charColumns (bytes : List UInt8) : List UInt8 :=
  bytes.map fun c => if isprint c then c else 46

-- One turn of the outer loop, up to the end of the line.
def hexdumpLine (pos : Nat) (bytes : List UInt8) : List UInt8 :=
  padded 8 16 pos ++ [58, 32] ++ hexColumns bytes ++ charColumns bytes

-- The rows that the outer loop goes through, with the address of each.
def hexdumpRows (pos : Nat) (bytes : List UInt8) : List (Nat × List UInt8) :=
  (List.range ((bytes.length + 15) / 16)).map fun k =>
    (pos + 16 * k, (bytes.drop (16 * k)).take 16)

def hexdump (pos : Nat) (bytes : List UInt8) : List UInt8 :=
  (hexdumpRows pos bytes).flatMap fun row => hexdumpLine row.1 row.2 ++ [newline]

-- A line back into its address and its bytes. A quarter of what follows the address is the
-- bytes themselves, so the line tells how many there are.
def readHexdumpLine (line : List UInt8) : Nat × List UInt8 :=
  let (address, rest) := cut 58 line
  let columns := rest.tail
  (readNumeral 16 address, (List.range (columns.length / 4)).map fun j =>
    UInt8.ofNat (readNumeral 16 ((columns.drop (3 * j)).take 2)))

def readHexdump (text : List UInt8) : List (Nat × List UInt8) := (lines text).map readHexdumpLine

theorem length_padded_byte (c : UInt8) : (padded 2 16 c.toNat).length = 2 :=
  length_padded (by decide) (by decide) c.toNat_lt

theorem length_hexColumns (bytes : List UInt8) : (hexColumns bytes).length = 3 * bytes.length := by
  induction bytes with
  | nil => rfl
  | cons c bytes ih =>
      rw [hexColumns, List.flatMap_cons, List.length_append, List.length_append, length_padded_byte,
        ← hexColumns, ih, List.length_cons, List.length_cons, List.length_nil]
      omega

-- Three columns for each byte.
theorem drop_hexColumns (bytes rest : List UInt8) {j : Nat} (hj : j < bytes.length) :
    ((hexColumns bytes ++ rest).drop (3 * j)).take 2 = padded 2 16 bytes[j].toNat := by
  induction bytes generalizing j with
  | nil => cases hj
  | cons c bytes ih =>
      have hlength : (padded 2 16 c.toNat ++ [32]).length = 3 := by
        rw [List.length_append, length_padded_byte, List.length_singleton]
      rw [hexColumns, List.flatMap_cons, List.append_assoc, ← hexColumns]
      cases j with
      | zero =>
          rw [Nat.mul_zero, List.drop_zero, List.append_assoc, List.getElem_cons_zero]
          exact List.take_left' (length_padded_byte c)
      | succ j =>
          have hshift : 3 * (j + 1) = (padded 2 16 c.toNat ++ [32]).length + 3 * j := by omega
          rw [hshift, List.drop_length_add_append, List.getElem_cons_succ]
          exact ih (Nat.lt_of_succ_lt_succ hj)

theorem readHexdumpLine_hexdumpLine (pos : Nat) (bytes : List UInt8) :
    readHexdumpLine (hexdumpLine pos bytes) = (pos, bytes) := by
  have hcolon : (58 : UInt8) ∉ padded 8 16 pos :=
    not_mem_padded (by decide) (by decide) (by decide) 8 pos
  have hcut : cut 58 (hexdumpLine pos bytes) =
      (padded 8 16 pos, 32 :: (hexColumns bytes ++ charColumns bytes)) := by
    rw [hexdumpLine, List.append_assoc, List.append_assoc]
    exact cut_append hcolon _
  have hlength : (hexColumns bytes ++ charColumns bytes).length / 4 = bytes.length := by
    rw [List.length_append, length_hexColumns, charColumns, List.length_map]
    omega
  rw [readHexdumpLine, hcut]
  simp only [List.tail_cons, hlength]
  refine Prod.ext (readNumeral_padded (by decide) (Nat.le_refl 16) 8 pos)
    (List.ext_getElem (by simp) fun j hj hj' => ?_)
  rw [List.getElem_map, List.getElem_range, drop_hexColumns bytes _ hj',
    readNumeral_padded (by decide) (Nat.le_refl 16), UInt8.ofNat_toNat]

theorem newline_not_mem_hexdumpLine (pos : Nat) (bytes : List UInt8) :
    newline ∉ hexdumpLine pos bytes := by
  have hnumeral (width n : Nat) : newline ∉ padded width 16 n :=
    not_mem_padded (by decide) (Nat.le_refl 16) (by decide) width n
  have hhex : newline ∉ hexColumns bytes := by
    rw [hexColumns, List.mem_flatMap]
    rintro ⟨c, -, hc⟩
    rcases List.mem_append.mp hc with hc | hc
    · exact hnumeral 2 c.toNat hc
    · exact absurd (List.mem_singleton.mp hc) (by decide)
  have hchar : newline ∉ charColumns bytes := by
    rw [charColumns, List.mem_map]
    rintro ⟨c, -, hc⟩
    split_ifs at hc with hprint
    · rw [hc] at hprint
      exact absurd hprint (by decide)
    · exact absurd hc (by decide)
  simp only [hexdumpLine, List.mem_append, not_or]
  exact ⟨⟨⟨hnumeral 8 pos, by decide⟩, hhex⟩, hchar⟩

-- The text of a dump is read back row by row, whatever follows it.
theorem readHexdump_append (pos : Nat) (bytes rest : List UInt8) :
    readHexdump (hexdump pos bytes ++ rest) = hexdumpRows pos bytes ++ readHexdump rest := by
  rw [hexdump]
  induction hexdumpRows pos bytes with
  | nil => rfl
  | cons row rows ih =>
      rw [List.flatMap_cons, List.append_assoc, List.append_assoc, List.singleton_append, readHexdump,
        lines_append (newline_not_mem_hexdumpLine row.1 row.2), List.map_cons,
        readHexdumpLine_hexdumpLine, List.cons_append]
      exact congrArg _ ih

-- The rows are the bytes, cut.
theorem flatten_hexdumpRows (pos : Nat) (bytes : List UInt8) :
    (hexdumpRows pos bytes).flatMap Prod.snd = bytes := by
  have hfront (n : Nat) : (List.range n).flatMap (fun k => (bytes.drop (16 * k)).take 16) =
      bytes.take (16 * n) := by
    induction n with
    | zero => rfl
    | succ n ih =>
        rw [List.range_succ, List.flatMap_append, ih, List.flatMap_singleton, Nat.mul_succ,
          List.take_add]
  rw [hexdumpRows, List.flatMap_map]
  exact (hfront _).trans (List.take_of_length_le (by omega))

end SuperBadBlock
