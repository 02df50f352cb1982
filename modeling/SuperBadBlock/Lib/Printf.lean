import Mathlib.Data.Nat.Digits.Lemmas
import Mathlib.Data.List.Basic

namespace SuperBadBlock.Printf

-- The digits of `printf`, with small letters from ten on.
def digit (d : Nat) : UInt8 := UInt8.ofNat (if d < 10 then 48 + d else 87 + d)

def digitValue (c : UInt8) : Nat := if c.toNat < 58 then c.toNat - 48 else c.toNat - 87

-- `%llu` for base 10, `%llx` for base 16.
def numeral (b n : Nat) : List UInt8 :=
  if n = 0 then [digit 0] else ((Nat.digits b n).map digit).reverse

-- With `0` and a width before the letter.
def padded (width b n : Nat) : List UInt8 := (numeral b n).leftpad width (digit 0)

def readNumeral (b : Nat) (text : List UInt8) : Nat := Nat.ofDigits b (text.reverse.map digitValue)

-- `%lld`: the number is taken for a negative one from `2 ^ 63` on.
def signed (n : Nat) : List UInt8 := if n < 2 ^ 63 then numeral 10 n else 45 :: numeral 10 (2 ^ 64 - n)

def readSigned (text : List UInt8) : Nat :=
  match text with
  | 45 :: digits => 2 ^ 64 - readNumeral 10 digits
  | digits => readNumeral 10 digits

-- The text before the first `c`, and the text behind it.
def cut (c : UInt8) (text : List UInt8) : List UInt8 × List UInt8 :=
  (text.takeWhile (· ≠ c), (text.dropWhile (· ≠ c)).tail)

-- The same for the last one.
def cutLast (c : UInt8) (text : List UInt8) : List UInt8 × List UInt8 :=
  ((cut c text.reverse).2.reverse, (cut c text.reverse).1.reverse)

def newline : UInt8 := 10

-- The lines of a text, without the ends of line.
def lines : List UInt8 → List (List UInt8)
  | [] => []
  | c :: text =>
      if c = newline then [] :: lines text
      else match lines text with
        | [] => [[c]]
        | line :: rest => (c :: line) :: rest

section Digits

variable {b : Nat}

theorem toNat_digit {d : Nat} (hd : d < 36) : (digit d).toNat = if d < 10 then 48 + d else 87 + d := by
  rw [digit, UInt8.toNat_ofNat']
  split_ifs <;> omega

theorem digitValue_digit {d : Nat} (hd : d < 36) : digitValue (digit d) = d := by
  rw [digitValue, toNat_digit hd]
  split_ifs <;> omega

theorem exists_of_mem_numeral (hb : 1 < b) {n : Nat} {c : UInt8} (hc : c ∈ numeral b n) :
    ∃ d < b, c = digit d := by
  rw [numeral] at hc
  split_ifs at hc with hzero
  · exact ⟨0, by omega, List.mem_singleton.mp hc⟩
  · obtain ⟨d, hd, rfl⟩ := List.mem_map.mp (List.mem_reverse.mp hc)
    exact ⟨d, Nat.digits_lt_base hb hd, rfl⟩

-- A separator that is no digit is in no numeral.
theorem not_mem_numeral (hb : 1 < b) (hb' : b ≤ 16) {c : UInt8}
    (hc : c.toNat < 48 ∨ 57 < c.toNat ∧ c.toNat < 97) (n : Nat) : c ∉ numeral b n := by
  intro hmem
  obtain ⟨d, hd, rfl⟩ := exists_of_mem_numeral hb hmem
  rw [toNat_digit (by omega)] at hc
  split_ifs at hc <;> omega

theorem map_digitValue (hb : 1 < b) (hb' : b ≤ 16) (n : Nat) :
    ((Nat.digits b n).map digit).map digitValue = Nat.digits b n := by
  have hid : ∀ d ∈ Nat.digits b n, digitValue (digit d) = id d := by
    intro d hd
    have hlt := Nat.digits_lt_base hb hd
    exact digitValue_digit (by omega)
  rw [List.map_map]
  exact (List.map_congr_left hid).trans (List.map_id _)

theorem readNumeral_numeral (hb : 1 < b) (hb' : b ≤ 16) (n : Nat) :
    readNumeral b (numeral b n) = n := by
  rw [readNumeral, numeral]
  split_ifs with hzero
  · rw [hzero]
    rfl
  · rw [List.reverse_reverse, map_digitValue hb hb', Nat.ofDigits_digits]

theorem readNumeral_padded (hb : 1 < b) (hb' : b ≤ 16) (width n : Nat) :
    readNumeral b (padded width b n) = n := by
  have hvalue : digitValue (digit 0) = 0 := digitValue_digit (by decide)
  rw [readNumeral, padded, List.leftpad, List.reverse_append, List.reverse_replicate, List.map_append,
    List.map_replicate, hvalue, Nat.ofDigits_append_replicate_zero]
  exact readNumeral_numeral hb hb' n

theorem length_numeral_le (hb : 1 < b) {n k : Nat} (hk : 0 < k) (hn : n < b ^ k) :
    (numeral b n).length ≤ k := by
  rw [numeral]
  split_ifs with hzero
  · exact hk
  · rw [List.length_reverse, List.length_map]
    exact (Nat.digits_length_le_iff hb n).mpr hn

theorem length_padded (hb : 1 < b) {n width : Nat} (hwidth : 0 < width) (hn : n < b ^ width) :
    (padded width b n).length = width := by
  rw [padded, List.length_leftpad]
  exact Nat.max_eq_left (length_numeral_le hb hwidth hn)

theorem not_mem_padded (hb : 1 < b) (hb' : b ≤ 16) {c : UInt8}
    (hc : c.toNat < 48 ∨ 57 < c.toNat ∧ c.toNat < 97) (width n : Nat) : c ∉ padded width b n := by
  have hzero : c ≠ digit 0 := by
    rintro rfl
    exact absurd hc (by decide)
  rw [padded, List.leftpad, List.mem_append, List.mem_replicate]
  rintro (⟨-, heq⟩ | hmem)
  · exact hzero heq
  · exact not_mem_numeral hb hb' hc n hmem

theorem readSigned_signed {n : Nat} (hn : n < 2 ^ 64) : readSigned (signed n) = n := by
  rw [signed]
  split_ifs with hsmall
  · have hminus : (45 : UInt8) ∉ numeral 10 n := not_mem_numeral (by decide) (by decide) (by decide) n
    rw [readSigned]
    · exact readNumeral_numeral (by decide) (by decide) n
    · rintro digits heq
      exact hminus (heq ▸ List.mem_cons_self)
  · rw [readSigned, readNumeral_numeral (by decide) (by decide)]
    omega

end Digits

section Cuts

theorem cut_append {c : UInt8} {front : List UInt8} (h : c ∉ front) (rest : List UInt8) :
    cut c (front ++ c :: rest) = (front, rest) := by
  have hfront : ∀ x ∈ front, decide (x ≠ c) = true := fun x hx =>
    decide_eq_true fun heq => h (heq ▸ hx)
  rw [cut, List.takeWhile_append_of_pos hfront, List.dropWhile_append_of_pos hfront,
    List.takeWhile_cons_of_neg (by simp), List.dropWhile_cons_of_neg (by simp), List.append_nil,
    List.tail_cons]

theorem cutLast_append {c : UInt8} {rest : List UInt8} (h : c ∉ rest) (front : List UInt8) :
    cutLast c (front ++ c :: rest) = (front, rest) := by
  have hreverse : (front ++ c :: rest).reverse = rest.reverse ++ c :: front.reverse := by
    simp
  rw [cutLast, hreverse, cut_append (by simpa using h), List.reverse_reverse, List.reverse_reverse]

theorem lines_append {line : List UInt8} (h : newline ∉ line) (rest : List UInt8) :
    lines (line ++ newline :: rest) = line :: lines rest := by
  induction line with
  | nil => rw [List.nil_append, lines, if_pos rfl]
  | cons c line ih =>
      obtain ⟨hc, hline⟩ := not_or.mp (mt List.mem_cons.mpr h)
      rw [List.cons_append, lines, if_neg (Ne.symm hc), ih hline]

end Cuts

end SuperBadBlock.Printf
