import SuperBadBlock.FileSystem.Outline
import SuperBadBlock.Lib.Printf

namespace SuperBadBlock

open Printf

-- The characters of a format.
def ascii (s : String) : List UInt8 := s.toList.map fun c => UInt8.ofNat c.toNat

-- Two for each level.
def spaces (level : Nat) : List UInt8 := List.replicate (2 * level) 32

-- What `printf` makes of `name.c_str()`.
def cString (name : List UInt8) : List UInt8 := name.takeWhile (· ≠ 0)

namespace TreeLine

-- The formats of `dumpTree`, behind the spaces and up to the end of the line.
def body : TreeLine → List UInt8
  | notFound _ dirId => ascii "0x" ++ numeral 16 dirId ++ ascii ": Not found"
  | dir _ dirId name type length =>
      ascii "0x" ++ numeral 16 dirId ++ ascii ": " ++ cString name ++ ascii ", type=" ++
        numeral 10 type ++ ascii " length=" ++ signed length
  | extent _ e =>
      ascii "-> extent: 0x" ++ numeral 16 e.logicalAddress ++ ascii ": block=0x" ++
        numeral 16 e.physicalBlock ++ ascii ", valueLength=" ++ signed e.length

def level : TreeLine → Nat
  | notFound level _ => level
  | dir level _ _ _ _ => level
  | extent level _ => level

def text (line : TreeLine) : List UInt8 := spaces line.level ++ line.body

-- The part of a line behind `-> extent: 0x`, back into the line.
def readExtent (level : Nat) (rest : List UInt8) : TreeLine :=
  let (logicalAddress, rest) := cut 58 rest
  let (physicalBlock, rest) := cut 44 (rest.drop 9)
  extent level ⟨readNumeral 16 logicalAddress, readNumeral 16 physicalBlock, readSigned (rest.drop 13)⟩

-- The part behind the inode. A name may hold anything but an end of line, so what stands
-- behind it is found from the end.
def readDir (level dirId : Nat) (rest : List UInt8) : TreeLine :=
  let (rest, length) := cutLast 61 rest
  let (rest, type) := cutLast 61 (rest.take (rest.length - 7))
  dir level dirId ((rest.take (rest.length - 6)).drop 2) (readNumeral 10 type) (readSigned length)

def readBody (level : Nat) (body : List UInt8) : TreeLine :=
  if body.head? = some 45 then readExtent level (body.drop 13)
  else
    let (dirId, rest) := cut 58 (body.drop 2)
    if rest = ascii " Not found" then notFound level (readNumeral 16 dirId)
    else readDir level (readNumeral 16 dirId) (58 :: rest)

def read (line : List UInt8) : TreeLine :=
  readBody ((line.takeWhile (· = 32)).length / 2) (line.dropWhile (· = 32))

-- A name without an end of line in it, and lengths of 64 bits.
def Printable : TreeLine → Prop
  | notFound _ _ => True
  | dir _ _ name _ length => 0 ∉ name ∧ newline ∉ name ∧ length < 2 ^ 64
  | extent _ e => e.length < 2 ^ 64

end TreeLine

-- The whole of what `dumpTree` prints, and back.
def treeText (lines : List TreeLine) : List UInt8 :=
  ascii "Tree:" ++ newline :: lines.flatMap fun line => line.text ++ [newline]

def readTreeText (text : List UInt8) : List TreeLine := (lines text).tail.map TreeLine.read

theorem cString_of_not_mem {name : List UInt8} (h : 0 ∉ name) : cString name = name :=
  List.takeWhile_eq_self_iff.mpr fun _ hc => decide_eq_true fun heq => h (heq ▸ hc)

section Numerals

variable {c : UInt8}

theorem not_mem_hex (hc : c.toNat < 48 ∨ 57 < c.toNat ∧ c.toNat < 97) (n : Nat) : c ∉ numeral 16 n :=
  not_mem_numeral (by decide) (Nat.le_refl 16) hc n

theorem not_mem_decimal (hc : c.toNat < 48 ∨ 57 < c.toNat ∧ c.toNat < 97) (n : Nat) :
    c ∉ numeral 10 n :=
  not_mem_numeral (by decide) (by decide) hc n

theorem not_mem_signed (hc : c.toNat < 48 ∨ 57 < c.toNat ∧ c.toNat < 97) (hminus : c ≠ 45) (n : Nat) :
    c ∉ signed n := by
  rw [signed]
  split_ifs
  · exact not_mem_decimal hc n
  · rw [List.mem_cons]
    rintro (heq | hmem)
    · exact hminus heq
    · exact not_mem_decimal hc _ hmem

end Numerals

namespace TreeLine

theorem readExtent_body (level : Nat) {e : EntryExtent} (h : e.length < 2 ^ 64) :
    readExtent level ((body (.extent level e)).drop 13) = .extent level e := by
  have hbody : (body (.extent level e)).drop 13 = numeral 16 e.logicalAddress ++ 58 ::
      (ascii " block=0x" ++ (numeral 16 e.physicalBlock ++ 44 :: (ascii " valueLength=" ++
        signed e.length))) := by
    simp only [body, List.append_assoc]
    rfl
  have hblock (rest : List UInt8) : (ascii " block=0x" ++ rest).drop 9 = rest := rfl
  have hlength (rest : List UInt8) : (ascii " valueLength=" ++ rest).drop 13 = rest := rfl
  rw [hbody, readExtent, cut_append (not_mem_hex (by decide) _)]
  dsimp only
  rw [hblock, cut_append (not_mem_hex (by decide) _)]
  dsimp only
  rw [hlength, readNumeral_numeral (by decide) (Nat.le_refl 16),
    readNumeral_numeral (by decide) (Nat.le_refl 16), readSigned_signed h]

theorem take_length_sub (front back : List UInt8) :
    (front ++ back).take ((front ++ back).length - back.length) = front := by
  rw [List.length_append, Nat.add_sub_cancel]
  exact List.take_left

theorem readDir_body (level dirId : Nat) (name : List UInt8) (type : Nat) {length : Nat}
    (h : length < 2 ^ 64) :
    readDir level dirId (ascii ": " ++ name ++ ascii ", type=" ++ numeral 10 type ++
      ascii " length=" ++ signed length) = .dir level dirId name type length := by
  have hlast : ascii ": " ++ name ++ ascii ", type=" ++ numeral 10 type ++ ascii " length=" ++
      signed length = (ascii ": " ++ name ++ ascii ", type=" ++ numeral 10 type ++ ascii " length") ++
        61 :: signed length := by
    simp only [List.append_assoc]
    rfl
  have hbefore : ascii ": " ++ name ++ ascii ", type=" ++ numeral 10 type =
      (ascii ": " ++ name ++ ascii ", type") ++ 61 :: numeral 10 type := by
    simp only [List.append_assoc]
    rfl
  rw [hlast, readDir, cutLast_append (not_mem_signed (by decide) (by decide) _)]
  dsimp only
  rw [show 7 = (ascii " length").length from rfl, take_length_sub, hbefore,
    cutLast_append (not_mem_decimal (by decide) _)]
  dsimp only
  rw [show 6 = (ascii ", type").length from rfl, take_length_sub,
    readNumeral_numeral (by decide) (by decide), readSigned_signed h]
  rfl

theorem readBody_body {line : TreeLine} (h : line.Printable) : readBody line.level line.body = line := by
  cases line with
  | notFound level dirId =>
      have hbody : (body (.notFound level dirId)).drop 2 = numeral 16 dirId ++ 58 :: ascii " Not found" := by
        simp only [body, List.append_assoc]
        rfl
      have hhead : (body (.notFound level dirId)).head? ≠ some 45 :=
        show some (48 : UInt8) ≠ some 45 by decide
      rw [readBody, if_neg hhead, hbody, cut_append (not_mem_hex (by decide) dirId)]
      dsimp only
      rw [if_pos rfl, readNumeral_numeral (by decide) (Nat.le_refl 16)]
      rfl
  | dir level dirId name type length =>
      obtain ⟨hnul, -, hlength⟩ := h
      have hbody : (body (.dir level dirId name type length)).drop 2 = numeral 16 dirId ++ 58 ::
          (ascii " " ++ name ++ ascii ", type=" ++ numeral 10 type ++ ascii " length=" ++
            signed length) := by
        simp only [body, cString_of_not_mem hnul, List.append_assoc]
        rfl
      have hfound : ¬ascii " " ++ name ++ ascii ", type=" ++ numeral 10 type ++ ascii " length=" ++
          signed length = ascii " Not found" := by
        intro heq
        have hmem : (61 : UInt8) ∈ ascii " Not found" := by
          rw [← heq]
          exact List.mem_append_left _ (List.mem_append_right _ (by decide))
        exact absurd hmem (by decide)
      have hhead : (body (.dir level dirId name type length)).head? ≠ some 45 :=
        show some (48 : UInt8) ≠ some 45 by decide
      rw [readBody, if_neg hhead, hbody, cut_append (not_mem_hex (by decide) dirId)]
      dsimp only
      rw [if_neg hfound, readNumeral_numeral (by decide) (Nat.le_refl 16)]
      exact readDir_body level dirId name type hlength
  | extent level e =>
      have hhead : (body (.extent level e)).head? = some 45 := rfl
      rw [readBody, if_pos hhead]
      exact readExtent_body level h

theorem read_text {line : TreeLine} (h : line.Printable) : read line.text = line := by
  obtain ⟨c, rest, hbody, hc⟩ : ∃ c rest, line.body = c :: rest ∧ ¬decide (c = 32) = true := by
    cases line with
    | notFound level dirId => exact ⟨48, _, rfl, by decide⟩
    | dir level dirId name type length => exact ⟨48, _, rfl, by decide⟩
    | extent level e => exact ⟨45, _, rfl, by decide⟩
  have hspaces : ∀ x ∈ spaces line.level, decide (x = 32) = true := fun x hx =>
    decide_eq_true (List.eq_of_mem_replicate hx)
  have hlevel : (spaces line.level).length / 2 = line.level := by
    rw [spaces, List.length_replicate]
    omega
  have htake : (c :: rest).takeWhile (· = 32) = [] := List.takeWhile_cons_of_neg hc
  have hdrop : (c :: rest).dropWhile (· = 32) = c :: rest := List.dropWhile_cons_of_neg hc
  rw [read, text, List.takeWhile_append_of_pos hspaces, List.dropWhile_append_of_pos hspaces, hbody,
    htake, hdrop, List.append_nil, hlevel, ← hbody]
  exact readBody_body h

theorem newline_not_mem_text {line : TreeLine} (h : line.Printable) : newline ∉ line.text := by
  have hhex (n : Nat) : newline ∉ numeral 16 n := not_mem_hex (by decide) n
  have hdecimal (n : Nat) : newline ∉ numeral 10 n := not_mem_decimal (by decide) n
  have hsigned (n : Nat) : newline ∉ signed n := not_mem_signed (by decide) (by decide) n
  have hspaces : newline ∉ spaces line.level := fun hmem =>
    absurd (List.eq_of_mem_replicate hmem) (by decide)
  rw [text, List.mem_append, not_or]
  refine ⟨hspaces, ?_⟩
  cases line with
  | notFound level dirId =>
      simp only [body, List.mem_append, not_or]
      exact ⟨⟨by decide, hhex _⟩, by decide⟩
  | dir level dirId name type length =>
      simp only [body, cString_of_not_mem h.1, List.mem_append, not_or]
      exact ⟨⟨⟨⟨⟨⟨⟨by decide, hhex _⟩, by decide⟩, h.2.1⟩, by decide⟩, hdecimal _⟩, by decide⟩, hsigned _⟩
  | extent level e =>
      simp only [body, List.mem_append, not_or]
      exact ⟨⟨⟨⟨⟨by decide, hhex _⟩, by decide⟩, hhex _⟩, by decide⟩, hsigned _⟩

end TreeLine

-- What has been printed is read back, line by line.
theorem readTreeText_treeText {printed : List TreeLine} (h : ∀ line ∈ printed, line.Printable) :
    readTreeText (treeText printed) = printed := by
  have htitle : newline ∉ ascii "Tree:" := by decide
  rw [readTreeText, treeText, lines_append htitle, List.tail_cons]
  induction printed with
  | nil => rfl
  | cons line printed ih =>
      obtain ⟨hline, hprinted⟩ := List.forall_mem_cons.mp h
      rw [List.flatMap_cons, List.append_assoc, List.singleton_append,
        lines_append (TreeLine.newline_not_mem_text hline), List.map_cons, TreeLine.read_text hline,
        ih hprinted]

end SuperBadBlock
