import SuperBadBlock.ApfsScanner
import SuperBadBlock.Memory.Bytes

namespace SuperBadBlock

-- An extended field with the bytes that pad its data to a multiple of 8.
structure XField where
  type : UInt8
  flags : UInt8
  data : List UInt8
  padding : List UInt8
  size_lt : data.length < 2 ^ 16
  padded : data.length + padding.length = 8 * ((data.length + 7) / 8)

-- x_field_t
def XField.header (field : XField) : List UInt8 :=
  field.type :: field.flags :: toBytes 2 field.data.length

def XField.body (field : XField) : List UInt8 := field.data ++ field.padding

def XField.IsDStream (field : XField) : Prop := field.type.toNat = INO_EXT_TYPE_DSTREAM

instance : DecidablePred XField.IsDStream := fun _ => inferInstanceAs (Decidable (_ = _))

-- `size`, the first member of j_dstream_t.
def XField.dstreamSize (field : XField) : Nat := ofBytes (field.data.take 8)

-- The value of an inode record: j_inode_val_t, xf_blob_t, the headers of the
-- extended fields, and their data.
structure InodeValue where
  fixed : List UInt8
  xf_used_data : List UInt8
  xfields : List XField
  length_fixed : fixed.length = 92
  length_xf_used_data : xf_used_data.length = 2
  xf_num_exts_lt : xfields.length < 2 ^ 16

def InodeValue.bytes (value : InodeValue) : List UInt8 :=
  value.fixed ++ (toBytes 2 value.xfields.length ++ (value.xf_used_data ++
    (value.xfields.flatMap XField.header ++ value.xfields.flatMap XField.body)))

-- Where the data of field `i` starts in the value.
def InodeValue.dataStart (value : InodeValue) (i : Nat) : Nat :=
  96 + 4 * value.xfields.length + ((value.xfields.take i).flatMap XField.body).length

-- The data pointer in each pass of the loop in `scanInode`.
def xdataptrs (block : Memory) : Nat → Int → Int → List Int
  | 0, _, _ => []
  | num + 1, field, xdataptr =>
      xdataptr :: xdataptrs block num (field + sizeof_x_field_t)
        (xdataptr + (((block.x_size field).val + 7) &&& 0xFFFFFFF8 : Nat))

-- The data pointers of the passes for one inode value.
def inodeXdataptrs (block : Memory) (pair : KeyValuePair) : List Int :=
  let blob := pair.value + sizeof_j_inode_val_t
  let xf_num_exts := (block.xf_num_exts blob).val
  if (pair.valueLength : Int) - sizeof_j_inode_val_t > sizeof_xf_blob_t then
    xdataptrs block xf_num_exts (blob + sizeof_xf_blob_t)
      (blob + sizeof_xf_blob_t + xf_num_exts * sizeof_x_field_t)
  else []

-- One pass with its data pointer.
def scanXField (block : Memory) (field : Int) (length : Option Nat) (xdataptr : Int) : Option Nat :=
  if (block.x_type field).val = INO_EXT_TYPE_DSTREAM then some (block.dstream_size xdataptr).val
  else length

-- The loop goes over its data pointers, and over the headers next to them.
theorem val_scanXFields_cons (block : Memory) (num : Nat) (field xdataptr : Int) (length : Option Nat) :
    (scanXFields block (num + 1) field xdataptr length).val =
      (scanXFields block num (field + sizeof_x_field_t)
        (xdataptr + (((block.x_size field).val + 7) &&& 0xFFFFFFF8 : Nat))
        (scanXField block field length xdataptr)).val := by
  simp only [scanXFields, Traced.val_bind, Traced.val_ite, Traced.val_pure, scanXField]
  split_ifs <;> rfl

theorem val_scanXFields (block : Memory) (num : Nat) (field xdataptr : Int) (length : Option Nat) :
    (scanXFields block num field xdataptr length).val =
      ((xdataptrs block num field xdataptr).zipIdx).foldl
        (fun length step => scanXField block (field + 4 * step.2) length step.1) length := by
  induction num generalizing field xdataptr length with
  | zero => rfl
  | succ num ih =>
      have hheader (i : Nat) : field + sizeof_x_field_t + 4 * (i : Int) = field + 4 * ((i + 1 : Nat) : Int) := by
        rw [sizeof_x_field_t]
        push_cast
        ring
      rw [val_scanXFields_cons, ih, xdataptrs, List.zipIdx_cons', List.foldl_cons, List.foldl_map]
      simp only [Nat.cast_zero, mul_zero, add_zero, hheader, Prod.map]
      rfl

-- `(x + 7) & ~7`
theorem round_up_eq {size : Nat} (h : size < 2 ^ 16) :
    (size + 7) &&& 0xFFFFFFF8 = 8 * ((size + 7) / 8) := by
  have hhigh : ((size + 7) &&& 0xFFFFFFF8) / 2 ^ 3 = (size + 7) / 8 := by
    have hmask : (0xFFFFFFF8 : Nat) / 2 ^ 3 = 2 ^ 29 - 1 := by decide
    rw [Nat.and_div_two_pow, hmask, Nat.and_two_pow_sub_one_eq_mod]
    omega
  have hlow : ((size + 7) &&& 0xFFFFFFF8) % 2 ^ 3 = 0 := by
    have hmask : (0xFFFFFFF8 : Nat) % 2 ^ 3 = 0 := by decide
    rw [Nat.and_mod_two_pow, hmask, Nat.and_zero]
  omega

section Layout

variable {block : Memory} {field xdataptr : Int} {f : XField} {fields : List XField}

@[simp] theorem XField.length_header (f : XField) : f.header.length = 4 := by
  simp [header]

theorem XField.length_body (f : XField) : f.body.length = 8 * ((f.data.length + 7) / 8) := by
  rw [body, List.length_append, f.padded]

theorem Memory.Holds.x_type_header (h : block.Holds field f.header) :
    (block.x_type field).val = f.type.toNat := by
  have hread := h.le_eq (show 1 ≤ f.header.length by simp)
  exact hread

theorem Memory.Holds.x_size_header (h : block.Holds field f.header) :
    (block.x_size field).val = f.data.length := by
  have hsize := (cons_iff.mp (cons_iff.mp h).2).2
  rw [Int.add_assoc] at hsize
  exact hsize.le_toBytes f.size_lt

theorem Memory.Holds.step_header (h : block.Holds field f.header) :
    ((block.x_size field).val + 7) &&& 0xFFFFFFF8 = f.body.length := by
  rw [h.x_size_header, round_up_eq f.size_lt, f.length_body]

-- Headers that are behind one another lead from the data of each field to the data
-- of the next.
theorem xdataptrs_eq (h : block.Holds field (fields.flatMap XField.header)) :
    xdataptrs block fields.length field xdataptr =
      (List.range fields.length).map fun i =>
        xdataptr + (((fields.take i).flatMap XField.body).length : Nat) := by
  induction fields generalizing field xdataptr with
  | nil => rfl
  | cons f fields ih =>
      rw [List.flatMap_cons, Memory.Holds.append_iff, XField.length_header] at h
      obtain ⟨hhead, htail⟩ := h
      change block.Holds (field + sizeof_x_field_t) _ at htail
      rw [List.length_cons, xdataptrs, hhead.step_header, List.range_succ_eq_map, List.map_cons,
        List.map_map, ih htail]
      refine congrArg₂ List.cons (by simp) (List.map_congr_left fun i _ => ?_)
      rw [Function.comp_apply, List.take_succ_cons, List.flatMap_cons, List.length_append]
      push_cast
      ring

-- The size of the last data stream, or what was found before.
def lastDStream : Option Nat → List XField → Option Nat
  | length, [] => length
  | length, f :: fields => lastDStream (if f.IsDStream then some f.dstreamSize else length) fields

theorem scanXField_eq (hheader : block.Holds field f.header) (hbody : block.Holds xdataptr f.body)
    (hdstream : f.IsDStream → 8 ≤ f.data.length) (length : Option Nat) :
    scanXField block field length xdataptr = if f.IsDStream then some f.dstreamSize else length := by
  rw [scanXField, hheader.x_type_header]
  change (if f.IsDStream then _ else _) = _
  by_cases htype : f.IsDStream
  · have hdata := (Memory.Holds.append_iff.mp hbody).1
    have hsize : (block.dstream_size xdataptr).val = f.dstreamSize := hdata.le_eq (hdstream htype)
    rw [if_pos htype, if_pos htype, hsize]
  · rw [if_neg htype, if_neg htype]

theorem val_scanXFields_eq (hheaders : block.Holds field (fields.flatMap XField.header))
    (hbodies : block.Holds xdataptr (fields.flatMap XField.body))
    (hdstream : ∀ f ∈ fields, f.IsDStream → 8 ≤ f.data.length) (length : Option Nat) :
    (scanXFields block fields.length field xdataptr length).val = lastDStream length fields := by
  induction fields generalizing field xdataptr length with
  | nil => rfl
  | cons f fields ih =>
      rw [List.flatMap_cons, Memory.Holds.append_iff] at hheaders hbodies
      obtain ⟨hfirst, hrest⟩ := List.forall_mem_cons.mp hdstream
      rw [List.length_cons, val_scanXFields_cons, hheaders.1.step_header,
        scanXField_eq hheaders.1 hbodies.1 hfirst, lastDStream]
      rw [XField.length_header] at hheaders
      exact ih hheaders.2 hbodies.2 hrest _

theorem lastDStream_of_none (length : Option Nat) (h : ∀ f ∈ fields, ¬f.IsDStream) :
    lastDStream length fields = length := by
  induction fields generalizing length with
  | nil => rfl
  | cons f fields ih =>
      obtain ⟨hfirst, hrest⟩ := List.forall_mem_cons.mp h
      rw [lastDStream, if_neg hfirst, ih _ hrest]

theorem lastDStream_append (length : Option Nat) (first second : List XField) :
    lastDStream length (first ++ second) = lastDStream (lastDStream length first) second := by
  induction first generalizing length with
  | nil => rfl
  | cons f first ih => rw [List.cons_append, lastDStream, ih, lastDStream]

theorem lastDStream_of_last {before after : List XField} (length : Option Nat) (hf : f.IsDStream)
    (hafter : ∀ g ∈ after, ¬g.IsDStream) :
    lastDStream length (before ++ f :: after) = some f.dstreamSize := by
  rw [lastDStream_append, lastDStream, if_pos hf, lastDStream_of_none _ hafter]

theorem isSome_lastDStream (length : Option Nat) :
    (lastDStream length fields).isSome ↔ length.isSome ∨ ∃ f ∈ fields, f.IsDStream := by
  induction fields generalizing length with
  | nil => simp [lastDStream]
  | cons f fields ih =>
      rw [lastDStream, ih]
      by_cases hf : f.IsDStream
      · simp [hf]
      · simp [hf]

theorem length_flatMap_header (fields : List XField) :
    (fields.flatMap XField.header).length = 4 * fields.length := by
  induction fields with
  | nil => rfl
  | cons f fields ih =>
      rw [List.flatMap_cons, List.length_append, XField.length_header, ih, List.length_cons]
      omega

-- The data of field `i` is what lies that far into the bodies.
theorem Memory.Holds.data_of_bodies (h : block.Holds xdataptr (fields.flatMap XField.body)) {i : Nat}
    (hi : fields[i]? = some f) :
    block.Holds (xdataptr + (((fields.take i).flatMap XField.body).length : Nat)) f.data := by
  induction fields generalizing i xdataptr with
  | nil => cases hi
  | cons g fields ih =>
      rw [List.flatMap_cons, append_iff] at h
      cases i with
      | zero =>
          obtain rfl := Option.some.inj hi
          simpa using (append_iff.mp h.1).1
      | succ i =>
          have hnext := ih h.2 (by simpa using hi)
          rw [List.take_succ_cons, List.flatMap_cons, List.length_append]
          push_cast at hnext ⊢
          rwa [← Int.add_assoc]

end Layout

section Value

variable {block : Memory} {pair : KeyValuePair} {value : InodeValue}

theorem InodeValue.length_bytes (value : InodeValue) :
    value.bytes.length =
      96 + 4 * value.xfields.length + (value.xfields.flatMap XField.body).length := by
  simp only [bytes, List.length_append, value.length_fixed, value.length_xf_used_data, length_toBytes,
    length_flatMap_header]
  omega

-- The parts of the value, each at its place in the block.
theorem InodeValue.parts (h : block.Holds pair.value value.bytes) :
    (block.xf_num_exts (pair.value + 92)).val = value.xfields.length ∧
    block.Holds (pair.value + 96) (value.xfields.flatMap XField.header) ∧
    block.Holds (pair.value + 96 + 4 * value.xfields.length)
      (value.xfields.flatMap XField.body) := by
  simp only [bytes, Memory.Holds.append_iff, value.length_fixed, value.length_xf_used_data,
    length_toBytes, length_flatMap_header, Int.add_assoc] at h
  obtain ⟨-, hnum, -, hheaders, hbodies⟩ := h
  have hbehind : (92 : Int) + (2 + (2 + (4 * value.xfields.length : Nat))) =
      96 + 4 * value.xfields.length := by omega
  refine ⟨hnum.le_toBytes value.xf_num_exts_lt, hheaders, ?_⟩
  rw [Int.add_assoc, ← hbehind]
  exact hbodies

-- With at least one field the value is long enough for the test on `xfieldLength`.
theorem InodeValue.tested (hlength : value.bytes.length ≤ pair.valueLength)
    (hne : value.xfields ≠ []) :
    (pair.valueLength : Int) - sizeof_j_inode_val_t > sizeof_xf_blob_t := by
  have hpos := List.length_pos_iff.mpr hne
  rw [InodeValue.length_bytes] at hlength
  simp only [sizeof_j_inode_val_t, sizeof_xf_blob_t]
  omega

-- The loop over the extended fields of an inode value finds the size of its last
-- data stream, and each pass works on the data of its own field.
theorem xfields_parsed (block : Memory) (pair : KeyValuePair) (value : InodeValue)
    (hvalue : block.Holds pair.value value.bytes) (hlength : value.bytes.length ≤ pair.valueLength)
    (hdstream : ∀ f ∈ value.xfields, f.IsDStream → 8 ≤ f.data.length) :
    ((inodeLength block pair).val.isSome ↔ ∃ f ∈ value.xfields, f.IsDStream) ∧
    (∀ before f after, value.xfields = before ++ f :: after → f.IsDStream →
      (∀ g ∈ after, ¬g.IsDStream) → (inodeLength block pair).val = some f.dstreamSize) ∧
    (inodeLength block pair).val = (inodeXdataptrs block pair).zipIdx.foldl
      (fun length step => scanXField block (pair.value + 96 + 4 * step.2) length step.1) none ∧
    inodeXdataptrs block pair =
      (List.range value.xfields.length).map (fun i => pair.value + value.dataStart i) ∧
    (∀ i f, value.xfields[i]? = some f → block.Holds (pair.value + value.dataStart i) f.data) := by
  obtain ⟨hnum, hheaders, hbodies⟩ := InodeValue.parts hvalue
  have hblob : pair.value + sizeof_j_inode_val_t + sizeof_xf_blob_t = pair.value + 96 := by
    rw [sizeof_j_inode_val_t, sizeof_xf_blob_t, Int.add_assoc]
    rfl
  have hdata : pair.value + 96 + (value.xfields.length : Int) * sizeof_x_field_t =
      pair.value + 96 + 4 * value.xfields.length := by
    rw [sizeof_x_field_t, Int.mul_comm]
  have hstart (i : Nat) : pair.value + (value.dataStart i : Int) =
      pair.value + 96 + 4 * value.xfields.length +
        (((value.xfields.take i).flatMap XField.body).length : Nat) := by
    rw [InodeValue.dataStart]
    push_cast
    ring
  have hval : (inodeLength block pair).val = lastDStream none value.xfields := by
    simp only [inodeLength, Traced.val_ite, Traced.val_bind, Traced.val_pure]
    rw [show (block.xf_num_exts (pair.value + sizeof_j_inode_val_t)).val = _ from hnum, hblob, hdata,
      val_scanXFields_eq hheaders hbodies hdstream]
    by_cases hne : value.xfields = []
    · rw [hne, lastDStream, ite_self]
    · rw [if_pos (InodeValue.tested hlength hne)]
  have hptrs : inodeXdataptrs block pair =
      (List.range value.xfields.length).map fun i => pair.value + value.dataStart i := by
    simp only [inodeXdataptrs]
    rw [show (block.xf_num_exts (pair.value + sizeof_j_inode_val_t)).val = _ from hnum, hblob, hdata,
      xdataptrs_eq hheaders]
    by_cases hne : value.xfields = []
    · rw [hne, List.length_nil, List.range_zero, List.map_nil, List.map_nil, ite_self]
    · rw [if_pos (InodeValue.tested hlength hne)]
      exact List.map_congr_left fun i _ => (hstart i).symm
  refine ⟨?_, fun before f after hfields hf hafter => ?_, ?_, hptrs, fun i f hi => ?_⟩
  · rw [hval, isSome_lastDStream]
    simp
  · rw [hval, hfields, lastDStream_of_last none hf hafter]
  · rw [hptrs, hval, ← val_scanXFields_eq hheaders hbodies hdstream, val_scanXFields,
      xdataptrs_eq hheaders]
    simp only [hstart]
  · rw [hstart]
    exact hbodies.data_of_bodies hi

-- A name of six bytes in front of a data stream of 4660 bytes.
def nameField : XField where
  type := 4
  flags := 2
  data := [97, 46, 116, 120, 116, 0]
  padding := [0, 0]
  size_lt := by decide
  padded := by decide

def dstreamField : XField where
  type := 8
  flags := 32
  data := toBytes 8 4660 ++ toBytes 8 8192 ++ toBytes 8 0 ++ toBytes 8 0 ++ toBytes 8 0
  padding := []
  size_lt := by decide
  padded := by decide

def fileValue : InodeValue where
  fixed := toBytes 8 2 ++ toBytes 8 16 ++ List.replicate 76 0
  xf_used_data := toBytes 2 48
  xfields := [nameField, dstreamField]
  length_fixed := by decide
  length_xf_used_data := by decide
  xf_num_exts_lt := by decide

theorem xfields_parsed_of_fileValue :
    let pair : KeyValuePair := { key := 200, valueLength := 152, value := 0 }
    (inodeLength (Memory.ofList fileValue.bytes) pair).val = some 4660 ∧
    inodeXdataptrs (Memory.ofList fileValue.bytes) pair = [104, 112] := by
  intro pair
  have hlength : fileValue.bytes.length ≤ pair.valueLength := by
    rw [InodeValue.length_bytes]
    decide
  obtain ⟨-, hlast, -, hptrs, -⟩ := xfields_parsed (Memory.ofList fileValue.bytes) pair fileValue
    (Memory.holds_ofList _) hlength (by decide)
  exact ⟨hlast [nameField] dstreamField [] rfl rfl (by simp), hptrs⟩

end Value

end SuperBadBlock
