import SuperBadBlock.ApfsScanner.Events
import SuperBadBlock.ApfsScanner.Image
import Mathlib.Tactic.MkIffOfInductiveProp

namespace SuperBadBlock

variable (block : Memory)

-- Where the data of extended field `k` lies behind that of the first one.
def xdataOffset (field : Int) : Nat → Nat
  | 0 => 0
  | k + 1 =>
      xdataOffset field k + (((block.x_size (field + 4 * k)).val + 7) &&& 0xFFFFFFF8)

-- The extended fields of an inode value: their count, their headers, and the
-- data of each data stream.
def XFieldsInside (pair : KeyValuePair) : Prop :=
  96 < pair.valueLength →
    Access.InBlock ⟨pair.value + 92, 2⟩ ∧
    ∀ k < (block.xf_num_exts (pair.value + 92)).val,
      Access.InBlock ⟨pair.value + 96 + 4 * k, 4⟩ ∧
      ((block.x_type (pair.value + 96 + 4 * k)).val = INO_EXT_TYPE_DSTREAM →
        Access.InBlock ⟨pair.value + 96 + 4 * (block.xf_num_exts (pair.value + 92)).val +
          xdataOffset block (pair.value + 96) k, 8⟩)

-- A name that ends inside the block.
def NameInside (name : Int) : Prop :=
  ∃ n : Nat, name + n < 4096 ∧ block (name + n) = 0

-- The entry of the inode, if there is one, is not newer than the node.
def VersionOpen (fs : FileSystem) (xid i : Nat) : Prop :=
  ∀ e, fs.cached i = some e → e.versionId ≤ xid

def ExtentsOpen (fs : FileSystem) (xid i : Nat) : Prop :=
  ∀ e, fs.cached i = some e → e.extentVersionId ≤ xid

-- What the parser reads of one record lies in the block.
@[mk_iff]
structure RecordInside (fs : FileSystem) (attached : Bool) (pair : KeyValuePair) : Prop where
  key : Access.InBlock ⟨pair.key, 8⟩
  inode : (block.obj_id_and_type pair.key).val >>> OBJ_TYPE_SHIFT = APFS_TYPE_INODE →
    XFieldsInside block pair ∧
    (VersionOpen fs (block.o_xid 0).val (decode block pair).id → Access.InBlock ⟨pair.value, 8⟩)
  fileExtent : (block.obj_id_and_type pair.key).val >>> OBJ_TYPE_SHIFT = APFS_TYPE_FILE_EXTENT →
    Access.InBlock ⟨pair.value, 8⟩ ∧
    (attached = true → ExtentsOpen fs (block.o_xid 0).val (decode block pair).id →
      Access.InBlock ⟨pair.key + 8, 8⟩ ∧ Access.InBlock ⟨pair.value + 8, 8⟩)
  dirRec : (block.obj_id_and_type pair.key).val >>> OBJ_TYPE_SHIFT = APFS_TYPE_DIR_REC →
    Access.InBlock ⟨pair.value, 8⟩ ∧
    (VersionOpen fs (block.o_xid 0).val (block.file_id pair.value).val →
      NameInside block (pair.key + 12) ∧ Access.InBlock ⟨pair.value + 16, 2⟩)

-- Where entry `i` of the table of contents of a 4096-byte node points to.
def tocPair (i : Nat) : KeyValuePair :=
  let toc : Int := 56 + (block.btn_table_space_off 0).val
  let keys : Int := toc + (block.btn_table_space_len 0).val
  let values : Int := if (block.btn_flags 0).val &&& BTNODE_ROOT ≠ 0 then 4056 else 4096
  if (block.btn_flags 0).val &&& BTNODE_FIXED_KV_SIZE ≠ 0 then
    { key := keys + block.le (toc + i * 4) 2
      valueLength := (block.bt_val_size 4056).val % 2 ^ 16
      value := values - block.le (toc + i * 4 + 2) 2 }
  else
    { key := keys + block.le (toc + i * 8) 2
      valueLength := block.le (toc + i * 8 + 6) 2
      value := values - block.le (toc + i * 8 + 4) 2 }

-- An inode record of the same object lies before entry `i`.
def attachedAt (i : Nat) : Bool :=
  ((List.range i).map (tocPair block)).any fun other =>
    (decode block other).isInode && (decode block other).id = (decode block (tocPair block i)).id

-- The table of contents, and every record it points to.
structure NodeInside (fs : FileSystem) : Prop where
  toc : (block.btn_nkeys 0).val = 0 ∨
    56 + (block.btn_table_space_off 0).val +
      (if (block.btn_flags 0).val &&& BTNODE_FIXED_KV_SIZE ≠ 0 then 4 else 8) *
        (block.btn_nkeys 0).val ≤ 4096
  records : ∀ i < (block.btn_nkeys 0).val,
    RecordInside block fs (attachedAt block i) (tocPair block i)

theorem nodePairs_eq :
    nodePairs block 4096 = (List.range (block.btn_nkeys 0).val).map (tocPair block) := by
  have hcollect (f : Nat → KvLoc) (n : Nat) :
      (List.range n).foldl (fun toc i => toc ++ [f i]) [] = (List.range n).map f := by
    induction n with
    | zero => rfl
    | succ n ih => rw [List.range_succ, List.foldl_concat, ih, List.map_append, List.map_singleton]
  have hinfo : ((4096 : Nat) : Int) - sizeof_btree_info_t = 4056 := by decide
  simp only [nodePairs, readNode, Traced.val_bind, Traced.val_pure, Traced.val_ite, readKvoffs,
    readKvlocs, Traced.val_foldlM, Memory.val_read, hcollect, hinfo, sizeof_btree_node_phys_t]
  split_ifs with hroot hfixed hfixed <;>
  · rw [List.map_map]
    refine List.map_congr_left fun i _ => ?_
    simp only [Function.comp_apply, pairOf, tocPair, hroot, hfixed, not_false_eq_true,
      if_true, if_false, ne_eq, sizeof_kvoff_t, sizeof_kvloc_t, Nat.cast_ofNat]

theorem within_cstringUpTo (fuel : Nat) (p : Int) (hlo : 0 ≤ p) (hhi : p ≤ 4096)
    (hfuel : 4096 < p + fuel) :
    (block.cstringUpTo fuel p).Within Access.InBlock ↔ NameInside block p := by
  induction fuel generalizing p with
  | zero => omega
  | succ fuel ih =>
      simp only [Memory.cstringUpTo, Traced.within_bind, Memory.within_byte, Traced.within_ite,
        Traced.within_pure, Memory.val_byte, implies_true, true_and, and_true]
      constructor
      · rintro ⟨hin, hrest⟩
        have hp : p < 4096 := by
          have hend := hin.2
          simp only at hend
          omega
        by_cases hzero : block p = 0
        · exact ⟨0, by simpa using hp, by simpa using hzero⟩
        · obtain ⟨n, hn, hnul⟩ :=
            (ih (p + 1) (by omega) (by omega) (by omega)).mp (hrest hzero)
          refine ⟨n + 1, by omega, ?_⟩
          rw [← hnul]
          congr 1
          omega
      · rintro ⟨n, hn, hnul⟩
        have hin : Access.InBlock ⟨p, 1⟩ := by
          simp only [Access.InBlock]
          omega
        refine ⟨hin, fun hne => ?_⟩
        rw [ih (p + 1) (by omega) (by omega) (by omega)]
        cases n with
        | zero => exact absurd (by simpa using hnul) hne
        | succ n =>
            refine ⟨n, by omega, ?_⟩
            rw [← hnul]
            congr 1
            omega

-- A name is read up to its NUL, so it must end inside the block.
theorem within_cstring (p : Int) (hlo : 0 ≤ p) :
    (block.cstring p).Within Access.InBlock ↔ NameInside block p := by
  by_cases hhi : p ≤ 4096
  · exact within_cstringUpTo block _ p hlo hhi (by omega)
  · have hout : ¬NameInside block p := by
      rintro ⟨n, hn, -⟩
      omega
    refine ⟨fun h => ?_, fun h => absurd h hout⟩
    have hfirst : Access.InBlock ⟨p, 1⟩ := by
      obtain ⟨fuel, hfuel⟩ : ∃ fuel, 2 ^ 64 = fuel + 1 := ⟨2 ^ 64 - 1, by norm_num⟩
      rw [Memory.cstring, hfuel, Memory.cstringUpTo, Traced.within_bind, Memory.within_byte] at h
      exact h.1
    have hend := hfirst.2
    simp only at hend
    omega

theorem xdataOffset_zero (field : Int) : xdataOffset block field 0 = 0 := rfl

theorem xdataOffset_succ (field : Int) (k : Nat) :
    xdataOffset block field (k + 1) =
      (((block.x_size field).val + 7) &&& 0xFFFFFFF8) + xdataOffset block (field + 4) k := by
  induction k with
  | zero => simp [xdataOffset]
  | succ k ih =>
      have hfield : field + 4 * ((k + 1 : Nat) : Int) = field + 4 + 4 * k := by
        push_cast
        ring
      rw [xdataOffset, ih, xdataOffset, hfield, Nat.add_assoc]

-- What follows a test is read on both ways through it.
theorem both_ways {A S T D R : Prop} :
    (A ∧ (T → D ∧ True ∧ S ∧ R) ∧ (¬T → True ∧ S ∧ R)) ↔ ((A ∧ S) ∧ (T → D)) ∧ R := by
  by_cases ht : T
  · simp only [ht, forall_const, not_true_eq_false, false_implies, and_true, true_and]
    tauto
  · simp only [ht, false_implies, not_false_eq_true, forall_const, and_true, true_and, and_assoc]

theorem within_scanXFields (num : Nat) (field xdataptr : Int) (length : Option Nat) :
    (scanXFields block num field xdataptr length).Within Access.InBlock ↔
      ∀ k < num, Access.InBlock ⟨field + 4 * k, 4⟩ ∧
        ((block.x_type (field + 4 * k)).val = INO_EXT_TYPE_DSTREAM →
          Access.InBlock ⟨xdataptr + xdataOffset block field k, 8⟩) := by
  induction num generalizing field xdataptr length with
  | zero => simp [scanXFields]
  | succ num ih =>
      have hheader : Access.InBlock ⟨field, 4⟩ ↔
          Access.InBlock ⟨field, 1⟩ ∧ Access.InBlock ⟨field + 2, 2⟩ := by
        simp only [Access.InBlock]
        omega
      have hnext (k : Nat) : field + 4 * ((k + 1 : Nat) : Int) = field + 4 + 4 * k := by
        push_cast
        ring
      have hdata (k : Nat) : xdataptr + (xdataOffset block field (k + 1) : Nat) =
          xdataptr + (((block.x_size field).val + 7) &&& 0xFFFFFFF8 : Nat) +
            (xdataOffset block (field + 4) k : Nat) := by
        rw [xdataOffset_succ]
        push_cast
        ring
      have htype : (block.x_type field).Within Access.InBlock ↔ Access.InBlock ⟨field, 1⟩ :=
        Memory.within_read _ _ _ _
      have hsize : (block.x_size field).Within Access.InBlock ↔ Access.InBlock ⟨field + 2, 2⟩ :=
        Memory.within_read _ _ _ _
      have hstream : (block.dstream_size xdataptr).Within Access.InBlock ↔
          Access.InBlock ⟨xdataptr, 8⟩ := Memory.within_read _ _ _ _
      simp only [scanXFields, Traced.within_bind, Traced.within_ite, Traced.within_pure, htype,
        hsize, hstream, ih, Nat.forall_lt_succ_left, hnext, hdata, sizeof_x_field_t,
        Nat.cast_zero, mul_zero, add_zero, xdataOffset_zero, hheader]
      exact both_ways

theorem within_inodeLength (pair : KeyValuePair) :
    (inodeLength block pair).Within Access.InBlock ↔ XFieldsInside block pair := by
  have hlength : (pair.valueLength : Int) - 92 > 4 ↔ 96 < pair.valueLength := by omega
  have hnum : (block.xf_num_exts (pair.value + 92)).Within Access.InBlock ↔
      Access.InBlock ⟨pair.value + 92, 2⟩ := Memory.within_read _ _ _ _
  have hfields : pair.value + 92 + 4 = pair.value + 96 := by ring
  have hdata (num : Nat) : pair.value + 96 + (num : Int) * 4 = pair.value + 96 + 4 * num := by ring
  simp only [inodeLength, Traced.within_ite, Traced.within_bind, Traced.within_pure,
    implies_true, and_true, sizeof_j_inode_val_t, sizeof_xf_blob_t, sizeof_x_field_t, hlength, hnum, hfields,
    hdata, within_scanXFields, XFieldsInside]

theorem within_o_xid : (block.o_xid 0).Within Access.InBlock := by
  rw [Memory.o_xid, Memory.within_read]
  decide

section Handlers

variable {fs : FileSystem}

theorem versionOpen_iff (xid i : Nat) :
    ((fs.cached i).getD { inode := i }).versionId ≤ xid ↔ VersionOpen fs xid i := by
  unfold VersionOpen
  cases fs.cached i with
  | none => simp
  | some e => simp

theorem within_scanInode (h : fs.Consistent) (pair : KeyValuePair) (valueId : Nat) :
    (scanInode block pair valueId fs).Within Access.InBlock ↔
      XFieldsInside block pair ∧
      (VersionOpen fs (block.o_xid 0).val valueId → Access.InBlock ⟨pair.value, 8⟩) := by
  obtain ⟨-, hheap⟩ := h.findOrNew valueId
  have hparent : (block.parent_id pair.value).Within Access.InBlock ↔
      Access.InBlock ⟨pair.value, 8⟩ := Memory.within_read _ _ _ _
  simp only [scanInode, Traced.within_bind, Traced.within_ite, Traced.within_pure, and_true,
    within_inodeLength, within_o_xid, true_and, hheap, versionOpen_iff, hparent, implies_true]

theorem within_scanFileExtent_none (jKey valPtr : Int) :
    (scanFileExtent block none jKey valPtr fs).Within Access.InBlock ↔
      Access.InBlock ⟨valPtr, 8⟩ := by
  simp only [scanFileExtent, Traced.within_bind, Traced.within_pure, and_true,
    Memory.len_and_flags, Memory.within_read]

theorem within_scanFileExtent (p : EntryPtr) (i : Nat) (hp : fs.diskEntries i = some p)
    (jKey valPtr : Int) :
    (scanFileExtent block (some p) jKey valPtr fs).Within Access.InBlock ↔
      Access.InBlock ⟨valPtr, 8⟩ ∧
      (ExtentsOpen fs (block.o_xid 0).val i →
        Access.InBlock ⟨jKey + 8, 8⟩ ∧ Access.InBlock ⟨valPtr + 8, 8⟩) := by
  have hopen : (fs.heap p).extentVersionId ≤ (block.o_xid 0).val ↔
      ExtentsOpen fs (block.o_xid 0).val i := by
    simp [ExtentsOpen, FileSystem.cached, hp]
  simp only [scanFileExtent, Traced.within_bind, Traced.within_ite, Traced.within_pure, and_true,
    within_o_xid, true_and, hopen, implies_true, Memory.len_and_flags, Memory.logical_addr,
    Memory.phys_block_num, Memory.within_read]
  refine and_congr_right fun hvalue => imp_congr_right fun _ => ?_
  exact and_congr_right fun _ => and_iff_left hvalue

theorem within_scanDirRec (h : fs.Consistent) (fileEntry : Option EntryPtr) (jKey valPtr : Int)
    (hkey : 0 ≤ jKey) :
    (scanDirRec block fileEntry jKey valPtr fs).Within Access.InBlock ↔
      Access.InBlock ⟨valPtr, 8⟩ ∧
      (VersionOpen fs (block.o_xid 0).val (block.file_id valPtr).val →
        NameInside block (jKey + 12) ∧ Access.InBlock ⟨valPtr + 16, 2⟩) := by
  obtain ⟨-, hheap⟩ := h.findOrNew (block.file_id valPtr).val
  have hfile : (block.file_id valPtr).Within Access.InBlock ↔ Access.InBlock ⟨valPtr, 8⟩ :=
    Memory.within_read _ _ _ _
  have hname : (block.drec_name jKey).Within Access.InBlock ↔ NameInside block (jKey + 12) :=
    within_cstring block (jKey + 12) (by omega)
  have hflags : (block.drec_flags valPtr).Within Access.InBlock ↔ Access.InBlock ⟨valPtr + 16, 2⟩ :=
    Memory.within_read _ _ _ _
  simp only [scanDirRec, Traced.within_bind, Traced.within_ite, Traced.within_pure, and_true,
    within_o_xid, true_and, hheap, versionOpen_iff, hfile, hname, hflags, implies_true]

theorem within_scanPair (h : fs.Consistent) (pair : KeyValuePair) (attached : Bool)
    (fileEntry : Option EntryPtr) (hfile : Holds fs (decode block pair).id attached fileEntry) :
    (scanPair block (fileEntry, fs) pair).Within Access.InBlock ↔
      RecordInside block fs attached pair := by
  have hkey : (block.obj_id_and_type pair.key).Within Access.InBlock ↔
      Access.InBlock ⟨pair.key, 8⟩ := Memory.within_read _ _ _ _
  rw [recordInside_iff]
  rw [id_decode] at hfile ⊢
  simp only [scanPair, Traced.within_bind, Traced.within_ite, Traced.within_pure, and_true, hkey,
    implies_true, true_and]
  refine and_congr_right fun hin => ?_
  generalize (block.obj_id_and_type pair.key).val &&& OBJ_ID_MASK = id at hfile ⊢
  generalize (block.obj_id_and_type pair.key).val >>> OBJ_TYPE_SHIFT = type
  have hdir := within_scanDirRec block h fileEntry pair.key pair.value hin.1
  by_cases hinode : type = APFS_TYPE_INODE
  · subst hinode
    rw [within_scanInode block h pair id]
    simp [APFS_TYPE_INODE, APFS_TYPE_ANY, APFS_TYPE_FILE_EXTENT, APFS_TYPE_DIR_REC]
  by_cases hextent : type = APFS_TYPE_FILE_EXTENT
  · subst hextent
    cases fileEntry with
    | none =>
        obtain rfl : attached = false := by simpa using hfile.1.symm
        rw [within_scanFileExtent_none]
        simp [APFS_TYPE_INODE, APFS_TYPE_ANY, APFS_TYPE_FILE_EXTENT, APFS_TYPE_DIR_REC]
    | some p =>
        obtain rfl : attached = true := by simpa using hfile.1.symm
        rw [within_scanFileExtent block p id (hfile.2 p rfl)]
        simp [APFS_TYPE_INODE, APFS_TYPE_ANY, APFS_TYPE_FILE_EXTENT, APFS_TYPE_DIR_REC]
  by_cases hdirRec : type = APFS_TYPE_DIR_REC
  · subst hdirRec
    rw [hdir]
    simp [APFS_TYPE_INODE, APFS_TYPE_ANY, APFS_TYPE_FILE_EXTENT, APFS_TYPE_DIR_REC]
  · simp [hinode, hextent, hdirRec]

end Handlers

-- Both gates of every inode stand as before.
def SameGates (xid : Nat) (fs fs' : FileSystem) : Prop :=
  ∀ i, (VersionOpen fs' xid i ↔ VersionOpen fs xid i) ∧
    (ExtentsOpen fs' xid i ↔ ExtentsOpen fs xid i)

-- A touch of transaction `xid` lifts no version above `xid`, and lowers none.
theorem sameGates_absorb (i : Nat) (old : Option Entry) (event : Event) :
    ((∀ e, event.absorb i old = some e → e.versionId ≤ event.xid) ↔
      ∀ e, old = some e → e.versionId ≤ event.xid) ∧
    ((∀ e, event.absorb i old = some e → e.extentVersionId ≤ event.xid) ↔
      ∀ e, old = some e → e.extentVersionId ≤ event.xid) := by
  cases event with
  | inode xid parentId length =>
      cases old with
      | none => simp [Event.absorb, Event.xid]
      | some e =>
          simp only [Event.absorb, Event.xid, Option.getD_some]
          split_ifs with h <;> simp [h]
  | dirRec xid parentId name type =>
      cases old with
      | none => simp [Event.absorb, Event.xid]
      | some e =>
          simp only [Event.absorb, Event.xid, Option.getD_some]
          split_ifs with h <;> simp [h]
  | extent xid added =>
      cases old with
      | none => simp [Event.absorb]
      | some e =>
          simp only [Event.absorb, Event.xid, Option.map_some]
          split_ifs with h <;> simp [h]

theorem Steps.sameGates {fs fs' : FileSystem} {touches : List (Nat × Event)} {xid : Nat}
    (h : Steps fs touches fs') (hxid : ∀ touch ∈ touches, touch.2.xid = xid) :
    SameGates xid fs fs' := by
  induction h with
  | done _ => exact fun i => ⟨Iff.rfl, Iff.rfl⟩
  | @step fs fs' fs'' touch touches hstep hrest ih =>
      obtain ⟨hhead, htail⟩ := List.forall_mem_cons.mp hxid
      have hfirst : SameGates xid fs fs' := by
        intro i
        unfold VersionOpen ExtentsOpen
        rw [hstep.cached]
        by_cases hi : i = touch.1
        · subst hi
          rw [Function.update_self, ← hhead]
          exact sameGates_absorb touch.1 (fs.cached touch.1) touch.2
        · rw [Function.update_of_ne hi]
          exact ⟨Iff.rfl, Iff.rfl⟩
      exact fun i => ⟨(ih htail i).1.trans (hfirst i).1, (ih htail i).2.trans (hfirst i).2⟩

theorem SameGates.trans {xid : Nat} {fs fs' fs'' : FileSystem} (h : SameGates xid fs fs')
    (h' : SameGates xid fs' fs'') : SameGates xid fs fs'' :=
  fun i => ⟨(h' i).1.trans (h i).1, (h' i).2.trans (h i).2⟩

theorem SameGates.recordInside_iff {fs fs' : FileSystem}
    (h : SameGates (block.o_xid 0).val fs fs') (attached : Bool) (pair : KeyValuePair) :
    RecordInside block fs' attached pair ↔ RecordInside block fs attached pair := by
  simp only [SuperBadBlock.recordInside_iff, fun i => (h i).1, fun i => (h i).2]

section Loops

variable {base fs : FileSystem} (hsame : SameGates (block.o_xid 0).val base fs)

include hsame

-- The loop over the records of one object, judged by the gates the block began with.
theorem within_scanPairs (h : fs.Consistent) (id : Nat) (pairs : List KeyValuePair)
    (hid : ∀ pair ∈ pairs, (decode block pair).id = id) (attached : Bool)
    (fileEntry : Option EntryPtr) (hfile : Holds fs id attached fileEntry) :
    (pairs.foldlM (scanPair block) (fileEntry, fs)).Within Access.InBlock ↔
      Grouping.Along (fun before pair => RecordInside block base
        (attached || before.any fun other => (decode block other).isInode) pair) pairs := by
  induction pairs generalizing fs attached fileEntry with
  | nil => simp
  | cons pair pairs ih =>
      obtain ⟨hhead, htail⟩ := List.forall_mem_cons.mp hid
      rw [← hhead] at hfile
      obtain ⟨hsteps, hnext⟩ := steps_scanPair block h pair attached fileEntry hfile
      have hgates := hsame.trans (hsteps.sameGates fun touch hm => xid_of_touch (Option.mem_toList.mp hm))
      rw [hhead] at hnext
      have hrest := ih hgates hsteps.consistent htail _ _ hnext
      rw [List.foldlM_cons, Traced.within_bind, within_scanPair block h pair attached fileEntry hfile,
        hsame.recordInside_iff, Grouping.along_cons, hrest]
      simp only [List.any_nil, Bool.or_false, List.any_cons, Bool.or_assoc]

theorem within_scanGroup (h : fs.Consistent) (id : Nat) (pairs : List KeyValuePair)
    (hid : ∀ pair ∈ pairs, (decode block pair).id = id) :
    (scanGroup block fs pairs).Within Access.InBlock ↔
      Grouping.Along (fun before pair => RecordInside block base
        (before.any fun other => (decode block other).isInode) pair) pairs := by
  have hpairs := within_scanPairs block hsame h id pairs hid false none ⟨rfl, by simp⟩
  simp only [Bool.false_or] at hpairs
  rw [scanGroup, Traced.within_bind, hpairs]
  refine and_iff_left ?_
  generalize (pairs.foldlM (scanPair block) (none, fs)).val = state
  obtain ⟨fileEntry, fs'⟩ := state
  cases fileEntry <;> exact Traced.within_pure _

theorem within_scanGroups (h : fs.Consistent) (groups : List (Nat × List KeyValuePair))
    (hkeyed : Grouping.Keyed (fun pair => (decode block pair).id) groups) :
    (groups.foldlM (fun fs entry => scanGroup block fs entry.2) fs).Within Access.InBlock ↔
      ∀ entry ∈ groups, Grouping.Along (fun before pair => RecordInside block base
        (before.any fun other => (decode block other).isInode) pair) entry.2 := by
  induction groups generalizing fs with
  | nil => simp
  | cons entry groups ih =>
      obtain ⟨hhead, htail⟩ := List.forall_mem_cons.mp hkeyed
      have hsteps := steps_scanGroup block h entry.1 entry.2 hhead
      have hgates := hsame.trans (hsteps.sameGates fun touch hm => xid_of_mem_groupTouches hm)
      rw [List.foldlM_cons, Traced.within_bind, within_scanGroup block hsame h entry.1 entry.2 hhead,
        ih hgates hsteps.consistent htail, List.forall_mem_cons]

end Loops

theorem within_groupEntry (keyBasePtr valBasePtr : Int)
    (state : (Nat → Option Nat) × List (Nat × List KeyValuePair)) (toc : KvLoc) :
    (groupEntry block keyBasePtr valBasePtr state toc).Within Access.InBlock ↔
      Access.InBlock ⟨(pairOf keyBasePtr valBasePtr toc).key, 8⟩ ∧
      ((block.obj_id_and_type (pairOf keyBasePtr valBasePtr toc).key).val >>> OBJ_TYPE_SHIFT =
          APFS_TYPE_DIR_REC →
        Access.InBlock ⟨(pairOf keyBasePtr valBasePtr toc).value, 8⟩) := by
  simp only [groupEntry, Traced.within_bind, Traced.within_ite, Traced.within_pure, and_true,
    implies_true, Memory.obj_id_and_type, Memory.file_id, Memory.within_read]
  rfl

-- Entries of `size` bytes each lie in the block if the last of them does.
theorem entries_inBlock (toc : Int) (size n : Nat) (htoc : 0 ≤ toc) :
    (∀ i ∈ List.range n, Access.InBlock ⟨toc + i * size, size⟩) ↔ n = 0 ∨ toc + size * n ≤ 4096 := by
  simp only [List.mem_range, Access.InBlock]
  constructor
  · intro h
    cases n with
    | zero => exact Or.inl rfl
    | succ n =>
        have hlast := (h n (Nat.lt_succ_self n)).2
        have hend : toc + size * ((n + 1 : Nat) : Int) = toc + n * size + size := by
          push_cast
          ring
        exact Or.inr (hend ▸ hlast)
  · intro h i hi
    have hle : (size : Int) * (i + 1) ≤ size * n :=
      Int.mul_le_mul_of_nonneg_left (by omega) (Int.natCast_nonneg size)
    have hnonneg : 0 ≤ (i : Int) * size :=
      Int.mul_nonneg (Int.natCast_nonneg i) (Int.natCast_nonneg size)
    have hnext : (size : Int) * (i + 1) = i * size + size := by ring
    have hend : toc + size * n ≤ 4096 := h.resolve_left (by omega)
    omega

theorem within_readKvoffs (toc : Int) (n : Nat) (htoc : 0 ≤ toc) :
    (readKvoffs block 4056 toc n).Within Access.InBlock ↔ n = 0 ∨ toc + 4 * n ≤ 4096 := by
  rw [readKvoffs, Traced.within_foldlM _ (fun _ => True)
    (fun i : Nat => Access.InBlock ⟨toc + i * (4 : Nat), 4⟩) _ _ trivial
    (fun _ _ _ _ => trivial), entries_inBlock toc 4 n htoc]
  · rfl
  · intro state _ i _
    simp only [Traced.within_bind, Traced.within_pure, and_true, Memory.within_read,
      Memory.bt_key_size, Memory.bt_val_size, sizeof_kvoff_t, Access.InBlock]
    omega

theorem within_readKvlocs (toc : Int) (n : Nat) (htoc : 0 ≤ toc) :
    (readKvlocs block toc n).Within Access.InBlock ↔ n = 0 ∨ toc + 8 * n ≤ 4096 := by
  rw [readKvlocs, Traced.within_foldlM _ (fun _ => True)
    (fun i : Nat => Access.InBlock ⟨toc + i * (8 : Nat), 8⟩) _ _ trivial
    (fun _ _ _ _ => trivial), entries_inBlock toc 8 n htoc]
  · rfl
  · intro state _ i _
    simp only [Traced.within_bind, Traced.within_pure, and_true, Memory.within_read, sizeof_kvloc_t,
      Access.InBlock]
    omega

theorem within_readNode :
    (readNode block 4096).Within Access.InBlock ↔ (block.btn_nkeys 0).val = 0 ∨
      56 + (block.btn_table_space_off 0).val +
        (if (block.btn_flags 0).val &&& BTNODE_FIXED_KV_SIZE ≠ 0 then 4 else 8) *
          (block.btn_nkeys 0).val ≤ 4096 := by
  have hoff : (block.btn_table_space_off 0).Within Access.InBlock :=
    (Memory.within_read _ _ _ _).mpr (by decide)
  have hlen : (block.btn_table_space_len 0).Within Access.InBlock :=
    (Memory.within_read _ _ _ _).mpr (by decide)
  have hflags : (block.btn_flags 0).Within Access.InBlock :=
    (Memory.within_read _ _ _ _).mpr (by decide)
  have hnkeys : (block.btn_nkeys 0).Within Access.InBlock :=
    (Memory.within_read _ _ _ _).mpr (by decide)
  have hinfo : ((4096 : Nat) : Int) - sizeof_btree_info_t = 4056 := by decide
  have htoc : (0 : Int) ≤ sizeof_btree_node_phys_t + (block.btn_table_space_off 0).val := by
    simp only [sizeof_btree_node_phys_t]
    omega
  simp only [readNode, Traced.within_bind, Traced.within_ite, Traced.within_pure, and_true, hoff,
    hlen, hflags, hnkeys, true_and, hinfo, within_readKvoffs block _ _ htoc,
    within_readKvlocs block _ _ htoc]
  simp only [sizeof_btree_node_phys_t]
  split_ifs with hfixed
  · simp only [hfixed, not_false_eq_true, forall_const, not_true_eq_false, false_implies, and_true,
      ne_eq]
    omega
  · simp only [hfixed, false_implies, not_false_eq_true, forall_const, true_and]
    omega

theorem within_groupEntries (keyBasePtr valBasePtr : Int) (tableOfContents : List KvLoc)
    (state : (Nat → Option Nat) × List (Nat × List KeyValuePair)) :
    (tableOfContents.foldlM (groupEntry block keyBasePtr valBasePtr) state).Within Access.InBlock ↔
      ∀ pair ∈ tableOfContents.map (pairOf keyBasePtr valBasePtr),
        Access.InBlock ⟨pair.key, 8⟩ ∧
        ((block.obj_id_and_type pair.key).val >>> OBJ_TYPE_SHIFT = APFS_TYPE_DIR_REC →
          Access.InBlock ⟨pair.value, 8⟩) := by
  rw [Traced.within_foldlM _ (fun _ => True) _ _ _ trivial (fun _ _ _ _ => trivial)
    (fun state _ toc _ => within_groupEntry block keyBasePtr valBasePtr state toc),
    List.forall_mem_map]

-- Inside a group every record has the object id of the group.
theorem groups_inside_iff (fs : FileSystem) (pairs : List KeyValuePair) :
    (∀ entry ∈ Grouping.group (fun pair => (decode block pair).id) pairs,
      Grouping.Along (fun before pair => RecordInside block fs
        (before.any fun other => (decode block other).isInode) pair) entry.2) ↔
      Grouping.Along (fun before pair => RecordInside block fs
        (before.any fun other =>
          (decode block other).isInode && (decode block other).id = (decode block pair).id)
        pair) pairs := by
  rw [← Grouping.along_group (fun pair => (decode block pair).id)]
  · refine forall₂_congr fun entry hm => Grouping.along_congr fun before pair after hl => ?_
    have hid := Grouping.keyed_group _ _ entry hm
    have hpair : (decode block pair).id = entry.1 := hid pair (by simp [hl])
    have hany : (before.any fun other => (decode block other).isInode) =
        before.any fun other =>
          (decode block other).isInode && (decode block other).id = (decode block pair).id := by
      rw [Bool.eq_iff_iff, List.any_eq_true, List.any_eq_true]
      refine exists_congr fun other => and_congr_right fun ho => ?_
      have hother : (decode block other).id = entry.1 := hid other (by simp [hl, ho])
      rw [hother, hpair]
      simp
    rw [hany]
  · intro before pair
    have hany : ((before.filter fun other => (decode block other).id = (decode block pair).id).any
        fun other =>
          (decode block other).isInode && (decode block other).id = (decode block pair).id) =
        before.any fun other =>
          (decode block other).isInode && (decode block other).id = (decode block pair).id := by
      rw [List.any_filter]
      congr 1
      funext other
      cases (decode block other).isInode <;> simp
    rw [hany]

-- The parser stays inside the block exactly if its table of contents does, and
-- every record it points to, as far as the gates let the parser read it.
theorem within_scanBTreeBlock (scanner : APFSScanner) (h : scanner.fileSystem.Consistent)
    (hsize : scanner.currentBlockSize = 4096) :
    (scanBTreeBlock block scanner).Within Access.InBlock ↔ NodeInside block scanner.fileSystem := by
  have hgroups := within_scanGroups block (fun _ => ⟨Iff.rfl, Iff.rfl⟩) h
    (Grouping.group (fun pair => (decode block pair).id) (nodePairs block 4096))
    (Grouping.keyed_group _ _)
  rw [groups_inside_iff] at hgroups
  have hentries := val_groupEntries block
    (readNode block 4096).val.1 (readNode block 4096).val.2.1
    (readNode block 4096).val.2.2 scanner.objId2inode []
  have hkeys := within_groupEntries block (readNode block 4096).val.1 (readNode block 4096).val.2.1
    (readNode block 4096).val.2.2 (scanner.objId2inode, [])
  have hlist : (List.map (pairOf (readNode block 4096).val.1 (readNode block 4096).val.2.1)
      (readNode block 4096).val.2.2) = nodePairs block 4096 := rfl
  rw [hlist] at hentries hkeys
  simp only [scanBTreeBlock, Traced.within_bind, Traced.within_pure, and_true, hsize]
  rw [within_readNode, hkeys, hentries]
  change _ ∧ _ ∧ ((Grouping.group (fun pair => (decode block pair).id) (nodePairs block 4096)).foldlM
    (fun fs entry => scanGroup block fs entry.2) scanner.fileSystem).Within Access.InBlock ↔ _
  rw [hgroups, nodePairs_eq, Grouping.along_map_range]
  constructor
  · rintro ⟨htoc, -, hrecords⟩
    exact ⟨htoc, hrecords⟩
  · rintro ⟨htoc, hrecords⟩
    refine ⟨htoc, fun pair hm => ?_, hrecords⟩
    obtain ⟨i, hi, rfl⟩ := List.mem_map.mp hm
    have hinside := hrecords i (List.mem_range.mp hi)
    exact ⟨hinside.key, fun hdir => (hinside.dirRec hdir).1⟩

-- In every state that a scan reaches, the parser stays inside a block of 4096 bytes
-- exactly if its table of contents and its records do.
theorem parser_inside_iff (scanner : APFSScanner) (h : Reachable scanner)
    (hsize : scanner.currentBlockSize = 4096) :
    (scanBTreeBlock block scanner).Within Access.InBlock ↔ NodeInside block scanner.fileSystem :=
  within_scanBTreeBlock block scanner h.consistent hsize

-- A leaf with one inode record, whose extended fields hold its size.
def inodeImage : Memory :=
  nodeImage { xid := 7, flags := 2, records := [.inode 5 2 (some 4096)] }

theorem parser_inside_inodeImage : (scanBTreeBlock inodeImage {}).Within Access.InBlock := by
  have hnkeys : (inodeImage.btn_nkeys 0).val = 1 := by decide +kernel
  have hkey : Access.InBlock ⟨(tocPair inodeImage 0).key, 8⟩ := by decide +kernel
  have hvalue : Access.InBlock ⟨(tocPair inodeImage 0).value, 8⟩ := by decide +kernel
  have htype : (inodeImage.obj_id_and_type (tocPair inodeImage 0).key).val >>> OBJ_TYPE_SHIFT =
      APFS_TYPE_INODE := by decide +kernel
  have hxfields : XFieldsInside inodeImage (tocPair inodeImage 0) := by
    unfold XFieldsInside
    decide +kernel
  refine (parser_inside_iff inodeImage {} ⟨[], rfl⟩ rfl).mpr ⟨Or.inr (by decide +kernel), ?_⟩
  rw [hnkeys]
  intro i hi
  obtain rfl : i = 0 := by omega
  refine ⟨hkey, fun _ => ⟨hxfields, fun _ => hvalue⟩, fun hextent => ?_, fun hdir => ?_⟩
  · rw [htype] at hextent
    exact absurd hextent (by decide)
  · rw [htype] at hdir
    exact absurd hdir (by decide)

-- An accepted node that counts 1000 entries.
def overfullNode : Memory :=
  let mem : Memory := fun _ => 0
  let mem := mem.store 36 4 1000
  let mem := mem.store 24 4 OBJECT_TYPE_BTREE_NODE
  mem.withChecksum

theorem parser_leaves_block :
    IsNode 4096 overfullNode ∧ ¬(scanBTreeBlock overfullNode {}).Within Access.InBlock := by
  have hnode : IsNode 4096 overfullNode := by
    refine ⟨valid_withChecksum _ ?_, Or.inl ?_⟩
    · decide +kernel
    · decide +kernel
  refine ⟨hnode, fun h => ?_⟩
  rw [within_scanBTreeBlock overfullNode {} (Reachable.consistent ⟨[], rfl⟩) rfl] at h
  have htoc : ¬((overfullNode.btn_nkeys 0).val = 0 ∨
      56 + (overfullNode.btn_table_space_off 0).val +
        (if (overfullNode.btn_flags 0).val &&& BTNODE_FIXED_KV_SIZE ≠ 0 then 4 else 8) *
          (overfullNode.btn_nkeys 0).val ≤ 4096) := by decide +kernel
  exact htoc h.toc

end SuperBadBlock
