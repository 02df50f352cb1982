import SuperBadBlock.ApfsScanner.Encode
import SuperBadBlock.Lib.Footprint

namespace SuperBadBlock

open Footprint

-- The two memories hold the same block.
def SameBlock (mem mem' : Memory) : Prop := ∀ o : Int, 0 ≤ o → o < 4096 → mem o = mem' o

-- A parse that cannot tell what lies around the block, as long as it does not look there.
abbrev BlockLocal {α : Type} (f : Memory → Parse α) : Prop := Local SameBlock Access.InBlock f

section Reads

theorem local_read (off : Int) (len : Nat) : BlockLocal fun mem => mem.read off len := by
  intro mem mem' hsame hwithin
  have hin : 0 ≤ off ∧ off + len ≤ 4096 := (Memory.within_read _ _ _ _).mp hwithin
  have hle : mem'.le off len = mem.le off len :=
    Memory.le_congr fun i hlo hhi => (hsame i (by omega) (by omega)).symm
  exact congrArg (fun x : Nat => (⟨x, [⟨off, len⟩]⟩ : Parse Nat)) hle

theorem local_byte (off : Int) : BlockLocal fun mem => mem.byte off := by
  intro mem mem' hsame hwithin
  have hin : 0 ≤ off ∧ off + 1 ≤ 4096 := (Memory.within_byte _ _ _).mp hwithin
  have hbyte : mem' off = mem off := (hsame off (by omega) (by omega)).symm
  exact congrArg (fun x : UInt8 => (⟨x, [⟨off, 1⟩]⟩ : Parse UInt8)) hbyte

theorem local_cstringUpTo (fuel : Nat) (p : Int) :
    BlockLocal fun mem => mem.cstringUpTo fuel p := by
  induction fuel generalizing p with
  | zero => exact .const (pure [])
  | succ fuel ih =>
      exact (local_byte p).bind fun c =>
        .ite (.const (pure [])) ((ih (p + 1)).bind fun rest => .const (pure (c :: rest)))

theorem local_drec_name (p : Int) : BlockLocal fun mem => mem.drec_name p :=
  local_cstringUpTo (2 ^ 64) (p + 12)

end Reads

theorem local_fletcherLoop (wordCount : Nat) (wordPtr : Int) (sum1 sum2 : Nat) :
    BlockLocal fun mem => fletcherLoop mem wordCount wordPtr sum1 sum2 := by
  induction wordCount generalizing wordPtr sum1 sum2 with
  | zero => exact .const (pure (sum1, sum2))
  | succ wordCount ih => exact (local_read wordPtr 4).bind fun word => ih _ _ _

theorem local_fletcher64 (data : Int) (byteCount : Nat) :
    BlockLocal fun mem => fletcher64 mem data byteCount :=
  (local_fletcherLoop _ _ _ _).bind fun _ => .const _

theorem local_scanXFields (num : Nat) (field xdataptr : Int) (length : Option Nat) :
    BlockLocal fun mem => scanXFields mem num field xdataptr length := by
  induction num generalizing field xdataptr length with
  | zero => exact .const (pure length)
  | succ num ih =>
      have hrest (length : Option Nat) : BlockLocal fun mem => (do
          let x_size ← mem.x_size field
          scanXFields mem num (field + sizeof_x_field_t)
            (xdataptr + ((x_size + 7) &&& 0xFFFFFFF8 : Nat)) length) :=
        (local_read _ _).bind fun x_size => ih _ _ _
      refine (local_read _ _).bind fun x_type => .ite ?_ (hrest length)
      exact (local_read _ _).bind fun size => hrest (some size)

theorem local_inodeLength (pair : KeyValuePair) : BlockLocal fun mem => inodeLength mem pair :=
  .ite ((local_read _ _).bind fun _ => local_scanXFields _ _ _ _) (.const _)

theorem local_scanInode (pair : KeyValuePair) (valueId : Nat) (fs : FileSystem) :
    BlockLocal fun mem => scanInode mem pair valueId fs := by
  refine (local_inodeLength pair).bind fun length => (local_read _ _).bind fun o_xid => ?_
  exact .ite ((local_read _ _).bind fun parent_id => .const _) (.const _)

theorem local_scanFileExtent (fileEntry : Option EntryPtr) (jKey valPtr : Int) (fs : FileSystem) :
    BlockLocal fun mem => scanFileExtent mem fileEntry jKey valPtr fs := by
  refine (local_read _ _).bind fun _ => ?_
  cases fileEntry with
  | none => exact .const (pure fs)
  | some fileEntry =>
      refine (local_read _ _).bind fun o_xid => .ite ?_ (.const _)
      exact (local_read _ _).bind fun logical_addr => (local_read _ _).bind fun phys_block_num =>
        (local_read _ _).bind fun len_and_flags => .const _

theorem local_scanDirRec (fileEntry : Option EntryPtr) (jKey valPtr : Int) (fs : FileSystem) :
    BlockLocal fun mem => scanDirRec mem fileEntry jKey valPtr fs := by
  refine (local_read _ _).bind fun file_id => (local_read _ _).bind fun o_xid => .ite ?_ (.const _)
  exact (local_drec_name jKey).bind fun name => (local_read _ _).bind fun flags => .const _

theorem local_readNode (currentBlockSize : Nat) :
    BlockLocal fun mem => readNode mem currentBlockSize := by
  refine (local_read _ _).bind fun off => (local_read _ _).bind fun len =>
    (local_read _ _).bind fun btn_flags => (local_read _ _).bind fun btn_nkeys => .ite ?_ ?_
  · refine Local.bind (.foldlM (fun tableOfContents i => ?_) _ _) fun tableOfContents => .const _
    exact (local_read _ _).bind fun k => (local_read _ _).bind fun bt_key_size =>
      (local_read _ _).bind fun v => (local_read _ _).bind fun bt_val_size => .const _
  · refine Local.bind (.foldlM (fun tableOfContents i => ?_) _ _) fun tableOfContents => .const _
    exact (local_read _ _).bind fun kOff => (local_read _ _).bind fun kLen =>
      (local_read _ _).bind fun vOff => (local_read _ _).bind fun vLen => .const _

theorem local_groupEntry (keyBasePtr valBasePtr : Int)
    (state : (Nat → Option Nat) × List (Nat × List KeyValuePair)) (toc : KvLoc) :
    BlockLocal fun mem => groupEntry mem keyBasePtr valBasePtr state toc := by
  refine (local_read _ _).bind fun obj_id_and_type => .ite ?_ (.const _)
  exact (local_read _ _).bind fun file_id => .const _

theorem local_scanPair (state : Option EntryPtr × FileSystem) (pair : KeyValuePair) :
    BlockLocal fun mem => scanPair mem state pair := by
  refine (local_read _ _).bind fun obj_id_and_type => .ite (.const _) (.ite ?_ (.ite ?_ (.ite ?_ ?_)))
  · exact (local_scanInode _ _ _).bind fun _ => .const _
  · exact (local_scanFileExtent _ _ _ _).bind fun _ => .const _
  · exact (local_scanDirRec _ _ _ _).bind fun _ => .const _
  · exact .const _

theorem local_scanGroup (fs : FileSystem) (keyValues : List KeyValuePair) :
    BlockLocal fun mem => scanGroup mem fs keyValues := by
  refine (Local.foldlM local_scanPair _ _).bind fun scanned => ?_
  obtain ⟨fileEntry, fs⟩ := scanned
  cases fileEntry <;> exact .const _

theorem local_scanBTreeBlock (scanner : APFSScanner) :
    BlockLocal fun mem => scanBTreeBlock mem scanner := by
  refine (local_readNode _).bind fun read => ?_
  refine (Local.foldlM (local_groupEntry _ _) _ _).bind fun grouped => ?_
  refine Local.bind (Local.foldlM (fun fs entry => ?_) _ _) fun fs => .const _
  exact local_scanGroup fs entry.2

theorem local_scanBlock (scanner : APFSScanner) (pos sectorSize : Nat) :
    BlockLocal fun mem => scanBlock scanner pos mem sectorSize := by
  refine (local_fletcher64 _ _).bind fun cksum => (local_read _ _).bind fun o_type =>
    (local_read _ _).bind fun o_cksum => .ite (.ite ?_ (.ite ?_ ?_)) (.const _)
  · refine (local_read _ _).bind fun nx_magic => .ite ?_ (.const _)
    exact (local_read _ _).bind fun nx_block_size => .const _
  · exact local_scanBTreeBlock scanner
  · exact .const _

-- No block of the scan makes the parser look outside of it.
def ScanInside : APFSScanner → List ScannedBlock → Prop
  | _, [] => True
  | scanner, b :: blocks =>
      (scanBlock scanner b.pos b.block b.sectorSize).Within Access.InBlock ∧
        ScanInside (scanBlock scanner b.pos b.block b.sectorSize).val blocks

-- The two calls hand over the same block from the same position.
structure SameContent (b b' : ScannedBlock) : Prop where
  pos : b'.pos = b.pos
  block : SameBlock b.block b'.block

theorem scanBlock_of_sameContent {scanner : APFSScanner} {b b' : ScannedBlock} (h : SameContent b b')
    (hinside : (scanBlock scanner b.pos b.block b.sectorSize).Within Access.InBlock) :
    scanBlock scanner b'.pos b'.block b'.sectorSize =
      scanBlock scanner b.pos b.block b.sectorSize := by
  rw [h.pos]
  exact local_scanBlock scanner b.pos b.sectorSize h.block hinside

-- A scan whose parses stay inside is one of the blocks alone.
theorem scanBlocks_of_sameContent {scanner : APFSScanner} {blocks blocks' : List ScannedBlock}
    (h : List.Forall₂ SameContent blocks blocks') (hinside : ScanInside scanner blocks) :
    scanBlocks scanner blocks' = scanBlocks scanner blocks ∧ ScanInside scanner blocks' := by
  induction h generalizing scanner with
  | nil => exact ⟨rfl, trivial⟩
  | cons hhead _ ih =>
      obtain ⟨hfirst, hrest⟩ := hinside
      have hsame := scanBlock_of_sameContent hhead hfirst
      rw [scanBlocks_cons, scanBlocks_cons, ScanInside, hsame]
      obtain ⟨heq, hin⟩ := ih hrest
      exact ⟨heq, hfirst, hin⟩

end SuperBadBlock
