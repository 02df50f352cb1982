import SuperBadBlock.ApfsScanner.Gate

namespace SuperBadBlock

namespace Memory

-- The low `len` bytes of `x` stored from `off` on, little-endian.
def store (mem : Memory) (off : Int) (len x : Nat) : Memory := fun o =>
  if off ≤ o ∧ o < off + len then UInt8.ofNat (x / 256 ^ (o - off).toNat) else mem o

-- A string with its NUL.
def storeString (mem : Memory) (off : Int) (s : List UInt8) : Memory := fun o =>
  if off ≤ o ∧ o ≤ off + s.length then s.getD (o - off).toNat 0 else mem o

theorem le_store_self (mem : Memory) (off : Int) (len x : Nat) :
    (mem.store off len x).le off len = x % 256 ^ len := by
  refine le_of_bytes _ off len x fun i hi => ?_
  have hsub : (off + i - off).toNat = i := by omega
  rw [store, if_pos (by omega), hsub]

theorem le_store_of_disjoint (mem : Memory) (off off' : Int) (len len' x : Nat)
    (h : off' + len' ≤ off ∨ off + len ≤ off') :
    (mem.store off len x).le off' len' = mem.le off' len' :=
  le_congr fun i hlo hhi => if_neg (by omega)

end Memory

-- How a record of each kind lies in its value, and how long that is.
def Record.valueLength : Record → Nat
  | inode _ _ none => 92
  | inode _ _ (some _) => 108
  | fileExtent _ _ => 24
  | dirRec _ _ _ _ => 18
  | other _ => 0

-- The record stored with its key at `key` and its value at `value`. The size of
-- a data stream is the only extended field.
def Record.store (mem : Memory) (key value : Int) : Record → Memory
  | inode id parentId length =>
      let mem := mem.store key 8 (id + APFS_TYPE_INODE * 2 ^ OBJ_TYPE_SHIFT)
      let mem := mem.store value 8 parentId
      match length with
      | none => mem
      | some size =>
          let mem := mem.store (value + 92) 2 1
          let mem := mem.store (value + 96) 1 INO_EXT_TYPE_DSTREAM
          let mem := mem.store (value + 98) 2 8
          mem.store (value + 100) 8 size
  | fileExtent id extent =>
      let mem := mem.store key 8 (id + APFS_TYPE_FILE_EXTENT * 2 ^ OBJ_TYPE_SHIFT)
      let mem := mem.store (key + 8) 8 extent.logicalAddress
      let mem := mem.store value 8 extent.length
      mem.store (value + 8) 8 extent.physicalBlock
  | dirRec id fileId name type =>
      let mem := mem.store key 8 (id + APFS_TYPE_DIR_REC * 2 ^ OBJ_TYPE_SHIFT)
      let mem := mem.storeString (key + 12) name
      let mem := mem.store value 8 fileId
      mem.store (value + 16) 2 type
  | other id => mem.store key 8 id

-- Record `k` of a node has its key in a slot of 32 bytes, counted from `keys` on,
-- and its value in a slot of 112 bytes, counted back from the end of the block.
def storeRecords (keys : Int) : Nat → List Record → Memory → Memory
  | _, [], mem => mem
  | k, record :: records, mem =>
      let mem := mem.store (56 + 8 * k) 2 (32 * k)
      let mem := mem.store (56 + 8 * k + 4) 2 (112 * (k + 1))
      let mem := mem.store (56 + 8 * k + 6) 2 record.valueLength
      let mem := record.store mem (keys + 32 * k) (4096 - 112 * (k + 1))
      storeRecords keys (k + 1) records mem

-- A block of 4096 bytes that holds a node.
def nodeImage (node : Node) : Memory :=
  let mem := storeRecords (56 + 8 * node.records.length) 0 node.records fun _ => 0
  let mem := mem.store 42 2 (8 * node.records.length)
  let mem := mem.store 36 4 node.records.length
  let mem := mem.store 32 2 node.flags
  let mem := mem.store 24 4 OBJECT_TYPE_BTREE_NODE
  let mem := mem.store 16 8 node.xid
  mem.withChecksum

-- A block that holds an NX superblock.
def superblockImage (blockSize : Nat) : Memory :=
  let mem : Memory := fun _ => 0
  let mem := mem.store 36 4 blockSize
  let mem := mem.store 32 4 NX_MAGIC_NO
  let mem := mem.store 24 4 OBJECT_TYPE_NX_SUPERBLOCK
  mem.withChecksum

theorem isNode_nodeImage (node : Node) : IsNode 4096 (nodeImage node) := by
  have htype : (nodeImage node).le 24 4 = OBJECT_TYPE_BTREE_NODE := by
    rw [nodeImage, Memory.le_withChecksum _ _ _ (by decide),
      Memory.le_store_of_disjoint _ _ _ _ _ _ (by decide), Memory.le_store_self]
    rfl
  refine ⟨valid_withChecksum _ ?_, Or.inl ?_⟩
  · have hne : (nodeImage node).le 24 4 ≠ 0 := by
      rw [htype]
      decide
    rwa [nodeImage, Memory.le_withChecksum _ _ _ (by decide)] at hne
  · change (nodeImage node).le 24 4 &&& 0xffff = _
    rw [htype]
    rfl

theorem isSuperblock_superblockImage (blockSize : Nat) :
    IsSuperblock 4096 (superblockImage blockSize) := by
  have htype : (superblockImage blockSize).le 24 4 = OBJECT_TYPE_NX_SUPERBLOCK := by
    rw [superblockImage, Memory.le_withChecksum _ _ _ (by decide), Memory.le_store_self]
    rfl
  refine ⟨valid_withChecksum _ ?_, ?_, ?_⟩
  · have hne : (superblockImage blockSize).le 24 4 ≠ 0 := by
      rw [htype]
      decide
    rwa [superblockImage, Memory.le_withChecksum _ _ _ (by decide)] at hne
  · change (superblockImage blockSize).le 24 4 &&& 0xffff = _
    rw [htype]
    rfl
  · change (superblockImage blockSize).le 32 4 = _
    rw [superblockImage, Memory.le_withChecksum _ _ _ (by decide),
      Memory.le_store_of_disjoint _ _ _ _ _ _ (by decide), Memory.le_store_self]
    rfl

theorem flags_nodeImage (node : Node) (size : Nat) :
    (nodeOf (nodeImage node) size).flags = node.flags % 2 ^ 16 := by
  change (nodeImage node).le 32 2 = _
  rw [nodeImage, Memory.le_withChecksum _ _ _ (by decide),
    Memory.le_store_of_disjoint _ _ _ _ _ _ (by decide),
    Memory.le_store_of_disjoint _ _ _ _ _ _ (by decide), Memory.le_store_self]
  rfl

-- The image of a disk whose blocks are the given nodes.
def nodeImages (nodes : List Node) : List ScannedBlock :=
  nodes.map fun node => { pos := 0, block := nodeImage node }

-- A scan of node images takes every node.
theorem scannedNodes_nodeImages (nodes : List Node) :
    scannedNodes 4096 (nodeImages nodes) = nodes.map fun node => nodeOf (nodeImage node) 4096 := by
  rw [scannedNodes_of_isNode, nodeImages, List.map_map]
  · rfl
  · exact List.forall_mem_map.mpr fun node _ => isNode_nodeImage node

-- The entry that a scan of node images leaves for an inode.
theorem cached_nodeImages {nodes : List Node}
    (hdecodes : ∀ node ∈ nodes, nodeOf (nodeImage node) 4096 = node) (i : Nat) :
    (scanBlocks {} (nodeImages nodes)).fileSystem.cached i =
      (eventsOf i nodes).foldl (fun old event => event.absorb i old) none := by
  have hnodes : (nodes.map fun node => nodeOf (nodeImage node) 4096) = nodes :=
    (List.map_congr_left hdecodes).trans (List.map_id nodes)
  rw [cached_scanBlocks, scannedNodes_nodeImages, hnodes]

theorem isLeaf_nodeImage (node : Node) (h : node.flags % 2 ^ 16 &&& BTNODE_LEAF ≠ 0) :
    IsLeaf 4096 (nodeImage node) := by
  refine ⟨isNode_nodeImage node, ?_⟩
  rw [Node.IsLeaf, flags_nodeImage]
  exact h

theorem isLeaf_nodeImages (nodes : List Node)
    (h : ∀ node ∈ nodes, node.flags % 2 ^ 16 &&& BTNODE_LEAF ≠ 0) :
    ∀ b ∈ nodeImages nodes, IsLeaf 4096 b.block :=
  List.forall_mem_map.mpr fun node hm => isLeaf_nodeImage node (h node hm)

end SuperBadBlock
