import SuperBadBlock.Memory

namespace SuperBadBlock

def MAX_CKSUM_SIZE : Nat := 8

def OBJECT_TYPE_NX_SUPERBLOCK : Nat := 0x00000001

def OBJECT_TYPE_BTREE : Nat := 0x00000002

def OBJECT_TYPE_BTREE_NODE : Nat := 0x00000003

def NX_MAGIC_NO : Nat := 0x4253584e

def BTNODE_ROOT : Nat := 0x0001

def BTNODE_LEAF : Nat := 0x0002

def BTNODE_FIXED_KV_SIZE : Nat := 0x0004

def OBJ_ID_MASK : Nat := 0x0FFFFFFFFFFFFFFF

def OBJ_TYPE_SHIFT : Nat := 60

def APFS_TYPE_ANY : Nat := 0

def APFS_TYPE_INODE : Nat := 3

def APFS_TYPE_FILE_EXTENT : Nat := 8

def APFS_TYPE_DIR_REC : Nat := 9

def DREC_TYPE_MASK : Nat := 0x000F

def J_FILE_EXTENT_LEN_MASK : Nat := 0x00FFFFFFFFFFFFFF

def INO_EXT_TYPE_DSTREAM : Nat := 8

-- Sizes of the packed on-disk structures.
def sizeof_btree_node_phys_t : Int := 56

def sizeof_btree_info_t : Int := 40

def sizeof_kvloc_t : Int := 8

def sizeof_kvoff_t : Int := 4

def sizeof_j_inode_val_t : Int := 92

def sizeof_xf_blob_t : Int := 4

def sizeof_x_field_t : Int := 4

namespace Memory

variable (mem : Memory) (p : Int)

-- obj_phys_t
def o_cksum : Parse Nat := mem.read p 8

def o_xid : Parse Nat := mem.read (p + 16) 8

def o_type : Parse Nat := mem.read (p + 24) 4

-- nx_superblock_t
def nx_magic : Parse Nat := mem.read (p + 32) 4

def nx_block_size : Parse Nat := mem.read (p + 36) 4

-- btree_node_phys_t
def btn_flags : Parse Nat := mem.read (p + 32) 2

def btn_nkeys : Parse Nat := mem.read (p + 36) 4

def btn_table_space_off : Parse Nat := mem.read (p + 40) 2

def btn_table_space_len : Parse Nat := mem.read (p + 42) 2

-- btree_info_t
def bt_key_size : Parse Nat := mem.read (p + 8) 4

def bt_val_size : Parse Nat := mem.read (p + 12) 4

-- j_key_t
def obj_id_and_type : Parse Nat := mem.read p 8

-- j_inode_val_t
def parent_id : Parse Nat := mem.read p 8

def private_id : Parse Nat := mem.read (p + 8) 8

-- xf_blob_t
def xf_num_exts : Parse Nat := mem.read p 2

-- x_field_t
def x_type : Parse Nat := mem.read p 1

def x_size : Parse Nat := mem.read (p + 2) 2

-- j_dstream_t
def dstream_size : Parse Nat := mem.read p 8

-- j_drec_hashed_key_t
def drec_name : Parse (List UInt8) := mem.cstring (p + 12)

-- j_drec_val_t
def file_id : Parse Nat := mem.read p 8

def drec_flags : Parse Nat := mem.read (p + 16) 2

-- j_file_extent_key_t
def logical_addr : Parse Nat := mem.read (p + 8) 8

-- j_file_extent_val_t
def len_and_flags : Parse Nat := mem.read p 8

def phys_block_num : Parse Nat := mem.read (p + 8) 8

end Memory

-- kvloc_t
structure KvLoc where
  kOff : Nat
  kLen : Nat
  vOff : Nat
  vLen : Nat

end SuperBadBlock
