import SuperBadBlock.FileSystem.Lookup
import SuperBadBlock.FileSystem.Read

namespace SuperBadBlock

def EACCES : Int := 13

def O_ACCMODE : Nat := 3

def O_RDONLY : Nat := 0

def DT_DIR : Nat := 4

def DT_REG : Nat := 8

def S_IFREG : Nat := 0x8000

def S_IFDIR : Nat := 0x4000

-- The members of `struct stat` that `sbb_getattr` sets.
structure Stat where
  st_mode : Nat := 0
  st_nlink : Nat := 0
  st_size : Nat := 0

-- `g_fileHunter->getFileSystem()`, with whether `m_databaseMutex` is held.
structure Mount where
  fileSystem : FileSystem
  locked : Bool := false

namespace Mount

variable (splitString : List UInt8 → UInt8 → List (List UInt8))

-- A null pointer that is followed ends the process between `lock` and `unlock`.
def findByPath (m : Mount) (path : List UInt8) : Option (Option EntryPtr) × Mount :=
  let m := { m with locked := true }
  match m.fileSystem.findByPath splitString path with
  | (none, fs) => (none, { m with fileSystem := fs })
  | (some partEntry, fs) => (some partEntry, { m with fileSystem := fs, locked := false })

-- What the four callbacks have in common: the lookup, and the answer without an entry.
def callback {α : Type} (m : Mount) (path : List UInt8) (notFound : α)
    (found : Mount → EntryPtr → α × Mount) : Option α × Mount :=
  match m.findByPath splitString path with
  | (none, m) => (none, m)
  | (some none, m) => (some notFound, m)
  | (some (some entry), m) =>
      let (answer, m) := found m entry
      (some answer, m)

def sbb_getattr (m : Mount) (path : List UInt8) (stbuf : Stat) : Option (Int × Stat) × Mount :=
  m.callback splitString path (-ENOENT, stbuf) fun m entry =>
    let e := m.fileSystem.heap entry
    let stbuf := if e.type = DT_REG then
        { stbuf with st_mode := S_IFREG ||| 0o444, st_nlink := 1, st_size := e.length }
      else if e.type = DT_DIR then { stbuf with st_mode := S_IFDIR ||| 0o755, st_nlink := 2 }
      else stbuf
    ((0, stbuf), m)

def sbb_readdir (m : Mount) (path : List UInt8) : Option (Int × List (List UInt8)) × Mount :=
  m.callback splitString path (-ENOENT, []) fun m entry =>
    let (children, fs) := m.fileSystem.findByParentInode (m.fileSystem.heap entry).inode
    ((0, [dot] :: [dot, dot] :: children.map fun child => (fs.heap child).name),
      { m with fileSystem := fs })

def sbb_open (m : Mount) (path : List UInt8) (flags : Nat) : Option Int × Mount :=
  m.callback splitString path (-ENOENT) fun m _ =>
    if flags &&& O_ACCMODE ≠ O_RDONLY then (-EACCES, m) else (0, m)

-- `fileBuffer` is what the array of `read` holds before the first `pread`; the result
-- is converted to `int`.
def sbb_read (std : ExtentSort) (device : Device) (m : Mount) (path : List UInt8)
    (fileBuffer buf : Memory) (size : Nat) (offset : Int) : Option (Int × Memory) × Mount :=
  m.callback splitString path (-ENOENT, buf) fun m entry =>
    let (n, buf, fs) := (m.fileSystem.read std device fileBuffer entry buf offset size).val
    ((toInt n, buf), { m with fileSystem := fs })

-- A request of the kernel, with the buffers it comes with.
inductive Request where
  | getattr (path : List UInt8) (stbuf : Stat)
  | readdir (path : List UInt8)
  | «open» (path : List UInt8) (flags : Nat)
  | read (path : List UInt8) (fileBuffer buf : Memory) (size : Nat) (offset : Int)

def Request.path : Request → List UInt8
  | getattr path _ => path
  | readdir path => path
  | «open» path _ => path
  | read path _ _ _ _ => path

-- The entry of `sbb_oper` for a request, as far as its result goes.
def answer (std : ExtentSort) (device : Device) (m : Mount) : Request → Option Int × Mount
  | .getattr path stbuf =>
      let (reply, m) := m.sbb_getattr splitString path stbuf
      (reply.map Prod.fst, m)
  | .readdir path =>
      let (reply, m) := m.sbb_readdir splitString path
      (reply.map Prod.fst, m)
  | .«open» path flags => m.sbb_open splitString path flags
  | .read path fileBuffer buf size offset =>
      let (reply, m) := m.sbb_read splitString std device path fileBuffer buf size offset
      (reply.map Prod.fst, m)

-- The states a mount of the tables of `store` gets to while it answers requests.
inductive Mounted (std : ExtentSort) (device : Device) (store : FileSystem) : Mount → Prop
  | start : Mounted std device store { fileSystem := store.reopen }
  | step {m m' : Mount} {request : Request} {result : Int} : Mounted std device store m →
      m.answer splitString std device request = (some result, m') → Mounted std device store m'

-- The request finds the mutex free, is answered for an entry or with `-ENOENT`, and
-- leaves the mutex free.
def Answered (std : ExtentSort) (device : Device) (m : Mount) (request : Request) : Prop :=
  m.locked = false ∧
  ∃ result m', m.answer splitString std device request = (some result, m') ∧ m'.locked = false ∧
    ((∃ entry, (m.findByPath splitString request.path).1 = some (some entry)) ∨
      (m.findByPath splitString request.path).1 = some none ∧ result = -ENOENT)

end Mount

end SuperBadBlock
