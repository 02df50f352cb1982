import SuperBadBlock.ApfsScanner
import SuperBadBlock.FileSystem.Read
import SuperBadBlock.FileSystem.Reopen

namespace SuperBadBlock

-- One call of `::read` on an open image: its result, the bytes it stores, and what
-- the array `block` holds before it. Calls behind the last one of a list are at the
-- end of the image and return 0.
structure ReadCall where
  res : Int
  data : Memory
  stale : Memory

def ReadCall.block (call : ReadCall) : Memory := call.stale.copy 0 call.data 0 call.res.toNat

-- On a bad descriptor every call fails.
def ReadCall.result (call : ReadCall) (fd : Int) : Int := if fd < 0 then -1 else call.res

-- The members of `DiskScanner`. `m_scanners` has one element, which writes to
-- `m_fileSystem`.
structure DiskScanner where
  fd : Int
  apfs : APFSScanner
  running : Bool := false

namespace DiskScanner

-- `fd` is the result of `::open`, `db` the state of the database file. The
-- library's `checkSchema` prepares the tables; creating the indices leaves the
-- rows alone.
def «open» (checkSchema : FileSystem → FileSystem) (db : FileSystem) (fd : Int) :
    Bool × DiskScanner :=
  let fileSystem := checkSchema db.reopen
  let scanner : DiskScanner := { fd := fd, apfs := { fileSystem := fileSystem } }
  if fd < 0 then (false, scanner) else (true, scanner)

-- The loop of `scan`, which nothing in it stops.
def scanLoop (scanner : DiskScanner) (pos : Nat) : List ReadCall → DiskScanner
  | [] => scanner
  | call :: calls =>
      if scanner.running then
        let res := call.result scanner.fd
        if res = 0 then scanner
        else if res < 0 then scanner
        else
          let apfs := (scanBlock scanner.apfs pos call.block res.toNat).val
          scanLoop { scanner with apfs := apfs } (u64 (pos + 4096)) calls
      else scanner

def scan (scanner : DiskScanner) (calls : List ReadCall) : Bool × DiskScanner :=
  let apfs := { scanner.apfs with fileSystem := scanner.apfs.fileSystem.clear }
  (false, { scanner with apfs := apfs, running := true }.scanLoop 0 calls)

end DiskScanner

-- `main` of the superblock tool. It looks at neither result, and `dumpTree` after
-- the scan only queries.
def FileHunter.main (checkSchema : FileSystem → FileSystem) (db : FileSystem) (fd : Int)
    (calls : List ReadCall) : DiskScanner :=
  let (_, g_fileHunter) := DiskScanner.«open» checkSchema db fd
  let (_, g_fileHunter) := g_fileHunter.scan calls
  g_fileHunter

end SuperBadBlock
