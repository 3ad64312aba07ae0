import Fusey.GoLib.Machine
import Fusey.GoLib.Map

/-!
Contract: the data types of the filesystem index (`internal/index/types.go`).

Integers: an `int64` field is an `Int`, and arithmetic on it goes through
`GoInt.wrap64`; `Nlink` is a natural number reduced modulo `2^32` where it is
updated; inode numbers are naturals. Names, symlink targets and attribute values
are byte strings; chunk identifiers are object keys, given as characters.
-/

set_option autoImplicit false

namespace Fusey

open GoInt

/-- The bytes of a Go `[]byte`. -/
abbrev Bytes := List UInt8

/-- An object key of the backing store; chunk identifiers are object keys. -/
abbrev Key := List Char

instance Key.lawfulBEq : LawfulBEq Key := inferInstance

/-- A file name, attribute name or symlink target, as Linux passes it. -/
abbrev Name := List UInt8

/-- An inode number. -/
abbrev Ino := Nat

/-- `FileType`: the file-type bits of the Linux mode word. -/
structure FileType where
  bits : UInt32
deriving DecidableEq, Repr

namespace FileType

def regular : FileType := ⟨0o100000⟩
def directory : FileType := ⟨0o040000⟩
def symlink : FileType := ⟨0o120000⟩
def blockDev : FileType := ⟨0o060000⟩
def charDev : FileType := ⟨0o020000⟩
def fifo : FileType := ⟨0o010000⟩
def socket : FileType := ⟨0o140000⟩

theorem regular_ne_directory : regular ≠ directory := by decide

theorem symlink_ne_regular : symlink ≠ regular := by decide

end FileType

/-- `Inode`. -/
structure Inode where
  ino : Ino
  fileType : FileType
  mode : UInt32
  nlink : Nat
  uid : UInt32
  gid : UInt32
  size : Int
  atime : Int
  mtime : Int
  ctime : Int
  blksize : Int
  blocks : Int
  rdev : UInt32
deriving DecidableEq, Repr

/-- `Extent`: a run of a file's bytes inside one chunk object. -/
structure Extent where
  chunkID : Key
  chunkOffset : Int
  length : Int
  fileOffset : Int
deriving DecidableEq, Repr

/-- `DirEntry`. -/
structure DirEntry where
  parentIno : Ino
  name : Name
  childIno : Ino
deriving DecidableEq, Repr

/-- `Snapshot`: the serialisable form of the index. -/
structure Snapshot where
  inodes : GoMap Ino Inode
  dirEntries : List DirEntry
  extentMap : GoMap Ino (List Extent)
  symlinkTargets : GoMap Ino Name
  xattrs : GoMap Ino (GoMap Name Name)
  nextIno : Ino
deriving DecidableEq

/-- `blocks512`: Go divides towards zero. -/
def blocks512 (size : Int) : Int := (wrap64 (size + 511)).tdiv 512

/-- `FullMode`: file type bits and permission bits together. -/
def Inode.fullMode (inode : Inode) : UInt32 := inode.fileType.bits ||| inode.mode

end Fusey
