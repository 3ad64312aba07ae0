import Mathlib.Algebra.BigOperators.Group.Multiset.Basic
import Fusey.Index.Extents

/-!
Contract: the in-memory index and its locked methods
(`internal/index/index.go`). Each method is one atomic step; a method that
returns an error leaves the index as it was.

Owns the index, its constructors, every read and write method, and the
failures: the error values the methods return and the run-time panics they can
reach (a nil inode dereferenced, an assignment to a nil map).

A loop over a Go map takes the order it visits as an argument.
-/

set_option autoImplicit false

namespace Fusey

open GoInt

/-- `RootIno`. -/
def rootIno : Ino := 1

/-- The errors of the index methods, with the values their texts print. -/
inductive IndexError where
  | parentNotFound (ino : Ino)
  | notDirectory (ino : Ino)
  | childNotFound (ino : Ino)
  | entryExists (name : Name) (dir : Ino)
  | entryNotFound (name : Name) (dir : Ino)
  | directoryNotEmpty (ino : Ino)
  | sourceNotFound (name : Name) (dir : Ino)
  | destinationNotEmpty (ino : Ino)
  | inodeNotFound (ino : Ino)
  | notRegular (ino : Ino)
  | notSymlink (ino : Ino)
  | xattrNotFound (name : Name) (ino : Ino)
deriving DecidableEq, Repr

/-- The result of a fallible method. -/
abbrev Outcome (α : Type) := Except (GoFault IndexError) α

/-- `Index`. -/
structure Index where
  inodes : GoMap Ino Inode
  dirIndex : GoMap Ino (GoMap Name Ino)
  extents : GoMap Ino (List Extent)
  symlinks : GoMap Ino Name
  xattrs : GoMap Ino (GoMap Name Name)
  nextIno : Ino
  blockSize : Int
  dirty : Bool
  remoteDirty : Bool
deriving DecidableEq

namespace Index

/-- `New`: an empty filesystem with a root directory. -/
def new (blockSize now : Int) : Index :=
  { inodes := (∅ : GoMap Ino Inode).set rootIno
      { ino := rootIno, fileType := .directory, mode := 0o755, nlink := 1, uid := 0, gid := 0,
        size := 0, atime := now, mtime := now, ctime := now, blksize := blockSize, blocks := 0,
        rdev := 0 }
    dirIndex := (∅ : GoMap Ino (GoMap Name Ino)).set rootIno ∅
    extents := ∅
    symlinks := ∅
    xattrs := ∅
    nextIno := rootIno + 1
    blockSize := blockSize
    dirty := false
    remoteDirty := false }

/-- Both dirty flags raised, as every structural mutator ends. -/
def touched (idx : Index) : Index := { idx with dirty := true, remoteDirty := true }

/-! ### Read methods -/

/-- `GetInode`. -/
def getInode (idx : Index) (ino : Ino) : Option Inode := idx.inodes.get ino

/-- `idx.dirIndex[parent][name]`: a missing directory map reads as empty. -/
def entry (idx : Index) (parent : Ino) (name : Name) : Option Ino :=
  (idx.dirIndex.get parent).bind fun children => children.get name

/-- `Lookup`. -/
def lookup (idx : Index) (parent : Ino) (name : Name) : Option Ino := idx.entry parent name

/-- `Readdir`, when the loop over the directory visits it in `order`. -/
def readdir (idx : Index) (order : List (Name × Ino)) (ino : Ino) : Outcome (List DirEntry) :=
  match idx.inodes.get ino with
  | none => .error (.error (.inodeNotFound ino))
  | some inode =>
      if inode.fileType ≠ .directory then .error (.error (.notDirectory ino))
      else .ok (order.map fun child => ⟨ino, child.1, child.2⟩)

/-- `GetExtents`. -/
def getExtents (idx : Index) (ino : Ino) : Option (List Extent) := idx.extents.get ino

/-- `GetSymlink`. -/
def getSymlink (idx : Index) (ino : Ino) : Option Name := idx.symlinks.get ino

/-- `GetXattrs`: a missing attribute map reads as empty. -/
def getXattrs (idx : Index) (ino : Ino) : GoMap Name Name := (idx.xattrs.get ino).getD ∅

/-- `GetParentIno`, when the loop over the directories visits them in `order`: the
first one with an entry for `ino`. -/
def getParentIno (order : List (Ino × GoMap Name Ino)) (ino : Ino) : Ino :=
  if ino = rootIno then rootIno
  else
    match order.find? fun dir => decide (ino ∈ dir.2.entries.map Prod.snd) with
    | some dir => dir.1
    | none => ino

/-- `UsedBytes`. The order of a wrapping sum does not matter. -/
def usedBytes (idx : Index) : Int :=
  wrap64 (idx.inodes.entries.map fun entry =>
    if entry.2.fileType = .regular then entry.2.size else 0).sum

/-- `LiveExtents`, when the loop over the extent map visits it in `order`. -/
def liveExtents (order : List (Ino × List Extent)) : List Extent := order.flatMap Prod.snd

/-- The directory entries, in no order. -/
def dirEntries (idx : Index) : Multiset DirEntry :=
  idx.dirIndex.entries.bind fun dir =>
    dir.2.entries.map fun child => ⟨dir.1, child.1, child.2⟩

/-- `len(idx.dirIndex[ino]) > 0`. -/
def hasChildren (idx : Index) (ino : Ino) : Bool :=
  match idx.dirIndex.get ino with
  | some children => decide (children ≠ ∅)
  | none => false

/-! ### Write methods -/

/-- `CreateInode`. The new number is the old `nextIno`. -/
def createInode (idx : Index) (fileType : FileType) (mode uid gid rdev : UInt32) (now : Int) :
    Ino × Index :=
  let ino := idx.nextIno
  let inode : Inode :=
    { ino := ino
      fileType := fileType
      mode := mode
      -- A directory starts with its own "." link; other files start at 0.
      nlink := if fileType = .directory then 1 else 0
      uid := uid
      gid := gid
      size := 0
      atime := now
      mtime := now
      ctime := now
      blksize := idx.blockSize
      blocks := 0
      rdev := rdev }
  (ino, touched
    { idx with
      nextIno := ino + 1
      inodes := idx.inodes.set ino inode
      extents := if fileType = .regular then idx.extents.set ino [] else idx.extents
      dirIndex := if fileType = .directory then idx.dirIndex.set ino ∅ else idx.dirIndex })

/-- `parent.Mtime = now; parent.Ctime = now`. -/
def stampParent (now : Int) (inode : Inode) : Inode := { inode with mtime := now, ctime := now }

/-- `child.Nlink++`, which wraps in `uint32`. -/
def gainLink (now : Int) (inode : Inode) : Inode :=
  { inode with nlink := if inode.nlink = 4294967295 then 0 else inode.nlink + 1, ctime := now }

/-- `Nlink - 1`, which wraps in `uint32`. -/
def loseLink (nlink : Nat) : Nat := if nlink = 0 then 4294967295 else nlink - 1

/-- The link count at which an inode is freed: a directory keeps its ".". -/
def freeThreshold (inode : Inode) : Nat := if inode.fileType = .directory then 1 else 0

/-- Delete an inode and everything kept under its number. -/
def free (idx : Index) (ino : Ino) : Index :=
  { idx with
    inodes := idx.inodes.delete ino
    extents := idx.extents.delete ino
    symlinks := idx.symlinks.delete ino
    xattrs := idx.xattrs.delete ino
    dirIndex := idx.dirIndex.delete ino }

/-- `AddDirEntry`. -/
def addDirEntry (idx : Index) (parentIno : Ino) (name : Name) (childIno : Ino) (now : Int) :
    Outcome Index :=
  match idx.inodes.get parentIno with
  | none => .error (.error (.parentNotFound parentIno))
  | some parent =>
      if parent.fileType ≠ .directory then .error (.error (.notDirectory parentIno))
      else
        match idx.inodes.get childIno with
        | none => .error (.error (.childNotFound childIno))
        | some _ =>
            match idx.entry parentIno name with
            | some _ => .error (.error (.entryExists name parentIno))
            | none =>
                match idx.dirIndex.get parentIno with
                | none => .error .panic
                | some children =>
                    .ok (touched
                      { idx with
                        dirIndex := idx.dirIndex.set parentIno (children.set name childIno)
                        inodes := (idx.inodes.modify childIno (gainLink now)).modify parentIno
                          (stampParent now) })

/-- `delete(idx.dirIndex[parent], name)`. -/
def deleteEntry (idx : Index) (parent : Ino) (name : Name) : Index :=
  { idx with dirIndex := idx.dirIndex.modify parent fun children => children.delete name }

/-- Take one link from `childIno`: free it at its threshold, otherwise store
the lower count, stamped by `stamp`. -/
def unlinkChild (idx : Index) (childIno : Ino) (child : Inode) (stamp : Inode → Inode) : Index :=
  if loseLink child.nlink ≤ freeThreshold child then idx.free childIno
  else
    { idx with
      inodes := idx.inodes.modify childIno fun inode =>
        stamp { inode with nlink := loseLink inode.nlink } }

/-- `RemoveDirEntry`. -/
def removeDirEntry (idx : Index) (parentIno : Ino) (name : Name) (now : Int) : Outcome Index :=
  match idx.inodes.get parentIno with
  | none => .error (.error (.parentNotFound parentIno))
  | some _ =>
      match idx.entry parentIno name with
      | none => .error (.error (.entryNotFound name parentIno))
      | some childIno =>
          match idx.inodes.get childIno with
          | none => .error .panic
          | some child =>
              if child.fileType = .directory ∧ idx.hasChildren childIno then
                .error (.error (.directoryNotEmpty childIno))
              else
                let unlinked := (idx.deleteEntry parentIno name).unlinkChild childIno child
                  fun inode => { inode with ctime := now }
                .ok (touched
                  { unlinked with inodes := unlinked.inodes.modify parentIno (stampParent now) })

/-- The replacement half of `Rename`: give up the entry's old inode. -/
def replaceDestination (idx : Index) (dstParent : Ino) (dstName : Name) : Outcome Index :=
  match idx.entry dstParent dstName with
  | none => .ok idx
  | some dstChildIno =>
      match idx.inodes.get dstChildIno with
      | none => .error .panic
      | some dstChild =>
          if dstChild.fileType = .directory ∧ idx.hasChildren dstChildIno then
            .error (.error (.destinationNotEmpty dstChildIno))
          else .ok (idx.unlinkChild dstChildIno dstChild id)

/-- The second half of `Rename`: move the entry and stamp the times. -/
def moveEntry (idx : Index) (srcParent : Ino) (srcName : Name) (dstParent : Ino) (dstName : Name)
    (srcChildIno : Ino) (now : Int) : Outcome Index :=
  let removed := idx.deleteEntry srcParent srcName
  match removed.dirIndex.get dstParent with
  | none => .error .panic
  | some children =>
      let stamped := (removed.inodes.modify srcChildIno fun inode =>
        { inode with ctime := now }).modify srcParent (stampParent now)
      .ok (touched
        { removed with
          dirIndex := removed.dirIndex.set dstParent (children.set dstName srcChildIno)
          inodes := if dstParent ≠ srcParent then stamped.modify dstParent (stampParent now)
            else stamped })

/-- `Rename`. -/
def rename (idx : Index) (srcParent : Ino) (srcName : Name) (dstParent : Ino) (dstName : Name)
    (now : Int) : Outcome Index :=
  match idx.entry srcParent srcName with
  | none => .error (.error (.sourceNotFound srcName srcParent))
  | some srcChildIno =>
      match idx.replaceDestination dstParent dstName with
      | .error failure => .error failure
      | .ok replaced =>
          -- `srcChild.Ctime = now` dereferences the inode read at the start.
          match idx.inodes.get srcChildIno with
          | none => .error .panic
          | some _ => replaced.moveEntry srcParent srcName dstParent dstName srcChildIno now

/-- The fields `SetAttr` may change; `none` is a nil pointer. -/
structure AttrChange where
  mode : Option UInt32 := none
  uid : Option UInt32 := none
  gid : Option UInt32 := none
  size : Option Int := none
  atime : Option Int := none
  mtime : Option Int := none
deriving DecidableEq, Repr

/-- The inode after `SetAttr`. -/
def AttrChange.apply (change : AttrChange) (now : Int) (inode : Inode) : Inode :=
  let plain : Inode :=
    { inode with
      mode := change.mode.getD inode.mode
      uid := change.uid.getD inode.uid
      gid := change.gid.getD inode.gid
      atime := change.atime.getD inode.atime
      mtime := change.mtime.getD inode.mtime }
  let sized : Inode :=
    match change.size with
    | none => plain
    | some newSize =>
        if newSize ≠ inode.size then
          { plain with size := newSize, blocks := blocks512 newSize, mtime := now }
        else plain
  { sized with ctime := now }

/-- `SetAttr`. -/
def setAttr (idx : Index) (ino : Ino) (change : AttrChange) (now : Int) : Outcome Index :=
  match idx.inodes.get ino with
  | none => .error (.error (.inodeNotFound ino))
  | some inode =>
      let trimmed :=
        match change.size with
        | none => idx.extents
        | some newSize =>
            if newSize ≠ inode.size ∧ inode.fileType = .regular then
              idx.extents.set ino (trimExtents newSize ((idx.extents.get ino).getD []))
            else idx.extents
      .ok (touched
        { idx with
          inodes := idx.inodes.set ino (change.apply now inode)
          extents := trimmed })

/-- The inode after `WriteExtent`. -/
def recordWrite (ext : Extent) (now : Int) (inode : Inode) : Inode :=
  if ext.fileEnd > inode.size then
    { inode with size := ext.fileEnd, blocks := blocks512 ext.fileEnd, mtime := now, ctime := now }
  else { inode with mtime := now, ctime := now }

/-- `WriteExtent`. -/
def writeExtent (idx : Index) (ino : Ino) (ext : Extent) (now : Int) : Outcome Index :=
  match idx.inodes.get ino with
  | none => .error (.error (.inodeNotFound ino))
  | some inode =>
      if inode.fileType ≠ .regular then .error (.error (.notRegular ino))
      else
        .ok (touched
          { idx with
            extents := idx.extents.set ino (writeExtents ((idx.extents.get ino).getD []) ext)
            inodes := idx.inodes.set ino (recordWrite ext now inode) })

/-- `SetSymlink`. -/
def setSymlink (idx : Index) (ino : Ino) (target : Name) (now : Int) : Outcome Index :=
  match idx.inodes.get ino with
  | none => .error (.error (.inodeNotFound ino))
  | some inode =>
      if inode.fileType ≠ .symlink then .error (.error (.notSymlink ino))
      else
        .ok (touched
          { idx with
            symlinks := idx.symlinks.set ino target
            inodes := idx.inodes.set ino { inode with size := target.length, ctime := now } })

/-- `SetXattr`. -/
def setXattr (idx : Index) (ino : Ino) (name value : Name) (now : Int) : Outcome Index :=
  match idx.inodes.get ino with
  | none => .error (.error (.inodeNotFound ino))
  | some inode =>
      .ok (touched
        { idx with
          xattrs := idx.xattrs.set ino (((idx.xattrs.get ino).getD ∅).set name value)
          inodes := idx.inodes.set ino { inode with ctime := now } })

/-- `RemoveXattr`. -/
def removeXattr (idx : Index) (ino : Ino) (name : Name) (now : Int) : Outcome Index :=
  match idx.inodes.get ino with
  | none => .error (.error (.inodeNotFound ino))
  | some inode =>
      match ((idx.xattrs.get ino).getD ∅).get name with
      | none => .error (.error (.xattrNotFound name ino))
      | some _ =>
          .ok (touched
            { idx with
              xattrs := idx.xattrs.modify ino fun attrs => attrs.delete name
              inodes := idx.inodes.set ino { inode with ctime := now } })

/-- `TouchAtime`: the one mutator that leaves the remote flag alone. -/
def touchAtime (idx : Index) (ino : Ino) (now : Int) : Index :=
  match idx.inodes.get ino with
  | none => idx
  | some inode =>
      { idx with inodes := idx.inodes.set ino { inode with atime := now }, dirty := true }

/-- `RemapExtents`. -/
def remapExtents (idx : Index) (remap : GoMap (Key × Int) Extent) : Index :=
  touched
    { idx with
      extents := idx.extents.map fun exts =>
        exts.map fun e => (remap.get (e.chunkID, e.chunkOffset)).getD e }

/-- `MarkClean`. -/
def markClean (idx : Index) : Index := { idx with dirty := false }

/-- `MarkRemoteClean`. -/
def markRemoteClean (idx : Index) : Index := { idx with remoteDirty := false }

/-! ### Snapshots -/

/-- The directory entries in the order the snapshot loop visits them. -/
def Lists (idx : Index) (order : List DirEntry) : Prop :=
  (order : Multiset DirEntry) = idx.dirEntries

instance (idx : Index) (order : List DirEntry) : Decidable (idx.Lists order) := by
  unfold Lists
  infer_instance

/-- `Snapshot`, when the loop over the directories visits them in `order`. -/
def snapshot (idx : Index) (order : List DirEntry) : Snapshot :=
  { inodes := idx.inodes
    dirEntries := order
    extentMap := idx.extents
    symlinkTargets := idx.symlinks
    xattrs := idx.xattrs
    nextIno := idx.nextIno }

/-- `idx.dirIndex[e.ParentIno][e.Name] = e.ChildIno`, creating the directory
map when it is nil. -/
def addSnapshotEntry (dirs : GoMap Ino (GoMap Name Ino)) (e : DirEntry) :
    GoMap Ino (GoMap Name Ino) :=
  dirs.set e.parentIno (((dirs.get e.parentIno).getD ∅).set e.name e.childIno)

/-- An empty directory map for every directory inode. -/
def emptyDirs (inodes : GoMap Ino Inode) : GoMap Ino (GoMap Name Ino) :=
  GoMap.build inodes.keys fun ino =>
    (inodes.get ino).bind fun inode => if inode.fileType = .directory then some ∅ else none

/-- `FromSnapshot`. -/
def fromSnapshot (snap : Snapshot) (blockSize : Int) : Index :=
  { inodes := snap.inodes
    dirIndex := (snap.dirEntries.foldl addSnapshotEntry ∅).orElse (emptyDirs snap.inodes)
    extents := snap.extentMap
    symlinks := snap.symlinkTargets
    xattrs := snap.xattrs
    nextIno := snap.nextIno
    blockSize := blockSize
    dirty := false
    remoteDirty := false }

end Index

end Fusey
