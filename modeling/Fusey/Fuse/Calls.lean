import Fusey.GoLib.Interleaving
import Fusey.Fuse.Daemon

/-!
Contract: the daemon's calls, each as the sequence of atomic steps it issues
(`internal/fuse/fs.go`, `index.Save`, and `buildPersistFn` in
`cmd/fusey/main.go`).

Owns the suspended states of every call, the step each is about to take, and
what it does with the answer. `time.Now()` is read when a call starts and is
one of its arguments.

The calls that only read the index and return are elsewhere: `Readdir`, `Readlink`,
`Getxattr` and `Listxattr` are queries beside these calls, and `Getattr` and
`Statfs` are functions of the index. `Flush` does nothing and is left out.
-/

set_option autoImplicit false

namespace Fusey

open GoInt

/-- The error numbers the calls return. -/
inductive Errno where
  | eio
  | enoent
  | enospc
  | eexist
  | eperm
  | enotdir
  | enotempty
  | enodata
deriving DecidableEq, Repr

/-- The fields of `fuse.SetAttrIn` that `Setattr` reads. -/
structure SetAttrIn where
  valid : UInt32
  mode : UInt32 := 0
  uid : UInt32 := 0
  gid : UInt32 := 0
  size : Nat := 0
  atime : Nat := 0
  atimensec : Nat := 0
  mtime : Nat := 0
  mtimensec : Nat := 0
deriving DecidableEq, Repr

namespace SetAttrIn

/-- `in.Valid&flag != 0`, for `FATTR_MODE`, `FATTR_UID`, `FATTR_GID`,
`FATTR_SIZE`, `FATTR_ATIME` and `FATTR_MTIME`. -/
def has (input : SetAttrIn) (flag : UInt32) : Bool := input.valid &&& flag ≠ 0

/-- The file-type bits that `Setattr` clears from a mode. -/
def typeBits : UInt32 :=
  FileType.regular.bits ||| FileType.directory.bits ||| FileType.symlink.bits |||
    FileType.blockDev.bits ||| FileType.charDev.bits ||| FileType.fifo.bits |||
    FileType.socket.bits

/-- `int64(sec)*1e9 + int64(nsec)`. -/
def nanos (sec nsec : Nat) : Int := wrap64 (wrap64 (wrap64 sec * 1000000000) + nsec)

/-- The pointers `Setattr` passes to `SetAttr`. -/
def change (input : SetAttrIn) : Index.AttrChange :=
  { mode := if input.has 1 then some (input.mode &&& ~~~ typeBits) else none
    uid := if input.has 2 then some input.uid else none
    gid := if input.has 4 then some input.gid else none
    size := if input.has 8 then some (wrap64 input.size) else none
    atime := if input.has 16 then some (nanos input.atime input.atimensec) else none
    mtime := if input.has 32 then some (nanos input.mtime input.mtimensec) else none }

end SetAttrIn

/-- `strings.Contains(err.Error(), "not empty")`: the text itself, or a quoted
name that holds it, with a newline printed as `\n`. -/
def IndexError.saysNotEmpty : IndexError → Bool
  | .directoryNotEmpty _ => true
  | .destinationNotEmpty _ => true
  | .entryNotFound name _ | .entryExists name _ | .sourceNotFound name _ | .xattrNotFound name _ =>
      decide ("not empty".toList.map (fun c => c.toNat.toUInt8) <:+: name) ||
        decide ("\not empty".toList.map (fun c => c.toNat.toUInt8) <:+: name)
  | _ => false

/-- What `Create`, `Mkdir` and `Symlink` make. -/
inductive NewFile where
  | regular
  | directory
  | symlink (target : Name)
deriving DecidableEq, Repr

/-- The type of the new inode. -/
def NewFile.fileType : NewFile → FileType
  | .regular => .regular
  | .directory => .directory
  | .symlink _ => .symlink

/-- Its permission bits. -/
def NewFile.perm (mode : UInt32) : NewFile → UInt32
  | .regular | .directory => mode &&& 0o7777
  | .symlink _ => 0o777

/-- Who called `index.Save`. -/
inductive Saver where
  | fsync
  | persist
deriving DecidableEq, Repr

/-- A call, at the point of its next step. The first state of each call carries
the call's arguments. -/
inductive Call where
  | make (kind : NewFile) (parent : Ino) (name : Name) (mode uid gid : UInt32) (now : Int)
  | makeEntry (kind : NewFile) (parent : Ino) (name : Name) (ino : Ino) (now : Int)
  | makeTarget (ino : Ino) (target : Name) (now : Int)
  | entryAttr (ino : Ino)
  | link (parent target : Ino) (name : Name) (now : Int)
  | linkEntry (parent target : Ino) (name : Name) (now : Int)
  | lookup (parent : Ino) (name : Name)
  | lookupAttr (ino : Ino)
  | unlink (parent : Ino) (name : Name) (now : Int)
  | rmdir (parent : Ino) (name : Name) (now : Int)
  | rmdirAttr (parent : Ino) (name : Name) (child : Ino) (now : Int)
  | rmdirEntry (parent : Ino) (name : Name) (now : Int)
  | rename (parent : Ino) (name : Name) (newParent : Ino) (newName : Name) (now : Int)
  | openFile (ino : Ino)
  | setattr (ino : Ino) (input : SetAttrIn) (now : Int)
  | setattrAttr (ino : Ino)
  | setxattr (ino : Ino) (attr value : Name) (now : Int)
  | removexattr (ino : Ino) (attr : Name) (now : Int)
  | read (ino : Ino) (dest : Nat) (off now : Int)
  | readExtents (ino : Ino) (off fin now : Int)
  | readChunk (ino : Ino) (off fin now : Int) (e : Extent) (rest : List Extent) (buf : Bytes)
  | readTouch (ino : Ino) (now : Int) (buf : Bytes)
  | write (ino : Ino) (data : Bytes) (off now : Int)
  | writeSpace (ino : Ino) (data : Bytes) (off delta now : Int)
  | writeAppend (ino : Ino) (data : Bytes) (off now : Int)
  | writeRecord (ino : Ino) (data : Bytes) (ext : Extent) (now : Int)
  | fsync
  | save (saver : Saver)
  | saveOpen (saver : Saver) (data : Bytes)
  | saveWrite (saver : Saver) (file : Nat) (data : Bytes)
  | saveRename (saver : Saver)
  | saveMark (saver : Saver)
  | persist
  | persistFlush
  | persistCheck
  | persistMarshal
  | persistPut (data : Bytes)
  | persistMark
  | sealActive
  | mutate (m : Mutation)
deriving DecidableEq

/-- How a call ends. -/
inductive Reply where
  | ok
  | errno (e : Errno)
  | entry (ino : Ino)
  | data (bytes : Bytes)
  | written (count : Nat)
  | failed
  | panicked
deriving DecidableEq

/-- The configuration that calls read: `maxFSSize`, whether there is a
`cacheDir`, and the CBOR library. -/
structure Config where
  maxFSSize : Int
  hasCacheDir : Bool
  codec : CborCodec

/-- A configuration to evaluate runs at. -/
noncomputable def sampleConfig : Config := ⟨100, false, .unary []⟩

namespace Call

/-- The extents of a read that do not meet `[off, fin)`. -/
def skips (off fin : Int) (e : Extent) : Bool := decide (e.fileEnd ≤ off ∨ e.fileOffset ≥ fin)

/-- The part of `e` that a read of `[off, fin)` takes: its start in the file,
its start in the chunk and its length. -/
def readStart (off : Int) (e : Extent) : Int := max off e.fileOffset

def readOffset (off : Int) (e : Extent) : Int :=
  wrap64 (e.chunkOffset + wrap64 (readStart off e - e.fileOffset))

def readLength (off fin : Int) (e : Extent) : Int := wrap64 (min fin e.fileEnd - readStart off e)

/-- The next iteration of the read loop that touches a chunk, or its end. -/
def nextRead (ino : Ino) (off fin now : Int) (exts : List Extent) (buf : Bytes) : Call :=
  match exts.dropWhile (skips off fin) with
  | [] => .readTouch ino now buf
  | e :: rest => .readChunk ino off fin now e rest buf

/-- `copy(buf[start:], data)`; `none` is the panic of a bad slice. -/
def copyInto (buf : Bytes) (start : Int) (data : Bytes) : Option Bytes :=
  if 0 ≤ start ∧ start ≤ buf.length then
    some (buf.take start.toNat ++ data.take (buf.length - start.toNat) ++
      buf.drop (start.toNat + data.length))
  else none

/-- The step a call is about to take. -/
def effect : Call → Effect
  | .make kind _ _ mode uid gid now =>
      .mutate (.createInode kind.fileType (kind.perm mode) uid gid 0 now)
  | .makeEntry _ parent name ino now => .mutate (.addDirEntry parent name ino now)
  | .makeTarget ino target now => .mutate (.setSymlink ino target now)
  | .entryAttr ino => .getInode ino
  | .link _ target _ _ => .getInode target
  | .linkEntry parent target name now => .mutate (.addDirEntry parent name target now)
  | .lookup parent name => .lookup parent name
  | .lookupAttr ino => .getInode ino
  | .unlink parent name now => .mutate (.removeDirEntry parent name now)
  | .rmdir parent name _ => .lookup parent name
  | .rmdirAttr _ _ child _ => .getInode child
  | .rmdirEntry parent name now => .mutate (.removeDirEntry parent name now)
  | .rename parent name newParent newName now =>
      .mutate (.rename parent name newParent newName now)
  | .openFile ino => .getInode ino
  | .setattr ino input now => .mutate (.setAttr ino input.change now)
  | .setattrAttr ino => .getInode ino
  | .setxattr ino attr value now => .mutate (.setXattr ino attr value now)
  | .removexattr ino attr now => .mutate (.removeXattr ino attr now)
  | .read ino _ _ _ => .getInode ino
  | .readExtents ino _ _ _ => .getExtents ino
  | .readChunk _ off fin _ e _ _ => .readChunk e.chunkID (readOffset off e) (readLength off fin e)
  | .readTouch ino now _ => .mutate (.touchAtime ino now)
  | .write ino _ _ _ => .getInode ino
  | .writeSpace _ _ _ _ _ => .usedBytes
  | .writeAppend _ data off _ => .append data off
  | .writeRecord ino _ ext now => .mutate (.writeExtent ino ext now)
  | .fsync => .flushActive
  | .save _ => .snapshot
  | .saveOpen _ _ => .openTmp
  | .saveWrite _ file data => .writeTmp file data
  | .saveRename _ => .renameTmp
  | .saveMark _ => .markClean
  | .persist => .isDirty
  | .persistFlush => .flushActive
  | .persistCheck => .isRemoteDirty
  | .persistMarshal => .snapshot
  | .persistPut data => .putRaw data
  | .persistMark => .markRemoteClean
  | .sealActive => .sealActive
  | .mutate m => .mutate m

/-- How a caller of `Save` reports its error. -/
def saveFailed : Saver → Reply
  | .fsync => .errno .eio
  | .persist => .failed

/-- A one-step call that maps every index error to one error number. -/
def finish (e : Errno) : Answer → Call ⊕ Reply
  | .done => .inr .ok
  | .indexError _ => .inr (.errno e)
  | _ => .inr .panicked

/-- What a call does with the answer of its step. An answer that belongs to
another effect does not occur; it shares the branch of a panic. -/
def resume (cfg : Config) : Call → Answer → Call ⊕ Reply
  | .make kind parent name _ _ _ now, .created ino => .inl (.makeEntry kind parent name ino now)
  | .makeEntry kind _ _ ino now, .done =>
      match kind with
      | .symlink target => .inl (.makeTarget ino target now)
      | _ => .inl (.entryAttr ino)
  | .makeEntry .., .indexError _ => .inr (.errno .eexist)
  | .makeTarget ino _ _, .done => .inl (.entryAttr ino)
  | .makeTarget .., .indexError _ => .inr (.errno .eio)
  | .entryAttr ino, .inode _ => .inr (.entry ino)
  | .link parent target name now, .inode found =>
      match found with
      | none => .inr (.errno .enoent)
      | some inode =>
          if inode.fileType = .directory then .inr (.errno .eperm)
          else .inl (.linkEntry parent target name now)
  | .linkEntry _ target _ _, .done => .inl (.entryAttr target)
  | .linkEntry .., .indexError _ => .inr (.errno .eexist)
  | .lookup .., .child found =>
      match found with
      | none => .inr (.errno .enoent)
      | some ino => .inl (.lookupAttr ino)
  | .lookupAttr ino, .inode found =>
      match found with
      | none => .inr (.errno .enoent)
      | some _ => .inr (.entry ino)
  | .unlink .., answer => finish .enoent answer
  | .rmdir parent name now, .child found =>
      match found with
      | none => .inr (.errno .enoent)
      | some child => .inl (.rmdirAttr parent name child now)
  | .rmdirAttr parent name _ now, .inode found =>
      match found with
      | none => .inr (.errno .enoent)
      | some inode =>
          if inode.fileType ≠ .directory then .inr (.errno .enotdir)
          else .inl (.rmdirEntry parent name now)
  | .rmdirEntry .., .done => .inr .ok
  | .rmdirEntry .., .indexError e => .inr (.errno (if e.saysNotEmpty then .enotempty else .eio))
  | .rename .., answer => finish .eio answer
  | .openFile _, .inode found =>
      match found with
      | none => .inr (.errno .enoent)
      | some _ => .inr .ok
  | .setattr ino _ _, .done => .inl (.setattrAttr ino)
  | .setattr .., .indexError _ => .inr (.errno .eio)
  | .setattrAttr _, .inode found =>
      match found with
      | none => .inr (.errno .enoent)
      | some _ => .inr .ok
  | .setxattr .., answer => finish .eio answer
  | .removexattr .., answer => finish .enodata answer
  | .read ino dest off now, .inode found =>
      match found with
      | none => .inr (.errno .enoent)
      | some inode =>
          if off ≥ inode.size then .inr (.data [])
          else
            let fin := wrap64 (off + dest)
            .inl (.readExtents ino off (if fin > inode.size then inode.size else fin) now)
  | .readExtents ino off fin now, .extents found =>
      match found with
      | none => .inr (.data [])
      | some exts =>
          let need := wrap64 (fin - off)
          -- `make([]byte, need)` panics on a negative length.
          if need < 0 then .inr .panicked
          else .inl (nextRead ino off fin now exts (List.replicate need.toNat 0))
  | .readChunk ino off fin now e rest buf, .bytes data =>
      match copyInto buf (wrap64 (readStart off e - off)) data with
      | none => .inr .panicked
      | some buf => .inl (nextRead ino off fin now rest buf)
  | .readChunk .., .chunkError _ => .inr (.errno .eio)
  | .readTouch _ _ buf, .done => .inr (.data buf)
  | .write ino data off now, .inode found =>
      match found with
      | none => .inr (.errno .enoent)
      | some inode =>
          let newEnd := wrap64 (off + data.length)
          if newEnd > inode.size then
            .inl (.writeSpace ino data off (wrap64 (newEnd - inode.size)) now)
          else .inl (.writeAppend ino data off now)
  | .writeSpace ino data off delta now, .used total =>
      if wrap64 (total + delta) > cfg.maxFSSize then .inr (.errno .enospc)
      else .inl (.writeAppend ino data off now)
  | .writeAppend ino data _ now, .extent ext => .inl (.writeRecord ino data ext now)
  | .writeAppend .., .chunkError _ => .inr (.errno .eio)
  | .writeRecord _ data _ _, .done => .inr (.written data.length)
  | .writeRecord .., .indexError _ => .inr (.errno .eio)
  | .fsync, .done => if cfg.hasCacheDir then .inl (.save .fsync) else .inr .ok
  | .fsync, .ioError => .inr (.errno .eio)
  | .save saver, .taken snap =>
      match encodeSnapshot cfg.codec snap with
      | none => .inr (saveFailed saver)
      | some data => .inl (.saveOpen saver data)
  | .saveOpen saver data, .opened file => .inl (.saveWrite saver file data)
  | .saveOpen saver _, .ioError => .inr (saveFailed saver)
  | .saveWrite saver _ _, .done => .inl (.saveRename saver)
  | .saveWrite saver _ _, .ioError => .inr (saveFailed saver)
  | .saveRename saver, .done => .inl (.saveMark saver)
  | .saveRename saver, .ioError => .inr (saveFailed saver)
  | .saveMark saver, .done =>
      match saver with
      | .fsync => .inr .ok
      | .persist => .inl .persistFlush
  | .persist, .flag dirty => if dirty then .inl (.save .persist) else .inl .persistFlush
  | .persistFlush, .done => .inl .persistCheck
  | .persistFlush, .ioError => .inr .failed
  | .persistCheck, .flag dirty => if dirty then .inl .persistMarshal else .inr .ok
  | .persistMarshal, .taken snap =>
      match encodeSnapshot cfg.codec snap with
      | none => .inr .failed
      | some data => .inl (.persistPut data)
  | .persistPut _, .done => .inl .persistMark
  | .persistPut _, .ioError => .inr .failed
  | .persistMark, .done => .inr .ok
  | .sealActive, .done => .inr .ok
  | .sealActive, .chunkError _ => .inr .failed
  | .mutate _, .done => .inr .ok
  | .mutate _, .created ino => .inr (.entry ino)
  | .mutate _, .indexError _ => .inr .failed
  | _, _ => .inr .panicked

/-! ### What follows a step -/

/-- The state that a call enters with the answer of a step, if it does not
return. -/
inductive Follows (cfg : Config) : Call → Answer → Call → Prop where
  | makeEntry {kind parent name mode uid gid now ino} :
      Follows cfg (.make kind parent name mode uid gid now) (.created ino)
        (.makeEntry kind parent name ino now)
  | makeTarget {target parent name ino now} :
      Follows cfg (.makeEntry (.symlink target) parent name ino now) .done
        (.makeTarget ino target now)
  | madeAttr {kind parent name ino now} :
      Follows cfg (.makeEntry kind parent name ino now) .done (.entryAttr ino)
  | targetAttr {ino target now} : Follows cfg (.makeTarget ino target now) .done (.entryAttr ino)
  | linkEntry {parent target name now inode} (notDirectory : inode.fileType ≠ .directory) :
      Follows cfg (.link parent target name now) (.inode (some inode))
        (.linkEntry parent target name now)
  | linkAttr {parent target name now} :
      Follows cfg (.linkEntry parent target name now) .done (.entryAttr target)
  | lookupAttr {parent name ino} :
      Follows cfg (.lookup parent name) (.child (some ino)) (.lookupAttr ino)
  | rmdirAttr {parent name now child} :
      Follows cfg (.rmdir parent name now) (.child (some child)) (.rmdirAttr parent name child now)
  | rmdirEntry {parent name child now inode} :
      Follows cfg (.rmdirAttr parent name child now) (.inode (some inode))
        (.rmdirEntry parent name now)
  | setattrAttr {ino input now} :
      Follows cfg (.setattr ino input now) .done (.setattrAttr ino)
  | readExtents {ino} {dest : Nat} {off now inode fin} (inside : off < inode.size)
      (limit : fin = min inode.size (wrap64 (off + dest))) :
      Follows cfg (.read ino dest off now) (.inode (some inode)) (.readExtents ino off fin now)
  | readFirst {ino off fin now exts} :
      Follows cfg (.readExtents ino off fin now) (.extents (some exts))
        (nextRead ino off fin now exts (List.replicate (wrap64 (fin - off)).toNat 0))
  | readNext {ino off fin now e rest buf data buf'}
      (copied : copyInto buf (wrap64 (readStart off e - off)) data = some buf') :
      Follows cfg (.readChunk ino off fin now e rest buf) (.bytes data)
        (nextRead ino off fin now rest buf')
  | writeSpace {ino} {data : Bytes} {off now inode}
      (beyond : inode.size < wrap64 (off + data.length)) :
      Follows cfg (.write ino data off now) (.inode (some inode))
        (.writeSpace ino data off (wrap64 (wrap64 (off + data.length) - inode.size)) now)
  | writeInside {ino} {data : Bytes} {off now inode}
      (inside : wrap64 (off + data.length) ≤ inode.size) :
      Follows cfg (.write ino data off now) (.inode (some inode)) (.writeAppend ino data off now)
  | writeAppend {ino data off delta now total}
      (fits : wrap64 (total + delta) ≤ cfg.maxFSSize) :
      Follows cfg (.writeSpace ino data off delta now) (.used total) (.writeAppend ino data off now)
  | writeRecord {ino data off now ext} :
      Follows cfg (.writeAppend ino data off now) (.extent ext) (.writeRecord ino data ext now)
  | fsyncSave (enabled : cfg.hasCacheDir = true) : Follows cfg .fsync .done (.save .fsync)
  | saveOpen {saver snap data} (encoded : encodeSnapshot cfg.codec snap = some data) :
      Follows cfg (.save saver) (.taken snap) (.saveOpen saver data)
  | saveWrite {saver data file} :
      Follows cfg (.saveOpen saver data) (.opened file) (.saveWrite saver file data)
  | saveRename {saver file data} :
      Follows cfg (.saveWrite saver file data) .done (.saveRename saver)
  | saveMark {saver} : Follows cfg (.saveRename saver) .done (.saveMark saver)
  | savedFlush : Follows cfg (.saveMark .persist) .done .persistFlush
  | persistSave : Follows cfg .persist (.flag true) (.save .persist)
  | persistFlush {dirty} (clean : ¬ dirty = true) :
      Follows cfg .persist (.flag dirty) .persistFlush
  | persistCheck : Follows cfg .persistFlush .done .persistCheck
  | persistMarshal : Follows cfg .persistCheck (.flag true) .persistMarshal
  | persistPut {snap data} (encoded : encodeSnapshot cfg.codec snap = some data) :
      Follows cfg .persistMarshal (.taken snap) (.persistPut data)
  | persistMark {data} : Follows cfg (.persistPut data) .done .persistMark

theorem follows_of_resume {cfg : Config} {c c' : Call} {a : Answer}
    (continues : resume cfg c a = .inl c') : Follows cfg c a c' := by
  unfold resume at continues
  split at continues
  all_goals try cases continues
  all_goals try simp only [finish] at continues
  all_goals repeat' split at continues
  all_goals try cases continues
  all_goals try subst_vars
  all_goals constructor <;> first | assumption | omega

theorem saveFailed_ne_data (saver : Saver) (bytes : Bytes) : saveFailed saver ≠ .data bytes := by
  cases saver <;> exact Reply.noConfusion

/-- The three places where a read returns data. -/
theorem data_of_resume {cfg : Config} {c : Call} {a : Answer} {bytes : Bytes}
    (returns : resume cfg c a = .inr (.data bytes)) :
    (∃ ino dest off now inode, c = .read ino dest off now ∧ a = .inode (some inode) ∧
        inode.size ≤ off ∧ bytes = []) ∨
      (∃ ino off fin now, c = .readExtents ino off fin now ∧ a = .extents none ∧ bytes = []) ∨
      ∃ ino now, c = .readTouch ino now bytes ∧ a = .done := by
  unfold resume at returns
  split at returns
  all_goals try cases returns
  all_goals try simp only [finish] at returns
  all_goals repeat' split at returns
  all_goals try cases returns
  next beyond => exact Or.inl ⟨_, _, _, _, _, rfl, rfl, beyond, rfl⟩
  next => exact Or.inr (Or.inl ⟨_, _, _, _, rfl, rfl, rfl⟩)
  next => exact Or.inr (Or.inr ⟨_, _, rfl, rfl⟩)
  all_goals exact absurd (Sum.inr.inj returns) (saveFailed_ne_data _ _)

/-- Where a saver goes once it holds the snapshot: it encodes it, and gives up if it cannot. -/
theorem resume_save_taken (cfg : Config) (saver : Saver) (snap : Snapshot) :
    (save saver).resume cfg (.taken snap) =
      match encodeSnapshot cfg.codec snap with
      | none => .inr (saveFailed saver)
      | some data => .inl (saveOpen saver data) :=
  rfl

/-- The same for `Persist`, which hands the encoding to the store. -/
theorem resume_persistMarshal_taken (cfg : Config) (snap : Snapshot) :
    persistMarshal.resume cfg (.taken snap) =
      match encodeSnapshot cfg.codec snap with
      | none => .inr Reply.failed
      | some data => .inl (persistPut data) :=
  rfl

end Call

/-- The daemon as a system of calls. -/
def daemonSys (cfg : Config) : Interleaving.Sys Daemon Effect Answer Oracle Call Reply where
  apply := Daemon.apply
  effect := Call.effect
  resume := Call.resume cfg

@[simp] theorem daemonSys_apply (cfg : Config) : (daemonSys cfg).apply = Daemon.apply := rfl

@[simp] theorem daemonSys_effect (cfg : Config) : (daemonSys cfg).effect = Call.effect := rfl

@[simp] theorem daemonSys_resume (cfg : Config) : (daemonSys cfg).resume = Call.resume cfg := rfl

end Fusey
