import Fusey.Index.Mutation

/-!
Contract: the state of a mounted daemon and its atomic steps: the locked methods
of the index and of the chunk store, the file operations on the snapshot
directory, and the store's `PutRaw`.

Owns:
- the snapshot directory, where the temporary file and the snapshot are files
  with an identity, since a file stays the same file when it is renamed or
  truncated under a writer that has it open;
- the effects, their answers and what each does to the state;
- which part of the state each kind of step can change.

Does not own the order in which a call issues its effects.
-/

set_option autoImplicit false

namespace Fusey

/-! ### The snapshot directory -/

/-- `cacheDir`: file contents by identity, `index.cbor.tmp` and `index.cbor`. -/
structure SnapshotDir where
  contents : GoMap Nat Bytes
  tmp : Option Nat
  current : Option Nat
  nextFile : Nat
deriving DecidableEq

namespace SnapshotDir

/-- A directory without a snapshot. -/
def empty : SnapshotDir := { contents := ∅, tmp := none, current := none, nextFile := 0 }

/-- Open the temporary file with `O_CREATE|O_TRUNC`. -/
def openTmp (dir : SnapshotDir) : SnapshotDir × Nat :=
  match dir.tmp with
  | some file => ({ dir with contents := dir.contents.set file [] }, file)
  | none =>
      ({ dir with
          contents := dir.contents.set dir.nextFile []
          tmp := some dir.nextFile
          nextFile := dir.nextFile + 1 }, dir.nextFile)

/-- Write `data` at the start of an open file. -/
def write (dir : SnapshotDir) (file : Nat) (data : Bytes) : SnapshotDir :=
  { dir with
    contents := dir.contents.set file
      (data ++ ((dir.contents.get file).getD []).drop data.length) }

/-- Rename the temporary file over the snapshot; `none` when there is none. -/
def rename (dir : SnapshotDir) : Option SnapshotDir :=
  dir.tmp.map fun file => { dir with tmp := none, current := some file }

/-- The bytes of the snapshot. -/
def snapshot (dir : SnapshotDir) : Option Bytes :=
  dir.current.bind fun file => dir.contents.get file

variable {dir dir' : SnapshotDir} {file : Nat} {data : Bytes}

theorem openTmp_tmp (dir : SnapshotDir) : dir.openTmp.1.tmp = some dir.openTmp.2 := by
  unfold openTmp
  split
  next known => exact known
  next => rfl

theorem openTmp_empty (dir : SnapshotDir) :
    dir.openTmp.1.contents.get dir.openTmp.2 = some [] := by
  unfold openTmp
  split <;> exact GoMap.get_set_self _ _ _

/-- What is written into an empty file is what it holds. -/
theorem write_empty (empty : dir.contents.get file = some []) (data : Bytes) :
    (dir.write file data).contents.get file = some data := by
  simp only [write, GoMap.get_set_self, empty, Option.getD_some, List.drop_nil, List.append_nil]

theorem rename_snapshot (isTmp : dir.tmp = some file) (holds : dir.contents.get file = some data)
    (renamed : dir.rename = some dir') : dir'.snapshot = some data := by
  unfold rename at renamed
  rw [isTmp, Option.map_some] at renamed
  cases renamed
  exact holds

end SnapshotDir

/-! ### Atomic steps -/

/-- The daemon: its index, its chunk store, the backing store and the snapshot
directory. -/
structure Daemon where
  idx : Index
  cs : ChunkStore
  objects : Objects
  dir : SnapshotDir
deriving DecidableEq

/-- An empty filesystem, with or without a chunk cache. -/
def freshDaemon (maxChunkSize blockSize now : Int) (cached : Bool) : Daemon :=
  { idx := Index.new blockSize now
    cs :=
      if cached then (ChunkStore.new maxChunkSize).setCacheDir ∅ else ChunkStore.new maxChunkSize
    objects := ∅
    dir := .empty }

/-- The atomic steps of the daemon's calls. -/
inductive Effect where
  | mutate (m : Mutation)
  | getInode (ino : Ino)
  | lookup (parent : Ino) (name : Name)
  | getExtents (ino : Ino)
  | usedBytes
  | readChunk (id : Key) (offset length : Int)
  | append (data : Bytes) (fileOffset : Int)
  | sealActive
  | flushActive
  | isDirty
  | isRemoteDirty
  | snapshot
  | markClean
  | markRemoteClean
  | openTmp
  | writeTmp (file : Nat) (data : Bytes)
  | renameTmp
  | putRaw (data : Bytes)
deriving DecidableEq, Repr

/-- What a step returns to its call. -/
inductive Answer where
  | done
  | created (ino : Ino)
  | indexError (e : IndexError)
  | panic
  | inode (found : Option Inode)
  | child (found : Option Ino)
  | extents (found : Option (List Extent))
  | used (total : Int)
  | bytes (data : Bytes)
  | extent (ext : Extent)
  | chunkError (e : ChunkError)
  | flag (raised : Bool)
  | taken (snap : Snapshot)
  | opened (file : Nat)
  | ioError
deriving DecidableEq

/-- What the environment decides about a step: how a `Put` ends, whether the
disk accepts an operation and after how many bytes it stops accepting, and the
order in which a snapshot lists the directory entries. -/
structure Oracle where
  put : StoreOutcome := .ok
  disk : Bool := true
  cut : Nat := 0
  order : List DirEntry := []

namespace Daemon

/-- A mutator under the index lock. -/
def mutate (d : Daemon) (m : Mutation) : Daemon × Answer :=
  match m.apply d.idx with
  | .ok idx =>
      ({ d with idx := idx },
        match m with
        | .createInode .. => .created d.idx.nextIno
        | _ => .done)
  | .error (.error e) => (d, .indexError e)
  | .error .panic => (d, .panic)

/-- `ChunkStore.Read`. -/
def readChunk (d : Daemon) (disk : Bool) (id : Key) (offset length : Int) : Daemon × Answer :=
  match d.cs.read mapStore disk d.objects id offset length with
  | (cs, .ok data) => ({ d with cs := cs }, .bytes data)
  | (cs, .error (.error e)) => ({ d with cs := cs }, .chunkError e)
  | (cs, .error .panic) => ({ d with cs := cs }, .panic)

/-- `ChunkStore.Append`. -/
def append (d : Daemon) (o : Oracle) (data : Bytes) (fileOffset : Int) : Daemon × Answer :=
  match ChunkStore.append mapStore o.put o.disk d.objects d.cs data fileOffset with
  | (objects, cs, .ok ext) => ({ d with objects := objects, cs := cs }, .extent ext)
  | (objects, cs, .error e) => ({ d with objects := objects, cs := cs }, .chunkError e)

/-- `ChunkStore.Seal`. -/
def sealActive (d : Daemon) (o : Oracle) : Daemon × Answer :=
  match ChunkStore.sealActive mapStore o.put o.disk d.objects d.cs with
  | (objects, cs, .ok ()) => ({ d with objects := objects, cs := cs }, .done)
  | (objects, cs, .error e) => ({ d with objects := objects, cs := cs }, .chunkError e)

/-- `ChunkStore.FlushActive`. -/
def flushActive (d : Daemon) (o : Oracle) : Daemon × Answer :=
  match ChunkStore.flushActive mapStore o.put d.objects d.cs with
  | (objects, cs, true) => ({ d with objects := objects, cs := cs }, .done)
  | (objects, cs, false) => ({ d with objects := objects, cs := cs }, .ioError)

/-- `store.PutRaw(store.IndexKey(), data)`. -/
def putRaw (d : Daemon) (o : Oracle) (data : Bytes) : Daemon × Answer :=
  match o.put with
  | .ok => ({ d with objects := mapStore.putRaw d.objects indexKey data }, .done)
  | .failedOld => (d, .ioError)
  | .failedNew => ({ d with objects := mapStore.putRaw d.objects indexKey data }, .ioError)

/-- One atomic step. -/
def apply (d : Daemon) (e : Effect) (o : Oracle) : Option (Daemon × Answer) :=
  match e with
  | .mutate m => some (d.mutate m)
  | .getInode ino => some (d, .inode (d.idx.getInode ino))
  | .lookup parent name => some (d, .child (d.idx.lookup parent name))
  | .getExtents ino => some (d, .extents (d.idx.getExtents ino))
  | .usedBytes => some (d, .used d.idx.usedBytes)
  | .readChunk id offset length => some (d.readChunk o.disk id offset length)
  | .append data fileOffset => some (d.append o data fileOffset)
  | .sealActive => some (d.sealActive o)
  | .flushActive => some (d.flushActive o)
  | .isDirty => some (d, .flag d.idx.dirty)
  | .isRemoteDirty => some (d, .flag d.idx.remoteDirty)
  | .snapshot =>
      -- The order is whatever the map iteration yields, so it must be a listing.
      if d.idx.Lists o.order then some (d, .taken (d.idx.snapshot o.order)) else none
  | .markClean => some ({ d with idx := d.idx.markClean }, .done)
  | .markRemoteClean => some ({ d with idx := d.idx.markRemoteClean }, .done)
  | .openTmp =>
      if o.disk then some ({ d with dir := d.dir.openTmp.1 }, .opened d.dir.openTmp.2)
      else some (d, .ioError)
  | .writeTmp file data =>
      if o.disk then some ({ d with dir := d.dir.write file data }, .done)
      else some ({ d with dir := d.dir.write file (data.take o.cut) }, .ioError)
  | .renameTmp =>
      if o.disk then
        match d.dir.rename with
        | some dir => some ({ d with dir := dir }, .done)
        | none => some (d, .ioError)
      else some (d, .ioError)
  | .putRaw data => some (d.putRaw o data)

/-! ### What a step can change -/

variable {d d' : Daemon} {e : Effect} {o : Oracle} {a : Answer}

/-- A mutator succeeds and changes the index, or reports and changes nothing. -/
theorem apply_mutate {m : Mutation} (applied : d.apply (.mutate m) o = some (d', a)) :
    (∃ idx, m.apply d.idx = .ok idx ∧ d' = { d with idx := idx } ∧
        (a = .done ∨ a = .created d.idx.nextIno)) ∨
      d' = d ∧ ((∃ failure, a = .indexError failure) ∨ a = .panic) := by
  simp only [apply, mutate, Option.some.injEq] at applied
  split at applied
  next idx done =>
    cases applied
    refine Or.inl ⟨idx, done, rfl, ?_⟩
    cases m <;> simp
  next failure _ =>
    cases applied
    exact Or.inr ⟨rfl, Or.inl ⟨failure, rfl⟩⟩
  next =>
    cases applied
    exact Or.inr ⟨rfl, Or.inr rfl⟩

/-- `CreateInode` always succeeds. -/
theorem apply_createInode {fileType : FileType} {mode uid gid rdev : UInt32} {now : Int}
    (applied : d.apply (.mutate (.createInode fileType mode uid gid rdev now)) o = some (d', a)) :
    d' = { d with idx := (d.idx.createInode fileType mode uid gid rdev now).2 } ∧
      a = .created d.idx.nextIno := by
  cases applied
  exact ⟨rfl, rfl⟩

/-- Only mutators and the two marks change the index. -/
theorem apply_idx (applied : d.apply e o = some (d', a)) :
    d'.idx = d.idx ∨
      (∃ m, e = .mutate m ∧ m.apply d.idx = .ok d'.idx ∧
        (a = .done ∨ a = .created d.idx.nextIno)) ∨
      (e = .markClean ∧ d'.idx = d.idx.markClean) ∨
      e = .markRemoteClean ∧ d'.idx = d.idx.markRemoteClean := by
  cases e
  case mutate m =>
    rcases apply_mutate applied with ⟨idx, done, rfl, answered⟩ | ⟨rfl, -⟩
    · exact Or.inr (Or.inl ⟨m, rfl, done, answered⟩)
    · exact Or.inl rfl
  case markClean =>
    cases applied
    exact Or.inr (Or.inr (Or.inl ⟨rfl, rfl⟩))
  case markRemoteClean =>
    cases applied
    exact Or.inr (Or.inr (Or.inr ⟨rfl, rfl⟩))
  all_goals
    left
    simp only [apply, readChunk, append, sealActive, flushActive, putRaw] at applied
    repeat' split at applied
    all_goals cases applied
    all_goals rfl

/-- The rule for a property of the index that a step leaves: the two marks and
every mutator establish it, and the index already has it. -/
theorem idx_rule {P : Index → Prop} (applied : d.apply e o = some (d', a)) (holds : P d.idx)
    (marked : P d.idx.markClean) (remoteMarked : P d.idx.markRemoteClean)
    (mutated : ∀ m idx', e = .mutate m → m.apply d.idx = .ok idx' → P idx') : P d'.idx := by
  rcases apply_idx applied with same | ⟨m, asks, done, -⟩ | ⟨-, same⟩ | ⟨-, same⟩
  · rw [same]
    exact holds
  · exact mutated m d'.idx asks done
  · rw [same]
    exact marked
  · rw [same]
    exact remoteMarked

theorem blockSize_of_apply (applied : d.apply e o = some (d', a)) :
    d'.idx.blockSize = d.idx.blockSize := by
  refine idx_rule (P := fun idx => idx.blockSize = d.idx.blockSize) applied rfl rfl rfl ?_
  intro m idx' _ done
  exact (Mutation.keepsShape done).blockSize

/-- The objects and the chunk store change by moves, and by `PutRaw`. -/
theorem apply_store (applied : d.apply e o = some (d', a)) :
    ChunkStore.Moves (decide (e = .sealActive)) (d.objects, d.cs) (d'.objects, d'.cs) ∨
      ∃ data, e = .putRaw data ∧ d' = { d with objects := d.objects.set indexKey data } := by
  cases e
  case readChunk id offset length =>
    have moves := ChunkStore.read_moves o.disk d.objects d.cs id offset length
    simp only [apply, readChunk, Option.some.injEq] at applied
    left
    split at applied <;> rename_i answered <;> cases applied <;> rw [answered] at moves <;>
      exact moves
  case append data fileOffset =>
    have moves := ChunkStore.append_moves o.put o.disk d.objects d.cs data fileOffset
    simp only [apply, append, Option.some.injEq] at applied
    left
    split at applied <;> rename_i answered <;> cases applied <;> rw [answered] at moves <;>
      exact moves
  case sealActive =>
    have moves := ChunkStore.sealActive_moves true o.put o.disk d.objects d.cs fun _ => rfl
    simp only [apply, sealActive, Option.some.injEq] at applied
    left
    split at applied <;> rename_i answered <;> cases applied <;> rw [answered] at moves <;>
      exact moves
  case flushActive =>
    have moves := ChunkStore.flushActive_moves o.put d.objects d.cs
    simp only [apply, flushActive, Option.some.injEq] at applied
    left
    split at applied <;> rename_i answered <;> cases applied <;> rw [answered] at moves <;>
      exact moves
  case putRaw data =>
    simp only [apply, putRaw, Option.some.injEq] at applied
    split at applied <;> cases applied
    · exact Or.inr ⟨data, rfl, rfl⟩
    · exact Or.inl .refl
    · exact Or.inr ⟨data, rfl, rfl⟩
  case mutate m =>
    rcases apply_mutate applied with ⟨idx, -, rfl, -⟩ | ⟨rfl, -⟩
    · exact Or.inl .refl
    · exact Or.inl .refl
  all_goals
    left
    simp only [apply] at applied
    repeat' split at applied
    all_goals cases applied
    all_goals exact .refl

/-- Only the file operations of `Save` change the snapshot directory. -/
theorem apply_dir (applied : d.apply e o = some (d', a)) :
    d'.dir = d.dir ∨ e = .openTmp ∨ (∃ file data, e = .writeTmp file data) ∨ e = .renameTmp := by
  cases e
  case openTmp => exact Or.inr (Or.inl rfl)
  case writeTmp file data => exact Or.inr (Or.inr (Or.inl ⟨file, data, rfl⟩))
  case renameTmp => exact Or.inr (Or.inr (Or.inr rfl))
  case mutate m =>
    rcases apply_mutate applied with ⟨idx, -, rfl, -⟩ | ⟨rfl, -⟩
    · exact Or.inl rfl
    · exact Or.inl rfl
  all_goals
    left
    simp only [apply, readChunk, append, sealActive, flushActive, putRaw] at applied
    repeat' split at applied
    all_goals cases applied
    all_goals rfl

/-- The extent an `Append` answers with: the end of the buffer it leaves. -/
theorem apply_append {data : Bytes} {fileOffset : Int} {ext : Extent}
    (applied : d.apply (.append data fileOffset) o = some (d', .extent ext)) :
    ∃ start : Bytes, d'.cs.activeBuf = start ++ data ∧ d'.cs.activeDirty = true ∧
      ext = ⟨d'.cs.activeID, start.length, data.length, fileOffset⟩ ∧
      (start.length : Int) + data.length ≤ d.cs.maxChunkSize := by
  simp only [apply, append, Option.some.injEq] at applied
  split at applied <;> rename_i answered <;> cases applied
  exact ChunkStore.append_extent answered

/-- The chunk of that extent. -/
theorem apply_append_chunk {data : Bytes} {fileOffset : Int} {ext : Extent}
    (applied : d.apply (.append data fileOffset) o = some (d', .extent ext)) :
    (ext.chunkID = d.cs.activeID ∧ ext.chunkOffset = d.cs.activeBuf.length ∧
        (d.cs.activeBuf.length : Int) + data.length ≤ d.cs.maxChunkSize) ∨
      ext.chunkID = chunkID d.cs.nextSeq := by
  simp only [apply, append, Option.some.injEq] at applied
  split at applied <;> rename_i answered <;> cases applied
  exact ChunkStore.append_chunk answered

/-- A flush that returns nil leaves nothing dirty. -/
theorem apply_flushActive (applied : d.apply .flushActive o = some (d', .done)) :
    d'.cs.activeDirty = false := by
  simp only [apply, flushActive, ChunkStore.flushActive, Option.some.injEq] at applied
  by_cases clean : d.cs.activeDirty = false
  · rw [if_pos clean] at applied
    cases applied
    exact clean
  · rw [if_neg clean] at applied
    cases outcome : o.put <;> rw [outcome] at applied <;> cases applied
    rfl

theorem apply_getInode {ino : Ino} {found : Option Inode}
    (applied : d.apply (.getInode ino) o = some (d', .inode found)) :
    d' = d ∧ d.idx.inodes.get ino = found := by
  cases applied
  exact ⟨rfl, rfl⟩

theorem apply_getExtents {ino : Ino} {found : Option (List Extent)}
    (applied : d.apply (.getExtents ino) o = some (d', .extents found)) :
    d' = d ∧ d.idx.extents.get ino = found := by
  cases applied
  exact ⟨rfl, rfl⟩

theorem apply_snapshot {snap : Snapshot} (applied : d.apply .snapshot o = some (d', .taken snap)) :
    d' = d ∧ d.idx.Lists o.order ∧ snap = d.idx.snapshot o.order := by
  simp only [apply] at applied
  split_ifs at applied with lists
  cases applied
  exact ⟨rfl, lists, rfl⟩

theorem apply_openTmp {file : Nat} (applied : d.apply .openTmp o = some (d', .opened file)) :
    d' = { d with dir := d.dir.openTmp.1 } ∧ file = d.dir.openTmp.2 := by
  simp only [apply] at applied
  split_ifs at applied <;> cases applied
  exact ⟨rfl, rfl⟩

theorem apply_writeTmp {file : Nat} {data : Bytes}
    (applied : d.apply (.writeTmp file data) o = some (d', .done)) :
    d' = { d with dir := d.dir.write file data } := by
  simp only [apply] at applied
  split_ifs at applied <;> cases applied
  rfl

theorem apply_renameTmp (applied : d.apply .renameTmp o = some (d', .done)) :
    ∃ dir, d.dir.rename = some dir ∧ d' = { d with dir := dir } := by
  simp only [apply] at applied
  split_ifs at applied
  · split at applied <;> cases applied
    next dir renamed => exact ⟨dir, renamed, rfl⟩
  · cases applied

end Daemon

end Fusey
