import Fusey.Fuse.OpenFiles
import Fusey.Fuse.Reading

/-!
Contract: file contents against a plain byte-array model, over sequential runs
of the content calls (`FileHandle.Write`, `FileHandle.Read`, `Node.Setattr`,
`Seal`, `FlushActive`) on files made by `Node.Create`.

Owns the reference filesystem, the relation between it and the daemon, one
lemma for each call, and what a successful read returns after any run.
-/

set_option autoImplicit false

namespace Fusey

open GoInt Interleaving

/-! ### The reference filesystem -/

/-- The byte array of each file. -/
abbrev Reference := GoMap Ino Bytes

/-- What a completed call does to the reference. -/
def Reference.step (ref : Reference) : Call → Reply → Reference
  | .make .regular _ _ _ _ _ _, .entry ino => ref.set ino []
  | .write ino data off _, .written _ => ref.modify ino fun old => overwrite old off.toNat data
  | .setattr ino input _, .ok =>
      match input.change.size with
      | some size => ref.modify ino fun old => resize old size.toNat
      | none => ref
  | _, _ => ref

/-- The daemon's files denote the reference. -/
structure Tracks (d : Daemon) (ref : Reference) : Prop where
  consistent : d.cs.Consistent d.objects
  coherent : d.cs.Coherent d.objects
  chunkSize : d.cs.maxChunkSize < 9223372036854775808
  numbered : ∀ ino inode, d.idx.inodes.get ino = some inode → ino < d.idx.nextIno
  files : ∀ ino content, ref.get ino = some content →
    ∃ inode exts, d.idx.inodes.get ino = some inode ∧ inode.fileType = .regular ∧
      d.idx.extents.get ino = some exts ∧
      Denotes (d.cs.byteOf d.objects) inode.size exts content

theorem freshDaemon_tracks {maxChunkSize : Int} (small : maxChunkSize < 9223372036854775808)
    (blockSize now : Int) (cached : Bool) :
    Tracks (freshDaemon maxChunkSize blockSize now cached) ∅ where
  consistent := by
    cases cached
    · exact ChunkStore.new_consistent maxChunkSize
    · exact (ChunkStore.new_consistent maxChunkSize).with_cache (some ∅)
  coherent := by
    intro files enabled id file found
    cases cached <;> cases enabled
    cases found
  chunkSize := by cases cached <;> exact small
  numbered := by
    intro ino inode stored
    simp only [freshDaemon, Index.new, GoMap.get_set, GoMap.get_empty] at stored
    split_ifs at stored with isRoot
    rw [isRoot]
    exact Nat.lt_succ_self _
  files := fun ino content stored => by cases stored

/-! ### Steps that leave contents alone -/

/-- Moves of the chunk store and any change of the snapshot directory keep the
contents. -/
theorem Tracks.of_moves {d : Daemon} {ref : Reference} (tracks : Tracks d ref) {seals : Bool}
    {objects : Objects} {cs : ChunkStore}
    (moves : ChunkStore.Moves seals (d.objects, d.cs) (objects, cs)) (dir : SnapshotDir) :
    Tracks { d with objects := objects, cs := cs, dir := dir } ref := by
  have kept := ChunkStore.Moves.kept moves tracks.consistent
  refine ⟨kept.consistent, kept.coherent tracks.coherent, ?_, tracks.numbered, ?_⟩
  · exact lt_of_eq_of_lt kept.maxChunkSize tracks.chunkSize
  · intro ino content stored
    obtain ⟨inode, exts, known, regular, listed, denotes⟩ := tracks.files ino content stored
    exact ⟨inode, exts, known, regular, listed, denotes.grows kept.grows⟩

/-- Flags do not matter. -/
theorem Tracks.of_flags {d : Daemon} {ref : Reference} (tracks : Tracks d ref)
    (dirty remote : Bool) :
    Tracks { d with idx := { d.idx with dirty := dirty, remoteDirty := remote } } ref :=
  ⟨tracks.consistent, tracks.coherent, tracks.chunkSize, tracks.numbered, tracks.files⟩

/-- Neither does the snapshot directory. -/
theorem Tracks.of_dir {d : Daemon} {ref : Reference} (tracks : Tracks d ref) (dir : SnapshotDir) :
    Tracks { d with dir := dir } ref :=
  ⟨tracks.consistent, tracks.coherent, tracks.chunkSize, tracks.numbered, tracks.files⟩

/-- A regular file whose extents denote `content`. -/
def OpenFile.Has (byte : Key → Nat → Option UInt8) (content : Bytes) (file : OpenFile) : Prop :=
  file.fileType = .regular ∧
    ∃ exts, file.extents = some exts ∧ Denotes byte file.size exts content

/-- A mutator that advances every file as the reference is advanced. -/
theorem Tracks.of_mutation {d : Daemon} {ref ref' : Reference} (tracks : Tracks d ref)
    {m : Mutation} {idx : Index} (applied : m.apply d.idx = .ok idx)
    (spared : ∀ ino, ¬ m.TakesLast d.idx ino)
    (advances : ∀ ino content', ref'.get ino = some content' →
      ∃ content, ref.get ino = some content ∧ ∀ file, d.idx.file ino = some file →
        file.Has (d.cs.byteOf d.objects) content →
        (file.after ino m).Has (d.cs.byteOf d.objects) content') :
    Tracks { d with idx := idx } ref' := by
  refine ⟨tracks.consistent, tracks.coherent, tracks.chunkSize,
    (Mutation.keepsShape applied).numbered tracks.numbered, ?_⟩
  intro ino content' stored
  obtain ⟨content, was, advanced⟩ := advances ino content' stored
  obtain ⟨inode, exts, known, regular, listed, denotes⟩ := tracks.files ino content was
  have held : d.idx.file ino = some ⟨inode.fileType, inode.size, d.idx.extents.get ino⟩ :=
    Index.file_eq_some.mpr ⟨inode, known, rfl, rfl, rfl⟩
  obtain ⟨isRegular, exts', listed', denotes'⟩ := advanced _ held ⟨regular, exts, listed, denotes⟩
  obtain ⟨inode', stored', type, size, extents⟩ := Index.file_eq_some.mp
    (Mutation.file applied tracks.numbered held (spared ino))
  exact ⟨inode', exts', stored', type.trans isRegular, extents.trans listed', size ▸ denotes'⟩

/-- A chunk read changes the cache only. -/
theorem Tracks.of_readChunk {d : Daemon} {ref : Reference} (tracks : Tracks d ref) (disk : Bool)
    (id : Key) (offset length : Int) :
    Tracks { d with cs := (d.cs.read mapStore disk d.objects id offset length).1 } ref ∧
      (d.cs.read mapStore disk d.objects id offset length).1.byteOf d.objects =
        d.cs.byteOf d.objects := by
  have after := tracks.of_moves (ChunkStore.read_moves disk d.objects d.cs id offset length) d.dir
  obtain ⟨cache, same⟩ := ChunkStore.read_cache_only disk d.objects d.cs id offset length
  rw [same] at after ⊢
  exact ⟨after, rfl⟩

theorem Tracks.of_touchAtime {d : Daemon} {ref : Reference} (tracks : Tracks d ref) (ino : Ino)
    (now : Int) : Tracks { d with idx := d.idx.touchAtime ino now } ref :=
  tracks.of_mutation (m := .touchAtime ino now) rfl (fun _ takes => by cases takes.1)
    fun _ content stored => ⟨content, stored, fun _ _ => id⟩

/-! ### Reading, sealing and flushing -/

/-- The suspended states of `Read`, `Seal` and `Fsync`. -/
def Call.Neutral : Call → Prop
  | .read _ _ _ _ | .readExtents _ _ _ _ | .readChunk _ _ _ _ _ _ _ | .readTouch _ _ _
  | .sealActive | .fsync | .save .fsync | .saveOpen .fsync _ | .saveWrite .fsync _ _
  | .saveRename .fsync | .saveMark .fsync => True
  | _ => False

theorem Call.neutral_nextRead (ino : Ino) (off fin now : Int) (exts : List Extent) (buf : Bytes) :
    (nextRead ino off fin now exts buf).Neutral := by
  unfold nextRead
  split <;> trivial

theorem Call.Neutral.step (cfg : Config) {c : Call} (neutral : c.Neutral) {d d' : Daemon}
    {o : Oracle} {a : Answer} (applied : d.apply c.effect o = some (d', a)) {ref : Reference}
    (tracks : Tracks d ref) :
    Tracks d' ref ∧ ∀ c', c.resume cfg a = .inl c' → c'.Neutral := by
  cases c <;> try exact neutral.elim
  case read ino dest off now =>
    cases applied
    refine ⟨tracks, fun c' continues => ?_⟩
    simp only [resume] at continues
    split at continues
    · cases continues
    · split_ifs at continues <;> cases continues <;> trivial
  case readExtents ino off fin now =>
    cases applied
    refine ⟨tracks, fun c' continues => ?_⟩
    simp only [resume] at continues
    split at continues
    · cases continues
    · split_ifs at continues
      cases continues
      exact neutral_nextRead ..
  case readChunk ino off fin now e rest buf =>
    have after := (tracks.of_readChunk o.disk e.chunkID (readOffset off e)
      (readLength off fin e)).1
    simp only [effect, Daemon.apply, Daemon.readChunk, Option.some.injEq] at applied
    generalize ChunkStore.read mapStore o.disk d.objects d.cs e.chunkID (readOffset off e)
      (readLength off fin e) = answer at after applied
    obtain ⟨cs, (failure | ⟨⟩) | data⟩ := answer <;> cases applied
    · exact ⟨after, fun c' continues => by cases continues⟩
    · exact ⟨after, fun c' continues => by cases continues⟩
    · refine ⟨after, fun c' continues => ?_⟩
      simp only [resume] at continues
      split at continues <;> cases continues
      exact neutral_nextRead ..
  case readTouch ino now buf =>
    cases applied
    exact ⟨tracks.of_touchAtime ino now, fun c' continues => by cases continues⟩
  case sealActive =>
    have moves := ChunkStore.sealActive_moves true o.put o.disk d.objects d.cs fun _ => rfl
    simp only [effect, Daemon.apply, Daemon.sealActive, Option.some.injEq] at applied
    generalize ChunkStore.sealActive mapStore o.put o.disk d.objects d.cs = answer at moves applied
    obtain ⟨objects, cs, failure | ⟨⟩⟩ := answer <;> cases applied <;>
      exact ⟨tracks.of_moves moves d.dir, fun c' continues => by cases continues⟩
  case fsync =>
    have moves := ChunkStore.flushActive_moves o.put d.objects d.cs
    simp only [effect, Daemon.apply, Daemon.flushActive, Option.some.injEq] at applied
    generalize ChunkStore.flushActive mapStore o.put d.objects d.cs = answer at moves applied
    obtain ⟨objects, cs, _ | _⟩ := answer <;> cases applied
    · exact ⟨tracks.of_moves moves d.dir, fun c' continues => by cases continues⟩
    · refine ⟨tracks.of_moves moves d.dir, fun c' continues => ?_⟩
      simp only [resume] at continues
      split_ifs at continues
      cases continues
      trivial
  case save saver =>
    cases saver with
    | persist => exact neutral.elim
    | fsync =>
        simp only [effect, Daemon.apply] at applied
        split_ifs at applied
        cases applied
        refine ⟨tracks, fun c' continues => ?_⟩
        simp only [resume] at continues
        split at continues <;> cases continues
        trivial
  case saveOpen saver data =>
    cases saver with
    | persist => exact neutral.elim
    | fsync =>
        simp only [effect, Daemon.apply] at applied
        split_ifs at applied <;> cases applied
        · exact ⟨tracks.of_dir _, fun c' continues => by cases continues; trivial⟩
        · exact ⟨tracks, fun c' continues => by cases continues⟩
  case saveWrite saver file data =>
    cases saver with
    | persist => exact neutral.elim
    | fsync =>
        simp only [effect, Daemon.apply] at applied
        split_ifs at applied <;> cases applied
        · exact ⟨tracks.of_dir _, fun c' continues => by cases continues; trivial⟩
        · exact ⟨tracks.of_dir _, fun c' continues => by cases continues⟩
  case saveRename saver =>
    cases saver with
    | persist => exact neutral.elim
    | fsync =>
        simp only [effect, Daemon.apply] at applied
        split_ifs at applied
        · split at applied <;> cases applied
          · exact ⟨tracks.of_dir _, fun c' continues => by cases continues; trivial⟩
          · exact ⟨tracks, fun c' continues => by cases continues⟩
        · cases applied
          exact ⟨tracks, fun c' continues => by cases continues⟩
  case saveMark saver =>
    cases saver with
    | persist => exact neutral.elim
    | fsync =>
        cases applied
        exact ⟨tracks.of_flags false d.idx.remoteDirty, fun c' continues => by cases continues⟩

theorem Tracks.of_neutral {cfg : Config} {c : Call} {d d' : Daemon} {r : Reply} {ref : Reference}
    (tracks : Tracks d ref) (completes : Completes (daemonSys cfg) d c d' r)
    (neutral : c.Neutral) : Tracks d' ref := by
  induction completes with
  | last applied _ => exact (neutral.step cfg applied tracks).1
  | more applied continues _ inductionHypothesis =>
      obtain ⟨next, stays⟩ := neutral.step cfg applied tracks
      exact inductionHypothesis next (stays _ continues)

/-! ### Creating a file -/

/-- Adding a directory entry keeps the contents. -/
theorem Tracks.of_addDirEntry {d : Daemon} {ref : Reference} (tracks : Tracks d ref)
    {parent child : Ino} {name : Name} {now : Int} {idx : Index}
    (applied : d.idx.addDirEntry parent name child now = .ok idx) :
    Tracks { d with idx := idx } ref :=
  tracks.of_mutation (m := .addDirEntry parent name child now) applied
    (fun _ takes => by cases takes.1) fun _ content stored => ⟨content, stored, fun _ _ => id⟩

/-- A new regular file is empty. -/
theorem Tracks.of_createInode {d : Daemon} {ref : Reference} (tracks : Tracks d ref)
    (mode uid gid rdev : UInt32) (now : Int) :
    Tracks { d with idx := (d.idx.createInode .regular mode uid gid rdev now).2 }
        (ref.set d.idx.nextIno []) ∧
      Tracks { d with idx := (d.idx.createInode .regular mode uid gid rdev now).2 } ref := by
  have numbered := (Index.createInode_keeps d.idx .regular mode uid gid rdev now).numbered
    tracks.numbered
  have fresh : d.idx.inodes.get d.idx.nextIno = none := by
    cases found : d.idx.inodes.get d.idx.nextIno with
    | none => rfl
    | some inode => exact absurd (tracks.numbered _ inode found) (Nat.lt_irrefl _)
  have others : ∀ ino, ino ≠ d.idx.nextIno →
      (d.idx.createInode .regular mode uid gid rdev now).2.inodes.get ino = d.idx.inodes.get ino ∧
      (d.idx.createInode .regular mode uid gid rdev now).2.extents.get ino =
        d.idx.extents.get ino := by
    intro ino older
    exact ⟨GoMap.get_set_ne _ _ older, GoMap.get_set_ne _ _ older⟩
  have older : ∀ ino content, ref.get ino = some content → ino ≠ d.idx.nextIno := by
    rintro ino content stored rfl
    obtain ⟨inode, _, known, _⟩ := tracks.files _ content stored
    rw [fresh] at known
    cases known
  constructor
  · refine ⟨tracks.consistent, tracks.coherent, tracks.chunkSize, numbered, ?_⟩
    intro ino content stored
    rw [GoMap.get_set] at stored
    split_ifs at stored with isNew
    · subst isNew
      cases stored
      exact ⟨_, [], GoMap.get_set_self _ _ _, rfl, GoMap.get_set_self _ _ _, Denotes.empty _⟩
    · obtain ⟨inode, exts, known, regular, listed, denotes⟩ := tracks.files ino content stored
      obtain ⟨sameInode, sameExtents⟩ := others ino isNew
      exact ⟨inode, exts, sameInode.trans known, regular, sameExtents.trans listed, denotes⟩
  · refine ⟨tracks.consistent, tracks.coherent, tracks.chunkSize, numbered, ?_⟩
    intro ino content stored
    obtain ⟨inode, exts, known, regular, listed, denotes⟩ := tracks.files ino content stored
    obtain ⟨sameInode, sameExtents⟩ := others ino (older ino content stored)
    exact ⟨inode, exts, sameInode.trans known, regular, sameExtents.trans listed, denotes⟩

theorem Tracks.of_make {cfg : Config} {parent : Ino} {name : Name} {mode uid gid : UInt32}
    {now : Int} {d d' : Daemon} {r : Reply} {ref : Reference} (tracks : Tracks d ref)
    (completes : Completes (daemonSys cfg) d (.make .regular parent name mode uid gid now) d' r) :
    Tracks d' (ref.step (.make .regular parent name mode uid gid now) r) := by
  obtain ⟨o, created, a, applied, ends⟩ := completes.first
  cases applied
  obtain ⟨named, unnamed⟩ := tracks.of_createInode (NewFile.regular.perm mode) uid gid 0 now
  obtain ⟨returns, -⟩ | ⟨c', continues, rest⟩ := ends
  · cases returns
  cases continues
  obtain ⟨o, entered, a, applied, ends⟩ := rest.first
  simp only [daemonSys_apply, daemonSys_effect, Call.effect, Daemon.apply, Daemon.mutate,
    Mutation.apply, Option.some.injEq] at applied
  split at applied
  next idx added =>
    cases applied
    obtain ⟨returns, -⟩ | ⟨c', continues, rest⟩ := ends
    · cases returns
    cases continues
    obtain ⟨o, last, a, applied, ends⟩ := rest.first
    cases applied
    obtain ⟨returns, rfl⟩ | ⟨c', continues, -⟩ := ends
    · cases returns
      exact named.of_addDirEntry added
    · cases continues
  next failure refused =>
    cases applied
    obtain ⟨returns, rfl⟩ | ⟨c', continues, -⟩ := ends
    · cases returns
      exact unnamed
    · cases continues
  next refused =>
    cases applied
    obtain ⟨returns, rfl⟩ | ⟨c', continues, -⟩ := ends
    · cases returns
      exact unnamed
    · cases continues

/-! ### Resizing a file -/

theorem OpenFile.Has.resize {byte : Key → Nat → Option UInt8} {content : Bytes} {file : OpenFile}
    (has : file.Has byte content) {newSize : Int} (low : 0 ≤ newSize)
    (small : newSize < 9223372036854775808) :
    (file.resize (some newSize)).Has byte (Fusey.resize content newSize.toNat) := by
  obtain ⟨regular, exts, listed, denotes⟩ := has
  refine ⟨regular, if newSize ≠ file.size then trimExtents newSize exts else exts, ?_, ?_⟩
  · simp only [OpenFile.resize, regular, and_true, listed, Option.getD_some]
    split_ifs <;> rfl
  · simp only [OpenFile.resize]
    split_ifs with changed
    · exact denotes.trim low small
    · have same : newSize.toNat = content.length := by
        have := denotes.length
        omega
      rw [same, resize_self, not_not.mp changed]
      exact denotes

theorem Tracks.of_setAttr {d : Daemon} {ref : Reference} (tracks : Tracks d ref) {ino : Ino}
    {change : Index.AttrChange} {now : Int} {idx : Index}
    (range : ∀ size ∈ change.size, 0 ≤ size ∧ size < 9223372036854775808)
    (applied : d.idx.setAttr ino change now = .ok idx) :
    Tracks { d with idx := idx }
      (match change.size with
        | some size => ref.modify ino fun old => resize old size.toNat
        | none => ref) := by
  refine tracks.of_mutation (m := .setAttr ino change now) applied
    (fun _ takes => by cases takes.1) fun other content stored => ?_
  simp only [OpenFile.after]
  cases resized : change.size with
  | none =>
      rw [resized] at stored
      refine ⟨content, stored, fun file _ has => ?_⟩
      split_ifs <;> exact has
  | some newSize =>
      simp only [resized, GoMap.get_modify] at stored
      obtain ⟨low, small⟩ := range newSize resized
      split_ifs at stored with isIt
      · subst isIt
        obtain ⟨before, was, rfl⟩ := Option.map_eq_some_iff.mp stored
        refine ⟨before, was, fun file _ has => ?_⟩
        rw [if_pos rfl]
        exact has.resize low small
      · refine ⟨content, stored, fun file _ has => ?_⟩
        rw [if_neg (Ne.symm isIt)]
        exact has

theorem Tracks.of_setattr {cfg : Config} {ino : Ino} {input : SetAttrIn} {now : Int}
    {d d' : Daemon} {r : Reply} {ref : Reference} (tracks : Tracks d ref)
    (range : ∀ size ∈ input.change.size, 0 ≤ size ∧ size < 9223372036854775808)
    (completes : Completes (daemonSys cfg) d (.setattr ino input now) d' r) :
    Tracks d' (ref.step (.setattr ino input now) r) := by
  obtain ⟨o, changed, a, applied, ends⟩ := completes.first
  simp only [daemonSys_apply, daemonSys_effect, Call.effect, Daemon.apply, Daemon.mutate,
    Mutation.apply, Option.some.injEq] at applied
  split at applied
  next idx set =>
    have after := tracks.of_setAttr range set
    have there : ∃ inode, idx.inodes.get ino = some inode := by
      obtain ⟨inode, -, rfl⟩ := Index.setAttr_ok set
      exact ⟨_, GoMap.get_set_self _ _ _⟩
    cases applied
    obtain ⟨returns, -⟩ | ⟨c', continues, rest⟩ := ends
    · cases returns
    cases continues
    obtain ⟨o, last, a, applied, ends⟩ := rest.first
    cases applied
    obtain ⟨inode, found⟩ := there
    simp only [daemonSys_resume, Call.resume, Index.getInode, found] at ends
    obtain ⟨returns, rfl⟩ | ⟨c', continues, -⟩ := ends
    · cases returns
      exact after
    · cases continues
  next failure refused =>
    cases applied
    obtain ⟨returns, rfl⟩ | ⟨c', continues, -⟩ := ends
    · cases returns
      exact tracks
    · cases continues
  next refused =>
    cases applied
    obtain ⟨returns, rfl⟩ | ⟨c', continues, -⟩ := ends
    · cases returns
      exact tracks
    · cases continues

/-! ### Writing a file -/

/-- What `Append` returns holds the data it was given. -/
theorem Tracks.holds_append {d : Daemon} {ref : Reference} (tracks : Tracks d ref) {o : Oracle}
    {data : Bytes} {off : Int} (offset : IsInt64 off) {objects : Objects} {cs : ChunkStore}
    {ext : Extent}
    (appended : ChunkStore.append mapStore o.put o.disk d.objects d.cs data off =
      (objects, cs, .ok ext)) :
    Holds (cs.byteOf objects) ext data ∧ ext.fileOffset = off := by
  obtain ⟨start, buffer, -, rfl, fits⟩ := ChunkStore.append_extent appended
  have small := tracks.chunkSize
  exact ⟨.of_append buffer offset (by omega) objects, rfl⟩

theorem OpenFile.Has.write {byte : Key → Nat → Option UInt8} {content : Bytes} {file : OpenFile}
    (has : file.Has byte content) {ext : Extent} {data : Bytes} (holds : Holds byte ext data)
    (low : 0 ≤ ext.fileOffset) (nonempty : data ≠ [])
    (small : ext.fileOffset + data.length < 9223372036854775808)
    (noSplit : ∀ exts, file.extents = some exts → ¬ SplitsInner exts ext) :
    (file.write ext).Has byte (overwrite content ext.fileOffset.toNat data) := by
  obtain ⟨regular, exts, listed, denotes⟩ := has
  have length := holds.length
  have plain : ext.fileEnd = ext.fileOffset + ext.length :=
    wrap64_of_nonneg (by omega) (by omega)
  have size : (file.write ext).size = max file.size (ext.fileOffset + ext.length) := by
    simp only [OpenFile.write, plain]
    split_ifs <;> omega
  refine ⟨regular, writeExtents exts ext, by rw [OpenFile.write, listed]; rfl, ?_⟩
  rw [size]
  exact denotes.write holds low nonempty small (noSplit exts listed)

theorem Tracks.of_writeExtent {d : Daemon} {ref : Reference} (tracks : Tracks d ref) {ino : Ino}
    {ext : Extent} {data : Bytes} {now : Int} {idx : Index}
    (holds : Holds (d.cs.byteOf d.objects) ext data) (low : 0 ≤ ext.fileOffset)
    (nonempty : data ≠ []) (small : ext.fileOffset + data.length < 9223372036854775808)
    (noSplit : ∀ exts, d.idx.extents.get ino = some exts → ¬ SplitsInner exts ext)
    (applied : d.idx.writeExtent ino ext now = .ok idx) :
    Tracks { d with idx := idx }
      (ref.modify ino fun old => overwrite old ext.fileOffset.toNat data) := by
  refine tracks.of_mutation (m := .writeExtent ino ext now) applied
    (fun _ takes => by cases takes.1) fun other content stored => ?_
  simp only [OpenFile.after]
  rw [GoMap.get_modify] at stored
  split_ifs at stored with isIt
  · subst isIt
    obtain ⟨before, was, rfl⟩ := Option.map_eq_some_iff.mp stored
    refine ⟨before, was, fun file held has => ?_⟩
    obtain ⟨-, -, -, -, extents⟩ := Index.file_eq_some.mp held
    rw [if_pos rfl]
    exact has.write holds low nonempty small fun exts listed =>
      noSplit exts (extents.trans listed)
  · refine ⟨content, stored, fun file _ has => ?_⟩
    rw [if_neg (Ne.symm isIt)]
    exact has

/-- From `Append` on, a write either changes nothing in the reference or
overwrites it. -/
theorem Tracks.of_writeAppend {cfg : Config} {ino : Ino} {data : Bytes} {off now : Int}
    {d d' : Daemon} {r : Reply} {ref : Reference} (tracks : Tracks d ref) (low : 0 ≤ off)
    (nonempty : data ≠ []) (small : off + data.length < 9223372036854775808)
    (noSplit : ∀ exts, d.idx.extents.get ino = some exts →
      ¬ SplitsInner exts ⟨[], 0, data.length, off⟩)
    (completes : Completes (daemonSys cfg) d (.writeAppend ino data off now) d' r) :
    Tracks d' (ref.step (.write ino data off now) r) := by
  obtain ⟨o, appended, a, applied, ends⟩ := completes.first
  have moves := ChunkStore.append_moves o.put o.disk d.objects d.cs data off
  simp only [daemonSys_apply, daemonSys_effect, Call.effect, Daemon.apply, Daemon.append,
    Option.some.injEq] at applied
  generalize answered : ChunkStore.append mapStore o.put o.disk d.objects d.cs data off = answer
    at moves applied
  obtain ⟨objects, cs, failure | ext⟩ := answer
  · cases applied
    obtain ⟨returns, rfl⟩ | ⟨c', continues, -⟩ := ends
    · cases returns
      exact tracks.of_moves moves d.dir
    · cases continues
  · have offset : IsInt64 off := ⟨by omega, by omega⟩
    obtain ⟨holds, start⟩ := tracks.holds_append offset answered
    have after := tracks.of_moves moves d.dir
    have length := holds.length
    cases applied
    obtain ⟨returns, -⟩ | ⟨c', continues, rest⟩ := ends
    · cases returns
    cases continues
    obtain ⟨o, recorded, a, applied, ends⟩ := rest.first
    simp only [daemonSys_apply, daemonSys_effect, Call.effect, Daemon.apply, Daemon.mutate,
      Mutation.apply, Option.some.injEq] at applied
    have noSplit' : ∀ exts, d.idx.extents.get ino = some exts → ¬ SplitsInner exts ext := by
      rintro exts listed ⟨e, member, before, behind⟩
      refine noSplit exts listed ⟨e, member, by rw [← start]; exact before, ?_⟩
      simpa only [Extent.fileEnd, ← start, ← length] using behind
    split at applied
    next idx recordedIdx =>
      cases applied
      have written := after.of_writeExtent holds (by rw [start]; exact low) nonempty
        (by rw [start]; exact small) noSplit' recordedIdx
      obtain ⟨returns, rfl⟩ | ⟨c', continues, -⟩ := ends
      · cases returns
        rw [start] at written
        exact written
      · cases continues
    next failure refused =>
      cases applied
      obtain ⟨returns, rfl⟩ | ⟨c', continues, -⟩ := ends
      · cases returns
        exact after
      · cases continues
    next refused =>
      cases applied
      obtain ⟨returns, rfl⟩ | ⟨c', continues, -⟩ := ends
      · cases returns
        exact after
      · cases continues

theorem Tracks.of_write {cfg : Config} {ino : Ino} {data : Bytes} {off now : Int}
    {d d' : Daemon} {r : Reply} {ref : Reference} (tracks : Tracks d ref) (low : 0 ≤ off)
    (nonempty : data ≠ []) (small : off + data.length < 9223372036854775808)
    (noSplit : ∀ exts, d.idx.extents.get ino = some exts →
      ¬ SplitsInner exts ⟨[], 0, data.length, off⟩)
    (completes : Completes (daemonSys cfg) d (.write ino data off now) d' r) :
    Tracks d' (ref.step (.write ino data off now) r) := by
  obtain ⟨o, same, a, applied, ends⟩ := completes.first
  cases applied
  cases found : d.idx.inodes.get ino with
  | none =>
      simp only [daemonSys_resume, Call.resume, Index.getInode, found] at ends
      obtain ⟨returns, rfl⟩ | ⟨c', continues, -⟩ := ends
      · cases returns
        exact tracks
      · cases continues
  | some inode =>
      simp only [daemonSys_resume, Call.resume, Index.getInode, found] at ends
      split_ifs at ends with grows
      · obtain ⟨returns, -⟩ | ⟨c', continues, rest⟩ := ends
        · cases returns
        cases continues
        obtain ⟨o, same, a, applied, ends⟩ := rest.first
        cases applied
        simp only [daemonSys_resume, Call.resume] at ends
        split_ifs at ends with full
        · obtain ⟨returns, rfl⟩ | ⟨c', continues, -⟩ := ends
          · cases returns
            exact tracks
          · cases continues
        · obtain ⟨returns, -⟩ | ⟨c', continues, rest⟩ := ends
          · cases returns
          cases continues
          exact tracks.of_writeAppend low nonempty small noSplit rest
      · obtain ⟨returns, -⟩ | ⟨c', continues, rest⟩ := ends
        · cases returns
        cases continues
        exact tracks.of_writeAppend low nonempty small noSplit rest

/-! ### Reading a file -/

/-- A successful read returns the bytes of the range. -/
theorem Tracks.of_read {cfg : Config} {ino : Ino} {dest : Nat} {off now : Int} {d d' : Daemon}
    {bytes : Bytes} {ref : Reference} (tracks : Tracks d ref) {content : Bytes}
    (stored : ref.get ino = some content) (low : 0 ≤ off)
    (small : off + dest < 9223372036854775808)
    (completes : Completes (daemonSys cfg) d (.read ino dest off now) d' (.data bytes)) :
    bytes = (content.drop off.toNat).take dest := by
  obtain ⟨inode, exts, known, -, listed, denotes⟩ := tracks.files ino content stored
  have size := denotes.length
  have ends : ∀ e ∈ exts, e.fileEnd = e.fileOffset + e.length := fun e member =>
    (denotes.within e member).fileEnd denotes.small
  rcases Filled.of_read known listed tracks.coherent ends denotes.range low small completes with
    ⟨beyond, rfl⟩ | ⟨inFile, length, filled, -⟩
  · rw [List.drop_of_length_le (by omega), List.take_nil]
  · apply List.ext_getElem?
    intro i
    by_cases inside : i < bytes.length
    · rw [List.getElem?_take, if_pos (by omega), List.getElem?_drop, getElem?_eq_byteOr inside,
        getElem?_eq_byteOr (by omega), filled i inside, denotes.bytes _ (by omega)]
      have position : off + i = ((off.toNat + i : Nat) : Int) := by omega
      rw [position]
    · rw [List.getElem?_eq_none (by omega), List.getElem?_eq_none]
      rw [List.length_take, List.length_drop]
      omega

/-! ### Sequential runs -/

/-- The content calls with the arguments the kernel passes. -/
def Call.InBounds (d : Daemon) : Call → Prop
  | .make .regular _ _ _ _ _ _ => True
  | .write _ data off _ => 0 ≤ off ∧ data ≠ [] ∧ (data.length : Int) ≤ d.cs.maxChunkSize
  | .setattr _ input _ => ∀ size ∈ input.change.size, 0 ≤ size
  | .read _ _ off _ => 0 ≤ off
  | .sealActive | .fsync => True
  | _ => False

/-- In addition, no offset overflows and no write splits an extent that has
others behind it. -/
def Call.Safe (d : Daemon) (c : Call) : Prop :=
  c.InBounds d ∧
    match c with
    | .write ino data off _ =>
        off + data.length < 9223372036854775808 ∧
          ∀ exts ∈ d.idx.extents.get ino, ¬ SplitsInner exts ⟨[], 0, data.length, off⟩
    | .read _ dest off _ => off + dest < 9223372036854775808
    | _ => True

instance (d : Daemon) (c : Call) : Decidable (c.InBounds d) := by
  unfold Call.InBounds
  split <;> infer_instance

instance (d : Daemon) (c : Call) : Decidable (c.Safe d) := by
  unfold Call.Safe
  split <;> infer_instance

/-- The daemon and the reference after a sequence of admitted calls, one after
another. -/
inductive ContentRun (cfg : Config) (admits : Daemon → Call → Prop) (start : Daemon) :
    Daemon → Reference → Prop where
  | start : ContentRun cfg admits start start ∅
  | call {d d' : Daemon} {ref : Reference} {c : Call} {r : Reply}
      (before : ContentRun cfg admits start d ref) (admitted : admits d c)
      (completes : Completes (daemonSys cfg) d c d' r) :
      ContentRun cfg admits start d' (ref.step c r)

/-- Such a run, executed with the oracles of each call. -/
def runContent (cfg : Config) (admits : Daemon → Call → Prop)
    [∀ d c, Decidable (admits d c)] (d : Daemon) (ref : Reference) :
    List (Call × List Oracle) → Option (Daemon × Reference)
  | [] => some (d, ref)
  | (c, oracles) :: rest =>
      if admits d c then
        ((daemonSys cfg).finish d c oracles).bind fun (d', r) =>
          runContent cfg admits d' (ref.step c r) rest
      else none

theorem ContentRun.of_runContent {cfg : Config} {admits : Daemon → Call → Prop}
    [∀ d c, Decidable (admits d c)] {start d d' : Daemon} {ref ref' : Reference}
    {calls : List (Call × List Oracle)} (before : ContentRun cfg admits start d ref)
    (finished : runContent cfg admits d ref calls = some (d', ref')) :
    ContentRun cfg admits start d' ref' := by
  induction calls generalizing d ref with
  | nil =>
      cases finished
      exact before
  | cons head tail inductionHypothesis =>
      obtain ⟨c, oracles⟩ := head
      simp only [runContent] at finished
      split_ifs at finished with admitted
      obtain ⟨⟨next, r⟩, first, others⟩ := Option.bind_eq_some_iff.mp finished
      exact inductionHypothesis (.call before admitted (.of_finish first)) others

/-- Every safe call keeps the contents. -/
theorem Tracks.of_call {cfg : Config} {c : Call} {d d' : Daemon} {r : Reply} {ref : Reference}
    (tracks : Tracks d ref) (safe : c.Safe d) (completes : Completes (daemonSys cfg) d c d' r) :
    Tracks d' (ref.step c r) := by
  obtain ⟨bounds, safe⟩ := safe
  cases c <;> try exact bounds.elim
  case make kind parent name mode uid gid now =>
    cases kind <;> try exact bounds.elim
    exact tracks.of_make completes
  case setattr ino input now =>
    refine tracks.of_setattr (fun size member => ⟨bounds size member, ?_⟩) completes
    unfold SetAttrIn.change at member
    dsimp only at member
    split_ifs at member
    · rw [← Option.mem_some_iff.mp member]
      exact (wrap64_range _).2
    · cases member
  case read ino dest off now => exact tracks.of_neutral completes trivial
  case write ino data off now =>
    exact tracks.of_write bounds.1 bounds.2.1 safe.1 (fun exts listed => safe.2 exts listed)
      completes
  case fsync => exact tracks.of_neutral completes trivial
  case sealActive => exact tracks.of_neutral completes trivial

theorem ContentRun.tracks {cfg : Config} {start d : Daemon} {ref : Reference}
    (initially : Tracks start ∅) (run : ContentRun cfg (fun d c => c.Safe d) start d ref) :
    Tracks d ref := by
  induction run with
  | start => exact initially
  | call _ admitted completes inductionHypothesis =>
      exact inductionHypothesis.of_call admitted completes

/-- After any run of safe calls on an empty filesystem, a safe read of a file
that succeeds returns the bytes `[off, min(off + dest, size))` of the reference. -/
theorem read_returns_reference (cfg : Config) {maxChunkSize : Int}
    (small : maxChunkSize < 9223372036854775808) (blockSize created : Int) (cached : Bool)
    {d d' : Daemon} {ref : Reference}
    (run : ContentRun cfg (fun d c => c.Safe d) (freshDaemon maxChunkSize blockSize created cached)
      d ref)
    {ino : Ino} {content : Bytes} (file : ref.get ino = some content) {dest : Nat} {off now : Int}
    (safe : (Call.read ino dest off now).Safe d) {bytes : Bytes}
    (completes : Completes (daemonSys cfg) d (.read ino dest off now) d' (.data bytes)) :
    bytes = (content.drop off.toNat).take dest :=
  (run.tracks (freshDaemon_tracks small blockSize created cached)).of_read file safe.1 safe.2
    completes

/-- Two extents, a truncation, a gap and an overwrite of the whole first extent. -/
def safeCalls : List (Call × List Oracle) :=
  [(.make .regular 1 [97] 0o644 0 0 1, List.replicate 3 {}),
    (.write 2 [1, 2, 3, 4] 0 2, List.replicate 4 {}),
    (.write 2 [5, 6] 4 3, List.replicate 4 {}),
    (.sealActive, [{}]),
    (.setattr 2 { valid := 8, size := 5 } 4, List.replicate 2 {}),
    (.write 2 [7] 6 5, List.replicate 4 {}),
    (.fsync, [{}]),
    (.write 2 [8, 8, 8, 8] 0 6, List.replicate 3 {})]

private theorem safeCalls_evaluates :
    ((runContent sampleConfig (fun d c => c.Safe d) (freshDaemon 64 4096 0 true) ∅ safeCalls).bind
      fun (d, ref) => ((daemonSys sampleConfig).finish d (.read 2 9 1 7) (List.replicate 6 {})).map
        fun (_, r) => (ref.get 2, r)) =
      some (some [8, 8, 8, 8, 5, 0, 7], .data [8, 8, 8, 5, 0, 7]) := by
  decide +kernel

theorem read_returns_reference_safeCalls :
    ∃ d d' ref bytes,
      ContentRun sampleConfig (fun d c => c.Safe d) (freshDaemon 64 4096 0 true) d ref ∧
      ref.get 2 = some [8, 8, 8, 8, 5, 0, 7] ∧
      Completes (daemonSys sampleConfig) d (.read 2 9 1 7) d' (.data bytes) ∧
      bytes = [8, 8, 8, 5, 0, 7] := by
  obtain ⟨⟨d, ref⟩, ran, rest⟩ := Option.bind_eq_some_iff.mp safeCalls_evaluates
  obtain ⟨⟨d', r⟩, finished, both⟩ := Option.map_eq_some_iff.mp rest
  obtain ⟨file, rfl⟩ := Prod.mk.inj both
  have run := ContentRun.of_runContent .start ran
  have completes := Completes.of_finish finished
  have same := read_returns_reference sampleConfig (by decide) 4096 0 true run file
    ⟨(by decide : (0 : Int) ≤ 1), (by decide : (1 : Int) + (9 : Nat) < 9223372036854775808)⟩
    completes
  exact ⟨d, d', ref, _, run, file, completes, same⟩

/-- A write inside the first of two extents. -/
def splitCalls : List (Call × List Oracle) :=
  [(.make .regular 1 [97] 0o644 0 0 1, List.replicate 3 {}),
    (.write 2 [1, 2, 3, 4] 0 2, List.replicate 4 {}),
    (.write 2 [5, 6, 7, 8] 4 3, List.replicate 4 {}),
    (.write 2 [9] 1 4, List.replicate 3 {})]

private theorem splitCalls_evaluates :
    ((runContent sampleConfig (fun d c => c.InBounds d) (freshDaemon 64 4096 0 false) ∅
      splitCalls).bind
      fun (d, ref) => ((daemonSys sampleConfig).finish d (.read 2 8 0 5) (List.replicate 7 {})).map
        fun (_, r) => (ref.get 2, r)) =
      some (some [1, 9, 3, 4, 5, 6, 7, 8], .data [1, 9, 3, 4, 0, 0, 0, 0]) := by
  decide +kernel

/-- The tail of the split extent takes the place of the second extent, and a
read of the whole file returns zeros for it. -/
theorem read_after_split_loses_bytes :
    ∃ d d' ref bytes,
      ContentRun sampleConfig (fun d c => c.InBounds d) (freshDaemon 64 4096 0 false) d ref ∧
      ref.get 2 = some [1, 9, 3, 4, 5, 6, 7, 8] ∧
      (Call.read 2 8 0 5).InBounds d ∧
      Completes (daemonSys sampleConfig) d (.read 2 8 0 5) d' (.data bytes) ∧
      bytes = [1, 9, 3, 4, 0, 0, 0, 0] ∧
      bytes ≠ (([1, 9, 3, 4, 5, 6, 7, 8] : Bytes).drop 0).take 8 := by
  obtain ⟨⟨d, ref⟩, ran, rest⟩ := Option.bind_eq_some_iff.mp splitCalls_evaluates
  obtain ⟨⟨d', r⟩, finished, both⟩ := Option.map_eq_some_iff.mp rest
  obtain ⟨file, rfl⟩ := Prod.mk.inj both
  exact ⟨d, d', ref, _, .of_runContent .start ran, file, (by decide : (0 : Int) ≤ 0),
    .of_finish finished, rfl, by decide⟩

end Fusey
