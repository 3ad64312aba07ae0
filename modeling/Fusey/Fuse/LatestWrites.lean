import Fusey.Fuse.Attributes
import Fusey.Fuse.Ledger
import Fusey.Fuse.OpenFiles

/-!
Contract: the write whose byte a file has at each offset.

Owns:
- the latest writes of a session: a recorded write takes its range, and a change
  of size drops what is past the new end;
- that the extents of every regular file show exactly these writes, as long as
  every recorded write has bytes, does not wrap and splits no inner extent;
- that these writes are in the log of the session.

Does not own where the bytes of a write are stored.
-/

set_option autoImplicit false

namespace Fusey

open GoInt Index

/-! ### The latest writes -/

/-- The latest write at each offset of each file. -/
abbrev LatestWrites := Ino → Int → Option WriteRecord

/-- After a mutator; `data` are the bytes that a recorded extent stands for. -/
def LatestWrites.after (latest : LatestWrites) (data : Bytes) : Mutation → LatestWrites
  | .writeExtent target ext _ => fun ino x =>
      if ino = target ∧ ext.Covers x then some ⟨target, data, ext⟩ else latest ino x
  | .setAttr target change _ => fun ino x =>
      if ino = target ∧ ∃ size ∈ change.size, size ≤ x then none else latest ino x
  | _ => latest

/-- A latest write is an earlier one or the one that is recorded. -/
theorem LatestWrites.of_after {latest : LatestWrites} {data : Bytes} {m : Mutation} {ino : Ino}
    {x : Int} {w : WriteRecord} (found : latest.after data m ino x = some w) :
    latest ino x = some w ∨ ∃ ext now, m = .writeExtent ino ext now ∧ w = ⟨ino, data, ext⟩ := by
  cases m with
  | writeExtent target ext now =>
      simp only [LatestWrites.after] at found
      split_ifs at found with covers
      · obtain ⟨rfl, -⟩ := covers
        exact Or.inr ⟨ext, now, rfl, (Option.some.inj found).symm⟩
      · exact Or.inl found
  | setAttr target change now =>
      simp only [LatestWrites.after] at found
      split_ifs at found
      exact Or.inl found
  | _ => exact Or.inl found

/-- The bytes of the write that a call is about to record. -/
def Call.written : Call → Bytes
  | .writeRecord _ data _ _ => data
  | _ => []

/-- After a step of a call. -/
def LatestWrites.note (latest : LatestWrites) (c : Call) (a : Answer) : LatestWrites :=
  match c.effect, a with
  | .mutate m, .done => latest.after c.written m
  | _, _ => latest

theorem LatestWrites.note_cases (latest : LatestWrites) (c : Call) (a : Answer) :
    latest.note c a = latest ∨
      ∃ m, c.effect = .mutate m ∧ a = .done ∧ latest.note c a = latest.after c.written m := by
  unfold LatestWrites.note
  split
  next m asks => exact Or.inr ⟨m, asks, rfl, rfl⟩
  next => exact Or.inl rfl

/-! ### One file -/

/-- The extents of the file lie inside it and show, at every offset, the latest
write to it. -/
structure OpenFile.Shows (file : OpenFile) (latest : Int → Option WriteRecord) : Prop where
  small : file.size < 9223372036854775808
  range : ∀ e ∈ file.extents.getD [], e.InRange
  within : ∀ e ∈ file.extents.getD [], e.Within file.size
  covers : ∀ x w, latest x = some w → w.ext.Covers x
  bytes : ∀ {β : Type} (bytesOf : Key → Int → β) (x : Int),
    byteAt bytesOf (file.extents.getD []) x = (latest x).bind fun w => w.ext.layer bytesOf x

section File

variable {file : OpenFile} {latest : Int → Option WriteRecord}

/-- A file without extents, of which nothing is known. -/
theorem OpenFile.Shows.empty (noExtents : file.extents = some []) (size : file.size = 0)
    (nothing : ∀ x, latest x = none) : file.Shows latest where
  small := by omega
  range := by
    rw [noExtents]
    exact fun _ member => by cases member
  within := by
    rw [noExtents]
    exact fun _ member => by cases member
  covers := by
    intro x w found
    rw [nothing] at found
    cases found
  bytes := by
    intro β bytesOf x
    rw [noExtents, nothing]
    rfl

/-- Nothing is written past the end. -/
theorem OpenFile.Shows.past_end (shows : file.Shows latest) {x : Int} (past : file.size ≤ x) :
    latest x = none := by
  have uncovered : byteAt (fun _ _ => ()) (file.extents.getD []) x = none := by
    refine byteAt_eq_none.mpr fun e member covers => ?_
    have stop := (shows.within e member).stop
    obtain ⟨-, below⟩ := covers
    omega
  rw [shows.bytes] at uncovered
  cases found : latest x with
  | none => rfl
  | some w =>
      rw [found, Option.bind_some, Extent.layer, if_pos (shows.covers x w found)] at uncovered
      cases uncovered

/-- A write takes its range. -/
theorem OpenFile.Shows.write (shows : file.Shows latest) {w : WriteRecord} (range : w.ext.InRange)
    (start : 0 ≤ w.ext.fileOffset) (positive : 0 < w.ext.length)
    (small : w.ext.fileOffset + w.ext.length < 9223372036854775808)
    (noSplit : ¬ SplitsInner (file.extents.getD []) w.ext) :
    (file.write w.ext).Shows fun x => if w.ext.Covers x then some w else latest x := by
  have plain : w.ext.fileEnd = w.ext.fileOffset + w.ext.length :=
    wrap64_of_nonneg (by omega) small
  have size : (file.write w.ext).size = max file.size (w.ext.fileOffset + w.ext.length) := by
    simp only [OpenFile.write, plain]
    split_ifs <;> omega
  have extents : (file.write w.ext).extents.getD [] =
      writeExtents (file.extents.getD []) w.ext := rfl
  refine ⟨?_, ?_, ?_, ?_, ?_⟩
  · rw [size]
    exact max_lt shows.small small
  · rw [extents]
    intro e member
    rcases writeExtents_part shows.range range e member with rfl | ⟨inRange, -⟩
    · exact range
    · exact inRange
  · rw [size, extents]
    exact within_writeExtents shows.small shows.within shows.range range start positive plain
      noSplit
  · intro x newest found
    split_ifs at found with covers
    · cases found
      exact covers
    · exact shows.covers x newest found
  · intro β bytesOf x
    rw [extents, byteAt_writeExtents bytesOf shows.small shows.within shows.range range plain
      noSplit]
    split_ifs with covers
    · rfl
    · exact shows.bytes bytesOf x

/-- A change of size drops what is past the new end. -/
theorem OpenFile.Shows.resize (shows : file.Shows latest) (regular : file.fileType = .regular)
    {newSize : Int} (sizeRange : IsInt64 newSize) :
    (file.resize (some newSize)).Shows fun x => if newSize ≤ x then none else latest x := by
  by_cases same : newSize = file.size
  · subst same
    have cut : (fun x => if file.size ≤ x then none else latest x) = latest := by
      funext x
      split_ifs with past
      · exact (shows.past_end past).symm
      · rfl
    have unchanged : file.resize (some file.size) = file := by simp [OpenFile.resize]
    rw [cut, unchanged]
    exact shows
  · have extents : (file.resize (some newSize)).extents.getD [] =
        trimExtents newSize (file.extents.getD []) := by
      simp [OpenFile.resize, same, regular]
    refine ⟨?_, ?_, ?_, ?_, ?_⟩
    · exact sizeRange.2
    · rw [extents]
      exact fun e member => (trimExtents_part shows.range sizeRange e member).1
    · rw [extents]
      exact within_trimExtents shows.small shows.within
    · intro x w found
      split_ifs at found
      exact shows.covers x w found
    · intro β bytesOf x
      rw [extents, byteAt_trimExtents bytesOf shows.small shows.within]
      by_cases below : x < newSize
      · rw [if_pos below, if_neg (by omega)]
        exact shows.bytes bytesOf x
      · rw [if_neg below, if_pos (by omega), Option.bind_none]

end File

/-! ### The index -/

/-- Removing the last link of an inode frees it and its extents. -/
theorem Mutation.gone_of_takesLast {m : Mutation} {idx idx' : Index} {ino : Ino}
    (applied : m.apply idx = .ok idx') (takes : m.TakesLast idx ino) :
    idx'.file ino = none ∧ idx'.extents.get ino = none := by
  have isRelink : m.isRelink = true := by
    cases m with
    | removeDirEntry | rename => rfl
    | _ => cases takes.1
  have gone := (Mutation.relinks applied isRelink).frees takes
  exact ⟨Option.map_eq_none_iff.mpr gone.inode, gone.extents⟩

/-- Every file that a mutator leaves was there and has been advanced by it, or it
is the new and empty one. -/
theorem Mutation.file_cases {m : Mutation} {idx idx' : Index} {ino : Ino} {file' : OpenFile}
    (applied : m.apply idx = .ok idx') (numbered : idx.Numbered)
    (held : idx'.file ino = some file') :
    (∃ file, idx.file ino = some file ∧ file' = file.after ino m) ∨
      (∃ fileType mode uid gid rdev now, m = .createInode fileType mode uid gid rdev now ∧
        ino = idx.nextIno ∧ file'.size = 0 ∧
        (file'.fileType = .regular → file'.extents = some [])) := by
  cases before : idx.file ino with
  | some file =>
      left
      have spared : ¬ m.TakesLast idx ino := fun takes => by
        cases held.symm.trans (Mutation.gone_of_takesLast applied takes).1
      exact ⟨file, rfl, Option.some.inj
        (held.symm.trans (Mutation.file applied numbered before spared))⟩
  | none =>
      right
      obtain ⟨inode', stored, type, size, extents⟩ := file_eq_some.mp held
      rcases Mutation.alters applied stored with ⟨inode, known, -⟩ | ⟨isNew, empty, -⟩
      · rw [Index.file, known] at before
        cases before
      · have below := (Mutation.keepsShape applied).numbered numbered ino inode' stored
        rcases Mutation.nextIno_cases applied with
          same | ⟨fileType, mode, uid, gid, rdev, now, rfl, -⟩
        · rw [same, isNew] at below
          exact absurd below (Nat.lt_irrefl _)
        · refine ⟨fileType, mode, uid, gid, rdev, now, rfl, isNew, size.symm.trans empty,
            fun regular => ?_⟩
          subst isNew
          cases applied
          simp only [Index.createInode, touched, GoMap.get_set_self, Option.some.injEq] at stored
          rw [← extents]
          have isRegular : fileType = .regular := by
            rw [← regular, ← type, ← stored]
          simp only [Index.createInode, touched, if_pos isRegular, GoMap.get_set_self]

theorem OpenFile.after_fileType (ino : Ino) (file : OpenFile) (m : Mutation) :
    (file.after ino m).fileType = file.fileType := by
  cases m with
  | setAttr target change now =>
      simp only [OpenFile.after]
      split_ifs
      · cases change.size <;> rfl
      · rfl
  | writeExtent target ext now =>
      simp only [OpenFile.after]
      split_ifs <;> rfl
  | setSymlink target link now =>
      simp only [OpenFile.after]
      split_ifs <;> rfl
  | _ => rfl

/-- There is a regular file under the number. -/
def Index.HasFile (idx : Index) (ino : Ino) : Prop :=
  ∃ file, idx.file ino = some file ∧ file.fileType = .regular

theorem Index.hasFile_of_typeOf {idx : Index} {ino : Ino}
    (regular : idx.typeOf ino = some .regular) :
    idx.HasFile ino := by
  obtain ⟨inode, stored, isRegular⟩ := typeOf_eq_some.mp regular
  exact ⟨⟨inode.fileType, inode.size, idx.extents.get ino⟩,
    file_eq_some.mpr ⟨inode, stored, rfl, rfl, rfl⟩, isRegular⟩

/-- A file that a mutator leaves was there or is new. -/
theorem Mutation.hasFile_cases {m : Mutation} {idx idx' : Index} {ino : Ino}
    (applied : m.apply idx = .ok idx') (numbered : idx.Numbered) (held : idx'.HasFile ino) :
    idx.HasFile ino ∨ idx.nextIno ≤ ino := by
  obtain ⟨file', held, regular⟩ := held
  rcases Mutation.file_cases applied numbered held with
    ⟨file, before, rfl⟩ | ⟨_, _, _, _, _, _, -, rfl, -⟩
  · exact Or.inl ⟨file, before, (OpenFile.after_fileType ino file m).symm.trans regular⟩
  · exact Or.inr le_rfl

/-- A file that keeps a link is still there after a mutator. -/
theorem Mutation.hasFile_of_spared {m : Mutation} {idx idx' : Index} {ino : Ino}
    (applied : m.apply idx = .ok idx') (numbered : idx.Numbered) (held : idx.HasFile ino)
    (spared : ¬ m.TakesLast idx ino) : idx'.HasFile ino := by
  obtain ⟨file, held, regular⟩ := held
  exact ⟨_, Mutation.file applied numbered held spared,
    (OpenFile.after_fileType ino file m).trans regular⟩

/-- Only regular files have extents. -/
def Index.OnlyFiles (idx : Index) : Prop := ∀ ino, idx.extents.get ino ≠ none → idx.HasFile ino

theorem Mutation.onlyFiles {m : Mutation} {idx idx' : Index} (applied : m.apply idx = .ok idx')
    (numbered : idx.Numbered) (only : idx.OnlyFiles) : idx'.OnlyFiles := by
  intro ino present
  have spared : ¬ m.TakesLast idx ino := fun takes =>
    present (Mutation.gone_of_takesLast applied takes).2
  obtain ⟨exts, stored⟩ := Option.ne_none_iff_exists'.mp present
  rcases Mutation.extents applied stored with
    old | ⟨-, rfl, mode, uid, gid, rdev, now, rfl⟩ | ⟨change, now, size, rfl, -, regular, -⟩ |
      ⟨ext, now, rfl, -⟩
  · refine Mutation.hasFile_of_spared applied numbered (only ino ?_) spared
    rw [old]
    exact Option.some_ne_none _
  · cases applied
    exact hasFile_of_typeOf (typeOf_eq_some.mpr ⟨_, GoMap.get_set_self _ _ _, rfl⟩)
  · exact Mutation.hasFile_of_spared applied numbered (hasFile_of_typeOf regular) spared
  · obtain ⟨inode, known, regular, -⟩ := writeExtent_ok applied
    exact Mutation.hasFile_of_spared applied numbered
      (hasFile_of_typeOf (typeOf_eq_some.mpr ⟨inode, known, regular⟩)) spared

/-- The extents of every regular file show the latest writes, no other inode has
any, and nothing is known of numbers that have not been given out. -/
structure Index.ShowsLatest (idx : Index) (latest : LatestWrites) : Prop where
  numbered : idx.Numbered
  onlyFiles : idx.OnlyFiles
  unborn : ∀ ino, idx.nextIno ≤ ino → ∀ x, latest ino x = none
  files : ∀ ino file, idx.file ino = some file → file.fileType = .regular →
    file.Shows (latest ino)

/-- What a mutator writes has bytes, does not wrap and splits no inner extent;
sizes are `int64`s. -/
def Mutation.WritesPlainly (idx : Index) : Mutation → Prop
  | .writeExtent ino ext _ => ext.InRange ∧ 0 ≤ ext.fileOffset ∧ 0 < ext.length ∧
      ext.fileOffset + ext.length < 9223372036854775808 ∧
      ¬ SplitsInner ((idx.extents.get ino).getD []) ext
  | .setAttr _ change _ => ∀ size, change.size = some size → IsInt64 size
  | _ => True

/-- Nothing is known of a number that is not in use yet. -/
theorem Index.ShowsLatest.unborn_after {m : Mutation} {idx idx' : Index} {latest : LatestWrites}
    (shows : idx.ShowsLatest latest) (applied : m.apply idx = .ok idx') (data : Bytes) {ino : Ino}
    (fresh : idx'.nextIno ≤ ino) (x : Int) : latest.after data m ino x = none := by
  have wasFresh := shows.unborn ino ((Mutation.nextIno_le applied).trans fresh)
  cases m with
  | writeExtent target ext now =>
      obtain ⟨inode, stored, -, rfl⟩ := writeExtent_ok applied
      have other : ino ≠ target := by
        rintro rfl
        exact absurd (shows.numbered ino inode stored) (Nat.not_lt.mpr fresh)
      simp only [LatestWrites.after, other, false_and, if_false]
      exact wasFresh x
  | setAttr target change now =>
      simp only [LatestWrites.after]
      split_ifs
      · rfl
      · exact wasFresh x
  | _ => exact wasFresh x

/-- A file that a mutator keeps. -/
theorem Index.ShowsLatest.file_after {m : Mutation} {idx idx' : Index} {latest : LatestWrites}
    (shows : idx.ShowsLatest latest) (applied : m.apply idx = .ok idx')
    (plainly : m.WritesPlainly idx) (data : Bytes) {ino : Ino} {file : OpenFile}
    (before : idx.file ino = some file) (regular : (file.after ino m).fileType = .regular) :
    (file.after ino m).Shows (latest.after data m ino) := by
  cases m with
  | writeExtent target ext now =>
      by_cases isIt : target = ino
      · subst isIt
        simp only [OpenFile.after, if_true] at regular ⊢
        obtain ⟨range, start, positive, small, noSplit⟩ := plainly
        obtain ⟨inode, -, -, -, extents⟩ := file_eq_some.mp before
        rw [extents] at noSplit
        simp only [LatestWrites.after, true_and]
        exact (shows.files target file before regular).write
          (w := ⟨target, data, ext⟩) range start
          positive small noSplit
      · simp only [OpenFile.after, if_neg isIt] at regular ⊢
        simp only [LatestWrites.after, Ne.symm isIt, false_and, if_false]
        exact shows.files ino file before regular
  | setAttr target change now =>
      by_cases isIt : target = ino
      · subst isIt
        simp only [OpenFile.after, if_true] at regular ⊢
        cases given : change.size with
        | none =>
            rw [given] at regular
            simp only [LatestWrites.after, given, Option.not_mem_none, false_and, exists_false,
              and_false, if_false]
            exact shows.files target file before regular
        | some newSize =>
            have wasRegular : file.fileType = .regular := by
              rw [given] at regular
              exact regular
            have resized := (shows.files target file before wasRegular).resize wasRegular
              (plainly newSize given)
            simp only [LatestWrites.after, given, Option.mem_some_iff, exists_eq_left',
              true_and]
            exact resized
      · simp only [OpenFile.after, if_neg isIt] at regular ⊢
        simp only [LatestWrites.after, Ne.symm isIt, false_and, if_false]
        exact shows.files ino file before regular
  | setSymlink target link now =>
      obtain ⟨inode, stored, symlink, -⟩ := setSymlink_ok applied
      by_cases isIt : target = ino
      · subst isIt
        obtain ⟨known, found, type, -⟩ := file_eq_some.mp before
        cases stored.symm.trans found
        simp only [OpenFile.after, if_true, ← type, symlink] at regular
        cases regular
      · simp only [OpenFile.after, if_neg isIt] at regular ⊢
        exact shows.files ino file before regular
  | _ => exact shows.files ino file before regular

theorem Index.ShowsLatest.apply {m : Mutation} {idx idx' : Index} {latest : LatestWrites}
    (shows : idx.ShowsLatest latest) (applied : m.apply idx = .ok idx')
    (plainly : m.WritesPlainly idx) (data : Bytes) : idx'.ShowsLatest (latest.after data m) where
  numbered := (Mutation.keepsShape applied).numbered shows.numbered
  onlyFiles := Mutation.onlyFiles applied shows.numbered shows.onlyFiles
  unborn := fun _ fresh x => shows.unborn_after applied data fresh x
  files := by
    intro ino file' held regular
    rcases Mutation.file_cases applied shows.numbered held with
      ⟨file, before, rfl⟩ | ⟨fileType, mode, uid, gid, rdev, now, rfl, isNew, size, noExtents⟩
    · exact shows.file_after applied plainly data before regular
    · exact .empty (noExtents regular) size (shows.unborn ino (isNew ▸ le_rfl))

/-! ### A step of a call -/

/-- The write that a call is about to record has bytes, does not wrap and splits
no extent of its file but the last one of the list. -/
def Call.RecordsPlainly (idx : Index) : Call → Prop
  | .writeRecord ino _ ext _ => 0 ≤ ext.fileOffset ∧ 0 < ext.length ∧
      ext.fileOffset + ext.length < 9223372036854775808 ∧
      ¬ SplitsInner ((idx.extents.get ino).getD []) ext
  | _ => True

instance (idx : Index) (c : Call) : Decidable (c.RecordsPlainly idx) := by
  induction c using Call.casesOn <;> dsimp only [Call.RecordsPlainly] <;> infer_instance

variable {d d' : Daemon} {o : Oracle} {a : Answer} {c : Call} {latest : LatestWrites}

/-- Neither flag matters. -/
theorem Index.ShowsLatest.of_file {idx idx' : Index} (shows : idx.ShowsLatest latest)
    (inodes : idx'.inodes = idx.inodes) (extents : idx'.extents = idx.extents)
    (nextIno : idx'.nextIno = idx.nextIno) : idx'.ShowsLatest latest where
  numbered := by
    unfold Index.Numbered
    rw [inodes, nextIno]
    exact shows.numbered
  onlyFiles := by
    unfold Index.OnlyFiles Index.HasFile Index.file
    rw [inodes, extents]
    exact shows.onlyFiles
  unborn := by
    rw [nextIno]
    exact shows.unborn
  files := by
    intro ino file held
    refine shows.files ino file ?_
    rw [← held, Index.file, Index.file, inodes, extents]

theorem Index.ShowsLatest.of_apply (shows : d.idx.ShowsLatest latest) (sound : c.Sound)
    (scripted : ∀ m, c ≠ .mutate m) (plainly : c.RecordsPlainly d.idx)
    (applied : d.apply c.effect o = some (d', a)) : d'.idx.ShowsLatest (latest.note c a) := by
  unfold LatestWrites.note
  split
  next m asks =>
    rw [asks] at applied
    rcases Daemon.apply_mutate applied with ⟨idx', done, rfl, -⟩ | ⟨-, ⟨failure, bad⟩ | bad⟩
    · have writes : m.WritesPlainly d.idx := by
        cases c <;> cases asks <;> try trivial
        case mutate => exact absurd rfl (scripted m)
        case setattr ino input now => exact fun size given => input.isInt64_size given
        case writeRecord ino data ext now => exact ⟨sound.1, plainly⟩
      exact shows.apply done writes c.written
    · cases bad
    · cases bad
  next failed =>
    rcases Daemon.apply_idx applied with same | ⟨m, asks, done, succeeds⟩ | ⟨-, same⟩ | ⟨-, same⟩
    · exact shows.of_file (by rw [same]) (by rw [same]) (by rw [same])
    · -- Only `CreateInode` succeeds with another answer.
      rcases succeeds with rfl | rfl
      · exact absurd rfl (failed m asks)
      · rw [asks] at applied
        simp only [Daemon.apply, Daemon.mutate, done, Option.some.injEq] at applied
        cases m <;> first
          | exact shows.apply done trivial c.written
          | cases (Prod.mk.inj applied).2
    · exact shows.of_file (by rw [same]; rfl) (by rw [same]; rfl) (by rw [same]; rfl)
    · exact shows.of_file (by rw [same]; rfl) (by rw [same]; rfl) (by rw [same]; rfl)

/-! ### What is shown and what was logged -/

/-- The byte of the latest write at an offset, or zero where there is none. -/
def LatestWrites.byte (latest : LatestWrites) (ino : Ino) (x : Int) : UInt8 :=
  ((latest ino x).bind fun w => w.data[(x - w.ext.fileOffset).toNat]?).getD 0

/-- A latest write has an extent of its file in its place. -/
theorem Index.ShowsLatest.exists_extent {idx : Index} (shows : idx.ShowsLatest latest) {ino : Ino}
    (held : idx.HasFile ino) {x : Int} {w : WriteRecord} (found : latest ino x = some w) :
    ∃ exts, idx.extents.get ino = some exts ∧ ∃ e ∈ exts, e.Covers x ∧
      e.chunkID = w.ext.chunkID ∧
      e.chunkOffset + (x - e.fileOffset) = w.ext.chunkOffset + (x - w.ext.fileOffset) := by
  obtain ⟨file, held, regular⟩ := held
  obtain ⟨-, -, -, -, extents⟩ := file_eq_some.mp held
  have file := shows.files ino _ held regular
  have placed := file.bytes (fun id i => (id, i)) x
  rw [found, Option.bind_some, Extent.layer, if_pos (file.covers x w found)] at placed
  obtain ⟨e, member, covers, same⟩ := exists_of_byteAt placed
  obtain ⟨id, place⟩ := Prod.mk.inj same
  rw [← extents] at member
  cases listed : idx.extents.get ino with
  | none =>
      rw [listed] at member
      cases member
  | some exts =>
      rw [listed] at member
      exact ⟨exts, rfl, e, member, covers, id, place⟩

/-- A latest write is an earlier one or the one that has just been recorded. -/
theorem LatestWrites.logged_note {log : List WriteRecord} {ino : Ino}
    (logged : ∀ x w, latest ino x = some w → w ∈ log ∧ w.ino = ino)
    (scripted : ∀ m, c ≠ .mutate m) (a : Answer) {x : Int} {w : WriteRecord}
    (found : latest.note c a ino x = some w) : w ∈ logWrite log c a ∧ w.ino = ino := by
  have old : latest ino x = some w → w ∈ logWrite log c a ∧ w.ino = ino := fun before =>
    (logged x w before).imp_left fun member => mem_logWrite_of_mem member c a
  rcases latest.note_cases c a with same | ⟨m, asks, rfl, changed⟩
  · exact old (same ▸ found)
  · rcases LatestWrites.of_after (changed ▸ found) with before | ⟨ext, now, rfl, rfl⟩
    · exact old before
    · cases c <;> cases asks
      · exact ⟨List.mem_append_right _ (List.mem_singleton_self _), rfl⟩
      · exact absurd rfl (scripted _)

/-- The extents show the latest writes, and those to the files that are there are
in the log. -/
structure Index.ShowsLogged (idx : Index) (latest : LatestWrites) (log : List WriteRecord) :
    Prop where
  shows : idx.ShowsLatest latest
  logged : ∀ ino, idx.HasFile ino → ∀ x w, latest ino x = some w → w ∈ log ∧ w.ino = ino

/-- In an empty filesystem nothing has been written. -/
theorem Index.new_showsLogged (blockSize now : Int) (log : List WriteRecord) :
    (Index.new blockSize now).ShowsLogged (fun _ _ => none) log where
  shows :=
    { numbered := (Index.new_restorable blockSize now).numbered
      onlyFiles := fun _ listed => absurd rfl listed
      unborn := fun _ _ _ => rfl
      files := by
        -- The root is the only inode, and it is a directory.
        intro ino file held regular
        obtain ⟨inode, stored, type, -⟩ := Index.file_eq_some.mp held
        simp only [Index.new, GoMap.get_set, GoMap.get_empty] at stored
        split_ifs at stored
        cases stored
        cases type.trans regular }
  logged := fun _ _ _ _ found => by cases found

theorem Index.ShowsLogged.mono {idx : Index} {log log' : List WriteRecord}
    (showsLogged : idx.ShowsLogged latest log) (grows : ∀ w ∈ log, w ∈ log') :
    idx.ShowsLogged latest log' :=
  ⟨showsLogged.shows, fun ino held x w found =>
    (showsLogged.logged ino held x w found).imp_left (grows w)⟩

theorem Index.ShowsLogged.of_apply {log : List WriteRecord}
    (showsLogged : d.idx.ShowsLogged latest log) (sound : c.Sound) (scripted : ∀ m, c ≠ .mutate m)
    (plainly : c.RecordsPlainly d.idx) (applied : d.apply c.effect o = some (d', a)) :
    d'.idx.ShowsLogged (latest.note c a) (logWrite log c a) where
  shows := showsLogged.shows.of_apply sound scripted plainly applied
  logged := by
    intro ino held x w found
    have before : d.idx.HasFile ino ∨ d.idx.nextIno ≤ ino := by
      refine Daemon.idx_rule (P := fun idx => idx.HasFile ino →
        d.idx.HasFile ino ∨ d.idx.nextIno ≤ ino) applied Or.inl Or.inl Or.inl ?_ held
      exact fun m idx' _ done => Mutation.hasFile_cases done showsLogged.shows.numbered
    refine LatestWrites.logged_note (fun x w found => ?_) scripted a found
    rcases before with old | fresh
    · exact showsLogged.logged ino old x w found
    · rw [showsLogged.shows.unborn ino fresh x] at found
      cases found

end Fusey
