import Fusey.Fuse.Runs

/-!
Contract: files that are open while their names go (`internal/fuse/fs.go`,
`internal/index/index.go`).

Owns:
- an open file as its handle needs it: a type, a size and an extent list, which
  writes and attribute changes advance and removals of names leave alone;
- that the index holds this file for as long as no removal takes its last link,
  and that `Read` and `Write` get their answers from it.

Does not own the contents of chunks.
-/

set_option autoImplicit false

namespace Fusey

open Interleaving Index

/-! ### The file behind a handle -/

/-- What `Read` and `Write` ask the index for. -/
structure OpenFile where
  fileType : FileType
  size : Int
  extents : Option (List Extent)
deriving DecidableEq

/-- The file under an inode number. -/
def Index.file (idx : Index) (ino : Ino) : Option OpenFile :=
  (idx.inodes.get ino).map fun inode => ⟨inode.fileType, inode.size, idx.extents.get ino⟩

theorem Index.file_eq_some {idx : Index} {ino : Ino} {file : OpenFile} :
    idx.file ino = some file ↔ ∃ inode, idx.inodes.get ino = some inode ∧
      inode.fileType = file.fileType ∧ inode.size = file.size ∧
        idx.extents.get ino = file.extents := by
  unfold Index.file
  rw [Option.map_eq_some_iff]
  constructor
  · rintro ⟨inode, stored, rfl⟩
    exact ⟨inode, stored, rfl, rfl, rfl⟩
  · rintro ⟨inode, stored, fileType, size, extents⟩
    exact ⟨inode, stored, by rw [fileType, size, extents]⟩

/-- The file after `WriteExtent`. -/
def OpenFile.write (file : OpenFile) (ext : Extent) : OpenFile :=
  { file with
    size := if ext.fileEnd > file.size then ext.fileEnd else file.size
    extents := some (writeExtents (file.extents.getD []) ext) }

/-- The file after `SetAttr`. -/
def OpenFile.resize (file : OpenFile) : Option Int → OpenFile
  | none => file
  | some newSize =>
      { file with
        size := newSize
        extents := if newSize ≠ file.size ∧ file.fileType = .regular then
          some (trimExtents newSize (file.extents.getD [])) else file.extents }

/-- The file after a mutator, whatever happens to names. -/
def OpenFile.after (ino : Ino) (file : OpenFile) : Mutation → OpenFile
  | .writeExtent target ext _ => if target = ino then file.write ext else file
  | .setAttr target change _ => if target = ino then file.resize change.size else file
  | .setSymlink target link _ => if target = ino then { file with size := link.length } else file
  | _ => file

/-- The file along a run. -/
def OpenFile.note (ino : Ino) (file : OpenFile) (c : Call) (a : Answer) : OpenFile :=
  match c.effect, a with
  | .mutate m, .done => file.after ino m
  | _, _ => file

/-! ### Losing the last link -/

/-- The next step of a call takes the last link of `ino`. -/
def Call.TakesLast (idx : Index) (ino : Ino) (c : Call) : Prop :=
  match c.effect with
  | .mutate m => m.TakesLast idx ino
  | _ => False

instance (idx : Index) (ino : Ino) (c : Call) : Decidable (c.TakesLast idx ino) := by
  unfold Call.TakesLast
  split <;> infer_instance

/-- No `Unlink`, `Rmdir` or replacing `Rename` takes the last link of `ino`. -/
def sparesLastLink {M : Type} (ino : Ino) (pool : Pool Daemon Call M) : Event Call Oracle → Prop
  | .spawn _ => True
  | .run i _ => ∀ c ∈ pool.threads[i]?, ¬ c.TakesLast pool.shared.idx ino

instance {M : Type} (ino : Ino) (pool : Pool Daemon Call M) (event : Event Call Oracle) :
    Decidable (sparesLastLink ino pool event) := by
  induction event using Event.casesOn <;> dsimp only [sparesLastLink] <;> infer_instance

/-! ### What a mutator does to the file -/

/-- Inodes have numbers below the counter. -/
def Index.Numbered (idx : Index) : Prop :=
  ∀ i inode, idx.inodes.get i = some inode → i < idx.nextIno

section Mutators

variable {idx idx' : Index} {ino : Ino} {file : OpenFile}

/-- The two fields of an inode that a file shows. -/
def partOf (inode : Inode) : FileType × Int := (inode.fileType, inode.size)

theorem file_of_parts (parts : (idx'.inodes.get ino).map partOf = (idx.inodes.get ino).map partOf)
    (extents : idx'.extents.get ino = idx.extents.get ino) : idx'.file ino = idx.file ino := by
  have shows : ∀ idx : Index, idx.file ino =
      ((idx.inodes.get ino).map partOf).map fun part => ⟨part.1, part.2, idx.extents.get ino⟩ := by
    intro idx
    rw [Option.map_map]
    rfl
  rw [shows, shows, parts, extents]

/-- A number that a mutator of the tree keeps has its file. -/
theorem file_of_keepsNumber {stamped : Bool} (keeps : KeepsNumber stamped idx idx' ino) :
    idx'.file ino = idx.file ino := by
  have parts := congrArg (Option.map partOf) keeps.inode
  rw [Option.map_map, Option.map_map] at parts
  exact file_of_parts parts keeps.extents

theorem file_setAttr {target : Ino} {change : AttrChange} {now : Int}
    (applied : idx.setAttr target change now = .ok idx') (held : idx.file ino = some file) :
    idx'.file ino = some (if target = ino then file.resize change.size else file) := by
  obtain ⟨inode, stored, rfl⟩ := setAttr_ok applied
  obtain ⟨known, found, fileType, size, extents⟩ := file_eq_some.mp held
  by_cases isIt : target = ino
  · subst isIt
    cases stored.symm.trans found
    rw [if_pos rfl, file_eq_some]
    refine ⟨change.apply now inode, GoMap.get_set_self _ _ _, ?_⟩
    cases resized : change.size with
    | none =>
        simp only [AttrChange.apply, resized, OpenFile.resize]
        exact ⟨fileType, size, extents⟩
    | some newSize =>
        simp only [AttrChange.apply, resized, OpenFile.resize, ← fileType, ← size, ← extents,
          touched]
        by_cases same : newSize = inode.size
        · subst same
          simp
        · simp only [ne_eq, same, not_false_eq_true, if_true, true_and]
          split_ifs <;> simp
  · rw [if_neg isIt, ← held]
    refine file_of_parts (congrArg _ (GoMap.get_set_ne _ _ (Ne.symm isIt))) ?_
    · simp only [touched]
      split
      · rfl
      · split_ifs
        · exact GoMap.get_set_ne _ _ (Ne.symm isIt)
        · rfl

theorem file_writeExtent {target : Ino} {ext : Extent} {now : Int}
    (applied : idx.writeExtent target ext now = .ok idx') (held : idx.file ino = some file) :
    idx'.file ino = some (if target = ino then file.write ext else file) := by
  obtain ⟨inode, stored, -, rfl⟩ := writeExtent_ok applied
  obtain ⟨known, found, fileType, size, extents⟩ := file_eq_some.mp held
  by_cases isIt : target = ino
  · subst isIt
    cases stored.symm.trans found
    rw [if_pos rfl, file_eq_some]
    refine ⟨recordWrite ext now inode, GoMap.get_set_self _ _ _, ?_⟩
    simp only [OpenFile.write, ← size, ← extents, ← fileType, touched, GoMap.get_set_self]
    unfold recordWrite
    split_ifs <;> exact ⟨rfl, rfl, trivial⟩
  · rw [if_neg isIt, ← held]
    exact file_of_parts (congrArg _ (GoMap.get_set_ne _ _ (Ne.symm isIt)))
      (GoMap.get_set_ne _ _ (Ne.symm isIt))

theorem file_setSymlink {target : Ino} {link : Name} {now : Int}
    (applied : idx.setSymlink target link now = .ok idx') (held : idx.file ino = some file) :
    idx'.file ino = some (if target = ino then { file with size := link.length } else file) := by
  obtain ⟨inode, stored, -, rfl⟩ := setSymlink_ok applied
  obtain ⟨known, found, fileType, size, extents⟩ := file_eq_some.mp held
  by_cases isIt : target = ino
  · subst isIt
    cases stored.symm.trans found
    rw [if_pos rfl, file_eq_some]
    exact ⟨_, GoMap.get_set_self _ _ _, fileType, rfl, extents⟩
  · rw [if_neg isIt, ← held]
    exact file_of_parts (congrArg _ (GoMap.get_set_ne _ _ (Ne.symm isIt))) rfl

theorem file_of_set {target : Ino} {old new : Inode} (stored : idx.inodes.get target = some old)
    (inodes : idx'.inodes = idx.inodes.set target new) (keeps : partOf new = partOf old)
    (extents : idx'.extents = idx.extents) : idx'.file ino = idx.file ino := by
  refine file_of_parts ?_ (by rw [extents])
  rw [inodes]
  exact GoMap.map_get_set stored keeps ino

end Mutators

/-- A mutator that does not take the last link advances the file as it should. -/
theorem Mutation.file {m : Mutation} {idx idx' : Index} {ino : Ino} {file : OpenFile}
    (applied : m.apply idx = .ok idx') (numbered : idx.Numbered) (held : idx.file ino = some file)
    (spared : ¬ m.TakesLast idx ino) : idx'.file ino = some (file.after ino m) := by
  have relinked : m.Relinks idx idx' → idx'.file ino = some file := fun relinks =>
    (file_of_keepsNumber (relinks.keeps spared)).trans held
  cases m with
  | createInode fileType mode uid gid rdev now =>
      cases applied
      obtain ⟨inode, stored, -⟩ := file_eq_some.mp held
      have older : ino ≠ idx.nextIno := Nat.ne_of_lt (numbered ino inode stored)
      refine Eq.trans (file_of_parts (congrArg _ (GoMap.get_set_ne _ _ older)) ?_) held
      · simp only [Index.createInode, touched]
        split_ifs
        · exact GoMap.get_set_ne _ _ older
        · rfl
  | addDirEntry parent name child now => exact relinked (Mutation.relinks applied rfl)
  | removeDirEntry parent name now => exact relinked (Mutation.relinks applied rfl)
  | rename srcParent srcName dstParent dstName now =>
      exact relinked (Mutation.relinks applied rfl)
  | setAttr target change now => exact file_setAttr applied held
  | writeExtent target ext now => exact file_writeExtent applied held
  | setSymlink target link now => exact file_setSymlink applied held
  | setXattr target name value now =>
      obtain ⟨inode, stored, rfl⟩ := setXattr_ok applied
      exact Eq.trans (b := idx.file ino) (file_of_set stored rfl rfl rfl) held
  | removeXattr target name now =>
      obtain ⟨inode, stored, rfl⟩ := removeXattr_ok applied
      exact Eq.trans (b := idx.file ino) (file_of_set stored rfl rfl rfl) held
  | touchAtime target now =>
      cases applied
      rcases touchAtime_cases idx target now with ⟨-, same⟩ | ⟨inode, stored, same⟩ <;> rw [same]
      · exact held
      · exact Eq.trans (b := idx.file ino) (file_of_set stored rfl rfl rfl) held

/-! ### Runs with an open handle -/

/-- The inode of a handle that a step hands out: `Open` has found it, or `Create`
has named it. -/
def Call.handsOut : Call → Answer → Option Ino
  | .openFile ino, .inode (some _) => some ino
  | .makeEntry .regular _ _ ino _, .done => some ino
  | _, _ => none

/-- A handle has just been handed out, for the file that the record starts with.
Any calls may be in flight. -/
def HandedOut (ino : Ino) (pool : Pool Daemon Call OpenFile) : Prop :=
  ∃ (d : Daemon) (c : Call) (o : Oracle) (a : Answer), d.idx.Numbered ∧
    d.apply c.effect o = some (pool.shared, a) ∧ c.handsOut a = some ino ∧
    pool.shared.idx.file ino = some pool.record

variable {cfg : Config} {d d' : Daemon} {c : Call} {o : Oracle} {a : Answer} {ino : Ino}
  {file : OpenFile}

theorem Daemon.numbered_apply (numbered : d.idx.Numbered) {e : Effect}
    (applied : d.apply e o = some (d', a)) : d'.idx.Numbered := by
  rcases Daemon.apply_idx applied with same | ⟨m, -, done, -⟩ | ⟨-, same⟩ | ⟨-, same⟩
  · rw [same]
    exact numbered
  · exact (Mutation.keepsShape done).numbered numbered
  · rw [same]
    exact numbered
  · rw [same]
    exact numbered

/-- One step of any call. -/
theorem OpenFile.note_held (numbered : d.idx.Numbered) (held : d.idx.file ino = some file)
    (applied : d.apply c.effect o = some (d', a))
    (spared : ¬ c.TakesLast d.idx ino) : d'.idx.file ino = some (file.note ino c a) := by
  by_cases mutates : ∃ m, c.effect = .mutate m
  · obtain ⟨m, asks⟩ := mutates
    simp only [Call.TakesLast, asks] at spared
    rw [asks] at applied
    simp only [Daemon.apply, Daemon.mutate, Option.some.injEq] at applied
    unfold OpenFile.note
    rw [asks]
    split at applied
    next idx done =>
      cases applied
      have after := Mutation.file done numbered held spared
      cases m <;> exact after
    next =>
      cases applied
      exact held
    next =>
      cases applied
      exact held
  · have same : d'.idx.file ino = d.idx.file ino := by
      rcases Daemon.apply_idx applied with same | ⟨m, asks, -⟩ | ⟨-, same⟩ | ⟨-, same⟩
      · rw [same]
      · exact absurd ⟨m, asks⟩ mutates
      · rw [same]
        rfl
      · rw [same]
        rfl
    rw [same, held]
    unfold OpenFile.note
    split
    next asks => exact absurd ⟨_, asks⟩ mutates
    next => rfl

/-- The inode that a step of `Read` or `Write` asks the index about. -/
def Call.handle : Call → Option Ino
  | .read ino _ _ _ | .readExtents ino _ _ _ | .readTouch ino _ _ | .write ino _ _ _
  | .writeRecord ino _ _ _ => some ino
  | _ => none

/-- The answers that the file gives. -/
def OpenFile.Answers (file : OpenFile) : Call → Answer → Prop
  | .read _ _ _ _, a | .write _ _ _ _, a => ∃ inode, a = .inode (some inode) ∧
      inode.size = file.size
  | .readExtents _ _ _ _, a => a = .extents file.extents
  | .readTouch _ _ _, a => a = .done
  | .writeRecord _ _ _ _, a =>
      if file.fileType = .regular then a = .done else ∃ failure, a = .indexError failure
  | _, _ => True

/-- A handle's steps get their answers from its file. -/
theorem OpenFile.answers (held : d.idx.file ino = some file) (through : c.handle = some ino)
    (applied : d.apply c.effect o = some (d', a)) : file.Answers c a := by
  obtain ⟨inode, stored, fileType, size, extents⟩ := file_eq_some.mp held
  cases c <;> cases through
  case read =>
    cases applied
    exact ⟨inode, congrArg _ stored, size⟩
  case readExtents =>
    cases applied
    exact congrArg _ extents
  case readTouch =>
    cases applied
    rfl
  case write =>
    cases applied
    exact ⟨inode, congrArg _ stored, size⟩
  case writeRecord data ext now =>
    simp only [Call.effect, Daemon.apply, Daemon.mutate, Mutation.apply, Index.writeExtent, stored,
      fileType] at applied
    simp only [OpenFile.Answers]
    by_cases regular : file.fileType = .regular
    · rw [if_pos regular]
      rw [if_neg (not_not.mpr regular)] at applied
      cases applied
      rfl
    · rw [if_neg regular]
      rw [if_pos regular] at applied
      cases applied
      exact ⟨_, rfl⟩

/-- From the moment a handle is handed out, in every run in which no `Unlink`,
`Rmdir` or replacing `Rename` takes the last link of its file, the index holds
the file as writes and attribute changes have made it, and every step of `Read`
and `Write` through the handle is answered from it. -/
theorem open_file_outlives_names {pool : Pool Daemon Call OpenFile}
    (reached : Reachable (daemonSys cfg) (OpenFile.note ino) (HandedOut ino) (sparesLastLink ino)
      pool) :
    pool.shared.idx.file ino = some pool.record ∧
      ∀ c o d' a, Call.handle c = some ino → pool.shared.apply c.effect o = some (d', a) →
        pool.record.Answers c a := by
  have held : (pool.shared.idx.Numbered ∧ pool.shared.idx.file ino = some pool.record) ∧
      ∀ c ∈ pool.threads, True := by
    refine Reachable.local_invariant
      (fun d file => d.idx.Numbered ∧ d.idx.file ino = some file) (fun _ _ _ => True) ?_
      (fun _ _ _ _ => trivial) ?_ reached
    · rintro pool ⟨d, c, o, a, numbered, applied, -, held⟩
      exact ⟨⟨Daemon.numbered_apply numbered applied, held⟩, fun _ _ => trivial⟩
    · rintro d file before c after o d' a ⟨numbered, held⟩ - spared applied
      refine ⟨⟨Daemon.numbered_apply numbered applied, ?_⟩, fun _ _ => trivial, fun _ _ => trivial⟩
      exact OpenFile.note_held numbered held applied (spared c (getElem?_moving before c after))
  exact ⟨held.1.2, fun c o d' a through applied => OpenFile.answers held.1.2 through applied⟩

/-! ### A file with two names, and one with one -/

/-- A fresh daemon in which `Create` has made inode 2 and not named it yet. -/
def beforeNaming : Daemon :=
  { freshDaemon 8 512 0 false with
    idx := ((Index.new 512 0).createInode .regular 420 0 0 0 1).2 }

/-- The pool once it is named `a` and its handle is on the way. -/
def justCreated : Pool Daemon Call OpenFile :=
  ⟨(beforeNaming.mutate (.addDirEntry rootIno [97] 2 1)).1, [], ⟨.regular, 0, some []⟩⟩

theorem justCreated_handedOut : HandedOut 2 justCreated := by
  refine ⟨beforeNaming, .makeEntry .regular rootIno [97] 2 1, {}, .done, ?_, ?_, rfl, ?_⟩
  · exact (createInode_keeps (Index.new 512 0) .regular 420 0 0 0 1).numbered
      (Index.new_restorable 512 0).numbered
  · exact congrArg some (Prod.ext rfl rfl)
  · decide +kernel

/-- Two bytes are written, the file gets a second name and loses the first. -/
def renamedWhileOpen : List (Event Call Oracle) :=
  Call.alone (.write 2 [5, 6] 0 2) 4 ++ Call.alone (.link rootIno 2 [98] 3) 3 ++
    Call.alone (.unlink rootIno [97] 4) 1

/-- The handle still has its two bytes. -/
theorem open_file_outlives_names_second_link :
    ∃ pool, Reachable (daemonSys sampleConfig) (OpenFile.note 2) (HandedOut 2) (sparesLastLink 2)
        pool ∧ pool.record.size = 2 ∧ pool.shared.idx.file 2 = some pool.record := by
  have plays : ((daemonSys sampleConfig).run (OpenFile.note 2) (sparesLastLink 2) justCreated
      renamedWhileOpen).map (fun pool => pool.record.size) = some 2 := by decide +kernel
  obtain ⟨pool, ran, size⟩ := Option.map_eq_some_iff.mp plays
  have reached : Reachable (daemonSys sampleConfig) (OpenFile.note 2) (HandedOut 2)
      (sparesLastLink 2) pool := .of_run (.start justCreated_handedOut) ran
  exact ⟨pool, reached, size, (open_file_outlives_names reached).1⟩

/-- `a` is unlinked while its handle is open: the file is gone, and a read
through the handle returns `ENOENT`. -/
theorem unlink_takes_open_file :
    ∃ pool, Reachable (daemonSys sampleConfig) (OpenFile.note 2) (HandedOut 2) requestsOnly pool ∧
      pool.shared.idx.file 2 = none ∧
      Completes (daemonSys sampleConfig) pool.shared (.read 2 1 0 3) pool.shared
        (.errno .enoent) := by
  have plays : ((daemonSys sampleConfig).run (OpenFile.note 2) requestsOnly justCreated
      (Call.alone (.unlink rootIno [97] 2) 1)).map (fun pool => pool.shared.idx.inodes.get 2) =
      some none := by decide +kernel
  obtain ⟨pool, ran, gone⟩ := Option.map_eq_some_iff.mp plays
  refine ⟨pool, .of_run (.start justCreated_handedOut) ran, ?_, ?_⟩
  · unfold Index.file
    rw [gone]
    rfl
  · refine .last (o := {}) (a := .inode none) ?_ rfl
    exact congrArg (fun found => some (pool.shared, Answer.inode found)) gone

end Fusey
