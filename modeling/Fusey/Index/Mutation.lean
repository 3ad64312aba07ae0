import Fusey.Index.Persist

/-!
Contract: what a successful index method did (`internal/index/index.go`).

Owns:
- one inversion lemma for each fallible method: the values it read and the index
  it left;
- the mutators as data, so that a statement can quantify over them;
- what every mutator does to the dirty flags, to the directory maps and to the
  extent lists.
-/

set_option autoImplicit false

namespace Fusey

open GoInt

namespace Index

variable {idx idx' : Index}

/-! ### Inversion -/

theorem entry_eq_some {parent child : Ino} {name : Name} :
    idx.entry parent name = some child ↔
      ∃ children, idx.dirIndex.get parent = some children ∧ children.get name = some child :=
  Option.bind_eq_some_iff

theorem addDirEntry_ok {parentIno childIno : Ino} {name : Name} {now : Int}
    (applied : idx.addDirEntry parentIno name childIno now = .ok idx') :
    ∃ parent child children, idx.inodes.get parentIno = some parent ∧
      parent.fileType = .directory ∧ idx.inodes.get childIno = some child ∧
      idx.dirIndex.get parentIno = some children ∧ children.get name = none ∧
      idx' = touched
        { idx with
          dirIndex := idx.dirIndex.set parentIno (children.set name childIno)
          inodes := (idx.inodes.modify childIno (gainLink now)).modify parentIno
            (stampParent now) } := by
  unfold addDirEntry at applied
  split at applied
  next => cases applied
  next parent found =>
    split_ifs at applied with isDirectory
    split at applied
    next => cases applied
    next child known =>
      split at applied
      next => cases applied
      next free =>
        split at applied
        next => cases applied
        next children stored =>
          cases applied
          refine ⟨parent, child, children, found, not_not.mp isDirectory, known, stored, ?_, rfl⟩
          simpa [entry, stored] using free

theorem removeDirEntry_ok {parentIno : Ino} {name : Name} {now : Int}
    (applied : idx.removeDirEntry parentIno name now = .ok idx') :
    ∃ parent childIno child unlinked, idx.inodes.get parentIno = some parent ∧
      idx.entry parentIno name = some childIno ∧ idx.inodes.get childIno = some child ∧
      ¬ (child.fileType = .directory ∧ idx.hasChildren childIno = true) ∧
      unlinked = (idx.deleteEntry parentIno name).unlinkChild childIno child
        (fun inode => { inode with ctime := now }) ∧
      idx' = touched
        { unlinked with inodes := unlinked.inodes.modify parentIno (stampParent now) } := by
  unfold removeDirEntry at applied
  split at applied
  next => cases applied
  next parent found =>
    split at applied
    next => cases applied
    next childIno named =>
      split at applied
      next => cases applied
      next child known =>
        split_ifs at applied with full
        exact ⟨parent, childIno, child, _, found, named, known, full, rfl,
          (Except.ok.inj applied).symm⟩

theorem replaceDestination_ok {dstParent : Ino} {dstName : Name}
    (applied : idx.replaceDestination dstParent dstName = .ok idx') :
    (idx.entry dstParent dstName = none ∧ idx' = idx) ∨
      ∃ dstChildIno dstChild, idx.entry dstParent dstName = some dstChildIno ∧
        idx.inodes.get dstChildIno = some dstChild ∧
        ¬ (dstChild.fileType = .directory ∧ idx.hasChildren dstChildIno = true) ∧
        idx' = idx.unlinkChild dstChildIno dstChild id := by
  unfold replaceDestination at applied
  split at applied
  next absent =>
    cases applied
    exact Or.inl ⟨absent, rfl⟩
  next dstChildIno named =>
    split at applied
    next => cases applied
    next dstChild known =>
      split_ifs at applied with full
      exact Or.inr ⟨dstChildIno, dstChild, named, known, full, (Except.ok.inj applied).symm⟩

theorem moveEntry_ok {srcParent dstParent srcChildIno : Ino} {srcName dstName : Name} {now : Int}
    (applied : idx.moveEntry srcParent srcName dstParent dstName srcChildIno now = .ok idx') :
    ∃ children stamped, (idx.deleteEntry srcParent srcName).dirIndex.get dstParent = some children ∧
      stamped = (idx.inodes.modify srcChildIno fun inode => { inode with ctime := now }).modify
        srcParent (stampParent now) ∧
      idx' = touched
        { idx with
          dirIndex := (idx.deleteEntry srcParent srcName).dirIndex.set dstParent
            (children.set dstName srcChildIno)
          inodes := if dstParent ≠ srcParent then stamped.modify dstParent (stampParent now)
            else stamped } := by
  unfold moveEntry at applied
  dsimp only at applied
  split at applied
  next => cases applied
  next children stored =>
    cases applied
    exact ⟨children, _, stored, rfl, rfl⟩

theorem rename_ok {srcParent dstParent : Ino} {srcName dstName : Name} {now : Int}
    (applied : idx.rename srcParent srcName dstParent dstName now = .ok idx') :
    ∃ srcChildIno srcChild replaced, idx.entry srcParent srcName = some srcChildIno ∧
      idx.inodes.get srcChildIno = some srcChild ∧
      idx.replaceDestination dstParent dstName = .ok replaced ∧
      replaced.moveEntry srcParent srcName dstParent dstName srcChildIno now = .ok idx' := by
  unfold rename at applied
  split at applied
  next => cases applied
  next srcChildIno named =>
    split at applied
    next => cases applied
    next replaced given =>
      split at applied
      next => cases applied
      next srcChild known => exact ⟨srcChildIno, srcChild, replaced, named, known, given, applied⟩

theorem setAttr_ok {ino : Ino} {change : AttrChange} {now : Int}
    (applied : idx.setAttr ino change now = .ok idx') :
    ∃ inode, idx.inodes.get ino = some inode ∧
      idx' = touched
        { idx with
          inodes := idx.inodes.set ino (change.apply now inode)
          extents :=
            match change.size with
            | none => idx.extents
            | some newSize =>
                if newSize ≠ inode.size ∧ inode.fileType = .regular then
                  idx.extents.set ino (trimExtents newSize ((idx.extents.get ino).getD []))
                else idx.extents } := by
  unfold setAttr at applied
  split at applied
  next => cases applied
  next inode known =>
    cases applied
    exact ⟨inode, known, rfl⟩

theorem writeExtent_ok {ino : Ino} {ext : Extent} {now : Int}
    (applied : idx.writeExtent ino ext now = .ok idx') :
    ∃ inode, idx.inodes.get ino = some inode ∧ inode.fileType = .regular ∧
      idx' = touched
        { idx with
          extents := idx.extents.set ino (writeExtents ((idx.extents.get ino).getD []) ext)
          inodes := idx.inodes.set ino (recordWrite ext now inode) } := by
  unfold writeExtent at applied
  split at applied
  next => cases applied
  next inode known =>
    split_ifs at applied with regular
    cases applied
    exact ⟨inode, known, not_not.mp regular, rfl⟩

theorem setSymlink_ok {ino : Ino} {target : Name} {now : Int}
    (applied : idx.setSymlink ino target now = .ok idx') :
    ∃ inode, idx.inodes.get ino = some inode ∧ inode.fileType = .symlink ∧
      idx' = touched
        { idx with
          symlinks := idx.symlinks.set ino target
          inodes := idx.inodes.set ino { inode with size := target.length, ctime := now } } := by
  unfold setSymlink at applied
  split at applied
  next => cases applied
  next inode known =>
    split_ifs at applied with symlink
    cases applied
    exact ⟨inode, known, not_not.mp symlink, rfl⟩

theorem setXattr_ok {ino : Ino} {name value : Name} {now : Int}
    (applied : idx.setXattr ino name value now = .ok idx') :
    ∃ inode, idx.inodes.get ino = some inode ∧
      idx' = touched
        { idx with
          xattrs := idx.xattrs.set ino (((idx.xattrs.get ino).getD ∅).set name value)
          inodes := idx.inodes.set ino { inode with ctime := now } } := by
  unfold setXattr at applied
  split at applied
  next => cases applied
  next inode known =>
    cases applied
    exact ⟨inode, known, rfl⟩

theorem removeXattr_ok {ino : Ino} {name : Name} {now : Int}
    (applied : idx.removeXattr ino name now = .ok idx') :
    ∃ inode, idx.inodes.get ino = some inode ∧
      idx' = touched
        { idx with
          xattrs := idx.xattrs.modify ino fun attrs => attrs.delete name
          inodes := idx.inodes.set ino { inode with ctime := now } } := by
  unfold removeXattr at applied
  split at applied
  next => cases applied
  next inode known =>
    split at applied
    next => cases applied
    next =>
      cases applied
      exact ⟨inode, known, rfl⟩

/-- What `RemoveXattr` removes was there. -/
theorem removeXattr_present {ino : Ino} {name : Name} {now : Int}
    (applied : idx.removeXattr ino name now = .ok idx') :
    (idx.getXattrs ino).get name ≠ none := by
  unfold removeXattr at applied
  split at applied
  next => cases applied
  next =>
    split at applied
    next => cases applied
    next value stored => exact fun missing => by cases missing.symm.trans stored

theorem touchAtime_cases (idx : Index) (ino : Ino) (now : Int) :
    (idx.inodes.get ino = none ∧ idx.touchAtime ino now = idx) ∨
      ∃ inode, idx.inodes.get ino = some inode ∧
        idx.touchAtime ino now =
          { idx with inodes := idx.inodes.set ino { inode with atime := now }, dirty := true } := by
  unfold touchAtime
  split
  next missing => exact Or.inl ⟨missing, rfl⟩
  next inode known => exact Or.inr ⟨inode, known, rfl⟩

end Index

/-! ### The mutators as data -/

/-- A call of an index mutator. -/
inductive Mutation where
  | createInode (fileType : FileType) (mode uid gid rdev : UInt32) (now : Int)
  | addDirEntry (parent : Ino) (name : Name) (child : Ino) (now : Int)
  | removeDirEntry (parent : Ino) (name : Name) (now : Int)
  | rename (srcParent : Ino) (srcName : Name) (dstParent : Ino) (dstName : Name) (now : Int)
  | setAttr (ino : Ino) (change : Index.AttrChange) (now : Int)
  | writeExtent (ino : Ino) (ext : Extent) (now : Int)
  | setSymlink (ino : Ino) (target : Name) (now : Int)
  | setXattr (ino : Ino) (name value : Name) (now : Int)
  | removeXattr (ino : Ino) (name : Name) (now : Int)
  | touchAtime (ino : Ino) (now : Int)
deriving DecidableEq, Repr

/-- Run a mutator. `CreateInode` also returns the old `nextIno`. -/
def Mutation.apply (idx : Index) : Mutation → Outcome Index
  | .createInode fileType mode uid gid rdev now =>
      .ok (idx.createInode fileType mode uid gid rdev now).2
  | .addDirEntry parent name child now => idx.addDirEntry parent name child now
  | .removeDirEntry parent name now => idx.removeDirEntry parent name now
  | .rename srcParent srcName dstParent dstName now =>
      idx.rename srcParent srcName dstParent dstName now
  | .setAttr ino change now => idx.setAttr ino change now
  | .writeExtent ino ext now => idx.writeExtent ino ext now
  | .setSymlink ino target now => idx.setSymlink ino target now
  | .setXattr ino name value now => idx.setXattr ino name value now
  | .removeXattr ino name now => idx.removeXattr ino name now
  | .touchAtime ino now => .ok (idx.touchAtime ino now)

/-- The inode without its links and the time of their last change, and without its
modification time if that is `stamped`. -/
def Inode.sansLinks (stamped : Bool) (inode : Inode) : Inode :=
  { inode with nlink := 0, ctime := 0, mtime := if stamped then 0 else inode.mtime }

namespace Index

variable {idx idx' : Index}

/-- The index without access times and flags: what the remote copy is compared
by. -/
def sansAtimes (idx : Index) : Index :=
  { idx with
    inodes := idx.inodes.map fun inode => { inode with atime := 0 }
    dirty := false
    remoteDirty := false }

theorem sansAtimes_cleaned (idx : Index) : idx.cleaned.sansAtimes = idx.sansAtimes := rfl

theorem sansAtimes_touchAtime (idx : Index) (ino : Ino) (now : Int) :
    (idx.touchAtime ino now).sansAtimes = idx.sansAtimes := by
  rcases touchAtime_cases idx ino now with ⟨-, same⟩ | ⟨inode, known, same⟩
  · rw [same]
  · have inodes : (idx.inodes.set ino { inode with atime := now }).map
        (fun inode => { inode with atime := 0 }) =
          idx.inodes.map fun inode => { inode with atime := 0 } := by
      apply GoMap.ext
      intro other
      rw [GoMap.get_map, GoMap.get_map, GoMap.get_set]
      split_ifs with isRead
      · rw [isRead, known]
        rfl
      · rfl
    rw [same]
    simp only [sansAtimes, inodes]

/-! ### Unlinking -/

theorem unlinkChild_cases (idx : Index) (childIno : Ino) (child : Inode) (stamp : Inode → Inode) :
    (loseLink child.nlink ≤ freeThreshold child ∧
        idx.unlinkChild childIno child stamp = idx.free childIno) ∨
      (freeThreshold child < loseLink child.nlink ∧
        idx.unlinkChild childIno child stamp =
          { idx with
            inodes := idx.inodes.modify childIno fun inode =>
              stamp { inode with nlink := loseLink inode.nlink } }) := by
  unfold unlinkChild
  split_ifs with freed
  · exact Or.inl ⟨freed, rfl⟩
  · exact Or.inr ⟨Nat.lt_of_not_le freed, rfl⟩

/-! ### What the mutators keep -/

/-- The type of an inode. -/
def typeOf (idx : Index) (ino : Ino) : Option FileType := (idx.inodes.get ino).map Inode.fileType

theorem typeOf_eq_some {ino : Ino} {fileType : FileType} :
    idx.typeOf ino = some fileType ↔
      ∃ inode, idx.inodes.get ino = some inode ∧ inode.fileType = fileType :=
  Option.map_eq_some_iff

/-- Updating an inode in place keeps the types. -/
theorem typeOf_modify (inodes : GoMap Ino Inode) (ino : Ino) {f : Inode → Inode}
    (keepsType : ∀ inode, (f inode).fileType = inode.fileType) (other : Ino) :
    ((inodes.modify ino f).get other).map Inode.fileType =
      (inodes.get other).map Inode.fileType :=
  GoMap.map_get_modify inodes ino fun _ => keepsType

theorem typeOf_set {inodes : GoMap Ino Inode} {ino : Ino} {old new : Inode}
    (stored : inodes.get ino = some old) (sameType : new.fileType = old.fileType) (other : Ino) :
    ((inodes.set ino new).get other).map Inode.fileType =
      (inodes.get other).map Inode.fileType :=
  GoMap.map_get_set stored sameType other

theorem stampParent_fileType (now : Int) (inode : Inode) :
    (stampParent now inode).fileType = inode.fileType := rfl

/-! ### Links -/

/-- A directory map updated in place stays where it is. -/
theorem exists_get_modify {K V : Type} [DecidableEq K] {m : GoMap K V} (k : K) (f : V → V)
    (other : K) : (∃ v, (m.modify k f).get other = some v) ↔ ∃ v, m.get other = some v := by
  rw [GoMap.get_modify]
  split_ifs with isIt
  · subst isIt
    simp
  · rfl

theorem exists_get_set {K V : Type} [DecidableEq K] {m : GoMap K V} {k : K} {old : V}
    (stored : m.get k = some old) (new : V) (other : K) :
    (∃ v, (m.set k new).get other = some v) ↔ ∃ v, m.get other = some v := by
  rw [GoMap.get_set]
  split_ifs with isIt
  · simp [isIt, stored]
  · rfl

/-- Everything under a number is as it was but for links and times; the
modification time too, unless it is `stamped`. -/
structure KeepsNumber (stamped : Bool) (idx idx' : Index) (i : Ino) : Prop where
  inode : (idx'.inodes.get i).map (Inode.sansLinks stamped) =
    (idx.inodes.get i).map (Inode.sansLinks stamped)
  dir : (∃ children, idx'.dirIndex.get i = some children) ↔
    ∃ children, idx.dirIndex.get i = some children
  extents : idx'.extents.get i = idx.extents.get i
  symlink : idx'.symlinks.get i = idx.symlinks.get i
  xattrs : idx'.xattrs.get i = idx.xattrs.get i

/-- Nothing is kept under the number. -/
structure Lacks (idx : Index) (i : Ino) : Prop where
  inode : idx.inodes.get i = none
  dir : idx.dirIndex.get i = none
  extents : idx.extents.get i = none
  symlink : idx.symlinks.get i = none
  xattrs : idx.xattrs.get i = none

section Links

variable {stamped : Bool} {i : Ino}

theorem KeepsNumber.trans {idx'' : Index} (first : KeepsNumber stamped idx idx' i)
    (second : KeepsNumber stamped idx' idx'' i) : KeepsNumber stamped idx idx'' i where
  inode := second.inode.trans first.inode
  dir := second.dir.trans first.dir
  extents := second.extents.trans first.extents
  symlink := second.symlink.trans first.symlink
  xattrs := second.xattrs.trans first.xattrs

theorem KeepsNumber.exists_inode (keeps : KeepsNumber stamped idx idx' i) {inode' : Inode}
    (stored : idx'.inodes.get i = some inode') :
    ∃ inode, idx.inodes.get i = some inode ∧
      inode.sansLinks stamped = inode'.sansLinks stamped := by
  have same := keeps.inode
  rw [stored, Option.map_some] at same
  exact Option.map_eq_some_iff.mp same.symm

theorem KeepsNumber.typeOf (keeps : KeepsNumber stamped idx idx' i) :
    idx'.typeOf i = idx.typeOf i := by
  have same := congrArg (Option.map Inode.fileType) keeps.inode
  rw [Option.map_map, Option.map_map] at same
  exact same

theorem Lacks.of_keeps (lacks : idx.Lacks i) (keeps : KeepsNumber stamped idx idx' i) :
    idx'.Lacks i where
  inode := by
    have same := keeps.inode
    rw [lacks.inode] at same
    exact Option.map_eq_none_iff.mp same
  dir := by
    rw [Option.eq_none_iff_forall_ne_some]
    intro children found
    obtain ⟨_, before⟩ := keeps.dir.mp ⟨children, found⟩
    cases lacks.dir.symm.trans before
  extents := keeps.extents.trans lacks.extents
  symlink := keeps.symlink.trans lacks.symlink
  xattrs := keeps.xattrs.trans lacks.xattrs

/-- Taking a link keeps every number but that of an inode that it frees. -/
theorem unlinkChild_keepsNumber (idx : Index) {child : Ino} {inode : Inode}
    {stamp : Inode → Inode} (stamps : ∀ inode, (stamp inode).sansLinks stamped =
      inode.sansLinks stamped)
    (spared : i = child → ¬ loseLink inode.nlink ≤ freeThreshold inode) :
    KeepsNumber stamped idx (idx.unlinkChild child inode stamp) i := by
  rcases unlinkChild_cases idx child inode stamp with ⟨freed, same⟩ | ⟨-, same⟩ <;> rw [same]
  · have apart : i ≠ child := fun isIt => spared isIt freed
    simp only [free]
    exact ⟨by rw [GoMap.get_delete_ne _ apart], by rw [GoMap.get_delete_ne _ apart],
      GoMap.get_delete_ne _ apart, GoMap.get_delete_ne _ apart, GoMap.get_delete_ne _ apart⟩
  · exact ⟨GoMap.map_get_modify _ _ fun _ _ => stamps _, Iff.rfl, rfl, rfl, rfl⟩

theorem unlinkChild_lacks (idx : Index) (child : Ino) {inode : Inode} (stamp : Inode → Inode)
    (freed : loseLink inode.nlink ≤ freeThreshold inode) :
    (idx.unlinkChild child inode stamp).Lacks child := by
  unfold unlinkChild
  rw [if_pos freed]
  exact ⟨GoMap.get_delete_self _ _, GoMap.get_delete_self _ _, GoMap.get_delete_self _ _,
    GoMap.get_delete_self _ _, GoMap.get_delete_self _ _⟩

theorem unlinkChild_counters (idx : Index) (child : Ino) (inode : Inode) (stamp : Inode → Inode) :
    (idx.unlinkChild child inode stamp).nextIno = idx.nextIno ∧
      (idx.unlinkChild child inode stamp).blockSize = idx.blockSize := by
  rcases unlinkChild_cases idx child inode stamp with ⟨-, same⟩ | ⟨-, same⟩ <;> rw [same] <;>
    exact ⟨rfl, rfl⟩

end Links

end Index

/-- The mutator sets the times of the directory `ino`. -/
def Mutation.Stamps (ino : Ino) : Mutation → Prop
  | .addDirEntry parent _ _ _ | .removeDirEntry parent _ _ => parent = ino
  | .rename srcParent _ dstParent _ _ => srcParent = ino ∨ dstParent = ino
  | _ => False

instance (ino : Ino) (m : Mutation) : Decidable (m.Stamps ino) := by
  induction m using Mutation.casesOn <;> dsimp only [Mutation.Stamps] <;> infer_instance

/-- The inode that a mutator takes a link from. -/
def Mutation.removes (idx : Index) : Mutation → Option Ino
  | .removeDirEntry parent name _ => idx.entry parent name
  | .rename srcParent srcName dstParent dstName _ =>
      (idx.entry srcParent srcName).bind fun _ => idx.entry dstParent dstName
  | _ => none

/-- One link less frees the inode. -/
def Index.LastLink (idx : Index) (ino : Ino) : Prop :=
  ∃ inode ∈ idx.inodes.get ino, loseLink inode.nlink ≤ freeThreshold inode

instance (idx : Index) (ino : Ino) : Decidable (idx.LastLink ino) := by
  unfold Index.LastLink
  infer_instance

/-- A mutator that takes the last link of `ino`. -/
def Mutation.TakesLast (idx : Index) (ino : Ino) (m : Mutation) : Prop :=
  m.removes idx = some ino ∧ idx.LastLink ino

instance (idx : Index) (ino : Ino) (m : Mutation) : Decidable (m.TakesLast idx ino) := by
  unfold Mutation.TakesLast
  infer_instance

/-- The mutators that give and take links. -/
def Mutation.isRelink : Mutation → Bool
  | .addDirEntry .. | .removeDirEntry .. | .rename .. => true
  | _ => false

/-- What such a mutator leaves: it frees the inode whose last link it takes, and
keeps every other number. -/
structure Mutation.Relinks (m : Mutation) (idx idx' : Index) : Prop where
  keeps : ∀ {i}, ¬ m.TakesLast idx i → idx.KeepsNumber (decide (m.Stamps i)) idx' i
  frees : ∀ {i}, m.TakesLast idx i → idx'.Lacks i
  nextIno : idx'.nextIno = idx.nextIno
  blockSize : idx'.blockSize = idx.blockSize

open Index in
/-- A directory that a mutator stamps. -/
theorem Mutation.Stamps.sansLinks {m : Mutation} {ino i : Ino} (stamps : m.Stamps ino) (now : Int)
    (isIt : i = ino) (inode : Inode) :
    (stampParent now inode).sansLinks (decide (m.Stamps i)) =
      inode.sansLinks (decide (m.Stamps i)) := by
  rw [isIt, decide_eq_true stamps]
  rfl

open Index in
theorem Mutation.relinks_addDirEntry {parent child : Ino} {name : Name} {now : Int}
    {idx idx' : Index} (applied : idx.addDirEntry parent name child now = .ok idx') :
    (Mutation.addDirEntry parent name child now).Relinks idx idx' := by
  have stamped : (Mutation.addDirEntry parent name child now).Stamps parent := rfl
  obtain ⟨_, _, _, -, -, -, stored, -, rfl⟩ := addDirEntry_ok applied
  refine ⟨fun {i} _ => ⟨?_, exists_get_set stored _ i, rfl, rfl, rfl⟩, fun takes => ?_, rfl, rfl⟩
  · exact (GoMap.map_get_modify _ _ (stamped.sansLinks now)).trans
      (GoMap.map_get_modify _ _ fun _ _ => rfl)
  · cases takes.1

open Index in
theorem Mutation.relinks_removeDirEntry {parent : Ino} {name : Name} {now : Int} {idx idx' : Index}
    (applied : idx.removeDirEntry parent name now = .ok idx') :
    (Mutation.removeDirEntry parent name now).Relinks idx idx' := by
  generalize asked : Mutation.removeDirEntry parent name now = m
  have stamped : m.Stamps parent := by
    rw [← asked]
    rfl
  have removed : m.removes idx = idx.entry parent name := by rw [← asked, Mutation.removes]
  obtain ⟨_, child, inode, unlinked, -, named, known, -, isUnlinked, result⟩ :=
    removeDirEntry_ok applied
  have last : ∀ i, KeepsNumber (decide (m.Stamps i)) unlinked idx' i := by
    intro i
    rw [result]
    exact ⟨GoMap.map_get_modify _ _ (stamped.sansLinks now), Iff.rfl, rfl, rfl, rfl⟩
  obtain ⟨nextIno, blockSize⟩ := unlinkChild_counters (idx.deleteEntry parent name) child inode
    fun inode => { inode with ctime := now }
  rw [← isUnlinked] at nextIno blockSize
  refine ⟨fun {i} spared => KeepsNumber.trans ?_ (last i), fun {i} takes => ?_,
    by rw [result]; exact nextIno, by rw [result]; exact blockSize⟩
  · have first : KeepsNumber (decide (m.Stamps i)) idx (idx.deleteEntry parent name) i :=
      ⟨rfl, exists_get_modify _ _ i, rfl, rfl, rfl⟩
    rw [isUnlinked]
    refine first.trans (unlinkChild_keepsNumber _ (fun _ => rfl) fun isIt freed => ?_)
    exact spared ⟨isIt ▸ removed.trans named, inode, isIt ▸ known, freed⟩
  · obtain ⟨takes, _, found, freed⟩ := takes
    cases (takes.symm.trans removed).trans named
    cases known.symm.trans found
    refine Lacks.of_keeps ?_ (last child)
    rw [isUnlinked]
    exact unlinkChild_lacks _ child _ freed

open Index in
theorem Mutation.relinks_rename {srcParent dstParent : Ino} {srcName dstName : Name} {now : Int}
    {idx idx' : Index} (applied : idx.rename srcParent srcName dstParent dstName now = .ok idx') :
    (Mutation.rename srcParent srcName dstParent dstName now).Relinks idx idx' := by
  obtain ⟨child, _, replaced, named, -, given, moved⟩ := rename_ok applied
  generalize asked : Mutation.rename srcParent srcName dstParent dstName now = m
  have source : m.Stamps srcParent := by
    rw [← asked]
    exact Or.inl rfl
  have target : m.Stamps dstParent := by
    rw [← asked]
    exact Or.inr rfl
  have removed : m.removes idx = idx.entry dstParent dstName := by
    rw [← asked, Mutation.removes, named, Option.bind_some]
  obtain ⟨_, _, stored, isStamped, result⟩ := moveEntry_ok moved
  have last : ∀ i, KeepsNumber (decide (m.Stamps i)) replaced idx' i := by
    intro i
    rw [result]
    refine ⟨?_, (exists_get_set stored _ i).trans (exists_get_modify _ _ i), rfl, rfl, rfl⟩
    have stamped := (GoMap.map_get_modify _ _ (source.sansLinks now)).trans
      (GoMap.map_get_modify replaced.inodes child (f := fun inode => { inode with ctime := now })
        (g := Inode.sansLinks (decide (m.Stamps i))) fun _ _ => rfl)
    rw [← isStamped] at stamped
    simp only [touched]
    split_ifs
    · exact (GoMap.map_get_modify _ _ (target.sansLinks now)).trans stamped
    · exact stamped
  rcases replaceDestination_ok given with ⟨free, rfl⟩ | ⟨dst, inode, there, known, -, isReplaced⟩
  · refine ⟨fun {i} _ => last i, fun {i} takes => ?_, by rw [result]; rfl, by rw [result]; rfl⟩
    cases (takes.1.symm.trans removed).trans free
  · obtain ⟨nextIno, blockSize⟩ := unlinkChild_counters idx dst inode id
    rw [← isReplaced] at nextIno blockSize
    refine ⟨fun {i} spared => KeepsNumber.trans ?_ (last i), fun {i} takes => ?_,
      by rw [result]; exact nextIno, by rw [result]; exact blockSize⟩
    · rw [isReplaced]
      refine unlinkChild_keepsNumber _ (fun _ => rfl) fun isIt freed => ?_
      exact spared ⟨isIt ▸ removed.trans there, inode, isIt ▸ known, freed⟩
    · obtain ⟨takes, _, found, freed⟩ := takes
      cases (takes.symm.trans removed).trans there
      cases known.symm.trans found
      refine Lacks.of_keeps ?_ (last dst)
      rw [isReplaced]
      exact unlinkChild_lacks _ dst _ freed

/-- What the mutators that give and take links do to the numbers. -/
theorem Mutation.relinks {m : Mutation} {idx idx' : Index} (applied : m.apply idx = .ok idx')
    (isRelink : m.isRelink = true) : m.Relinks idx idx' := by
  cases m with
  | addDirEntry => exact relinks_addDirEntry applied
  | removeDirEntry => exact relinks_removeDirEntry applied
  | rename => exact relinks_rename applied
  | _ => cases isRelink

/-! ### Shape -/

namespace Index

variable {idx idx' : Index}

/-- What a mutator that neither creates nor frees an inode keeps. -/
structure SameShape (idx idx' : Index) : Prop where
  types : ∀ ino, idx'.typeOf ino = idx.typeOf ino
  dirs : ∀ ino, (∃ children, idx'.dirIndex.get ino = some children) ↔
    ∃ children, idx.dirIndex.get ino = some children
  nextIno : idx'.nextIno = idx.nextIno
  blockSize : idx'.blockSize = idx.blockSize

/-- What any mutator does to the shape: new numbers come from the counter, and
the directory maps stay with the directory inodes. -/
structure KeepsShape (idx idx' : Index) : Prop where
  dirs : idx.DirsMatch → (∀ ino inode, idx.inodes.get ino = some inode → ino < idx.nextIno) →
    idx'.DirsMatch
  numbered : (∀ ino inode, idx.inodes.get ino = some inode → ino < idx.nextIno) →
    ∀ ino inode, idx'.inodes.get ino = some inode → ino < idx'.nextIno
  blockSize : idx'.blockSize = idx.blockSize

theorem SameShape.keeps (same : SameShape idx idx') : KeepsShape idx idx' where
  dirs := by
    intro dirs _ ino
    rw [same.dirs ino, dirs ino, ← typeOf_eq_some, ← typeOf_eq_some, same.types]
  numbered := by
    intro numbered ino inode stored
    rw [same.nextIno]
    obtain ⟨old, found, -⟩ := typeOf_eq_some.mp
      ((same.types ino).symm.trans (typeOf_eq_some.mpr ⟨inode, stored, rfl⟩))
    exact numbered ino old found
  blockSize := same.blockSize

theorem createInode_keeps (idx : Index) (fileType : FileType) (mode uid gid rdev : UInt32)
    (now : Int) : KeepsShape idx (idx.createInode fileType mode uid gid rdev now).2 where
  dirs := by
    intro dirs numbered ino
    simp only [createInode, touched, GoMap.get_set]
    by_cases isNew : ino = idx.nextIno
    · have absent : idx.dirIndex.get ino = none := by
        cases found : idx.dirIndex.get ino with
        | none => rfl
        | some children =>
            obtain ⟨inode, stored, -⟩ := (dirs ino).mp ⟨children, found⟩
            exact absurd (isNew ▸ numbered ino inode stored) (Nat.lt_irrefl _)
      rw [isNew] at absent
      split_ifs with isDirectory <;> simp [isNew, isDirectory, absent]
    · split_ifs with isDirectory <;> simp [isNew, dirs ino, GoMap.get_set]
  numbered := by
    intro numbered ino inode stored
    simp only [createInode, touched, GoMap.get_set] at stored ⊢
    by_cases isNew : ino = idx.nextIno
    · rw [isNew]
      exact Nat.lt_succ_self _
    · rw [if_neg isNew] at stored
      exact Nat.lt_succ_of_lt (numbered ino inode stored)
  blockSize := rfl

end Index

open Index in
theorem Mutation.Relinks.keepsShape {m : Mutation} {idx idx' : Index}
    (relinks : m.Relinks idx idx') :
    KeepsShape idx idx' where
  dirs := by
    intro dirs _ ino
    by_cases takes : m.TakesLast idx ino
    · have gone := relinks.frees takes
      simp [gone.dir, gone.inode]
    · have same := relinks.keeps takes
      rw [same.dir, dirs ino, ← typeOf_eq_some, ← typeOf_eq_some, same.typeOf]
  numbered := by
    intro numbered ino inode stored
    rw [relinks.nextIno]
    by_cases takes : m.TakesLast idx ino
    · cases (relinks.frees takes).inode.symm.trans stored
    · obtain ⟨old, found, -⟩ := (relinks.keeps takes).exists_inode stored
      exact numbered ino old found
  blockSize := relinks.blockSize

open Index in
/-- Every mutator keeps the shape. -/
theorem Mutation.keepsShape {m : Mutation} {idx idx' : Index} (applied : m.apply idx = .ok idx') :
    KeepsShape idx idx' := by
  cases m with
  | createInode fileType mode uid gid rdev now =>
      cases applied
      exact createInode_keeps idx fileType mode uid gid rdev now
  | addDirEntry => exact (Mutation.relinks applied rfl).keepsShape
  | removeDirEntry => exact (Mutation.relinks applied rfl).keepsShape
  | rename => exact (Mutation.relinks applied rfl).keepsShape
  | setAttr ino change now =>
      obtain ⟨inode, stored, rfl⟩ := setAttr_ok applied
      refine SameShape.keeps ⟨typeOf_set stored ?_, fun _ => Iff.rfl, rfl, rfl⟩
      simp only [AttrChange.apply]
      split
      · rfl
      · split_ifs <;> rfl
  | writeExtent ino ext now =>
      obtain ⟨inode, stored, -, rfl⟩ := writeExtent_ok applied
      refine SameShape.keeps ⟨typeOf_set stored ?_, fun _ => Iff.rfl, rfl, rfl⟩
      simp only [recordWrite]
      split_ifs <;> rfl
  | setSymlink ino target now =>
      obtain ⟨inode, stored, -, rfl⟩ := setSymlink_ok applied
      exact SameShape.keeps ⟨typeOf_set stored rfl, fun _ => Iff.rfl, rfl, rfl⟩
  | setXattr ino name value now =>
      obtain ⟨inode, stored, rfl⟩ := setXattr_ok applied
      exact SameShape.keeps ⟨typeOf_set stored rfl, fun _ => Iff.rfl, rfl, rfl⟩
  | removeXattr ino name now =>
      obtain ⟨inode, stored, rfl⟩ := removeXattr_ok applied
      exact SameShape.keeps ⟨typeOf_set stored rfl, fun _ => Iff.rfl, rfl, rfl⟩
  | touchAtime ino now =>
      cases applied
      rcases touchAtime_cases idx ino now with ⟨-, same⟩ | ⟨inode, stored, same⟩ <;> rw [same]
      · exact SameShape.keeps ⟨fun _ => rfl, fun _ => Iff.rfl, rfl, rfl⟩
      · exact SameShape.keeps ⟨typeOf_set stored rfl, fun _ => Iff.rfl, rfl, rfl⟩

open Index in
/-- What a mutator does to the flags: it changes nothing, or raises both, or
raises the local one and changes access times only. -/
theorem Mutation.flags {m : Mutation} {idx idx' : Index} (applied : m.apply idx = .ok idx') :
    idx' = idx ∨ idx'.dirty = true ∧
      (idx'.remoteDirty = true ∨ idx'.remoteDirty = idx.remoteDirty ∧
        idx'.sansAtimes = idx.sansAtimes) := by
  cases m with
  | createInode fileType mode uid gid rdev now =>
      cases applied
      exact Or.inr ⟨rfl, Or.inl rfl⟩
  | addDirEntry parent name child now =>
      obtain ⟨_, _, _, _, _, _, _, _, rfl⟩ := addDirEntry_ok applied
      exact Or.inr ⟨rfl, Or.inl rfl⟩
  | removeDirEntry parent name now =>
      obtain ⟨_, _, _, _, _, _, _, _, _, rfl⟩ := removeDirEntry_ok applied
      exact Or.inr ⟨rfl, Or.inl rfl⟩
  | rename srcParent srcName dstParent dstName now =>
      obtain ⟨_, _, _, _, _, _, moved⟩ := rename_ok applied
      obtain ⟨_, _, _, _, rfl⟩ := moveEntry_ok moved
      exact Or.inr ⟨rfl, Or.inl rfl⟩
  | setAttr ino change now =>
      obtain ⟨_, _, rfl⟩ := setAttr_ok applied
      exact Or.inr ⟨rfl, Or.inl rfl⟩
  | writeExtent ino ext now =>
      obtain ⟨_, _, _, rfl⟩ := writeExtent_ok applied
      exact Or.inr ⟨rfl, Or.inl rfl⟩
  | setSymlink ino target now =>
      obtain ⟨_, _, _, rfl⟩ := setSymlink_ok applied
      exact Or.inr ⟨rfl, Or.inl rfl⟩
  | setXattr ino name value now =>
      obtain ⟨_, _, rfl⟩ := setXattr_ok applied
      exact Or.inr ⟨rfl, Or.inl rfl⟩
  | removeXattr ino name now =>
      obtain ⟨_, _, rfl⟩ := removeXattr_ok applied
      exact Or.inr ⟨rfl, Or.inl rfl⟩
  | touchAtime ino now =>
      cases applied
      have same := sansAtimes_touchAtime idx ino now
      rcases touchAtime_cases idx ino now with ⟨-, unchanged⟩ | ⟨inode, stored, changed⟩
      · exact Or.inl unchanged
      · exact Or.inr ⟨by rw [changed], Or.inr ⟨by rw [changed], same⟩⟩

open Index in
/-- What a mutator does to the extent list of one inode: it keeps it, creates
an empty one with a regular file, trims that of a regular file, or writes one
extent into it. -/
theorem Mutation.extents {m : Mutation} {idx idx' : Index} (applied : m.apply idx = .ok idx')
    {ino : Ino} {exts : List Extent} (stored : idx'.extents.get ino = some exts) :
    idx.extents.get ino = some exts ∨
      (exts = [] ∧ ino = idx.nextIno ∧
        ∃ mode uid gid rdev now, m = .createInode .regular mode uid gid rdev now) ∨
      (∃ change now size, m = .setAttr ino change now ∧ change.size = some size ∧
        idx.typeOf ino = some .regular ∧
        exts = trimExtents size ((idx.extents.get ino).getD [])) ∨
      ∃ ext now, m = .writeExtent ino ext now ∧
        exts = writeExtents ((idx.extents.get ino).getD []) ext := by
  have relinked : m.Relinks idx idx' → idx.extents.get ino = some exts := by
    intro relinks
    by_cases takes : m.TakesLast idx ino
    · cases (relinks.frees takes).extents.symm.trans stored
    · exact (relinks.keeps takes).extents.symm.trans stored
  cases m with
  | createInode fileType mode uid gid rdev now =>
      cases applied
      change (if fileType = .regular then idx.extents.set idx.nextIno [] else idx.extents).get ino =
        some exts at stored
      split_ifs at stored with regular
      · rw [GoMap.get_set] at stored
        split_ifs at stored with isNew
        · exact Or.inr (Or.inl
            ⟨(Option.some.inj stored).symm, isNew, mode, uid, gid, rdev, now, by rw [regular]⟩)
        · exact Or.inl stored
      · exact Or.inl stored
  | addDirEntry => exact Or.inl (relinked (Mutation.relinks applied rfl))
  | removeDirEntry => exact Or.inl (relinked (Mutation.relinks applied rfl))
  | rename => exact Or.inl (relinked (Mutation.relinks applied rfl))
  | setAttr target change now =>
      obtain ⟨inode, known, rfl⟩ := setAttr_ok applied
      simp only [touched] at stored
      cases size : change.size with
      | none =>
          rw [size] at stored
          exact Or.inl stored
      | some newSize =>
          simp only [size] at stored
          split_ifs at stored with trims
          · rw [GoMap.get_set] at stored
            split_ifs at stored with isIt
            · subst isIt
              exact Or.inr (Or.inr (Or.inl ⟨change, now, newSize, rfl, size,
                typeOf_eq_some.mpr ⟨inode, known, trims.2⟩, (Option.some.inj stored).symm⟩))
            · exact Or.inl stored
          · exact Or.inl stored
  | writeExtent target ext now =>
      obtain ⟨_, _, _, rfl⟩ := writeExtent_ok applied
      simp only [touched, GoMap.get_set] at stored
      split_ifs at stored with isIt
      · subst isIt
        exact Or.inr (Or.inr (Or.inr ⟨ext, now, rfl, (Option.some.inj stored).symm⟩))
      · exact Or.inl stored
  | setSymlink target link now =>
      obtain ⟨_, _, _, rfl⟩ := setSymlink_ok applied
      exact Or.inl stored
  | setXattr target name value now =>
      obtain ⟨_, _, rfl⟩ := setXattr_ok applied
      exact Or.inl stored
  | removeXattr target name now =>
      obtain ⟨_, _, rfl⟩ := removeXattr_ok applied
      exact Or.inl stored
  | touchAtime target now =>
      cases applied
      rcases touchAtime_cases idx target now with ⟨-, same⟩ | ⟨_, _, same⟩ <;> rw [same] at stored
      · exact Or.inl stored
      · exact Or.inl stored

/-! ### Extents and where they come from -/

/-- An extent within the integer range that is part of one with property `P`. -/
structure Extent.PieceOf (P : Extent → Prop) (e : Extent) : Prop where
  range : e.InRange
  whole : ∃ whole, P whole ∧ e.Part whole

theorem Extent.PieceOf.self {P : Extent → Prop} {e : Extent} (range : e.InRange) (holds : P e) :
    e.PieceOf P := ⟨range, e, holds, .refl range.length⟩

theorem Extent.PieceOf.of_part {P : Extent → Prop} {part e : Extent} (piece : e.PieceOf P)
    (range : part.InRange) (isPart : part.Part e) : part.PieceOf P := by
  obtain ⟨whole, holds, smaller⟩ := piece.whole
  exact ⟨range, whole, holds, isPart.trans smaller⟩

theorem Extent.PieceOf.mono {P Q : Extent → Prop} {e : Extent} (piece : e.PieceOf P)
    (weaker : ∀ whole, P whole → Q whole) : e.PieceOf Q := by
  obtain ⟨range, whole, holds, isPart⟩ := piece
  exact ⟨range, whole, weaker whole holds, isPart⟩

/-- Every extent of every file is a piece of one with property `P`. -/
def Index.PiecesOf (P : Ino → Extent → Prop) (idx : Index) : Prop :=
  ∀ ino exts, idx.extents.get ino = some exts → ∀ e ∈ exts, e.PieceOf (P ino)

theorem Index.PiecesOf.mono {P Q : Ino → Extent → Prop} {idx : Index} (pieces : idx.PiecesOf P)
    (weaker : ∀ ino e, P ino e → Q ino e) : idx.PiecesOf Q :=
  fun ino exts stored e member => (pieces ino exts stored e member).mono (weaker ino)

/-- The list of a file, which may be missing. -/
theorem Index.PiecesOf.getD {P : Ino → Extent → Prop} {idx : Index} (pieces : idx.PiecesOf P)
    (ino : Ino) : ∀ e ∈ (idx.extents.get ino).getD [], e.PieceOf (P ino) := by
  intro e member
  cases stored : idx.extents.get ino with
  | none =>
      rw [stored] at member
      cases member
  | some exts =>
      rw [stored] at member
      exact pieces ino exts stored e member

/-- The arguments are `int64`s, and a written extent has property `P`. -/
def Mutation.Brings (P : Ino → Extent → Prop) : Mutation → Prop
  | .setAttr _ change _ => ∀ size, change.size = some size → IsInt64 size
  | .writeExtent ino ext _ => ext.InRange ∧ P ino ext
  | _ => True

/-- Mutators only cut extents, apart from the one they write. -/
theorem Mutation.piecesOf {P : Ino → Extent → Prop} {m : Mutation} {idx idx' : Index}
    (applied : m.apply idx = .ok idx') (pieces : idx.PiecesOf P) (brings : m.Brings P) :
    idx'.PiecesOf P := by
  intro ino exts stored e member
  have old := pieces.getD ino
  rcases Mutation.extents applied stored with
    kept | ⟨rfl, -⟩ | ⟨change, now, size, rfl, given, -, rfl⟩ | ⟨ext, now, rfl, rfl⟩
  · exact pieces ino exts kept e member
  · cases member
  · obtain ⟨range, whole, inList, isPart⟩ :=
      trimExtents_part (fun e inList => (old e inList).range) (brings size given) e member
    exact (old whole inList).of_part range isPart
  · rcases writeExtents_part (fun e inList => (old e inList).range) brings.1 e member with
      rfl | ⟨range, whole, inList, isPart⟩
    · exact .self brings.1 brings.2
    · exact (old whole inList).of_part range isPart

/-- The chunk of an extent was minted by a chunk store. -/
def MintedExtent (e : Extent) : Prop := ∃ seq, e.chunkID = chunkID seq

theorem Index.PiecesOf.minted {idx : Index} (pieces : idx.PiecesOf fun _ => MintedExtent)
    {ino : Ino} {exts : List Extent} (stored : idx.extents.get ino = some exts) : Minted exts := by
  intro e member
  obtain ⟨-, whole, ⟨seq, minted⟩, isPart⟩ := pieces ino exts stored e member
  exact ⟨seq, isPart.chunk.trans minted⟩

/-- An index that its wire form restores: directory maps of the directories,
inode numbers below the counter, and extents of minted chunks. -/
structure Index.Restorable (idx : Index) : Prop where
  dirs : idx.DirsMatch
  numbered : ∀ ino inode, idx.inodes.get ino = some inode → ino < idx.nextIno
  minted : idx.PiecesOf fun _ => MintedExtent

open Index in
/-- Neither access times nor flags matter to the wire form. -/
theorem Index.Restorable.of_sansAtimes {idx idx' : Index} (restorable : idx.Restorable)
    (same : idx'.sansAtimes = idx.sansAtimes) : idx'.Restorable := by
  obtain ⟨inodes, dirs, extents, -, -, nextIno, blockSize, -⟩ := Index.mk.inj same
  have untimed : ∀ (idx : Index) ino, idx.sansAtimes.typeOf ino = idx.typeOf ino := by
    intro idx ino
    simp only [Index.typeOf, Index.sansAtimes, GoMap.get_map, Option.map_map]
    rfl
  have shape : SameShape idx idx' := by
    refine ⟨fun ino => ?_, fun ino => by rw [dirs], nextIno, blockSize⟩
    rw [← untimed idx', ← untimed idx, same]
  refine ⟨shape.keeps.dirs restorable.dirs restorable.numbered,
    shape.keeps.numbered restorable.numbered, ?_⟩
  unfold Index.PiecesOf
  rw [extents]
  exact restorable.minted

theorem Mutation.restorable {m : Mutation} {idx idx' : Index} (applied : m.apply idx = .ok idx')
    (restorable : idx.Restorable) (brings : m.Brings fun _ => MintedExtent) :
    idx'.Restorable where
  dirs := (Mutation.keepsShape applied).dirs restorable.dirs restorable.numbered
  numbered := (Mutation.keepsShape applied).numbered restorable.numbered
  minted := Mutation.piecesOf applied restorable.minted brings

theorem Index.new_restorable (blockSize now : Int) : (Index.new blockSize now).Restorable where
  dirs := by
    intro ino
    simp only [Index.new, GoMap.get_set, GoMap.get_empty]
    split_ifs with isRoot
    · simp
    · simp
  numbered := by
    intro ino inode stored
    simp only [Index.new, GoMap.get_set, GoMap.get_empty] at stored
    split_ifs at stored with isRoot
    rw [isRoot]
    exact Nat.lt_succ_self _
  minted := fun ino exts stored => by cases stored

/-- What a successful save of a restorable index writes decodes to it. -/
theorem Index.Restorable.decodes {codec : CborCodec} {idx : Index} (restorable : idx.Restorable)
    {order : List DirEntry} {data : Bytes} (lists : idx.Lists order)
    (decodable : (idx.snapshot order).Decodable)
    (encoded : encodeSnapshot codec (idx.snapshot order) = some data) :
    decodeIndex codec idx.blockSize data = some idx.cleaned :=
  decodeIndex_of_encodeSnapshot restorable.dirs (fun _ _ stored => restorable.minted.minted stored)
    lists decodable encoded

theorem Index.Restorable.of_decodes {codec : CborCodec} {idx idx' : Index}
    (restorable : idx.Restorable) {order : List DirEntry} {data : Bytes} (lists : idx.Lists order)
    (encoded : encodeSnapshot codec (idx.snapshot order) = some data) {blockSize : Int}
    (decoded : decodeIndex codec blockSize data = some idx') :
    idx' = { idx.cleaned with blockSize := blockSize } :=
  eq_of_decodeIndex restorable.dirs (fun _ _ stored => restorable.minted.minted stored) lists
    encoded decoded

/-- Whatever decodes from the bytes is restorable. -/
def Legible (codec : CborCodec) (data : Bytes) : Prop :=
  ∀ blockSize idx, decodeIndex codec blockSize data = some idx → idx.Restorable

theorem Index.Restorable.legible {codec : CborCodec} {idx : Index} (restorable : idx.Restorable)
    {order : List DirEntry} {data : Bytes} (lists : idx.Lists order)
    (encoded : encodeSnapshot codec (idx.snapshot order) = some data) : Legible codec data := by
  intro blockSize idx' decoded
  rw [restorable.of_decodes lists encoded decoded]
  exact ⟨restorable.dirs, restorable.numbered, restorable.minted⟩

end Fusey
