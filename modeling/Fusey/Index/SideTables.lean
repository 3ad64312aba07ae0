import Fusey.Index.Rename

/-!
Contract: what is kept beside an inode under its number: the target of a symbolic
link and the extended attributes (`internal/index/index.go`).

Owns, for one number, everything a mutator can do to its type and its two tables:
nothing, the creation or the end of the inode, or the one entry that the mutator
is about.
-/

set_option autoImplicit false

namespace Fusey

open Index

/-- The mutator is about an entry in a table of `i`. -/
def Mutation.SetsTable (i : Ino) : Mutation → Prop
  | .setSymlink ino _ _ | .setXattr ino _ _ _ | .removeXattr ino _ _ => ino = i
  | _ => False

/-- Everything `m` can do to the inode `i` and its tables. -/
inductive Mutation.Side (m : Mutation) (idx idx' : Index) (i : Ino) : Prop where
  | kept (other : ¬ m.SetsTable i) (types : idx'.typeOf i = idx.typeOf i)
      (symlinks : idx'.symlinks.get i = idx.symlinks.get i)
      (xattrs : idx'.xattrs.get i = idx.xattrs.get i)
  | created {fileType : FileType} {mode uid gid rdev : UInt32} {now : Int}
      (asked : m = .createInode fileType mode uid gid rdev now) (isNew : i = idx.nextIno)
      (later : idx'.nextIno = i + 1) (types : idx'.typeOf i = some fileType)
      (symlinks : idx'.symlinks.get i = idx.symlinks.get i)
      (xattrs : idx'.xattrs.get i = idx.xattrs.get i)
  | freed (other : ¬ m.SetsTable i) (types : idx'.typeOf i = none)
      (symlinks : idx'.symlinks.get i = none)
      (xattrs : idx'.xattrs.get i = none)
  | linked {target : Name} {now : Int} (asked : m = .setSymlink i target now)
      (before : idx.typeOf i = some .symlink) (types : idx'.typeOf i = idx.typeOf i)
      (symlinks : idx'.symlinks.get i = some target)
      (xattrs : idx'.xattrs.get i = idx.xattrs.get i)
  | attributed {name value : Name} {now : Int} (asked : m = .setXattr i name value now)
      (before : idx.typeOf i ≠ none) (types : idx'.typeOf i = idx.typeOf i)
      (symlinks : idx'.symlinks.get i = idx.symlinks.get i)
      (xattrs : idx'.getXattrs i = (idx.getXattrs i).set name value)
  | stripped {name : Name} {now : Int} (asked : m = .removeXattr i name now)
      (before : idx.typeOf i ≠ none) (types : idx'.typeOf i = idx.typeOf i)
      (symlinks : idx'.symlinks.get i = idx.symlinks.get i)
      (xattrs : idx'.getXattrs i = (idx.getXattrs i).delete name)

namespace Mutation.Side

variable {m : Mutation} {idx idx' : Index} {i : Ino}

/-- A change of inodes that keeps their types. -/
theorem of_inodes (other : ¬ m.SetsTable i) (types : ∀ i, idx'.typeOf i = idx.typeOf i)
    (symlinks : idx'.symlinks = idx.symlinks) (xattrs : idx'.xattrs = idx.xattrs) :
    m.Side idx idx' i :=
  .kept other (types i) (by rw [symlinks]) (by rw [xattrs])

/-- A mutator of links keeps a number or frees it. -/
theorem of_relinks (other : ¬ m.SetsTable i) (relinks : m.Relinks idx idx') :
    m.Side idx idx' i := by
  by_cases takes : m.TakesLast idx i
  · have gone := relinks.frees takes
    exact .freed other (Option.map_eq_none_iff.mpr gone.inode) gone.symlink gone.xattrs
  · have same := relinks.keeps takes
    exact .kept other same.typeOf same.symlink same.xattrs

end Mutation.Side

/-- What a mutator did to one number. -/
theorem Mutation.side {m : Mutation} {idx idx' : Index} (applied : m.apply idx = .ok idx')
    (i : Ino) : m.Side idx idx' i := by
  cases m with
  | createInode fileType mode uid gid rdev now =>
      cases applied
      by_cases isNew : i = idx.nextIno
      · refine .created rfl isNew (congrArg (· + 1) isNew.symm) ?_ rfl rfl
        simp only [typeOf, Index.createInode, touched, isNew, GoMap.get_set_self, Option.map_some]
      · refine .kept id ?_ rfl rfl
        simp only [typeOf, Index.createInode, touched, GoMap.get_set_ne _ _ isNew]
  | addDirEntry => exact .of_relinks id (relinks_addDirEntry applied)
  | removeDirEntry => exact .of_relinks id (relinks_removeDirEntry applied)
  | rename => exact .of_relinks id (relinks_rename applied)
  | setAttr ino change now =>
      obtain ⟨inode, stored, rfl⟩ := setAttr_ok applied
      refine .of_inodes id (typeOf_set stored ?_) rfl rfl
      simp only [AttrChange.apply]
      split
      · rfl
      · split_ifs <;> rfl
  | writeExtent ino ext now =>
      obtain ⟨inode, stored, -, rfl⟩ := writeExtent_ok applied
      refine .of_inodes id (typeOf_set stored ?_) rfl rfl
      unfold recordWrite
      split_ifs <;> rfl
  | setSymlink ino target now =>
      obtain ⟨inode, stored, isSymlink, rfl⟩ := setSymlink_ok applied
      have sameType : ({ inode with size := target.length, ctime := now } : Inode).fileType =
          inode.fileType := rfl
      have types := typeOf_set stored sameType
      by_cases isIt : i = ino
      · subst isIt
        exact .linked rfl (typeOf_eq_some.mpr ⟨inode, stored, isSymlink⟩) (types i)
          (GoMap.get_set_self _ _ _) rfl
      · exact .kept (fun same => isIt same.symm) (types i) (GoMap.get_set_ne _ _ isIt) rfl
  | setXattr ino name value now =>
      obtain ⟨inode, stored, rfl⟩ := setXattr_ok applied
      have sameType : ({ inode with ctime := now } : Inode).fileType = inode.fileType := rfl
      have types := typeOf_set stored sameType
      by_cases isIt : i = ino
      · subst isIt
        refine .attributed rfl ?_ (types i) rfl ?_
        · rw [typeOf_eq_some.mpr ⟨inode, stored, rfl⟩]
          exact Option.some_ne_none _
        · simp only [getXattrs, touched, GoMap.get_set_self, Option.getD_some]
      · exact .kept (fun same => isIt same.symm) (types i) rfl (GoMap.get_set_ne _ _ isIt)
  | removeXattr ino name now =>
      obtain ⟨inode, stored, rfl⟩ := removeXattr_ok applied
      have sameType : ({ inode with ctime := now } : Inode).fileType = inode.fileType := rfl
      have types := typeOf_set stored sameType
      by_cases isIt : i = ino
      · subst isIt
        refine .stripped rfl ?_ (types i) rfl ?_
        · rw [typeOf_eq_some.mpr ⟨inode, stored, rfl⟩]
          exact Option.some_ne_none _
        · simp only [getXattrs, touched, GoMap.get_modify_self]
          cases idx.xattrs.get i with
          | none => exact (GoMap.delete_of_none rfl).symm
          | some attrs => rfl
      · exact .kept (fun same => isIt same.symm) (types i) rfl (GoMap.get_modify_ne _ _ isIt)
  | touchAtime ino now =>
      cases applied
      rcases touchAtime_cases idx ino now with ⟨-, same⟩ | ⟨inode, stored, same⟩ <;> rw [same]
      · exact .of_inodes id (fun _ => rfl) rfl rfl
      · exact .of_inodes id (typeOf_set stored rfl) rfl rfl

end Fusey
