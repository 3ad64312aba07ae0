import Fusey.Index.Namespace

/-!
Contract: `Index.Rename` against `rename(2)` (`internal/index/index.go`).

Owns:
- what `rename(2)` does with two entries, in terms of the entries, the inodes and
  what is kept under them;
- for which pairs of entries `Rename` does that, over well-formed indices.

Does not own which renames the kernel lets through.
-/

set_option autoImplicit false

namespace Fusey

open Relation

namespace Index

/-! ### The specification -/

section Specification

variable (idx : Index) (srcParent : Ino) (srcName : Name) (dstParent : Ino) (dstName : Name)

/-- The destination is a directory with entries. -/
def DestinationFull : Prop :=
  ∃ dst, idx.entry dstParent dstName = some dst ∧ idx.typeOf dst = some .directory ∧
    ∃ name child, idx.entry dst name = some child

/-- Both entries exist and exactly one of them is a directory. -/
def KindsDiffer : Prop :=
  ∃ src dst, idx.entry srcParent srcName = some src ∧ idx.entry dstParent dstName = some dst ∧
    ¬ (idx.typeOf src = some .directory ↔ idx.typeOf dst = some .directory)

/-- The target lies in the moved directory. -/
def MovesIntoItself : Prop :=
  ∃ src, idx.entry srcParent srcName = some src ∧ ReflTransGen idx.HasChild src dstParent

/-- The cases in which `rename(2)` reports an error. -/
def RefusesRename : Prop :=
  idx.entry srcParent srcName = none ∨ idx.typeOf dstParent ≠ some .directory ∨
    idx.DestinationFull dstParent dstName ∨ idx.KindsDiffer srcParent srcName dstParent dstName ∨
    idx.MovesIntoItself srcParent srcName dstParent

/-- Both entries name one inode. -/
def NamesOneInode : Prop :=
  ∃ ino, idx.entry srcParent srcName = some ino ∧ idx.entry dstParent dstName = some ino

/-- An inode but for the times that a rename may set: both times of the parents,
and the change time of the moved inode. -/
def untimed (src i : Ino) (inode : Inode) : Inode :=
  if i = srcParent ∨ i = dstParent then { inode with mtime := 0, ctime := 0 }
  else if i = src then { inode with ctime := 0 }
  else inode

end Specification

/-- Everything kept under a number but its inode. -/
def keptUnder (idx : Index) (i : Ino) :
    Option (List Extent) × Option Name × Option (GoMap Name Name) :=
  (idx.extents.get i, idx.symlinks.get i, idx.xattrs.get i)

/-- `idx'` is `idx` with the entry of `src` moved over that of `replaced`. -/
structure Renamed (idx idx' : Index) (srcParent : Ino) (srcName : Name) (dstParent : Ino)
    (dstName : Name) (src : Ino) : Prop where
  entries : ∀ p n, idx'.entry p n =
    if p = dstParent ∧ n = dstName then some src
    else if p = srcParent ∧ n = srcName then none else idx.entry p n
  nextIno : idx'.nextIno = idx.nextIno
  blockSize : idx'.blockSize = idx.blockSize
  others : ∀ i, idx.entry dstParent dstName ≠ some i →
    (idx'.inodes.get i).map (untimed srcParent dstParent src i) =
        (idx.inodes.get i).map (untimed srcParent dstParent src i) ∧
      idx'.keptUnder i = idx.keptUnder i ∧
      ((∃ children, idx'.dirIndex.get i = some children) ↔
        ∃ children, idx.dirIndex.get i = some children)
  freed : ∀ i, idx.entry dstParent dstName = some i → idx.names i = 1 →
    idx'.inodes.get i = none ∧ idx'.keptUnder i = (none, none, none) ∧ idx'.dirIndex.get i = none
  unlinked : ∀ i, idx.entry dstParent dstName = some i → idx.names i ≠ 1 →
    idx'.inodes.get i = (idx.inodes.get i).map
      (fun inode => { inode with nlink := inode.nlink - 1 }) ∧
      idx'.keptUnder i = idx.keptUnder i ∧ idx'.dirIndex.get i = idx.dirIndex.get i

/-- What `rename(2)` does: it reports an error, does nothing, or moves the entry.
A failed call returns no index, since it leaves the one there is. -/
structure PosixRename (idx : Index) (srcParent : Ino) (srcName : Name) (dstParent : Ino)
    (dstName : Name) (outcome : Outcome Index) : Prop where
  refused : idx.RefusesRename srcParent srcName dstParent dstName →
    ∃ failure, outcome = .error (.error failure)
  same : idx.NamesOneInode srcParent srcName dstParent dstName →
    ∃ idx', outcome = .ok idx' ∧ (∀ p n, idx'.entry p n = idx.entry p n) ∧
      idx'.inodes = idx.inodes
  renamed : ¬ idx.RefusesRename srcParent srcName dstParent dstName →
    ¬ idx.NamesOneInode srcParent srcName dstParent dstName →
    ∃ idx' src, outcome = .ok idx' ∧ idx.entry srcParent srcName = some src ∧
      idx.Renamed idx' srcParent srcName dstParent dstName src

/-! ### The destination -/

variable {idx idx' : Index} {srcParent dstParent src dst : Ino} {srcName dstName : Name} {now : Int}

theorem hasChildren_iff {ino : Ino} :
    idx.hasChildren ino = true ↔ ∃ name child, idx.entry ino name = some child := by
  unfold hasChildren Index.entry
  cases stored : idx.dirIndex.get ino with
  | none => simp
  | some children =>
      rw [decide_eq_true_iff]
      constructor
      · intro nonempty
        by_contra none
        push Not at none
        refine nonempty (GoMap.ext fun name => ?_)
        cases found : children.get name with
        | none => rfl
        | some child => exact absurd found (none name child)
      · rintro ⟨name, child, found⟩ rfl
        cases found

/-- The check that `Rename` makes of its destination. -/
theorem destinationFull_iff {inode : Inode} (there : idx.entry dstParent dstName = some dst)
    (found : idx.inodes.get dst = some inode) :
    idx.DestinationFull dstParent dstName ↔
      inode.fileType = .directory ∧ idx.hasChildren dst = true := by
  rw [hasChildren_iff]
  constructor
  · rintro ⟨other, same, isDirectory, full⟩
    cases there.symm.trans same
    obtain ⟨known, stored, isType⟩ := typeOf_eq_some.mp isDirectory
    cases found.symm.trans stored
    exact ⟨isType, full⟩
  · rintro ⟨isDirectory, full⟩
    exact ⟨dst, there, typeOf_eq_some.mpr ⟨inode, found, isDirectory⟩, full⟩

theorem Namespace.replaceDestination_full (ns : idx.Namespace)
    (full : idx.DestinationFull dstParent dstName) :
    ∃ failure, idx.replaceDestination dstParent dstName = .error (.error failure) := by
  obtain ⟨dst, there, -⟩ := id full
  obtain ⟨inode, found⟩ := ns.children _ _ _ there
  refine ⟨.destinationNotEmpty dst, ?_⟩
  unfold replaceDestination
  simp only [there, found]
  rw [if_pos ((destinationFull_iff there found).mp full)]

theorem Namespace.replaceDestination_succeeds (ns : idx.Namespace)
    (notFull : ¬ idx.DestinationFull dstParent dstName) :
    ∃ replaced, idx.replaceDestination dstParent dstName = .ok replaced := by
  unfold replaceDestination
  cases there : idx.entry dstParent dstName with
  | none => exact ⟨idx, rfl⟩
  | some dst =>
      obtain ⟨inode, found⟩ := ns.children _ _ _ there
      simp only [found]
      rw [if_neg fun full => notFull ((destinationFull_iff there found).mpr full)]
      exact ⟨_, rfl⟩

/-! ### How a rename ends -/

theorem rename_missing (missing : idx.entry srcParent srcName = none) :
    ∃ failure, idx.rename srcParent srcName dstParent dstName now = .error (.error failure) := by
  unfold rename
  rw [missing]
  exact ⟨_, rfl⟩

theorem Namespace.rename_full (ns : idx.Namespace)
    (full : idx.DestinationFull dstParent dstName) :
    ∃ failure, idx.rename srcParent srcName dstParent dstName now = .error (.error failure) := by
  obtain ⟨failure, refused⟩ := ns.replaceDestination_full full
  unfold Index.rename
  cases idx.entry srcParent srcName with
  | none => exact ⟨_, rfl⟩
  | some child =>
      rw [refused]
      exact ⟨failure, rfl⟩

/-- With a source, and without a full destination, `Rename` goes on to move. -/
theorem Namespace.rename_moves (ns : idx.Namespace) (named : idx.entry srcParent srcName = some src)
    (notFull : ¬ idx.DestinationFull dstParent dstName) (now : Int) :
    ∃ replaced, idx.replaceDestination dstParent dstName = .ok replaced ∧
      idx.rename srcParent srcName dstParent dstName now =
        replaced.moveEntry srcParent srcName dstParent dstName src now := by
  obtain ⟨replaced, given⟩ := ns.replaceDestination_succeeds notFull
  obtain ⟨inode, found⟩ := ns.children _ _ _ named
  refine ⟨replaced, given, ?_⟩
  unfold Index.rename
  simp only [named, given, found]

/-- A move panics or succeeds. -/
theorem moveEntry_ne_error (failure : IndexError) :
    idx.moveEntry srcParent srcName dstParent dstName src now ≠ .error (.error failure) := by
  unfold moveEntry
  dsimp only
  split <;> exact fun absurdity => by cases absurdity

/-- The destination's directory keeps its map. -/
theorem Namespace.moveEntry_succeeds (ns : idx.Namespace) {replaced : Index}
    (target : idx.typeOf dstParent = some .directory)
    (given : idx.replaceDestination dstParent dstName = .ok replaced) :
    ∃ idx', replaced.moveEntry srcParent srcName dstParent dstName src now = .ok idx' := by
  have kept : ∃ children, replaced.dirIndex.get dstParent = some children := by
    have stored := (ns.dirKeys dstParent).mpr (typeOf_eq_some.mp target)
    rcases replaceDestination_ok given with ⟨-, rfl⟩ | ⟨dst, inode, there, -, -, rfl⟩
    · exact stored
    · have apart : dstParent ≠ dst := by
        rintro rfl
        exact ns.acyclic.irrefl _ ⟨dstName, there⟩
      rcases unlinkChild_cases idx dst inode id with ⟨-, result⟩ | ⟨-, result⟩ <;> rw [result]
      · simp only [Index.free, GoMap.get_delete_ne _ apart]
        exact stored
      · exact stored
  obtain ⟨children, stored⟩ :=
    (exists_get_modify srcParent (fun children : GoMap Name Ino => children.delete srcName)
      dstParent).mpr kept
  unfold Index.moveEntry
  dsimp only
  rw [show (replaced.deleteEntry srcParent srcName).dirIndex.get dstParent = some children
    from stored]
  exact ⟨_, rfl⟩

/-! ### What a move changes -/

theorem keptUnder_moveEntry
    (applied : idx.moveEntry srcParent srcName dstParent dstName src now = .ok idx') (i : Ino) :
    idx'.keptUnder i = idx.keptUnder i := by
  obtain ⟨_, _, -, -, rfl⟩ := moveEntry_ok applied
  rfl

theorem untimed_moveEntry
    (applied : idx.moveEntry srcParent srcName dstParent dstName src now = .ok idx') (i : Ino) :
    (idx'.inodes.get i).map (untimed srcParent dstParent src i) =
      (idx.inodes.get i).map (untimed srcParent dstParent src i) := by
  obtain ⟨_, stamped, -, isStamped, result⟩ := moveEntry_ok applied
  have moved : (stamped.get i).map (untimed srcParent dstParent src i) =
      (idx.inodes.get i).map (untimed srcParent dstParent src i) := by
    rw [isStamped, GoMap.map_get_modify, GoMap.map_get_modify]
    · intro isSrc inode
      simp only [untimed, if_pos isSrc]
    · intro isParent inode
      unfold untimed
      rw [if_pos (Or.inl isParent), if_pos (Or.inl isParent)]
      rfl
  rw [← moved, result]
  simp only [touched]
  split_ifs
  · rw [GoMap.map_get_modify]
    intro isParent inode
    unfold untimed
    rw [if_pos (Or.inr isParent), if_pos (Or.inr isParent)]
    rfl
  · rfl

/-- An inode that is neither moved nor a parent is not touched. -/
theorem inodes_moveEntry_other
    (applied : idx.moveEntry srcParent srcName dstParent dstName src now = .ok idx') {i : Ino}
    (notSource : i ≠ srcParent) (notTarget : i ≠ dstParent) (notMoved : i ≠ src) :
    idx'.inodes.get i = idx.inodes.get i := by
  have same := untimed_moveEntry applied i
  have plain : untimed srcParent dstParent src i = id := by
    funext inode
    unfold untimed
    rw [if_neg (by tauto), if_neg notMoved]
    rfl
  rw [plain, Option.map_id] at same
  exact same

theorem dirIndex_moveEntry_other
    (applied : idx.moveEntry srcParent srcName dstParent dstName src now = .ok idx') {i : Ino}
    (notSource : i ≠ srcParent) (notTarget : i ≠ dstParent) :
    idx'.dirIndex.get i = idx.dirIndex.get i := by
  obtain ⟨children, _, -, -, rfl⟩ := moveEntry_ok applied
  simp only [touched, deleteEntry, GoMap.get_set_ne _ _ notTarget,
    GoMap.get_modify_ne _ _ notSource]

theorem dirKeys_moveEntry
    (applied : idx.moveEntry srcParent srcName dstParent dstName src now = .ok idx') (i : Ino) :
    (∃ children, idx'.dirIndex.get i = some children) ↔
      ∃ children, idx.dirIndex.get i = some children := by
  obtain ⟨children, _, stored, -, rfl⟩ := moveEntry_ok applied
  exact (exists_get_set stored _ i).trans (exists_get_modify _ _ i)

/-- What a replaced inode is left with. -/
theorem Namespace.unlinkChild_replaced (ns : idx.Namespace)
    (there : idx.entry dstParent dstName = some dst) {inode : Inode}
    (found : idx.inodes.get dst = some inode) :
    (idx.names dst = 1 ∧ idx.unlinkChild dst inode id = idx.free dst) ∨
      (idx.names dst ≠ 1 ∧ idx.unlinkChild dst inode id =
        { idx with
          inodes := idx.inodes.modify dst fun inode =>
            { inode with nlink := loseLink inode.nlink } }) := by
  obtain ⟨-, freedIff⟩ := ns.loses there found
  rcases unlinkChild_cases idx dst inode id with ⟨freed, result⟩ | ⟨stays, result⟩
  · exact Or.inl ⟨freedIff.mp freed, result⟩
  · exact Or.inr ⟨fun last => absurd (freedIff.mpr last) (Nat.not_le.mpr stays), result⟩

/-- The moved and the replaced inode and the two parents are different. -/
theorem Namespace.replaced_apart (ns : idx.Namespace)
    (named : idx.entry srcParent srcName = some src)
    (there : idx.entry dstParent dstName = some dst)
    (notFull : ¬ idx.DestinationFull dstParent dstName) : dst ≠ srcParent ∧ dst ≠ dstParent := by
  constructor
  · rintro rfl
    exact notFull ⟨dst, there, typeOf_eq_some.mpr (ns.parents _ _ _ named), srcName, src, named⟩
  · rintro rfl
    exact ns.acyclic.irrefl _ ⟨dstName, there⟩

theorem Namespace.renamed (ns : idx.Namespace) (named : idx.entry srcParent srcName = some src)
    (notFull : ¬ idx.DestinationFull dstParent dstName)
    (different : idx.entry dstParent dstName ≠ some src) {replaced : Index}
    (given : idx.replaceDestination dstParent dstName = .ok replaced)
    (moved : replaced.moveEntry srcParent srcName dstParent dstName src now = .ok idx')
    (applied : idx.rename srcParent srcName dstParent dstName now = .ok idx') :
    idx.Renamed idx' srcParent srcName dstParent dstName src := by
  have entries : ∀ p n, idx'.entry p n = if p = dstParent ∧ n = dstName then some src
      else if p = srcParent ∧ n = srcName then none else idx.entry p n := by
    obtain ⟨child, isSource, entries⟩ := ns.entry_rename applied
    cases named.symm.trans isSource
    exact entries
  have counters : idx'.nextIno = replaced.nextIno ∧ idx'.blockSize = replaced.blockSize := by
    obtain ⟨_, _, -, -, rfl⟩ := moveEntry_ok moved
    exact ⟨rfl, rfl⟩
  rcases replaceDestination_ok given with ⟨isFree, rfl⟩ | ⟨dst, inode, there, found, -, isReplaced⟩
  · refine ⟨entries, counters.1, counters.2, fun i _ => ?_, fun i there => ?_, fun i there => ?_⟩
    · exact ⟨untimed_moveEntry moved i, keptUnder_moveEntry moved i, dirKeys_moveEntry moved i⟩
    · cases isFree.symm.trans there
    · cases isFree.symm.trans there
  · obtain ⟨notSource, notTarget⟩ := ns.replaced_apart named there notFull
    have notMoved : dst ≠ src := by
      rintro rfl
      exact different there
    have keptInode := inodes_moveEntry_other moved notSource notTarget notMoved
    have keptDirs := dirIndex_moveEntry_other moved notSource notTarget
    rcases ns.unlinkChild_replaced there found with ⟨last, result⟩ | ⟨more, result⟩ <;>
      rw [result] at isReplaced
    · refine ⟨entries, counters.1.trans (by rw [isReplaced]; rfl),
        counters.2.trans (by rw [isReplaced]; rfl), fun i other => ?_, fun i isIt _ => ?_,
        fun i isIt many => ?_⟩
      · have apart : i ≠ dst := by
          rintro rfl
          exact other there
        rw [untimed_moveEntry moved, keptUnder_moveEntry moved, dirKeys_moveEntry moved, isReplaced]
        simp only [Index.free, keptUnder, GoMap.get_delete_ne _ apart, and_self]
      · cases there.symm.trans isIt
        rw [keptInode, keptUnder_moveEntry moved, keptDirs, isReplaced]
        simp only [Index.free, keptUnder, GoMap.get_delete_self]
        exact ⟨trivial, trivial, trivial⟩
      · cases there.symm.trans isIt
        exact absurd last many
    · refine ⟨entries, counters.1.trans (by rw [isReplaced]), counters.2.trans (by rw [isReplaced]),
        fun i other => ?_, fun i isIt last => ?_, fun i isIt _ => ?_⟩
      · have apart : i ≠ dst := by
          rintro rfl
          exact other there
        rw [untimed_moveEntry moved, keptUnder_moveEntry moved, dirKeys_moveEntry moved, isReplaced]
        simp only [GoMap.get_modify_ne _ _ apart, keptUnder, and_self]
      · cases there.symm.trans isIt
        exact absurd last more
      · cases there.symm.trans isIt
        have lower := (ns.loses there found).1
        rw [keptInode, keptUnder_moveEntry moved, keptDirs, isReplaced]
        refine ⟨?_, rfl, rfl⟩
        simp only [GoMap.get_modify_self, found, Option.map_some]
        congr 2
        omega

/-! ### When a rename does what it should -/

/-- A rename of one inode onto itself takes a link away. -/
theorem Namespace.rename_same_link (ns : idx.Namespace)
    (named : idx.entry srcParent srcName = some src)
    (there : idx.entry dstParent dstName = some src)
    (applied : idx.rename srcParent srcName dstParent dstName now = .ok idx') :
    idx'.tag src ≠ idx.tag src := by
  obtain ⟨child, inode, replaced, isSource, found, given, moved⟩ := rename_ok applied
  cases named.symm.trans isSource
  have lower := (ns.loses there found).1
  rw [tag_moveEntry moved]
  rcases replaceDestination_ok given with ⟨isFree, -⟩ | ⟨dst, old, same, stored, -, rfl⟩
  · cases isFree.symm.trans there
  · cases there.symm.trans same
    cases found.symm.trans stored
    rcases unlinkChild_cases idx src inode id with ⟨-, result⟩ | ⟨-, result⟩ <;> rw [result]
    · unfold tag
      rw [get_free, if_pos rfl, found]
      exact fun absurdity => by cases absurdity
    · unfold tag
      simp only [GoMap.get_modify_self, found, Option.map_some]
      intro tags
      have nlinks := (Prod.mk.inj (Prod.mk.inj (Option.some.inj tags)).2).2
      simp only [id_eq] at nlinks
      omega

/-- The pairs of entries for which `Rename` does what `rename(2)` does: there is
no source; or the entries name different inodes, and either the destination is a
directory with entries or there is no reason to refuse. -/
def RenamesSafely (idx : Index) (srcParent : Ino) (srcName : Name) (dstParent : Ino)
    (dstName : Name) : Prop :=
  idx.entry srcParent srcName = none ∨
    ¬ idx.NamesOneInode srcParent srcName dstParent dstName ∧
      (idx.DestinationFull dstParent dstName ∨
        ¬ idx.RefusesRename srcParent srcName dstParent dstName)

theorem Namespace.posixRename (ns : idx.Namespace)
    (safe : idx.RenamesSafely srcParent srcName dstParent dstName) :
    idx.PosixRename srcParent srcName dstParent dstName
      (idx.rename srcParent srcName dstParent dstName now) := by
  rcases safe with missing | ⟨different, full | permitted⟩
  · refine ⟨fun _ => rename_missing missing, ?_, fun permitted => absurd (Or.inl missing) permitted⟩
    rintro ⟨ino, named, -⟩
    cases missing.symm.trans named
  · exact ⟨fun _ => ns.rename_full full, fun same => absurd same different,
      fun permitted => absurd (Or.inr (Or.inr (Or.inl full))) permitted⟩
  · refine ⟨fun refused => absurd refused permitted, fun same => absurd same different,
      fun _ _ => ?_⟩
    simp only [RefusesRename, not_or, not_not] at permitted
    obtain ⟨present, target, notFull, -, -⟩ := permitted
    obtain ⟨src, named⟩ := Option.ne_none_iff_exists'.mp present
    obtain ⟨replaced, given, moves⟩ := ns.rename_moves named notFull now
    obtain ⟨idx', moved⟩ := ns.moveEntry_succeeds target given
    refine ⟨idx', src, moves.trans moved, named, ?_⟩
    exact ns.renamed named notFull (fun there => different ⟨src, named, there⟩) given moved
      (moves.trans moved)

theorem Namespace.renamesSafely (ns : idx.Namespace)
    (posix : idx.PosixRename srcParent srcName dstParent dstName
      (idx.rename srcParent srcName dstParent dstName now)) :
    idx.RenamesSafely srcParent srcName dstParent dstName := by
  cases named : idx.entry srcParent srcName with
  | none => exact Or.inl named
  | some src =>
      have different : ¬ idx.NamesOneInode srcParent srcName dstParent dstName := by
        intro same
        obtain ⟨idx', applied, -, inodes⟩ := posix.same same
        obtain ⟨ino, isSource, there⟩ := same
        refine ns.rename_same_link isSource there applied ?_
        unfold tag
        rw [inodes]
      refine Or.inr ⟨different, ?_⟩
      by_contra neither
      obtain ⟨notFull, refused⟩ := not_or.mp neither
      obtain ⟨failure, failed⟩ := posix.refused (not_not.mp refused)
      obtain ⟨replaced, -, moves⟩ := ns.rename_moves named notFull now
      exact moveEntry_ne_error failure (moves.symm.trans failed)

end Index

end Fusey
