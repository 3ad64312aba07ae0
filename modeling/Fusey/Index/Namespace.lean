import Fusey.GoLib.Acyclic
import Fusey.Index.Mutation

/-!
Contract: the namespace of the index: inodes, directory entries and link counts
(`internal/index/index.go`).

Owns:
- the number of entries that name an inode, and how it changes with an entry;
- the invariant that ties the maps of the index together;
- that every mutator keeps it, `AddDirEntry` for a child that may be named and
  `Rename` for a move that the kernel would ask for.

Does not own which calls are in flight.
-/

set_option autoImplicit false

namespace Fusey

open Relation

/-! ### Counting names -/

/-- The entries of one directory that name `child`. -/
def namesIn (child : Ino) (children : GoMap Name Ino) : Nat :=
  children.sum fun _ other => if other = child then 1 else 0

/-- The entries that name `child`. -/
def namesOf (dirs : GoMap Ino (GoMap Name Ino)) (child : Ino) : Nat :=
  dirs.sum fun _ children => namesIn child children

namespace Index

/-- The number of directory entries that name an inode. -/
def names (idx : Index) (child : Ino) : Nat := namesOf idx.dirIndex child

/-- `child` has an entry in the directory `parent`. -/
def HasChild (idx : Index) (parent child : Ino) : Prop := ∃ name, idx.entry parent name = some child

end Index

section Counting

variable {dirs : GoMap Ino (GoMap Name Ino)} {parent child : Ino} {name : Name}
  {children : GoMap Name Ino}

theorem namesIn_set_of_none (absent : children.get name = none) (child other : Ino) :
    namesIn other (children.set name child) =
      (if child = other then 1 else 0) + namesIn other children :=
  GoMap.sum_set_of_none absent child _

theorem namesIn_delete (stored : children.get name = some child) (other : Ino) :
    namesIn other children =
      (if child = other then 1 else 0) + namesIn other (children.delete name) :=
  GoMap.sum_delete stored _

theorem namesOf_set (stored : dirs.get parent = some children) (changed : GoMap Name Ino)
    (other : Ino) : namesIn other children + namesOf (dirs.set parent changed) other =
      namesIn other changed + namesOf dirs other :=
  GoMap.sum_set_of_some stored changed fun _ children => namesIn other children

/-- An entry more. -/
theorem namesOf_add (stored : dirs.get parent = some children) (absent : children.get name = none)
    (child other : Ino) : namesOf (dirs.set parent (children.set name child)) other =
      (if child = other then 1 else 0) + namesOf dirs other := by
  have moved := namesOf_set stored (children.set name child) other
  rw [namesIn_set_of_none absent] at moved
  omega

/-- An entry less. -/
theorem namesOf_remove (stored : dirs.get parent = some children)
    (named : children.get name = some child) (other : Ino) :
    namesOf dirs other = (if child = other then 1 else 0) +
      namesOf (dirs.modify parent fun children => children.delete name) other := by
  have moved := namesOf_set stored (children.delete name) other
  rw [namesIn_delete named] at moved
  simp only [GoMap.modify, stored]
  omega

/-- An empty directory names nothing. -/
theorem namesOf_delete_empty (empty : ∀ children, dirs.get parent = some children → children = ∅)
    (other : Ino) : namesOf (dirs.delete parent) other = namesOf dirs other := by
  cases stored : dirs.get parent with
  | none => rw [GoMap.delete_of_none stored]
  | some children =>
      have split := GoMap.sum_delete stored fun _ children => namesIn other children
      rw [empty children stored] at split
      exact (split.trans (Nat.zero_add _)).symm

theorem namesOf_create (absent : dirs.get parent = none) (other : Ino) :
    namesOf (dirs.set parent ∅) other = namesOf dirs other :=
  (GoMap.sum_set_of_none absent ∅ _).trans (Nat.zero_add _)

end Counting

namespace Index

variable {idx idx' : Index} {parent child : Ino} {name : Name}

theorem names_pos (named : idx.entry parent name = some child) : 0 < idx.names child := by
  obtain ⟨children, stored, found⟩ := entry_eq_some.mp named
  have one : 1 ≤ namesIn child children := by
    refine Nat.le_trans ?_ (GoMap.weight_le_sum found _)
    rw [if_pos rfl]
  exact Nat.le_trans one (GoMap.weight_le_sum stored fun _ children => namesIn child children)

theorem names_eq_zero (unnamed : ∀ parent name, idx.entry parent name ≠ some child) :
    idx.names child = 0 := by
  unfold names namesOf
  apply GoMap.sum_eq_zero
  intro parent children stored
  unfold namesIn
  apply GoMap.sum_eq_zero
  intro name other found
  rw [if_neg]
  rintro rfl
  exact unnamed parent name (entry_eq_some.mpr ⟨children, stored, found⟩)

/-- An inode with a name is named by some entry. -/
theorem exists_entry_of_names (named : 0 < idx.names child) :
    ∃ parent name, idx.entry parent name = some child := by
  by_contra none
  push Not at none
  rw [names_eq_zero none] at named
  exact Nat.lt_irrefl 0 named

/-! ### The invariant -/

/-- What the maps of the index say about each other. -/
structure Namespace (idx : Index) : Prop where
  root : ∃ inode, idx.inodes.get rootIno = some inode ∧ inode.fileType = .directory
  rootUnnamed : idx.names rootIno = 0
  numbers : ∀ i inode, idx.inodes.get i = some inode → inode.ino = i ∧ i < idx.nextIno
  parents : ∀ p n c, idx.entry p n = some c →
    ∃ inode, idx.inodes.get p = some inode ∧ inode.fileType = .directory
  children : ∀ p n c, idx.entry p n = some c → ∃ inode, idx.inodes.get c = some inode
  nlink : ∀ i inode, idx.inodes.get i = some inode →
    inode.nlink = idx.names i + if inode.fileType = .directory then 1 else 0
  single : ∀ i inode, idx.inodes.get i = some inode → inode.fileType = .directory → idx.names i ≤ 1
  acyclic : Acyclic idx.HasChild
  extentKeys : ∀ i, (∃ exts, idx.extents.get i = some exts) ↔
    ∃ inode, idx.inodes.get i = some inode ∧ inode.fileType = .regular
  dirKeys : idx.DirsMatch
  symlinkKeys : ∀ i target, idx.symlinks.get i = some target →
    ∃ inode, idx.inodes.get i = some inode ∧ inode.fileType = .symlink
  xattrKeys : ∀ i attrs, idx.xattrs.get i = some attrs → ∃ inode, idx.inodes.get i = some inode

theorem parents_of_dirKeys (dirKeys : idx.DirsMatch) {p c : Ino} {n : Name}
    (named : idx.entry p n = some c) :
    ∃ inode, idx.inodes.get p = some inode ∧ inode.fileType = .directory := by
  obtain ⟨children, stored, -⟩ := entry_eq_some.mp named
  exact (dirKeys p).mp ⟨children, stored⟩

theorem Namespace.new (blockSize now : Int) : (Index.new blockSize now).Namespace := by
  have inodes : ∀ i inode, (Index.new blockSize now).inodes.get i = some inode →
      i = rootIno ∧ inode.ino = rootIno ∧ inode.fileType = .directory ∧ inode.nlink = 1 := by
    intro i inode stored
    simp only [Index.new, GoMap.get_set, GoMap.get_empty] at stored
    split_ifs at stored with isRoot
    cases stored
    exact ⟨isRoot, rfl, rfl, rfl⟩
  have dirs : ∀ i children, (Index.new blockSize now).dirIndex.get i = some children →
      children = ∅ := by
    intro i children stored
    simp only [Index.new, GoMap.get_set, GoMap.get_empty] at stored
    split_ifs at stored
    exact (Option.some.inj stored).symm
  have unnamed : ∀ p n c, (Index.new blockSize now).entry p n ≠ some c := by
    intro p n c named
    obtain ⟨children, stored, found⟩ := entry_eq_some.mp named
    rw [dirs p children stored] at found
    cases found
  have noNames : ∀ i, (Index.new blockSize now).names i = 0 := fun i =>
    names_eq_zero fun p n => unnamed p n i
  refine ⟨⟨_, GoMap.get_set_self _ _ _, rfl⟩, noNames _, ?_, ?_, ?_, ?_, ?_, ?_, ?_,
    (new_restorable blockSize now).dirs, ?_, ?_⟩
  · intro i inode stored
    obtain ⟨rfl, number, -⟩ := inodes i inode stored
    exact ⟨number, Nat.lt_succ_self _⟩
  · exact fun p n c named => absurd named (unnamed p n c)
  · exact fun p n c named => absurd named (unnamed p n c)
  · intro i inode stored
    obtain ⟨-, -, isDirectory, nlink⟩ := inodes i inode stored
    rw [noNames, nlink, if_pos isDirectory]
  · intro i inode _ _
    rw [noNames]
    exact Nat.zero_le 1
  · intro i cycle
    obtain ⟨_, ⟨n, named⟩, -⟩ := TransGen.head'_iff.mp cycle
    exact unnamed _ _ _ named
  · intro i
    constructor
    · rintro ⟨exts, stored⟩
      cases stored
    · rintro ⟨inode, stored, isRegular⟩
      obtain ⟨-, -, isDirectory, -⟩ := inodes i inode stored
      exact absurd (isRegular.symm.trans isDirectory) FileType.regular_ne_directory
  · exact fun i target stored => by cases stored
  · exact fun i attrs stored => by cases stored

/-! ### Changes that keep names and link counts -/

/-- What the namespace reads of an inode. -/
def tagOf (inode : Inode) : Ino × FileType × Nat := (inode.ino, inode.fileType, inode.nlink)

/-- The same of the inode with a number, if there is one. -/
def tag (idx : Index) (i : Ino) : Option (Ino × FileType × Nat) := (idx.inodes.get i).map tagOf

theorem tag_modify (inodes : GoMap Ino Inode) (target : Ino) {f : Inode → Inode}
    (keeps : ∀ inode, tagOf (f inode) = tagOf inode) (i : Ino) :
    ((inodes.modify target f).get i).map tagOf = (inodes.get i).map tagOf :=
  GoMap.map_get_modify inodes target fun _ => keeps

theorem tag_set {inodes : GoMap Ino Inode} {target : Ino} {old new : Inode}
    (stored : inodes.get target = some old) (keeps : tagOf new = tagOf old) (i : Ino) :
    ((inodes.set target new).get i).map tagOf = (inodes.get i).map tagOf :=
  GoMap.map_get_set stored keeps i

theorem tagOf_stampParent (now : Int) (inode : Inode) :
    tagOf (stampParent now inode) = tagOf inode :=
  rfl

/-- An inode of one of two indices with the same tags has a counterpart. -/
theorem get_of_tag {i : Ino} {inode : Inode} (same : idx'.tag i = idx.tag i)
    (stored : idx'.inodes.get i = some inode) :
    ∃ old, idx.inodes.get i = some old ∧ inode.ino = old.ino ∧ inode.fileType = old.fileType ∧
      inode.nlink = old.nlink := by
  unfold tag at same
  rw [stored] at same
  obtain ⟨old, found, tags⟩ := Option.map_eq_some_iff.mp same.symm
  obtain ⟨ino, rest⟩ := Prod.mk.inj tags
  obtain ⟨fileType, nlink⟩ := Prod.mk.inj rest
  exact ⟨old, found, ino.symm, fileType.symm, nlink.symm⟩

theorem typeOf_of_tag {i : Ino} (same : idx'.tag i = idx.tag i) : idx'.typeOf i = idx.typeOf i := by
  have types := congrArg (Option.map fun tag : Ino × FileType × Nat => tag.2.1) same
  rw [tag, tag, Option.map_map, Option.map_map] at types
  exact types

/-- What a change that neither creates, frees nor names anything keeps. -/
structure SameTree (idx idx' : Index) : Prop where
  tags : ∀ i, idx'.tag i = idx.tag i
  dirs : idx'.dirIndex = idx.dirIndex
  nextIno : idx'.nextIno = idx.nextIno
  extentKeys : ∀ i, (∃ exts, idx'.extents.get i = some exts) ↔ ∃ exts, idx.extents.get i = some exts
  symlinkKeys : ∀ i target, idx'.symlinks.get i = some target →
    (∃ old, idx.symlinks.get i = some old) ∨
      ∃ inode, idx.inodes.get i = some inode ∧ inode.fileType = .symlink
  xattrKeys : ∀ i attrs, idx'.xattrs.get i = some attrs →
    (∃ old, idx.xattrs.get i = some old) ∨ ∃ inode, idx.inodes.get i = some inode

theorem SameTree.entry (same : SameTree idx idx') (p : Ino) (n : Name) :
    idx'.entry p n = idx.entry p n := by
  unfold Index.entry
  rw [same.dirs]

theorem SameTree.exists_get (same : SameTree idx idx') {i : Ino} {fileType : FileType} :
    (∃ inode, idx'.inodes.get i = some inode ∧ inode.fileType = fileType) ↔
      ∃ inode, idx.inodes.get i = some inode ∧ inode.fileType = fileType := by
  constructor
  · rintro ⟨inode, stored, isType⟩
    obtain ⟨old, found, -, sameType, -⟩ := get_of_tag (same.tags i) stored
    exact ⟨old, found, sameType.symm.trans isType⟩
  · rintro ⟨inode, stored, isType⟩
    obtain ⟨new, found, -, sameType, -⟩ := get_of_tag (same.tags i).symm stored
    exact ⟨new, found, sameType.symm.trans isType⟩

theorem SameTree.exists_inode (same : SameTree idx idx') {i : Ino}
    (present : ∃ inode, idx.inodes.get i = some inode) :
    ∃ inode, idx'.inodes.get i = some inode := by
  obtain ⟨inode, stored⟩ := present
  obtain ⟨new, found, -⟩ := get_of_tag (same.tags i).symm stored
  exact ⟨new, found⟩

theorem Namespace.of_sameTree (ns : idx.Namespace) (same : SameTree idx idx') : idx'.Namespace := by
  have names : ∀ i, idx'.names i = idx.names i := by
    intro i
    unfold names
    rw [same.dirs]
  have dirKeys : idx'.DirsMatch := by
    intro i
    rw [same.dirs, ns.dirKeys i, same.exists_get]
  refine ⟨same.exists_get.mpr ns.root, (names _).trans ns.rootUnnamed, ?_,
    fun p n c => parents_of_dirKeys dirKeys, ?_, ?_, ?_, ?_, ?_, dirKeys, ?_, ?_⟩
  · intro i inode stored
    obtain ⟨old, found, ino, -, -⟩ := get_of_tag (same.tags i) stored
    rw [ino, same.nextIno]
    exact ns.numbers i old found
  · intro p n c named
    rw [same.entry] at named
    exact same.exists_inode (ns.children p n c named)
  · intro i inode stored
    obtain ⟨old, found, -, fileType, nlink⟩ := get_of_tag (same.tags i) stored
    rw [nlink, fileType, names]
    exact ns.nlink i old found
  · intro i inode stored isDirectory
    obtain ⟨old, found, -, fileType, -⟩ := get_of_tag (same.tags i) stored
    rw [names]
    exact ns.single i old found (fileType.symm.trans isDirectory)
  · refine ns.acyclic.mono fun p c ⟨n, named⟩ => ⟨n, ?_⟩
    rw [← same.entry]
    exact named
  · intro i
    rw [same.extentKeys, ns.extentKeys, same.exists_get]
  · intro i target stored
    rw [same.exists_get]
    rcases same.symlinkKeys i target stored with ⟨old, found⟩ | isSymlink
    · exact ns.symlinkKeys i old found
    · exact isSymlink
  · intro i attrs stored
    rcases same.xattrKeys i attrs stored with ⟨old, found⟩ | present
    · exact same.exists_inode (ns.xattrKeys i old found)
    · exact same.exists_inode present

/-! ### Creating an inode -/

theorem Namespace.fresh (ns : idx.Namespace) : idx.inodes.get idx.nextIno = none := by
  rw [Option.eq_none_iff_forall_ne_some]
  intro inode stored
  exact absurd (ns.numbers _ inode stored).2 (Nat.lt_irrefl _)

theorem Namespace.names_of_absent (ns : idx.Namespace) {i : Ino}
    (absent : idx.inodes.get i = none) : idx.names i = 0 := by
  apply names_eq_zero
  intro p n named
  obtain ⟨inode, stored⟩ := ns.children p n i named
  rw [absent] at stored
  cases stored

theorem Namespace.dirIndex_of_absent (ns : idx.Namespace) {i : Ino}
    (absent : idx.inodes.get i = none) : idx.dirIndex.get i = none := by
  rw [Option.eq_none_iff_forall_ne_some]
  intro children stored
  obtain ⟨inode, found, -⟩ := (ns.dirKeys i).mp ⟨children, stored⟩
  rw [absent] at found
  cases found

/-- The entries after `CreateInode`. -/
theorem Namespace.entry_createInode (ns : idx.Namespace) (fileType : FileType)
    (mode uid gid rdev : UInt32) (now : Int) (p : Ino) (n : Name) :
    (idx.createInode fileType mode uid gid rdev now).2.entry p n = idx.entry p n := by
  simp only [createInode, touched, Index.entry]
  split_ifs with isDirectory
  · rw [GoMap.get_set]
    split_ifs with isNew
    · rw [isNew, ns.dirIndex_of_absent ns.fresh]
      rfl
    · rfl
  · rfl

theorem Namespace.names_createInode (ns : idx.Namespace) (fileType : FileType)
    (mode uid gid rdev : UInt32) (now : Int) (i : Ino) :
    (idx.createInode fileType mode uid gid rdev now).2.names i = idx.names i := by
  simp only [createInode, touched, names]
  split_ifs with isDirectory
  · exact namesOf_create (ns.dirIndex_of_absent ns.fresh) i
  · rfl

theorem Namespace.createInode (ns : idx.Namespace) (fileType : FileType)
    (mode uid gid rdev : UInt32) (now : Int) :
    (idx.createInode fileType mode uid gid rdev now).2.Namespace := by
  have entries := ns.entry_createInode fileType mode uid gid rdev now
  have counts := ns.names_createInode fileType mode uid gid rdev now
  have older : ∀ i inode, idx.inodes.get i = some inode →
      (idx.createInode fileType mode uid gid rdev now).2.inodes.get i = some inode := by
    intro i inode stored
    refine (GoMap.get_set_ne _ _ ?_).trans stored
    rintro rfl
    rw [ns.fresh] at stored
    cases stored
  have inodes : ∀ i inode,
      (idx.createInode fileType mode uid gid rdev now).2.inodes.get i = some inode →
      idx.inodes.get i = some inode ∨ i = idx.nextIno ∧ inode.ino = i ∧
        inode.fileType = fileType ∧
        inode.nlink = if fileType = .directory then 1 else 0 := by
    intro i inode stored
    simp only [Index.createInode, touched, GoMap.get_set] at stored
    by_cases isNew : i = idx.nextIno
    · rw [if_pos isNew] at stored
      cases stored
      exact Or.inr ⟨isNew, isNew.symm, rfl, rfl⟩
    · rw [if_neg isNew] at stored
      exact Or.inl stored
  have shape := createInode_keeps idx fileType mode uid gid rdev now
  have dirKeys := shape.dirs ns.dirKeys fun i inode stored => (ns.numbers i inode stored).2
  refine ⟨?_, (counts _).trans ns.rootUnnamed, ?_, fun p n c => parents_of_dirKeys dirKeys, ?_, ?_,
    ?_, ?_, ?_, dirKeys, ?_, ?_⟩
  · obtain ⟨inode, stored, isDirectory⟩ := ns.root
    exact ⟨inode, older _ inode stored, isDirectory⟩
  · intro i inode stored
    have next : (idx.createInode fileType mode uid gid rdev now).2.nextIno = idx.nextIno + 1 := rfl
    rw [next]
    rcases inodes i inode stored with old | ⟨rfl, number, -⟩
    · obtain ⟨number, below⟩ := ns.numbers i inode old
      exact ⟨number, Nat.lt_succ_of_lt below⟩
    · exact ⟨number, Nat.lt_succ_self _⟩
  · intro p n c named
    rw [entries] at named
    obtain ⟨inode, stored⟩ := ns.children p n c named
    exact ⟨inode, older _ inode stored⟩
  · intro i inode stored
    rw [counts]
    rcases inodes i inode stored with old | ⟨rfl, -, isType, nlink⟩
    · exact ns.nlink i inode old
    · rw [nlink, isType, ns.names_of_absent ns.fresh, Nat.zero_add]
  · intro i inode stored isDirectory
    rw [counts]
    rcases inodes i inode stored with old | ⟨rfl, -⟩
    · exact ns.single i inode old isDirectory
    · rw [ns.names_of_absent ns.fresh]
      exact Nat.zero_le 1
  · refine ns.acyclic.mono ?_
    rintro p c ⟨n, named⟩
    refine ⟨n, ?_⟩
    rw [← entries]
    exact named
  · intro i
    simp only [Index.createInode, touched]
    by_cases isNew : i = idx.nextIno
    · subst isNew
      have absent : ¬ ∃ exts, idx.extents.get idx.nextIno = some exts := by
        rw [ns.extentKeys, ns.fresh]
        rintro ⟨inode, stored, -⟩
        cases stored
      by_cases isRegular : fileType = .regular
      · simp only [if_pos isRegular, GoMap.get_set_self]
        exact ⟨fun _ => ⟨_, rfl, isRegular⟩, fun _ => ⟨_, rfl⟩⟩
      · simp only [if_neg isRegular, GoMap.get_set_self]
        constructor
        · intro present
          exact absurd present absent
        · rintro ⟨inode, stored, isType⟩
          cases stored
          exact absurd isType isRegular
    · have sameInode : ∀ new, (idx.inodes.set idx.nextIno new).get i = idx.inodes.get i :=
        fun new => GoMap.get_set_ne _ _ isNew
      rw [sameInode, ← ns.extentKeys i]
      split_ifs
      · rw [GoMap.get_set_ne _ _ isNew]
      · rfl
  · intro i target stored
    obtain ⟨inode, found, isSymlink⟩ := ns.symlinkKeys i target stored
    exact ⟨inode, older i inode found, isSymlink⟩
  · intro i attrs stored
    obtain ⟨inode, found⟩ := ns.xattrKeys i attrs stored
    exact ⟨inode, older i inode found⟩

/-! ### Changes of entries -/

/-- What a change of entries and link counts keeps. -/
structure SameNodes (idx idx' : Index) : Prop where
  nodes : ∀ i, (idx'.inodes.get i).map (fun inode => (inode.ino, inode.fileType)) =
    (idx.inodes.get i).map fun inode => (inode.ino, inode.fileType)
  dirs : ∀ i, (∃ children, idx'.dirIndex.get i = some children) ↔
    ∃ children, idx.dirIndex.get i = some children
  nextIno : idx'.nextIno = idx.nextIno
  extents : idx'.extents = idx.extents
  symlinks : idx'.symlinks = idx.symlinks
  xattrs : idx'.xattrs = idx.xattrs

theorem SameNodes.symm (same : SameNodes idx idx') : SameNodes idx' idx :=
  ⟨fun i => (same.nodes i).symm, fun i => (same.dirs i).symm, same.nextIno.symm, same.extents.symm,
    same.symlinks.symm, same.xattrs.symm⟩

theorem SameNodes.get (same : SameNodes idx idx') {i : Ino} {inode : Inode}
    (stored : idx'.inodes.get i = some inode) :
    ∃ old, idx.inodes.get i = some old ∧ inode.ino = old.ino ∧ inode.fileType = old.fileType := by
  have nodes := same.nodes i
  rw [stored] at nodes
  obtain ⟨old, found, tags⟩ := Option.map_eq_some_iff.mp nodes.symm
  obtain ⟨ino, fileType⟩ := Prod.mk.inj tags
  exact ⟨old, found, ino.symm, fileType.symm⟩

theorem SameNodes.exists_get (same : SameNodes idx idx') {i : Ino} {fileType : FileType}
    (present : ∃ inode, idx.inodes.get i = some inode ∧ inode.fileType = fileType) :
    ∃ inode, idx'.inodes.get i = some inode ∧ inode.fileType = fileType := by
  obtain ⟨inode, stored, isType⟩ := present
  obtain ⟨new, found, -, sameType⟩ := same.symm.get stored
  exact ⟨new, found, sameType.symm.trans isType⟩

theorem SameNodes.exists_inode (same : SameNodes idx idx') {i : Ino}
    (present : ∃ inode, idx.inodes.get i = some inode) :
    ∃ inode, idx'.inodes.get i = some inode := by
  obtain ⟨inode, stored⟩ := present
  obtain ⟨new, found, -⟩ := same.symm.get stored
  exact ⟨new, found⟩

/-- The parts of the invariant that speak of entries and link counts suffice. -/
theorem Namespace.of_sameNodes (ns : idx.Namespace) (same : SameNodes idx idx')
    (rootUnnamed : idx'.names rootIno = 0)
    (children : ∀ p n c, idx'.entry p n = some c → ∃ inode, idx.inodes.get c = some inode)
    (nlink : ∀ i inode, idx'.inodes.get i = some inode →
      inode.nlink = idx'.names i + if inode.fileType = .directory then 1 else 0)
    (single : ∀ i inode, idx.inodes.get i = some inode → inode.fileType = .directory →
      idx'.names i ≤ 1)
    (acyclic : Acyclic idx'.HasChild) : idx'.Namespace := by
  have dirKeys : idx'.DirsMatch := by
    intro i
    rw [same.dirs, ns.dirKeys i]
    exact ⟨same.exists_get, same.symm.exists_get⟩
  refine ⟨same.exists_get ns.root, rootUnnamed, ?_, fun p n c => parents_of_dirKeys dirKeys, ?_,
    nlink, ?_, acyclic, ?_, dirKeys, ?_, ?_⟩
  · intro i inode stored
    obtain ⟨old, found, ino, -⟩ := same.get stored
    rw [ino, same.nextIno]
    exact ns.numbers i old found
  · exact fun p n c named => same.exists_inode (children p n c named)
  · intro i inode stored isDirectory
    obtain ⟨old, found, -, fileType⟩ := same.get stored
    exact single i old found (fileType.symm.trans isDirectory)
  · intro i
    rw [same.extents, ns.extentKeys i]
    exact ⟨same.exists_get, same.symm.exists_get⟩
  · intro i target stored
    rw [same.symlinks] at stored
    exact same.exists_get (ns.symlinkKeys i target stored)
  · intro i attrs stored
    rw [same.xattrs] at stored
    exact same.exists_inode (ns.xattrKeys i attrs stored)

/-- An inode updated in place keeps number and type. -/
theorem nodes_modify (inodes : GoMap Ino Inode) (target : Ino) {f : Inode → Inode}
    (keeps : ∀ inode, (f inode).ino = inode.ino ∧ (f inode).fileType = inode.fileType) (i : Ino) :
    ((inodes.modify target f).get i).map (fun inode => (inode.ino, inode.fileType)) =
      (inodes.get i).map fun inode => (inode.ino, inode.fileType) :=
  GoMap.map_get_modify inodes target fun _ inode => Prod.ext (keeps inode).1 (keeps inode).2

/-- The entries after one was added. -/
theorem entry_add {children : GoMap Name Ino} (stored : idx.dirIndex.get parent = some children)
    (same : idx'.dirIndex = idx.dirIndex.set parent (children.set name child)) (p : Ino)
    (n : Name) :
    idx'.entry p n = if p = parent ∧ n = name then some child else idx.entry p n := by
  unfold Index.entry
  rw [same, GoMap.get_set]
  by_cases isParent : p = parent
  · subst isParent
    rw [if_pos rfl, stored, Option.bind_some, Option.bind_some, GoMap.get_set]
    simp only [true_and]
  · rw [if_neg isParent, if_neg fun both => isParent both.1]

/-- Only directories lead anywhere. -/
theorem Namespace.eq_of_reach (ns : idx.Namespace) {i target : Ino}
    (reach : ReflTransGen idx.HasChild i target) (notDirectory : idx.typeOf i ≠ some .directory) :
    target = i := by
  rcases reach.cases_head with same | ⟨next, ⟨n, named⟩, -⟩
  · exact same.symm
  · obtain ⟨inode, stored, isDirectory⟩ := ns.parents i n next named
    exact absurd (typeOf_eq_some.mpr ⟨inode, stored, isDirectory⟩) notDirectory

/-- An entry is added for an inode other than the root: for a file, or for a
directory that has no name and does not lead to its new parent. -/
theorem Namespace.addDirEntry (ns : idx.Namespace) {now : Int}
    (applied : idx.addDirEntry parent name child now = .ok idx')
    (notRoot : child ≠ rootIno) (room : idx.names child < 4294967295)
    (mayLink : idx.typeOf child = some .directory →
      idx.names child = 0 ∧ ¬ ReflTransGen idx.HasChild child parent) : idx'.Namespace := by
  obtain ⟨parentInode, childInode, children, known, isDirectory, found, stored, absent, result⟩ :=
    addDirEntry_ok applied
  have dirs : idx'.dirIndex = idx.dirIndex.set parent (children.set name child) := by
    rw [result]
    rfl
  have inodes : idx'.inodes =
      (idx.inodes.modify child (gainLink now)).modify parent
        (stampParent now) := by
    rw [result]
    rfl
  have same : SameNodes idx idx' := by
    refine ⟨fun i => ?_, fun i => ?_, by rw [result]; rfl, by rw [result]; rfl, by rw [result]; rfl,
      by rw [result]; rfl⟩
    · rw [inodes]
      exact (nodes_modify _ parent (f := stampParent now) (fun _ => ⟨rfl, rfl⟩) i).trans
        (nodes_modify _ child (f := gainLink now) (fun _ => ⟨rfl, rfl⟩) i)
    · rw [dirs]
      exact exists_get_set stored _ i
  have counts : ∀ i, idx'.names i = (if child = i then 1 else 0) + idx.names i := by
    intro i
    unfold names
    rw [dirs]
    exact namesOf_add stored absent child i
  have entries := fun p n => entry_add (p := p) (n := n) stored dirs
  refine ns.of_sameNodes same ?_ ?_ ?_ ?_ ?_
  · rw [counts, if_neg notRoot, ns.rootUnnamed]
  · intro p n c named
    rw [entries] at named
    split_ifs at named
    · cases named
      exact ⟨childInode, found⟩
    · exact ns.children p n c named
  · intro i inode present
    have tags : idx'.tag i = ((idx.inodes.modify child (gainLink now)).get i).map tagOf := by
      unfold tag
      rw [inodes, tag_modify _ _ (tagOf_stampParent now)]
    unfold tag at tags
    rw [present, GoMap.get_modify] at tags
    rw [counts]
    by_cases isChild : child = i
    · subst isChild
      rw [if_pos rfl, found] at tags
      obtain ⟨-, rest⟩ := Prod.mk.inj (Option.some.inj tags)
      obtain ⟨fileType, nlink⟩ := Prod.mk.inj rest
      have old := ns.nlink child childInode found
      have below : childInode.nlink ≠ 4294967295 := by
        by_cases isDir : childInode.fileType = .directory
        · have unnamed := (mayLink (typeOf_eq_some.mpr ⟨childInode, found, isDir⟩)).1
          rw [if_pos isDir] at old
          omega
        · rw [if_neg isDir] at old
          omega
      have gained : (gainLink now childInode).nlink = childInode.nlink + 1 := if_neg below
      have sameType : inode.fileType = childInode.fileType := fileType
      rw [nlink, gained, old, sameType, if_pos rfl]
      omega
    · rw [if_neg (Ne.symm isChild)] at tags
      obtain ⟨old, was, sameTag⟩ := Option.map_eq_some_iff.mp tags.symm
      obtain ⟨-, rest⟩ := Prod.mk.inj sameTag
      obtain ⟨fileType, nlink⟩ := Prod.mk.inj rest
      rw [← nlink, ← fileType, if_neg isChild, Nat.zero_add]
      exact ns.nlink i old was
  · intro i inode present isDir
    rw [counts]
    by_cases isChild : child = i
    · subst isChild
      rw [(mayLink (typeOf_eq_some.mpr ⟨inode, present, isDir⟩)).1, if_pos rfl]
    · rw [if_neg isChild, Nat.zero_add]
      exact ns.single i inode present isDir
  · refine ns.acyclic.insert (a := parent) (b := child) ?_ ?_
    · rintro p c ⟨n, named⟩
      rw [entries] at named
      split_ifs at named with isNew
      · exact Or.inr ⟨isNew.1, (Option.some.inj named).symm⟩
      · exact Or.inl ⟨n, named⟩
    · intro reach
      by_cases isDir : idx.typeOf child = some .directory
      · exact (mayLink isDir).2 reach
      · rw [← ns.eq_of_reach reach isDir] at isDir
        exact isDir (typeOf_eq_some.mpr ⟨parentInode, known, isDirectory⟩)

/-! ### Taking a name away -/

theorem entry_deleteEntry (idx : Index) (parent : Ino) (name : Name) (p : Ino) (n : Name) :
    (idx.deleteEntry parent name).entry p n =
      if p = parent ∧ n = name then none else idx.entry p n := by
  unfold Index.entry deleteEntry
  dsimp only
  rw [GoMap.get_modify]
  by_cases isParent : p = parent
  · subst isParent
    rw [if_pos rfl]
    cases idx.dirIndex.get p with
    | none => simp
    | some children =>
        rw [Option.map_some, Option.bind_some, Option.bind_some, GoMap.get_delete]
        simp only [true_and]
  · rw [if_neg isParent, if_neg fun both => isParent both.1]

theorem names_deleteEntry (named : idx.entry parent name = some child) (i : Ino) :
    idx.names i = (if child = i then 1 else 0) + (idx.deleteEntry parent name).names i := by
  obtain ⟨children, stored, found⟩ := entry_eq_some.mp named
  exact namesOf_remove stored found i

/-- A child that may be unlinked has no entries. -/
theorem Namespace.childless (ns : idx.Namespace) {inode : Inode}
    (found : idx.inodes.get child = some inode)
    (empty : ¬ (inode.fileType = .directory ∧ idx.hasChildren child = true))
    (children : GoMap Name Ino) (stored : idx.dirIndex.get child = some children) :
    children = ∅ := by
  obtain ⟨directory, same, isDirectory⟩ := (ns.dirKeys child).mp ⟨children, stored⟩
  cases found.symm.trans same
  by_contra nonempty
  refine empty ⟨isDirectory, ?_⟩
  unfold hasChildren
  rw [stored]
  exact decide_eq_true nonempty

theorem Namespace.entry_of_childless (empty : ∀ children, idx.dirIndex.get child = some children →
    children = ∅) (n : Name) : idx.entry child n = none := by
  unfold Index.entry
  cases stored : idx.dirIndex.get child with
  | none => rfl
  | some children =>
      rw [empty children stored]
      rfl

/-- A named inode has a link to lose, and is freed with its last name. -/
theorem Namespace.loses (ns : idx.Namespace) (named : idx.entry parent name = some child)
    {inode : Inode} (found : idx.inodes.get child = some inode) :
    loseLink inode.nlink + 1 = inode.nlink ∧
      (loseLink inode.nlink ≤ freeThreshold inode ↔ idx.names child = 1) := by
  have nlink := ns.nlink child inode found
  have positive := names_pos named
  have lower : loseLink inode.nlink = inode.nlink - 1 := if_neg (by omega)
  have threshold : freeThreshold inode = if inode.fileType = .directory then 1 else 0 := rfl
  rw [← threshold] at nlink
  exact ⟨by omega, by omega⟩

/-- The entries once a freed child has gone. -/
theorem entry_free (empty : ∀ children, idx.dirIndex.get child = some children → children = ∅)
    (p : Ino) (n : Name) : (idx.free child).entry p n = idx.entry p n := by
  by_cases isChild : p = child
  · subst isChild
    rw [Namespace.entry_of_childless empty]
    unfold Index.entry free
    dsimp only
    rw [GoMap.get_delete_self]
    rfl
  · unfold Index.entry free
    dsimp only
    rw [GoMap.get_delete_ne _ isChild]

/-- A free removes an inode that nothing names. -/
theorem get_free (i : Ino) :
    (idx.free child).inodes.get i = if i = child then none else idx.inodes.get i :=
  GoMap.get_delete _ _ _

/-- An index without one entry, whose child has been freed with its last name. -/
theorem Namespace.free (ns : idx.Namespace) (named : idx.entry parent name = some child)
    (empty : ∀ children, idx.dirIndex.get child = some children → children = ∅)
    (last : idx.names child = 1) : ((idx.deleteEntry parent name).free child).Namespace := by
  have apart : parent ≠ child := by
    rintro rfl
    exact ns.acyclic.irrefl _ ⟨name, named⟩
  have stillEmpty : ∀ children, (idx.deleteEntry parent name).dirIndex.get child = some children →
      children = ∅ := by
    intro children stored
    exact empty children ((GoMap.get_modify_ne _ _ apart.symm).symm.trans stored)
  have entries : ∀ p n, ((idx.deleteEntry parent name).free child).entry p n =
      if p = parent ∧ n = name then none else idx.entry p n := fun p n =>
    (entry_free stillEmpty p n).trans (entry_deleteEntry idx parent name p n)
  have smaller : ∀ p n c, ((idx.deleteEntry parent name).free child).entry p n = some c →
      idx.entry p n = some c := by
    intro p n c found
    rw [entries] at found
    split_ifs at found
    exact found
  have counts : ∀ i, idx.names i =
      (if child = i then 1 else 0) + ((idx.deleteEntry parent name).free child).names i := by
    intro i
    rw [names_deleteEntry named i]
    exact congrArg _ (namesOf_delete_empty stillEmpty i).symm
  have gone : ((idx.deleteEntry parent name).free child).names child = 0 := by
    have count := counts child
    rw [last, if_pos rfl] at count
    omega
  have inodes : ∀ i inode, ((idx.deleteEntry parent name).free child).inodes.get i = some inode →
      i ≠ child ∧ idx.inodes.get i = some inode := by
    intro i inode stored
    rw [get_free] at stored
    split_ifs at stored with isChild
    exact ⟨isChild, stored⟩
  have kept : ∀ i inode, i ≠ child → idx.inodes.get i = some inode →
      ((idx.deleteEntry parent name).free child).inodes.get i = some inode := by
    intro i inode isOther stored
    rw [get_free, if_neg isOther]
    exact stored
  have others : ∀ i, i ≠ child →
      ((idx.deleteEntry parent name).free child).names i = idx.names i := by
    intro i isOther
    rw [counts i, if_neg isOther.symm, Nat.zero_add]
  have notRoot : rootIno ≠ child := by
    rintro rfl
    rw [ns.rootUnnamed] at last
    cases last
  have dirKeys : ((idx.deleteEntry parent name).free child).DirsMatch := by
    intro i
    by_cases isChild : i = child
    · subst isChild
      rw [get_free, if_pos rfl]
      simp only [Index.free, GoMap.get_delete_self]
      constructor <;> rintro ⟨_, absurdity⟩
      · cases absurdity
      · cases absurdity.1
    · rw [get_free, if_neg isChild]
      simp only [Index.free, GoMap.get_delete_ne _ isChild]
      exact (exists_get_modify _ _ i).trans (ns.dirKeys i)
  refine ⟨?_, ?_, ?_, fun p n c => parents_of_dirKeys dirKeys, ?_, ?_, ?_, ?_, ?_, dirKeys, ?_, ?_⟩
  · obtain ⟨inode, stored, isDirectory⟩ := ns.root
    exact ⟨inode, kept _ inode notRoot stored, isDirectory⟩
  · rw [others _ notRoot, ns.rootUnnamed]
  · intro i inode stored
    exact ns.numbers i inode (inodes i inode stored).2
  · intro p n c found
    obtain ⟨inode, stored⟩ := ns.children p n c (smaller p n c found)
    refine ⟨inode, kept c inode ?_ stored⟩
    rintro rfl
    exact absurd gone (Nat.ne_of_gt (names_pos found))
  · intro i inode stored
    obtain ⟨isOther, was⟩ := inodes i inode stored
    rw [others i isOther]
    exact ns.nlink i inode was
  · intro i inode stored isDirectory
    obtain ⟨isOther, was⟩ := inodes i inode stored
    rw [others i isOther]
    exact ns.single i inode was isDirectory
  · refine ns.acyclic.mono ?_
    rintro p c ⟨n, found⟩
    exact ⟨n, smaller p n c found⟩
  · intro i
    by_cases isChild : i = child
    · subst isChild
      rw [get_free, if_pos rfl]
      simp only [Index.free, GoMap.get_delete_self]
      constructor <;> rintro ⟨_, absurdity⟩
      · cases absurdity
      · cases absurdity.1
    · rw [get_free, if_neg isChild]
      simp only [Index.free, GoMap.get_delete_ne _ isChild]
      exact ns.extentKeys i
  · intro i target stored
    simp only [Index.free, GoMap.get_delete] at stored
    split_ifs at stored with isChild
    obtain ⟨inode, found, isSymlink⟩ := ns.symlinkKeys i target stored
    exact ⟨inode, kept i inode isChild found, isSymlink⟩
  · intro i attrs stored
    simp only [Index.free, GoMap.get_delete] at stored
    split_ifs at stored with isChild
    obtain ⟨inode, found⟩ := ns.xattrKeys i attrs stored
    exact ⟨inode, kept i inode isChild found⟩

/-- An entry is removed and its child unlinked. -/
theorem Namespace.unlink (ns : idx.Namespace) (named : idx.entry parent name = some child)
    {inode : Inode} (found : idx.inodes.get child = some inode)
    (empty : ¬ (inode.fileType = .directory ∧ idx.hasChildren child = true))
    (stamp : Inode → Inode) (keeps : ∀ inode, tagOf (stamp inode) = tagOf inode) :
    ((idx.deleteEntry parent name).unlinkChild child inode stamp).Namespace := by
  obtain ⟨lower, freedIff⟩ := ns.loses named found
  rcases unlinkChild_cases (idx.deleteEntry parent name) child inode stamp with
    ⟨freed, result⟩ | ⟨stays, result⟩
  · rw [result]
    exact ns.free named (ns.childless found empty) (freedIff.mp freed)
  · generalize (idx.deleteEntry parent name).unlinkChild child inode stamp = after at result ⊢
    have dirs : after.dirIndex = (idx.deleteEntry parent name).dirIndex := by rw [result]
    have inodes : after.inodes = idx.inodes.modify child fun inode =>
        stamp { inode with nlink := loseLink inode.nlink } := by rw [result]; rfl
    have counts : ∀ i, idx.names i = (if child = i then 1 else 0) + after.names i := by
      intro i
      rw [names_deleteEntry named i]
      unfold names
      rw [dirs]
    have entries : ∀ p n, after.entry p n =
        if p = parent ∧ n = name then none else idx.entry p n := by
      intro p n
      rw [← entry_deleteEntry]
      unfold Index.entry
      rw [dirs]
    have same : SameNodes idx after := by
      refine ⟨fun i => ?_, fun i => ?_, by rw [result]; rfl, by rw [result]; rfl,
        by rw [result]; rfl, by rw [result]; rfl⟩
      · rw [inodes]
        refine nodes_modify _ child (fun inode => ?_) i
        obtain ⟨ino, rest⟩ := Prod.mk.inj (keeps { inode with nlink := loseLink inode.nlink })
        exact ⟨ino, (Prod.mk.inj rest).1⟩
      · rw [dirs]
        exact exists_get_modify _ _ i
    refine ns.of_sameNodes same ?_ ?_ ?_ ?_ ?_
    · have count := counts rootIno
      rw [ns.rootUnnamed] at count
      omega
    · intro p n c present
      rw [entries] at present
      split_ifs at present
      exact ns.children p n c present
    · intro i changed present
      have count := counts i
      rw [inodes, GoMap.get_modify] at present
      by_cases isChild : i = child
      · subst isChild
        rw [if_pos rfl, found, Option.map_some, Option.some_inj] at present
        obtain ⟨-, rest⟩ := Prod.mk.inj (keeps { inode with nlink := loseLink inode.nlink })
        obtain ⟨fileType, nlink⟩ := Prod.mk.inj rest
        have old := ns.nlink i inode found
        rw [← present, nlink, fileType]
        dsimp only
        rw [if_pos rfl] at count
        omega
      · rw [if_neg isChild] at present
        rw [if_neg (Ne.symm isChild), Nat.zero_add] at count
        rw [← count]
        exact ns.nlink i changed present
    · intro i old present isDirectory
      have count := counts i
      have single := ns.single i old present isDirectory
      omega
    · refine ns.acyclic.mono fun p c ⟨n, present⟩ => ⟨n, ?_⟩
      rw [entries] at present
      split_ifs at present
      exact present

/-- The entries once a child has been unlinked. -/
theorem Namespace.entry_unlink (ns : idx.Namespace) (named : idx.entry parent name = some child)
    {inode : Inode} (found : idx.inodes.get child = some inode)
    (empty : ¬ (inode.fileType = .directory ∧ idx.hasChildren child = true))
    (stamp : Inode → Inode) (p : Ino) (n : Name) :
    ((idx.deleteEntry parent name).unlinkChild child inode stamp).entry p n =
      if p = parent ∧ n = name then none else idx.entry p n := by
  rw [← entry_deleteEntry]
  rcases unlinkChild_cases (idx.deleteEntry parent name) child inode stamp with
    ⟨-, result⟩ | ⟨-, result⟩ <;> rw [result]
  · apply entry_free
    intro children stored
    have apart : child ≠ parent := by
      rintro rfl
      exact ns.acyclic.irrefl _ ⟨name, named⟩
    exact ns.childless found empty children ((GoMap.get_modify_ne _ _ apart).symm.trans stored)
  · rfl

/-- Inodes that keep their tags keep the tree. -/
theorem SameTree.of_inodes {inodes : GoMap Ino Inode}
    (tags : ∀ i, (inodes.get i).map tagOf = idx.tag i) (dirty remote : Bool) :
    SameTree idx { idx with inodes := inodes, dirty := dirty, remoteDirty := remote } :=
  ⟨tags, rfl, rfl, fun _ => Iff.rfl, fun _ target stored => Or.inl ⟨target, stored⟩,
    fun _ attrs stored => Or.inl ⟨attrs, stored⟩⟩

/-- The entries after a removal. -/
theorem Namespace.entry_removeDirEntry (ns : idx.Namespace) {now : Int}
    (applied : idx.removeDirEntry parent name now = .ok idx') (p : Ino) (n : Name) :
    idx'.entry p n = if p = parent ∧ n = name then none else idx.entry p n := by
  obtain ⟨_, child, inode, _, -, named, found, empty, rfl, rfl⟩ := removeDirEntry_ok applied
  exact ns.entry_unlink named found empty (fun inode => { inode with ctime := now }) p n

theorem Namespace.removeDirEntry (ns : idx.Namespace) {now : Int}
    (applied : idx.removeDirEntry parent name now = .ok idx') : idx'.Namespace := by
  obtain ⟨_, child, inode, unlinked, -, named, found, empty, rfl, rfl⟩ := removeDirEntry_ok applied
  refine (ns.unlink named found empty (fun inode => { inode with ctime := now })
    fun _ => rfl).of_sameTree (.of_inodes (fun i => ?_) true true)
  exact tag_modify _ _ (tagOf_stampParent now) i

/-- What is unlinked and still there has another name. -/
theorem Namespace.named_of_unlinked (ns : idx.Namespace)
    (named : idx.entry parent name = some child) {inode : Inode}
    (found : idx.inodes.get child = some inode) {stamp : Inode → Inode}
    (present : (idx.unlinkChild child inode stamp).typeOf child ≠ none) :
    ∃ p n, ¬ (p = parent ∧ n = name) ∧ idx.entry p n = some child := by
  obtain ⟨-, freedIff⟩ := ns.loses named found
  rcases unlinkChild_cases idx child inode stamp with ⟨-, result⟩ | ⟨stays, -⟩
  · rw [result, typeOf, get_free, if_pos rfl] at present
    exact absurd rfl present
  · have several : idx.names child ≠ 1 := fun last =>
      absurd (freedIff.mpr last) (Nat.not_le.mpr stays)
    have count := names_deleteEntry named child
    rw [if_pos rfl] at count
    obtain ⟨p, n, still⟩ := exists_entry_of_names
      (show 0 < (idx.deleteEntry parent name).names child by have := names_pos named; omega)
    rw [entry_deleteEntry] at still
    split_ifs at still with isIt
    exact ⟨p, n, isIt, still⟩

/-! ### Moving an entry -/

section Move

variable {srcParent dstParent : Ino} {srcName dstName : Name} {now : Int}

/-- Two deletions of entries commute. -/
theorem get_deleteEntry_deleteEntry (idx : Index) (srcParent : Ino) (srcName : Name)
    (dstParent : Ino) (dstName : Name) (k : Ino) :
    ((idx.deleteEntry dstParent dstName).deleteEntry srcParent srcName).dirIndex.get k =
      if k = dstParent then
        ((idx.deleteEntry srcParent srcName).dirIndex.get k).map fun children =>
          children.delete dstName
      else (idx.deleteEntry srcParent srcName).dirIndex.get k := by
  have commute : ∀ children : GoMap Name Ino, (children.delete dstName).delete srcName =
      (children.delete srcName).delete dstName := by
    intro children
    apply GoMap.ext
    intro n
    simp only [GoMap.get_delete]
    split_ifs <;> rfl
  simp only [deleteEntry, GoMap.get_modify]
  by_cases isSrc : k = srcParent <;> by_cases isDst : k = dstParent
  · subst isSrc
    subst isDst
    simp only [if_true, Option.map_map]
    cases idx.dirIndex.get k with
    | none => rfl
    | some children => exact congrArg some (commute children)
  · rw [if_pos isSrc, if_neg isDst, if_pos isSrc, if_neg (isSrc ▸ isDst)]
  · subst isDst
    rw [if_neg isSrc, if_pos rfl, if_neg isSrc, if_pos rfl]
  · simp only [if_neg isSrc, if_neg isDst]

/-- The entry that a move writes over may as well be deleted first. -/
theorem moveEntry_deleteEntry (idx : Index) (srcParent : Ino) (srcName : Name) (dstParent : Ino)
    (dstName : Name) (child : Ino) (now : Int) :
    (idx.deleteEntry dstParent dstName).moveEntry srcParent srcName dstParent dstName child now =
      idx.moveEntry srcParent srcName dstParent dstName child now := by
  have both := get_deleteEntry_deleteEntry idx srcParent srcName dstParent dstName
  unfold moveEntry
  dsimp only
  rw [both dstParent, if_pos rfl]
  cases stored : (idx.deleteEntry srcParent srcName).dirIndex.get dstParent with
  | none => rfl
  | some children =>
      have dirs : ((idx.deleteEntry dstParent dstName).deleteEntry srcParent srcName).dirIndex.set
          dstParent ((children.delete dstName).set dstName child) =
            (idx.deleteEntry srcParent srcName).dirIndex.set dstParent
              (children.set dstName child) := by
        apply GoMap.ext
        intro k
        rw [GoMap.get_set, GoMap.get_set, GoMap.set_delete, both k]
        split_ifs <;> rfl
      simp only [Option.map_some, dirs]
      rfl

/-- Unlinking a child and deleting an entry commute. -/
theorem unlinkChild_deleteEntry (idx : Index) (parent : Ino) (name : Name) (child : Ino)
    (inode : Inode) (stamp : Inode → Inode) :
    (idx.deleteEntry parent name).unlinkChild child inode stamp =
      (idx.unlinkChild child inode stamp).deleteEntry parent name := by
  unfold unlinkChild
  split_ifs
  · have dirs : (idx.dirIndex.modify parent fun children => children.delete name).delete child =
        (idx.dirIndex.delete child).modify parent fun children => children.delete name := by
      apply GoMap.ext
      intro k
      simp only [GoMap.get_delete, GoMap.get_modify]
      split_ifs <;> simp_all
    simp only [Index.free, deleteEntry, dirs]
  · rfl

/-- The entries after a move. -/
theorem entry_moveEntry
    (applied : idx.moveEntry srcParent srcName dstParent dstName child now = .ok idx') (p : Ino)
    (n : Name) : idx'.entry p n = if p = dstParent ∧ n = dstName then some child
      else if p = srcParent ∧ n = srcName then none else idx.entry p n := by
  obtain ⟨children, _, stored, -, rfl⟩ := moveEntry_ok applied
  rw [← entry_deleteEntry]
  exact entry_add stored rfl p n

theorem tag_moveEntry
    (applied : idx.moveEntry srcParent srcName dstParent dstName child now = .ok idx') (i : Ino) :
    idx'.tag i = idx.tag i := by
  obtain ⟨_, stamped, -, rfl, rfl⟩ := moveEntry_ok applied
  have stamps : ∀ inode : Inode, tagOf { inode with ctime := now } = tagOf inode := fun _ => rfl
  simp only [tag, touched]
  split_ifs <;> simp only [tag_modify _ _ (tagOf_stampParent now), tag_modify _ _ stamps]

/-- An entry moves to a free name in a directory that is not below its child. -/
theorem Namespace.moveEntry (ns : idx.Namespace)
    (named : idx.entry srcParent srcName = some child)
    (isFree : idx.entry dstParent dstName = none)
    (apart : ¬ ReflTransGen idx.HasChild child dstParent)
    (applied : idx.moveEntry srcParent srcName dstParent dstName child now = .ok idx') :
    idx'.Namespace := by
  have entries := entry_moveEntry applied
  have tags := tag_moveEntry applied
  obtain ⟨children, _, stored, -, result⟩ := moveEntry_ok applied
  have absent : children.get dstName = none := by
    have gone : (idx.deleteEntry srcParent srcName).entry dstParent dstName = none := by
      rw [entry_deleteEntry, isFree, ite_self]
    unfold Index.entry at gone
    rw [stored] at gone
    exact gone
  have counts : ∀ i, idx'.names i = idx.names i := by
    intro i
    rw [names_deleteEntry named i, result]
    exact namesOf_add stored absent child i
  have same : SameNodes idx idx' := by
    refine ⟨fun i => ?_, fun i => ?_, by rw [result]; rfl, by rw [result]; rfl, by rw [result]; rfl,
      by rw [result]; rfl⟩
    · have forget := congrArg (Option.map fun tag : Ino × FileType × Nat => (tag.1, tag.2.1))
        (tags i)
      rw [tag, tag, Option.map_map, Option.map_map] at forget
      exact forget
    · rw [result]
      exact (exists_get_set stored _ i).trans (exists_get_modify _ _ i)
  refine ns.of_sameNodes same ?_ ?_ ?_ ?_ ?_
  · rw [counts, ns.rootUnnamed]
  · intro p n c present
    rw [entries] at present
    split_ifs at present
    · cases present
      exact ns.children _ _ _ named
    · exact ns.children p n c present
  · intro i inode present
    obtain ⟨old, was, -, fileType, nlink⟩ := get_of_tag (tags i) present
    rw [counts, nlink, fileType]
    exact ns.nlink i old was
  · intro i inode present isDirectory
    rw [counts]
    exact ns.single i inode present isDirectory
  · refine ns.acyclic.insert (a := dstParent) (b := child) ?_ apart
    rintro p c ⟨n, present⟩
    rw [entries] at present
    split_ifs at present with isDst
    · exact Or.inr ⟨isDst.1, (Option.some.inj present).symm⟩
    · exact Or.inl ⟨n, present⟩

/-- What the kernel makes sure of before a rename: the target is in an existing
directory, the entries do not name the same inode, and no directory moves into
itself. -/
structure MayRename (idx : Index) (srcParent : Ino) (srcName : Name) (dstParent : Ino)
    (dstName : Name) : Prop where
  target : idx.typeOf dstParent = some .directory
  different : ∀ child, idx.entry srcParent srcName = some child →
    idx.entry dstParent dstName ≠ some child
  outside : ∀ child, idx.entry srcParent srcName = some child →
    ¬ ReflTransGen idx.HasChild child dstParent

/-- A child without entries leads to itself only. -/
theorem MayRename.of_childless (target : idx.typeOf dstParent = some .directory)
    (apart : ∀ child ∈ idx.entry srcParent srcName, idx.entry dstParent dstName ≠ some child ∧
      child ≠ dstParent ∧ idx.hasChildren child = false) :
    idx.MayRename srcParent srcName dstParent dstName := by
  refine ⟨target, fun child named => (apart child named).1, fun child named reach => ?_⟩
  obtain ⟨-, notParent, empty⟩ := apart child named
  rcases reach.cases_head with same | ⟨next, ⟨n, present⟩, -⟩
  · exact notParent same
  · obtain ⟨children, stored, found⟩ := entry_eq_some.mp present
    unfold hasChildren at empty
    rw [stored] at empty
    rw [not_not.mp (of_decide_eq_false empty)] at found
    cases found

/-- The entries after a rename: the new one, without the old one. -/
theorem Namespace.entry_rename (ns : idx.Namespace)
    (applied : idx.rename srcParent srcName dstParent dstName now = .ok idx') :
    ∃ child, idx.entry srcParent srcName = some child ∧ ∀ p n, idx'.entry p n =
      if p = dstParent ∧ n = dstName then some child
      else if p = srcParent ∧ n = srcName then none else idx.entry p n := by
  obtain ⟨child, _, replaced, named, -, given, moved⟩ := rename_ok applied
  refine ⟨child, named, fun p n => ?_⟩
  rw [entry_moveEntry moved]
  rcases replaceDestination_ok given with ⟨-, rfl⟩ | ⟨dst, inode, -, found, empty, rfl⟩
  · rfl
  · rcases unlinkChild_cases idx dst inode id with ⟨-, result⟩ | ⟨-, result⟩ <;> rw [result]
    · rw [entry_free (ns.childless found empty)]
    · rfl

theorem Namespace.rename (ns : idx.Namespace)
    (may : idx.MayRename srcParent srcName dstParent dstName)
    (applied : idx.rename srcParent srcName dstParent dstName now = .ok idx') : idx'.Namespace := by
  obtain ⟨child, _, replaced, named, -, given, moved⟩ := rename_ok applied
  have apart := may.outside child named
  rcases replaceDestination_ok given with ⟨isFree, rfl⟩ | ⟨dst, dstInode, there, found, empty, rfl⟩
  · exact ns.moveEntry named isFree apart moved
  · -- The replaced entry may be taken away before the move.
    rw [← moveEntry_deleteEntry, ← unlinkChild_deleteEntry] at moved
    have entries := ns.entry_unlink there found empty id
    have other : ¬ (srcParent = dstParent ∧ srcName = dstName) := by
      rintro ⟨rfl, rfl⟩
      exact may.different child named named
    refine (ns.unlink there found empty id fun _ => rfl).moveEntry ?_ ?_ ?_ moved
    · rw [entries, if_neg other]
      exact named
    · rw [entries, if_pos ⟨rfl, rfl⟩]
    · intro reach
      refine apart (ReflTransGen.mono ?_ child dstParent reach)
      rintro p c ⟨n, present⟩
      refine ⟨n, ?_⟩
      rw [entries] at present
      split_ifs at present
      exact present

end Move

/-! ### Every mutator -/

theorem Namespace.sameTree_setAttr (ns : idx.Namespace) {ino : Ino} {change : AttrChange}
    {now : Int} (applied : idx.setAttr ino change now = .ok idx') : SameTree idx idx' := by
  obtain ⟨inode, stored, rfl⟩ := setAttr_ok applied
  have keeps : tagOf (change.apply now inode) = tagOf inode := by
    simp only [AttrChange.apply]
    split
    · rfl
    · split_ifs <;> rfl
  refine ⟨tag_set stored keeps, rfl, rfl, fun i => ?_,
    fun _ target found => Or.inl ⟨target, found⟩, fun _ attrs found => Or.inl ⟨attrs, found⟩⟩
  simp only [touched]
  split
  · rfl
  · split_ifs with resized
    · obtain ⟨exts, listed⟩ := (ns.extentKeys ino).mpr ⟨inode, stored, resized.2⟩
      exact exists_get_set listed _ i
    · rfl

theorem Namespace.sameTree_writeExtent (ns : idx.Namespace) {ino : Ino} {ext : Extent} {now : Int}
    (applied : idx.writeExtent ino ext now = .ok idx') : SameTree idx idx' := by
  obtain ⟨inode, stored, isRegular, rfl⟩ := writeExtent_ok applied
  have keeps : tagOf (recordWrite ext now inode) = tagOf inode := by
    unfold recordWrite
    split_ifs <;> rfl
  obtain ⟨exts, listed⟩ := (ns.extentKeys ino).mpr ⟨inode, stored, isRegular⟩
  exact ⟨tag_set stored keeps, rfl, rfl, exists_get_set listed _,
    fun _ target found => Or.inl ⟨target, found⟩, fun _ attrs found => Or.inl ⟨attrs, found⟩⟩

theorem sameTree_setSymlink {ino : Ino} {target : Name} {now : Int}
    (applied : idx.setSymlink ino target now = .ok idx') : SameTree idx idx' := by
  obtain ⟨inode, stored, isSymlink, rfl⟩ := setSymlink_ok applied
  refine ⟨tag_set stored rfl, rfl, rfl, fun _ => Iff.rfl, fun i link found => ?_,
    fun _ attrs found => Or.inl ⟨attrs, found⟩⟩
  simp only [touched, GoMap.get_set] at found
  split_ifs at found with isIt
  · exact Or.inr ⟨inode, isIt ▸ stored, isSymlink⟩
  · exact Or.inl ⟨link, found⟩

theorem sameTree_setXattr {ino : Ino} {name value : Name} {now : Int}
    (applied : idx.setXattr ino name value now = .ok idx') : SameTree idx idx' := by
  obtain ⟨inode, stored, rfl⟩ := setXattr_ok applied
  refine ⟨tag_set stored rfl, rfl, rfl, fun _ => Iff.rfl,
    fun _ target found => Or.inl ⟨target, found⟩, fun i attrs found => ?_⟩
  simp only [touched, GoMap.get_set] at found
  split_ifs at found with isIt
  · exact Or.inr ⟨inode, isIt ▸ stored⟩
  · exact Or.inl ⟨attrs, found⟩

theorem sameTree_removeXattr {ino : Ino} {name : Name} {now : Int}
    (applied : idx.removeXattr ino name now = .ok idx') : SameTree idx idx' := by
  obtain ⟨inode, stored, rfl⟩ := removeXattr_ok applied
  exact ⟨tag_set stored rfl, rfl, rfl, fun _ => Iff.rfl,
    fun _ target found => Or.inl ⟨target, found⟩,
    fun i attrs found => Or.inl ((exists_get_modify _ _ i).mp ⟨attrs, found⟩)⟩

theorem sameTree_touchAtime (idx : Index) (ino : Ino) (now : Int) :
    SameTree idx (idx.touchAtime ino now) := by
  rcases touchAtime_cases idx ino now with ⟨-, same⟩ | ⟨inode, stored, same⟩ <;> rw [same]
  · exact .of_inodes (fun _ => rfl) idx.dirty idx.remoteDirty
  · have keeps : tagOf { inode with atime := now } = tagOf inode := rfl
    exact .of_inodes (tag_set stored keeps) true idx.remoteDirty

/-- An inode on its way into the tree: nothing names it, and it names nothing. -/
structure Unnamed (idx : Index) (i : Ino) (fileType : FileType) : Prop where
  present : idx.typeOf i = some fileType
  unnamed : ∀ p n, idx.entry p n ≠ some i
  empty : ∀ n, idx.entry i n = none

theorem Namespace.known (ns : idx.Namespace) {i : Ino} {fileType : FileType}
    (present : idx.typeOf i = some fileType) : i < idx.nextIno := by
  obtain ⟨inode, stored, -⟩ := typeOf_eq_some.mp present
  exact (ns.numbers i inode stored).2

theorem Namespace.root_known (ns : idx.Namespace) : rootIno < idx.nextIno :=
  ns.known (typeOf_eq_some.mpr ns.root)

/-- A new inode. -/
theorem Namespace.unnamed_createInode (ns : idx.Namespace) (fileType : FileType)
    (mode uid gid rdev : UInt32) (now : Int) :
    (idx.createInode fileType mode uid gid rdev now).2.Unnamed idx.nextIno fileType := by
  refine ⟨?_, fun p n named => ?_, fun n => ?_⟩
  · simp only [typeOf, Index.createInode, touched, GoMap.get_set_self]
    rfl
  · rw [ns.entry_createInode] at named
    obtain ⟨inode, stored⟩ := ns.children p n _ named
    cases ns.fresh.symm.trans stored
  · rw [ns.entry_createInode]
    cases named : idx.entry idx.nextIno n with
    | none => rfl
    | some c =>
        obtain ⟨inode, stored, -⟩ := ns.parents _ n c named
        cases ns.fresh.symm.trans stored

end Index

namespace Mutation

open Index

variable {m : Mutation} {idx idx' : Index}

/-- The mutators that create, free or name something. -/
def ChangesTree : Mutation → Bool
  | .createInode .. | .addDirEntry .. | .removeDirEntry .. | .rename .. => true
  | _ => false

theorem sameTree (applied : m.apply idx = .ok idx') (ns : idx.Namespace)
    (plain : m.ChangesTree = false) : SameTree idx idx' := by
  cases m with
  | setAttr ino change now => exact ns.sameTree_setAttr applied
  | writeExtent ino ext now => exact ns.sameTree_writeExtent applied
  | setSymlink ino target now => exact sameTree_setSymlink applied
  | setXattr ino name value now => exact sameTree_setXattr applied
  | removeXattr ino name now => exact sameTree_removeXattr applied
  | touchAtime ino now =>
      cases applied
      exact sameTree_touchAtime idx ino now
  | _ => cases plain

/-- What the caller of a mutator has to make sure of. -/
def KeepsTree (idx : Index) : Mutation → Prop
  | .addDirEntry parent _ child _ => child ≠ rootIno ∧ idx.names child < 4294967295 ∧
      (idx.typeOf child = some .directory →
        idx.names child = 0 ∧ ¬ ReflTransGen idx.HasChild child parent)
  | .rename srcParent srcName dstParent dstName _ =>
      idx.MayRename srcParent srcName dstParent dstName
  | _ => True

theorem keepsNamespace (applied : m.apply idx = .ok idx') (ns : idx.Namespace)
    (keeps : m.KeepsTree idx) : idx'.Namespace := by
  cases m with
  | createInode fileType mode uid gid rdev now =>
      cases applied
      exact ns.createInode fileType mode uid gid rdev now
  | addDirEntry parent name child now =>
      obtain ⟨notRoot, room, mayLink⟩ := keeps
      exact ns.addDirEntry applied notRoot room mayLink
  | removeDirEntry parent name now => exact ns.removeDirEntry applied
  | rename srcParent srcName dstParent dstName now => exact ns.rename keeps applied
  | _ => exact ns.of_sameTree (sameTree applied ns rfl)

/-! ### What a mutator does to the tree -/

/-- The entry a mutator adds. -/
def Adds (idx : Index) (p : Ino) (n : Name) (c : Ino) : Mutation → Prop
  | .addDirEntry parent name child _ => p = parent ∧ n = name ∧ c = child
  | .rename srcParent srcName dstParent dstName _ =>
      p = dstParent ∧ n = dstName ∧ idx.entry srcParent srcName = some c
  | _ => False

/-- An entry was there before, or has been added. -/
theorem entry_cases (applied : m.apply idx = .ok idx') (ns : idx.Namespace) {p c : Ino} {n : Name}
    (named : idx'.entry p n = some c) : idx.entry p n = some c ∨ m.Adds idx p n c := by
  cases m with
  | createInode fileType mode uid gid rdev now =>
      cases applied
      rw [ns.entry_createInode] at named
      exact Or.inl named
  | addDirEntry parent name child now =>
      obtain ⟨_, _, children, -, -, -, stored, -, result⟩ := addDirEntry_ok applied
      rw [entry_add stored (by rw [result]; rfl)] at named
      split_ifs at named with isIt
      · exact Or.inr ⟨isIt.1, isIt.2, (Option.some.inj named).symm⟩
      · exact Or.inl named
  | removeDirEntry parent name now =>
      rw [ns.entry_removeDirEntry applied] at named
      split_ifs at named
      exact Or.inl named
  | rename srcParent srcName dstParent dstName now =>
      obtain ⟨child, moved, entries⟩ := ns.entry_rename applied
      rw [entries] at named
      split_ifs at named with isDst
      · rw [← Option.some.inj named]
        exact Or.inr ⟨isDst.1, isDst.2, moved⟩
      · exact Or.inl named
  | _ =>
      rw [(sameTree applied ns rfl).entry] at named
      exact Or.inl named

/-- A link that a mutator takes is that of an entry. -/
theorem named_of_removes {i : Ino} (removes : m.removes idx = some i) :
    ∃ p n, idx.entry p n = some i := by
  cases m with
  | removeDirEntry parent name now => exact ⟨parent, name, removes⟩
  | rename srcParent srcName dstParent dstName now =>
      obtain ⟨_, -, named⟩ := Option.bind_eq_some_iff.mp removes
      exact ⟨dstParent, dstName, named⟩
  | _ => cases removes

theorem Relinks.typeOf_cases (relinks : m.Relinks idx idx') (i : Ino) :
    idx'.typeOf i = idx.typeOf i ∨
      idx'.typeOf i = none ∧ ∃ p n, idx.entry p n = some i := by
  by_cases takes : m.TakesLast idx i
  · exact Or.inr ⟨Option.map_eq_none_iff.mpr (relinks.frees takes).inode,
      named_of_removes takes.1⟩
  · exact Or.inl (relinks.keeps takes).typeOf

/-- A mutator keeps the type of an inode, or frees one that had a name. -/
theorem typeOf_cases (applied : m.apply idx = .ok idx') (ns : idx.Namespace) {i : Ino}
    (known : i < idx.nextIno) :
    idx'.typeOf i = idx.typeOf i ∨
      idx'.typeOf i = none ∧ ∃ p n, idx.entry p n = some i := by
  cases m with
  | createInode fileType mode uid gid rdev now =>
      cases applied
      left
      simp only [typeOf, Index.createInode, touched, GoMap.get_set_ne _ _ (Nat.ne_of_lt known)]
  | addDirEntry => exact (relinks_addDirEntry applied).typeOf_cases i
  | removeDirEntry => exact (relinks_removeDirEntry applied).typeOf_cases i
  | rename => exact (relinks_rename applied).typeOf_cases i
  | _ => exact Or.inl (typeOf_of_tag ((sameTree applied ns rfl).tags i))

/-- The mutator neither names `i` nor adds an entry to it. -/
def Spares (i : Ino) : Mutation → Prop
  | .addDirEntry parent _ child _ => parent ≠ i ∧ child ≠ i
  | .rename _ _ dstParent _ _ => dstParent ≠ i
  | _ => True

/-- An inode on its way into the tree stays as it is. -/
theorem unnamed (applied : m.apply idx = .ok idx') (ns : idx.Namespace) {i : Ino}
    {fileType : FileType} (unnamed : idx.Unnamed i fileType) (spares : m.Spares i) :
    idx'.Unnamed i fileType := by
  refine ⟨?_, fun p n named => ?_, fun n => ?_⟩
  · rcases typeOf_cases applied ns (ns.known unnamed.present) with same | ⟨-, p, n, named⟩
    · rw [same, unnamed.present]
    · exact absurd named (unnamed.unnamed p n)
  · rcases entry_cases applied ns named with was | added
    · exact unnamed.unnamed p n was
    · cases m with
      | addDirEntry parent name child now => exact spares.2 added.2.2.symm
      | rename srcParent srcName dstParent dstName now =>
          exact unnamed.unnamed srcParent srcName added.2.2
      | _ => exact added
  · cases named : idx'.entry i n with
    | none => rfl
    | some c =>
        rcases entry_cases applied ns named with was | added
        · cases (unnamed.empty n).symm.trans was
        · cases m with
          | addDirEntry parent name child now => exact absurd added.1.symm spares.1
          | rename srcParent srcName dstParent dstName now => exact absurd added.1.symm spares
          | _ => exact added.elim

/-- An inode with a name keeps one for as long as it is there. -/
theorem named (applied : m.apply idx = .ok idx') (ns : idx.Namespace) {i : Ino}
    (present : idx'.typeOf i ≠ none) {p : Ino} {n : Name}
    (was : idx.entry p n = some i) : ∃ p n, idx'.entry p n = some i := by
  cases m with
  | createInode fileType mode uid gid rdev now =>
      cases applied
      exact ⟨p, n, (ns.entry_createInode ..).trans was⟩
  | addDirEntry parent name child now =>
      obtain ⟨_, _, children, -, -, -, stored, absent, result⟩ := addDirEntry_ok applied
      have dirs : idx'.dirIndex = idx.dirIndex.set parent (children.set name child) := by
        rw [result]
        rfl
      have entries := entry_add stored dirs p n
      rw [if_neg] at entries
      · exact ⟨p, n, entries.trans was⟩
      · rintro ⟨rfl, rfl⟩
        obtain ⟨there, same, found⟩ := entry_eq_some.mp was
        cases stored.symm.trans same
        cases absent.symm.trans found
  | removeDirEntry parent name now =>
      have entries := ns.entry_removeDirEntry applied
      by_cases isIt : p = parent ∧ n = name
      · obtain ⟨rfl, rfl⟩ := isIt
        obtain ⟨_, child, inode, unlinked, -, named, found, -, isUnlinked, result⟩ :=
          removeDirEntry_ok applied
        cases was.symm.trans named
        have same : idx'.typeOf i = (idx.unlinkChild i inode fun inode =>
            { inode with ctime := now }).typeOf i := by
          rw [unlinkChild_deleteEntry] at isUnlinked
          simp only [typeOf, result, touched, typeOf_modify _ _ (stampParent_fileType now),
            isUnlinked, deleteEntry]
        rw [same] at present
        obtain ⟨q, k, other, still⟩ := ns.named_of_unlinked was found present
        refine ⟨q, k, ?_⟩
        rw [entries, if_neg other, still]
      · refine ⟨p, n, ?_⟩
        rw [entries, if_neg isIt, was]
  | rename srcParent srcName dstParent dstName now =>
      obtain ⟨child, source, entries⟩ := ns.entry_rename applied
      by_cases isMoved : i = child
      · refine ⟨dstParent, dstName, ?_⟩
        rw [entries, if_pos ⟨rfl, rfl⟩, isMoved]
      have notSource : ∀ q k, idx.entry q k = some i → ¬ (q = srcParent ∧ k = srcName) := by
        rintro q k found ⟨rfl, rfl⟩
        exact isMoved (Option.some.inj (found.symm.trans source))
      by_cases isIt : p = dstParent ∧ n = dstName
      · obtain ⟨rfl, rfl⟩ := isIt
        obtain ⟨_, _, replaced, -, -, given, moved⟩ := rename_ok applied
        rw [typeOf_of_tag (tag_moveEntry moved i)] at present
        rcases replaceDestination_ok given with ⟨isFree, -⟩ | ⟨dst, inode, there, found, -, rfl⟩
        · cases isFree.symm.trans was
        · cases was.symm.trans there
          obtain ⟨q, k, other, still⟩ := ns.named_of_unlinked was found present
          refine ⟨q, k, ?_⟩
          rw [entries, if_neg other, if_neg (notSource q k still), still]
      · refine ⟨p, n, ?_⟩
        rw [entries, if_neg isIt, if_neg (notSource p n was), was]
  | _ => exact ⟨p, n, ((sameTree applied ns rfl).entry p n).trans was⟩

/-- Only `CreateInode` takes a number, and no number is given back. -/
theorem nextIno_cases (applied : m.apply idx = .ok idx') :
    idx'.nextIno = idx.nextIno ∨
      ∃ fileType mode uid gid rdev now, m = .createInode fileType mode uid gid rdev now ∧
        idx'.nextIno = idx.nextIno + 1 := by
  cases m with
  | createInode fileType mode uid gid rdev now =>
      cases applied
      exact Or.inr ⟨fileType, mode, uid, gid, rdev, now, rfl, rfl⟩
  | addDirEntry => exact Or.inl (relinks_addDirEntry applied).nextIno
  | removeDirEntry => exact Or.inl (relinks_removeDirEntry applied).nextIno
  | rename => exact Or.inl (relinks_rename applied).nextIno
  | setAttr ino change now =>
      obtain ⟨_, -, rfl⟩ := setAttr_ok applied
      exact Or.inl rfl
  | writeExtent ino ext now =>
      obtain ⟨_, -, -, rfl⟩ := writeExtent_ok applied
      exact Or.inl rfl
  | setSymlink ino target now => exact Or.inl (sameTree_setSymlink applied).nextIno
  | setXattr ino name value now => exact Or.inl (sameTree_setXattr applied).nextIno
  | removeXattr ino name now => exact Or.inl (sameTree_removeXattr applied).nextIno
  | touchAtime ino now =>
      cases applied
      exact Or.inl (sameTree_touchAtime idx ino now).nextIno

theorem nextIno_le (applied : m.apply idx = .ok idx') : idx.nextIno ≤ idx'.nextIno := by
  rcases nextIno_cases applied with same | ⟨_, _, _, _, _, _, -, next⟩
  · exact Nat.le_of_eq same.symm
  · rw [next]
    exact Nat.le_succ _

end Mutation

end Fusey
