import Fusey.GoLib.Observation
import Fusey.Fuse.NamespaceRuns

/-!
Contract: the node methods that only read the index: `Readdir`, `Readlink`,
`Getxattr` and `Listxattr` (`internal/fuse/fs.go`).

Owns:
- each of them as the sequence of index methods that it calls, since the daemon's
  calls may take steps between two of these;
- a query beside a run of calls, with the moments since its start;
- that types of inodes do not change from one moment to another.

`Getattr` and `Statfs`, which call one index method, are with the attributes they
report.
-/

set_option autoImplicit false

namespace Fusey

open Interleaving Observation Index

/-- `fuse.DirEntry`. -/
structure FuseDirEntry where
  mode : UInt32
  name : Name
  ino : Ino
deriving DecidableEq, Repr

/-- A query, at the point of its next index method. The first state of each query
carries its arguments; a destination buffer is given by its length. -/
inductive Query where
  | readdir (ino : Ino)
  | readdirEntries (ino : Ino)
  | readdirParent (ino : Ino) (entries : List DirEntry)
  | readdirChild (list : List FuseDirEntry) (e : DirEntry) (rest : List DirEntry)
  | readlink (ino : Ino)
  | getxattr (ino : Ino) (attr : Name) (dest : Nat)
  | listxattr (ino : Ino) (dest : Nat)
deriving DecidableEq

/-- How a query ends. `count` is the number that an attribute call returns and what
it has copied into its buffer. -/
inductive QueryReply where
  | errno (e : Errno)
  | einval
  | erange
  | listing (list : List FuseDirEntry)
  | target (bytes : Bytes)
  | count (n : Nat) (copied : Bytes)
deriving DecidableEq

/-- The orders in which the loops over maps visit them. -/
structure MapOrders where
  children : List (Name × Ino) := []
  dirs : List (Ino × GoMap Name Ino) := []
  attrs : List (Name × Name) := []

/-- The entries `.` and `..` of a listing. -/
def dotEntries (ino parent : Ino) : List FuseDirEntry :=
  [⟨FileType.directory.bits, [46], ino⟩, ⟨FileType.directory.bits, [46, 46], parent⟩]

/-- What the attribute calls do with a value: its length for an empty buffer,
`ERANGE` for one that is too short, and otherwise a copy. -/
def fillBuffer (dest : Nat) (value : Bytes) : QueryReply :=
  if dest = 0 then .count (value.length % 4294967296) []
  else if dest < value.length then .erange
  else .count (value.length % 4294967296) value

/-- The names of `Listxattr`, each ended by a zero byte. -/
def nameList (attrs : List (Name × Name)) : Bytes := attrs.flatMap fun attr => attr.1 ++ [0]

namespace Query

/-- The next iteration of the loop of `Readdir`, or its end. -/
def nextChild (list : List FuseDirEntry) : List DirEntry → Query ⊕ QueryReply
  | [] => .inr (.listing list)
  | e :: rest => .inl (.readdirChild list e rest)

/-- The index method a query is about to call, and what it does with the result.
An order that does not list its map does not occur. -/
def look (idx : Index) (o : MapOrders) : Query → Option (Query ⊕ QueryReply)
  | .readdir ino =>
      match idx.getInode ino with
      | none => some (.inr (.errno .enoent))
      | some inode =>
          if inode.fileType ≠ .directory then some (.inr (.errno .enotdir))
          else some (.inl (.readdirEntries ino))
  | .readdirEntries ino =>
      if (o.children : Multiset (Name × Ino)) = ((idx.dirIndex.get ino).getD ∅).entries then
        match idx.readdir o.children ino with
        | .error _ => some (.inr (.errno .eio))
        | .ok entries => some (.inl (.readdirParent ino entries))
      else none
  | .readdirParent ino entries =>
      if (o.dirs : Multiset (Ino × GoMap Name Ino)) = idx.dirIndex.entries then
        some (nextChild (dotEntries ino (getParentIno o.dirs ino)) entries)
      else none
  | .readdirChild list e rest =>
      match idx.getInode e.childIno with
      | none => some (nextChild list rest)
      | some inode => some (nextChild (list ++ [⟨inode.fileType.bits, e.name, e.childIno⟩]) rest)
  | .readlink ino =>
      match idx.getSymlink ino with
      | none => some (.inr .einval)
      | some target => some (.inr (.target target))
  | .getxattr ino attr dest =>
      match (idx.getXattrs ino).get attr with
      | none => some (.inr (.errno .enodata))
      | some value => some (.inr (fillBuffer dest value))
  | .listxattr ino dest =>
      if (o.attrs : Multiset (Name × Name)) = (idx.getXattrs ino).entries then
        some (.inr (fillBuffer dest (nameList o.attrs)))
      else none

/-- Whatever the index has become, a query can take its next look. -/
theorem exists_look (q : Query) (idx : Index) : ∃ o next, q.look idx o = some next := by
  have listed : ∀ {K V : Type} (entries : Multiset (K × V)), ∃ order : List (K × V),
      (order : Multiset (K × V)) = entries := fun entries => Quot.exists_rep entries
  cases q with
  | readdir ino =>
      refine ⟨{}, ?_⟩
      simp only [look]
      split
      · exact ⟨_, rfl⟩
      · split_ifs <;> exact ⟨_, rfl⟩
  | readdirEntries ino =>
      obtain ⟨order, lists⟩ := listed ((idx.dirIndex.get ino).getD ∅).entries
      refine ⟨{ children := order }, ?_⟩
      simp only [look, if_pos lists]
      split <;> exact ⟨_, rfl⟩
  | readdirParent ino entries =>
      obtain ⟨order, lists⟩ := listed idx.dirIndex.entries
      exact ⟨{ dirs := order }, _, if_pos lists⟩
  | readdirChild list e rest =>
      refine ⟨{}, ?_⟩
      simp only [look]
      split <;> exact ⟨_, rfl⟩
  | readlink ino =>
      refine ⟨{}, ?_⟩
      simp only [look]
      split <;> exact ⟨_, rfl⟩
  | getxattr ino attr dest =>
      refine ⟨{}, ?_⟩
      simp only [look]
      split <;> exact ⟨_, rfl⟩
  | listxattr ino dest =>
      obtain ⟨order, lists⟩ := listed (idx.getXattrs ino).entries
      exact ⟨{ attrs := order }, _, if_pos lists⟩

/-- The stage of a query, and the looks it still takes in that stage. -/
def rank : Query → Nat × Nat
  | .readdir _ => (2, 0)
  | .readdirEntries _ => (1, 0)
  | .readdirParent _ entries => (0, entries.length + 1)
  | .readdirChild _ _ rest => (0, rest.length + 1)
  | _ => (0, 0)

/-- Every look brings a query nearer to its end, so that it returns after finitely
many, whatever happens between them. -/
theorem rank_lt_of_look {q q' : Query} {idx : Index} {o : MapOrders}
    (looked : q.look idx o = some (.inl q')) :
    Prod.Lex (· < ·) (· < ·) q'.rank q.rank := by
  have next : ∀ {list : List FuseDirEntry} {entries : List DirEntry},
      nextChild list entries = .inl q' → q'.rank = (0, entries.length) := by
    intro list entries goesOn
    cases entries with
    | nil => cases goesOn
    | cons e rest =>
        cases goesOn
        rfl
  cases q with
  | readdir ino =>
      simp only [look] at looked
      split at looked
      · cases looked
      · split_ifs at looked <;> cases looked
        exact .left _ _ (Nat.lt_succ_self 1)
  | readdirEntries ino =>
      simp only [look] at looked
      split_ifs at looked
      split at looked <;> cases looked
      exact .left _ _ Nat.zero_lt_one
  | readdirParent ino entries =>
      simp only [look] at looked
      split_ifs at looked
      rw [next (Option.some.inj looked)]
      exact .right _ (Nat.lt_succ_self _)
  | readdirChild list e rest =>
      simp only [look] at looked
      split at looked <;> rw [next (Option.some.inj looked)] <;> exact .right _ (Nat.lt_succ_self _)
  | readlink ino =>
      simp only [look] at looked
      split at looked <;> cases looked
  | getxattr ino attr dest =>
      simp only [look] at looked
      split at looked <;> cases looked
  | listxattr ino dest =>
      simp only [look] at looked
      split_ifs at looked
      cases looked

end Query

/-! ### Queries beside a run -/

/-- An empty filesystem, of which nothing has been asked. -/
def EmptyFilesystem {M : Type} (blank : M) (pool : Pool Daemon Call M) : Prop :=
  ∃ maxChunkSize blockSize now cached,
    pool = ⟨freshDaemon maxChunkSize blockSize now cached, [], blank⟩

/-- Its one inode is the root. -/
theorem typeOf_new_of_ne {blockSize now : Int} {i : Ino} (other : i ≠ rootIno) :
    (Index.new blockSize now).typeOf i = none := by
  simp only [typeOf, Index.new, GoMap.get_set_ne _ _ other, GoMap.get_empty, Option.map_none]

/-- The pools of a mounted daemon under requests from the kernel. -/
abbrev KernelRun (cfg : Config) : Pool Daemon Call NodeLog → Prop :=
  Reachable (daemonSys cfg) NodeLog.note Mounted fromKernel

/-- One event of such a run. -/
def KernelStep (cfg : Config) (pool next : Pool Daemon Call NodeLog) : Prop :=
  ∃ event, fromKernel pool event ∧ (daemonSys cfg).step NodeLog.note pool event = some next

/-- A query beside a run, and the pools since its start. -/
abbrev Queried (cfg : Config) (q : Query) :
    List (Pool Daemon Call NodeLog) → Query ⊕ QueryReply → Prop :=
  Observed (KernelRun cfg) (KernelStep cfg) (fun q pool o => q.look pool.shared.idx o) q

variable {cfg : Config} {q : Query} {moments : List (Pool Daemon Call NodeLog)}
  {point : Query ⊕ QueryReply}

theorem KernelRun.step {pool next : Pool Daemon Call NodeLog} (reached : KernelRun cfg pool)
    (stepped : KernelStep cfg pool next) : KernelRun cfg next := by
  obtain ⟨event, admitted, taken⟩ := stepped
  exact Reachable.step reached admitted taken

theorem KernelRun.namespaced {pool : Pool Daemon Call NodeLog} (reached : KernelRun cfg pool) :
    pool.shared.idx.Namespace :=
  (Mounted.inTree reached).1.wellFormed

theorem Queried.reached (queried : Queried cfg q moments point) :
    ∀ pool ∈ moments, KernelRun cfg pool :=
  Observed.always (fun _ reached => reached) (fun _ _ reached => KernelRun.step reached) queried

/-- A later index: numbers are given out once, and a numbered inode keeps its type
or is gone. -/
structure Index.Succeeds (idx idx' : Index) : Prop where
  nextIno : idx.nextIno ≤ idx'.nextIno
  types : ∀ i, i < idx.nextIno → idx'.typeOf i = idx.typeOf i ∨ idx'.typeOf i = none

theorem Index.Succeeds.refl (idx : Index) : idx.Succeeds idx :=
  ⟨Nat.le_refl _, fun _ _ => Or.inl rfl⟩

theorem Index.Succeeds.trans {idx idx' idx'' : Index} (first : idx.Succeeds idx')
    (second : idx'.Succeeds idx'') : idx.Succeeds idx'' := by
  refine ⟨Nat.le_trans first.nextIno second.nextIno, fun i known => ?_⟩
  rcases second.types i (Nat.lt_of_lt_of_le known first.nextIno) with same | gone
  · rw [same]
    exact first.types i known
  · exact Or.inr gone

/-- An inode that is there at both times has one type. -/
theorem Index.Succeeds.typeOf_eq {idx idx' : Index} (succeeds : idx.Succeeds idx')
    (ns : idx.Namespace) {i : Ino} {before after : FileType} (was : idx.typeOf i = some before)
    (now : idx'.typeOf i = some after) : after = before := by
  rcases succeeds.types i (ns.known was) with same | gone
  · rw [same, was] at now
    exact (Option.some.inj now).symm
  · rw [gone] at now
    cases now

theorem KernelStep.succeeds {pool next : Pool Daemon Call NodeLog} (reached : KernelRun cfg pool)
    (stepped : KernelStep cfg pool next) : pool.shared.idx.Succeeds next.shared.idx := by
  obtain ⟨event, -, taken⟩ := stepped
  rcases Sys.step_cases taken with ⟨_, -, rfl⟩ | ⟨before, c, after, o, d', a, -, -, applied, rfl⟩
  · exact .refl _
  · rcases Daemon.apply_idx applied with same | ⟨m, -, done, -⟩ | ⟨-, same⟩ | ⟨-, same⟩
    · rw [same]
      exact .refl _
    · refine ⟨Mutation.nextIno_le done, fun i known => ?_⟩
      exact (Mutation.typeOf_cases done reached.namespaced known).imp_right And.left
    · rw [same]
      exact ⟨Nat.le_refl _, fun _ _ => Or.inl rfl⟩
    · rw [same]
      exact ⟨Nat.le_refl _, fun _ _ => Or.inl rfl⟩

/-- Of any two moments, one succeeds the other. -/
theorem Queried.succeeds (queried : Queried cfg q moments point) :
    moments.Pairwise fun later earlier => earlier.shared.idx.Succeeds later.shared.idx :=
  Observed.pairwise (KernelRun cfg)
    (fun pool next : Pool Daemon Call NodeLog => pool.shared.idx.Succeeds next.shared.idx)
    (fun _ reached => reached) (fun _ _ reached => KernelRun.step reached)
    (fun _ _ => KernelStep.succeeds) Index.Succeeds.trans queried

/-- A query after the requests `setup`, beside `events`, executed. -/
def Query.beside (cfg : Config) (setup : List (Event Call Oracle)) (q : Query)
    (events : List (Event Call Oracle ⊕ MapOrders)) :
    Option (List (Pool Daemon Call NodeLog) × (Query ⊕ QueryReply)) :=
  ((daemonSys cfg).run NodeLog.note plainRenames freshTree setup).bind fun pool =>
    watch (fun pool event =>
        if plainRenames pool event then (daemonSys cfg).step NodeLog.note pool event else none)
      (fun q pool o => q.look pool.shared.idx o) pool [] q events

theorem Queried.of_beside {setup : List (Event Call Oracle)}
    {events : List (Event Call Oracle ⊕ MapOrders)}
    (finished : q.beside cfg setup events = some (moments, point)) :
    Queried cfg q moments point := by
  obtain ⟨pool, ran, watched⟩ := Option.bind_eq_some_iff.mp finished
  have reached : KernelRun cfg pool :=
    Reachable.mono fromKernel_of_plainRenames (.of_run (.start freshTree_mounted) ran)
  refine Observed.of_watch ?_ (.start reached) watched
  intro before event after stepped
  split_ifs at stepped with admitted
  exact ⟨event, fromKernel_of_plainRenames before event admitted, stepped⟩

/-- Two pools in which an inode does not have two types. -/
def SameType (i : Ino) (one other : Pool Daemon Call NodeLog) : Prop :=
  ∀ left right, one.shared.idx.typeOf i = some left → other.shared.idx.typeOf i = some right →
    left = right

instance (i : Ino) : Std.Symm (SameType i) :=
  ⟨fun _ _ same left right first second => (same right left second first).symm⟩

/-- An inode has one type at all moments at which it is there. -/
theorem Queried.sameType (queried : Queried cfg q moments point) (i : Ino)
    {one other : Pool Daemon Call NodeLog} (isMoment : one ∈ moments) (isOther : other ∈ moments) :
    SameType i one other := by
  have agree : moments.Pairwise (SameType i) := by
    refine queried.succeeds.imp_of_mem ?_
    intro later earlier _ isEarlier succeeds left right now was
    exact succeeds.typeOf_eq (queried.reached earlier isEarlier).namespaced was now
  have self : ∀ pool ∈ moments, SameType i pool pool :=
    fun _ _ _ _ first second => Option.some.inj (first.symm.trans second)
  exact agree.forall_of_forall self isMoment isOther

end Fusey
