import Fusey.Fuse.Queries

/-!
Contract: what `Readdir` lists while calls change the directory
(`internal/fuse/fs.go`).

Owns:
- what the loop over the entries has listed, against the moments at which it
  looked the children up;
- which directory `GetParentIno` finds, in whatever order it visits them;
- that an entry which stays is listed exactly once, with the type its inode has,
  that nothing is listed which was not an entry, and where `..` leads.
-/

set_option autoImplicit false

namespace Fusey

open Interleaving Observation Index

/-! ### The parent -/

namespace Index

variable {idx : Index} {ino parent : Ino}

/-- What `..` may be: the root of itself, a directory that has an entry for the
inode, or the inode itself while there is none. -/
inductive ParentAt (idx : Index) (ino : Ino) : Ino → Prop where
  | root (isRoot : ino = rootIno) : ParentAt idx ino rootIno
  | entry {parent : Ino} (notRoot : ino ≠ rootIno) (has : idx.HasChild parent ino) :
      ParentAt idx ino parent
  | none (notRoot : ino ≠ rootIno) (unnamed : ∀ parent, ¬ idx.HasChild parent ino) :
      ParentAt idx ino ino

theorem hasChild_iff : idx.HasChild parent ino ↔
    ∃ children, idx.dirIndex.get parent = some children ∧ ino ∈ children.entries.map Prod.snd := by
  constructor
  · rintro ⟨name, named⟩
    obtain ⟨children, stored, found⟩ := entry_eq_some.mp named
    exact ⟨children, stored, Multiset.mem_map.mpr ⟨(name, ino), GoMap.mem_entries.mpr found, rfl⟩⟩
  · rintro ⟨children, stored, member⟩
    obtain ⟨⟨name, child⟩, inside, rfl⟩ := Multiset.mem_map.mp member
    exact ⟨name, entry_eq_some.mpr ⟨children, stored, GoMap.mem_entries.mp inside⟩⟩

/-- The order of the loop decides between directories that have an entry, and
nothing else. -/
theorem parentAt_getParentIno {order : List (Ino × GoMap Name Ino)}
    (lists : (order : Multiset (Ino × GoMap Name Ino)) = idx.dirIndex.entries) (ino : Ino) :
    idx.ParentAt ino (getParentIno order ino) := by
  have listed : ∀ dir, dir ∈ order ↔ idx.dirIndex.get dir.1 = some dir.2 := by
    rintro ⟨parent, children⟩
    rw [← Multiset.mem_coe, lists, GoMap.mem_entries]
  unfold getParentIno
  split_ifs with isRoot
  · exact .root isRoot
  · split
    next dir found =>
      have member := (listed dir).mp (List.mem_of_find?_eq_some found)
      have has := List.find?_some found
      rw [decide_eq_true_iff] at has
      exact .entry isRoot (hasChild_iff.mpr ⟨dir.2, member, has⟩)
    next nowhere =>
      refine .none isRoot fun parent has => ?_
      obtain ⟨children, stored, member⟩ := hasChild_iff.mp has
      have passed := List.find?_eq_none.mp nowhere (parent, children) ((listed _).mpr stored)
      exact passed (decide_eq_true member)

/-- A directory has one entry at most. -/
theorem Namespace.eq_of_entries (ns : idx.Namespace) {child p p' : Ino} {n n' : Name}
    (isDirectory : idx.typeOf child = some .directory) (one : idx.entry p n = some child)
    (other : idx.entry p' n' = some child) : p = p' ∧ n = n' := by
  by_contra different
  obtain ⟨inode, found, directory⟩ := typeOf_eq_some.mp isDirectory
  have single := ns.single child inode found directory
  have counted := names_deleteEntry one child
  have still : (idx.deleteEntry p n).entry p' n' = some child := by
    rw [entry_deleteEntry, if_neg fun same => different ⟨same.1.symm, same.2.symm⟩]
    exact other
  have positive := names_pos still
  rw [if_pos rfl] at counted
  omega

end Index

/-! ### The loop -/

/-- What the loop has listed of the entries it has come past: it looked each child
up at one of the moments, and left out those that were gone. -/
inductive Scanned (moments : List (Pool Daemon Call NodeLog)) :
    List DirEntry → List FuseDirEntry → Prop where
  | nil : Scanned moments [] []
  | found {entries : List DirEntry} {list : List FuseDirEntry} {e : DirEntry} {inode : Inode}
      {pool : Pool Daemon Call NodeLog} (before : Scanned moments entries list)
      (isMoment : pool ∈ moments) (stored : pool.shared.idx.inodes.get e.childIno = some inode) :
      Scanned moments (entries ++ [e]) (list ++ [⟨inode.fileType.bits, e.name, e.childIno⟩])
  | gone {entries : List DirEntry} {list : List FuseDirEntry} {e : DirEntry}
      {pool : Pool Daemon Call NodeLog} (before : Scanned moments entries list)
      (isMoment : pool ∈ moments) (missing : pool.shared.idx.inodes.get e.childIno = none) :
      Scanned moments (entries ++ [e]) list

namespace Scanned

variable {moments later : List (Pool Daemon Call NodeLog)} {entries : List DirEntry}
  {list : List FuseDirEntry}

theorem mono (scanned : Scanned moments entries list)
    (more : ∀ pool ∈ moments, pool ∈ later) : Scanned later entries list := by
  induction scanned with
  | nil => exact .nil
  | found _ isMoment stored inductionHypothesis =>
      exact .found inductionHypothesis (more _ isMoment) stored
  | gone _ isMoment missing inductionHypothesis =>
      exact .gone inductionHypothesis (more _ isMoment) missing

/-- What is listed is one of the entries, with the type of its inode. -/
theorem sound (scanned : Scanned moments entries list) {shown : FuseDirEntry}
    (isShown : shown ∈ list) :
    ∃ e ∈ entries, shown.name = e.name ∧ shown.ino = e.childIno ∧
      ∃ pool ∈ moments, ∃ fileType, pool.shared.idx.typeOf e.childIno = some fileType ∧
        shown.mode = fileType.bits := by
  induction scanned with
  | nil => cases isShown
  | @found entries list e inode pool _ isMoment stored inductionHypothesis =>
      rcases List.mem_append.mp isShown with earlier | last
      · obtain ⟨old, member, rest⟩ := inductionHypothesis earlier
        exact ⟨old, List.mem_append_left _ member, rest⟩
      · rw [List.mem_singleton.mp last]
        exact ⟨e, List.mem_append_right _ (List.mem_singleton_self e), rfl, rfl, pool, isMoment,
          inode.fileType, typeOf_eq_some.mpr ⟨inode, stored, rfl⟩, rfl⟩
  | gone _ _ _ inductionHypothesis =>
      obtain ⟨old, member, rest⟩ := inductionHypothesis isShown
      exact ⟨old, List.mem_append_left _ member, rest⟩

/-- An entry whose child is there at every moment is listed. -/
theorem complete (scanned : Scanned moments entries list) {e : DirEntry} (member : e ∈ entries)
    (there : ∀ pool ∈ moments, ∃ inode, pool.shared.idx.inodes.get e.childIno = some inode) :
    ∃ shown ∈ list, shown.name = e.name ∧ shown.ino = e.childIno := by
  induction scanned with
  | nil => cases member
  | found _ _ _ inductionHypothesis =>
      rcases List.mem_append.mp member with earlier | last
      · obtain ⟨shown, isShown, rest⟩ := inductionHypothesis earlier
        exact ⟨shown, List.mem_append_left _ isShown, rest⟩
      · rw [List.mem_singleton.mp last]
        exact ⟨_, List.mem_append_right _ (List.mem_singleton_self _), rfl, rfl⟩
  | gone _ isMoment missing inductionHypothesis =>
      rcases List.mem_append.mp member with earlier | last
      · exact inductionHypothesis earlier
      · rw [List.mem_singleton.mp last] at there
        obtain ⟨inode, stored⟩ := there _ isMoment
        cases missing.symm.trans stored

/-- The names that are listed are, in this order, among those of the entries. -/
theorem names_sublist (scanned : Scanned moments entries list) :
    (list.map FuseDirEntry.name).Sublist (entries.map DirEntry.name) := by
  induction scanned with
  | nil => exact List.Sublist.slnil
  | found _ _ _ inductionHypothesis =>
      rw [List.map_append, List.map_append]
      exact inductionHypothesis.append (List.Sublist.refl _)
  | gone _ _ _ inductionHypothesis =>
      rw [List.map_append]
      exact inductionHypothesis.trans (List.sublist_append_left _ _)

end Scanned

/-- The entries of the directory at one of the moments, each name once. -/
structure ReadAt (ino : Ino) (moments : List (Pool Daemon Call NodeLog))
    (entries : List DirEntry) : Prop where
  moment : ∃ pool ∈ moments, pool.shared.idx.typeOf ino = some .directory ∧ ∀ name child,
    pool.shared.idx.entry ino name = some child ↔ ⟨ino, name, child⟩ ∈ entries
  own : ∀ e ∈ entries, e.parentIno = ino
  nodup : (entries.map DirEntry.name).Nodup

/-- A finished listing: `.`, `..` and what the loop has listed. -/
structure ListedAt (ino : Ino) (moments : List (Pool Daemon Call NodeLog))
    (entries : List DirEntry) (list : List FuseDirEntry) : Prop where
  parent : ∃ parent scanned, list = dotEntries ino parent ++ scanned ∧
    (∃ pool ∈ moments, pool.shared.idx.ParentAt ino parent) ∧ Scanned moments entries scanned

/-- Where a `Readdir` of `ino` is. -/
def ListsAt (ino : Ino) (moments : List (Pool Daemon Call NodeLog)) : Query ⊕ QueryReply → Prop
  | .inl (.readdir i) | .inl (.readdirEntries i) => i = ino
  | .inl (.readdirParent i entries) => i = ino ∧ ReadAt ino moments entries
  | .inl (.readdirChild list e rest) =>
      ∃ done, ReadAt ino moments (done ++ e :: rest) ∧ ListedAt ino moments done list
  | .inr (.listing list) => ∃ entries, ReadAt ino moments entries ∧
      ListedAt ino moments entries list
  | .inr (.errno _) => True
  | _ => False

theorem ReadAt.mono {ino : Ino} {moments later : List (Pool Daemon Call NodeLog)}
    {entries : List DirEntry} (read : ReadAt ino moments entries)
    (more : ∀ pool ∈ moments, pool ∈ later) : ReadAt ino later entries := by
  obtain ⟨pool, isMoment, lists⟩ := read.moment
  exact ⟨⟨pool, more pool isMoment, lists⟩, read.own, read.nodup⟩

theorem ListedAt.mono {ino : Ino} {moments later : List (Pool Daemon Call NodeLog)}
    {entries : List DirEntry} {list : List FuseDirEntry}
    (listed : ListedAt ino moments entries list)
    (more : ∀ pool ∈ moments, pool ∈ later) : ListedAt ino later entries list := by
  obtain ⟨parent, scanned, isList, ⟨pool, isMoment, leads⟩, loop⟩ := listed.parent
  exact ⟨parent, scanned, isList, ⟨pool, more pool isMoment, leads⟩, loop.mono more⟩

/-- The order of the loop in `Index.Readdir` lists the directory. -/
theorem ReadAt.of_order {ino : Ino} {moments : List (Pool Daemon Call NodeLog)}
    {pool : Pool Daemon Call NodeLog} (isMoment : pool ∈ moments)
    (isDirectory : pool.shared.idx.typeOf ino = some .directory) {order : List (Name × Ino)}
    (lists : (order : Multiset (Name × Ino)) =
      ((pool.shared.idx.dirIndex.get ino).getD ∅).entries) :
    ReadAt ino moments (order.map fun child => ⟨ino, child.1, child.2⟩) := by
  refine ⟨⟨pool, isMoment, isDirectory, fun name child => ?_⟩, fun e member => ?_, ?_⟩
  · have listed : (name, child) ∈ order ↔
        ((pool.shared.idx.dirIndex.get ino).getD ∅).get name = some child := by
      rw [← Multiset.mem_coe, lists, GoMap.mem_entries]
    have entry : pool.shared.idx.entry ino name =
        ((pool.shared.idx.dirIndex.get ino).getD ∅).get name := by
      unfold Index.entry
      cases pool.shared.idx.dirIndex.get ino <;> rfl
    rw [entry, ← listed, List.mem_map]
    constructor
    · exact fun member => ⟨(name, child), member, rfl⟩
    · rintro ⟨⟨name', child'⟩, member, same⟩
      cases same
      exact member
  · obtain ⟨child, -, rfl⟩ := List.mem_map.mp member
    rfl
  · have nodup := GoMap.nodup_fst_entries ((pool.shared.idx.dirIndex.get ino).getD ∅)
    rw [← lists, Multiset.map_coe, Multiset.coe_nodup] at nodup
    rwa [List.map_map]

/-- One look of a `Readdir`. -/
theorem ListsAt.look {ino : Ino} {pool : Pool Daemon Call NodeLog}
    {past : List (Pool Daemon Call NodeLog)} {q : Query} {o : MapOrders}
    {next : Query ⊕ QueryReply} (lists : ListsAt ino (pool :: past) (.inl q))
    (looked : q.look pool.shared.idx o = some next) : ListsAt ino (pool :: past) next := by
  have isMoment : pool ∈ pool :: past := List.mem_cons_self
  have goesOn : ∀ {done rest : List DirEntry} {list : List FuseDirEntry},
      ReadAt ino (pool :: past) (done ++ rest) → ListedAt ino (pool :: past) done list →
      ListsAt ino (pool :: past) (Query.nextChild list rest) := by
    intro done rest list read listed
    cases rest with
    | nil =>
        rw [List.append_nil] at read
        exact ⟨done, read, listed⟩
    | cons e rest => exact ⟨done, read, listed⟩
  cases q with
  | readdir i =>
      simp only [Query.look] at looked
      split at looked
      · cases looked
        trivial
      · split_ifs at looked <;> cases looked
        · trivial
        · exact lists
  | readdirEntries i =>
      cases lists
      simp only [Query.look] at looked
      split_ifs at looked with ordered
      split at looked <;> cases looked
      · trivial
      next entries read =>
        refine ⟨rfl, ?_⟩
        unfold Index.readdir at read
        split at read
        · cases read
        next inode stored =>
          split_ifs at read with directory
          cases read
          refine .of_order isMoment ?_ ordered
          exact typeOf_eq_some.mpr ⟨inode, stored, not_not.mp directory⟩
  | readdirParent i entries =>
      obtain ⟨rfl, read⟩ := lists
      simp only [Query.look] at looked
      split_ifs at looked with ordered
      cases looked
      rw [← List.nil_append entries] at read
      refine goesOn read ⟨_, [], (List.append_nil _).symm, ?_, .nil⟩
      exact ⟨pool, isMoment, parentAt_getParentIno ordered i⟩
  | readdirChild list e rest =>
      obtain ⟨done, read, ⟨parent, scanned, rfl, leads, loop⟩⟩ := lists
      rw [List.append_cons] at read
      simp only [Query.look, Index.getInode] at looked
      split at looked <;> cases looked
      next missing => exact goesOn read ⟨parent, scanned, rfl, leads, loop.gone isMoment missing⟩
      next inode stored =>
        refine goesOn read ⟨parent, _, ?_, leads, loop.found isMoment stored⟩
        rw [List.append_assoc]
  | readlink i => exact lists.elim
  | getxattr i attr dest => exact lists.elim
  | listxattr i dest => exact lists.elim

theorem Queried.listsAt {cfg : Config} {ino : Ino} {moments : List (Pool Daemon Call NodeLog)}
    {point : Query ⊕ QueryReply} (queried : Queried cfg (.readdir ino) moments point) :
    ListsAt ino moments point := by
  refine Observed.rule (fun moments point => ListsAt ino moments point) (fun _ _ => ?_) ?_
    (fun _ _ _ _ _ lists looked => lists.look looked) queried
  · show ino = ino
    rfl
  intro pool next past q lists
  have more : ∀ old ∈ pool :: past, old ∈ next :: pool :: past :=
    fun _ member => List.mem_cons_of_mem _ member
  cases q with
  | readdir i => exact lists
  | readdirEntries i => exact lists
  | readdirParent i entries => exact ⟨lists.1, lists.2.mono more⟩
  | readdirChild list e rest =>
      obtain ⟨done, read, listed⟩ := lists
      exact ⟨done, read.mono more, listed.mono more⟩
  | readlink i => exact lists.elim
  | getxattr i attr dest => exact lists.elim
  | listxattr i dest => exact lists.elim

/-! ### What is listed -/

/-- Beside any calls, a `Readdir` that returns lists `.` first and `..` second.
What follows has no name twice; each of it was an entry of the directory at one
moment of the call, and has the type that its inode has at every moment at which
the inode is there; and an entry that stayed for the whole call is among it. -/
theorem readdir_lists_what_stays {cfg : Config} {ino : Ino}
    {moments : List (Pool Daemon Call NodeLog)} {list : List FuseDirEntry}
    (queried : Queried cfg (.readdir ino) moments (.inr (.listing list))) :
    ∃ parent shown, list = dotEntries ino parent ++ shown ∧
      (shown.map FuseDirEntry.name).Nodup ∧
      (∀ e ∈ shown, (∃ pool ∈ moments, pool.shared.idx.entry ino e.name = some e.ino) ∧
        ∀ pool ∈ moments, ∀ fileType, pool.shared.idx.typeOf e.ino = some fileType →
          e.mode = fileType.bits) ∧
      ∀ name child, (∀ pool ∈ moments, pool.shared.idx.entry ino name = some child) →
        ∃ e ∈ shown, e.name = name ∧ e.ino = child := by
  obtain ⟨entries, read, ⟨parent, shown, isList, -, loop⟩⟩ := queried.listsAt
  obtain ⟨scan, isMoment, -, lists⟩ := read.moment
  refine ⟨parent, shown, isList, loop.names_sublist.nodup read.nodup, ?_, ?_⟩
  · intro e isShown
    obtain ⟨⟨p, n, c⟩, member, sameName, sameIno, seen, isSeen, fileType, was, mode⟩ :=
      loop.sound isShown
    cases read.own _ member
    dsimp only at sameName sameIno was
    rw [sameName, sameIno, mode]
    refine ⟨⟨scan, isMoment, (lists n c).mpr member⟩, fun pool isPool other now => ?_⟩
    rw [queried.sameType c isSeen isPool fileType other was now]
  · intro name child stays
    have member := (lists name child).mp (stays scan isMoment)
    refine loop.complete member fun pool isPool => ?_
    exact (queried.reached pool isPool).namespaced.children _ _ _ (stays pool isPool)

/-- A `Readdir` of the root with the files `a` and `b`; once it has read the entries,
`b` is unlinked and a file `c` is created. -/
def listingBesideChanges (cfg : Config) :
    Option (List (Pool Daemon Call NodeLog) × (Query ⊕ QueryReply)) :=
  (Query.readdir rootIno).beside cfg
    (Call.alone (.make .regular rootIno [97] 420 0 0 1) 3 ++
      Call.alone (.make .regular rootIno [98] 420 0 0 2) 3)
    ([.inr {}, .inr { children := [([98], 3), ([97], 2)] }] ++
      (Call.alone (.unlink rootIno [98] 3) 1 ++
        Call.alone (.make .regular rootIno [99] 420 0 0 4) 3).map .inl ++
      [.inr { dirs := [(rootIno, GoMap.ofList [([97], 2), ([99], 4)])] }, .inr {}, .inr {}])

/-- The listing holds `a`, which stays, and neither `b` nor `c`. -/
theorem readdir_lists_what_stays_beside :
    ∃ moments list, Queried sampleConfig (.readdir rootIno) moments (.inr (.listing list)) ∧
      list = dotEntries rootIno rootIno ++ [⟨FileType.regular.bits, [97], 2⟩] ∧
      moments.length = 7 ∧ ∃ e ∈ list, e.name = [97] ∧ e.ino = 2 := by
  have plays : (listingBesideChanges sampleConfig).map (fun result =>
      (result.2, result.1.length,
        decide (∀ pool ∈ result.1, pool.shared.idx.entry rootIno [97] = some 2))) =
      some (.inr (.listing (dotEntries rootIno rootIno ++ [⟨FileType.regular.bits, [97], 2⟩])),
        7, true) := by
    decide +kernel
  obtain ⟨⟨moments, point⟩, finished, shown⟩ := Option.map_eq_some_iff.mp plays
  obtain ⟨isListing, rest⟩ := Prod.mk.inj shown
  obtain ⟨count, stays⟩ := Prod.mk.inj rest
  dsimp only at isListing count
  subst isListing
  have queried := Queried.of_beside finished
  obtain ⟨parent, listed, isList, -, -, complete⟩ := readdir_lists_what_stays queried
  obtain ⟨e, isListed, named⟩ := complete [97] 2 (of_decide_eq_true stays)
  refine ⟨moments, _, queried, rfl, count, e, ?_, named⟩
  rw [isList]
  exact List.mem_append_right _ isListed

/-- The `..` of a directory other than the root leads, at one moment of the call,
to the one directory that has an entry for it, or back to itself while no
directory has; the `..` of the root is the root. -/
theorem readdir_parent_is_the_parent {cfg : Config} {ino : Ino}
    {moments : List (Pool Daemon Call NodeLog)} {list : List FuseDirEntry}
    (queried : Queried cfg (.readdir ino) moments (.inr (.listing list))) :
    ∃ parent shown, list = dotEntries ino parent ++ shown ∧
      (ino = rootIno → parent = rootIno) ∧
      (ino ≠ rootIno → ∃ pool ∈ moments,
        (pool.shared.idx.HasChild parent ino ∧
            ∀ other, pool.shared.idx.HasChild other ino → other = parent) ∨
          parent = ino ∧ ∀ other, ¬ pool.shared.idx.HasChild other ino) := by
  obtain ⟨entries, read, ⟨parent, shown, isList, ⟨pool, isMoment, leads⟩, -⟩⟩ := queried.listsAt
  refine ⟨parent, shown, isList, ?_, fun notRoot => ⟨pool, isMoment, ?_⟩⟩
  · intro isRoot
    cases leads with
    | root _ => rfl
    | entry notRoot _ => exact absurd isRoot notRoot
    | none notRoot _ => exact absurd isRoot notRoot
  · cases leads with
    | root isRoot => exact absurd isRoot notRoot
    | @entry parent _ has =>
        -- `ino` is a directory here as it was when its entries were read.
        have ns := (queried.reached pool isMoment).namespaced
        obtain ⟨name, named⟩ := has
        obtain ⟨inode, stored⟩ := ns.children _ _ _ named
        obtain ⟨scan, isScan, wasDirectory, -⟩ := read.moment
        have now : pool.shared.idx.typeOf ino = some inode.fileType :=
          typeOf_eq_some.mpr ⟨inode, stored, rfl⟩
        rw [← queried.sameType ino isScan isMoment _ _ wasDirectory now] at now
        refine Or.inl ⟨⟨name, named⟩, ?_⟩
        rintro other ⟨name', named'⟩
        exact (ns.eq_of_entries now named' named).1
    | none _ unnamed => exact Or.inr ⟨rfl, unnamed⟩

/-- A `Readdir` of the directory `d`, which is moved into `e` once its entries are
read. -/
def listingBesideMove (cfg : Config) :
    Option (List (Pool Daemon Call NodeLog) × (Query ⊕ QueryReply)) :=
  (Query.readdir 2).beside cfg
    (Call.alone (.make .directory rootIno [100] 493 0 0 1) 3 ++
      Call.alone (.make .directory rootIno [101] 493 0 0 2) 3)
    ([.inr {}, .inr {}] ++ (Call.alone (.rename rootIno [100] 3 [100] 3) 1).map .inl ++
      [.inr { dirs := [(2, ∅), (3, GoMap.ofList [([100], 2)]),
        (rootIno, GoMap.ofList [([101], 3)])] }])

/-- The `..` of the listing is where the directory has gone. -/
theorem readdir_parent_is_the_parent_moved :
    ∃ moments, Queried sampleConfig (.readdir 2) moments (.inr (.listing (dotEntries 2 3))) ∧
      ∃ pool ∈ moments, pool.shared.idx.HasChild 3 2 ∧
        ∀ other, pool.shared.idx.HasChild other 2 → other = 3 := by
  have plays : (listingBesideMove sampleConfig).map Prod.snd =
      some (.inr (.listing (dotEntries 2 3))) := by
    decide +kernel
  obtain ⟨⟨moments, point⟩, finished, isListing⟩ := Option.map_eq_some_iff.mp plays
  dsimp only at isListing
  subst isListing
  have queried := Queried.of_beside finished
  obtain ⟨parent, listed, isList, -, leads⟩ := readdir_parent_is_the_parent queried
  have isThree : parent = 3 := by
    have second := congrArg (fun list => (list[1]?).map FuseDirEntry.ino) isList
    exact (Option.some.inj second).symm
  subst isThree
  obtain ⟨pool, isMoment, found | ⟨absurdity, -⟩⟩ := leads (by decide)
  · exact ⟨moments, queried, pool, isMoment, found⟩
  · cases absurdity

end Fusey
