import Fusey.Fuse.NamespaceRuns

/-!
Contract: what `Create`, `Mkdir` and `Symlink` leave in the index when they fail
(`internal/fuse/fs.go`).

Owns:
- what it means that nothing is left of an inode;
- that a failed creation leaves nothing exactly if its `AddDirEntry` succeeded,
  and when that is;
- that every inode besides those left behind is named once no call is in flight.
-/

set_option autoImplicit false

namespace Fusey

open Interleaving Relation Index

/-! ### Nothing left -/

/-- There is no inode of that number, no extent list, directory map or symlink
target, and no entry that names it. -/
structure Index.Traceless (idx : Index) (i : Ino) : Prop where
  inode : idx.inodes.get i = none
  entry : ∀ p n, idx.entry p n ≠ some i
  extents : idx.extents.get i = none
  dirs : idx.dirIndex.get i = none
  symlink : idx.symlinks.get i = none

theorem Index.typeOf_eq_none {idx : Index} {i : Ino} :
    idx.typeOf i = none ↔ idx.inodes.get i = none := Option.map_eq_none_iff

theorem Index.Namespace.traceless_iff {idx : Index} (ns : idx.Namespace) {i : Ino} :
    idx.Traceless i ↔ idx.typeOf i = none := by
  refine ⟨fun traceless => typeOf_eq_none.mpr traceless.inode, fun absent => ?_⟩
  have gone := typeOf_eq_none.mp absent
  have nothing : ∀ {V : Type} {found : Option V},
      (∀ v, found = some v → ∃ inode, idx.inodes.get i = some inode) → found = none := by
    intro V found present
    cases found with
    | none => rfl
    | some v =>
        obtain ⟨inode, stored⟩ := present v rfl
        cases gone.symm.trans stored
  refine ⟨gone, fun p n named => ?_, nothing fun exts stored => ?_,
    nothing fun children stored => ?_,
    nothing fun target stored => ?_⟩
  · obtain ⟨inode, stored⟩ := ns.children p n i named
    cases gone.symm.trans stored
  · obtain ⟨inode, found, -⟩ := (ns.extentKeys i).mp ⟨exts, stored⟩
    exact ⟨inode, found⟩
  · obtain ⟨inode, found, -⟩ := (ns.dirKeys i).mp ⟨children, stored⟩
    exact ⟨inode, found⟩
  · obtain ⟨inode, found, -⟩ := ns.symlinkKeys i target stored
    exact ⟨inode, found⟩

/-! ### When the second step succeeds -/

theorem Index.Namespace.addDirEntry_succeeds_iff {idx : Index} (ns : idx.Namespace)
    {child : Ino} (present : idx.typeOf child ≠ none) (parent : Ino) (name : Name) (now : Int) :
    (∃ idx', idx.addDirEntry parent name child now = .ok idx') ↔
      idx.typeOf parent = some .directory ∧ idx.entry parent name = none := by
  constructor
  · rintro ⟨idx', applied⟩
    obtain ⟨inode, _, children, known, isDirectory, -, stored, absent, -⟩ := addDirEntry_ok applied
    refine ⟨typeOf_eq_some.mpr ⟨inode, known, isDirectory⟩, ?_⟩
    unfold Index.entry
    rw [stored]
    exact absent
  · rintro ⟨isParent, isFree⟩
    obtain ⟨inode, known, isDirectory⟩ := typeOf_eq_some.mp isParent
    obtain ⟨children, stored⟩ := (ns.dirKeys parent).mpr ⟨inode, known, isDirectory⟩
    obtain ⟨made, found⟩ := Option.ne_none_iff_exists'.mp
      (fun gone => present (typeOf_eq_none.mpr gone))
    unfold Index.addDirEntry
    simp only [known, isDirectory, found, isFree, stored]
    exact ⟨_, rfl⟩

theorem Index.Namespace.addDirEntry_ne_panic {idx : Index} (ns : idx.Namespace) {parent child : Ino}
    {name : Name} {now : Int} : idx.addDirEntry parent name child now ≠ .error .panic := by
  unfold Index.addDirEntry
  split
  next => exact fun absurdity => by cases absurdity
  next inode known =>
    split_ifs with notDirectory
    · exact fun absurdity => by cases absurdity
    · obtain ⟨children, stored⟩ := (ns.dirKeys parent).mpr ⟨inode, known, not_not.mp notDirectory⟩
      rw [stored]
      split
      next => exact fun absurdity => by cases absurdity
      next => split <;> exact fun absurdity => by cases absurdity

theorem Index.setSymlink_succeeds {idx : Index} {ino : Ino}
    (isSymlink : idx.typeOf ino = some .symlink)
    (target : Name) (now : Int) : ∃ idx', idx.setSymlink ino target now = .ok idx' := by
  obtain ⟨inode, found, isType⟩ := typeOf_eq_some.mp isSymlink
  unfold Index.setSymlink
  simp only [found, isType]
  exact ⟨_, rfl⟩

variable {cfg : Config} {d d' : Daemon} {h : NodeLog} {c c' : Call} {o : Oracle} {a : Answer}

/-- A mutator that succeeds does not answer with an error. -/
theorem Daemon.apply_mutate_failed {m : Mutation} {failure : IndexError}
    (applied : d.apply (.mutate m) o = some (d', .indexError failure)) :
    d' = d ∧ ∀ idx', m.apply d.idx ≠ .ok idx' := by
  simp only [Daemon.apply, Daemon.mutate, Option.some.injEq] at applied
  split at applied
  next idx done =>
    obtain ⟨-, answered⟩ := Prod.mk.inj applied
    cases m <;> cases answered
  next other failed =>
    cases applied
    refine ⟨rfl, fun idx' done => ?_⟩
    cases failed.symm.trans done
  next =>
    obtain ⟨-, answered⟩ := Prod.mk.inj applied
    cases answered

/-- `AddDirEntry` of a new inode names it, or reports an error and the parent is
not a directory or has the name. -/
theorem Call.InTree.makeEntry_step (tree : d.InTree h) {kind : NewFile} {parent ino : Ino}
    {name : Name} {now : Int} (inTree : (Call.makeEntry kind parent name ino now).InTree d h)
    (applied : d.apply (.mutate (.addDirEntry parent name ino now)) o = some (d', a)) :
    (a = .done ∧ d'.idx.entry parent name = some ino ∧
        d.idx.typeOf parent = some .directory ∧ d.idx.entry parent name = none) ∨
      ∃ failure, a = .indexError failure ∧
        ¬ (d.idx.typeOf parent = some .directory ∧ d.idx.entry parent name = none) := by
  have present : d.idx.typeOf ino ≠ none := by
    rw [inTree.2.2.present]
    exact Option.some_ne_none _
  have succeedsIff := tree.wellFormed.addDirEntry_succeeds_iff present parent name now
  simp only [Daemon.apply, Daemon.mutate, Mutation.apply, Option.some.injEq] at applied
  split at applied
  next idx done =>
    cases applied
    obtain ⟨_, _, children, -, -, -, stored, -, result⟩ := addDirEntry_ok done
    refine Or.inl ⟨rfl, ?_, succeedsIff.mp ⟨idx, done⟩⟩
    rw [entry_add stored (by rw [result]; rfl), if_pos ⟨rfl, rfl⟩]
  next failure failed =>
    cases applied
    refine Or.inr ⟨failure, rfl, fun may => ?_⟩
    obtain ⟨idx', done⟩ := succeedsIff.mpr may
    cases failed.symm.trans done
  next panicked =>
    exact absurd panicked (tree.wellFormed.addDirEntry_ne_panic)

/-! ### What failed creations have left -/

/-- An inode of a failed creation was named and is gone, or is left over. -/
def Daemon.Settles (d : Daemon) (h : NodeLog) : Prop :=
  ∀ i ∈ h.failed, (i ∈ h.exposed ∧ d.idx.typeOf i = none) ∨
    ¬ h.Visible i ∧ ∃ fileType, d.idx.Unnamed i fileType

/-- A creation in flight has not failed, and one that waits for its target has a
symlink or nothing. -/
def Call.Settles (d : Daemon) (h : NodeLog) : Call → Prop
  | .makeEntry _ _ _ ino _ => ino ∉ h.failed
  | .makeTarget ino _ _ => ino ∈ h.exposed ∧
      (d.idx.typeOf ino = none ∨ d.idx.typeOf ino = some .symlink)
  | _ => True

theorem Daemon.Settles.known (tree : d.InTree h) (settles : d.Settles h) {i : Ino}
    (member : i ∈ h.failed) : i < d.idx.nextIno := by
  rcases settles i member with ⟨exposed, -⟩ | ⟨-, fileType, unnamed⟩
  · exact tree.known i exposed
  · exact tree.wellFormed.known unnamed.present

/-- A known inode keeps its type or goes, and if it goes it had a name. -/
theorem Daemon.InTree.typeOf_apply (tree : d.InTree h) {i : Ino} (known : i < d.idx.nextIno)
    (applied : d.apply c.effect o = some (d', a)) :
    d'.idx.typeOf i = d.idx.typeOf i ∨
      d'.idx.typeOf i = none ∧ ∃ p n, d.idx.entry p n = some i := by
  rcases Daemon.apply_idx applied with same | ⟨m, -, done, -⟩ | ⟨-, same⟩ | ⟨-, same⟩
  · exact Or.inl (by rw [same])
  · exact Mutation.typeOf_cases done tree.wellFormed known
  · exact Or.inl (by rw [same]; rfl)
  · exact Or.inl (by rw [same]; rfl)

theorem NodeLog.failed_note (h : NodeLog) (c : Call) (a : Answer) :
    (h.note c a).failed = h.failed ∨
      ∃ ino failure, a = .indexError failure ∧ (h.note c a).failed = ino :: h.failed ∧
        (h.note c a).exposed = h.exposed ∧
        ((∃ kind parent name now, c = .makeEntry kind parent name ino now) ∨
          ∃ target now, c = .makeTarget ino target now) := by
  unfold note
  split
  next => exact Or.inl rfl
  next kind parent name ino now failure =>
    exact Or.inr ⟨ino, failure, rfl, rfl, rfl, Or.inl ⟨kind, parent, name, now, rfl⟩⟩
  next ino target now failure =>
    exact Or.inr ⟨ino, failure, rfl, rfl, rfl, Or.inr ⟨target, now, rfl⟩⟩
  next => exact Or.inl rfl

theorem NodeLog.mem_exposed_note {i : Ino} (member : i ∈ h.exposed) (c : Call) (a : Answer) :
    i ∈ (h.note c a).exposed := by
  rcases h.exposed_note c a with same | ⟨_, _, _, _, _, -, -, same⟩ <;> rw [same]
  · exact member
  · exact List.mem_cons_of_mem _ member

theorem Daemon.Settles.step (tree : d.InTree h) (settles : d.Settles h) (inTree : c.InTree d h)
    (cSettles : c.Settles d h) (applied : d.apply c.effect o = some (d', a)) :
    d'.Settles (h.note c a) := by
  have old : ∀ i ∈ h.failed, (i ∈ (h.note c a).exposed ∧ d'.idx.typeOf i = none) ∨
      ¬ (h.note c a).Visible i ∧ ∃ fileType, d'.idx.Unnamed i fileType := by
    intro i member
    rcases settles i member with ⟨exposed, gone⟩ | ⟨hidden, fileType, unnamed⟩
    · refine Or.inl ⟨NodeLog.mem_exposed_note exposed c a, ?_⟩
      rcases tree.typeOf_apply (tree.known i exposed) applied with same | ⟨still, -⟩
      · rw [same, gone]
      · exact still
    · have other : c.making ≠ some i := by
        intro makes
        cases c <;> cases makes
        exact cSettles member
      exact Or.inr ⟨NodeLog.hidden_note hidden other, fileType,
        unnamed.step tree inTree hidden other applied⟩
  intro i member
  rcases h.failed_note c a with same | ⟨ino, failure, rfl, failed, exposed, which⟩
  · rw [same] at member
    exact old i member
  · rw [failed] at member
    rcases List.mem_cons.mp member with rfl | earlier
    · rcases which with ⟨kind, parent, name, now, rfl⟩ | ⟨target, now, rfl⟩
      · -- `AddDirEntry` failed, so the inode is still on its way.
        obtain ⟨rfl, -⟩ := Daemon.apply_mutate_failed applied
        exact Or.inr ⟨fun visible => inTree.2.1 visible, kind.fileType, inTree.2.2⟩
      · -- `SetSymlink` failed, so the symlink has been unlinked.
        obtain ⟨rfl, fails⟩ := Daemon.apply_mutate_failed applied
        obtain ⟨known, gone | isSymlink⟩ := cSettles
        · exact Or.inl ⟨NodeLog.mem_exposed_note known _ _, gone⟩
        · obtain ⟨idx', done⟩ := setSymlink_succeeds isSymlink target now
          exact absurd done (fails idx')
    · exact old i earlier

theorem Call.Settles.other (tree : d.InTree h) (cSettles : c.Settles d h) {u : Call}
    (uInTree : u.InTree d h) (uSettles : u.Settles d h)
    (tokens : ∀ i, c.making = some i → u.making ≠ some i)
    (applied : d.apply c.effect o = some (d', a)) : u.Settles d' (h.note c a) := by
  cases u <;> try trivial
  case makeEntry kind parent name ino now =>
    intro member
    rcases h.failed_note c a with same | ⟨other, failure, rfl, failed, -, which⟩
    · rw [same] at member
      exact uSettles member
    · rw [failed] at member
      rcases List.mem_cons.mp member with rfl | earlier
      · rcases which with ⟨_, _, _, _, rfl⟩ | ⟨_, _, rfl⟩
        · exact tokens ino rfl rfl
        · exact uInTree.2.1 (Or.inr cSettles.1)
      · exact uSettles earlier
  case makeTarget ino target now =>
    obtain ⟨exposed, types⟩ := uSettles
    refine ⟨NodeLog.mem_exposed_note exposed c a, ?_⟩
    rcases tree.typeOf_apply (tree.known ino exposed) applied with same | ⟨gone, -⟩
    · rw [same]
      exact types
    · exact Or.inl gone

theorem Call.Settles.follows (tree : d.InTree h) (settles : d.Settles h) (inTree : c.InTree d h)
    (applied : d.apply c.effect o = some (d', a)) (follows : c.Follows cfg a c') :
    c'.Settles d' (h.note c a) := by
  cases follows <;> try trivial
  case makeEntry kind parent name mode uid gid now ino =>
    obtain ⟨rfl, answered⟩ := Daemon.apply_createInode applied
    cases answered
    intro member
    exact Nat.lt_irrefl _ (settles.known tree member)
  case makeTarget target parent name ino now =>
    obtain ⟨-, -, unnamed⟩ := inTree
    refine ⟨List.mem_cons_self, Or.inr ?_⟩
    rcases tree.typeOf_apply (tree.wellFormed.known unnamed.present) applied with
      same | ⟨-, p, n, named⟩
    · rw [same]
      exact unnamed.present
    · exact absurd named (unnamed.unnamed p n)
  case readFirst | readNext =>
    unfold nextRead
    split <;> trivial

/-- The facts about a reachable pool that a step may use. -/
structure TreeAt (pool : Pool Daemon Call NodeLog) : Prop where
  distinct : (pool.threads.filterMap Call.making).Nodup
  tree : pool.shared.InTree pool.record
  calls : ∀ c ∈ pool.threads, c.InTree pool.shared pool.record

theorem Mounted.treeAt {pool : Pool Daemon Call NodeLog}
    (reached : Reachable (daemonSys cfg) NodeLog.note Mounted fromKernel pool) : TreeAt pool :=
  ⟨Mounted.distinct reached, (Mounted.inTree reached).1, (Mounted.inTree reached).2⟩

theorem Mounted.settles {pool : Pool Daemon Call NodeLog}
    (reached : Reachable (daemonSys cfg) NodeLog.note Mounted fromKernel pool) :
    pool.shared.Settles pool.record ∧ ∀ c ∈ pool.threads, c.Settles pool.shared pool.record := by
  refine Reachable.local_invariant (fun d h => d.Settles h) (fun d h c => c.Settles d h) ?_ ?_ ?_
    (reached.knowing fun _ => Mounted.treeAt)
  · intro pool mounted
    refine ⟨fun i member => ?_, fun c member => ?_⟩
    · rw [mounted.succeeded] at member
      cases member
    · rw [mounted.idle] at member
      cases member
  · rintro pool c - ⟨-, request, -⟩
    cases c <;> trivial
  · rintro d h before c after o d' a settles each ⟨⟨distinct, tree, calls⟩, -⟩ applied
    have moving : c ∈ before ++ c :: after := List.mem_append_right _ List.mem_cons_self
    have inTree := calls c moving
    refine ⟨settles.step tree inTree (each c moving) applied, fun c' continues =>
      Call.Settles.follows tree settles inTree applied (Call.follows_of_resume continues),
      fun u member => ?_⟩
    have inPool := mem_of_mem_others c member
    exact (each c moving).other tree (calls u inPool) (each u inPool)
      (fun i makes => ne_of_nodup_filterMap distinct makes member) applied

/-! ### Inodes without a name -/

/-- Mounted on an index in which every inode besides the root has a name. -/
structure MountedNamed (pool : Pool Daemon Call NodeLog) : Prop extends Mounted pool where
  named : ∀ i, pool.shared.idx.typeOf i ≠ none → i ≠ rootIno →
    ∃ p n, pool.shared.idx.entry p n = some i

/-- An inode has a name, or its creation has failed or is on the way. -/
def NamedOrPending (pool : Pool Daemon Call NodeLog) : Prop :=
  ∀ i, pool.shared.idx.typeOf i ≠ none → i ≠ rootIno →
    (∃ p n, pool.shared.idx.entry p n = some i) ∨ i ∈ pool.record.failed ∨
      ∃ c ∈ pool.threads, c.making = some i

/-- Only a creation asks for an inode. -/
theorem Call.InTree.of_createInode (inTree : c.InTree d h) {fileType : FileType}
    {mode uid gid rdev : UInt32} {now : Int}
    (asks : c.effect = .mutate (.createInode fileType mode uid gid rdev now)) :
    ∃ kind parent name mode uid gid now, c = .make kind parent name mode uid gid now := by
  cases c <;> cases asks
  · exact ⟨_, _, _, _, _, _, _, rfl⟩
  · exact inTree.elim

/-- What a step leaves there was there before with its name, or is new. -/
theorem Call.InTree.present_step (tree : d.InTree h) (inTree : c.InTree d h)
    (may : c.MayRun d.idx) (applied : d.apply c.effect o = some (d', a)) {i : Ino}
    (present : d'.idx.typeOf i ≠ none) :
    (d.idx.typeOf i ≠ none ∧
        ((∃ p n, d.idx.entry p n = some i) → ∃ p n, d'.idx.entry p n = some i)) ∨
      ∃ kind parent name mode uid gid now, c = .make kind parent name mode uid gid now ∧
        a = .created i := by
  have same : d'.idx.inodes = d.idx.inodes → d'.idx.dirIndex = d.idx.dirIndex →
      d.idx.typeOf i ≠ none ∧
        ((∃ p n, d.idx.entry p n = some i) → ∃ p n, d'.idx.entry p n = some i) := by
    intro inodes dirs
    unfold Index.typeOf at present ⊢
    rw [inodes] at present
    refine ⟨present, ?_⟩
    rintro ⟨p, n, named⟩
    refine ⟨p, n, ?_⟩
    unfold Index.entry at named ⊢
    rw [dirs]
    exact named
  rcases Daemon.apply_idx applied with kept | ⟨m, asks, done, answered⟩ | ⟨-, kept⟩ | ⟨-, kept⟩
  · exact Or.inl (same (by rw [kept]) (by rw [kept]))
  · have ns' := Mutation.keepsNamespace done tree.wellFormed (inTree.keepsTree tree may asks)
    obtain ⟨fileType, isType⟩ := Option.ne_none_iff_exists'.mp present
    have below := ns'.known isType
    by_cases known : i < d.idx.nextIno
    · left
      refine ⟨?_, fun ⟨p, n, named⟩ => Mutation.named done tree.wellFormed present named⟩
      rcases Mutation.typeOf_cases done tree.wellFormed known with kept | ⟨gone, -⟩
      · rw [← kept]
        exact present
      · exact absurd gone present
    · -- Only `CreateInode` moves the counter, and only a creation asks for it.
      right
      rcases Mutation.nextIno_cases done with kept | ⟨_, _, _, _, _, _, rfl, next⟩
      · exact absurd (kept ▸ below) known
      · rw [asks] at applied
        obtain ⟨-, answer⟩ := Daemon.apply_createInode applied
        obtain ⟨kind, parent, name, mode, uid, gid, now, isMake⟩ := inTree.of_createInode asks
        rw [next] at below
        have isNew : i = d.idx.nextIno :=
          Nat.le_antisymm (Nat.le_of_lt_succ below) (Nat.le_of_not_lt known)
        exact ⟨kind, parent, name, mode, uid, gid, now, isMake, isNew ▸ answer⟩
  · exact Or.inl (same (by rw [kept]; rfl) (by rw [kept]; rfl))
  · exact Or.inl (same (by rw [kept]; rfl) (by rw [kept]; rfl))

theorem MountedNamed.namedOrPending {pool : Pool Daemon Call NodeLog}
    (reached : Reachable (daemonSys cfg) NodeLog.note MountedNamed fromKernel pool) :
    NamedOrPending pool := by
  have initially : ∀ pool, MountedNamed pool → NamedOrPending pool :=
    fun pool mounted i present notRoot => Or.inl (mounted.named i present notRoot)
  have knowing := reached.knowing fun pool reached =>
    Mounted.treeAt (reached.of_start fun _ mounted => mounted.toMounted)
  refine knowing.invariant initially ?_
  rintro ⟨d, threads, h⟩ next event pending ⟨⟨-, tree, calls⟩, admitted⟩ taken
  rcases Sys.step_cases taken with
    ⟨c, rfl, rfl⟩ | ⟨before, c, after, o, d', a, rfl, split, applied, rfl⟩
  · intro i present notRoot
    rcases pending i present notRoot with named | failed | ⟨u, member, makes⟩
    · exact Or.inl named
    · exact Or.inr (Or.inl failed)
    · exact Or.inr (Or.inr ⟨u, List.mem_append_left _ member, makes⟩)
  · dsimp only at split tree calls
    subst split
    have inTree := calls c (List.mem_append_right _ List.mem_cons_self)
    have may := admitted c (getElem?_moving before c after)
    intro i present notRoot
    rcases inTree.present_step tree may applied present with
      ⟨was, keepsName⟩ | ⟨kind, parent, name, mode, uid, gid, now, rfl, rfl⟩
    · rcases pending i was notRoot with named | failed | ⟨u, member, makes⟩
      · exact Or.inl (keepsName named)
      · refine Or.inr (Or.inl ?_)
        rcases h.failed_note c a with same | ⟨_, _, -, same, -⟩ <;> simp only [same]
        · exact failed
        · exact List.mem_cons_of_mem _ failed
      · rcases List.mem_append.mp member with early | late
        · exact Or.inr (Or.inr ⟨u, by simp [early], makes⟩)
        · rcases List.mem_cons.mp late with rfl | late
          · cases u <;> cases makes
            rcases inTree.makeEntry_step (o := o) tree applied with
              ⟨-, named, -⟩ | ⟨failure, rfl, -⟩
            · exact Or.inl ⟨_, _, named⟩
            · exact Or.inr (Or.inl List.mem_cons_self)
          · exact Or.inr (Or.inr ⟨u, by simp [late], makes⟩)
    · refine Or.inr (Or.inr ⟨.makeEntry kind parent name i now, ?_, rfl⟩)
      simp only [daemonSys, Call.resume, remaining, List.append_assoc, List.mem_append]
      exact Or.inr (Or.inl (List.mem_singleton.mpr rfl))

/-! ### Failed creations -/

/-- In every run of requests from the kernel: of a creation that has returned an
error nothing is left exactly if its `AddDirEntry` succeeded; that step succeeds
exactly if the parent is a directory without that name; and once no call is in
flight, every inode besides the root is named exactly if every creation that
failed had got that far. -/
theorem failed_creations_leave_nothing_iff {pool : Pool Daemon Call NodeLog}
    (reached : Reachable (daemonSys cfg) NodeLog.note MountedNamed fromKernel pool) :
    (∀ ino ∈ pool.record.failed,
        pool.shared.idx.Traceless ino ↔ ino ∈ pool.record.exposed) ∧
      (∀ kind parent name ino now o d' a, .makeEntry kind parent name ino now ∈ pool.threads →
        pool.shared.apply (.mutate (.addDirEntry parent name ino now)) o = some (d', a) →
        ((pool.record.note (.makeEntry kind parent name ino now) a).exposed =
            ino :: pool.record.exposed ↔
          pool.shared.idx.typeOf parent = some .directory ∧
            pool.shared.idx.entry parent name = none)) ∧
      (pool.threads = [] →
        ((∀ i, pool.shared.idx.typeOf i ≠ none → i ≠ rootIno →
            ∃ p n, pool.shared.idx.entry p n = some i) ↔
          ∀ ino ∈ pool.record.failed, ino ∈ pool.record.exposed)) := by
  have mounted := reached.of_start fun _ (mounted : MountedNamed _) => mounted.toMounted
  obtain ⟨-, tree, calls⟩ := Mounted.treeAt mounted
  obtain ⟨settles, -⟩ := Mounted.settles mounted
  refine ⟨fun ino member => ?_, ?_, fun idle => ⟨fun named ino member => ?_,
    fun all i present notRoot => ?_⟩⟩
  · rw [tree.wellFormed.traceless_iff]
    rcases settles ino member with ⟨exposed, gone⟩ | ⟨hidden, fileType, unnamed⟩
    · exact ⟨fun _ => exposed, fun _ => gone⟩
    · refine ⟨fun gone => ?_, fun exposed => absurd (Or.inr exposed) hidden⟩
      cases gone.symm.trans unnamed.present
  · intro kind parent name ino now o d' a member applied
    rcases (calls _ member).makeEntry_step tree applied with
      ⟨rfl, -, may⟩ | ⟨failure, rfl, mayNot⟩
    · exact ⟨fun _ => may, fun _ => rfl⟩
    · refine ⟨fun grown => absurd (congrArg List.length grown) ?_, fun may => absurd may mayNot⟩
      exact Nat.ne_of_lt (Nat.lt_succ_self _)
  · rcases settles ino member with ⟨exposed, -⟩ | ⟨hidden, fileType, unnamed⟩
    · exact exposed
    · obtain ⟨p, n, isNamed⟩ := named ino
        (by rw [unnamed.present]; exact Option.some_ne_none _) fun isRoot => hidden (Or.inl isRoot)
      exact absurd isNamed (unnamed.unnamed p n)
  · rcases MountedNamed.namedOrPending reached i present notRoot with
      isNamed | failed | ⟨c, member, -⟩
    · exact isNamed
    · rcases settles i failed with ⟨-, gone⟩ | ⟨hidden, -⟩
      · exact absurd gone present
      · exact absurd (Or.inr (all i failed)) hidden
    · rw [idle] at member
      cases member

theorem freshTree_mountedNamed : MountedNamed freshTree := by
  refine ⟨freshTree_mounted, fun i present notRoot => absurd ?_ present⟩
  have absent : freshTree.shared.idx.inodes.get i = none :=
    (GoMap.get_set_ne _ _ notRoot).trans rfl
  exact typeOf_eq_none.mpr absent

/-- A symlink is unlinked before its target is stored. -/
def symlinkUnlinked : List (Event Call Oracle) :=
  [.spawn (.make (.symlink [120]) rootIno [108] 511 0 0 1), .run 0 {}, .run 0 {},
    .spawn (.unlink rootIno [108] 2), .run 1 {}, .run 0 {}]

/-- Its creation fails, and nothing is left. -/
theorem failed_creations_leave_nothing_iff_unlinked :
    ∃ pool, Reachable (daemonSys sampleConfig) NodeLog.note MountedNamed fromKernel pool ∧
      pool.record.failed = [2] ∧ pool.shared.idx.Traceless 2 ∧
      ∀ i, pool.shared.idx.typeOf i ≠ none → i ≠ rootIno →
        ∃ p n, pool.shared.idx.entry p n = some i := by
  have plays : ((daemonSys sampleConfig).run NodeLog.note plainRenames freshTree
      symlinkUnlinked).map (fun pool =>
        (decide (pool.threads = []), pool.record.failed, pool.record.exposed)) =
      some (true, [2], [2]) := by decide +kernel
  obtain ⟨pool, ran, shown⟩ := Option.map_eq_some_iff.mp plays
  obtain ⟨idle, rest⟩ := Prod.mk.inj shown
  obtain ⟨failed, exposed⟩ := Prod.mk.inj rest
  have reached : Reachable (daemonSys sampleConfig) NodeLog.note MountedNamed fromKernel pool :=
    Reachable.mono fromKernel_of_plainRenames (.of_run (.start freshTree_mountedNamed) ran)
  obtain ⟨left, -, quiet⟩ := failed_creations_leave_nothing_iff reached
  refine ⟨pool, reached, failed, (left 2 ?_).mpr ?_, (quiet (of_decide_eq_true idle)).mpr ?_⟩
  · rw [failed]
    exact List.mem_cons_self
  · rw [exposed]
    exact List.mem_cons_self
  · rw [failed, exposed]
    exact fun _ member => member

/-- `a` is created twice. -/
def createdTwice : List (Event Call Oracle) :=
  Call.alone (.make .regular rootIno [97] 420 0 0 1) 3 ++
    Call.alone (.make .regular rootIno [97] 420 0 0 2) 2

/-- The second creation returns `EEXIST` and leaves an inode with an empty extent
list that nothing names. -/
theorem second_creation_leaves_inode :
    ∃ pool, Reachable (daemonSys sampleConfig) NodeLog.note MountedNamed fromKernel pool ∧
      pool.threads = [] ∧ 3 ∈ pool.record.failed ∧
      pool.shared.idx.typeOf 3 = some .regular ∧ pool.shared.idx.extents.get 3 = some [] ∧
      (∀ p n, pool.shared.idx.entry p n ≠ some 3) ∧ ¬ pool.shared.idx.Traceless 3 := by
  have plays : ((daemonSys sampleConfig).run NodeLog.note plainRenames freshTree
      createdTwice).map (fun pool => (pool.record.failed, pool.shared.idx.names 3,
        decide (pool.threads = [] ∧ pool.shared.idx.typeOf 3 = some .regular ∧
          pool.shared.idx.extents.get 3 = some []))) = some ([3], 0, true) := by decide +kernel
  obtain ⟨pool, ran, shown⟩ := Option.map_eq_some_iff.mp plays
  obtain ⟨failed, rest⟩ := Prod.mk.inj shown
  obtain ⟨unnamed, kept⟩ := Prod.mk.inj rest
  obtain ⟨idle, present, extents⟩ := of_decide_eq_true kept
  refine ⟨pool, Reachable.mono fromKernel_of_plainRenames
    (.of_run (.start freshTree_mountedNamed) ran), idle, ?_, present, extents,
    fun p n named => ?_, fun traceless => ?_⟩
  · rw [failed]
    exact List.mem_cons_self
  · exact absurd unnamed (Nat.ne_of_gt (names_pos named))
  · cases extents.symm.trans traceless.extents

end Fusey
