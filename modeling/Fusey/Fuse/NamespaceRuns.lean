import Fusey.Fuse.Runs
import Fusey.Index.Namespace

/-!
Contract: the namespace of the index in every run of the daemon's calls
(`internal/fuse/fs.go`).

Owns:
- the inodes that the kernel can refer to: the root, and those that an entry has
  named, since `Node`s are made by `Lookup`, `Create`, `Mkdir`, `Symlink` and
  `Link` alone;
- what the kernel guarantees about a rename;
- the inodes in flight between `CreateInode` and `AddDirEntry`;
- that the namespace invariant holds in every state that such requests reach.

Does not own what a single mutator keeps; that is `Index.Namespace`.
-/

set_option autoImplicit false

namespace Fusey

open Interleaving Relation Index

/-! ### What the kernel asks for -/

/-- The inodes that have had an entry, and those of creations that returned an
error. -/
structure NodeLog where
  exposed : List Ino
  failed : List Ino

/-- `AddDirEntry` makes a new inode visible. -/
def NodeLog.note (h : NodeLog) : Call → Answer → NodeLog
  | .makeEntry _ _ _ ino _, .done => { h with exposed := ino :: h.exposed }
  | .makeEntry _ _ _ ino _, .indexError _ => { h with failed := ino :: h.failed }
  | .makeTarget ino _ _, .indexError _ => { h with failed := ino :: h.failed }
  | _, _ => h

/-- There is a `Node` for the inode. -/
def NodeLog.Visible (h : NodeLog) (i : Ino) : Prop := i = rootIno ∨ i ∈ h.exposed

instance (h : NodeLog) (i : Ino) : Decidable (h.Visible i) := by
  unfold NodeLog.Visible
  infer_instance

/-- The inodes of the nodes and handles that a request is made on. -/
def Call.nodes : Call → List Ino
  | .make _ parent _ _ _ _ _ | .lookup parent _ | .unlink parent _ _ | .rmdir parent _ _ => [parent]
  | .link parent target _ _ => [parent, target]
  | .rename parent _ newParent _ _ => [parent, newParent]
  | .openFile ino | .setattr ino _ _ | .setxattr ino _ _ _ | .removexattr ino _ _
  | .read ino _ _ _ | .write ino _ _ _ => [ino]
  | _ => []

/-- The state in which a step may be taken: there are fewer than `2^32 - 1`
names of an inode that gets one more, and a rename is one that the kernel lets
through. -/
def Call.MayRun (idx : Index) : Call → Prop
  | .makeEntry _ _ _ ino _ | .linkEntry _ ino _ _ => idx.names ino < 4294967295
  | .rename parent name newParent newName _ => idx.MayRename parent name newParent newName
  | _ => True

/-- Requests arrive for visible inodes. -/
def fromKernel (pool : Pool Daemon Call NodeLog) : Event Call Oracle → Prop
  | .spawn c => c.IsRequest ∧ ∀ i ∈ c.nodes, pool.record.Visible i
  | .run i _ => ∀ c, pool.threads[i]? = some c → c.MayRun pool.shared.idx

/-- A daemon that has been mounted on a well-formed index and not been asked for
anything yet. -/
structure Mounted (pool : Pool Daemon Call NodeLog) : Prop where
  idle : pool.threads = []
  wellFormed : pool.shared.idx.Namespace
  known : ∀ i ∈ pool.record.exposed, i < pool.shared.idx.nextIno
  succeeded : pool.record.failed = []

/-! ### Inodes in flight -/

/-- The inode that a creation has made and not named yet. -/
def Call.making : Call → Option Ino
  | .makeEntry _ _ _ ino _ => some ino
  | _ => none

theorem Call.making_nextRead (ino : Ino) (off fin now : Int) (exts : List Extent) (buf : Bytes) :
    (Call.nextRead ino off fin now exts buf).making = none := by
  unfold Call.nextRead
  split <;> rfl

theorem Daemon.nextIno_le {d d' : Daemon} {e : Effect} {o : Oracle} {a : Answer}
    (applied : d.apply e o = some (d', a)) : d.idx.nextIno ≤ d'.idx.nextIno := by
  rcases Daemon.apply_idx applied with same | ⟨m, -, done, -⟩ | ⟨-, same⟩ | ⟨-, same⟩
  · rw [same]
  · exact Mutation.nextIno_le done
  · rw [same]
    exact Nat.le_refl _
  · rw [same]
    exact Nat.le_refl _

/-- A creation gets a number that has not been given out. -/
theorem Call.making_of_follows {cfg : Config} {d d' : Daemon} {c c' : Call} {o : Oracle}
    {a : Answer} {i : Ino} (applied : d.apply c.effect o = some (d', a))
    (follows : c.Follows cfg a c') (makes : c'.making = some i) :
    ¬ i < d.idx.nextIno ∧ i < d'.idx.nextIno := by
  cases follows
  case makeEntry kind parent name mode uid gid now ino =>
    obtain ⟨rfl, answered⟩ := Daemon.apply_createInode applied
    cases answered
    cases makes
    exact ⟨Nat.lt_irrefl _, Nat.lt_succ_self _⟩
  case readFirst | readNext =>
    rw [Call.making_nextRead] at makes
    cases makes
  all_goals cases makes

/-- No two creations have made the same inode. -/
theorem Mounted.distinct {cfg : Config} {pool : Pool Daemon Call NodeLog}
    (reached : Reachable (daemonSys cfg) NodeLog.note Mounted fromKernel pool) :
    (pool.threads.filterMap Call.making).Nodup := by
  refine (reached.distinct Call.making (fun d i => i < d.idx.nextIno) ?_ ?_ ?_ ?_).1
  · intro pool mounted
    rw [mounted.idle]
    rfl
  · rintro pool c ⟨request, -⟩
    cases c <;> first | rfl | cases request
  · intro d c o d' a i applied below
    exact Nat.lt_of_lt_of_le below (Daemon.nextIno_le applied)
  · intro d c o d' a c' i applied continues makes
    exact Or.inr (Call.making_of_follows applied (Call.follows_of_resume continues) makes)

/-! ### The condition of every call -/

/-- The history and the index agree. -/
structure Daemon.InTree (d : Daemon) (h : NodeLog) : Prop where
  wellFormed : d.idx.Namespace
  known : ∀ i ∈ h.exposed, i < d.idx.nextIno

/-- A visible directory to work in, and an inode that may be named there. -/
def Call.InTree (d : Daemon) (h : NodeLog) : Call → Prop
  | .make _ parent _ _ _ _ _ => h.Visible parent
  | .makeEntry kind parent _ ino _ =>
      h.Visible parent ∧ ¬ h.Visible ino ∧ d.idx.Unnamed ino kind.fileType
  | .link parent target _ _ => h.Visible parent ∧ h.Visible target
  | .linkEntry parent target _ _ =>
      h.Visible parent ∧ h.Visible target ∧ d.idx.typeOf target ≠ some .directory
  | .rename _ _ newParent _ _ => h.Visible newParent
  | .mutate _ => False
  | _ => True

variable {cfg : Config} {d d' : Daemon} {h : NodeLog} {c c' : Call} {o : Oracle} {a : Answer}

theorem Daemon.InTree.visible_known (tree : d.InTree h) {i : Ino} (visible : h.Visible i) :
    i < d.idx.nextIno := by
  rcases visible with rfl | member
  · exact tree.wellFormed.root_known
  · exact tree.known i member

theorem NodeLog.exposed_note (h : NodeLog) (c : Call) (a : Answer) :
    (h.note c a).exposed = h.exposed ∨
      ∃ kind parent name ino now, c = .makeEntry kind parent name ino now ∧ a = .done ∧
        (h.note c a).exposed = ino :: h.exposed := by
  unfold note
  split
  next kind parent name ino now => exact Or.inr ⟨kind, parent, name, ino, now, rfl, rfl, rfl⟩
  all_goals exact Or.inl rfl

theorem NodeLog.Visible.note {i : Ino} (visible : h.Visible i) (c : Call) (a : Answer) :
    (h.note c a).Visible i := by
  rcases visible with isRoot | member
  · exact Or.inl isRoot
  · right
    rcases h.exposed_note c a with same | ⟨_, _, _, ino, _, -, -, same⟩ <;> rw [same]
    · exact member
    · exact List.mem_cons_of_mem _ member

/-- Only its own creation exposes an inode. -/
theorem NodeLog.hidden_note {i : Ino} (hidden : ¬ h.Visible i) (other : c.making ≠ some i) :
    ¬ (h.note c a).Visible i := by
  rintro (isRoot | member)
  · exact hidden (Or.inl isRoot)
  · rcases h.exposed_note c a with same | ⟨_, _, _, new, _, rfl, -, same⟩ <;> rw [same] at member
    · exact hidden (Or.inr member)
    · rcases List.mem_cons.mp member with rfl | old
      · exact other rfl
      · exact hidden (Or.inr old)

/-- A call that may run asks for a mutator that keeps the tree. -/
theorem Call.InTree.keepsTree (tree : d.InTree h) (inTree : c.InTree d h) (may : c.MayRun d.idx)
    {m : Mutation} (asks : c.effect = .mutate m) : m.KeepsTree d.idx := by
  cases c <;> cases asks <;> try trivial
  case makeEntry kind parent name ino now =>
    obtain ⟨visible, hidden, unnamed⟩ := inTree
    refine ⟨fun isRoot => hidden (Or.inl isRoot), may, fun _ =>
      ⟨names_eq_zero unnamed.unnamed, fun reach => ?_⟩⟩
    -- The new directory is empty, so it leads to itself only.
    rcases reach.cases_head with rfl | ⟨next, ⟨n, named⟩, -⟩
    · exact hidden visible
    · cases (unnamed.empty n).symm.trans named
  case linkEntry parent target name now =>
    obtain ⟨-, -, notDirectory⟩ := inTree
    refine ⟨?_, may, fun isDirectory => absurd isDirectory notDirectory⟩
    rintro rfl
    exact notDirectory (typeOf_eq_some.mpr tree.wellFormed.root)

/-- No call touches the new inode of another. -/
theorem Call.InTree.spares (inTree : c.InTree d h) {i : Ino} (hidden : ¬ h.Visible i)
    (other : c.making ≠ some i) {m : Mutation} (asks : c.effect = .mutate m) : m.Spares i := by
  have apart : ∀ {j}, h.Visible j → j ≠ i := fun visible same => hidden (same ▸ visible)
  cases c <;> cases asks <;> try trivial
  case makeEntry kind parent name ino now =>
    exact ⟨apart inTree.1, fun same => other (congrArg some same)⟩
  case linkEntry parent target name now => exact ⟨apart inTree.1, apart inTree.2.1⟩
  case rename parent name newParent newName now => exact apart inTree

theorem Daemon.InTree.step (tree : d.InTree h) (inTree : c.InTree d h) (may : c.MayRun d.idx)
    (applied : d.apply c.effect o = some (d', a)) : d'.InTree (h.note c a) := by
  have later := Daemon.nextIno_le applied
  refine ⟨?_, fun i member => Nat.lt_of_lt_of_le ?_ later⟩
  · rcases Daemon.apply_idx applied with same | ⟨m, asks, done, -⟩ | ⟨-, same⟩ | ⟨-, same⟩
    · rw [same]
      exact tree.wellFormed
    · exact Mutation.keepsNamespace done tree.wellFormed (inTree.keepsTree tree may asks)
    · rw [same]
      exact tree.wellFormed.of_sameTree (.of_inodes (fun _ => rfl) false _)
    · rw [same]
      exact tree.wellFormed.of_sameTree (.of_inodes (fun _ => rfl) _ false)
  · rcases h.exposed_note c a with same | ⟨kind, parent, name, ino, now, rfl, -, same⟩ <;>
      rw [same] at member
    · exact tree.known i member
    · rcases List.mem_cons.mp member with rfl | old
      · exact tree.wellFormed.known inTree.2.2.present
      · exact tree.known i old

/-- The inode in flight of another call stays as it is. -/
theorem Index.Unnamed.step (tree : d.InTree h) (inTree : c.InTree d h) {i : Ino}
    {fileType : FileType} (unnamed : d.idx.Unnamed i fileType) (hidden : ¬ h.Visible i)
    (other : c.making ≠ some i) (applied : d.apply c.effect o = some (d', a)) :
    d'.idx.Unnamed i fileType := by
  have same : d'.idx.inodes = d.idx.inodes → d'.idx.dirIndex = d.idx.dirIndex →
      d'.idx.Unnamed i fileType := by
    intro inodes dirs
    have entries : ∀ p n, d'.idx.entry p n = d.idx.entry p n := by
      intro p n
      unfold Index.entry
      rw [dirs]
    refine ⟨?_, fun p n => by rw [entries]; exact unnamed.unnamed p n,
      fun n => by rw [entries]; exact unnamed.empty n⟩
    unfold Index.typeOf
    rw [inodes]
    exact unnamed.present
  rcases Daemon.apply_idx applied with kept | ⟨m, asks, done, -⟩ | ⟨-, kept⟩ | ⟨-, kept⟩
  · exact same (by rw [kept]) (by rw [kept])
  · exact Mutation.unnamed done tree.wellFormed unnamed (inTree.spares hidden other asks)
  · exact same (by rw [kept]; rfl) (by rw [kept]; rfl)
  · exact same (by rw [kept]; rfl) (by rw [kept]; rfl)

/-- The type of a visible inode stays, or the inode goes. -/
theorem Daemon.InTree.typeOf_step (tree : d.InTree h) {i : Ino} (visible : h.Visible i)
    (notDirectory : d.idx.typeOf i ≠ some .directory)
    (applied : d.apply c.effect o = some (d', a)) : d'.idx.typeOf i ≠ some .directory := by
  rcases Daemon.apply_idx applied with same | ⟨m, -, done, -⟩ | ⟨-, same⟩ | ⟨-, same⟩
  · rw [same]
    exact notDirectory
  · rcases Mutation.typeOf_cases done tree.wellFormed (tree.visible_known visible) with
      kept | ⟨gone, -⟩
    · rw [kept]
      exact notDirectory
    · rw [gone]
      exact fun absurdity => by cases absurdity
  · rw [same]
    exact notDirectory
  · rw [same]
    exact notDirectory

/-- A step keeps the condition of the other calls. -/
theorem Call.InTree.other (tree : d.InTree h) (inTree : c.InTree d h) {u : Call}
    (uInTree : u.InTree d h) (tokens : ∀ i, c.making = some i → u.making ≠ some i)
    (applied : d.apply c.effect o = some (d', a)) : u.InTree d' (h.note c a) := by
  cases u <;> try trivial
  case make => exact uInTree.note c a
  case makeEntry kind parent name ino now =>
    obtain ⟨visible, hidden, unnamed⟩ := uInTree
    have other : c.making ≠ some ino := fun same => tokens ino same rfl
    exact ⟨visible.note c a, NodeLog.hidden_note hidden other,
      unnamed.step tree inTree hidden other applied⟩
  case link => exact ⟨uInTree.1.note c a, uInTree.2.note c a⟩
  case linkEntry parent target name now =>
    obtain ⟨visible, known, notDirectory⟩ := uInTree
    exact ⟨visible.note c a, known.note c a, tree.typeOf_step known notDirectory applied⟩
  case rename => exact uInTree.note c a

/-- What follows a step meets the condition again. -/
theorem Call.InTree.follows (tree : d.InTree h) (inTree : c.InTree d h)
    (applied : d.apply c.effect o = some (d', a)) (follows : c.Follows cfg a c') :
    c'.InTree d' (h.note c a) := by
  cases follows <;> try trivial
  case makeEntry kind parent name mode uid gid now ino =>
    obtain ⟨rfl, answered⟩ := Daemon.apply_createInode applied
    cases answered
    refine ⟨NodeLog.Visible.note inTree _ _, ?_, tree.wellFormed.unnamed_createInode ..⟩
    exact fun visible => Nat.lt_irrefl _ (tree.visible_known visible)
  case linkEntry parent target name now inode notDirectory =>
    obtain ⟨rfl, found⟩ := Daemon.apply_getInode applied
    refine ⟨inTree.1.note _ _, inTree.2.note _ _, ?_⟩
    unfold Index.typeOf
    rw [found]
    exact fun isDirectory => notDirectory (Option.some.inj isDirectory)
  case readFirst | readNext =>
    unfold nextRead
    split <;> trivial

theorem Call.InTree.of_request (request : c.IsRequest) (nodes : ∀ i ∈ c.nodes, h.Visible i) :
    c.InTree d h := by
  cases c <;> try trivial
  case make => exact nodes _ List.mem_cons_self
  case link =>
    exact ⟨nodes _ List.mem_cons_self, nodes _ (List.mem_cons_of_mem _ List.mem_cons_self)⟩
  case rename => exact nodes _ (List.mem_cons_of_mem _ List.mem_cons_self)

/-- The index, the history and every call in flight agree in every run. -/
theorem Mounted.inTree {pool : Pool Daemon Call NodeLog}
    (reached : Reachable (daemonSys cfg) NodeLog.note Mounted fromKernel pool) :
    pool.shared.InTree pool.record ∧ ∀ c ∈ pool.threads, c.InTree pool.shared pool.record := by
  refine Reachable.local_invariant (fun d h => d.InTree h) (fun d h c => c.InTree d h) ?_ ?_ ?_
    (reached.knowing fun _ => Mounted.distinct)
  · intro pool mounted
    refine ⟨⟨mounted.wellFormed, mounted.known⟩, fun c member => ?_⟩
    rw [mounted.idle] at member
    cases member
  · rintro pool c - ⟨-, request, nodes⟩
    exact Call.InTree.of_request request nodes
  · rintro d h before c after o d' a tree each ⟨distinct, may⟩ applied
    have inTree := each c (List.mem_append_right _ List.mem_cons_self)
    refine ⟨tree.step inTree (may c (getElem?_moving before c after)) applied,
      fun c' continues => inTree.follows tree applied (Call.follows_of_resume continues),
      fun u member => ?_⟩
    exact inTree.other tree (each u (mem_of_mem_others c member))
      (fun i makes => ne_of_nodup_filterMap distinct makes member) applied

/-- In every run of requests from the kernel, failing ones included, the index
is a tree whose maps agree: the root is a directory that nothing names; numbers,
parents and children are right; link counts are numbers of entries; directories
have one name and no cycle; and the other maps have exactly the keys of their
type. -/
theorem namespace_holds_in_every_run {pool : Pool Daemon Call NodeLog}
    (reached : Reachable (daemonSys cfg) NodeLog.note Mounted fromKernel pool) :
    pool.shared.idx.Namespace :=
  (Mounted.inTree reached).1.wellFormed

/-! ### A run -/

/-- A condition that can be evaluated: what is renamed has no entries. -/
def Call.PlainlyMayRun (idx : Index) : Call → Prop
  | .makeEntry _ _ _ ino _ | .linkEntry _ ino _ _ => idx.names ino < 4294967295
  | .rename parent name newParent newName _ => idx.typeOf newParent = some .directory ∧
      ∀ child ∈ idx.entry parent name, idx.entry newParent newName ≠ some child ∧
        child ≠ newParent ∧ idx.hasChildren child = false
  | _ => True

instance (idx : Index) (c : Call) : Decidable (c.PlainlyMayRun idx) := by
  induction c using Call.casesOn <;> dsimp only [Call.PlainlyMayRun] <;> infer_instance

def plainRenames (pool : Pool Daemon Call NodeLog) : Event Call Oracle → Prop
  | .spawn c => c.IsRequest ∧ ∀ i ∈ c.nodes, pool.record.Visible i
  | .run i _ => ∀ c ∈ pool.threads[i]?, c.PlainlyMayRun pool.shared.idx

instance (pool : Pool Daemon Call NodeLog) (event : Event Call Oracle) :
    Decidable (plainRenames pool event) := by
  induction event using Event.casesOn <;> dsimp only [plainRenames] <;> infer_instance

theorem fromKernel_of_plainRenames (pool : Pool Daemon Call NodeLog) (event : Event Call Oracle)
    (plain : plainRenames pool event) : fromKernel pool event := by
  cases event with
  | spawn c => exact plain
  | run i o =>
      intro c found
      have may := plain c found
      cases c <;> first | exact may | trivial | exact MayRename.of_childless may.1 may.2

/-- A file `a` with a second name `b`, a directory `d`, a directory `e` that is
created while `d` is on its way; `b` moves into `d`, `e` replaces nothing, `a`
is unlinked, and a second `d` fails. -/
def treeRequests : List (Event Call Oracle) :=
  Call.alone (.make .regular rootIno [97] 420 0 0 1) 3 ++
  Call.alone (.link rootIno 2 [98] 2) 3 ++
  [.spawn (.make .directory rootIno [100] 493 0 0 3), .run 0 {},
    .spawn (.make .directory rootIno [101] 493 0 0 4), .run 1 {}, .run 1 {}, .run 0 {}, .run 0 {},
    .run 0 {}] ++
  Call.alone (.rename rootIno [98] 3 [102] 5) 1 ++
  Call.alone (.rename rootIno [101] 3 [101] 6) 1 ++
  Call.alone (.unlink rootIno [97] 7) 1 ++
  Call.alone (.make .directory rootIno [100] 493 0 0 8) 2

/-- The daemon that the requests start from. -/
def freshTree : Pool Daemon Call NodeLog := ⟨freshDaemon 8 512 0 false, [], ⟨[], []⟩⟩

theorem freshTree_mounted : Mounted freshTree :=
  ⟨rfl, Index.Namespace.new 512 0, fun _ member => (by cases member), rfl⟩

/-- The tree at the end of the run: the second `d` has left inode 5 behind, and
the rest is in place. -/
theorem namespace_holds_in_every_run_tree :
    ∃ pool, Reachable (daemonSys sampleConfig) NodeLog.note Mounted fromKernel pool ∧
      pool.threads = [] ∧ pool.shared.idx.entry 3 [102] = some 2 ∧ pool.shared.idx.names 2 = 1 ∧
      pool.shared.idx.Namespace := by
  have plays : ((daemonSys sampleConfig).run NodeLog.note plainRenames freshTree
      treeRequests).map (fun pool =>
        (decide (pool.threads = []), pool.shared.idx.entry 3 [102], pool.shared.idx.names 2)) =
      some (true, some 2, 1) := by decide +kernel
  obtain ⟨pool, ran, shown⟩ := Option.map_eq_some_iff.mp plays
  obtain ⟨idle, rest⟩ := Prod.mk.inj shown
  obtain ⟨entry, names⟩ := Prod.mk.inj rest
  have reached : Reachable (daemonSys sampleConfig) NodeLog.note Mounted fromKernel pool :=
    Reachable.mono fromKernel_of_plainRenames (.of_run (.start freshTree_mounted) ran)
  exact ⟨pool, reached, of_decide_eq_true idle, entry, names, namespace_holds_in_every_run reached⟩

end Fusey
