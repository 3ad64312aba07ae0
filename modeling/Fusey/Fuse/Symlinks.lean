import Fusey.Index.SideTables
import Fusey.Fuse.Queries

/-!
Contract: symbolic links in every run of the daemon's calls (`Symlink` and
`Readlink` in `internal/fuse/fs.go`).

Owns:
- the log of the targets that `Symlink` was asked for, under the numbers that the
  new inodes got;
- that a target is the one asked for, and never changes;
- that a link without a target belongs to a `Symlink` that still runs, since that
  adds the entry before it sets the target, or to one that failed.
-/

set_option autoImplicit false

namespace Fusey

open Interleaving Index

/-! ### The log -/

/-- The target that was asked for each new link, and the new inodes that got no
entry. -/
structure LinkLog where
  asked : List (Ino × Name)
  failed : List Ino

/-- A link is asked for when its inode gets a number. -/
def LinkLog.note (log : LinkLog) : Call → Answer → LinkLog
  | .make (.symlink target) _ _ _ _ _ _, .created ino =>
      { log with asked := (ino, target) :: log.asked }
  | .makeEntry _ _ _ _ _, .done => log
  | .makeEntry _ _ _ ino _, _ => { log with failed := ino :: log.failed }
  | _, _ => log

/-- The call is a `Symlink` that has the inode `i` and has not set its target. -/
def Call.Links (i : Ino) : Call → Prop
  | .makeEntry (.symlink _) _ _ ino _ | .makeTarget ino _ _ => ino = i
  | _ => False

/-- A `Symlink` in flight is about to set the target it was asked for. -/
def Call.LinksAsAsked (log : LinkLog) : Call → Prop
  | .makeEntry (.symlink target) _ _ ino _ | .makeTarget ino target _ => (ino, target) ∈ log.asked
  | .mutate _ => False
  | _ => True

/-- The rest of the log grows. -/
theorem LinkLog.note_grows (log : LinkLog) (c : Call) (a : Answer) :
    log.asked ⊆ (log.note c a).asked ∧ log.failed ⊆ (log.note c a).failed := by
  unfold LinkLog.note
  split
  · exact ⟨List.subset_cons_self _ _, List.Subset.refl _⟩
  · exact ⟨List.Subset.refl _, List.Subset.refl _⟩
  · exact ⟨List.Subset.refl _, List.subset_cons_self _ _⟩
  · exact ⟨List.Subset.refl _, List.Subset.refl _⟩

theorem Call.LinksAsAsked.mono {log : LinkLog} {u : Call} (asked : u.LinksAsAsked log) (c : Call)
    (a : Answer) : u.LinksAsAsked (log.note c a) := by
  have grows := (log.note_grows c a).1
  cases u with
  | makeEntry kind parent name ino now =>
      cases kind with
      | symlink target => exact grows asked
      | _ => trivial
  | makeTarget ino target now => exact grows asked
  | mutate m => exact asked
  | _ => trivial

/-! ### The invariant -/

/-- The links of an index, against the log and the calls in flight. -/
structure LinksLogged (idx : Index) (log : LinkLog) (threads : List Call) : Prop where
  asked : ∀ i target, idx.symlinks.get i = some target → (i, target) ∈ log.asked
  made : ∀ i, idx.typeOf i = some .symlink →
    idx.symlinks.get i ≠ none ∨ i ∈ log.failed ∨ ∃ c ∈ threads, c.Links i
  owned : ∀ i, idx.symlinks.get i ≠ none → idx.typeOf i = some .symlink
  once : (log.asked.map Prod.fst).Nodup
  known : ∀ i ∈ log.asked.map Prod.fst, i < idx.nextIno
  numbered : ∀ i, idx.typeOf i ≠ none → i < idx.nextIno
  inFlight : ∀ c ∈ threads, c.LinksAsAsked log

/-- Everything a step can do to one number and its target. -/
theorem Daemon.apply_link {d d' : Daemon} {e : Effect} {o : Oracle} {a : Answer}
    (applied : d.apply e o = some (d', a)) (i : Ino) :
    (d'.idx.typeOf i = d.idx.typeOf i ∧ d'.idx.symlinks.get i = d.idx.symlinks.get i) ∨
      (∃ fileType mode uid gid rdev now,
        e = .mutate (.createInode fileType mode uid gid rdev now) ∧ i = d.idx.nextIno ∧
        d'.idx.typeOf i = some fileType ∧ d'.idx.symlinks.get i = d.idx.symlinks.get i) ∨
      (d'.idx.typeOf i = none ∧ d'.idx.symlinks.get i = none) ∨
      ∃ target now, e = .mutate (.setSymlink i target now) ∧ d.idx.typeOf i = some .symlink ∧
        d'.idx.typeOf i = some .symlink ∧ d'.idx.symlinks.get i = some target := by
  rcases Daemon.apply_idx applied with same | ⟨m, asks, done, -⟩ | ⟨-, same⟩ | ⟨-, same⟩
  · exact Or.inl ⟨by rw [same], by rw [same]⟩
  · cases Mutation.side done i with
    | kept _ types symlinks _ => exact Or.inl ⟨types, symlinks⟩
    | created asked isNew _ types symlinks _ =>
        exact Or.inr (Or.inl ⟨_, _, _, _, _, _, asked ▸ asks, isNew, types, symlinks⟩)
    | freed _ types symlinks _ => exact Or.inr (Or.inr (Or.inl ⟨types, symlinks⟩))
    | linked asked before types symlinks _ =>
        exact Or.inr (Or.inr (Or.inr ⟨_, _, asked ▸ asks, before, types.trans before, symlinks⟩))
    | attributed _ _ types symlinks _ => exact Or.inl ⟨types, symlinks⟩
    | stripped _ _ types symlinks _ => exact Or.inl ⟨types, symlinks⟩
  · exact Or.inl ⟨by rw [same]; rfl, by rw [same]; rfl⟩
  · exact Or.inl ⟨by rw [same]; rfl, by rw [same]; rfl⟩

/-- A step of the `Symlink` that has an inode leaves the target, the failure, or the
rest of the call. -/
theorem Call.Links.step {cfg : Config} {d d' : Daemon} {o : Oracle} {a : Answer} {c : Call}
    {i : Ino} (links : c.Links i) (applied : d.apply c.effect o = some (d', a))
    (still : d'.idx.typeOf i = some .symlink) (log : LinkLog) :
    d'.idx.symlinks.get i ≠ none ∨ i ∈ (log.note c a).failed ∨
      ∃ u ∈ remaining (c.resume cfg a), u.Links i := by
  cases c with
  | makeEntry kind parent name ino now =>
      cases kind with
      | symlink target =>
          simp only [Call.effect, Daemon.apply, Daemon.mutate, Option.some.injEq] at applied
          split at applied <;> cases applied
          · exact Or.inr (Or.inr ⟨_, List.mem_singleton.mpr rfl, links⟩)
          · exact Or.inr (Or.inl (List.mem_cons.mpr (Or.inl links.symm)))
          · exact Or.inr (Or.inl (List.mem_cons.mpr (Or.inl links.symm)))
      | _ => exact links.elim
  | makeTarget ino target now =>
      cases links
      left
      rcases Daemon.apply_mutate applied with ⟨idx, done, rfl, -⟩ | ⟨rfl, failed⟩
      · obtain ⟨inode, -, -, rfl⟩ := setSymlink_ok done
        have isSet := GoMap.get_set_self d.idx.symlinks i target
        exact fun missing => by cases isSet.symm.trans missing
      · -- `SetSymlink` reports only an inode that is gone or is no link.
        obtain ⟨inode, stored, isSymlink⟩ := typeOf_eq_some.mp still
        simp only [Call.effect, Daemon.apply, Daemon.mutate, Mutation.apply, setSymlink, stored,
          isSymlink, ne_eq, not_true_eq_false, if_false, Option.some.injEq,
            Prod.mk.injEq] at applied
        rcases failed with ⟨failure, rfl⟩ | rfl <;> cases applied.2
  | _ => exact links.elim

namespace LinksLogged

variable {cfg : Config} {d d' : Daemon} {log : LinkLog} {before after : List Call} {c : Call}
  {o : Oracle} {a : Answer}

theorem step_made (logged : LinksLogged d.idx log (before ++ c :: after))
    (applied : d.apply c.effect o = some (d', a)) {i : Ino}
    (still : d'.idx.typeOf i = some .symlink) :
    d'.idx.symlinks.get i ≠ none ∨ i ∈ (log.note c a).failed ∨
      ∃ u ∈ before ++ remaining (c.resume cfg a) ++ after, u.Links i := by
  have stays : ∀ {u}, u ∈ remaining (c.resume cfg a) →
      u ∈ before ++ remaining (c.resume cfg a) ++ after :=
    fun member => List.mem_append_left _ (List.mem_append_right _ member)
  rcases Daemon.apply_link applied i with ⟨types, symlinks⟩ |
    ⟨fileType, mode, uid, gid, rdev, now, asks, isNew, types, -⟩ | ⟨gone, -⟩ |
    ⟨_, _, -, -, -, isSet⟩
  · rcases logged.made i (types ▸ still) with isSet | failed | ⟨u, member, links⟩
    · exact Or.inl (symlinks ▸ isSet)
    · exact Or.inr (Or.inl ((log.note_grows c a).2 failed))
    · rcases List.mem_append.mp member with isBefore | rest
      · exact Or.inr (Or.inr ⟨u, List.mem_append_left _ (List.mem_append_left _ isBefore), links⟩)
      · rcases List.mem_cons.mp rest with rfl | isAfter
        · exact (links.step applied still log).imp_right (Or.imp_right fun ⟨v, isNext, next⟩ =>
            ⟨v, stays isNext, next⟩)
        · exact Or.inr (Or.inr ⟨u, List.mem_append_right _ isAfter, links⟩)
  · have asked := logged.inFlight c (List.mem_append_right _ List.mem_cons_self)
    cases types.symm.trans still
    cases c with
    | make kind parent name mode uid gid now =>
        cases kind with
        | symlink target =>
            obtain ⟨-, rfl⟩ := Daemon.apply_createInode applied
            exact Or.inr (Or.inr ⟨_, stays (List.mem_singleton.mpr rfl), isNew.symm⟩)
        | _ => cases asks
    | mutate m => exact asked.elim
    | _ => cases asks
  · rw [gone] at still
    cases still
  · rw [isSet]
    exact Or.inl (Option.some_ne_none _)

theorem step_asked (logged : LinksLogged d.idx log (before ++ c :: after))
    (applied : d.apply c.effect o = some (d', a)) {i : Ino} {target : Name}
    (isSet : d'.idx.symlinks.get i = some target) : (i, target) ∈ (log.note c a).asked := by
  refine (log.note_grows c a).1 ?_
  rcases Daemon.apply_link applied i with ⟨-, symlinks⟩ | ⟨_, _, _, _, _, _, -, -, -, symlinks⟩ |
    ⟨-, none⟩ | ⟨target', now, asks, -, -, given⟩
  · exact logged.asked i target (symlinks.symm.trans isSet)
  · exact logged.asked i target (symlinks.symm.trans isSet)
  · rw [none] at isSet
    cases isSet
  · have asked := logged.inFlight c (List.mem_append_right _ List.mem_cons_self)
    cases given.symm.trans isSet
    cases c with
    | makeTarget ino target' now' =>
        cases asks
        exact asked
    | mutate m => exact asked.elim
    | _ => cases asks

theorem step_owned (logged : LinksLogged d.idx log (before ++ c :: after))
    (applied : d.apply c.effect o = some (d', a)) {i : Ino}
    (isSet : d'.idx.symlinks.get i ≠ none) : d'.idx.typeOf i = some .symlink := by
  rcases Daemon.apply_link applied i with ⟨types, symlinks⟩ |
    ⟨_, _, _, _, _, _, -, isNew, -, symlinks⟩ | ⟨-, none⟩ | ⟨_, _, -, -, types, -⟩
  · exact types.trans (logged.owned i (symlinks ▸ isSet))
  · -- The next number has had no target.
    have typed := logged.owned i (symlinks ▸ isSet)
    refine absurd (logged.numbered i ?_) (isNew ▸ Nat.lt_irrefl _)
    rw [typed]
    exact Option.some_ne_none _
  · exact absurd none isSet
  · exact types

theorem step_numbered (logged : LinksLogged d.idx log (before ++ c :: after))
    (applied : d.apply c.effect o = some (d', a)) {i : Ino}
    (there : d'.idx.typeOf i ≠ none) : i < d'.idx.nextIno := by
  have later := Daemon.nextIno_le applied
  rcases Daemon.apply_link applied i with ⟨types, -⟩ |
    ⟨_, _, _, _, _, _, asks, isNew, -, -⟩ | ⟨gone, -⟩ | ⟨_, _, -, was, -, -⟩
  · exact Nat.lt_of_lt_of_le (logged.numbered i (types ▸ there)) later
  · rw [asks] at applied
    rw [(Daemon.apply_createInode applied).1, isNew]
    exact Nat.lt_succ_self _
  · exact absurd gone there
  · refine Nat.lt_of_lt_of_le (logged.numbered i ?_) later
    rw [was]
    exact Option.some_ne_none _

/-- A new link is asked for under the number that it gets. -/
theorem note_asked (log : LinkLog) (applied : d.apply c.effect o = some (d', a)) :
    (log.note c a).asked = log.asked ∨
      d'.idx.nextIno = d.idx.nextIno + 1 ∧
        ∃ target, (log.note c a).asked = (d.idx.nextIno, target) :: log.asked := by
  cases c with
  | make kind parent name mode uid gid now =>
      obtain ⟨rfl, rfl⟩ := Daemon.apply_createInode applied
      cases kind with
      | symlink target => exact Or.inr ⟨rfl, target, rfl⟩
      | _ => exact Or.inl rfl
  | makeEntry kind parent name ino now =>
      left
      unfold LinkLog.note
      split <;> first | rfl | contradiction
  | _ => exact Or.inl rfl

theorem step_inFlight (logged : LinksLogged d.idx log (before ++ c :: after))
    {u : Call} (member : u ∈ before ++ remaining (c.resume cfg a) ++ after) :
    u.LinksAsAsked (log.note c a) := by
  have self := logged.inFlight c (List.mem_append_right _ List.mem_cons_self)
  rw [List.append_assoc, List.mem_append, List.mem_append] at member
  rcases member with isBefore | isNext | isAfter
  · exact (logged.inFlight u (List.mem_append_left _ isBefore)).mono c a
  · cases continues : c.resume cfg a with
    | inr r =>
        rw [continues] at isNext
        cases isNext
    | inl next =>
        rw [continues] at isNext
        cases List.mem_singleton.mp isNext
        cases Call.follows_of_resume continues
        case makeEntry kind parent name mode uid gid now ino =>
          cases kind with
          | symlink target => exact List.mem_cons_self
          | _ => trivial
        case makeTarget => exact self
        case readFirst | readNext =>
          unfold Call.nextRead
          split <;> trivial
        all_goals trivial
  · exact (logged.inFlight u (List.mem_append_right _ (List.mem_cons_of_mem _ isAfter))).mono c a

theorem step (logged : LinksLogged d.idx log (before ++ c :: after))
    (applied : d.apply c.effect o = some (d', a)) :
    LinksLogged d'.idx (log.note c a) (before ++ remaining (c.resume cfg a) ++ after) := by
  have later := Daemon.nextIno_le applied
  have known : ∀ i ∈ log.asked.map Prod.fst, i < d'.idx.nextIno :=
    fun i member => Nat.lt_of_lt_of_le (logged.known i member) later
  refine ⟨fun _ _ => logged.step_asked applied, fun _ => logged.step_made applied,
    fun _ => logged.step_owned applied, ?_, ?_, fun _ => logged.step_numbered applied,
    fun _ => logged.step_inFlight⟩
  · rcases note_asked log applied with same | ⟨-, target, grown⟩
    · rw [same]
      exact logged.once
    · rw [grown, List.map_cons, List.nodup_cons]
      exact ⟨fun member => Nat.lt_irrefl _ (logged.known _ member), logged.once⟩
  · rcases note_asked log applied with same | ⟨next, target, grown⟩
    · rw [same]
      exact known
    · rw [grown, List.map_cons, List.forall_mem_cons]
      refine ⟨?_, known⟩
      rw [next]
      exact Nat.lt_succ_self _

/-- A request has not asked for anything yet. -/
theorem spawn {idx : Index} {threads : List Call} (logged : LinksLogged idx log threads)
    (request : c.IsRequest) : LinksLogged idx log (threads ++ [c]) := by
  refine ⟨logged.asked, fun i isLink => ?_, logged.owned, logged.once, logged.known,
    logged.numbered, fun u member => ?_⟩
  · exact (logged.made i isLink).imp_right (Or.imp_right fun ⟨u, member, links⟩ =>
      ⟨u, List.mem_append_left _ member, links⟩)
  · rcases List.mem_append.mp member with old | isNew
    · exact logged.inFlight u old
    · rw [List.mem_singleton.mp isNew]
      cases c <;> trivial

theorem new (blockSize now : Int) : LinksLogged (Index.new blockSize now) ⟨[], []⟩ [] := by
  have atRoot : (Index.new blockSize now).typeOf rootIno = some .directory := by
    simp only [typeOf, Index.new, GoMap.get_set_self, Option.map_some]
  refine ⟨fun i target isSet => (by cases isSet), fun i isLink => ?_,
    fun i isSet => absurd rfl isSet, List.nodup_nil, fun i member => (by cases member),
    fun i there => ?_, fun c member => (by cases member)⟩
  · by_cases isRoot : i = rootIno
    · rw [isRoot, atRoot] at isLink
      cases isLink
    · rw [typeOf_new_of_ne isRoot] at isLink
      cases isLink
  · rw [not_not.mp (mt typeOf_new_of_ne there)]
    exact Nat.lt_succ_self _

end LinksLogged

/-! ### Runs -/

theorem LinksLogged.of_reachable {cfg : Config} {pool : Pool Daemon Call LinkLog}
    (reached :
      Reachable (daemonSys cfg) LinkLog.note (EmptyFilesystem ⟨[], []⟩) requestsOnly pool) :
    LinksLogged pool.shared.idx pool.record pool.threads := by
  have initially : ∀ pool : Pool Daemon Call LinkLog, EmptyFilesystem ⟨[], []⟩ pool →
      LinksLogged pool.shared.idx pool.record pool.threads := by
    rintro pool ⟨maxChunkSize, blockSize, now, cached, rfl⟩
    exact .new blockSize now
  refine reached.invariant initially ?_
  intro pool next event logged admitted taken
  rcases Sys.step_cases taken with
    ⟨c, rfl, rfl⟩ | ⟨before, c, after, o, d', a, -, isPool, applied, rfl⟩
  · exact logged.spawn admitted
  · rw [isPool] at logged
    exact logged.step applied

/-- In every run, a `Readlink` that returns a target returns the one that the
`Symlink` of that inode was asked for, whatever other calls do, and one that returns
`EINVAL` for a link finds it between the steps of that `Symlink`, or without an
entry because the `Symlink` failed. -/
theorem readlink_answers_what_was_asked {cfg : Config} {pool : Pool Daemon Call LinkLog}
    (reached : Reachable (daemonSys cfg) LinkLog.note (EmptyFilesystem ⟨[], []⟩) requestsOnly pool)
    (ino : Ino) (o : MapOrders) :
    (∀ target, (Query.readlink ino).look pool.shared.idx o = some (.inr (.target target)) →
      pool.shared.idx.typeOf ino = some .symlink ∧
        ∀ asked, (ino, asked) ∈ pool.record.asked ↔ asked = target) ∧
    ((Query.readlink ino).look pool.shared.idx o = some (.inr .einval) →
      pool.shared.idx.typeOf ino ≠ some .symlink ∨ ino ∈ pool.record.failed ∨
        ∃ c ∈ pool.threads, c.Links ino) := by
  have logged := LinksLogged.of_reachable reached
  constructor
  · intro target answers
    have isSet : pool.shared.idx.symlinks.get ino = some target := by
      simp only [Query.look] at answers
      split at answers
      · cases answers
      · cases answers
        assumption
    have isAsked := logged.asked ino target isSet
    refine ⟨logged.owned ino ?_, fun asked => ⟨fun member => ?_, fun same => same ▸ isAsked⟩⟩
    · rw [isSet]
      exact Option.some_ne_none _
    · exact congrArg Prod.snd (List.inj_on_of_nodup_map logged.once member isAsked rfl)
  · intro answers
    have unset : pool.shared.idx.symlinks.get ino = none := by
      simp only [Query.look] at answers
      split at answers
      · assumption
      · cases answers
    by_cases isLink : pool.shared.idx.typeOf ino = some .symlink
    · exact Or.inr ((logged.made ino isLink).resolve_left (not_not.mpr unset))
    · exact Or.inl isLink

/-- A link `l` to `t` is made and renamed, and a second one has its entry but not its
target. -/
def linksMade : List (Event Call Oracle) :=
  Call.alone (.make (.symlink [116]) rootIno [108] 0 0 0 1) 4 ++
    Call.alone (.rename rootIno [108] rootIno [109] 2) 1 ++
    Call.alone (.make (.symlink [117]) rootIno [110] 0 0 0 3) 2

/-- The first link has its target under the new name, the second not yet. -/
theorem readlink_answers_what_was_asked_renamed :
    ∃ pool : Pool Daemon Call LinkLog,
      Reachable (daemonSys sampleConfig) LinkLog.note (EmptyFilesystem ⟨[], []⟩) requestsOnly pool ∧
      (2, [116]) ∈ pool.record.asked ∧
      (pool.shared.idx.typeOf 3 ≠ some .symlink ∨ 3 ∈ pool.record.failed ∨
        ∃ c ∈ pool.threads, c.Links 3) := by
  have plays : ((daemonSys sampleConfig).run LinkLog.note requestsOnly
      ⟨freshDaemon 8 4096 0 false, [], ⟨[], []⟩⟩ linksMade).map (fun pool =>
        ((Query.readlink 2).look pool.shared.idx {}, (Query.readlink 3).look pool.shared.idx {})) =
      some (some (.inr (.target [116])), some (.inr .einval)) := by
    decide +kernel
  obtain ⟨pool, ran, shown⟩ := Option.map_eq_some_iff.mp plays
  obtain ⟨first, second⟩ := Prod.mk.inj shown
  have reached : Reachable (daemonSys sampleConfig) LinkLog.note (EmptyFilesystem ⟨[], []⟩)
      requestsOnly pool := .of_run (.start ⟨8, 4096, 0, false, rfl⟩) ran
  refine ⟨pool, reached, ?_, ?_⟩
  · exact (((readlink_answers_what_was_asked reached 2 {}).1 [116] first).2 [116]).mpr rfl
  · exact (readlink_answers_what_was_asked reached 3 {}).2 second

end Fusey
