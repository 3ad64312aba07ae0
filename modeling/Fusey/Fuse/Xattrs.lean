import Fusey.GoLib.Terminated
import Fusey.Index.SideTables
import Fusey.Fuse.Queries

/-!
Contract: extended attributes in every run of the daemon's calls (`Setxattr`,
`Removexattr`, `Getxattr` and `Listxattr` in `internal/fuse/fs.go`).

Owns:
- the log of the changes that took effect, and what it says about an attribute;
- that the attributes of an inode are what the log says, for as long as the inode
  is there, so that nothing else sets, removes or carries over an attribute;
- the list of names that `Listxattr` writes, against a reader of lists of
  zero-terminated names, and the size that it returns for an empty buffer.
-/

set_option autoImplicit false

namespace Fusey

open Interleaving Index

/-! ### The log -/

/-- A change of one attribute: the value it got, or `none` for its removal. -/
structure AttrSet where
  ino : Ino
  name : Name
  value : Option Name
deriving DecidableEq

/-- The changes that took effect, the latest first. -/
abbrev AttrLog := List AttrSet

namespace AttrLog

/-- What the log says about an attribute. -/
def value (log : AttrLog) (ino : Ino) (name : Name) : Option Name :=
  (log.find? fun set => decide (set.ino = ino ∧ set.name = name)).bind AttrSet.value

/-- The change that a mutator makes. -/
def record (log : AttrLog) : Mutation → AttrLog
  | .setXattr ino name value _ => ⟨ino, name, some value⟩ :: log
  | .removeXattr ino name _ => ⟨ino, name, none⟩ :: log
  | _ => log

/-- The changes are noted when the call gets its answer. -/
def note (log : AttrLog) : Call → Answer → AttrLog
  | .setxattr ino attr value now, .done => log.record (.setXattr ino attr value now)
  | .removexattr ino attr now, .done => log.record (.removeXattr ino attr now)
  | _, _ => log

theorem value_cons (set : AttrSet) (log : AttrLog) (ino : Ino) (name : Name) :
    value (set :: log) ino name =
      if set.ino = ino ∧ set.name = name then set.value else log.value ino name := by
  unfold value
  rw [List.find?_cons]
  split_ifs with isIt
  · rw [decide_eq_true isIt]
    rfl
  · rw [decide_eq_false isIt]

theorem value_eq_none {log : AttrLog} {ino : Ino} (unset : ∀ set ∈ log, set.ino ≠ ino)
    (name : Name) : log.value ino name = none := by
  unfold value
  rw [List.find?_eq_none.mpr]
  · rfl
  · intro set member same
    exact unset set member (of_decide_eq_true same).1

/-- What the log gives a value has been set. -/
theorem mem_of_value {log : AttrLog} {ino : Ino} {name : Name}
    (given : log.value ino name ≠ none) : ∃ set ∈ log, set.name = name := by
  by_contra unset
  push Not at unset
  refine given ?_
  unfold value
  rw [List.find?_eq_none.mpr]
  · rfl
  · intro set member same
    exact unset set member (of_decide_eq_true same).2

end AttrLog

/-! ### The invariant -/

/-- The attributes are what the log says, and only inodes have any. -/
structure AttrsLogged (idx : Index) (log : AttrLog) : Prop where
  kept : ∀ i, idx.typeOf i ≠ none → ∀ name, (idx.getXattrs i).get name = log.value i name
  owned : ∀ i, idx.typeOf i = none → idx.xattrs.get i = none
  numbered : ∀ i, idx.typeOf i ≠ none → i < idx.nextIno
  logged : ∀ set ∈ log, set.ino < idx.nextIno
  clean : ∀ set ∈ log, 0 ∉ set.name

/-- The name that a mutator gives an attribute has no zero byte. -/
def Mutation.CleanAttr : Mutation → Prop
  | .setXattr _ name _ _ => 0 ∉ name
  | _ => True

namespace AttrsLogged

variable {idx idx' : Index} {log : AttrLog} {m : Mutation}

/-- What a mutator adds to the log is about an inode that is there. -/
theorem mem_record {set : AttrSet} (member : set ∈ log.record m) :
    set ∈ log ∨ (∃ value now, m = .setXattr set.ino set.name value now) ∨
      ∃ now, m = .removeXattr set.ino set.name now := by
  cases m with
  | setXattr ino name value now =>
      rcases List.mem_cons.mp member with rfl | old
      · exact Or.inr (Or.inl ⟨value, now, rfl⟩)
      · exact Or.inl old
  | removeXattr ino name now =>
      rcases List.mem_cons.mp member with rfl | old
      · exact Or.inr (Or.inr ⟨now, rfl⟩)
      · exact Or.inl old
  | _ => exact Or.inl member

/-- The log grows by a change of one attribute of one inode. -/
theorem value_record_of_other {i : Ino} (other : ¬ m.SetsTable i) (name : Name) :
    (log.record m).value i name = log.value i name := by
  cases m with
  | setXattr ino attr value now =>
      unfold AttrLog.record
      rw [AttrLog.value_cons, if_neg fun same => other same.1]
  | removeXattr ino attr now =>
      unfold AttrLog.record
      rw [AttrLog.value_cons, if_neg fun same => other same.1]
  | _ => rfl

/-- A change is about an inode that is there. -/
theorem mem_record_known (logged : AttrsLogged idx log) (applied : m.apply idx = .ok idx')
    {set : AttrSet} (member : set ∈ log.record m) : set.ino < idx.nextIno := by
  have known : ∀ {inode}, idx.inodes.get set.ino = some inode → set.ino < idx.nextIno := by
    intro inode stored
    refine logged.numbered _ ?_
    rw [typeOf_eq_some.mpr ⟨inode, stored, rfl⟩]
    exact Option.some_ne_none _
  rcases mem_record member with old | ⟨value, now, rfl⟩ | ⟨now, rfl⟩
  · exact logged.logged set old
  · obtain ⟨inode, stored, -⟩ := setXattr_ok applied
    exact known stored
  · obtain ⟨inode, stored, -⟩ := removeXattr_ok applied
    exact known stored

/-- Only the changes of the log change an attribute, and what is set on an inode
ends with it: the next number has never been used. -/
theorem mutated (logged : AttrsLogged idx log) (applied : m.apply idx = .ok idx')
    (clean : m.CleanAttr) : AttrsLogged idx' (log.record m) := by
  have later := Mutation.nextIno_le applied
  have attrs : ∀ {i}, idx'.xattrs.get i = idx.xattrs.get i →
      idx'.getXattrs i = idx.getXattrs i := by
    intro i same
    unfold getXattrs
    rw [same]
  have unused : idx.typeOf idx.nextIno = none :=
    not_not.mp fun there => Nat.lt_irrefl _ (logged.numbered _ there)
  refine ⟨fun i there name => ?_, fun i gone => ?_, fun i there => ?_, fun set member =>
    Nat.lt_of_lt_of_le (logged.mem_record_known applied member) later, fun set member => ?_⟩
  · cases Mutation.side applied i with
    | kept other types _ xattrs =>
        rw [attrs xattrs, value_record_of_other other]
        exact logged.kept i (types ▸ there) name
    | created asked isNew _ _ _ xattrs =>
        rw [attrs xattrs, asked, isNew]
        unfold getXattrs
        rw [logged.owned _ unused]
        unfold AttrLog.record
        rw [AttrLog.value_eq_none fun set member => Nat.ne_of_lt (logged.logged set member)]
        rfl
    | freed _ types _ _ => exact absurd types there
    | linked asked _ types _ xattrs =>
        rw [attrs xattrs, asked]
        exact logged.kept i (types ▸ there) name
    | @attributed attr value now asked before _ _ xattrs =>
        rw [xattrs, asked, GoMap.get_set, logged.kept i before name]
        unfold AttrLog.record
        rw [AttrLog.value_cons]
        simp only [true_and, eq_comm]
    | @stripped attr now asked before _ _ xattrs =>
        rw [xattrs, asked, GoMap.get_delete, logged.kept i before name]
        unfold AttrLog.record
        rw [AttrLog.value_cons]
        simp only [true_and, eq_comm]
  · cases Mutation.side applied i with
    | kept _ types _ xattrs => exact xattrs.trans (logged.owned i (types ▸ gone))
    | created _ isNew _ _ _ xattrs =>
        rw [xattrs, isNew]
        exact logged.owned _ unused
    | freed _ _ _ xattrs => exact xattrs
    | linked _ _ types _ xattrs => exact xattrs.trans (logged.owned i (types ▸ gone))
    | attributed _ before types _ _ => exact absurd (types ▸ gone) before
    | stripped _ before types _ _ => exact absurd (types ▸ gone) before
  · cases Mutation.side applied i with
    | kept _ types _ _ => exact Nat.lt_of_lt_of_le (logged.numbered i (types ▸ there)) later
    | created _ _ next _ _ _ =>
        rw [next]
        exact Nat.lt_succ_self i
    | freed _ types _ _ => exact absurd types there
    | linked _ _ types _ _ => exact Nat.lt_of_lt_of_le (logged.numbered i (types ▸ there)) later
    | attributed _ before _ _ _ => exact Nat.lt_of_lt_of_le (logged.numbered i before) later
    | stripped _ before _ _ _ => exact Nat.lt_of_lt_of_le (logged.numbered i before) later
  · rcases mem_record member with old | ⟨value, now, rfl⟩ | ⟨now, rfl⟩
    · exact logged.clean set old
    · exact clean
    · -- A removed attribute was there, so its name has been set before.
      obtain ⟨inode, stored, -⟩ := removeXattr_ok applied
      have there : idx.typeOf set.ino ≠ none := by
        rw [typeOf_eq_some.mpr ⟨inode, stored, rfl⟩]
        exact Option.some_ne_none _
      have given : log.value set.ino set.name ≠ none := by
        rw [← logged.kept set.ino there set.name]
        exact removeXattr_present applied
      obtain ⟨old, isOld, sameName⟩ := AttrLog.mem_of_value given
      exact sameName ▸ logged.clean old isOld

end AttrsLogged

/-! ### Runs -/

/-- The calls in flight, with attribute names as the kernel passes them: they end
at their first zero byte. -/
def Call.CleanAttr : Call → Prop
  | .setxattr _ attr _ _ => 0 ∉ attr
  | .mutate _ => False
  | _ => True

instance (c : Call) : Decidable c.CleanAttr := by
  induction c using Call.casesOn <;> dsimp only [Call.CleanAttr] <;> infer_instance

/-- Requests with such names. -/
def cleanRequests (_ : Pool Daemon Call AttrLog) : Event Call Oracle → Prop
  | .spawn c => c.IsRequest ∧ c.CleanAttr
  | .run _ _ => True

instance (pool : Pool Daemon Call AttrLog) (event : Event Call Oracle) :
    Decidable (cleanRequests pool event) := by
  induction event using Event.casesOn <;> dsimp only [cleanRequests] <;> infer_instance

theorem AttrsLogged.new (blockSize now : Int) : AttrsLogged (Index.new blockSize now) [] := by
  refine ⟨fun i _ name => rfl, fun i _ => rfl, fun i there => ?_, fun _ member => (by cases member),
    fun _ member => (by cases member)⟩
  rw [not_not.mp (mt typeOf_new_of_ne there)]
  exact Nat.lt_succ_self _

theorem AttrsLogged.of_flags {idx : Index} {log : AttrLog} (logged : AttrsLogged idx log)
    (dirty remote : Bool) :
    AttrsLogged { idx with dirty := dirty, remoteDirty := remote } log :=
  ⟨logged.kept, logged.owned, logged.numbered, logged.logged, logged.clean⟩

/-- A mutator that fails is not noted, and one that succeeds is noted as it is. -/
theorem AttrLog.note_mutate (log : AttrLog) {d d' : Daemon} {o : Oracle} {a : Answer} {c : Call}
    {m : Mutation} (clean : c.CleanAttr) (asks : c.effect = .mutate m)
    (applied : d.apply c.effect o = some (d', a)) :
    (∃ idx, m.apply d.idx = .ok idx ∧ d'.idx = idx ∧ log.note c a = log.record m) ∨
      d'.idx = d.idx ∧ log.note c a = log := by
  rw [asks] at applied
  simp only [Daemon.apply, Daemon.mutate, Option.some.injEq] at applied
  split at applied <;> cases applied
  next idx done =>
    refine Or.inl ⟨idx, done, rfl, ?_⟩
    cases c <;> cases asks <;> first | rfl | exact clean.elim
  next =>
    refine Or.inr ⟨rfl, ?_⟩
    cases c <;> rfl
  next =>
    refine Or.inr ⟨rfl, ?_⟩
    cases c <;> rfl

theorem AttrsLogged.step {d d' : Daemon} {o : Oracle} {a : Answer} {c : Call} {log : AttrLog}
    (logged : AttrsLogged d.idx log) (clean : c.CleanAttr)
    (applied : d.apply c.effect o = some (d', a)) : AttrsLogged d'.idx (log.note c a) := by
  by_cases mutates : ∃ m, c.effect = .mutate m
  · obtain ⟨m, asks⟩ := mutates
    rcases log.note_mutate clean asks applied with
      ⟨idx, done, rfl, noted⟩ | ⟨same, noted⟩ <;> rw [noted]
    · refine logged.mutated done ?_
      cases c <;> cases asks <;> trivial
    · rw [same]
      exact logged
  · have noted : log.note c a = log := by
      cases c <;> first | rfl | exact absurd ⟨_, rfl⟩ mutates
    rw [noted]
    rcases Daemon.apply_idx applied with same | ⟨m, asks, -, -⟩ | ⟨-, same⟩ | ⟨-, same⟩
    · rw [same]
      exact logged
    · exact absurd ⟨m, asks⟩ mutates
    · rw [same]
      exact logged.of_flags false d.idx.remoteDirty
    · rw [same]
      exact logged.of_flags d.idx.dirty false

theorem Call.CleanAttr.follows {cfg : Config} {c c' : Call} {a : Answer}
    (follows : c.Follows cfg a c') : c'.CleanAttr := by
  cases follows <;> try trivial
  case readFirst | readNext =>
    unfold nextRead
    split <;> trivial

theorem AttrsLogged.of_reachable {cfg : Config} {pool : Pool Daemon Call AttrLog}
    (reached : Reachable (daemonSys cfg) AttrLog.note (EmptyFilesystem []) cleanRequests pool) :
    AttrsLogged pool.shared.idx pool.record := by
  refine (Reachable.local_invariant (fun d log => AttrsLogged d.idx log)
    (fun _ _ c => c.CleanAttr) ?_ (fun _ _ _ admitted => admitted.2) ?_ reached).1
  · rintro pool ⟨maxChunkSize, blockSize, now, cached, rfl⟩
    exact ⟨.new blockSize now, fun c member => by cases member⟩
  · intro d log before c after o d' a logged each _ applied
    refine ⟨logged.step (each c (List.mem_append_right _ List.mem_cons_self)) applied,
      fun c' continues => Call.CleanAttr.follows (Call.follows_of_resume continues),
      fun u member => each u (mem_of_mem_others c member)⟩

/-! ### Reading attributes -/

/-- What `Getxattr` and `Listxattr` read, in the words of the log. -/
theorem AttrsLogged.get_getXattrs {idx : Index} {log : AttrLog} (logged : AttrsLogged idx log)
    (ino : Ino) (name : Name) :
    (idx.getXattrs ino).get name = if idx.typeOf ino = none then none else log.value ino name := by
  split_ifs with gone
  · unfold getXattrs
    rw [logged.owned ino gone]
    rfl
  · exact logged.kept ino gone name

/-- At every point of every run, `Getxattr` answers with the value of the latest
`Setxattr` of that attribute that took effect, if no `Removexattr` has taken effect
since and the inode is there, and with `ENODATA` otherwise. -/
theorem getxattr_answers_latest {cfg : Config} {pool : Pool Daemon Call AttrLog}
    (reached : Reachable (daemonSys cfg) AttrLog.note (EmptyFilesystem []) cleanRequests pool)
    (ino : Ino) (attr : Name) (dest : Nat) (o : MapOrders) :
    (Query.getxattr ino attr dest).look pool.shared.idx o = some (.inr
      (match if pool.shared.idx.typeOf ino = none then none else pool.record.value ino attr with
        | none => .errno .enodata
        | some value => fillBuffer dest value)) := by
  simp only [Query.look, (AttrsLogged.of_reachable reached).get_getXattrs]
  generalize (if pool.shared.idx.typeOf ino = none then none
    else pool.record.value ino attr) = found
  cases found <;> rfl

/-- A file `a` gets the attribute `x` twice and `y` once, and `y` is removed. -/
def attributesSet : List (Event Call Oracle) :=
  Call.alone (.make .regular rootIno [97] 420 0 0 1) 3 ++
    Call.alone (.setxattr 2 [120] [1] 2) 1 ++ Call.alone (.setxattr 2 [121] [7] 3) 1 ++
    Call.alone (.setxattr 2 [120] [5, 6] 4) 1 ++ Call.alone (.removexattr 2 [121] 5) 1

/-- The later value of `x` is read, and `y` is gone. -/
theorem getxattr_answers_latest_twice_set :
    ∃ pool : Pool Daemon Call AttrLog,
      Reachable (daemonSys sampleConfig) AttrLog.note (EmptyFilesystem []) cleanRequests pool ∧
      (Query.getxattr 2 [120] 9).look pool.shared.idx {} = some (.inr (.count 2 [5, 6])) ∧
      (Query.getxattr 2 [121] 9).look pool.shared.idx {} = some (.inr (.errno .enodata)) := by
  have plays : ((daemonSys sampleConfig).run AttrLog.note cleanRequests
      ⟨freshDaemon 8 4096 0 false, [], []⟩ attributesSet).map (fun pool =>
        (pool.shared.idx.typeOf 2, pool.record.value 2 [120], pool.record.value 2 [121])) =
      some (some .regular, some [5, 6], none) := by
    decide +kernel
  obtain ⟨pool, ran, shown⟩ := Option.map_eq_some_iff.mp plays
  obtain ⟨there, values⟩ := Prod.mk.inj shown
  obtain ⟨isSet, isRemoved⟩ := Prod.mk.inj values
  have reached :
      Reachable (daemonSys sampleConfig) AttrLog.note (EmptyFilesystem []) cleanRequests pool :=
    .of_run (.start ⟨8, 4096, 0, false, rfl⟩) ran
  refine ⟨pool, reached, ?_, ?_⟩
  · rw [getxattr_answers_latest reached, there, isSet]
    rfl
  · rw [getxattr_answers_latest reached, there, isRemoved]
    rfl

theorem nameList_eq (attrs : List (Name × Name)) :
    nameList attrs = Terminated.join 0 (attrs.map Prod.fst) := by
  unfold nameList Terminated.join
  rw [List.flatMap_map]

/-- The length of the list of an inode's attribute names. -/
def Index.attrListSize (idx : Index) (ino : Ino) : Nat :=
  ((idx.getXattrs ino).entries.map fun attr => attr.1.length + 1).sum

theorem length_nameList {idx : Index} {ino : Ino} {order : List (Name × Name)}
    (lists : (order : Multiset (Name × Name)) = (idx.getXattrs ino).entries) :
    (nameList order).length = idx.attrListSize ino := by
  unfold nameList attrListSize
  rw [← lists, List.length_flatMap, Multiset.map_coe, Multiset.sum_coe]
  simp only [List.length_append, List.length_singleton]

/-- At every point of every run, whatever order the loop over the attributes takes:
an empty buffer gets the length of the list, a buffer shorter than that gets
`ERANGE`, and any other one gets the names of exactly the attributes that are set,
each once, as a reader of zero-terminated names finds them. -/
theorem listxattr_probe_then_fetch {cfg : Config} {pool : Pool Daemon Call AttrLog}
    (reached : Reachable (daemonSys cfg) AttrLog.note (EmptyFilesystem []) cleanRequests pool)
    {ino : Ino} (fits : pool.shared.idx.attrListSize ino < 4294967296)
    {o : MapOrders}
    (lists : (o.attrs : Multiset (Name × Name)) = (pool.shared.idx.getXattrs ino).entries)
    (dest : Nat) :
    ∃ list : Bytes, (Query.listxattr ino dest).look pool.shared.idx o = some (.inr
        (if dest = 0 then .count (pool.shared.idx.attrListSize ino) []
        else if dest < pool.shared.idx.attrListSize ino then .erange
        else .count (pool.shared.idx.attrListSize ino) list)) ∧
      (Terminated.read 0 list).Nodup ∧
      ∀ name, name ∈ Terminated.read 0 list ↔
        pool.shared.idx.typeOf ino ≠ none ∧ pool.record.value ino name ≠ none := by
  have logged := AttrsLogged.of_reachable reached
  have listed : ∀ name, name ∈ o.attrs.map Prod.fst ↔
      pool.shared.idx.typeOf ino ≠ none ∧ pool.record.value ino name ≠ none := by
    intro name
    have stored : name ∈ o.attrs.map Prod.fst ↔
        (pool.shared.idx.getXattrs ino).get name ≠ none := by
      rw [List.mem_map, Option.ne_none_iff_exists']
      constructor
      · rintro ⟨⟨_, value⟩, member, rfl⟩
        exact ⟨value, GoMap.mem_entries.mp (lists ▸ Multiset.mem_coe.mpr member)⟩
      · rintro ⟨value, isSet⟩
        exact ⟨(name, value), Multiset.mem_coe.mp (lists ▸ GoMap.mem_entries.mpr isSet), rfl⟩
    rw [stored, logged.get_getXattrs]
    split_ifs with gone
    · exact ⟨fun given => absurd rfl given, fun given => absurd gone given.1⟩
    · exact (and_iff_right gone).symm
  -- The names are zero-free, so the reader finds them where they were written.
  have readBack : Terminated.read 0 (nameList o.attrs) = o.attrs.map Prod.fst := by
    rw [nameList_eq]
    refine Terminated.read_join fun name member => ?_
    obtain ⟨set, isSet, isName⟩ := AttrLog.mem_of_value ((listed name).mp member).2
    exact isName ▸ logged.clean set isSet
  refine ⟨nameList o.attrs, ?_, ?_, fun name => ?_⟩
  · simp only [Query.look, if_pos lists]
    unfold fillBuffer
    rw [length_nameList lists, Nat.mod_eq_of_lt fits]
  · rw [readBack]
    have nodup := GoMap.nodup_fst_entries (pool.shared.idx.getXattrs ino)
    rw [← lists, Multiset.map_coe] at nodup
    exact Multiset.coe_nodup.mp nodup
  · rw [readBack]
    exact listed name

/-- The one name left, `x`, takes two bytes. -/
theorem listxattr_probe_then_fetch_after_removal :
    ∃ pool : Pool Daemon Call AttrLog,
      Reachable (daemonSys sampleConfig) AttrLog.note (EmptyFilesystem []) cleanRequests pool ∧
      ∃ list : Bytes, (Query.listxattr 2 9).look pool.shared.idx { attrs := [([120], [5, 6])] } =
          some (.inr (.count 2 list)) ∧
        [120] ∈ Terminated.read 0 list := by
  have plays : ((daemonSys sampleConfig).run AttrLog.note cleanRequests
      ⟨freshDaemon 8 4096 0 false, [], []⟩ attributesSet).map (fun pool =>
        (pool.shared.idx.attrListSize 2, decide
          (((([([120], [5, 6])] : List (Name × Name)) : Multiset (Name × Name)) =
            (pool.shared.idx.getXattrs 2).entries) ∧
          pool.shared.idx.typeOf 2 ≠ none ∧ pool.record.value 2 [120] ≠ none))) =
      some (2, true) := by
    decide +kernel
  obtain ⟨pool, ran, shown⟩ := Option.map_eq_some_iff.mp plays
  obtain ⟨size, facts⟩ := Prod.mk.inj shown
  obtain ⟨lists, given⟩ := of_decide_eq_true facts
  have reached :
      Reachable (daemonSys sampleConfig) AttrLog.note (EmptyFilesystem []) cleanRequests pool :=
    .of_run (.start ⟨8, 4096, 0, false, rfl⟩) ran
  have fits : pool.shared.idx.attrListSize 2 < 4294967296 := by
    rw [size]
    decide
  obtain ⟨list, answers, -, named⟩ :=
    listxattr_probe_then_fetch reached fits (o := { attrs := _ }) lists 9
  rw [size] at answers
  exact ⟨pool, reached, list, answers, (named [120]).mpr given⟩

end Fusey
