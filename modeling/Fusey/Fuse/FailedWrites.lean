import Fusey.Fuse.Calls

/-!
Contract: what a `FileHandle.Write` that returns an error leaves behind
(`internal/fuse/fs.go`, `ChunkStore.Append`).

Owns:
- twin daemons, which differ at most in the object of the active chunk, and that
  no later call tells them apart;
- that a failed write leaves a twin of the daemon it found, and that a retry
  after a failed `Put` ends as a first attempt would.
-/

set_option autoImplicit false

namespace Fusey

open GoInt Interleaving

/-! ### Stores that differ in the object of the active chunk -/

/-- The objects are the same, or differ at most under the ID of an active chunk
that has bytes: reads of it are served from the buffer, and sealing it puts the
whole buffer. -/
def ChunkStore.Agree (cs : ChunkStore) (objects objects' : Objects) : Prop :=
  objects' = objects ∨
    cs.activeBuf ≠ [] ∧ ∀ id, id ≠ cs.activeID → objects'.get id = objects.get id

namespace ChunkStore

variable {cs : ChunkStore} {objects objects' : Objects}

theorem Agree.get (agree : cs.Agree objects objects') {id : Key} (inactive : id ≠ cs.activeID) :
    objects'.get id = objects.get id := by
  rcases agree with rfl | ⟨-, same⟩
  · rfl
  · exact same id inactive

theorem Agree.symm (agree : cs.Agree objects objects') : cs.Agree objects' objects := by
  rcases agree with rfl | ⟨nonempty, same⟩
  · exact Or.inl rfl
  · exact Or.inr ⟨nonempty, fun id inactive => (same id inactive).symm⟩

/-- A `Put` of the active chunk makes them the same. -/
theorem Agree.set (agree : cs.Agree objects objects') (data : Bytes) :
    objects'.set cs.activeID data = objects.set cs.activeID data := by
  apply GoMap.ext
  intro id
  rw [GoMap.get_set, GoMap.get_set]
  split_ifs with isActive
  · rfl
  · exact agree.get isActive

/-- A `Put` of another object keeps them apart at most there. -/
theorem Agree.set_other (agree : cs.Agree objects objects') (key : Key) (data : Bytes) :
    cs.Agree (objects.set key data) (objects'.set key data) := by
  rcases agree with rfl | ⟨nonempty, same⟩
  · exact Or.inl rfl
  · refine Or.inr ⟨nonempty, fun id inactive => ?_⟩
    rw [GoMap.get_set, GoMap.get_set, same id inactive]

/-- A chunk that is empty has no object of its own to differ in. -/
theorem Agree.eq_of_empty (agree : cs.Agree objects objects') (empty : cs.activeBuf = []) :
    objects' = objects := by
  rcases agree with same | ⟨nonempty, -⟩
  · exact same
  · exact absurd empty nonempty

theorem Agree.read (agree : cs.Agree objects objects') (written : Bool) (id : Key)
    (offset length : Int) :
    cs.read mapStore written objects' id offset length =
      cs.read mapStore written objects id offset length := by
  unfold ChunkStore.read
  split_ifs with isActive
  · rfl
  · have same := agree.get isActive
    simp only [readRange, fetchFullChunk, mapStore_size, mapStore_getRange, same]

/-- What a method left of two stores: the same chunk store and answer, and objects
that agree. -/
structure SameEnd {α : Type} (first second : Objects × ChunkStore × α) : Prop where
  store : second.2.1 = first.2.1
  answer : second.2.2 = first.2.2
  objects : first.2.1.Agree first.1 second.1

theorem Agree.sealActive (agree : cs.Agree objects objects') (outcome : StoreOutcome)
    (cached : Bool) :
    SameEnd (ChunkStore.sealActive mapStore outcome cached objects cs)
      (ChunkStore.sealActive mapStore outcome cached objects' cs) := by
  unfold ChunkStore.sealActive
  split_ifs with empty
  · exact ⟨rfl, rfl, Or.inl (agree.eq_of_empty empty)⟩
  · cases outcome with
    | ok => exact ⟨rfl, rfl, Or.inl (agree.set _)⟩
    | failedOld => exact ⟨rfl, rfl, agree⟩
    | failedNew => exact ⟨rfl, rfl, Or.inl (agree.set _)⟩

theorem Agree.push (agree : cs.Agree objects objects') (data : Bytes) (fileOffset : Int) :
    (cs.push data fileOffset).1.Agree objects objects' := by
  rcases agree with same | ⟨nonempty, same⟩
  · exact Or.inl same
  · exact Or.inr ⟨List.append_ne_nil_of_left_ne_nil nonempty _, same⟩

theorem Agree.append (agree : cs.Agree objects objects') (outcome : StoreOutcome) (cached : Bool)
    (data : Bytes) (fileOffset : Int) :
    SameEnd (ChunkStore.append mapStore outcome cached objects cs data fileOffset)
      (ChunkStore.append mapStore outcome cached objects' cs data fileOffset) := by
  unfold ChunkStore.append
  split_ifs with large full
  · exact ⟨rfl, rfl, agree⟩
  · obtain ⟨store, answer, rest⟩ := agree.sealActive outcome cached
    generalize ChunkStore.sealActive mapStore outcome cached objects cs = first
      at store answer rest
    generalize ChunkStore.sealActive mapStore outcome cached objects' cs = second
      at store answer rest
    obtain ⟨left, cs', result⟩ := first
    obtain ⟨right, cs'', result'⟩ := second
    cases store
    cases answer
    cases result with
    | error failure => exact ⟨rfl, rfl, rest⟩
    | ok done => exact ⟨rfl, rfl, rest.push data fileOffset⟩
  · exact ⟨rfl, rfl, agree.push data fileOffset⟩

theorem Agree.flushActive (agree : cs.Agree objects objects') (outcome : StoreOutcome) :
    SameEnd (ChunkStore.flushActive mapStore outcome objects cs)
      (ChunkStore.flushActive mapStore outcome objects' cs) := by
  unfold ChunkStore.flushActive
  split_ifs with clean
  · exact ⟨rfl, rfl, agree⟩
  · cases outcome with
    | ok => exact ⟨rfl, rfl, Or.inl (agree.set _)⟩
    | failedOld => exact ⟨rfl, rfl, agree⟩
    | failedNew => exact ⟨rfl, rfl, Or.inl (agree.set _)⟩

/-- The append of `data` has to seal the active chunk first. -/
def Rotates (cs : ChunkStore) (data : Bytes) : Prop :=
  (data.length : Int) ≤ cs.maxChunkSize ∧
    (cs.activeBuf.length : Int) + data.length > cs.maxChunkSize

/-- An `Append` fails on too much data, or because the `Put` of the sealed chunk
failed; then the chunk store is as before, and the whole buffer or nothing was
put. -/
theorem append_failed {outcome : StoreOutcome} {cached : Bool} {data : Bytes} {fileOffset : Int}
    {cs' : ChunkStore} {failure : ChunkError}
    (failed : ChunkStore.append mapStore outcome cached objects cs data fileOffset =
      (objects', cs', .error failure)) :
    cs' = cs ∧ ((data.length : Int) > cs.maxChunkSize ∧ objects' = objects ∨
      cs.Rotates data ∧ cs.Agree objects objects') := by
  unfold ChunkStore.append at failed
  split_ifs at failed with large full
  · cases failed
    exact ⟨rfl, Or.inl ⟨large, rfl⟩⟩
  · unfold ChunkStore.sealActive at failed
    split_ifs at failed with empty
    · cases failed
    · have rotates : cs.Rotates data := ⟨Int.not_lt.mp large, full⟩
      cases outcome with
      | ok => cases failed
      | failedOld =>
          cases failed
          exact ⟨rfl, Or.inr ⟨rotates, Or.inl rfl⟩⟩
      | failedNew =>
          cases failed
          exact ⟨rfl, Or.inr ⟨rotates,
            Or.inr ⟨empty, fun id inactive => GoMap.get_set_ne _ _ inactive⟩⟩⟩
  · cases failed

/-- With a working store an append that rotates wipes out the difference. -/
theorem Agree.append_rotating (agree : cs.Agree objects objects') {data : Bytes}
    (rotates : cs.Rotates data) (cached : Bool) (fileOffset : Int) :
    ChunkStore.append mapStore .ok cached objects' cs data fileOffset =
      ChunkStore.append mapStore .ok cached objects cs data fileOffset := by
  have sealed : ChunkStore.sealActive mapStore .ok cached objects' cs =
      ChunkStore.sealActive mapStore .ok cached objects cs := by
    unfold ChunkStore.sealActive
    split_ifs with empty
    · rw [agree.eq_of_empty empty]
    · simp only [Store.tryPut, mapStore_put, agree.set]
  unfold ChunkStore.append
  rw [if_neg (Int.not_lt.mpr rotates.1), if_neg (Int.not_lt.mpr rotates.1), if_pos rotates.2,
    if_pos rotates.2, sealed]

/-- With a working store an append fails on too much data only. -/
theorem append_succeeds {data : Bytes} (fits : (data.length : Int) ≤ cs.maxChunkSize)
    (objects : Objects) (cached : Bool) (fileOffset : Int) :
    ∃ objects' cs' ext, ChunkStore.append mapStore .ok cached objects cs data fileOffset =
      (objects', cs', .ok ext) := by
  unfold ChunkStore.append ChunkStore.sealActive
  rw [if_neg (Int.not_lt.mpr fits)]
  split_ifs
  · exact ⟨_, _, _, rfl⟩
  · exact ⟨_, _, _, rfl⟩
  · exact ⟨_, _, _, rfl⟩

end ChunkStore

/-! ### Twin daemons -/

/-- Two daemons that differ at most in the object of their active chunk. -/
def Daemon.Twins (d d' : Daemon) : Prop :=
  ∃ objects, d' = { d with objects := objects } ∧ d.cs.Agree d.objects objects

theorem Daemon.Twins.refl (d : Daemon) : d.Twins d := ⟨d.objects, rfl, Or.inl rfl⟩

theorem Daemon.Twins.symm {d d' : Daemon} (twins : d.Twins d') : d'.Twins d := by
  obtain ⟨objects, rfl, agree⟩ := twins
  exact ⟨d.objects, rfl, agree.symm⟩

/-- Every step answers twins alike and leaves twins. -/
theorem Daemon.Twins.apply {d d' next : Daemon} {e : Effect} {o : Oracle} {a : Answer}
    (twins : d.Twins d') (applied : d.apply e o = some (next, a)) :
    ∃ next', d'.apply e o = some (next', a) ∧ next.Twins next' := by
  obtain ⟨objects, rfl, agree⟩ := twins
  cases e
  case mutate m =>
    simp only [Daemon.apply, mutate, Option.some.injEq] at applied ⊢
    split at applied <;> cases applied <;> exact ⟨_, rfl, objects, rfl, agree⟩
  case readChunk id offset length =>
    simp only [Daemon.apply, readChunk, agree.read, Option.some.injEq] at applied ⊢
    obtain ⟨cache, same⟩ := ChunkStore.read_cache_only o.disk d.objects d.cs id offset length
    generalize ChunkStore.read mapStore o.disk d.objects d.cs id offset length = answer
      at applied same ⊢
    obtain ⟨cs, (failure | ⟨⟩) | data⟩ := answer <;> cases same <;> cases applied <;>
      exact ⟨_, rfl, objects, rfl, agree⟩
  case append data fileOffset =>
    have ends := agree.append o.put o.disk data fileOffset
    simp only [Daemon.apply, append, Option.some.injEq] at applied ⊢
    generalize ChunkStore.append mapStore o.put o.disk d.objects d.cs data fileOffset = first
      at applied ends
    generalize ChunkStore.append mapStore o.put o.disk objects d.cs data fileOffset = second
      at ends ⊢
    obtain ⟨left, cs, result⟩ := first
    obtain ⟨right, cs', result'⟩ := second
    obtain ⟨store, answer, rest⟩ := ends
    cases store
    cases answer
    cases result <;> cases applied <;> exact ⟨_, rfl, right, rfl, rest⟩
  case sealActive =>
    have ends := agree.sealActive o.put o.disk
    simp only [Daemon.apply, sealActive, Option.some.injEq] at applied ⊢
    generalize ChunkStore.sealActive mapStore o.put o.disk d.objects d.cs = first at applied ends
    generalize ChunkStore.sealActive mapStore o.put o.disk objects d.cs = second at ends ⊢
    obtain ⟨left, cs, result⟩ := first
    obtain ⟨right, cs', result'⟩ := second
    obtain ⟨store, answer, rest⟩ := ends
    cases store
    cases answer
    cases result <;> cases applied <;> exact ⟨_, rfl, right, rfl, rest⟩
  case flushActive =>
    have ends := agree.flushActive o.put
    simp only [Daemon.apply, flushActive, Option.some.injEq] at applied ⊢
    generalize ChunkStore.flushActive mapStore o.put d.objects d.cs = first at applied ends
    generalize ChunkStore.flushActive mapStore o.put objects d.cs = second at ends ⊢
    obtain ⟨left, cs, result⟩ := first
    obtain ⟨right, cs', result'⟩ := second
    obtain ⟨store, answer, rest⟩ := ends
    cases store
    cases answer
    cases result <;> cases applied <;> exact ⟨_, rfl, right, rfl, rest⟩
  case putRaw data =>
    simp only [Daemon.apply, putRaw, Option.some.injEq] at applied ⊢
    split at applied <;> cases applied
    · exact ⟨_, rfl, _, rfl, agree.set_other _ _⟩
    · exact ⟨_, rfl, _, rfl, agree⟩
    · exact ⟨_, rfl, _, rfl, agree.set_other _ _⟩
  case snapshot =>
    simp only [Daemon.apply] at applied
    split_ifs at applied with lists
    cases applied
    exact ⟨_, if_pos lists, objects, rfl, agree⟩
  case openTmp =>
    simp only [Daemon.apply] at applied
    split_ifs at applied with accepts <;> cases applied
    · exact ⟨_, if_pos accepts, objects, rfl, agree⟩
    · exact ⟨_, if_neg accepts, objects, rfl, agree⟩
  case writeTmp file data =>
    simp only [Daemon.apply] at applied
    split_ifs at applied with accepts <;> cases applied
    · exact ⟨_, if_pos accepts, objects, rfl, agree⟩
    · exact ⟨_, if_neg accepts, objects, rfl, agree⟩
  case renameTmp =>
    simp only [Daemon.apply] at applied ⊢
    split_ifs at applied ⊢ with accepts
    · split at applied <;> cases applied <;> exact ⟨_, rfl, objects, rfl, agree⟩
    · cases applied
      exact ⟨_, rfl, objects, rfl, agree⟩
  all_goals
    cases applied
    exact ⟨_, rfl, objects, rfl, agree⟩

/-! ### A failed write -/

/-- The steps of all calls with their answers, in the order they were taken. -/
def transcript (log : List (Call × Answer)) (c : Call) (a : Answer) : List (Call × Answer) :=
  log ++ [(c, a)]

/-- Whatever calls are made from now on, in any interleaving and with any faults,
every step of theirs gets the same answer in both daemons. -/
def Daemon.Indistinguishable (cfg : Config) (d d' : Daemon) : Prop :=
  ∀ events pool, (daemonSys cfg).run transcript (fun _ _ => True) ⟨d, [], []⟩ events = some pool →
    ∃ shared, (daemonSys cfg).run transcript (fun _ _ => True) ⟨d', [], []⟩ events =
      some ⟨shared, pool.threads, pool.record⟩ ∧ shared.idx = pool.shared.idx

theorem Daemon.Twins.indistinguishable {d d' : Daemon} (twins : d.Twins d') (cfg : Config) :
    d.Indistinguishable cfg d' := by
  have simulates : ∀ (s s' : Daemon) e o next a, s.Twins s' →
      (daemonSys cfg).apply s e o = some (next, a) →
      ∃ next', (daemonSys cfg).apply s' e o = some (next', a) ∧ next.Twins next' :=
    fun _ _ _ _ _ _ related applied => related.apply applied
  intro events pool ran
  obtain ⟨shared, ran', objects, same, -⟩ := Sys.run_of_simulates simulates twins ran
  exact ⟨shared, ran', by rw [same]⟩

/-- The file is there and the data fits into the filesystem. -/
def Daemon.Admits (cfg : Config) (d : Daemon) (ino : Ino) (data : Bytes) (off : Int) : Prop :=
  ∃ inode, d.idx.inodes.get ino = some inode ∧
    (wrap64 (off + data.length) ≤ inode.size ∨
      wrap64 (d.idx.usedBytes + wrap64 (wrap64 (off + data.length) - inode.size)) ≤ cfg.maxFSSize)

/-- The index part of a write, on a regular file that is there. -/
theorem Index.writeExtent_succeeds {idx : Index} {ino : Ino} {inode : Inode}
    (known : idx.inodes.get ino = some inode) (regular : inode.fileType = .regular) (ext : Extent)
    (now : Int) : ∃ idx', idx.writeExtent ino ext now = .ok idx' := by
  unfold Index.writeExtent
  rw [known]
  dsimp only
  rw [if_neg (not_not.mpr regular)]
  exact ⟨_, rfl⟩

/-- The suspended states of `Write`. -/
def Call.Writes : Call → Prop
  | .write .. | .writeSpace .. | .writeAppend .. | .writeRecord .. => True
  | _ => False

/-- Only the last step of a write changes the index, and then the write returns
its length. -/
theorem Call.Writes.step {cfg : Config} {c : Call} (writes : c.Writes) {d d' : Daemon} {o : Oracle}
    {a : Answer} (applied : d.apply c.effect o = some (d', a)) :
    (d'.idx = d.idx ∧ ∀ c', c.resume cfg a = .inl c' → c'.Writes) ∨
      ∃ count, c.resume cfg a = .inr (.written count) := by
  cases c <;> try exact writes.elim
  case writeRecord ino data ext now =>
    rcases Daemon.apply_mutate applied with ⟨idx, -, rfl, rfl | rfl⟩ | ⟨rfl, ⟨failure, rfl⟩ | rfl⟩
    · exact Or.inr ⟨_, rfl⟩
    · simp only [effect, Daemon.apply, Daemon.mutate, Option.some.injEq] at applied
      split at applied <;> exact Answer.noConfusion (Prod.mk.inj applied).2
    · exact Or.inl ⟨rfl, fun c' continues => by cases continues⟩
    · exact Or.inl ⟨rfl, fun c' continues => by cases continues⟩
  all_goals
    refine Or.inl ⟨?_, fun c' continues => ?_⟩
    · rcases Daemon.apply_idx applied with same | ⟨m, isMutation, -⟩ | ⟨isMark, -⟩ | ⟨isMark, -⟩
      · exact same
      · cases isMutation
      · cases isMark
      · cases isMark
    · cases follows_of_resume continues <;> trivial

/-- A write that returns an error has left the index alone, whatever its file. -/
theorem write_failed_idx {cfg : Config} {c : Call} {d d' : Daemon} {r : Reply} {e : Errno}
    (completes : Completes (daemonSys cfg) d c d' r) (failed : r = .errno e) (writes : c.Writes) :
    d'.idx = d.idx := by
  induction completes with
  | last applied returns =>
      rcases writes.step applied with ⟨same, -⟩ | ⟨count, written⟩
      · exact same
      · rw [failed] at returns
        cases returns.symm.trans written
  | more applied continues _ inductionHypothesis =>
      rcases writes.step applied with ⟨same, stays⟩ | ⟨count, written⟩
      · exact (inductionHypothesis failed (stays _ continues)).trans same
      · cases continues.symm.trans written

section Failed

variable {cfg : Config} {d d' : Daemon} {ino : Ino} {data : Bytes} {off now : Int} {e : Errno}

/-- From its append on, a write to a regular file fails in the append only. -/
theorem writeAppend_failed {inode : Inode} (known : d.idx.inodes.get ino = some inode)
    (regular : inode.fileType = .regular)
    (completes : Completes (daemonSys cfg) d (.writeAppend ino data off now) d' (.errno e)) :
    (data.length : Int) > d.cs.maxChunkSize ∧ d' = d ∨
      d.cs.Rotates data ∧
        ∃ objects, d' = { d with objects := objects } ∧ d.cs.Agree d.objects objects := by
  obtain ⟨o, appended, a, applied, finish⟩ := completes.first
  simp only [daemonSys_apply, daemonSys_effect, Call.effect, Daemon.apply, Daemon.append,
    Option.some.injEq] at applied
  split at applied
  next objects cs ext succeeded =>
    cases applied
    -- The extent is recorded, since the inode is still there.
    obtain ⟨returns, -⟩ | ⟨c', continues, rest⟩ := finish
    · cases returns
    cases continues
    obtain ⟨o, recorded, a, applied, finish⟩ := rest.first
    obtain ⟨idx, done⟩ := Index.writeExtent_succeeds known regular ext now
    have answered : a = .done := by
      simp only [daemonSys_apply, daemonSys_effect, Call.effect, Daemon.apply, Daemon.mutate,
        Mutation.apply, done] at applied
      cases applied
      rfl
    subst answered
    obtain ⟨returns, -⟩ | ⟨c', continues, -⟩ := finish
    · cases returns
    · cases continues
  next objects cs failure failed =>
    cases applied
    obtain ⟨-, rfl⟩ | ⟨c', continues, -⟩ := finish
    · obtain ⟨rfl, ⟨large, rfl⟩ | ⟨rotates, agree⟩⟩ := ChunkStore.append_failed failed
      · exact Or.inl ⟨large, rfl⟩
      · exact Or.inr ⟨rotates, objects, rfl, agree⟩
    · cases continues

/-- How a write to a regular file fails: before it has changed anything, or in the
`Put` of the chunk it has to seal. -/
theorem write_failed
    (completes : Completes (daemonSys cfg) d (.write ino data off now) d' (.errno e))
    (regular : ∀ inode, d.idx.inodes.get ino = some inode → inode.fileType = .regular) :
    d' = d ∧ (e = .eio → (data.length : Int) > d.cs.maxChunkSize) ∨
      d.Admits cfg ino data off ∧ d.cs.Rotates data ∧
        ∃ objects, d' = { d with objects := objects } ∧ d.cs.Agree d.objects objects := by
  obtain ⟨o, same, a, applied, finish⟩ := completes.first
  cases applied
  simp only [daemonSys_resume, Call.resume, Index.getInode] at finish
  cases known : d.idx.inodes.get ino with
  | none =>
      rw [known] at finish
      obtain ⟨returns, rfl⟩ | ⟨c', continues, -⟩ := finish
      · cases returns
        exact Or.inl ⟨rfl, fun isIO => by cases isIO⟩
      · cases continues
  | some inode =>
      rw [known] at finish
      dsimp only at finish
      have append : ∀ {next : Daemon}, next = d → d.Admits cfg ino data off →
          Completes (daemonSys cfg) next (.writeAppend ino data off now) d' (.errno e) →
          d' = d ∧ (e = .eio → (data.length : Int) > d.cs.maxChunkSize) ∨
            d.Admits cfg ino data off ∧ d.cs.Rotates data ∧
              ∃ objects, d' = { d with objects := objects } ∧ d.cs.Agree d.objects objects := by
        rintro next rfl admits rest
        rcases writeAppend_failed known (regular inode known) rest with ⟨large, rfl⟩ | failed
        · exact Or.inl ⟨rfl, fun _ => large⟩
        · exact Or.inr ⟨admits, failed⟩
      split_ifs at finish with beyond
      · obtain ⟨returns, -⟩ | ⟨c', continues, rest⟩ := finish
        · cases returns
        cases continues
        obtain ⟨o, same, a, applied, finish⟩ := rest.first
        cases applied
        simp only [daemonSys_resume, Call.resume] at finish
        split_ifs at finish with full
        · obtain ⟨returns, rfl⟩ | ⟨c', continues, -⟩ := finish
          · cases returns
            exact Or.inl ⟨rfl, fun isIO => by cases isIO⟩
          · cases continues
        · obtain ⟨returns, -⟩ | ⟨c', continues, rest⟩ := finish
          · cases returns
          cases continues
          exact append rfl ⟨inode, known, Or.inr (Int.not_lt.mp full)⟩ rest
      · obtain ⟨returns, -⟩ | ⟨c', continues, rest⟩ := finish
        · cases returns
        cases continues
        exact append rfl ⟨inode, known, Or.inl (Int.not_lt.mp beyond)⟩ rest

end Failed

/-! ### A retry -/

/-- The store works: every `Put` returns nil. -/
def workingStore (cfg : Config) : Sys Daemon Effect Answer Oracle Call Reply where
  apply d e o := if o.put = .ok then d.apply e o else none
  effect := Call.effect
  resume := Call.resume cfg

section Retry

variable {cfg : Config} {d d' : Daemon} {ino : Ino} {data : Bytes} {off now : Int} {r : Reply}

theorem workingStore_apply {next : Daemon} {e : Effect} {o : Oracle} {a : Answer} :
    (workingStore cfg).apply d e o = some (next, a) ↔
      o.put = .ok ∧ d.apply e o = some (next, a) := by
  unfold workingStore
  dsimp only
  split_ifs with works
  · exact ⟨fun applied => ⟨works, applied⟩, And.right⟩
  · exact ⟨fun applied => (by cases applied), fun applied => absurd applied.1 works⟩

/-- The end of a write with a working store. -/
def Daemon.Written (d : Daemon) (ino : Ino) (data : Bytes) (off now : Int) (d' : Daemon) : Prop :=
  ∃ disk objects cs ext idx,
    ChunkStore.append mapStore .ok disk d.objects d.cs data off = (objects, cs, .ok ext) ∧
    d.idx.writeExtent ino ext now = .ok idx ∧ d' = ⟨idx, cs, objects, d.dir⟩

theorem completes_writeAppend_iff {inode : Inode} (known : d.idx.inodes.get ino = some inode)
    (regular : inode.fileType = .regular) (fits : (data.length : Int) ≤ d.cs.maxChunkSize) :
    Completes (workingStore cfg) d (.writeAppend ino data off now) d' r ↔
      d.Written ino data off now d' ∧ r = .written data.length := by
  constructor
  · intro completes
    obtain ⟨o, appended, a, applied, finish⟩ := completes.first
    obtain ⟨works, applied⟩ := workingStore_apply.mp applied
    obtain ⟨objects, cs, ext, succeeded⟩ := ChunkStore.append_succeeds fits d.objects o.disk off
    change some (d.append o data off) = _ at applied
    rw [Daemon.append, works, succeeded] at applied
    cases applied
    obtain ⟨returns, -⟩ | ⟨c', continues, rest⟩ := finish
    · cases returns
    cases continues
    obtain ⟨o', recorded, a, applied, finish⟩ := rest.first
    obtain ⟨-, applied⟩ := workingStore_apply.mp applied
    obtain ⟨idx, done⟩ := Index.writeExtent_succeeds known regular ext now
    change some (Daemon.mutate ⟨d.idx, cs, objects, d.dir⟩ (.writeExtent ino ext now)) = _
      at applied
    simp only [Daemon.mutate, Mutation.apply, done] at applied
    cases applied
    obtain ⟨returns, rfl⟩ | ⟨c', continues, -⟩ := finish
    · cases returns
      exact ⟨⟨o.disk, objects, cs, ext, idx, succeeded, done, rfl⟩, rfl⟩
    · cases continues
  · rintro ⟨⟨disk, objects, cs, ext, idx, succeeded, done, rfl⟩, rfl⟩
    have appends : (workingStore cfg).apply d (.append data off) { disk := disk } =
        some (⟨d.idx, cs, objects, d.dir⟩, .extent ext) := by
      refine workingStore_apply.mpr ⟨rfl, ?_⟩
      change some (d.append { disk := disk } data off) = _
      rw [Daemon.append, succeeded]
    have records : (workingStore cfg).apply ⟨d.idx, cs, objects, d.dir⟩
        (.mutate (.writeExtent ino ext now)) {} = some (⟨idx, cs, objects, d.dir⟩, .done) := by
      refine workingStore_apply.mpr ⟨rfl, ?_⟩
      simp only [Daemon.apply, Daemon.mutate, Mutation.apply, done]
    exact .more appends rfl (.last records rfl)

/-- A write that the filesystem has room for gets to its append with nothing
changed. -/
theorem completes_write_iff (admits : d.Admits cfg ino data off) :
    Completes (workingStore cfg) d (.write ino data off now) d' r ↔
      Completes (workingStore cfg) d (.writeAppend ino data off now) d' r := by
  obtain ⟨inode, known, room⟩ := admits
  have found : (workingStore cfg).apply d (.getInode ino) {} = some (d, .inode (some inode)) :=
    workingStore_apply.mpr ⟨rfl, by rw [← known]; rfl⟩
  have measured : (workingStore cfg).apply d .usedBytes {} = some (d, .used d.idx.usedBytes) :=
    workingStore_apply.mpr ⟨rfl, rfl⟩
  by_cases beyond : inode.size < wrap64 (off + data.length)
  · have spacious := room.resolve_left (Int.not_le.mpr beyond)
    constructor
    · intro completes
      obtain ⟨o, same, a, applied, finish⟩ := completes.first
      obtain ⟨-, applied⟩ := workingStore_apply.mp applied
      cases applied
      simp only [workingStore, Call.resume, Index.getInode, known, gt_iff_lt,
        if_pos beyond] at finish
      obtain ⟨returns, -⟩ | ⟨c', continues, rest⟩ := finish
      · cases returns
      cases continues
      obtain ⟨o, same, a, applied, finish⟩ := rest.first
      obtain ⟨-, applied⟩ := workingStore_apply.mp applied
      cases applied
      simp only [Call.resume, gt_iff_lt, if_neg (Int.not_lt.mpr spacious)] at finish
      obtain ⟨returns, -⟩ | ⟨c', continues, rest⟩ := finish
      · cases returns
      cases continues
      exact rest
    · intro rest
      have checked : Completes (workingStore cfg) d (.writeSpace ino data off
          (wrap64 (wrap64 (off + data.length) - inode.size)) now) d' r := by
        refine .more measured ?_ rest
        simp only [workingStore, Call.resume, gt_iff_lt, if_neg (Int.not_lt.mpr spacious)]
      refine .more found ?_ checked
      simp only [workingStore, Call.resume, gt_iff_lt, if_pos beyond]
  · constructor
    · intro completes
      obtain ⟨o, same, a, applied, finish⟩ := completes.first
      obtain ⟨-, applied⟩ := workingStore_apply.mp applied
      cases applied
      simp only [workingStore, Call.resume, Index.getInode, known, gt_iff_lt,
        if_neg beyond] at finish
      obtain ⟨returns, -⟩ | ⟨c', continues, rest⟩ := finish
      · cases returns
      cases continues
      exact rest
    · intro rest
      refine .more found ?_ rest
      simp only [workingStore, Call.resume, gt_iff_lt, if_neg beyond]

/-- Daemons that agree up to the chunk which the write has to seal are the same
once it has succeeded. -/
theorem Daemon.written_iff {objects : Objects} (agree : d.cs.Agree d.objects objects)
    (rotates : d.cs.Rotates data) :
    Daemon.Written { d with objects := objects } ino data off now d' ↔
      d.Written ino data off now d' := by
  unfold Daemon.Written
  simp only [agree.append_rotating rotates]

end Retry

/-- A write that returns an error has changed no inode and no extent list, and no
later call can tell that it was made to a regular file. If the `Put` of the
rotation failed, the same write with a working store succeeds from here, and ends
as it would have without the failed attempt. -/
theorem failed_write_changes_nothing {cfg : Config} {d d' : Daemon} {ino : Ino} {data : Bytes}
    {off now : Int} {e : Errno}
    (completes : Completes (daemonSys cfg) d (.write ino data off now) d' (.errno e)) :
    d'.idx = d.idx ∧
      ((∀ inode, d.idx.inodes.get ino = some inode → inode.fileType = .regular) →
        d.Indistinguishable cfg d' ∧ d'.Indistinguishable cfg d ∧
        (e = .eio → (data.length : Int) ≤ d.cs.maxChunkSize → ∀ retried,
          (∃ after, Completes (workingStore cfg) d' (.write ino data off retried) after
            (.written data.length)) ∧
          ∀ after reply,
            Completes (workingStore cfg) d' (.write ino data off retried) after reply →
              reply = .written data.length ∧
              Completes (workingStore cfg) d (.write ino data off retried) after reply)) := by
  refine ⟨write_failed_idx completes rfl trivial, fun regular => ?_⟩
  rcases write_failed completes regular with
    ⟨rfl, large⟩ | ⟨admits, rotates, objects, rfl, agree⟩
  · exact ⟨(Daemon.Twins.refl d').indistinguishable cfg,
      (Daemon.Twins.refl d').indistinguishable cfg,
      fun isIO fits => absurd fits (Int.not_le.mpr (large isIO))⟩
  · have twins : d.Twins { d with objects := objects } := ⟨objects, rfl, agree⟩
    refine ⟨twins.indistinguishable cfg, twins.symm.indistinguishable cfg, ?_⟩
    intro _ fits retried
    obtain ⟨inode, known, room⟩ := id admits
    have isRegular := regular inode known
    have ends : ∀ {after reply},
        Completes (workingStore cfg) { d with objects := objects } (.write ino data off retried)
          after reply ↔ d.Written ino data off retried after ∧ reply = .written data.length := by
      intro after reply
      have stillAdmits : Daemon.Admits cfg { d with objects := objects } ino data off := admits
      have stillKnown : { d with objects := objects }.idx.inodes.get ino = some inode := known
      rw [completes_write_iff stillAdmits, completes_writeAppend_iff stillKnown isRegular fits,
        Daemon.written_iff agree rotates]
    constructor
    · obtain ⟨objects', cs, ext, succeeded⟩ :=
        ChunkStore.append_succeeds fits d.objects true off
      obtain ⟨idx, done⟩ := Index.writeExtent_succeeds known isRegular ext retried
      exact ⟨_, ends.mpr ⟨⟨true, objects', cs, ext, idx, succeeded, done, rfl⟩, rfl⟩⟩
    · intro after reply retriedTo
      obtain ⟨written, replied⟩ := ends.mp retriedTo
      refine ⟨replied, ?_⟩
      rw [completes_write_iff admits, completes_writeAppend_iff known isRegular fits]
      exact ⟨written, replied⟩

/-- A file of six bytes in chunks of eight, and a write of three more whose `Put`
fails with the new object left behind. -/
noncomputable def failingRotation : Option (Daemon × Daemon × Reply) :=
  let sys := daemonSys sampleConfig
  (sys.finish (freshDaemon 8 4096 0 true) (.make .regular 1 [97] 0o644 0 0 1) [{}, {}, {}]).bind
    fun made => (sys.finish made.1 (.write 2 [1, 2, 3, 4, 5, 6] 0 2) [{}, {}, {}, {}]).bind
      fun written =>
        (sys.finish written.1 (.write 2 [7, 8, 9] 6 3) [{}, {}, { put := .failedNew }]).map
          fun failed => (written.1, failed)

theorem failed_write_changes_nothing_rotating :
    ∃ d d', Completes (daemonSys sampleConfig) d (.write 2 [7, 8, 9] 6 3) d' (.errno .eio) ∧
      d'.objects ≠ d.objects ∧ d'.idx = d.idx ∧
      ∃ after, Completes (workingStore sampleConfig) d' (.write 2 [7, 8, 9] 6 4) after
        (.written 3) := by
  have plays : failingRotation.map (fun ends =>
      (ends.2.2, decide (ends.2.1.objects ≠ ends.1.objects), ends.1.cs.maxChunkSize,
        ends.1.idx.typeOf 2)) = some (.errno .eio, true, 8, some .regular) := by
    decide +kernel
  obtain ⟨⟨d, d', reply⟩, ran, shown⟩ := Option.map_eq_some_iff.mp plays
  obtain ⟨failed, rest⟩ := Prod.mk.inj shown
  obtain ⟨differ, rest⟩ := Prod.mk.inj rest
  obtain ⟨chunkSize, isRegular⟩ := Prod.mk.inj rest
  unfold failingRotation at ran
  obtain ⟨made, -, others⟩ := Option.bind_eq_some_iff.mp ran
  obtain ⟨written, -, last⟩ := Option.bind_eq_some_iff.mp others
  obtain ⟨ends, finished, same⟩ := Option.map_eq_some_iff.mp last
  cases same
  dsimp only at failed differ chunkSize isRegular
  subst failed
  have completes := Completes.of_finish finished
  obtain ⟨index, unseen⟩ := failed_write_changes_nothing completes
  obtain ⟨-, -, retry⟩ := unseen fun inode known => by
    rw [Index.typeOf, known] at isRegular
    exact Option.some.inj isRegular
  obtain ⟨succeeds, -⟩ := retry rfl (by rw [chunkSize]; decide) 4
  exact ⟨written.1, d', completes, of_decide_eq_true differ, index, succeeds⟩

end Fusey
