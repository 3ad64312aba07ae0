import Fusey.Cmd.Restarts
import Fusey.Chunks.AppendLaw
import Fusey.Fuse.Atomicity
import Fusey.Fuse.DirtyFlags

/-!
Contract: successive mount sessions on one store, each on a fresh node and ended
by a successful persist run.

Owns:
- the sessions: requests and persist runs one after the other;
- what a session leaves: the index object is the index up to access times, and
  every byte that can be read is in the store;
- that the next session starts with the same tree and the same contents, and
  never changes a chunk object it finds.
-/

set_option autoImplicit false

namespace Fusey

open Interleaving ChunkStore

/-! ### Sessions -/

/-- Calls come one after the other, and what they snapshot is within the limits
of the decoder. -/
def sequential (pool : Pool Daemon Call Unit) : Event Call Oracle → Prop
  | .spawn c => c.IsRequest ∧ pool.threads = []
  | .run i o => ∀ c ∈ pool.threads[i]?, c.IsSnapshotting →
      (pool.shared.idx.snapshot o.order).Decodable

instance (pool : Pool Daemon Call Unit) (event : Event Call Oracle) :
    Decidable (sequential pool event) := by
  induction event using Event.casesOn <;> dsimp only [sequential] <;> infer_instance

/-- The call is a persist run. -/
def Call.IsPersisting : Call → Prop
  | .persist | .save .persist | .saveOpen .persist _ | .saveWrite .persist _ _
  | .saveRename .persist | .saveMark .persist | .persistFlush | .persistCheck | .persistMarshal
  | .persistPut _ | .persistMark => True
  | _ => False

/-- A session from one daemon to another: its last step is that of a persist run
that returns nil. -/
def EndsPersisted (cfg : Config) (start finish : Daemon) : Prop :=
  ∃ pool c o a, Reachable (daemonSys cfg) noRecord (· = ⟨start, [], ()⟩) sequential pool ∧
    pool.threads = [c] ∧ c.IsPersisting ∧ pool.shared.apply c.effect o = some (finish, a) ∧
    c.resume cfg a = .inr .ok

/-- The object under the index key is an index. -/
def Indexed (setup : Setup) (objects : Objects) : Prop :=
  ∃ data idx, objects.get indexKey = some data ∧
    decodeIndex setup.cfg.codec setup.blockSize data = some idx ∧ idx.Restorable

/-- The daemons with which sessions have ended. Each session mounts on a fresh
node what the one before has left. -/
inductive Ended (setup : Setup) : Daemon → Prop where
  | first {objects : Objects} {o : MountOracle} {d d' : Daemon} (indexed : Indexed setup objects)
      (small : ChunksBelow 100000000 objects) (mounted : mount setup o objects ∅ none = some d)
      (session : EndsPersisted setup.cfg d d') : Ended setup d'
  | next {last : Daemon} {o : MountOracle} {d d' : Daemon} (before : Ended setup last)
      (small : ChunksBelow 100000000 last.objects)
      (mounted : mount setup o last.objects ∅ none = some d)
      (session : EndsPersisted setup.cfg d d') : Ended setup d'

/-! ### Within a session -/

/-- What holds between the steps of a session that began with `start`. -/
structure Daemon.Tidy (setup : Setup) (d start : Daemon) : Prop where
  sound : d.Sound
  blockSize : d.idx.blockSize = setup.blockSize
  consistent : d.cs.Consistent d.objects
  clean : Clean d.objects d.cs
  remoteClean : d.RemoteClean setup.cfg.codec
  frozen : ∀ seq, start.cs.Frozen (chunkID seq) →
    d.cs.Frozen (chunkID seq) ∧ d.objects.get (chunkID seq) = start.objects.get (chunkID seq)

/-- A persist run past its flush has left nothing to flush. -/
def Call.Flushed (d : Daemon) : Call → Prop
  | .persistCheck | .persistMarshal | .persistPut _ | .persistMark => d.cs.activeDirty = false
  | _ => True

structure Call.Tidy (codec : CborCodec) (d : Daemon) (c : Call) : Prop where
  sound : c.Sound
  storing : c.Storing codec d
  flushed : c.Flushed d

section Step

variable {setup : Setup} {start d d' : Daemon} {c c' : Call} {o : Oracle} {a : Answer}

theorem ChunkStore.Clean.of_apply {e : Effect} (clean : Clean d.objects d.cs)
    (consistent : d.cs.Consistent d.objects) (applied : d.apply e o = some (d', a)) :
    Clean d'.objects d'.cs := by
  rcases Daemon.apply_store applied with moves | ⟨data, -, rfl⟩
  · exact Moves.clean moves clean
  · intro undirtied filled
    exact (GoMap.get_set_ne _ _ consistent.activeID_ne_indexKey).trans (clean undirtied filled)

theorem Daemon.Tidy.of_apply (tidy : d.Tidy setup start) (mine : c.Tidy setup.cfg.codec d)
    (applied : d.apply c.effect o = some (d', a)) : d'.Tidy setup start where
  sound := tidy.sound.of_apply mine.sound applied
  blockSize := (Daemon.blockSize_of_apply applied).trans tidy.blockSize
  consistent := tidy.consistent.of_apply applied
  clean := tidy.clean.of_apply tidy.consistent applied
  remoteClean := tidy.remoteClean.of_apply tidy.sound.active mine.storing applied
  frozen := by
    intro seq isFrozen
    obtain ⟨still, same⟩ := tidy.frozen seq isFrozen
    obtain ⟨after, kept⟩ := Daemon.frozen_of_apply tidy.consistent applied still
    exact ⟨after, kept.trans same⟩

/-- Between the flush and the end of a persist run the chunk store rests. -/
theorem Call.Flushed.of_follows {cfg : Config} (flushed : c.Flushed d)
    (applied : d.apply c.effect o = some (d', a)) (follows : c.Follows cfg a c') :
    c'.Flushed d' := by
  cases follows
  case persistCheck => exact Daemon.apply_flushActive applied
  case persistMarshal =>
    have same : d = d' := congrArg Prod.fst (Option.some.inj applied)
    rw [← same]
    exact flushed
  case persistPut snap data encoded =>
    obtain ⟨rfl, -, -⟩ := Daemon.apply_snapshot applied
    exact flushed
  case persistMark data =>
    simp only [Call.effect, Daemon.apply, Daemon.putRaw, Option.some.injEq] at applied
    split at applied <;> cases applied
    exact flushed
  case readFirst | readNext =>
    unfold nextRead
    split <;> trivial
  all_goals trivial

theorem Call.Tidy.of_follows (mine : c.Tidy setup.cfg.codec d) (tidy : d.Tidy setup start)
    (applied : d.apply c.effect o = some (d', a)) (follows : c.Follows setup.cfg a c')
    (decodable : c.IsSnapshotting → (d.idx.snapshot o.order).Decodable) :
    c'.Tidy setup.cfg.codec d' where
  sound := mine.sound.of_follows tidy.sound applied follows
  storing := mine.storing.of_follows tidy.sound.restorable tidy.sound.active applied follows
    fun isMarshal => decodable (isMarshal ▸ trivial)
  flushed := mine.flushed.of_follows applied follows

/-- A persist run returns nil where the stored index is the index. -/
theorem Call.ok_of_resume {cfg : Config} (persisting : c.IsPersisting)
    (returns : c.resume cfg a = .inr .ok) :
    (c = .persistCheck ∧ a = .flag false) ∨ c = .persistMark := by
  cases c with
  | persistMark => exact Or.inr rfl
  | persistCheck =>
      cases a <;> try cases returns
      case flag dirty =>
        cases dirty
        · exact Or.inl ⟨rfl, rfl⟩
        · cases returns
  | persist =>
      cases a <;> try cases returns
      case flag dirty => cases dirty <;> cases returns
  | persistFlush => cases a <;> cases returns
  | persistPut data => cases a <;> cases returns
  | persistMarshal =>
      cases a <;> try cases returns
      case taken snap =>
        rw [Call.resume_persistMarshal_taken] at returns
        split at returns <;> cases returns
  | save saver =>
      cases saver
      · exact persisting.elim
      cases a <;> try cases returns
      case taken snap =>
        rw [Call.resume_save_taken] at returns
        split at returns <;> cases returns
  | saveOpen saver data =>
      cases saver
      · exact persisting.elim
      cases a <;> cases returns
  | saveWrite saver file data =>
      cases saver
      · exact persisting.elim
      cases a <;> cases returns
  | saveRename saver =>
      cases saver
      · exact persisting.elim
      cases a <;> cases returns
  | saveMark saver =>
      cases saver
      · exact persisting.elim
      cases a <;> cases returns
  | _ => exact persisting.elim

/-- What a session has achieved when its last persist run returns. -/
theorem Daemon.Tidy.stored (tidy : d.Tidy setup start) (mine : c.Tidy setup.cfg.codec d)
    (persisting : c.IsPersisting) (applied : d.apply c.effect o = some (d', a))
    (returns : c.resume setup.cfg a = .inr .ok) :
    d'.Stored setup.cfg.codec ∧ d'.cs.activeDirty = false := by
  rcases Call.ok_of_resume persisting returns with ⟨rfl, rfl⟩ | rfl
  · obtain ⟨same, flag⟩ := Prod.mk.inj (Option.some.inj applied)
    rw [← same]
    exact ⟨tidy.remoteClean (Answer.flag.inj flag), mine.flushed⟩
  · obtain ⟨same, -⟩ := Prod.mk.inj (Option.some.inj applied)
    rw [← same]
    obtain ⟨data, object, isIndex⟩ := mine.storing
    exact ⟨⟨data, object, isIndex.congr rfl⟩, mine.flushed⟩

end Step

/-- A session is tidy throughout. -/
theorem Daemon.Tidy.of_reachable {setup : Setup} {start : Daemon} (tidy : start.Tidy setup start)
    {pool : Pool Daemon Call Unit}
    (reached : Reachable (daemonSys setup.cfg) noRecord (· = ⟨start, [], ()⟩) sequential pool) :
    pool.shared.Tidy setup start ∧ ∀ c ∈ pool.threads, c.Tidy setup.cfg.codec pool.shared := by
  have alone := Reachable.exclusive (fun _ : Call => true) ?_ ?_ ?_ reached
  refine Reachable.local_invariant (fun d _ => d.Tidy setup start)
    (fun d _ c => c.Tidy setup.cfg.codec d) ?_ ?_ ?_ alone
  · rintro pool rfl
    exact ⟨tidy, fun _ member => by cases member⟩
  · rintro pool c - ⟨-, request, -⟩
    refine ⟨request.sound, ?_, ?_⟩
    · cases c <;> trivial
    · cases c <;> trivial
  · rintro d mark before c after o d' a tidy each ⟨single, admitted⟩ applied
    have mine := each c (by simp)
    refine ⟨tidy.of_apply mine applied, fun c' continues => ?_, fun u member => ?_⟩
    · exact mine.of_follows tidy applied (Call.follows_of_resume continues)
        (admitted c (getElem?_moving before c after))
    · exact absurd (not_critical_of_count single rfl member) (by decide)
  · rintro pool rfl
    exact Nat.zero_le _
  · rintro pool c ⟨-, idle⟩
    refine Or.inr fun u member => ?_
    rw [idle] at member
    cases member
  · exact fun _ _ _ _ _ _ _ _ _ _ _ => Or.inl rfl

/-! ### From one session to the next -/

/-- What a session leaves for the next. -/
structure Daemon.Left (setup : Setup) (d : Daemon) : Prop where
  restorable : d.idx.Restorable
  blockSize : d.idx.blockSize = setup.blockSize
  consistent : d.cs.Consistent d.objects
  clean : Clean d.objects d.cs
  flushed : d.cs.activeDirty = false
  stored : d.Stored setup.cfg.codec

/-- Nothing waits in the buffer: what can be read is in the store. -/
theorem Daemon.Left.byteOf_eq {setup : Setup} {d : Daemon} (left : d.Left setup) (id : Key)
    (i : Nat) : d.cs.byteOf d.objects id i = objectByte d.objects id i := by
  by_cases isActive : id = d.cs.activeID
  · subst isActive
    rw [byteOf_active]
    unfold objectByte
    by_cases empty : d.cs.activeBuf = []
    · cases object : d.objects.get d.cs.activeID with
      | none => rw [empty]; rfl
      | some bytes =>
          have isPart := left.consistent.stored bytes object
          rw [empty, List.prefix_nil] at isPart
          rw [empty, isPart]
          rfl
    · rw [left.clean left.flushed empty]
      rfl
  · exact byteOf_of_ne isActive

theorem Daemon.Left.indexed {setup : Setup} {d : Daemon} (left : d.Left setup) :
    ∃ data idx, d.objects.get indexKey = some data ∧
      decodeIndex setup.cfg.codec setup.blockSize data = some idx ∧
      idx.sansAtimes = d.idx.sansAtimes ∧ idx.Restorable := by
  obtain ⟨data, object, idx, decodes, agrees⟩ := left.stored
  exact ⟨data, idx, object, left.blockSize ▸ decodes, agrees,
    left.restorable.of_sansAtimes agrees⟩

/-- A fresh node mounts the stored index, over a chunk store that starts past the
stored chunks. -/
theorem mount_fresh {setup : Setup} {objects : Objects} {data : Bytes} {idx : Index}
    (object : objects.get indexKey = some data)
    (decodes : decodeIndex setup.cfg.codec setup.blockSize data = some idx) {o : MountOracle}
    {d : Daemon} (mounted : mount setup o objects ∅ none = some d) :
    d.idx = idx ∧ d.objects = objects ∧ o.ids.toFinset = mapStore.list objects ∧
      d.cs = buildChunkStore setup.chunkSize o.ids ∅ := by
  obtain ⟨listed, idx', kept, loaded, rfl⟩ := mount_cases mounted
  refine ⟨?_, rfl, listed, rfl⟩
  rcases loadIndex_none loaded with ⟨absent, -⟩ | ⟨data', object', decodes'⟩
  · cases absent.symm.trans object
  · cases object'.symm.trans object
    cases decodes'.symm.trans decodes
    rfl

theorem mount_tidy {setup : Setup} {objects : Objects} {data : Bytes} {idx : Index}
    (object : objects.get indexKey = some data)
    (decodes : decodeIndex setup.cfg.codec setup.blockSize data = some idx)
    (restorable : idx.Restorable) (small : ChunksBelow 100000000 objects) {o : MountOracle}
    {d : Daemon} (mounted : mount setup o objects ∅ none = some d) : d.Tidy setup d := by
  obtain ⟨rfl, rfl, listed, store⟩ := mount_fresh object decodes mounted
  obtain ⟨blockSize, -⟩ := decodeIndex_fields decodes
  have sound := mount_sound setup restorable o.ids ∅ d.objects d.dir
  have consistent := buildChunkStore_consistent (small.recovered listed) setup.chunkSize ∅
  rw [← store] at sound consistent
  refine ⟨sound, blockSize, consistent, ?_, ?_, fun seq isFrozen => ⟨isFrozen, rfl⟩⟩
  · intro _ filled
    rw [store, buildChunkStore_eq] at filled
    exact absurd rfl filled
  · exact fun _ => ⟨data, object, d.idx, blockSize.symm ▸ decodes, rfl⟩

theorem Daemon.Tidy.left {setup : Setup} {start d : Daemon} (tidy : start.Tidy setup start)
    (session : EndsPersisted setup.cfg start d) : d.Left setup := by
  obtain ⟨pool, c, o, a, reached, only, persisting, applied, returns⟩ := session
  obtain ⟨before, calls⟩ := tidy.of_reachable reached
  have mine := calls c (by rw [only]; exact List.mem_singleton_self c)
  obtain ⟨stored, flushed⟩ := before.stored mine persisting applied returns
  have after := before.of_apply mine applied
  exact ⟨after.sound.restorable, after.blockSize, after.consistent, after.clean, flushed, stored⟩

theorem Ended.left {setup : Setup} {d : Daemon} (ended : Ended setup d) : d.Left setup := by
  induction ended with
  | first indexed small mounted session =>
      obtain ⟨data, idx, object, decodes, restorable⟩ := indexed
      exact (mount_tidy object decodes restorable small mounted).left session
  | next _ small mounted session inductionHypothesis =>
      obtain ⟨data, idx, object, decodes, -, restorable⟩ := inductionHypothesis.indexed
      exact (mount_tidy object decodes restorable small mounted).left session

/-- After any number of sessions the next one can be mounted. It starts with the
tree, the metadata up to access times and the file contents that the last one
ended with, all of whose bytes are in the store, and none of its steps changes a
chunk object that it found. -/
theorem clean_restart_preserves {setup : Setup} {last : Daemon} (ended : Ended setup last)
    (small : ChunksBelow 100000000 last.objects) :
    (∀ o : MountOracle, o.ids.toFinset = mapStore.list last.objects → o.load.answers = true →
        ∃ d, mount setup o last.objects ∅ none = some d) ∧
      ∀ o d, mount setup o last.objects ∅ none = some d →
        d.idx.sansAtimes = last.idx.sansAtimes ∧
        (∀ id i, last.cs.byteOf last.objects id i = objectByte last.objects id i) ∧
        (∀ ino x, d.byteIn ino x = last.byteIn ino x) ∧
        ∀ pool, Reachable (daemonSys setup.cfg) noRecord (· = ⟨d, [], ()⟩) sequential pool →
          ∀ seq object, last.objects.get (chunkID seq) = some object →
            pool.shared.objects.get (chunkID seq) = some object := by
  have left := ended.left
  obtain ⟨data, idx, object, decodes, agrees, restorable⟩ := left.indexed
  refine ⟨fun o listed answers => ?_, fun o d mounted => ?_⟩
  · rw [← Option.isSome_iff_exists, mount, if_pos listed, Option.isSome_map]
    simp only [loadIndex, answers, mapStore_getRaw, mapStore_indexKey, object, decodes,
      Bool.true_eq_false, if_false, Option.map_some, Option.isSome_some]
  · have tidy := mount_tidy object decodes restorable small mounted
    obtain ⟨isIndex, sameObjects, listed, store⟩ := mount_fresh object decodes mounted
    have below := small.recovered listed
    refine ⟨isIndex ▸ agrees, left.byteOf_eq, fun ino x => ?_,
      fun pool reached seq bytes found => ?_⟩
    · have sameBytes : d.cs.byteOf d.objects = last.cs.byteOf last.objects := by
        funext id i
        rw [left.byteOf_eq, sameObjects, store, buildChunkStore_eq]
        by_cases isActive : id = chunkID (recoveredSeq o.ids)
        · -- The new active chunk is empty, and there is no object of its number.
          rw [isActive, objectByte, below.absent le_rfl]
          exact byteOf_active _ _ i
        · exact byteOf_of_ne isActive
      have extents : d.idx.extents = last.idx.extents := by
        rw [isIndex]
        exact (Index.mk.inj agrees).2.2.1
      unfold Daemon.byteIn
      rw [sameBytes, extents]
    · have isFrozen : d.cs.Frozen (chunkID seq) := by
        rw [store]
        exact buildChunkStore_frozen (below seq bytes found) setup.chunkSize ∅
      rw [((tidy.of_reachable reached).1.frozen seq isFrozen).2, sameObjects]
      exact found

/-! ### A restart -/

/-- A configuration that can be evaluated on an empty filesystem and on one with
a file of three bytes. -/
noncomputable def writtenSetup : Setup :=
  ⟨⟨100, true, .unary [wireAfter [] [], wireAfter oneEntry.order
    ((Call.make .regular 1 [97] 0o644 0 0 1).alone 3 ++ (Call.write 2 [7, 8, 9] 0 2).alone 4)]⟩,
    8, 4096, eight_lt⟩

/-- The file is written in one session and found in the next. -/
theorem clean_restart_preserves_written :
    ∃ last d, Ended writtenSetup last ∧
      mount writtenSetup { ids := [chunkID 0] } last.objects ∅ none = some d ∧
      last.byteIn 2 1 = 8 ∧ d.idx.sansAtimes = last.idx.sansAtimes ∧ d.byteIn 2 1 = 8 := by
  have plays : ((mount writtenSetup {} emptyStore ∅ none).bind fun d =>
      ((daemonSys writtenSetup.cfg).run noRecord sequential ⟨d, [], ()⟩
        ((Call.make .regular 1 [97] 0o644 0 0 1).alone 3 ++
          (Call.write 2 [7, 8, 9] 0 2).alone 4 ++
          [.spawn .persist, .run 0 {}, .run 0 oneEntry, .run 0 {}, .run 0 {}, .run 0 {}, .run 0 {},
            .run 0 {}, .run 0 {}, .run 0 oneEntry, .run 0 {}])).bind fun pool =>
        (pool.shared.apply .markRemoteClean {}).map fun result =>
          (decide (pool.threads = [.persistMark]), decide (result.2 = .done),
            decide (result.1.objects.keys = {indexKey, chunkID 0}), result.1.byteIn 2 1)) =
      some (true, true, true, 8) := by decide +kernel
  obtain ⟨d, mounted, rest⟩ := Option.bind_eq_some_iff.mp plays
  obtain ⟨pool, ran, rest⟩ := Option.bind_eq_some_iff.mp rest
  obtain ⟨⟨last, a⟩, applied, shown⟩ := Option.map_eq_some_iff.mp rest
  obtain ⟨only, rest⟩ := Prod.mk.inj shown
  obtain ⟨done, rest⟩ := Prod.mk.inj rest
  obtain ⟨keys, byte⟩ := Prod.mk.inj rest
  have isDone : a = .done := of_decide_eq_true done
  subst isDone
  have decodes : (decodeIndex writtenSetup.cfg.codec 4096 []).isSome = true := by decide +kernel
  obtain ⟨idx, decoded⟩ := Option.isSome_iff_exists.mp decodes
  have indexed : Indexed writtenSetup emptyStore :=
    ⟨[], idx, GoMap.get_set_self _ _ _, decoded,
      emptyStore_legible (by decide +kernel) (GoMap.get_set_self _ _ _) 4096 idx decoded⟩
  have none : ChunksBelow 100000000 emptyStore := by
    intro seq object stored
    cases (GoMap.get_set_ne _ _ (chunkID_ne_indexKey seq)).symm.trans stored
  have ended : Ended writtenSetup last :=
    .first indexed none mounted ⟨pool, .persistMark, {}, .done, .of_run (.start rfl) ran,
      of_decide_eq_true only, trivial, applied, rfl⟩
  have same : last.objects.keys = {indexKey, chunkID 0} := of_decide_eq_true keys
  have small : ChunksBelow 100000000 last.objects := by
    intro seq object stored
    have member : chunkID seq ∈ last.objects.keys := GoMap.mem_keys.mpr ⟨object, stored⟩
    rw [same, Finset.mem_insert, Finset.mem_singleton] at member
    rcases member with isIndex | isZero
    · exact absurd isIndex (chunkID_ne_indexKey seq)
    · rw [chunkID_injective isZero]
      decide
  obtain ⟨mounts, preserves⟩ := clean_restart_preserves ended small
  have listed : [chunkID 0].toFinset = mapStore.list last.objects := by
    change _ = last.objects.keys.erase indexKey
    rw [same]
    decide +kernel
  obtain ⟨d', remounted⟩ := mounts { ids := [chunkID 0] } listed rfl
  obtain ⟨tree, -, contents, -⟩ := preserves _ d' remounted
  exact ⟨last, d', ended, remounted, byte, tree, (contents 2 1).trans byte⟩

end Fusey
