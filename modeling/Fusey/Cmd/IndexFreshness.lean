import Fusey.Cmd.ChunkIdentity
import Fusey.Fuse.DirtyFlags

/-!
Contract: which index the runs on one host start from, when mount sessions and
compaction runs follow each other without overlapping.

Owns:
- the histories of a host: a session has a cache directory of its own, and all
  compaction runs share one, whose snapshot outlives them;
- that a run starts from the stored index, that a compaction run deletes no chunk
  which the stored index names and writes back no other index, as long as it
  finds no snapshot or the snapshot and the stored index are those of an earlier
  compaction run;
- a history in which a compaction run starts from the snapshot of an earlier one
  and deletes a chunk written since.
-/

set_option autoImplicit false

namespace Fusey

open Interleaving Compaction

/-! ### Histories of a host -/

/-- What lies on a host between two runs: the store, the snapshot in the
directory of the compaction runs, and the snapshot and the stored index as they
were when a compaction run last loaded or persisted its index. -/
structure Host where
  objects : Objects
  snapshot : Option Bytes
  seen : Option Bytes × Option Bytes

/-- A compaction run notes the snapshot and the stored index when it has loaded
its index and when it has persisted it. -/
def noteSeen (seen : Option Bytes × Option Bytes) (thread : CompactProcess × Unit)
    (answer : CompactProcess.Answer × (Objects × Option Bytes)) : Option Bytes × Option Bytes :=
  match thread.1, answer.1 with
  | .loading .., .loaded (some _) => (answer.2.2, answer.2.1.get indexKey)
  | .compacting run, .compact (.ended true) =>
      match run.stage with
      | .persisting .. => (answer.2.2, answer.2.1.get indexKey)
      | _ => seen
  | _, _ => seen

/-- A compaction run begins on the host. -/
def Host.compacting (host : Host) (setup : Setup) (params : Params) (files : Objects) :
    Pool (Objects × Option Bytes) (CompactProcess × Unit) (Option Bytes × Option Bytes) :=
  ⟨(host.objects, host.snapshot), [(.recovering params setup.blockSize files, ())], host.seen⟩

/-- The histories of a host: runs follow each other, and each ends at any point.
`mayCompact` restricts where a compaction run starts. -/
inductive OnHost (setup : Setup) (mayCompact : Host → Prop) : Host → Prop where
  | first {objects : Objects}
      (legible : ∀ data, objects.get indexKey = some data → Legible setup.cfg.codec data) :
      OnHost setup mayCompact ⟨objects, none, none, none⟩
  | session {host : Host} {o : MountOracle} {d : Daemon} {pool : Pool Daemon Call Unit}
      (before : OnHost setup mayCompact host) (mounted : mount setup o host.objects ∅ none = some d)
      (ran : Reachable (daemonSys setup.cfg) noRecord (· = ⟨d, [], ()⟩) requestsOnly pool) :
      OnHost setup mayCompact { host with objects := pool.shared.objects }
  | compaction {host : Host} {params : Params} {files : Objects}
      {pool : Pool (Objects × Option Bytes) (CompactProcess × Unit) (Option Bytes × Option Bytes)}
      (before : OnHost setup mayCompact host) (allowed : mayCompact host)
      (ran : Reachable (compactionSys setup) noteSeen (· = host.compacting setup params files)
        processAlone pool) :
      OnHost setup mayCompact ⟨pool.shared.1, pool.shared.2, pool.record⟩

/-- There is no snapshot, or it and the stored index are still those that a
compaction run noted. -/
def Host.Current (host : Host) : Prop :=
  host.snapshot = none ∨
    host.seen = (host.snapshot, host.objects.get indexKey) ∧
      (host.objects.get indexKey).isSome = true

instance (host : Host) : Decidable host.Current := by
  unfold Host.Current
  infer_instance

/-- The index is the stored one up to access times, or new if none is stored. -/
def LoadedFrom (setup : Setup) (objects : Objects) (idx : Index) : Prop :=
  match objects.get indexKey with
  | none => ∃ now, idx = Index.new setup.blockSize now
  | some data => ∃ stored, decodeIndex setup.cfg.codec setup.blockSize data = some stored ∧
      stored.sansAtimes = idx.sansAtimes

/-! ### What a run may rely on -/

/-- If both a snapshot and a stored index were seen, they are the same up to
access times. -/
def Agreeing (setup : Setup) (seen : Option Bytes × Option Bytes) : Prop :=
  ∀ kept data, seen = (some kept, some data) → ∀ idx,
    decodeIndex setup.cfg.codec setup.blockSize kept = some idx →
      ∃ stored, decodeIndex setup.cfg.codec setup.blockSize data = some stored ∧
        stored.sansAtimes = idx.sansAtimes

/-- What holds on a host between any two steps. -/
structure Filed (setup : Setup) (objects : Objects) (seen : Option Bytes × Option Bytes) :
    Prop where
  legible : ∀ data, objects.get indexKey = some data → Legible setup.cfg.codec data
  agreeing : Agreeing setup seen

/-- `loadIndex` returns the stored index, and what it leaves agrees with it. -/
theorem Host.Current.load {setup : Setup} {host : Host} (current : host.Current)
    (filed : Filed setup host.objects host.seen) {o : LoadOracle} {idx : Index}
    {kept : Option Bytes}
    (loaded : loadIndex setup.cfg.codec setup.blockSize mapStore o host.objects host.snapshot =
      some (idx, kept)) :
    idx.Restorable ∧ LoadedFrom setup host.objects idx ∧
      Agreeing setup (kept, host.objects.get indexKey) := by
  cases snapshot : host.snapshot with
  | some local' =>
      rw [snapshot] at loaded
      obtain ⟨idx', decoded, same⟩ := Option.map_eq_some_iff.mp loaded
      cases same
      rcases current with absent | ⟨seen, present⟩
      · rw [snapshot] at absent
        cases absent
      · obtain ⟨data, object⟩ := Option.isSome_iff_exists.mp present
        rw [snapshot, object] at seen
        obtain ⟨stored, decodes, agrees⟩ := filed.agreeing local' data seen idx decoded
        refine ⟨(filed.legible data object _ _ decodes).of_sansAtimes agrees.symm, ?_, ?_⟩
        · unfold LoadedFrom
          rw [object]
          exact ⟨stored, decodes, agrees⟩
        · rw [object, ← seen]
          exact filed.agreeing
  | none =>
      rw [snapshot] at loaded
      simp only [loadIndex, mapStore_getRaw, mapStore_indexKey] at loaded
      split_ifs at loaded
      cases object : host.objects.get indexKey with
      | none =>
          rw [object] at loaded
          cases loaded
          refine ⟨Index.new_restorable _ _, ?_, fun kept data same => by cases same⟩
          unfold LoadedFrom
          rw [object]
          exact ⟨o.now, rfl⟩
      | some data =>
          rw [object] at loaded
          obtain ⟨idx', decodes, same⟩ := Option.map_eq_some_iff.mp loaded
          cases same
          have restorable := filed.legible data object _ _ decodes
          refine ⟨restorable, ?_, ?_⟩
          · unfold LoadedFrom
            rw [object]
            exact ⟨idx, decodes, rfl⟩
          · -- What is cached is the index that was loaded.
            rintro local' data' seen idx' decoded
            obtain ⟨isKept, rfl⟩ : _ ∧ data = data' := by simpa using seen
            obtain ⟨⟨-, lists⟩, encoded⟩ := isKept
            refine ⟨idx, decodes, ?_⟩
            rw [restorable.of_decodes lists encoded decoded, ← (decodeIndex_fields decodes).1]
            rfl

/-! ### The steps of a compaction run -/

/-- A compaction run that has loaded the index stored at its start. Past its
persist no extent of the index lies in a target. -/
structure Compaction.Run.Filed (setup : Setup) (start : Objects) (run : Run) (idx : Index)
    (order : List (Ino × List Extent)) : Prop where
  restorable : idx.Restorable
  lists : ListsExtents idx order
  tracked : run.Tracked (· ≠ indexKey) (fun _ _ => True) idx (Index.liveExtents order)
  origin : LoadedFrom setup start idx
  deletes : ∀ targets packing id pending, run.stage = .deleting targets packing id pending →
    ∀ e ∈ Index.liveExtents order, e.chunkID ∉ targets

/-- What a process at its next step knows about the store it started on. -/
def CompactProcess.Filed (setup : Setup) (start : Objects) (s : Objects × Option Bytes)
    (seen : Option Bytes × Option Bytes) : CompactProcess → Prop
  | .recovering _ blockSize _ | .loading _ blockSize _ =>
      blockSize = setup.blockSize ∧ s.1.get indexKey = start.get indexKey ∧
        Host.Current ⟨s.1, s.2, seen⟩
  | .compacting run => ∃ idx order, run.Filed setup start idx order

/-- The stored index is the one at the start, or it has been written again. -/
def Rewritten (setup : Setup) (start objects : Objects) : Prop :=
  ∀ data, objects.get indexKey = some data → start.get indexKey = some data ∨
    ∃ idx order, idx.Lists order ∧
      encodeSnapshot setup.cfg.codec (idx.snapshot order) = some data ∧ LoadedFrom setup start idx

section Compacting

variable {setup : Setup} {start : Objects} {s s' : Objects × Option Bytes} {run run' : Run}
  {idx : Index} {order : List (Ino × List Extent)} {o : Compaction.Oracle} {a : Compaction.Answer}

/-- A persist that returns nil has encoded the index and put it in both places. -/
theorem Compaction.Run.persisted_of_apply {codec : CborCodec} {targets : List Key}
    {packing : Packing} (stage : run.stage = .persisting targets packing)
    (applied : Compaction.apply mapStore (compactPersist codec mapStore) s run.effect o =
      some (s', .ended true)) :
    ∃ data, run.idx.Lists o.order ∧ encodeSnapshot codec (run.idx.snapshot o.order) = some data ∧
      s' = (s.1.set indexKey data, some data) := by
  have persisted : (compactPersist codec mapStore run.idx o s).1 = s' ∧
      (compactPersist codec mapStore run.idx o s).2 = true := by
    simpa only [Run.effect, stage, Compaction.apply, Option.some.injEq, Prod.mk.injEq,
      Compaction.Answer.ended.injEq] using applied
  rcases compactPersist_cases codec mapStore run.idx o s with
    failed | ⟨data, lists, encoded, failed | ⟨ok, written⟩⟩
  · rw [failed] at persisted
    cases persisted.2
  · rw [failed] at persisted
    cases persisted.2
  · rw [written] at persisted
    exact ⟨data, lists, encoded, persisted.1.symm⟩

/-- A chunk disappears only where it is deleted. -/
theorem Compaction.Run.removes_of_apply {codec : CborCodec}
    (applied : Compaction.apply mapStore (compactPersist codec mapStore) s run.effect o =
      some (s', a)) {id : Key} {object : Bytes} (present : s.1.get id = some object)
    (gone : s'.1.get id = none) :
    ∃ targets packing pending, run.stage = .deleting targets packing id pending := by
  rcases Run.apply_cases applied with rfl | ⟨targets, packing, output, pending, stage, rfl⟩ |
    ⟨targets, packing, stage, rfl, -⟩ | ⟨targets, packing, target, pending, stage, rfl⟩
  · cases gone.symm.trans present
  · simp only [mapStore_put, GoMap.get_set] at gone
    split_ifs at gone
    cases gone.symm.trans present
  · rcases compactPersist_cases codec mapStore run.idx o s with
      failed | ⟨data, lists, encoded, failed | ⟨ok, written⟩⟩
    · rw [failed] at gone
      cases gone.symm.trans present
    · rw [failed] at gone
      cases gone.symm.trans present
    · rw [written] at gone
      simp only [mapStore_putRaw, GoMap.get_set] at gone
      split_ifs at gone
      cases gone.symm.trans present
  · simp only [mapStore_delete, GoMap.get_delete] at gone
    split_ifs at gone with isTarget
    · rw [isTarget]
      exact ⟨targets, packing, pending, stage⟩
    · cases gone.symm.trans present

namespace Compaction.Run.Filed

variable (filed : run.Filed setup start idx order)

include filed

/-- A run that can encode its index has moved nothing, and encodes the index it
has loaded. -/
theorem encoded {targets : List Key} {packing : Packing}
    (stage : run.stage = .persisting targets packing) {dirOrder : List DirEntry} {data : Bytes}
    (lists : run.idx.Lists dirOrder)
    (encoded : encodeSnapshot setup.cfg.codec (run.idx.snapshot dirOrder) = some data) :
    (∀ e ∈ Index.liveExtents order, e.chunkID ∉ targets) ∧ idx.Lists dirOrder ∧
      encodeSnapshot setup.cfg.codec (idx.snapshot dirOrder) = some data := by
  obtain ⟨-, holds⟩ := filed.tracked
  rw [stage] at holds
  obtain ⟨remapped, -, packed⟩ := holds
  rw [remapped] at encoded lists
  have untouched := untouched_of_encodeSnapshot filed.lists packed encoded
  rw [snapshot_remapExtents (packed.remap_empty untouched)] at encoded
  exact ⟨untouched, lists, encoded⟩

/-- The object under the index key is replaced by the loaded index, or stays. -/
theorem indexObject (applied : Compaction.apply mapStore (compactPersist setup.cfg.codec mapStore) s
      run.effect o = some (s', a)) :
    s'.1.get indexKey = s.1.get indexKey ∨ ∃ data, idx.Lists o.order ∧
      encodeSnapshot setup.cfg.codec (idx.snapshot o.order) = some data ∧
      s'.1.get indexKey = some data := by
  obtain ⟨-, holds⟩ := filed.tracked
  rcases Run.apply_cases applied with rfl | ⟨targets, packing, output, pending, stage, rfl⟩ |
    ⟨targets, packing, stage, rfl, -⟩ | ⟨targets, packing, id, pending, stage, rfl⟩
  · exact Or.inl rfl
  · rw [stage] at holds
    obtain ⟨-, -, packed, rest⟩ := holds
    obtain ⟨k, isCompacted⟩ := packed.output_id
      (mem_outputs.mp (rest.subset (List.mem_cons_self ..))).1
    refine Or.inl (GoMap.get_set_ne _ _ ?_)
    rw [isCompacted]
    exact (compactedID_ne_indexKey _ _).symm
  · rcases compactPersist_cases setup.cfg.codec mapStore run.idx o s with
      failed | ⟨data, lists, encoded, failed | ⟨ok, written⟩⟩
    · rw [failed]
      exact Or.inl rfl
    · rw [failed]
      exact Or.inl rfl
    · rw [written]
      obtain ⟨-, listsOld, encodes⟩ := filed.encoded stage lists encoded
      exact Or.inr ⟨data, listsOld, encodes, GoMap.get_set_self _ _ _⟩
  · rw [stage] at holds
    obtain ⟨-, listed, -, rest⟩ := holds
    refine Or.inl (GoMap.get_delete_ne _ ?_)
    exact (listed id (rest.subset (List.mem_cons_self ..))).symm

theorem of_resume (applied : Compaction.apply mapStore (compactPersist setup.cfg.codec mapStore) s
      run.effect o = some (s', a)) (continues : run.resume a = .inl run') :
    run'.Filed setup start idx order where
  restorable := filed.restorable
  lists := filed.lists
  origin := filed.origin
  tracked := by
    refine filed.tracked.resume ?_ (fun _ _ _ _ _ _ _ _ => trivial) continues
    intro stage ids isListing x member
    simp only [Run.effect, stage, Compaction.apply] at applied
    split_ifs at applied with refused listed <;> cases applied <;> cases isListing
    have inStore : x ∈ run.cs.listSealed mapStore s.1 := by
      rw [← listed]
      exact List.mem_toFinset.mpr member
    exact (mem_mapStore_list.mp (Finset.mem_of_mem_erase inStore)).1
  deletes := by
    intro targets packing id pending deleting
    rcases Run.deleting_of_resume continues deleting with ⟨stage, rfl⟩ | ⟨earlier, stage⟩
    · obtain ⟨data, lists, encoded, -⟩ := Run.persisted_of_apply stage applied
      exact (filed.encoded stage lists encoded).1
    · exact filed.deletes targets packing earlier (id :: pending) stage

/-- The chunk that a run is about to delete is not named by an index with the
same extents. -/
theorem unnamed {targets : List Key} {packing : Packing} {id : Key} {pending : List Key}
    (stage : run.stage = .deleting targets packing id pending) {stored : Index}
    (same : stored.extents = idx.extents) : id ≠ indexKey ∧ ¬ stored.Names id := by
  obtain ⟨-, holds⟩ := filed.tracked
  rw [stage] at holds
  have isTarget : id ∈ targets := holds.2.2.2.subset (List.mem_cons_self ..)
  refine ⟨holds.2.1 id isTarget, ?_⟩
  rintro ⟨ino, known, e, member, rfl⟩
  rw [same] at known member
  obtain ⟨exts, listed⟩ := GoMap.mem_keys.mp known
  rw [listed] at member
  exact filed.deletes _ _ _ _ stage e
    ((mem_liveExtents filed.lists).mpr ⟨ino, exts, listed, member⟩) isTarget

end Compaction.Run.Filed

theorem noteSeen_agreeing {seen : Option Bytes × Option Bytes} (agreeing : Agreeing setup seen)
    (mark : Unit)
    (applied : Compaction.apply mapStore (compactPersist setup.cfg.codec mapStore) s run.effect o =
      some (s', a)) :
    Agreeing setup (noteSeen seen (.compacting run, mark) (.compact a, s')) := by
  rcases a with ids | size | ⟨cs, data⟩ | ⟨_ | _⟩
  case ended.true =>
    cases stage : run.stage with
    | persisting targets packing =>
        simp only [noteSeen, stage]
        obtain ⟨data, -, -, rfl⟩ := Run.persisted_of_apply stage applied
        -- Both are the bytes that were persisted.
        rintro kept data' seen idx decoded
        obtain ⟨rfl, rfl⟩ : data = kept ∧ data = data' := by simpa using seen
        exact ⟨idx, decoded, rfl⟩
    | _ =>
        simp only [noteSeen, stage]
        exact agreeing
  all_goals exact agreeing

end Compacting

/-! ### The steps of a process -/

/-- What holds on a host between any two steps of a compaction run. -/
structure FiledSince (setup : Setup) (start objects : Objects)
    (seen : Option Bytes × Option Bytes) : Prop extends Filed setup objects seen where
  rewritten : Rewritten setup start objects

section Process

variable {setup : Setup} {start : Objects} {s s' : Objects × Option Bytes}
  {seen : Option Bytes × Option Bytes} {p p' : CompactProcess} {o : CompactProcess.Oracle}
  {a : CompactProcess.Answer}

theorem LoadedFrom.congr {objects objects' : Objects} {idx : Index}
    (loaded : LoadedFrom setup objects idx)
    (same : objects'.get indexKey = objects.get indexKey) : LoadedFrom setup objects' idx := by
  unfold LoadedFrom
  rw [same]
  exact loaded

/-- The extents of the stored index are those of the loaded one. -/
theorem LoadedFrom.extents {objects : Objects} {idx stored : Index} {data : Bytes}
    (loaded : LoadedFrom setup objects idx) (object : objects.get indexKey = some data)
    (decodes : decodeIndex setup.cfg.codec setup.blockSize data = some stored) :
    stored.extents = idx.extents := by
  unfold LoadedFrom at loaded
  rw [object] at loaded
  obtain ⟨stored', decodes', agrees⟩ := loaded
  cases decodes'.symm.trans decodes
  exact (Index.mk.inj agrees).2.2.1

theorem LoadedFrom.restorable {objects : Objects} {idx : Index}
    (loaded : LoadedFrom setup objects idx)
    (legible : ∀ data, objects.get indexKey = some data → Legible setup.cfg.codec data) :
    idx.Restorable := by
  unfold LoadedFrom at loaded
  split at loaded
  next =>
    obtain ⟨now, rfl⟩ := loaded
    exact Index.new_restorable _ _
  next data object =>
    obtain ⟨stored, decodes, agrees⟩ := loaded
    exact (legible data object _ _ decodes).of_sansAtimes agrees.symm

theorem LoadedFrom.extents_eq {objects : Objects} {idx idx' : Index}
    (loaded : LoadedFrom setup objects idx) (loaded' : LoadedFrom setup objects idx') :
    idx'.extents = idx.extents := by
  cases object : objects.get indexKey with
  | none =>
      unfold LoadedFrom at loaded loaded'
      rw [object] at loaded loaded'
      obtain ⟨now, rfl⟩ := loaded
      obtain ⟨now', rfl⟩ := loaded'
      rfl
  | some data =>
      have found := loaded
      unfold LoadedFrom at found
      rw [object] at found
      obtain ⟨stored, decodes, -⟩ := found
      rw [← loaded.extents object decodes, loaded'.extents object decodes]

/-- A loading step returns what `loadIndex` does, or fails. -/
theorem CompactProcess.apply_loading {codec : CborCodec} {params : Params} {blockSize : Int}
    {cs : ChunkStore}
    (applied : CompactProcess.apply codec mapStore s
      (CompactProcess.loading params blockSize cs).effect o = some (s', a)) :
    (s' = s ∧ a = .loaded none) ∨ ∃ idx, ListsExtents idx o.extents ∧
      a = .loaded (some (idx, o.extents)) ∧ s'.1 = s.1 ∧
      loadIndex codec blockSize mapStore o.load s.1 s.2 = some (idx, s'.2) := by
  simp only [CompactProcess.effect, CompactProcess.apply] at applied
  split at applied
  next =>
    cases applied
    exact Or.inl ⟨rfl, rfl⟩
  next idx kept loaded =>
    split_ifs at applied with lists
    cases applied
    exact Or.inr ⟨idx, lists, rfl, rfl, loaded⟩

/-- Every step keeps what is filed, and what the process knows. -/
theorem CompactProcess.Filed.step (filed : FiledSince setup start s.1 seen)
    (mine : p.Filed setup start s seen) (mark : Unit)
    (applied : CompactProcess.apply setup.cfg.codec mapStore s p.effect o = some (s', a)) :
    FiledSince setup start s'.1 (noteSeen seen (p, mark) (a, s')) ∧
      ∀ p', p.resume a = .inl p' → p'.Filed setup start s' (noteSeen seen (p, mark) (a, s')) := by
  cases p with
  | recovering params blockSize files =>
      have same : s' = s := by
        simp only [CompactProcess.effect, CompactProcess.apply] at applied
        split_ifs at applied <;> cases applied <;> rfl
      subst same
      refine ⟨filed, fun p' continues => ?_⟩
      rcases a with ⟨_ | ids⟩ | result | a <;> cases continues
      exact mine
  | loading params blockSize cs =>
      obtain ⟨rfl, isStart, current⟩ := mine
      rcases CompactProcess.apply_loading applied with ⟨rfl, rfl⟩ | ⟨idx, lists, rfl, same, loaded⟩
      · exact ⟨filed, fun _ continues => by cases continues⟩
      · obtain ⟨restorable, isStored, agreeing⟩ := current.load filed.toFiled loaded
        rw [← same] at agreeing
        refine ⟨⟨⟨same ▸ filed.legible, agreeing⟩, same ▸ filed.rewritten⟩, ?_⟩
        rintro p' ⟨⟩
        exact ⟨idx, o.extents, restorable, lists, ⟨rfl, rfl⟩, isStored.congr isStart.symm,
          fun _ _ _ _ stage => by cases stage⟩
  | compacting run =>
      obtain ⟨idx, order, mine⟩ := mine
      obtain ⟨⟨left, answer⟩, ran, same⟩ := Option.map_eq_some_iff.mp applied
      cases same
      refine ⟨⟨⟨fun data present => ?_, noteSeen_agreeing filed.agreeing mark ran⟩,
        fun data present => ?_⟩, fun p' continues => ?_⟩
      · rcases mine.indexObject ran with same | ⟨data', lists, encoded, now⟩
        · exact filed.legible data (same ▸ present)
        · cases now.symm.trans present
          exact mine.restorable.legible lists encoded
      · rcases mine.indexObject ran with same | ⟨data', lists, encoded, now⟩
        · exact filed.rewritten data (same ▸ present)
        · cases now.symm.trans present
          exact Or.inr ⟨idx, o.compact.order, lists, encoded, mine.origin⟩
      · cases resumed : run.resume answer with
        | inr r =>
            simp only [CompactProcess.resume, resumed] at continues
            cases continues
        | inl run' =>
            simp only [CompactProcess.resume, resumed] at continues
            cases continues
            exact ⟨idx, order, mine.of_resume ran resumed⟩

end Process

theorem FiledSince.of_compaction {setup : Setup} {host : Host}
    (filed : Filed setup host.objects host.seen) (current : host.Current) {params : Params}
    {files : Objects}
    {pool : Pool (Objects × Option Bytes) (CompactProcess × Unit) (Option Bytes × Option Bytes)}
    (ran : Reachable (compactionSys setup) noteSeen (· = host.compacting setup params files)
      processAlone pool) :
    FiledSince setup host.objects pool.shared.1 pool.record ∧
      ∀ t ∈ pool.threads, t.1.Filed setup host.objects pool.shared pool.record := by
  have alone := Reachable.exclusive (fun _ => true) ?_ ?_ ?_ ran
  refine Reachable.annotated_invariant (fun s seen => FiledSince setup host.objects s.1 seen)
    (fun s seen p _ => p.Filed setup host.objects s seen) ?_ ?_ ?_ alone
  · rintro pool rfl
    refine ⟨⟨filed, fun _ => Or.inl⟩, fun t member => ?_⟩
    rw [List.mem_singleton.mp member]
    exact ⟨rfl, rfl, current⟩
  · exact fun _ _ _ _ starts => starts.2.elim
  · rintro s seen before p mark after o s' a filed each ⟨single, -⟩ applied
    obtain ⟨kept, continues⟩ :=
      CompactProcess.Filed.step filed (each (p, mark) (by simp)) mark applied
    exact ⟨kept, continues, fun u member =>
      absurd (not_critical_of_count single rfl member) (by decide)⟩
  · rintro pool rfl
    exact Nat.le_refl 1
  · exact fun _ _ starts => starts.elim
  · exact fun _ _ _ _ _ _ _ _ _ _ _ => Or.inl rfl

/-! ### A mount session -/

/-- A session starts with the stored index. -/
theorem loadedFrom_of_mount {setup : Setup} {objects : Objects} {o : MountOracle} {d : Daemon}
    (mounted : mount setup o objects ∅ none = some d) : LoadedFrom setup objects d.idx := by
  obtain ⟨-, idx, kept, loaded, rfl⟩ := mount_cases mounted
  unfold LoadedFrom
  rcases loadIndex_none loaded with ⟨absent, rfl⟩ | ⟨data, object, decodes⟩
  · rw [show objects.get indexKey = none from absent]
    exact ⟨_, rfl⟩
  · rw [show objects.get indexKey = some data from object]
    exact ⟨idx, decodes, rfl⟩

/-- Under any interleaving a session stores indices that can be loaded. -/
theorem legible_of_session {setup : Setup} {objects : Objects}
    (legible : ∀ data, objects.get indexKey = some data → Legible setup.cfg.codec data)
    {o : MountOracle} {d : Daemon} (mounted : mount setup o objects ∅ none = some d)
    {pool : Pool Daemon Call Unit}
    (ran : Reachable (daemonSys setup.cfg) noRecord (· = ⟨d, [], ()⟩) requestsOnly pool) :
    ∀ data, pool.shared.objects.get indexKey = some data → Legible setup.cfg.codec data := by
  obtain ⟨-, idx, kept, loaded, rfl⟩ := mount_cases mounted
  have restorable : idx.Restorable := by
    rcases loadIndex_none loaded with ⟨-, rfl⟩ | ⟨data, object, decodes⟩
    · exact Index.new_restorable _ _
    · exact legible data object _ _ decodes
  refine (Reachable.local_invariant
    (fun d _ => d.Sound ∧ ∀ data, d.objects.get indexKey = some data → Legible setup.cfg.codec data)
    (fun _ _ c => c.Sound ∧ c.PutsOnly (Legible setup.cfg.codec)) ?_ ?_ ?_ ran).1.2
  · rintro pool rfl
    exact ⟨⟨mount_sound setup restorable o.ids ∅ objects _, legible⟩,
      fun _ member => by cases member⟩
  · rintro pool c - request
    refine ⟨Call.IsRequest.sound request, ?_⟩
    cases c <;> trivial
  · rintro d mark before c after o d' a ⟨sound, legible⟩ each - applied
    obtain ⟨callSound, puts⟩ := each c (by simp)
    refine ⟨⟨sound.of_apply callSound applied, puts.indexObject sound.active legible applied⟩,
      fun c' continues => ?_, fun u member => each u (mem_of_mem_others c member)⟩
    have follows := Call.follows_of_resume continues
    exact ⟨callSound.of_follows sound applied follows, .of_follows applied follows
      fun _ lists encoded => sound.restorable.legible lists encoded⟩

theorem OnHost.filed {setup : Setup} {host : Host} (history : OnHost setup Host.Current host) :
    Filed setup host.objects host.seen := by
  induction history with
  | first legible => exact ⟨legible, nofun⟩
  | session _ mounted ran inductionHypothesis =>
      exact ⟨legible_of_session inductionHypothesis.legible mounted ran,
        inductionHypothesis.agreeing⟩
  | compaction _ current ran inductionHypothesis =>
      exact (FiledSince.of_compaction inductionHypothesis current ran).1.toFiled

/-- In every history whose compaction runs start current, every session starts
with the stored index. A compaction run does so too, up to access times; it
deletes no chunk that this index or the one stored at the time names, and what
it stores as the index is the one it found. -/
theorem runs_start_from_stored_index {setup : Setup} {host : Host}
    (history : OnHost setup Host.Current host) :
    (∀ o d, mount setup o host.objects ∅ none = some d → LoadedFrom setup host.objects d.idx) ∧
      (host.Current → ∀ params files pool,
        Reachable (compactionSys setup) noteSeen (· = host.compacting setup params files)
          processAlone pool →
        Rewritten setup host.objects pool.shared.1 ∧
        ∀ t ∈ pool.threads, ∀ o s' a,
          CompactProcess.apply setup.cfg.codec mapStore pool.shared t.1.effect o = some (s', a) →
          (∀ idx order, a = .loaded (some (idx, order)) → LoadedFrom setup host.objects idx) ∧
          ∀ id object, pool.shared.1.get id = some object → s'.1.get id = none → id ≠ indexKey ∧
            ∀ data stored,
              host.objects.get indexKey = some data ∨ pool.shared.1.get indexKey = some data →
              decodeIndex setup.cfg.codec setup.blockSize data = some stored →
                ¬ stored.Names id) := by
  refine ⟨fun o d mounted => loadedFrom_of_mount mounted, ?_⟩
  intro current params files pool ran
  obtain ⟨filed, processes⟩ := FiledSince.of_compaction history.filed current ran
  refine ⟨filed.rewritten, ?_⟩
  rintro ⟨p, mark⟩ member o s' a applied
  have mine := processes (p, mark) member
  cases p with
  | recovering params blockSize files =>
      simp only [CompactProcess.effect, CompactProcess.apply] at applied
      split_ifs at applied <;> cases applied <;>
        exact ⟨fun idx order impossible => (by cases impossible),
          fun id object present gone => by cases gone.symm.trans present⟩
  | loading params blockSize cs =>
      obtain ⟨rfl, isStart, current⟩ := mine
      rcases CompactProcess.apply_loading applied with ⟨rfl, rfl⟩ | ⟨idx, lists, rfl, same, loaded⟩
      · exact ⟨fun idx order impossible => (by cases impossible),
          fun id object present gone => by cases gone.symm.trans present⟩
      · obtain ⟨-, isStored, -⟩ := current.load filed.toFiled loaded
        rw [same]
        refine ⟨?_, fun id object present gone => by cases gone.symm.trans present⟩
        rintro idx' order ⟨⟩
        exact isStored.congr isStart.symm
  | compacting run =>
      obtain ⟨idx, order, mine⟩ := mine
      obtain ⟨⟨left, answer⟩, ran, same⟩ := Option.map_eq_some_iff.mp applied
      cases same
      refine ⟨fun idx order impossible => (by cases impossible), fun id object present gone => ?_⟩
      obtain ⟨targets, packing, pending, stage⟩ := Run.removes_of_apply ran present gone
      refine ⟨(mine.unnamed stage rfl).1, fun data stored isIndex decodes => ?_⟩
      have extents : stored.extents = idx.extents := by
        have first : host.objects.get indexKey = some data → stored.extents = idx.extents :=
          fun object => mine.origin.extents object decodes
        rcases isIndex with atStart | now
        · exact first atStart
        · rcases filed.rewritten data now with atStart | ⟨again, dirOrder, lists, encoded, loaded⟩
          · exact first atStart
          · have same : again.extents = idx.extents := mine.origin.extents_eq loaded
            rw [(loaded.restorable history.filed.legible).of_decodes lists encoded decodes]
            exact same
      exact (mine.unnamed stage extents).2

/-! ### Two histories -/

/-- The host after a compaction run. -/
def Host.after (pool : Pool (Objects × Option Bytes) (CompactProcess × Unit)
    (Option Bytes × Option Bytes)) : Host := ⟨pool.shared.1, pool.shared.2, pool.record⟩

/-- A session in which the first of two files is deleted. -/
def deletingSession : List (Event Call Oracle) :=
  (Call.make .regular 1 [97] 0o644 0 0 1).alone 3 ++
    (Call.write 2 [1, 2, 3, 4, 5, 6, 7, 8] 0 2).alone 4 ++
    (Call.make .regular 1 [98] 0o644 0 0 3).alone 3 ++
    (Call.write 3 [1, 2, 3, 4, 5, 6, 7, 8] 0 4).alone 4 ++ (Call.unlink 1 [97] 5).alone 1 ++
    [.spawn .persist, .run 0 {}, .run 0 { order := secondEntry }, .run 0 {}, .run 0 {}, .run 0 {},
      .run 0 {}, .run 0 {}, .run 0 {}, .run 0 { order := secondEntry }, .run 0 {}, .run 0 {}]

/-- An index has been loaded. -/
def CompactProcess.Answer.hasLoaded : CompactProcess.Answer → Bool
  | .loaded found => found.isSome
  | .recovered _ | .compact _ => false

/-- The chunk of the deleted file is collected, and the next compaction run
starts from the snapshot that the first one has left. -/
theorem runs_start_from_stored_index_twice :
    ∃ setup host pool, OnHost setup Host.Current host ∧ host.snapshot ≠ none ∧
      host.objects.get (chunkID 0) = none ∧
      Reachable (compactionSys setup) noteSeen (· = host.compacting setup halfOrphaned ∅)
        processAlone pool ∧
      ∃ t ∈ pool.threads, ∃ o s' idx order,
        CompactProcess.apply setup.cfg.codec mapStore pool.shared t.1.effect o =
          some (s', .loaded (some (idx, order))) ∧ LoadedFrom setup host.objects idx := by
  let setup : Setup := ⟨deletedConfig, 8, 4096, eight_lt⟩
  have plays : ((mount setup {} ∅ ∅ none).bind fun d =>
      ((daemonSys setup.cfg).run noRecord requestsOnly ⟨d, [], ()⟩ deletingSession).bind fun used =>
        ((compactionSys setup).run noteSeen processAlone
          (Host.compacting ⟨used.shared.objects, none, none, none⟩ setup halfOrphaned ∅)
          (processSteps id [{ compact := { ids := [chunkID 0, chunkID 1] } },
            { load := { order := secondEntry }, extents := secondExtents },
            { compact := { ids := [chunkID 0, chunkID 1] } }, {}, {},
            { compact := { order := secondEntry } }, {}])).bind fun collected =>
          ((compactionSys setup).run noteSeen processAlone
            ((Host.after collected).compacting setup halfOrphaned ∅)
            (processSteps id [{ compact := { ids := [chunkID 1] } }])).bind fun loading =>
              (loading.threads.head?.bind fun t =>
                CompactProcess.apply setup.cfg.codec mapStore loading.shared t.1.effect
                  { extents := secondExtents }).map fun result =>
                (decide (Host.after collected).Current, (Host.after collected).snapshot.isSome,
                  collected.shared.1.get (chunkID 0),
                  result.2.hasLoaded)) =
      some (true, true, none, true) := by decide +kernel
  obtain ⟨d, mounted, rest⟩ := Option.bind_eq_some_iff.mp plays
  obtain ⟨used, sessionRan, rest⟩ := Option.bind_eq_some_iff.mp rest
  obtain ⟨collected, firstRan, rest⟩ := Option.bind_eq_some_iff.mp rest
  obtain ⟨loading, secondRan, rest⟩ := Option.bind_eq_some_iff.mp rest
  obtain ⟨⟨s', a⟩, stepped, shown⟩ := Option.map_eq_some_iff.mp rest
  obtain ⟨t, isFirst, applied⟩ := Option.bind_eq_some_iff.mp stepped
  obtain ⟨current, rest⟩ := Prod.mk.inj shown
  obtain ⟨present, rest⟩ := Prod.mk.inj rest
  obtain ⟨gone, isLoaded⟩ := Prod.mk.inj rest
  have history : OnHost setup Host.Current (Host.after collected) :=
    .compaction (.session (.first fun _ absent => by cases absent) mounted
      (.of_run (.start rfl) sessionRan)) (Or.inl rfl)
      (.of_run (.start rfl) firstRan)
  have second : Reachable (compactionSys setup) noteSeen
      (· = (Host.after collected).compacting setup halfOrphaned ∅) processAlone loading :=
    .of_run (.start rfl) secondRan
  have member : t ∈ loading.threads := List.mem_of_mem_head? (Option.mem_def.mpr isFirst)
  obtain ⟨-, compacts⟩ := runs_start_from_stored_index history
  obtain ⟨-, steps⟩ := compacts (of_decide_eq_true current) halfOrphaned ∅ loading second
  obtain ⟨loads, -⟩ := steps t member _ s' a applied
  have kept : (Host.after collected).snapshot ≠ none := Option.isSome_iff_ne_none.mp present
  cases a with
  | loaded found =>
      obtain ⟨⟨idx, order⟩, rfl⟩ := Option.isSome_iff_exists.mp isLoaded
      exact ⟨setup, Host.after collected, loading, history, kept, gone, second, t, member, _, s',
        idx, order, applied, loads idx order rfl⟩
  | recovered ids => exact absurd isLoaded Bool.false_ne_true
  | compact answer => exact absurd isLoaded Bool.false_ne_true

/-- Two files, each of one chunk. -/
noncomputable def twoFilesSetup : Setup :=
  ⟨⟨100, true, .unary [wireAfter oneEntry.order
      ((Call.make .regular 1 [97] 0o644 0 0 1).alone 3 ++
        (Call.write 2 [1, 2, 3, 4, 5, 6, 7, 8] 0 2).alone 4),
    wireAfter [⟨1, [97], 2⟩, ⟨1, [98], 3⟩]
      ((Call.make .regular 1 [97] 0o644 0 0 1).alone 3 ++
        (Call.write 2 [1, 2, 3, 4, 5, 6, 7, 8] 0 2).alone 4 ++
        (Call.make .regular 1 [98] 0o644 0 0 3).alone 3 ++
        (Call.write 3 [1, 2, 3, 4, 5, 6, 7, 8] 0 4).alone 4)]⟩, 8, 4096, eight_lt⟩

/-- A call, and a persist run after it. -/
def savedSession (calls : List (Event Call Oracle)) (order : List DirEntry) :
    List (Event Call Oracle) :=
  calls ++ [.spawn .persist, .run 0 {}, .run 0 { order := order }, .run 0 {}, .run 0 {}, .run 0 {},
    .run 0 {}, .run 0 {}, .run 0 {}, .run 0 { order := order }, .run 0 {}, .run 0 {}]

/-- The first file is written in one session and the second one in another, with
a compaction run in between that leaves a snapshot. The next compaction run
starts from the snapshot, writes it over the stored index and deletes the chunk
of the second file. -/
theorem stale_snapshot_deletes_chunk :
    ∃ setup host, OnHost setup (fun _ => True) host ∧
      (∃ data stored, host.objects.get indexKey = some data ∧
        decodeIndex setup.cfg.codec setup.blockSize data = some stored ∧
        stored.entry 1 [98] = some 3 ∧ stored.Names (chunkID 1)) ∧
      (host.objects.get (chunkID 1)).isSome = true ∧
      ∃ pool, Reachable (compactionSys setup) noteSeen (· = host.compacting setup halfOrphaned ∅)
          processAlone pool ∧
        pool.shared.1.get (chunkID 1) = none ∧
        ∃ data older, pool.shared.1.get indexKey = some data ∧
          decodeIndex setup.cfg.codec setup.blockSize data = some older ∧
          older.entry 1 [98] = none := by
  have plays : ((mount twoFilesSetup {} ∅ ∅ none).bind fun d =>
      ((daemonSys twoFilesSetup.cfg).run noRecord requestsOnly ⟨d, [], ()⟩
        (savedSession ((Call.make .regular 1 [97] 0o644 0 0 1).alone 3 ++
          (Call.write 2 [1, 2, 3, 4, 5, 6, 7, 8] 0 2).alone 4) oneEntry.order)).bind fun first =>
        ((compactionSys twoFilesSetup).run noteSeen processAlone
          (Host.compacting ⟨first.shared.objects, none, none, none⟩ twoFilesSetup halfOrphaned ∅)
          (processSteps id [{ compact := { ids := [chunkID 0] } },
            { load := { order := oneEntry.order }, extents := [(2, [⟨chunkID 0, 0, 8, 0⟩])] },
            { compact := { ids := [chunkID 0] } }, {}])).bind fun idle =>
          (mount twoFilesSetup { ids := [chunkID 0] } idle.shared.1 ∅ none).bind fun d' =>
            ((daemonSys twoFilesSetup.cfg).run noRecord requestsOnly ⟨d', [], ()⟩
              (savedSession ((Call.make .regular 1 [98] 0o644 0 0 3).alone 3 ++
                (Call.write 3 [1, 2, 3, 4, 5, 6, 7, 8] 0 4).alone 4)
                [⟨1, [97], 2⟩, ⟨1, [98], 3⟩])).bind fun second =>
              ((compactionSys twoFilesSetup).run noteSeen processAlone
                (Host.compacting ⟨second.shared.objects, idle.shared.2, idle.record⟩ twoFilesSetup
                  halfOrphaned ∅)
                (processSteps id [{ compact := { ids := [chunkID 0, chunkID 1] } },
                  { extents := [(2, [⟨chunkID 0, 0, 8, 0⟩])] },
                  { compact := { ids := [chunkID 0, chunkID 1] } }, {}, {},
                  { compact := { order := oneEntry.order } }, {}])).bind fun last =>
                (second.shared.objects.get indexKey).bind fun data =>
                  (decodeIndex twoFilesSetup.cfg.codec 4096 data).bind fun stored =>
                    (last.shared.1.get indexKey).bind fun data' =>
                      (decodeIndex twoFilesSetup.cfg.codec 4096 data').map fun older =>
                        ((stored.entry 1 [98], decide (stored.Names (chunkID 1)),
                          (second.shared.objects.get (chunkID 1)).isSome),
                          last.shared.1.get (chunkID 1), older.entry 1 [98])) =
      some ((some 3, true, true), none, none) := by decide +kernel
  obtain ⟨d, mounted, rest⟩ := Option.bind_eq_some_iff.mp plays
  obtain ⟨first, firstRan, rest⟩ := Option.bind_eq_some_iff.mp rest
  obtain ⟨idle, idleRan, rest⟩ := Option.bind_eq_some_iff.mp rest
  obtain ⟨d', remounted, rest⟩ := Option.bind_eq_some_iff.mp rest
  obtain ⟨second, secondRan, rest⟩ := Option.bind_eq_some_iff.mp rest
  obtain ⟨last, lastRan, rest⟩ := Option.bind_eq_some_iff.mp rest
  obtain ⟨data, object, rest⟩ := Option.bind_eq_some_iff.mp rest
  obtain ⟨stored, decodes, rest⟩ := Option.bind_eq_some_iff.mp rest
  obtain ⟨data', object', rest⟩ := Option.bind_eq_some_iff.mp rest
  obtain ⟨older, decodes', shown⟩ := Option.map_eq_some_iff.mp rest
  obtain ⟨before, after⟩ := Prod.mk.inj shown
  obtain ⟨entry, names⟩ := Prod.mk.inj before
  obtain ⟨named, present⟩ := Prod.mk.inj names
  obtain ⟨gone, missing⟩ := Prod.mk.inj after
  have one : OnHost twoFilesSetup (fun _ => True) ⟨first.shared.objects, none, none, none⟩ :=
    .session (.first fun _ absent => by cases absent) mounted (.of_run (.start rfl) firstRan)
  have two : OnHost twoFilesSetup (fun _ => True) (Host.after idle) :=
    .compaction one trivial (.of_run (.start rfl) idleRan)
  have three : OnHost twoFilesSetup (fun _ => True)
      ⟨second.shared.objects, idle.shared.2, idle.record⟩ :=
    .session two remounted (.of_run (.start rfl) secondRan)
  have names : stored.Names (chunkID 1) := of_decide_eq_true named
  exact ⟨twoFilesSetup, _, three, ⟨data, stored, object, decodes, entry, names⟩, present, last,
    .of_run (.start rfl) lastRan, gone, data', older, object', decodes', missing⟩

end Fusey
