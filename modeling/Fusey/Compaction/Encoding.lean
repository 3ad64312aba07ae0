import Fusey.Compaction.Compactor
import Fusey.Fuse.Runs

/-!
Contract: whether the index that `Compact` leaves can be persisted.

Owns:
- which chunks a run selects, as the store and the index at its start decide;
- the condition on these under which `Save` and `Marshal` succeed on the remapped
  index and what they write restores its extents: the wire form has no room for a
  `compacted-*` identifier, so nothing may have been moved.
-/

set_option autoImplicit false

namespace Fusey

open GoInt Interleaving

namespace Compaction

/-! ### What the remap does to an index -/

/-- A table without entries leaves the snapshot alone. -/
theorem snapshot_remapExtents {idx : Index} {remap : GoMap (Key × Int) Extent}
    (empty : ∀ key, remap.get key = none) (order : List DirEntry) :
    (idx.remapExtents remap).snapshot order = idx.snapshot order := by
  have same : (idx.remapExtents remap).extents = idx.extents := by
    apply GoMap.ext
    intro ino
    simp only [Index.remapExtents, Index.touched, GoMap.get_map, empty, Option.getD_none,
      List.map_id', Option.map_id']
  simp only [Index.snapshot, same]
  rfl

/-- When no live extent lies in a target, nothing is moved. -/
theorem Packed.remap_empty {Reads : Extent → Bytes → Prop} {params : Params} {live : List Extent}
    {targets : List Key} {packing : Packing}
    (packed : Packed Reads params (moved live targets) packing)
    (untouched : ∀ e ∈ live, e.chunkID ∉ targets) (key : Key × Int) :
    packing.remap.get key = none := by
  cases found : packing.remap.get key with
  | none => rfl
  | some e' =>
      obtain ⟨e, member, -, -⟩ := packed.origin key e' found
      obtain ⟨isLive, inTargets⟩ := mem_moved.mp member
      exact absurd inTargets (untouched e isLive)

/-- The table sends extents to compacted chunks only. -/
theorem Packed.compacted {Reads : Extent → Bytes → Prop} {params : Params} {done : List Extent}
    {packing : Packing} (packed : Packed Reads params done packing) {key : Key × Int} {e' : Extent}
    (found : packing.remap.get key = some e') :
    ∃ k, e'.chunkID = compactedID (params.clock k) k := by
  obtain ⟨e, -, -, placed⟩ := packed.origin key e' found
  obtain ⟨output, member, id, -⟩ := placed.place
  obtain ⟨k, numbered⟩ := packed.output_id member
  exact ⟨k, id.symm.trans numbered⟩

/-! ### The wire form -/

theorem parseChunkSeq_compactedID (nano seq : Nat) :
    parseChunkSeq (compactedID nano seq) = none := by
  have other : ¬ "chunk-".toList <+: compactedID nano seq := by
    intro start
    have second : 'h' = 'o' := by
      obtain ⟨rest, same⟩ := start
      have chars := congrArg (fun id : List Char => id[1]?) same
      exact Option.some.inj chars
    exact absurd second (by decide)
  unfold parseChunkSeq
  rw [if_neg other]

theorem parses_of_encodeSnapshot {codec : CborCodec} {snap : Snapshot} {data : Bytes}
    (encoded : encodeSnapshot codec snap = some data) {ino : Ino} {exts : List Extent}
    (stored : snap.extentMap.get ino = some exts) {e : Extent} (member : e ∈ exts) :
    (parseChunkSeq e.chunkID).isSome := by
  obtain ⟨ws, converted, -⟩ := Option.map_eq_some_iff.mp encoded
  unfold toWireSnapshot at converted
  split_ifs at converted with all
  have parsed := all ino (GoMap.mem_keys.mpr ⟨exts, stored⟩) e (by rw [stored]; exact member)
  simpa [toWireExtent] using parsed

/-! ### Persisting the remapped index -/

/-- `Save` and `Marshal` succeed on the index, and what they write decodes to an
index with the same extent lists. -/
def PersistsExtents (codec : CborCodec) (idx : Index) (order : List DirEntry) : Prop :=
  ∃ data restored, encodeSnapshot codec (idx.snapshot order) = some data ∧
    decodeIndex codec idx.blockSize data = some restored ∧
    ∀ ino, restored.extents.get ino = idx.extents.get ino

/-- The index that a daemon's run reaches, as `Compact` finds it. -/
def ReachedIndex (cfg : Config) (idx : Index) : Prop :=
  ∃ pool : Pool Daemon Call Unit, Reachable (daemonSys cfg) (fun _ _ _ => ())
    (fun pool => pool.shared.Sound ∧ pool.threads = []) requestsOnly pool ∧ pool.shared.idx = idx

theorem ReachedIndex.restorable {cfg : Config} {idx : Index} (reached : ReachedIndex cfg idx) :
    idx.Restorable := by
  obtain ⟨pool, reachable, rfl⟩ := reached
  refine (Daemon.Sound.of_reachable ?_ ?_ reachable).1.restorable
  · rintro pool ⟨sound, idle⟩
    exact ⟨sound, fun c member => by rw [idle] at member; cases member⟩
  · exact fun pool c request => Call.IsRequest.sound request

variable {σ δ : Type} {store : Store σ} {persist : Index → Oracle → σ × δ → (σ × δ) × Bool}

/-! ### What a run selects -/

/-- `Compact` takes the chunk for a target: it is sealed, and its size and its live
bytes reach the threshold. -/
def IsTarget (store : Store σ) (params : Params) (cs : ChunkStore) (s : σ) (live : List Extent)
    (id : Key) : Prop :=
  id ∈ cs.listSealed store s ∧ selects params live id (cs.sealedSize store s id) = true

instance (store : Store σ) (params : Params) (cs : ChunkStore) (s : σ) (live : List Extent)
    (id : Key) : Decidable (IsTarget store params cs s live id) := by
  unfold IsTarget
  infer_instance

/-- The store answers a listing and every request for a size. -/
def Answering (o : Oracle) : Prop := o.answers = true

instance : DecidablePred Answering := fun o => by
  unfold Answering
  infer_instance

/-- A run that still selects has changed nothing. -/
def Run.Unchanged (cs : ChunkStore) (s : σ × δ) (run : Run) (s' : σ × δ) : Prop :=
  match run.stage with
  | .listing | .sizing .. => s' = s ∧ run.cs = cs
  | _ => True

/-- A run on its way to its targets. -/
structure Run.Selecting (store : Store σ) (params : Params) (cs : ChunkStore) (live : List Extent)
    (s : σ × δ) (run : Run) (s' : σ × δ) : Prop where
  isParams : run.params = params
  isLive : run.live = live
  unchanged : run.Unchanged cs s s'
  chosen : run.Chosen true (fun ids => ids.toFinset = cs.listSealed store s.1) fun id =>
    selects params live id (cs.sealedSize store s.1 id)

theorem Run.Unchanged.step {cs : ChunkStore} {s s₁ s₂ : σ × δ} {run run' : Run} {o : Oracle}
    {a : Answer} (unchanged : run.Unchanged cs s s₁)
    (applied : apply store persist s₁ run.effect o = some (s₂, a))
    (continues : run.resume a = .inl run') : run'.Unchanged cs s s₂ := by
  have toPut : ∀ (run : Run) targets packing pending,
      (run.toPut targets packing pending).Unchanged cs s s₂ := by
    intro run targets packing pending
    cases pending <;> trivial
  have toRead : ∀ (run : Run) targets packing pending,
      (run.toRead targets packing pending).Unchanged cs s s₂ := by
    intro run targets packing pending
    cases pending with
    | cons e pending => trivial
    | nil => exact toPut run targets packing packing.outputs
  cases Run.next_of_resume continues with
  | sizeFirst stage =>
      simp only [Run.Unchanged, stage] at unchanged
      rw [Run.same_of_apply applied (by simp [stage])]
      exact unchanged
  | sizeNext stage =>
      simp only [Run.Unchanged, stage] at unchanged
      rw [Run.same_of_apply applied (by simp [stage])]
      exact unchanged
  | pack => exact toRead _ _ _ _
  | read => exact toRead _ _ _ _
  | put => exact toPut _ _ _ _
  | persist => trivial
  | delete => trivial

theorem Run.Selecting.step {params : Params} {cs : ChunkStore} {live : List Extent}
    {s s₁ s₂ : σ × δ} {run run' : Run} {o : Oracle} {a : Answer}
    (selecting : run.Selecting store params cs live s s₁) (answering : Answering o)
    (applied : apply store persist s₁ run.effect o = some (s₂, a))
    (continues : run.resume a = .inl run') : run'.Selecting store params cs live s s₂ := by
  obtain ⟨isParams, isLive, unchanged, chosen⟩ := selecting
  refine ⟨(Run.params_of_resume continues).trans isParams,
    (Run.live_of_resume continues).trans isLive, unchanged.step applied continues,
    chosen.resume ?_ ?_ continues⟩
  · rintro stage ids rfl
    simp only [Run.Unchanged, stage] at unchanged
    obtain ⟨rfl, isStore⟩ := unchanged
    simp only [Run.effect, stage, apply, isStore] at applied
    split_ifs at applied with silent listed <;> cases applied
    exact listed
  · rintro targets id pending stage ids - - size rfl
    simp only [Run.Unchanged, stage] at unchanged
    obtain ⟨rfl, isStore⟩ := unchanged
    simp only [Run.effect, stage, apply, isStore] at applied
    obtain ⟨-, answer⟩ := Prod.mk.inj (Option.some.inj applied)
    rw [← Answer.sized.inj answer, if_pos (show o.answers = true from answering), isParams, isLive]
    exact ⟨fun selected => selected, fun _ isChosen => isChosen⟩

/-- The targets of a run that is about to persist are the chunks that the start
selects. -/
theorem mem_targets_iff {params : Params} {idx : Index} {cs : ChunkStore}
    {order : List (Ino × List Extent)} {s s' : σ × δ} {run : Run} {targets : List Key}
    {packing : Packing}
    (progress : Progress ((compactSys store persist).under Answering) s
      (Run.begin params idx cs order) s' (.inl run))
    (stage : run.stage = .persisting targets packing) (id : Key) :
    id ∈ targets ↔ IsTarget store params cs s.1 (Index.liveExtents order) id := by
  have selecting : ∀ run', Sum.inl run = Sum.inl (β := Reply) run' →
      run'.Selecting store params cs (Index.liveExtents order) s s' := by
    refine Progress.under_invariant (fun s' point => ∀ run', point = Sum.inl run' →
      run'.Selecting store params cs (Index.liveExtents order) s s') ?_ ?_ progress
    · rintro run' ⟨⟩
      exact ⟨rfl, rfl, ⟨rfl, rfl⟩, trivial⟩
    · intro s₁ run o s₂ a _ selecting answering applied run' continues
      exact (selecting run rfl).step answering applied continues
  have chosen := (selecting run rfl).chosen
  simp only [Run.Chosen, stage] at chosen
  exact ⟨fun member => chosen.mem (fun _ lists => lists) id member,
    fun isTarget => chosen.complete (fun _ lists => lists) id isTarget.1 isTarget.2⟩

/-! ### The index at the persist call -/

/-- What a run that is about to persist has done to its index. -/
theorem remapped_of_progress {params : Params} {idx : Index} {cs : ChunkStore}
    {order : List (Ino × List Extent)} {s s' : σ × δ} {run : Run} {targets : List Key}
    {packing : Packing}
    (progress : Progress (compactSys store persist) s (Run.begin params idx cs order) s' (.inl run))
    (stage : run.stage = .persisting targets packing) :
    run.idx = idx.remapExtents packing.remap ∧
      Packed (fun _ _ => True) run.params (moved (Index.liveExtents order) targets) packing := by
  have tracked : ∀ run', Sum.inl run = Sum.inl (β := Reply) run' →
      run'.Tracked (fun _ => True) (fun _ _ => True) idx (Index.liveExtents order) := by
    refine Progress.invariant (fun _ point => ∀ run', point = Sum.inl run' →
      run'.Tracked (fun _ => True) (fun _ _ => True) idx (Index.liveExtents order)) ?_ ?_ progress
    · rintro run' ⟨⟩
      exact ⟨rfl, rfl⟩
    · intro s run o s' a tracked _ run' continues
      exact (tracked run rfl).resume (fun _ _ _ _ _ => trivial)
        (fun _ _ _ _ _ _ _ _ => trivial) continues
  obtain ⟨-, holds⟩ := tracked run rfl
  rw [stage] at holds
  exact ⟨holds.1, holds.2.2⟩

/-- The remapped index of a run that moved something has an extent that does not
parse. -/
theorem untouched_of_encodeSnapshot {codec : CborCodec} {params : Params} {idx : Index}
    {order : List (Ino × List Extent)} (lists : ListsExtents idx order) {targets : List Key}
    {packing : Packing} {Reads : Extent → Bytes → Prop}
    (packed : Packed Reads params (moved (Index.liveExtents order) targets) packing)
    {dirOrder : List DirEntry} {data : Bytes}
    (encoded : encodeSnapshot codec ((idx.remapExtents packing.remap).snapshot dirOrder) =
      some data) :
    ∀ e ∈ Index.liveExtents order, e.chunkID ∉ targets := by
  intro e isLive inTargets
  obtain ⟨ino, exts, stored, member⟩ := (mem_liveExtents lists).mp isLive
  obtain ⟨e', found⟩ := packed.covers e (mem_moved.mpr ⟨isLive, inTargets⟩)
  obtain ⟨k, id⟩ := packed.compacted found
  have parsed := parses_of_encodeSnapshot encoded (get_remapExtents packing.remap stored)
    (List.mem_map.mpr ⟨e, member, by rw [found, Option.getD_some]⟩)
  rw [id, parseChunkSeq_compactedID] at parsed
  cases parsed

/-- The index that a compaction run hands to the persist function can be
persisted and restored exactly when no live extent lies in a chunk that the size
in the store and the live bytes make a target, every chunk number fits the wire
form, and the decoder's limits admit the snapshot. -/
theorem compacted_index_persists_iff {cfg : Config} {idx : Index} (reached : ReachedIndex cfg idx)
    {params : Params} {cs : ChunkStore} {order : List (Ino × List Extent)}
    (lists : ListsExtents idx order) {s s' : σ × δ} {run : Run}
    (progress : Progress ((compactSys store persist).under Answering) s
      (Run.begin params idx cs order) s' (.inl run))
    (persists : run.stage.IsPersisting) (dirOrder : List DirEntry) :
    PersistsExtents cfg.codec run.idx dirOrder ↔
      (∀ e ∈ Index.liveExtents order,
        ¬ IsTarget store params cs s.1 (Index.liveExtents order) e.chunkID) ∧
        (∀ e ∈ Index.liveExtents order, ∃ seq < 4294967296, e.chunkID = chunkID seq) ∧
        (idx.snapshot dirOrder).Decodable := by
  obtain ⟨targets, packing, stage⟩ := persists.eq_persisting
  simp only [← mem_targets_iff progress stage]
  obtain ⟨remapped, packed⟩ := remapped_of_progress progress.of_under stage
  have minted : ∀ ino exts, idx.extents.get ino = some exts → Minted exts :=
    fun ino exts stored => reached.restorable.minted.minted stored
  rw [remapped]
  constructor
  · rintro ⟨data, restored, encoded, decoded, -⟩
    have untouched := untouched_of_encodeSnapshot lists packed encoded
    rw [snapshot_remapExtents (packed.remap_empty untouched)] at encoded
    refine ⟨untouched, ?_, ?_⟩
    · intro e isLive
      obtain ⟨ino, exts, stored, member⟩ := (mem_liveExtents lists).mp isLive
      obtain ⟨seq, id⟩ := minted ino exts stored e member
      have parsed := parses_of_encodeSnapshot encoded stored member
      rw [id, parseChunkSeq_chunkID] at parsed
      refine ⟨seq, ?_, id⟩
      by_contra large
      rw [if_neg large] at parsed
      cases parsed
    · intro ws converted
      obtain ⟨ws', converted', rfl⟩ := Option.map_eq_some_iff.mp encoded
      cases converted.symm.trans converted'
      unfold decodeIndex at decoded
      rw [cfg.codec.unmarshal_marshal] at decoded
      by_contra refused
      rw [if_neg refused] at decoded
      cases decoded
  · rintro ⟨untouched, small, decodable⟩
    have same : (idx.remapExtents packing.remap).snapshot dirOrder = idx.snapshot dirOrder :=
      snapshot_remapExtents (packed.remap_empty untouched) dirOrder
    have parses : ∀ ino exts, (idx.snapshot dirOrder).extentMap.get ino = some exts → ∀ e ∈ exts,
        ∃ seq < 4294967296, e.chunkID = chunkID seq := fun ino exts stored e member =>
      small e ((mem_liveExtents lists).mpr ⟨ino, exts, stored, member⟩)
    obtain ⟨ws, converted, encoded⟩ := encodeSnapshot_isSome cfg.codec parses
    refine ⟨cfg.codec.marshal ws, Index.fromSnapshot (fromWireSnapshot ws) idx.blockSize,
      same.symm ▸ encoded, ?_, fun ino => ?_⟩
    · unfold decodeIndex
      rw [cfg.codec.unmarshal_marshal, if_pos (decodable ws converted), Option.map_some]
      rfl
    · rw [fromWireSnapshot_of_toWireSnapshot minted converted, ← same]
      rfl

/-! ### Two runs -/

/-- The daemon after a run of requests on an empty filesystem. -/
noncomputable def daemonAfter (events : List (Event Call Fusey.Oracle)) : Daemon :=
  (((daemonSys sampleConfig).run (fun _ _ _ => ()) requestsOnly
    ⟨freshDaemon 8 4096 0 false, [], ()⟩ events).map Pool.shared).getD (freshDaemon 8 4096 0 false)

theorem daemonAfter_reached (events : List (Event Call Fusey.Oracle)) :
    ReachedIndex sampleConfig (daemonAfter events).idx := by
  have start : Reachable (daemonSys sampleConfig) (fun _ _ _ => ())
      (fun pool => pool.shared.Sound ∧ pool.threads = []) requestsOnly
      ⟨freshDaemon 8 4096 0 false, [], ()⟩ :=
    .start ⟨freshDaemon_sound (by decide) 4096 0 false, rfl⟩
  unfold daemonAfter
  cases finished : (daemonSys sampleConfig).run (fun _ _ _ => ()) requestsOnly
      ⟨freshDaemon 8 4096 0 false, [], ()⟩ events with
  | none => exact ⟨_, start, rfl⟩
  | some pool => exact ⟨pool, .of_run start finished, rfl⟩

/-- A run up to its call of the persist function: the targets and the remapped
index. -/
def persistPoint (objects : Objects) (idx : Index) (order : List (Ino × List Extent))
    (oracles : List Oracle) : Option (List Key × Index) :=
  match ((compactSys mapStore fun _ _ s => (s, true)).under Answering).advance (objects, ())
      (Run.begin halfOrphaned idx ((ChunkStore.new 8).recoverNextSeq [chunkID 0]) order)
      oracles with
  | some (_, .inl run) =>
      match run.stage with
      | .persisting targets _ => some (targets, run.idx)
      | _ => none
  | _ => none

theorem persistPoint_progress {objects : Objects} {idx idx' : Index}
    {order : List (Ino × List Extent)} {oracles : List Oracle} {targets : List Key}
    (found : persistPoint objects idx order oracles = some (targets, idx')) :
    ∃ s run packing, Progress ((compactSys mapStore fun _ _ s => (s, true)).under Answering)
      (objects, ())
      (Run.begin halfOrphaned idx ((ChunkStore.new 8).recoverNextSeq [chunkID 0]) order) s
      (.inl run) ∧ run.stage = .persisting targets packing ∧ run.idx = idx' := by
  unfold persistPoint at found
  split at found
  next s run advanced =>
    split at found
    next packing stage =>
      cases found
      exact ⟨s, run, packing, .of_advance .start advanced, stage, rfl⟩
    next => cases found
  next => cases found

/-- A file of eight bytes is written and deleted. -/
def deletedFile : List (Event Call Fusey.Oracle) :=
  (Call.make .regular 1 [97] 0o644 0 0 1).alone 3 ++
    (Call.write 2 [1, 2, 3, 4, 5, 6, 7, 8] 0 2).alone 4 ++ (Call.unlink 1 [97] 3).alone 1 ++
    Call.fsync.alone 1

/-- Nothing is live, so the chunk is a target and the index persists. -/
theorem compacted_index_persists_deletedFile :
    IsTarget mapStore halfOrphaned ((ChunkStore.new 8).recoverNextSeq [chunkID 0])
        (daemonAfter deletedFile).objects [] (chunkID 0) ∧
      ∃ s run, Progress ((compactSys mapStore fun _ _ s => (s, true)).under Answering)
          ((daemonAfter deletedFile).objects, ())
          (Run.begin halfOrphaned (daemonAfter deletedFile).idx
            ((ChunkStore.new 8).recoverNextSeq [chunkID 0]) []) s (.inl run) ∧
        run.stage.IsPersisting ∧ PersistsExtents sampleConfig.codec run.idx [] := by
  refine ⟨by decide +kernel, ?_⟩
  have reaches : (persistPoint (daemonAfter deletedFile).objects (daemonAfter deletedFile).idx []
      [{ ids := [chunkID 0] }, {}]).map Prod.fst = some [chunkID 0] := by decide +kernel
  obtain ⟨⟨targets, idx'⟩, found, rfl⟩ := Option.map_eq_some_iff.mp reaches
  obtain ⟨s, run, packing, progress, stage, -⟩ := persistPoint_progress found
  have persists : run.stage.IsPersisting := by
    rw [stage]
    trivial
  refine ⟨s, run, progress, persists, ?_⟩
  exact (compacted_index_persists_iff (daemonAfter_reached deletedFile) (by decide +kernel)
    progress persists []).mpr ⟨fun e isLive => (by cases isLive),
      fun e isLive => (by cases isLive), by decide +kernel⟩

/-- A file of eight bytes is written and cut to two. -/
def trimmedFile : List (Event Call Fusey.Oracle) :=
  (Call.make .regular 1 [97] 0o644 0 0 1).alone 3 ++
    (Call.write 2 [1, 2, 3, 4, 5, 6, 7, 8] 0 2).alone 4 ++
    (Call.setattr 2 { valid := 8, size := 2 } 3).alone 2 ++ Call.fsync.alone 1

/-- The extent map of that filesystem. -/
def trimmedExtents : List (Ino × List Extent) := [(2, [⟨chunkID 0, 0, 2, 0⟩])]

/-- Three quarters of its chunk are orphaned, so the two bytes are moved, and
neither `Save` nor `Marshal` accepts the index that names the new chunk. -/
theorem compacted_index_not_persisted :
    ReachedIndex sampleConfig (daemonAfter trimmedFile).idx ∧
      ListsExtents (daemonAfter trimmedFile).idx trimmedExtents ∧
      ∃ s run packing, Progress (compactSys mapStore fun _ _ s => (s, true))
          ((daemonAfter trimmedFile).objects, ())
          (Run.begin halfOrphaned (daemonAfter trimmedFile).idx
            ((ChunkStore.new 8).recoverNextSeq [chunkID 0]) trimmedExtents) s (.inl run) ∧
        run.stage = .persisting [chunkID 0] packing ∧
        ∀ order, encodeSnapshot sampleConfig.codec (run.idx.snapshot order) = none := by
  refine ⟨daemonAfter_reached trimmedFile, by decide +kernel, ?_⟩
  have reaches : (persistPoint (daemonAfter trimmedFile).objects (daemonAfter trimmedFile).idx
      trimmedExtents [{ ids := [chunkID 0] }, {}, {}, {}]).map
        (fun point => (point.1, point.2.extents.get 2)) =
      some ([chunkID 0], some [⟨compactedID 0 0, 0, 2, 0⟩]) := by decide +kernel
  obtain ⟨⟨targets, idx'⟩, found, same⟩ := Option.map_eq_some_iff.mp reaches
  obtain ⟨s, run, packing, progress, stage, isIdx⟩ := persistPoint_progress found
  obtain ⟨rfl, stored⟩ := Prod.mk.inj same
  refine ⟨s, run, packing, progress.of_under, stage, fun order => ?_⟩
  cases encoded : encodeSnapshot sampleConfig.codec (run.idx.snapshot order) with
  | none => rfl
  | some data =>
      have parsed := parses_of_encodeSnapshot encoded (isIdx ▸ stored) (List.mem_singleton_self _)
      rw [parseChunkSeq_compactedID] at parsed
      cases parsed

end Compaction

end Fusey
