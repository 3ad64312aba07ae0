import Fusey.Compaction.Stages
import Fusey.Compaction.Tiling

/-!
Contract: what one cycle of `Compact` does to the chunks and to the live extents
in them (`internal/compaction/compactor.go`), wherever it stops.

Owns:
- which chunks a cycle selects and what the store holds at each of its stages,
  whatever store operation fails;
- where a remapped index has its live extents: as before in a chunk that is not
  a target, none in a target, one behind the other in an output.

Does not own the bytes; that contents stay is `Compaction.Preservation`.
-/

set_option autoImplicit false

namespace Fusey

open GoInt Interleaving

/-- The position that the remap table is keyed by. -/
def Extent.position (e : Extent) : Key × Int := (e.chunkID, e.chunkOffset)

namespace Compaction

/-! ### Chunks and live extents -/

theorem mem_liveIn {live : List Extent} {id : Key} {e : Extent} :
    e ∈ liveIn live id ↔ e ∈ live ∧ e.chunkID = id := by
  rw [liveIn, List.mem_filter, decide_eq_true_eq]

/-- The live bytes are the sum of the lengths, wrapped. -/
theorem liveBytes_eq (live : List Extent) (id : Key) :
    liveBytes live id = wrap64 ((liveIn live id).map Extent.length).sum := by
  have sums : ∀ (exts : List Extent) (total : Int),
      exts.foldl (fun total e => wrap64 (total + e.length)) (wrap64 total) =
        wrap64 (total + (exts.map Extent.length).sum) := by
    intro exts
    induction exts with
    | nil => simp
    | cons e rest inductionHypothesis =>
        intro total
        rw [List.foldl_cons, wrap64_wrap64_add, inductionHypothesis, List.map_cons, List.sum_cons,
          add_assoc]
  have all := sums (liveIn live id) 0
  rw [zero_add] at all
  exact all

theorem liveBytes_perm {live live' : List Extent} {id : Key}
    (same : (liveIn live' id).Perm (liveIn live id)) : liveBytes live' id = liveBytes live id := by
  rw [liveBytes_eq, liveBytes_eq, (same.map Extent.length).sum_eq]

theorem nodup_moved {live : List Extent} {targets : List Key} (extents : live.Nodup)
    (chunks : targets.Nodup) : (moved live targets).Nodup := by
  refine List.nodup_flatMap.mpr ⟨fun id _ => extents.filter _, chunks.imp ?_⟩
  intro id other different e inID inOther
  exact different ((mem_liveIn.mp inID).2.symm.trans (mem_liveIn.mp inOther).2)

/-- The bytes of a chunk: in the active buffer or in the store. -/
def chunkBytes (cs : ChunkStore) (objects : Objects) (id : Key) : Option Bytes :=
  if id = cs.activeID then some cs.activeBuf else objects.get id

/-- The extent lies inside its chunk. -/
def InChunk (cs : ChunkStore) (objects : Objects) (e : Extent) : Prop :=
  0 ≤ e.chunkOffset ∧
    ∃ bytes ∈ chunkBytes cs objects e.chunkID, e.chunkOffset + e.length ≤ bytes.length

instance (cs : ChunkStore) (objects : Objects) (e : Extent) : Decidable (InChunk cs objects e) := by
  unfold InChunk
  infer_instance

/-- Lengths are `int64`s, as `len` and `Size` return them. -/
def Measured (objects : Objects) : Prop :=
  ∀ id object, objects.get id = some object → (object.length : Int) < 9223372036854775808

/-- What a cycle may count on: every live extent has bytes and lies inside its
chunk, no two have one position, and the names of the output chunks are free. -/
structure Packable (params : Params) (cs : ChunkStore) (objects : Objects) (live : List Extent) :
    Prop where
  positive : ∀ e ∈ live, 0 < e.length
  inside : ∀ e ∈ live, InChunk cs objects e
  distinct : (live.map Extent.position).Nodup
  fresh : ∀ k, objects.get (compactedID (params.clock k) k) = none
  active : ∃ seq, cs.activeID = chunkID seq
  measured : Measured objects
  buffered : (cs.activeBuf.length : Int) < 9223372036854775808

theorem mem_listSealed {cs : ChunkStore} {objects : Objects} {id : Key} :
    id ∈ cs.listSealed mapStore objects ↔
      id ≠ cs.activeID ∧ id ≠ indexKey ∧ ∃ object, objects.get id = some object := by
  rw [ChunkStore.listSealed, Finset.mem_erase, mem_mapStore_list]

section Packable

variable {params : Params} {cs : ChunkStore} {objects : Objects} {live : List Extent}

theorem Packable.movable (ready : Packable params cs objects live) (e : Extent)
    (isLive : e ∈ live) : Movable e := by
  obtain ⟨low, bytes, found, within⟩ := ready.inside e isLive
  refine ⟨ready.positive e isLive, low, lt_of_le_of_lt within ?_⟩
  rw [chunkBytes, Option.mem_def] at found
  split_ifs at found
  · rw [← Option.some.inj found]
    exact ready.buffered
  · exact ready.measured _ _ found

theorem Packable.eq_of_position (ready : Packable params cs objects live) {e other : Extent}
    (isLive : e ∈ live) (isLive' : other ∈ live) (same : e.position = other.position) : e = other :=
  List.inj_on_of_nodup_map ready.distinct isLive isLive' same

theorem Packable.nodup (ready : Packable params cs objects live) : live.Nodup :=
  .of_map _ ready.distinct

/-- No live extent is in a chunk that has yet to be named. -/
theorem Packable.ne_compacted (ready : Packable params cs objects live) {e : Extent}
    (isLive : e ∈ live) (k : Nat) : e.chunkID ≠ compactedID (params.clock k) k := by
  intro same
  obtain ⟨-, bytes, found, -⟩ := ready.inside e isLive
  obtain ⟨seq, active⟩ := ready.active
  rw [chunkBytes, same, active, if_neg (compactedID_ne_chunkID _ _ _), ready.fresh k] at found
  cases found

end Packable

/-! ### Selection -/

/-- A listing names each chunk once and, in a reliable run, the store answers. -/
def Answers (reliable : Bool) (o : Oracle) : Prop :=
  o.ids.Nodup ∧ (reliable = true → o.answers = true)

instance (reliable : Bool) : DecidablePred (Answers reliable) := fun o => by
  unfold Answers
  infer_instance

/-- A listing that names each of the chunks `sealed` once. -/
def ListsOnce (sealed : Finset Key) (ids : List Key) : Prop := ids.Nodup ∧ ids.toFinset = sealed

theorem Targets.nodup {reliable : Bool} {sealed : Finset Key} {chosen : Key → Bool}
    {targets : List Key} (isTargets : Targets reliable (ListsOnce sealed) chosen targets) :
    targets.Nodup := by
  obtain ⟨seen, ⟨nodup, -⟩, picked⟩ := isTargets
  exact picked.among.nodup (nodup.filter _)

/-! ### Wherever a cycle stops -/

/-- Whether a stored chunk is to be a target. -/
def chosenAt (params : Params) (live : List Extent) (objects : Objects) (id : Key) : Bool :=
  selects params live id (mapStore.size objects id)

/-- A cycle has packed the live extents of its targets. -/
structure Moves (params : Params) (cs : ChunkStore) (objects : Objects) (live : List Extent)
    (targets : List Key) (packing : Packing) : Prop where
  tiledFor : TiledFor params (moved live targets) packing
  nodup : targets.Nodup
  listed : ∀ id ∈ targets, id ∈ cs.listSealed mapStore objects ∧
    chosenAt params live objects id = true

/-- What a cycle may leave behind. -/
abbrev Left (params : Params) (cs : ChunkStore) (objects : Objects) (idx : Index)
    (live : List Extent) : Index → Objects → Prop :=
  Leaves (Moves params cs objects live) objects idx

/-- What a complete cycle leaves: nothing was to be done, or the targets are
gone. -/
inductive Done (params : Params) (cs : ChunkStore) (objects : Objects) (idx : Index)
    (live : List Extent) : Index → Objects → Prop where
  | nothing (rest : ∀ id ∈ cs.listSealed mapStore objects,
      chosenAt params live objects id = false) : Done params cs objects idx live idx objects
  | moved {targets : List Key} {packing : Packing} {objects' : Objects}
      (moves : Moves params cs objects live targets packing)
      (all : ∀ id ∈ cs.listSealed mapStore objects, chosenAt params live objects id = true →
        id ∈ targets)
      (kept : KeptExcept objects objects' targets) (grown : GrownBy objects objects' packing)
      (stored : OutputsStored objects' packing) (gone : ∀ id ∈ targets, objects'.get id = none) :
      Done params cs objects idx live (idx.remapExtents packing.remap) objects'

/-- A cycle under way. -/
structure Run.Mid (reliable : Bool) (params : Params) (cs : ChunkStore) (objects : Objects)
    (idx durable : Index) (live : List Extent) (run : Run) (s : Objects × Index) : Prop where
  isParams : run.params = params
  tracked : run.Tracked (fun _ => True) Full idx live
  packs : run.Packs (TiledFor params)
  chosen : run.Chosen reliable (ListsOnce (cs.listSealed mapStore objects))
    (chosenAt params live objects)
  stores : run.Stores (ReadsOnly cs) objects durable s

section Mid

variable {reliable : Bool} {params : Params} {cs : ChunkStore} {objects : Objects}
  {idx durable : Index} {live : List Extent} {run : Run} {s s' : Objects × Index} {o : Oracle}
  {a : Answer}

theorem Moves.nothing (params : Params) (cs : ChunkStore) (objects : Objects) (live : List Extent) :
    Moves params cs objects live [] (.begin params) where
  tiledFor := .begin params
  nodup := List.nodup_nil
  listed := nofun

theorem Moves.of_targets {targets : List Key} {packing : Packing}
    (isTargets : Targets reliable (ListsOnce (cs.listSealed mapStore objects))
      (chosenAt params live objects) targets)
    (tiledFor : TiledFor params (moved live targets) packing) :
    Moves params cs objects live targets packing :=
  ⟨tiledFor, isTargets.nodup, isTargets.mem fun _ lists => lists.2⟩

theorem Moves.seated {targets : List Key} {packing : Packing}
    (moves : Moves params cs objects live targets packing)
    (fresh : ∀ k, objects.get (compactedID (params.clock k) k) = none) :
    Seated objects targets packing :=
  moves.tiledFor.1.seated fresh fun id member =>
    (mem_listSealed.mp (moves.listed id member).1).2.2

theorem Run.Mid.holds (mid : run.Mid reliable params cs objects idx durable live s) :
    run.Holds (Moves params cs objects live) := by
  obtain ⟨-, ⟨isLive, -⟩, packs, chosen, -⟩ := mid
  unfold Run.Packs at packs
  unfold Run.Chosen at chosen
  unfold Run.Holds
  cases stage : run.stage <;> rw [stage] at packs chosen
  case putting => exact .of_targets chosen (isLive ▸ packs)
  case persisting => exact .of_targets chosen (isLive ▸ packs)
  case deleting => exact .of_targets chosen (isLive ▸ packs)
  all_goals trivial

/-- A listing of a run that begins names every sealed chunk once. -/
theorem Run.Mid.lists (mid : run.Mid reliable params cs objects idx durable live s)
    (allowed : Answers reliable o) (stage : run.stage = .listing) {ids : List Key}
    (applied : apply mapStore durably s run.effect o = some (s', .listed (some ids))) :
    ListsOnce (cs.listSealed mapStore objects) ids := by
  have stores := mid.stores
  simp only [Run.Stores, stage] at stores
  obtain ⟨rfl, cache, sameStore⟩ := stores
  simp only [Run.effect, stage, apply, sameStore] at applied
  split_ifs at applied with silent listed
  all_goals cases applied
  exact ⟨allowed.1, listed⟩

/-- A size that the store answers decides as the stored chunk does. -/
theorem Run.Mid.sizes (mid : run.Mid reliable params cs objects idx durable live s)
    (allowed : Answers reliable o) {targets : List Key} {id : Key} {pending : List Key}
    (stage : run.stage = .sizing targets id pending)
    (inSealed : id ∈ cs.listSealed mapStore objects)
    {size : Option Int}
    (applied : apply mapStore durably s run.effect o = some (s', .sized size)) :
    (selects run.params run.live id size = true → chosenAt params live objects id = true) ∧
      (reliable = true → chosenAt params live objects id = true →
        selects run.params run.live id size = true) := by
  have stores := mid.stores
  simp only [Run.Stores, stage] at stores
  obtain ⟨rfl, cache, sameStore⟩ := stores
  have inactive : id ≠ cs.activeID := (mem_listSealed.mp inSealed).1
  have sized : ChunkStore.sealedSize mapStore objects { cs with cache := cache } id =
      mapStore.size objects id := if_neg inactive
  simp only [Run.effect, stage, apply, sameStore, sized] at applied
  obtain ⟨-, answer⟩ := Prod.mk.inj (Option.some.inj applied)
  rw [← Answer.sized.inj answer, mid.isParams, mid.tracked.1]
  unfold chosenAt
  refine ⟨fun selected => ?_, fun isReliable isChosen => ?_⟩
  · split_ifs at selected
    · exact selected
    · cases selected
  · rw [if_pos (allowed.2 isReliable)]
    exact isChosen

/-- What a reliable cycle that returns nil has done. -/
theorem Run.Mid.done (ready : Packable params cs objects live)
    (mid : run.Mid true params cs objects idx durable live s) (allowed : Answers true o)
    (applied : apply mapStore durably s run.effect o = some (s', a)) {reply : Reply}
    (returned : run.resume a = .inr reply) (ok : reply.ok = true) :
    Done params cs objects idx live reply.idx s'.1 := by
  obtain ⟨returns, same⟩ := Run.returns_of_resume returned ok
  rw [same]
  cases returns with
  | nothingListed stage =>
      have listed := (mid.lists allowed stage applied).2
      have stores := mid.stores
      have holds := mid.tracked.2
      simp only [Run.Stores, stage] at stores holds
      rw [Run.same_of_apply applied (by simp [stage]), stores.1, holds]
      refine .nothing fun id member => ?_
      rw [← listed] at member
      cases member
  | @nothingSelected id size stage rejected =>
      have stores := mid.stores
      have holds := mid.tracked.2
      have chosen := mid.chosen
      simp only [Run.Stores, Run.Chosen, stage] at stores holds chosen
      obtain ⟨seen, lists, picked⟩ := chosen
      have inSealed : id ∈ cs.listSealed mapStore objects := by
        rw [← lists.2]
        simp
      obtain ⟨sound, complete⟩ := mid.sizes allowed stage inSealed applied
      have none : Targets true (ListsOnce (cs.listSealed mapStore objects))
          (chosenAt params live objects) [] := by
        refine ⟨seen ++ [id], lists, ?_⟩
        have judged := picked.judge sound complete
        rw [rejected] at judged
        exact judged
      rw [Run.same_of_apply applied (by simp [stage]), stores.1, holds.1]
      refine .nothing fun other member => ?_
      by_contra isChosen
      cases none.complete (fun _ lists => lists.2) other member (Bool.not_eq_false _ ▸ isChosen)
  | @nothingToDelete packing stage =>
      have stores := mid.stores
      have holds := mid.tracked.2
      have chosen := mid.chosen
      have packs := mid.packs
      simp only [Run.Packs, Run.Stores, Run.Chosen, stage] at stores holds chosen packs
      obtain ⟨-, kept, grown, stored⟩ := stores
      simp only [Run.effect, stage] at applied
      rw [durably_ended applied, holds.1]
      exact .moved (.of_targets chosen (mid.tracked.1 ▸ packs))
        (chosen.complete fun _ lists => lists.2) kept grown stored fun id member => by cases member
  | @lastDeleted targets packing id stage =>
      have stores := mid.stores
      have holds := mid.tracked.2
      have chosen := mid.chosen
      have packs := mid.packs
      simp only [Run.Packs, Run.Stores, Run.Chosen, stage] at stores holds chosen packs
      obtain ⟨-, kept, grown, stored, deleted, split, gone⟩ := stores
      have moves : Moves params cs objects live targets packing :=
        .of_targets chosen (mid.tracked.1 ▸ packs)
      have member : id ∈ targets := holds.2.2.2.subset List.mem_cons_self
      simp only [Run.effect, stage] at applied
      rw [delete_ended applied, holds.1]
      have others := (moves.seated ready.fresh).output_ne member
      exact .moved moves (chosen.complete fun _ lists => lists.2) (kept.delete member)
        (grown.delete id) (stored.delete others) (split ▸ gone_delete gone id)

end Mid

/-- Every cycle leaves an index and a store that belong together, wherever it
stops, and a reliable one that returns nil has dealt with every target. -/
theorem cycle_of_progress {reliable : Bool} {params : Params} {cs : ChunkStore} {objects : Objects}
    {idx durable : Index} {order : List (Ino × List Extent)} {s : Objects × Index}
    {point : Run ⊕ Reply} (ready : Packable params cs objects (Index.liveExtents order))
    (progress : Progress ((compactSys mapStore durably).under (Answers reliable))
      (objects, durable) (Run.begin params idx cs order) s point) :
    Left params cs objects idx (Index.liveExtents order) (indexAt point) s.1 ∧
      (durable = idx → Left params cs objects idx (Index.liveExtents order) s.2 s.1) ∧
      ∀ reply, point = .inr reply → reply.ok = true → reliable = true →
        Done params cs objects idx (Index.liveExtents order) reply.idx s.1 := by
  have begins := Moves.nothing params cs objects (Index.liveExtents order)
  have seated : ∀ targets packing, Moves params cs objects (Index.liveExtents order) targets
      packing → Seated objects targets packing := fun _ _ moves => moves.seated ready.fresh
  have invariant := Progress.under_invariant (fun s point =>
    (∀ run, point = .inl run →
      run.Mid reliable params cs objects idx durable (Index.liveExtents order) s) ∧
      (Left params cs objects idx (Index.liveExtents order) (indexAt point) s.1 ∧
        (durable = idx → Left params cs objects idx (Index.liveExtents order) s.2 s.1)) ∧
      ∀ reply, point = .inr reply → reply.ok = true → reliable = true →
        Done params cs objects idx (Index.liveExtents order) reply.idx s.1) ?_ ?_ progress
  · exact ⟨invariant.2.1.1, invariant.2.1.2, invariant.2.2⟩
  · refine ⟨?_, ⟨.untouched begins, ?_⟩, nofun⟩
    · rintro run ⟨⟩
      exact ⟨rfl, ⟨rfl, rfl⟩, trivial, trivial, rfl, cs.cache, rfl⟩
    · rintro rfl
      exact .untouched begins
  · rintro s run o s' a before ⟨mids, -, -⟩ allowed applied
    have mid := mids run rfl
    have known := tiled_of_progress ready.movable (before.step applied)
    have applied : apply mapStore durably s run.effect o = some (s', a) := applied
    have mid' : ∀ run', run.resume a = .inl run' →
        run'.Mid reliable params cs objects idx durable (Index.liveExtents order) s' := by
      intro run' continues
      obtain ⟨isParams, tracked, packs⟩ := known.1 run' continues
      refine ⟨isParams, tracked, packs, ?_, mid.stores.step seated
        (fun _ disk id offset length reader => reader.read objects disk id offset length)
        mid.holds applied continues⟩
      refine mid.chosen.resume ?_ ?_ continues
      · rintro stage ids rfl
        exact mid.lists allowed stage applied
      · rintro targets id pending stage ids lists member size rfl
        exact mid.sizes allowed stage (lists.2 ▸ List.mem_toFinset.mpr member) applied
    refine ⟨mid', ?_, ?_⟩
    · exact mid.stores.leaves_of_resume begins seated mid.holds mid.tracked applied
        fun run' continues => ⟨(mid' run' continues).stores, (mid' run' continues).holds,
          (mid' run' continues).tracked⟩
    · rintro reply returned ok rfl
      exact mid.done ready allowed applied returned ok

end Compaction

end Fusey
