import Fusey.Compaction.Compactor

/-!
Contract: how a process starts and how `fusey compact` persists
(`cmd/fusey/main.go`).

Owns:
- `mustBuildStore`: a new chunk store that has moved past the listed chunks;
- `loadIndex`: the local snapshot, else the object, else an empty index;
- the persist function of `runCompact` as one step of its compaction run: its
  chunk store holds nothing to flush, and the remapped index is always dirty;
- `runCompact` itself, step by step.

The local snapshot is given by its bytes. Does not own the calls of a mounted
daemon.
-/

set_option autoImplicit false

namespace Fusey

/-- `mustBuildStore`'s chunk store, when the store lists `ids` and the cache
directory holds `files`. -/
def buildChunkStore (chunkSize : Int) (ids : List Key) (files : Objects) : ChunkStore :=
  ((ChunkStore.new chunkSize).recoverNextSeq ids).setCacheDir files

/-- What `loadIndex` meets: whether the store answers, whether the local disk
accepts a snapshot, the clock, and the order of that snapshot's entries. -/
structure LoadOracle where
  answers : Bool := true
  disk : Bool := true
  now : Int := 0
  order : List DirEntry := []

section Load

variable {σ : Type} (codec : CborCodec) (blockSize : Int) (store : Store σ)

/-- `loadIndex`, with the snapshot it leaves behind; `none` is `log.Fatalf`. -/
def loadIndex (o : LoadOracle) (s : σ) (snapshot : Option Bytes) : Option (Index × Option Bytes) :=
  match snapshot with
  | some data => (decodeIndex codec blockSize data).map fun idx => (idx, some data)
  | none =>
      if o.answers = false then none
      else
        match store.getRaw s store.indexKey with
        | none => some (Index.new blockSize o.now, none)
        | some data =>
            (decodeIndex codec blockSize data).map fun idx =>
              (idx,
                -- A snapshot that cannot be cached is only warned about.
                if o.disk ∧ idx.Lists o.order then encodeSnapshot codec (idx.snapshot o.order)
                else none)

variable {codec blockSize store} in
/-- Without a local snapshot the index comes from the store. -/
theorem loadIndex_none {o : LoadOracle} {s : σ} {idx : Index} {snapshot : Option Bytes}
    (loaded : loadIndex codec blockSize store o s none = some (idx, snapshot)) :
    (store.getRaw s store.indexKey = none ∧ idx = Index.new blockSize o.now) ∨
      ∃ data, store.getRaw s store.indexKey = some data ∧
        decodeIndex codec blockSize data = some idx := by
  simp only [loadIndex] at loaded
  split_ifs at loaded
  split at loaded
  next absent =>
    cases loaded
    exact Or.inl ⟨absent, rfl⟩
  next data stored =>
    obtain ⟨decoded, isIndex, same⟩ := Option.map_eq_some_iff.mp loaded
    cases same
    exact Or.inr ⟨data, stored, isIndex⟩

/-- The persist function of `runCompact`: `Save`, then `PutRaw`. It changes the
store and the local snapshot. -/
def compactPersist (idx : Index) (o : Compaction.Oracle) (s : σ × Option Bytes) :
    (σ × Option Bytes) × Bool :=
  if idx.Lists o.order then
    match encodeSnapshot codec (idx.snapshot o.order) with
    | none => (s, false)
    | some data =>
        if o.disk = false then (s, false)
        else
          match o.outcome with
          | .ok => ((store.putRaw s.1 store.indexKey data, some data), true)
          | .failedOld => ((s.1, some data), false)
          | .failedNew => ((store.putRaw s.1 store.indexKey data, some data), false)
  else (s, false)

end Load

/-- What the persist function of `runCompact` can do. -/
theorem compactPersist_cases {σ : Type} (codec : CborCodec) (store : Store σ) (idx : Index)
    (o : Compaction.Oracle) (s : σ × Option Bytes) :
    compactPersist codec store idx o s = (s, false) ∨
      ∃ data, idx.Lists o.order ∧ encodeSnapshot codec (idx.snapshot o.order) = some data ∧
        (compactPersist codec store idx o s = ((s.1, some data), false) ∨
          ∃ ok, compactPersist codec store idx o s =
            ((store.putRaw s.1 store.indexKey data, some data), ok)) := by
  unfold compactPersist
  by_cases lists : idx.Lists o.order
  · rw [if_pos lists]
    cases encoded : encodeSnapshot codec (idx.snapshot o.order) with
    | none => exact Or.inl rfl
    | some data =>
        by_cases refused : o.disk = false
        · exact Or.inl (if_pos refused)
        · refine Or.inr ⟨data, lists, rfl, ?_⟩
          simp only [if_neg refused]
          cases o.outcome with
          | ok => exact Or.inr ⟨true, rfl⟩
          | failedOld => exact Or.inl rfl
          | failedNew => exact Or.inr ⟨false, rfl⟩
  · exact Or.inl (if_neg lists)

/-! ### `runCompact` -/

/-- A `fusey compact` process at the point of its next step: `RecoverNextSeq`,
`loadIndex`, or a step of `Compact`. `files` are those of its chunk cache. -/
inductive CompactProcess where
  | recovering (params : Compaction.Params) (blockSize : Int) (files : Objects)
  | loading (params : Compaction.Params) (blockSize : Int) (cs : ChunkStore)
  | compacting (run : Compaction.Run)

namespace CompactProcess

inductive Effect where
  | recover
  | load (blockSize : Int)
  | compact (e : Compaction.Effect)

inductive Answer where
  | recovered (ids : Option (List Key))
  | loaded (result : Option (Index × List (Ino × List Extent)))
  | compact (a : Compaction.Answer)

/-- What the environment decides: what `loadIndex` and the store operations
meet, and the order in which `LiveExtents` iterates the extent map. -/
structure Oracle where
  load : LoadOracle := {}
  compact : Compaction.Oracle := {}
  extents : List (Ino × List Extent) := []

def effect : CompactProcess → Effect
  | .recovering .. => .recover
  | .loading _ blockSize _ => .load blockSize
  | .compacting run => .compact run.effect

/-- What a process does with the answer of its step; it ends with whether
`runCompact` returned. -/
def resume : CompactProcess → Answer → CompactProcess ⊕ Bool
  | .recovering params blockSize files, .recovered (some ids) =>
      .inl (.loading params blockSize (buildChunkStore params.chunkSize ids files))
  | .loading params _ cs, .loaded (some (idx, order)) =>
      .inl (.compacting (.begin params idx cs order))
  | .compacting run, .compact a => (run.resume a).map .compacting Compaction.Reply.ok
  | _, _ => .inr false

variable {σ : Type} (codec : CborCodec) (store : Store σ)

/-- One step on the store and the local snapshot. -/
def apply (s : σ × Option Bytes) (e : Effect) (o : Oracle) :
    Option ((σ × Option Bytes) × Answer) :=
  match e with
  | .recover =>
      if o.compact.answers = false then some (s, .recovered none)
      else if o.compact.ids.toFinset = store.list s.1 then some (s, .recovered (some o.compact.ids))
      else none
  | .load blockSize =>
      match loadIndex codec blockSize store o.load s.1 s.2 with
      | none => some (s, .loaded none)
      | some (idx, snapshot) =>
          if Compaction.ListsExtents idx o.extents then
            some ((s.1, snapshot), .loaded (some (idx, o.extents)))
          else none
  | .compact e =>
      (Compaction.apply store (compactPersist codec store) s e o.compact).map fun result =>
        (result.1, .compact result.2)

/-- `fusey compact` as a system of one kind of thread. -/
def sys : Interleaving.Sys (σ × Option Bytes) Effect Answer Oracle CompactProcess Bool where
  apply := apply codec store
  effect := effect
  resume := resume

/-- The outputs of a run have compacted IDs. -/
def Tracked : CompactProcess → Prop
  | .recovering .. | .loading .. => True
  | .compacting run => ∃ idx live, run.Tracked (fun _ => True) (fun _ _ => True) idx live

theorem Tracked.resume {p p' : CompactProcess} (tracked : p.Tracked) {a : Answer}
    (continues : p.resume a = .inl p') : p'.Tracked := by
  unfold CompactProcess.resume at continues
  split at continues
  next => cases continues; trivial
  next =>
    cases continues
    exact ⟨_, _, rfl, rfl⟩
  next run a =>
    obtain ⟨idx, live, tracked⟩ := tracked
    cases resumed : run.resume a with
    | inr r => rw [resumed] at continues; cases continues
    | inl run' =>
        rw [resumed] at continues
        cases continues
        exact ⟨idx, live, tracked.resume (fun _ _ _ _ _ => trivial)
          (fun _ _ _ _ _ _ _ _ => trivial) resumed⟩
  next => cases continues

/-- A process brings no chunk of the daemon's numbering into the store. -/
theorem chunks_of_apply {codec : CborCodec} {s s' : Objects × Option Bytes} {p : CompactProcess}
    (tracked : p.Tracked) {o : Oracle} {a : Answer}
    (applied : apply codec mapStore s p.effect o = some (s', a)) {seq : Nat} {object : Bytes}
    (stored : s'.1.get (chunkID seq) = some object) : s.1.get (chunkID seq) = some object := by
  cases p with
  | recovering params blockSize files =>
      simp only [effect, apply] at applied
      split_ifs at applied <;> cases applied <;> exact stored
  | loading params blockSize cs =>
      simp only [effect, apply] at applied
      split at applied
      next => cases applied; exact stored
      next =>
        split_ifs at applied
        cases applied
        exact stored
  | compacting run =>
      obtain ⟨⟨left, answer⟩, ran, same⟩ := Option.map_eq_some_iff.mp applied
      cases same
      rcases Compaction.Run.apply_cases ran with rfl |
        ⟨targets, packing, output, pending, stage, rfl⟩ |
        ⟨targets, packing, stage, rfl, -⟩ | ⟨targets, packing, id, pending, stage, rfl⟩
      · exact stored
      · obtain ⟨idx, live, -, holds⟩ := tracked
        rw [stage] at holds
        obtain ⟨-, -, packed, rest⟩ := holds
        obtain ⟨k, isCompacted⟩ := packed.output_id
          (Compaction.mem_outputs.mp (rest.subset (List.mem_cons_self ..))).1
        have other : chunkID seq ≠ output.id := by
          rw [isCompacted]
          exact (Compaction.compactedID_ne_chunkID _ _ seq).symm
        exact (GoMap.get_set_ne _ _ other).symm.trans stored
      · rcases compactPersist_cases codec mapStore run.idx o.compact s with
          failed | ⟨data, -, -, failed | ⟨ok, written⟩⟩
        · rw [failed] at stored
          exact stored
        · rw [failed] at stored
          exact stored
        · rw [written] at stored
          exact (GoMap.get_set_ne _ _ (chunkID_ne_indexKey seq)).symm.trans stored
      · simp only [mapStore_delete, GoMap.get_delete] at stored
        split_ifs at stored
        exact stored

end CompactProcess

end Fusey
