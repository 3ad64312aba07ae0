import Fusey.Chunks.Sequence
import Fusey.Cmd.Main
import Fusey.Fuse.Runs
import Fusey.Fuse.Saving

/-!
Contract: `runDaemon` up to the mount (`cmd/fusey/main.go`).

Owns:
- the daemon that `mustBuildStore` and `loadIndex` set up over a store, a chunk
  cache and a local snapshot;
- the chunk number it starts at, which is past the stored ones that
  `RecoverNextSeq` can read.

Leftovers of a temporary file are not modelled: `Save` truncates them.
-/

set_option autoImplicit false

namespace Fusey

open ChunkStore

/-! ### The recovered chunk store -/

/-- The chunk store of a new process. -/
theorem buildChunkStore_eq (chunkSize : Int) (ids : List Key) (files : Objects) :
    buildChunkStore chunkSize ids files =
      { maxChunkSize := chunkSize, cache := some files, activeID := chunkID (recoveredSeq ids),
        activeBuf := [], activeDirty := false, nextSeq := recoveredSeq ids + 1 } := by
  unfold buildChunkStore
  rw [recoverNextSeq_new]
  rfl

/-- Every stored chunk has a number below the given one. -/
def ChunksBelow (bound : Nat) (objects : Objects) : Prop :=
  ∀ seq object, objects.get (chunkID seq) = some object → seq < bound

theorem ChunksBelow.recovered {objects : Objects} {ids : List Key}
    (small : ChunksBelow 100000000 objects) (listed : ids.toFinset = mapStore.list objects) :
    ChunksBelow (recoveredSeq ids) objects := by
  intro seq object stored
  refine lt_recoveredSeq (List.mem_toFinset.mp ?_) (small seq object stored)
  rw [listed]
  exact mem_mapStore_list.mpr ⟨chunkID_ne_indexKey seq, object, stored⟩

theorem ChunksBelow.absent {bound : Nat} {objects : Objects} (below : ChunksBelow bound objects)
    {seq : Nat} (above : bound ≤ seq) : objects.get (chunkID seq) = none := by
  rw [Option.eq_none_iff_forall_ne_some]
  intro object stored
  exact absurd (below seq object stored) (Nat.not_lt.mpr above)

/-- A chunk store that starts past all stored chunks is consistent. -/
theorem buildChunkStore_consistent {objects : Objects} {ids : List Key}
    (below : ChunksBelow (recoveredSeq ids) objects) (chunkSize : Int) (files : Objects) :
    Consistent objects (buildChunkStore chunkSize ids files) := by
  rw [buildChunkStore_eq]
  refine ⟨⟨recoveredSeq ids, rfl, rfl⟩, fun seq later => below.absent (Nat.le_of_succ_le later), ?_⟩
  intro object stored
  rw [below.absent le_rfl] at stored
  cases stored

/-- The stored chunks are frozen from the start. -/
theorem buildChunkStore_frozen {ids : List Key} {seq : Nat} (below : seq < recoveredSeq ids)
    (chunkSize : Int) (files : Objects) :
    Frozen (buildChunkStore chunkSize ids files) (chunkID seq) := by
  rw [buildChunkStore_eq]
  intro other later same
  have := chunkID_injective same
  dsimp only at later
  omega

/-! ### Mounting -/

/-- A directory whose snapshot has the given bytes. -/
def SnapshotDir.holding : Option Bytes → SnapshotDir
  | none => .empty
  | some data =>
      { contents := (∅ : GoMap Nat Bytes).set 0 data, tmp := none, current := some 0,
        nextFile := 1 }

theorem SnapshotDir.holding_snapshot (data : Option Bytes) :
    (SnapshotDir.holding data).snapshot = data := by
  cases data with
  | none => rfl
  | some data => exact GoMap.get_set_self _ _ _

theorem SnapshotDir.holding_neat (data : Option Bytes) : (SnapshotDir.holding data).Neat := by
  cases data with
  | none => exact SnapshotDir.empty_neat
  | some data =>
      refine ⟨nofun, ?_, nofun⟩
      rintro file ⟨⟩
      exact Nat.zero_lt_one

/-- What a process is configured with; the chunk size is an `int64`. -/
structure Setup where
  cfg : Config
  chunkSize : Int
  blockSize : Int
  chunkSize_lt : chunkSize < 9223372036854775808

/-- Chunks of eight bytes have an `int64` size. -/
theorem eight_lt : (8 : Int) < 9223372036854775808 := by decide

/-- What a mount meets: the listing of the store, and what `loadIndex` meets. -/
structure MountOracle where
  ids : List Key := []
  load : LoadOracle := {}

/-- The daemon that `runDaemon` mounts, on a node whose chunk cache holds `files`
and whose cache directory holds `snapshot`. -/
def mount (setup : Setup) (o : MountOracle) (objects files : Objects) (snapshot : Option Bytes) :
    Option Daemon :=
  -- A store that does not answer ends the process.
  if o.ids.toFinset = mapStore.list objects then
    (loadIndex setup.cfg.codec setup.blockSize mapStore o.load objects snapshot).map fun loaded =>
      ⟨loaded.1, buildChunkStore setup.chunkSize o.ids files, objects, .holding loaded.2⟩
  else none

theorem mount_cases {setup : Setup} {o : MountOracle} {objects files : Objects}
    {snapshot : Option Bytes} {d : Daemon}
    (mounted : mount setup o objects files snapshot = some d) :
    o.ids.toFinset = mapStore.list objects ∧ ∃ idx kept,
      loadIndex setup.cfg.codec setup.blockSize mapStore o.load objects snapshot =
        some (idx, kept) ∧
      d = ⟨idx, buildChunkStore setup.chunkSize o.ids files, objects, .holding kept⟩ := by
  unfold mount at mounted
  split_ifs at mounted with listed
  obtain ⟨⟨idx, kept⟩, loaded, rfl⟩ := Option.map_eq_some_iff.mp mounted
  exact ⟨listed, idx, kept, loaded, rfl⟩

/-- What is loaded has its flags lowered and the configured block size. -/
theorem decodeIndex_fields {codec : CborCodec} {blockSize : Int} {data : Bytes} {idx : Index}
    (decoded : decodeIndex codec blockSize data = some idx) :
    idx.blockSize = blockSize ∧ idx.cleaned = idx := by
  obtain ⟨ws, -, rfl⟩ := Option.map_eq_some_iff.mp decoded
  exact ⟨rfl, rfl⟩

/-- A mounted daemon is sound if its index is restorable. -/
theorem mount_sound (setup : Setup) {idx : Index} (restorable : idx.Restorable) (ids : List Key)
    (files objects : Objects) (dir : SnapshotDir) :
    (Daemon.mk idx (buildChunkStore setup.chunkSize ids files) objects dir).Sound where
  restorable := restorable
  active := ⟨recoveredSeq ids, by rw [buildChunkStore_eq]⟩
  chunkSize := by
    rw [buildChunkStore_eq]
    exact setup.chunkSize_lt

end Fusey
