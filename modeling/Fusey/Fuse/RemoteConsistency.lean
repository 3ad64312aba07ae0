import Fusey.Fuse.Ledger

/-!
Contract: self-consistency of the remote store under concurrent writes and
persist runs.

Owns:
- what it means that the index stored under `IndexKey` agrees with the stored
  chunks and with what was written;
- that it holds in every run in which no write is recorded between the flush
  and the snapshot of a persist run, unless its bytes are stored already;
- a run in which a write falls there and the stored index names a chunk that
  has no object.
-/

set_option autoImplicit false

namespace Fusey

open GoInt Interleaving

/-- The extent lies in an object whose bytes there are those that the write put
into that range of its file. -/
def Extent.Shows (objects : Objects) (e : Extent) (w : WriteRecord) : Prop :=
  w.ext.fileOffset ≤ e.fileOffset ∧
    e.fileOffset + e.length ≤ w.ext.fileOffset + w.data.length ∧
    0 ≤ e.chunkOffset ∧ 0 ≤ e.length ∧
    ∃ object ∈ objects.get e.chunkID, e.chunkOffset + e.length ≤ object.length ∧
      ∀ i : Nat, (i : Int) < e.length →
        object[e.chunkOffset.toNat + i]? = w.data[(e.fileOffset - w.ext.fileOffset).toNat + i]?

/-- Every extent of the index stored under `IndexKey` shows a write of its
file. -/
def RemoteConsistent (codec : CborCodec) (objects : Objects) (log : List WriteRecord) : Prop :=
  ∀ data blockSize idx, objects.get indexKey = some data →
    decodeIndex codec blockSize data = some idx →
      ∀ ino exts, idx.extents.get ino = some exts → ∀ e ∈ exts,
        ∃ w ∈ log, w.ino = ino ∧ e.Shows objects w

/-- A stored part of a logged extent shows its write. -/
theorem WriteRecord.Kept.shows {seals : Bool} {d : Daemon} {w : WriteRecord}
    (kept : w.Kept seals d) (consistent : d.cs.Consistent d.objects)
    (inside : InObject d.objects w.ext) {e : Extent} (isPart : e.Part w.ext) :
    e.Shows d.objects w := by
  obtain ⟨low, nonneg, object, stored, high⟩ := inside.of_part isPart
  obtain ⟨chunk, shift, start, stop, -⟩ := isPart
  have length := kept.holds.length
  have range := kept.holds.range.chunkOffset
  refine ⟨start, by omega, low, nonneg, object, stored, high, fun i below => ?_⟩
  -- The object's byte is what a read of the chunk sees, which is the data.
  have there : e.chunkOffset.toNat + i < object.length := by omega
  have byte : objectByte d.objects e.chunkID (e.chunkOffset.toNat + i) =
      some object[e.chunkOffset.toNat + i] := by
    rw [objectByte, stored, Option.bind_some, List.getElem?_eq_getElem there]
  have seen := consistent.objectByte_grows _ _ _ byte
  have position : e.chunkOffset.toNat + i =
      w.ext.chunkOffset.toNat + ((e.fileOffset - w.ext.fileOffset).toNat + i) := by omega
  rw [List.getElem?_eq_getElem there, ← seen, chunk, position]
  exact kept.holds.bytes _ (by omega)

theorem Ledger.remoteConsistent {codec : CborCodec} {seals : Bool} {d : Daemon}
    {log : List WriteRecord} (ledger : Ledger codec seals d log) :
    RemoteConsistent codec d.objects log := by
  intro data blockSize idx stored decoded ino exts found e member
  obtain ⟨-, whole, ⟨logged, inside⟩, isPart⟩ :=
    ledger.remote data stored blockSize idx decoded ino exts found e member
  obtain ⟨w, inLog, isIno, rfl⟩ := logged.written
  exact ⟨w, inLog, isIno, (ledger.writes w inLog).shows ledger.consistent inside isPart⟩

/-! ### Every run -/

/-- Requests start at any time and every call may go on, except that while a
persist run is between its flush and its snapshot only stored extents are
recorded. -/
def recordsStored (pool : Pool Daemon Call (List WriteRecord)) : Event Call Oracle → Prop
  | .spawn c => c.IsRequest
  | .run i _ => ∀ ext ∈ (pool.threads[i]?).bind Call.recording,
      (∃ c ∈ pool.threads, c.IsMarshalling) → InObject pool.shared.objects ext

instance (pool : Pool Daemon Call (List WriteRecord)) (event : Event Call Oracle) :
    Decidable (recordsStored pool event) := by
  induction event using Event.casesOn <;> dsimp only [recordsStored] <;> infer_instance

/-- No call is under way and the ledger is balanced, as in an empty
filesystem. -/
def Settled (codec : CborCodec) (pool : Pool Daemon Call (List WriteRecord)) : Prop :=
  pool.threads = [] ∧ Ledger codec false pool.shared pool.record

theorem freshDaemon_settled (codec : CborCodec) {maxChunkSize : Int}
    (small : maxChunkSize < 9223372036854775808) (blockSize now : Int) (cached : Bool) :
    Settled codec ⟨freshDaemon maxChunkSize blockSize now cached, [], []⟩ := by
  refine ⟨rfl, freshDaemon_sound small blockSize now cached, ?_, nofun, ?_, ?_⟩
  · cases cached
    · exact ChunkStore.new_consistent maxChunkSize
    · exact (ChunkStore.new_consistent maxChunkSize).with_cache _
  · exact fun ino exts stored => by cases stored
  · exact fun data stored => by cases stored

/-- The ledger stays balanced in every such run. -/
theorem Ledger.of_reachable {cfg : Config} {pool : Pool Daemon Call (List WriteRecord)}
    (reached : Reachable (daemonSys cfg) logWrite (Settled cfg.codec) recordsStored pool) :
    Ledger cfg.codec false pool.shared pool.record := by
  refine (Reachable.local_invariant (Ledger cfg.codec false)
    (fun d log c => c.Sound ∧ c.Backs cfg.codec false d log) ?_ ?_ ?_ reached).1
  · rintro pool ⟨idle, ledger⟩
    refine ⟨ledger, fun c member => ?_⟩
    rw [idle] at member
    cases member
  · intro pool c _ request
    refine ⟨request.sound, ?_⟩
    cases c <;> first | trivial | exact request.elim | exact fun seals => by cases seals
  · intro d log before c after o d' a ledger each admitted applied
    obtain ⟨sound, backs⟩ := each c (by simp)
    refine ⟨ledger.of_apply sound backs applied, fun c' continues => ?_, fun u member => ?_⟩
    · have follows := Call.follows_of_resume continues
      exact ⟨sound.of_follows ledger.sound applied follows,
        backs.of_follows ledger sound applied follows⟩
    · have inPool : u ∈ before ++ c :: after := by
        simp only [List.mem_append, List.mem_cons] at member ⊢
        tauto
      obtain ⟨otherSound, knows⟩ := each u inPool
      refine ⟨otherSound, knows.of_other ledger backs applied fun marshalling ext recording => ?_⟩
      refine admitted ext ?_ ⟨u, inPool, marshalling⟩
      rw [List.getElem?_append_right le_rfl, Nat.sub_self]
      exact recording

/-- In every run in which no write is recorded between the flush and the
snapshot of a persist run unless its bytes are stored, every extent of the
index under `IndexKey` lies at every moment in an object that holds the bytes
that were written to its range of the file. -/
theorem remote_index_consistent {cfg : Config} {pool : Pool Daemon Call (List WriteRecord)}
    (reached : Reachable (daemonSys cfg) logWrite (Settled cfg.codec) recordsStored pool) :
    RemoteConsistent cfg.codec pool.shared.objects pool.record :=
  (Ledger.of_reachable reached).remoteConsistent

/-! ### Two runs -/

/-- The only entry of the filesystem of these runs. -/
def oneEntry : Oracle := { order := [⟨1, [97], 2⟩] }

/-- The wire form of the index after a run, for a codec that can be evaluated
on it. -/
noncomputable def wireAfter (order : List DirEntry) (events : List (Event Call Oracle)) :
    CborSnapshot :=
  (((daemonSys sampleConfig).run logWrite requestsOnly ⟨freshDaemon 8 4096 0 false, [], []⟩
    events).bind fun pool => toWireSnapshot (pool.shared.idx.snapshot order)).getD
      ⟨∅, [], ∅, ∅, ∅, 0⟩

/-- A write whose append comes before the flush of a persist run and whose
record comes after it, up to when the run takes its snapshot. -/
def overlappingWrite : List (Event Call Oracle) :=
  (Call.make .regular 1 [97] 0o644 0 0 1).alone 3 ++
    [.spawn (.write 2 [7, 8, 9] 0 2), .run 0 {}, .run 0 {}, .run 0 {}] ++
    [.spawn .persist, .run 1 {}, .run 1 oneEntry, .run 1 {}, .run 1 {}, .run 1 {}, .run 1 {},
      .run 1 {}] ++ [.run 0 {}, .run 0 {}]

/-- Its configuration. -/
noncomputable def overlappingConfig : Config :=
  ⟨100, true, .unary [wireAfter oneEntry.order overlappingWrite]⟩

/-- The write is stored with the index that names it. -/
theorem remote_index_consistent_overlapping :
    ∃ pool : Pool Daemon Call (List WriteRecord), ∃ data idx,
      pool.shared.objects.get indexKey = some data ∧
      decodeIndex overlappingConfig.codec 4096 data = some idx ∧
      idx.extents.get 2 = some [⟨chunkID 0, 0, 3, 0⟩] ∧
      RemoteConsistent overlappingConfig.codec pool.shared.objects pool.record := by
  have ends : ((daemonSys overlappingConfig).run logWrite recordsStored
      ⟨freshDaemon 8 4096 0 false, [], []⟩
      (overlappingWrite ++ [.run 0 oneEntry, .run 0 {}])).map
        (fun pool => ((pool.shared.objects.get indexKey).bind
          (decodeIndex overlappingConfig.codec 4096)).map fun idx => idx.extents.get 2) =
      some (some (some [⟨chunkID 0, 0, 3, 0⟩])) := by decide +kernel
  obtain ⟨pool, finished, shown⟩ := Option.map_eq_some_iff.mp ends
  obtain ⟨idx, decodes, extents⟩ := Option.map_eq_some_iff.mp shown
  obtain ⟨data, stored, decoded⟩ := Option.bind_eq_some_iff.mp decodes
  exact ⟨pool, data, idx, stored, decoded, extents, remote_index_consistent
    (.of_run (.start (freshDaemon_settled _ (by decide) 4096 0 false)) finished)⟩

/-- A write that comes between the flush of a persist run and its snapshot. -/
def racingWrite : List (Event Call Oracle) :=
  (Call.make .regular 1 [97] 0o644 0 0 1).alone 3 ++
    [.spawn .persist, .run 0 {}, .run 0 oneEntry, .run 0 {}, .run 0 {}, .run 0 {}, .run 0 {},
      .run 0 {}] ++
    [.spawn (.write 2 [7, 8, 9] 0 2), .run 1 {}, .run 1 {}, .run 1 {}, .run 1 {}, .run 0 {}]

/-- Its configuration. -/
noncomputable def racingConfig : Config :=
  ⟨100, true, .unary [wireAfter oneEntry.order racingWrite]⟩

/-- The stored index names a chunk that has no object. -/
theorem racing_write_not_stored :
    ∃ pool : Pool Daemon Call (List WriteRecord),
      Reachable (daemonSys racingConfig) logWrite (Settled racingConfig.codec) requestsOnly pool ∧
        ¬ RemoteConsistent racingConfig.codec pool.shared.objects pool.record := by
  have ends : ((daemonSys racingConfig).run logWrite requestsOnly
      ⟨freshDaemon 8 4096 0 false, [], []⟩ (racingWrite ++ [.run 0 oneEntry, .run 0 {}])).map
        (fun pool => (((pool.shared.objects.get indexKey).bind
          (decodeIndex racingConfig.codec 4096)).map fun idx => idx.extents.get 2,
            pool.shared.objects.get (chunkID 0))) =
      some (some (some [⟨chunkID 0, 0, 3, 0⟩]), none) := by decide +kernel
  obtain ⟨pool, finished, shown⟩ := Option.map_eq_some_iff.mp ends
  obtain ⟨decoding, absent⟩ := Prod.mk.inj shown
  obtain ⟨idx, decodes, extents⟩ := Option.map_eq_some_iff.mp decoding
  obtain ⟨data, stored, decoded⟩ := Option.bind_eq_some_iff.mp decodes
  refine ⟨pool, .of_run (.start (freshDaemon_settled _ (by decide) 4096 0 false)) finished,
    fun consistent => ?_⟩
  obtain ⟨w, -, -, -, -, -, -, object, found, -⟩ :=
    consistent data 4096 idx stored decoded 2 _ extents _ (List.mem_singleton_self _)
  rw [absent] at found
  cases found

end Fusey
