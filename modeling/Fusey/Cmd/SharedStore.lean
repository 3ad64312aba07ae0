import Fusey.Cmd.Main
import Fusey.Compaction.Encoding
import Fusey.Fuse.RemoteConsistency

/-!
Contract: a mounted daemon and a `fusey compact` process on one store, their
steps interleaved in any way.

Owns:
- the joint system, in which the process works on its own copy of the index and
  the two meet in the objects of the store only;
- which listed chunks the process may come to delete: those that the index it
  loaded does not name;
- that no data is lost in the runs in which the daemon names none of these when
  the process lists the store, and does not append to one afterwards;
- a run in which the process deletes a chunk of a file written after its load.
-/

set_option autoImplicit false

namespace Fusey

open Interleaving Compaction

/-! ### The joint system -/

/-- A call of the daemon, or the process. -/
inductive Task where
  | call (c : Call)
  | compact (p : CompactProcess)

inductive Task.Effect where
  | call (e : Fusey.Effect)
  | compact (e : CompactProcess.Effect)

inductive Task.Answer where
  | call (a : Fusey.Answer)
  | compact (a : CompactProcess.Answer)

structure Task.Oracle where
  call : Fusey.Oracle := {}
  compact : CompactProcess.Oracle := {}

inductive Task.Reply where
  | call (r : Fusey.Reply)
  | compact (ok : Bool)

/-- The daemon, and the local snapshot of the process. -/
abbrev Joint := Daemon × Option Bytes

namespace Task

def effect : Task → Effect
  | .call c => .call c.effect
  | .compact p => .compact p.effect

def apply (codec : CborCodec) (s : Joint) (e : Effect) (o : Oracle) : Option (Joint × Answer) :=
  match e with
  | .call e => (s.1.apply e o.call).map fun result => ((result.1, s.2), .call result.2)
  | .compact e =>
      (CompactProcess.apply codec mapStore (s.1.objects, s.2) e o.compact).map fun result =>
        (({ s.1 with objects := result.1.1 }, result.1.2), .compact result.2)

def resume (cfg : Config) : Task → Answer → Task ⊕ Reply
  | .call c, .call a => (c.resume cfg a).map .call .call
  | .compact p, .compact a => (p.resume a).map .compact .compact
  | _, _ => .inr (.compact false)

end Task

/-- The daemon and the process on one store. -/
def jointSys (cfg : Config) :
    Sys Joint Task.Effect Task.Answer Task.Oracle Task Task.Reply where
  apply := Task.apply cfg.codec
  effect := Task.effect
  resume := Task.resume cfg

/-- A task stays of its kind. -/
theorem Task.resume_call (cfg : Config) {c : Call} {a : Fusey.Answer} {t : Task}
    (continues : (Task.call c).resume cfg (.call a) = .inl t) :
    ∃ c', c.resume cfg a = .inl c' ∧ t = .call c' := by
  cases resumed : c.resume cfg a <;> simp only [Task.resume, resumed, Sum.map_inl,
    Sum.map_inr] at continues <;> cases continues
  exact ⟨_, rfl, rfl⟩

theorem Task.resume_compact (cfg : Config) {p : CompactProcess} {a : CompactProcess.Answer}
    {t : Task} (continues : (Task.compact p).resume cfg (.compact a) = .inl t) :
    ∃ p', p.resume a = .inl p' ∧ t = .compact p' := by
  cases resumed : p.resume a <;> simp only [Task.resume, resumed, Sum.map_inl,
    Sum.map_inr] at continues <;> cases continues
  exact ⟨_, rfl, rfl⟩

/-! ### What the process may delete -/

/-- An extent of the index names the chunk. -/
def Index.Names (idx : Index) (id : Key) : Prop :=
  ∃ ino ∈ idx.extents.keys, ∃ e ∈ (idx.extents.get ino).getD [], e.chunkID = id

instance (idx : Index) (id : Key) : Decidable (idx.Names id) := by
  unfold Index.Names
  infer_instance

/-- The listed chunks that the index does not name. -/
def unnamed (idx : Index) (ids : List Key) : List Key := ids.filter fun id => ¬ idx.Names id

/-- The log of the writes, without those into chunks that the process may
delete, and these chunks. -/
structure History where
  log : List WriteRecord
  doomed : List Key

/-- The listing dooms the chunks that the loaded index does not name; once the
process has ended nothing is doomed. -/
def History.note (h : History) : Task → Task.Answer → History
  | .call c, .call a => { h with log := logWrite h.log c a }
  | .compact (.compacting run), .compact (.compact a) =>
      match run.resume a with
      | .inr _ => { h with doomed := [] }
      | .inl _ =>
          match run.stage, a with
          | .listing, .listed (some ids) =>
              { log := h.log.filter fun w => w.ext.chunkID ∉ unnamed run.idx ids
                doomed := unnamed run.idx ids }
          | _, _ => h
  | _, _ => h

instance (live : Key → Prop) [DecidablePred live] (idx : Index) : Decidable (idx.Within live) :=
  decidable_of_iff
    (∀ ino ∈ idx.extents.keys, ∀ e ∈ (idx.extents.get ino).getD [], live e.chunkID) <| by
      constructor
      · intro each ino exts stored e member
        refine each ino (GoMap.mem_keys.mpr ⟨exts, stored⟩) e ?_
        rw [stored]
        exact member
      · intro within ino known e member
        obtain ⟨exts, stored⟩ := GoMap.mem_keys.mp known
        rw [stored] at member
        exact within ino exts stored e member

instance (codec : CborCodec) (live : Key → Prop) [DecidablePred live] (data : Bytes) :
    Decidable (DataWithin codec live data) :=
  decidable_of_iff (∀ idx ∈ decodeIndex codec 0 data, idx.Within live) <| by
    constructor
    · intro each blockSize idx decoded ino exts stored
      obtain ⟨ws, unmarshalled, rfl⟩ := Option.map_eq_some_iff.mp decoded
      have same : decodeIndex codec 0 data = some (.fromSnapshot (fromWireSnapshot ws) 0) := by
        rw [decodeIndex, unmarshalled, Option.map_some]
      exact each _ same ino exts stored
    · exact fun within idx decoded => within 0 idx decoded

instance (codec : CborCodec) (live : Key → Prop) [DecidablePred live] (c : Call) :
    Decidable (c.Within codec live) := by
  induction c using Call.casesOn <;> dsimp only [Call.Within] <;> infer_instance

/-- What the call is about to record or to store. -/
def Task.Within (codec : CborCodec) (live : Key → Prop) : Task → Prop
  | .call c => c.Within codec live
  | .compact _ => True

instance (codec : CborCodec) (live : Key → Prop) [DecidablePred live] (t : Task) :
    Decidable (t.Within codec live) := by
  induction t using Task.casesOn <;> dsimp only [Task.Within] <;> infer_instance

/-- Neither the daemon's index, nor a write that is yet to be recorded, nor a
snapshot that is yet to be stored, nor the stored index names a chunk of
`gone`. -/
def Spared (codec : CborCodec) (pool : Pool Joint Task History) (gone : List Key) : Prop :=
  pool.shared.1.idx.Within (· ∉ gone) ∧
    (∀ data ∈ pool.shared.1.objects.get indexKey, DataWithin codec (· ∉ gone) data) ∧
    ∀ t ∈ pool.threads, t.Within codec (· ∉ gone)

instance (codec : CborCodec) (pool : Pool Joint Task History) (gone : List Key) :
    Decidable (Spared codec pool gone) := by
  unfold Spared
  infer_instance

/-- The data a call is about to append. -/
def Call.appending : Call → Option Bytes
  | .writeAppend _ data _ _ => some data
  | _ => none

def Task.IsMarshalling : Task → Prop
  | .call c => c.IsMarshalling
  | .compact _ => False

instance (t : Task) : Decidable t.IsMarshalling := by
  induction t using Task.casesOn <;> dsimp only [Task.IsMarshalling] <;> infer_instance

/-- The requests of this system: `Seal` is one, and a write brings a byte. -/
def Call.IsSharedRequest : Call → Prop
  | .sealActive => True
  | .write _ data off _ => GoInt.IsInt64 off ∧ data ≠ []
  | c => c.IsRequest

instance (c : Call) : Decidable c.IsSharedRequest := by
  induction c using Call.casesOn <;> dsimp only [Call.IsSharedRequest] <;> infer_instance

/-- When a task may go on: while a persist run is between its flush and its
snapshot only stored extents are recorded, no append goes into a doomed chunk,
and the listing of the process spares what the daemon names. -/
def Task.MayRun (codec : CborCodec) (pool : Pool Joint Task History) (o : Task.Oracle) :
    Task → Prop
  | .call c =>
      (∀ ext ∈ c.recording, (∃ t ∈ pool.threads, t.IsMarshalling) →
        InObject pool.shared.1.objects ext) ∧
      ∀ data ∈ c.appending, pool.shared.1.cs.activeID ∈ pool.record.doomed →
        pool.shared.1.cs.maxChunkSize < pool.shared.1.cs.activeBuf.length + data.length
  | .compact (.compacting run) =>
      run.stage.IsListing → Spared codec pool (unnamed run.idx o.compact.compact.ids)
  | .compact _ => True

instance (codec : CborCodec) (pool : Pool Joint Task History) (o : Task.Oracle) (t : Task) :
    Decidable (t.MayRun codec pool o) := by
  induction t using Task.casesOn with
  | call c =>
      dsimp only [Task.MayRun]
      infer_instance
  | compact p =>
      induction p using CompactProcess.casesOn <;> dsimp only [Task.MayRun] <;> infer_instance

/-- Which events may happen. -/
def coordinated (codec : CborCodec) (pool : Pool Joint Task History) :
    Event Task Task.Oracle → Prop
  | .spawn (.call c) => c.IsSharedRequest
  | .spawn (.compact _) => False
  | .run i o => ∀ t ∈ pool.threads[i]?, t.MayRun codec pool o

instance (codec : CborCodec) (pool : Pool Joint Task History) (event : Event Task Task.Oracle) :
    Decidable (coordinated codec pool event) := by
  induction event using Event.casesOn with
  | spawn t => induction t using Task.casesOn <;> dsimp only [coordinated] <;> infer_instance
  | run i o =>
      dsimp only [coordinated]
      infer_instance

/-- Every extent of a sealed chunk in the daemon's index, and every extent of
the stored index, lies in an object that holds what was written there. -/
def DataIntact (codec : CborCodec) (d : Daemon) (log : List WriteRecord) : Prop :=
  (∀ ino exts, d.idx.extents.get ino = some exts → ∀ e ∈ exts, e.chunkID ≠ d.cs.activeID →
    ∃ w ∈ log, w.ino = ino ∧ e.Shows d.objects w) ∧
    RemoteConsistent codec d.objects log

/-! ### The invariant -/

/-- The ledger is balanced, nothing in it is doomed, and no doomed chunk will be
minted. -/
structure Guarded (codec : CborCodec) (s : Joint) (h : History) : Prop where
  ledger : Ledger codec true s.1 h.log
  spared : ∀ w ∈ h.log, w.ext.chunkID ∉ h.doomed
  minting : ∀ seq, s.1.cs.nextSeq ≤ seq → chunkID seq ∉ h.doomed

/-- The process has loaded an index whose extents are stored. -/
def Loaded (d : Daemon) (log : List WriteRecord) (idx : Index) : Prop :=
  idx.PiecesOf fun ino e => Logged log ino e ∧ InObject d.objects e

/-- What the process has found out: its targets are doomed or named by the index
it loaded, and doomed once it deletes. -/
def CompactProcess.Knows (s : Joint) (h : History) : CompactProcess → Prop
  | .recovering .. | .loading .. => s.2 = none
  | .compacting run => ∃ idx order, ListsExtents idx order ∧ Loaded s.1 h.log idx ∧
      run.Tracked (fun id => id ∈ h.doomed ∨ idx.Names id) (fun _ _ => True) idx
        (Index.liveExtents order) ∧
      ∀ targets packing id pending, run.stage = .deleting targets packing id pending →
        ∀ x ∈ targets, x ∈ h.doomed

/-- What a task knows. -/
def Task.Knows (codec : CborCodec) (s : Joint) (h : History) : Task → Prop
  | .call c => c.Sound ∧ c.Backs codec true s.1 h.log ∧ ∀ ext ∈ c.recording, ext.chunkID ∉ h.doomed
  | .compact p => p.Knows s h

theorem Guarded.dataIntact {codec : CborCodec} {s : Joint} {h : History}
    (guarded : Guarded codec s h) : DataIntact codec s.1 h.log := by
  refine ⟨fun ino exts stored e member inactive => ?_, guarded.ledger.remoteConsistent⟩
  obtain ⟨-, whole, logged, isPart⟩ := guarded.ledger.pieces ino exts stored e member
  obtain ⟨w, inLog, isIno, rfl⟩ := logged.written
  have kept := guarded.ledger.writes w inLog
  have inside : InObject s.1.objects w.ext := by
    rcases kept.backed with inside | ⟨active, -⟩
    · exact inside
    · exact absurd (isPart.chunk.trans active) inactive
  exact ⟨w, inLog, isIno, kept.shows guarded.ledger.consistent inside isPart⟩

/-- What is known to be stored of logged extents names no doomed chunk. -/
theorem within_of_logged {log : List WriteRecord} {doomed : List Key} {idx : Index}
    {P : Ino → Extent → Prop} (spared : ∀ w ∈ log, w.ext.chunkID ∉ doomed)
    (pieces : idx.PiecesOf P) (logged : ∀ ino e, P ino e → Logged log ino e) :
    idx.Within (· ∉ doomed) := by
  intro ino exts stored e member
  obtain ⟨-, whole, holds, isPart⟩ := pieces ino exts stored e member
  obtain ⟨w, inLog, -, rfl⟩ := (logged ino whole holds).written
  rw [isPart.chunk]
  exact spared w inLog

/-! ### Steps of the daemon -/

section CallStep

variable {cfg : Config} {s : Joint} {h : History} {c : Call} {o : Fusey.Oracle} {d' : Daemon}
  {a : Fusey.Answer}

theorem Guarded.of_call (guarded : Guarded cfg.codec s h)
    (knows : (Task.call c).Knows cfg.codec s h)
    (applied : s.1.apply c.effect o = some (d', a)) :
    Guarded cfg.codec (d', s.2) { h with log := logWrite h.log c a } := by
  obtain ⟨sound, backs, recording⟩ := knows
  refine ⟨guarded.ledger.of_apply sound backs applied, ?_, ?_⟩
  · intro w member
    rcases mem_logWrite member with old | ⟨now, rfl⟩
    · exact guarded.spared w old
    · exact recording w.ext rfl
  · intro seq later
    refine guarded.minting seq (Nat.le_trans ?_ later)
    rcases Daemon.apply_store applied with moves | ⟨data, -, rfl⟩
    · exact (moves.kept guarded.ledger.consistent).nextSeq
    · exact le_rfl

/-- A write that goes on to record has not appended to a doomed chunk. -/
theorem recording_of_follows (guarded : Guarded cfg.codec s h)
    (appends : ∀ data ∈ c.appending, s.1.cs.activeID ∈ h.doomed →
      s.1.cs.maxChunkSize < s.1.cs.activeBuf.length + data.length)
    (applied : s.1.apply c.effect o = some (d', a)) {c' : Call} (follows : c.Follows cfg a c') :
    ∀ ext ∈ c'.recording, ext.chunkID ∉ h.doomed := by
  intro ext isRecording isDoomed
  cases follows
  case writeRecord ino data off now ext' =>
    cases isRecording
    rcases Daemon.apply_append_chunk applied with ⟨active, -, fits⟩ | next
    · rw [active] at isDoomed
      have := appends data rfl isDoomed
      omega
    · rw [next] at isDoomed
      exact guarded.minting _ le_rfl isDoomed
  case readFirst | readNext =>
    unfold Call.nextRead at isRecording
    split at isRecording <;> cases isRecording
  all_goals cases isRecording

/-- What a call knows when it goes on. -/
theorem Task.Knows.of_follows (knows : (Task.call c).Knows cfg.codec s h)
    (guarded : Guarded cfg.codec s h)
    (appends : ∀ data ∈ c.appending, s.1.cs.activeID ∈ h.doomed →
      s.1.cs.maxChunkSize < s.1.cs.activeBuf.length + data.length)
    (applied : s.1.apply c.effect o = some (d', a)) {c' : Call} (follows : c.Follows cfg a c') :
    (Task.call c').Knows cfg.codec (d', s.2) { h with log := logWrite h.log c a } := by
  obtain ⟨sound, backs, -⟩ := knows
  exact ⟨sound.of_follows guarded.ledger.sound applied follows,
    backs.of_follows guarded.ledger sound applied follows,
    recording_of_follows guarded appends applied follows⟩

/-- What the process knows survives a step of the daemon. -/
theorem CompactProcess.Knows.of_call {p : CompactProcess} (knows : p.Knows s h)
    (carries : Carries true anyChunk s.1 d') :
    p.Knows (d', s.2) { h with log := logWrite h.log c a } := by
  cases p with
  | recovering params blockSize files => exact knows
  | loading params blockSize cs => exact knows
  | compacting run =>
      obtain ⟨idx, order, lists, loaded, tracked, deletes⟩ := knows
      refine ⟨idx, order, lists, loaded.mono ?_, tracked, deletes⟩
      rintro ino e ⟨logged, inside⟩
      exact ⟨logged.mono fun w old _ => mem_logWrite_of_mem old c a,
        carries.stored e trivial logged.minted inside⟩

/-- What the other tasks know does too, if what the step records beside a
marshalling persist run is stored. -/
theorem Task.Knows.of_call {u : Task} (other : u.Knows cfg.codec s h)
    (guarded : Guarded cfg.codec s h) (knows : (Task.call c).Knows cfg.codec s h)
    (applied : s.1.apply c.effect o = some (d', a))
    (recorded : u.IsMarshalling → ∀ ext ∈ c.recording, InObject s.1.objects ext) :
    u.Knows cfg.codec (d', s.2) { h with log := logWrite h.log c a } := by
  obtain ⟨-, backs, -⟩ := knows
  cases u with
  | call u =>
      obtain ⟨otherSound, otherBacks, otherRecording⟩ := other
      exact ⟨otherSound, otherBacks.of_other guarded.ledger backs applied recorded, otherRecording⟩
  | compact p =>
      exact CompactProcess.Knows.of_call other
        (Daemon.carries_of_apply true guarded.ledger.consistent applied backs.sealing)

end CallStep

/-! ### Steps of the process -/

/-- What a step of the process may do to the objects: chunks that are not doomed
stay, no chunk appears, and an index it stores has its extents stored. -/
structure Harmless (codec : CborCodec) (d : Daemon) (h : History) (objects : Objects) : Prop where
  same : ∀ seq, chunkID seq ∉ h.doomed → objects.get (chunkID seq) = d.objects.get (chunkID seq)
  smaller : ∀ seq object, objects.get (chunkID seq) = some object →
    d.objects.get (chunkID seq) = some object
  remote : ∀ data, objects.get indexKey = some data →
    d.objects.get indexKey = some data ∨ Known codec d.objects h.log data

section ProcessStep

variable {codec : CborCodec} {s : Joint} {h : History} {run run' : Run} {o : Compaction.Oracle}
  {a : Compaction.Answer} {objects' : Objects} {snapshot' : Option Bytes}

theorem Harmless.refl (codec : CborCodec) (d : Daemon) (h : History) :
    Harmless codec d h d.objects :=
  ⟨fun _ _ => rfl, fun _ _ => id, fun _ => Or.inl⟩

/-- A put under a key that is neither a chunk's nor the index's. -/
theorem Harmless.set_other {d : Daemon} {key : Key} (notChunk : ∀ seq, key ≠ chunkID seq)
    (notIndex : key ≠ indexKey) (data : Bytes) :
    Harmless codec d h (d.objects.set key data) where
  same seq _ := GoMap.get_set_ne _ _ (notChunk seq).symm
  smaller seq _ stored := (GoMap.get_set_ne _ _ (notChunk seq).symm).symm.trans stored
  remote _ stored := Or.inl ((GoMap.get_set_ne _ _ notIndex.symm).symm.trans stored)

theorem Harmless.set_index {d : Daemon} {data : Bytes} (known : Known codec d.objects h.log data) :
    Harmless codec d h (d.objects.set indexKey data) where
  same seq _ := GoMap.get_set_ne _ _ (chunkID_ne_indexKey seq)
  smaller seq object stored :=
    (GoMap.get_set_ne _ _ (chunkID_ne_indexKey seq)).symm.trans stored
  remote data' stored := by
    rw [GoMap.get_set_self] at stored
    cases stored
    exact Or.inr known

theorem Harmless.delete {d : Daemon} {id : Key} (isDoomed : id ∈ h.doomed) :
    Harmless codec d h (d.objects.delete id) := by
  have shrinks : ∀ key object, (d.objects.delete id).get key = some object →
      d.objects.get key = some object := by
    intro key object stored
    rw [GoMap.get_delete] at stored
    split_ifs at stored
    exact stored
  refine ⟨fun seq alive => ?_, fun seq => shrinks _, fun data stored => Or.inl (shrinks _ _ stored)⟩
  exact GoMap.get_delete_ne _ fun isIt => alive (isIt ▸ isDoomed)

/-- The targets of a run that has encoded its index are doomed, and the index it
encoded is the one it loaded. -/
theorem encoded_of_persisting {idx : Index} {order : List (Ino × List Extent)}
    (lists : ListsExtents idx order) (loaded : Loaded s.1 h.log idx)
    (tracked : run.Tracked (fun id => id ∈ h.doomed ∨ idx.Names id) (fun _ _ => True) idx
      (Index.liveExtents order)) {targets : List Key} {packing : Packing}
    (stage : run.stage = .persisting targets packing) {dirOrder : List DirEntry} {data : Bytes}
    (encoded : encodeSnapshot codec (run.idx.snapshot dirOrder) = some data) :
    (∀ x ∈ targets, x ∈ h.doomed) ∧ Known codec s.1.objects h.log data := by
  obtain ⟨-, holds⟩ := tracked
  rw [stage] at holds
  obtain ⟨remapped, listed, packed⟩ := holds
  rw [remapped] at encoded
  have untouched := untouched_of_encodeSnapshot lists packed encoded
  rw [snapshot_remapExtents (packed.remap_empty untouched)] at encoded
  constructor
  · intro x isTarget
    rcases listed x isTarget with isDoomed | ⟨ino, -, e, member, named⟩
    · exact isDoomed
    · cases stored : idx.extents.get ino with
      | none =>
          rw [stored] at member
          cases member
      | some exts =>
          rw [stored] at member
          have live := (mem_liveExtents lists).mpr ⟨ino, exts, stored, member⟩
          exact absurd (named ▸ isTarget) (untouched e live)
  · intro blockSize idx' decoded
    have minted : idx.PiecesOf fun _ => MintedExtent := loaded.mono fun _ _ facts => facts.1.minted
    intro ino exts stored
    rw [extents_of_decodeIndex (fun _ _ => minted.minted) encoded decoded] at stored
    exact loaded ino exts stored

/-- No step of a run that knows its targets does harm. -/
theorem harmless_of_compacting (knows : (CompactProcess.compacting run).Knows s h)
    (applied : Compaction.apply mapStore (compactPersist codec mapStore) (s.1.objects, s.2)
      run.effect o = some ((objects', snapshot'), a)) : Harmless codec s.1 h objects' := by
  obtain ⟨idx, order, lists, loaded, tracked, deletes⟩ := knows
  rcases Run.apply_cases applied with same | ⟨targets, packing, output, pending, stage, same⟩ |
    ⟨targets, packing, stage, same, -⟩ | ⟨targets, packing, id, pending, stage, same⟩
  · cases same
    exact .refl codec s.1 h
  · cases same
    obtain ⟨-, holds⟩ := tracked
    rw [stage] at holds
    obtain ⟨-, -, packed, rest⟩ := holds
    have isOutput : output ∈ packing.outputs := rest.subset (List.mem_cons_self ..)
    obtain ⟨k, isCompacted⟩ := packed.output_id (mem_outputs.mp isOutput).1
    refine .set_other (fun seq => ?_) ?_ output.buf
    · rw [isCompacted]
      exact compactedID_ne_chunkID _ _ seq
    · rw [isCompacted]
      exact compactedID_ne_indexKey _ _
  · rcases compactPersist_cases codec mapStore run.idx o (s.1.objects, s.2) with
      failed | ⟨data, -, encoded, failed | ⟨ok, stored⟩⟩
    · rw [failed] at same
      cases same
      exact .refl codec s.1 h
    · rw [failed] at same
      cases same
      exact .refl codec s.1 h
    · rw [stored] at same
      cases same
      exact .set_index (encoded_of_persisting lists loaded tracked stage encoded).2
  · cases same
    refine .delete (deletes targets packing id pending stage id ?_)
    obtain ⟨-, holds⟩ := tracked
    rw [stage] at holds
    exact holds.2.2.2.subset (List.mem_cons_self ..)

/-- No chunk that is not doomed loses bytes. -/
theorem Harmless.carries (harmless : Harmless codec s.1 h objects') :
    Carries true (· ∉ h.doomed) s.1 { s.1 with objects := objects' } :=
  .of_objects harmless.same

theorem Guarded.of_harmless (guarded : Guarded codec s h)
    (harmless : Harmless codec s.1 h objects') :
    Guarded codec ({ s.1 with objects := objects' }, snapshot') h := by
  have keeps : ∀ w ∈ h.log, w.ext.chunkID ∉ h.doomed → w ∈ h.log := fun _ member _ => member
  have logged : ∀ ino e, Logged h.log ino e ∧ InObject s.1.objects e → Logged h.log ino e :=
    fun _ _ => And.left
  refine ⟨?_, guarded.spared, guarded.minting⟩
  refine guarded.ledger.carries harmless.carries rfl rfl
    (guarded.ledger.consistent.of_objects harmless.smaller)
    (within_of_logged guarded.spared guarded.ledger.pieces fun _ _ => id)
    (fun w member => ⟨member, guarded.spared w member⟩) keeps fun data stored => ?_
  have known : Known codec s.1.objects h.log data := by
    rcases harmless.remote data stored with old | known
    · exact guarded.ledger.remote data old
    · exact known
  exact known.carries (fun blockSize idx decoded =>
    within_of_logged guarded.spared (known blockSize idx decoded) logged) harmless.carries keeps

/-- What a call knows survives a harmless step. -/
theorem Task.Knows.of_harmless (guarded : Guarded codec s h)
    (harmless : Harmless codec s.1 h objects') {c : Call} (knows : (Task.call c).Knows codec s h) :
    (Task.call c).Knows codec ({ s.1 with objects := objects' }, snapshot') h := by
  obtain ⟨sound, backs, recording⟩ := knows
  refine ⟨sound, backs.carries ?_ harmless.carries (fun _ member _ => member) ?_, recording⟩
  · cases c <;> try trivial
    case writeRecord ino data ext now => exact recording ext rfl
    case persistPut data =>
      exact fun blockSize idx decoded => within_of_logged guarded.spared
        (backs blockSize idx decoded) fun _ _ => And.left
  · intro marshalling w member
    exact harmless.carries.stored w.ext (guarded.spared w member)
      (guarded.ledger.writes w member).minted (backs.marshalled marshalling w member)

theorem Loaded.of_harmless (guarded : Guarded codec s h)
    (harmless : Harmless codec s.1 h objects') {idx : Index} (loaded : Loaded s.1 h.log idx) :
    Loaded { s.1 with objects := objects' } h.log idx := by
  refine Index.PiecesOf.relog loaded (within_of_logged guarded.spared loaded fun _ _ => And.left) ?_
  rintro ino e alive ⟨logged, inside⟩
  exact ⟨logged, harmless.carries.stored e alive logged.minted inside⟩

/-! ### The listing -/

/-- The log without the records of the chunks that a listing dooms. -/
theorem Guarded.of_listing (guarded : Guarded codec s h) {gone : List Key}
    (exist : ∀ id ∈ gone, ∃ object, s.1.objects.get id = some object)
    (within : s.1.idx.Within (· ∉ gone))
    (remote : ∀ data ∈ s.1.objects.get indexKey, DataWithin codec (· ∉ gone) data) :
    Guarded codec s ⟨h.log.filter fun w => w.ext.chunkID ∉ gone, gone⟩ := by
  have carries : Carries true (· ∉ gone) s.1 s.1 := ⟨fun _ _ => id, fun _ _ _ => id⟩
  have keeps : ∀ w ∈ h.log, w.ext.chunkID ∉ gone →
      w ∈ h.log.filter fun w => w.ext.chunkID ∉ gone := fun w member alive =>
    List.mem_filter.mpr ⟨member, by simpa using alive⟩
  have shrinks : ∀ w ∈ h.log.filter fun w => w.ext.chunkID ∉ gone,
      w ∈ h.log ∧ w.ext.chunkID ∉ gone := fun w member => by
    simpa using List.mem_filter.mp member
  refine ⟨?_, fun w member => (shrinks w member).2, fun seq later isGone => ?_⟩
  · exact guarded.ledger.carries carries rfl rfl guarded.ledger.consistent within shrinks keeps
      fun data stored => (guarded.ledger.remote data stored).carries
        (remote data stored) carries keeps
  · obtain ⟨object, stored⟩ := exist _ isGone
    rw [guarded.ledger.consistent.fresh seq later] at stored
    cases stored

theorem Task.Knows.of_listing {gone : List Key} {c : Call} (knows : (Task.call c).Knows codec s h)
    (within : c.Within codec (· ∉ gone)) :
    (Task.call c).Knows codec s ⟨h.log.filter fun w => w.ext.chunkID ∉ gone, gone⟩ := by
  have carries : Carries true (· ∉ gone) s.1 s.1 := ⟨fun _ _ => id, fun _ _ _ => id⟩
  obtain ⟨sound, backs, -⟩ := knows
  refine ⟨sound, backs.carries within carries (fun w member alive => ?_) ?_, ?_⟩
  · exact List.mem_filter.mpr ⟨member, by simpa using alive⟩
  · intro marshalling w member
    have old : w ∈ h.log := (List.mem_filter.mp member).1
    exact backs.marshalled marshalling w old
  · intro ext recording
    cases c <;> cases recording
    exact within

/-! ### The whole step of the process -/

/-- Nothing is doomed once the process has ended. -/
theorem Guarded.ended (guarded : Guarded codec s h) : Guarded codec s { h with doomed := [] } :=
  ⟨guarded.ledger, fun _ _ => List.not_mem_nil, fun _ _ => List.not_mem_nil⟩

/-- What a step of the process leaves to the daemon, to the calls under way and
to the process. -/
structure Advanced (codec : CborCodec) (s : Joint) (h : History) (calls : Call → Prop)
    (next : CompactProcess ⊕ Bool) : Prop where
  guarded : Guarded codec s h
  calls : ∀ c, calls c → (Task.call c).Knows codec s h
  process : ∀ p, next = .inl p → p.Knows s h

variable {calls : Call → Prop}

/-- The listing, which `Spared` lets happen. -/
theorem Advanced.of_listing (guarded : Guarded codec s h)
    (others : ∀ c, calls c → (Task.call c).Knows codec s h)
    (knows : (CompactProcess.compacting run).Knows s h) (stage : run.stage = .listing)
    {ids : List Key} (exist : ∀ id ∈ ids, ∃ object, s.1.objects.get id = some object)
    (within : s.1.idx.Within (· ∉ unnamed run.idx ids))
    (remote : ∀ data ∈ s.1.objects.get indexKey, DataWithin codec (· ∉ unnamed run.idx ids) data)
    (called : ∀ c, calls c → c.Within codec (· ∉ unnamed run.idx ids))
    (continues : run.resume (.listed (some ids)) = .inl run') :
    Advanced codec s
      ⟨h.log.filter fun w => w.ext.chunkID ∉ unnamed run.idx ids, unnamed run.idx ids⟩ calls
      (.inl (.compacting run')) := by
  obtain ⟨idx, order, lists, loaded, ⟨isLive, holds⟩, -⟩ := knows
  rw [stage] at holds
  have same : run.idx = idx := holds
  rw [same] at within remote called ⊢
  refine ⟨guarded.of_listing (fun id member => exist id (List.mem_filter.mp member).1) within
      remote, fun c here => (others c here).of_listing (called c here), ?_⟩
  rintro p ⟨⟩
  have apart : idx.Within (· ∉ unnamed idx ids) := by
    intro ino exts stored e member isGone
    have notNamed := (List.mem_filter.mp isGone).2
    refine absurd ⟨ino, GoMap.mem_keys.mpr ⟨exts, stored⟩, e, ?_, rfl⟩ (of_decide_eq_true notNamed)
    rw [stored]
    exact member
  refine ⟨idx, order, lists, Index.PiecesOf.relog loaded apart ?_, ?_, ?_⟩
  · rintro ino e alive ⟨logged, inside⟩
    refine ⟨logged.mono fun w member same => List.mem_filter.mpr ⟨member, ?_⟩, inside⟩
    rw [same]
    simpa using alive
  · have tracked : run.Tracked (fun id => id ∈ unnamed idx ids ∨ idx.Names id) (fun _ _ => True) idx
        (Index.liveExtents order) := ⟨isLive, by rw [stage]; exact same⟩
    refine tracked.resume ?_ (fun _ _ _ _ _ _ _ _ => trivial) continues
    rintro - ids' ⟨⟩ x member
    by_cases named : idx.Names x
    · exact Or.inr named
    · exact Or.inl (List.mem_filter.mpr ⟨member, by simpa using named⟩)
  · intro targets packing id pending deleting
    rcases Run.deleting_of_resume continues deleting with ⟨other, -⟩ | ⟨_, other⟩ <;>
      rw [stage] at other <;> cases other

/-- Any other step of a compaction run. -/
theorem Advanced.of_compacting (guarded : Guarded codec s h)
    (others : ∀ c, calls c → (Task.call c).Knows codec s h)
    (knows : (CompactProcess.compacting run).Knows s h)
    (applied : Compaction.apply mapStore (compactPersist codec mapStore) (s.1.objects, s.2)
      run.effect o = some ((objects', snapshot'), a))
    (notListing : ∀ ids, run.stage = .listing → a ≠ .listed (some ids))
    (continues : run.resume a = .inl run') :
    Advanced codec ({ s.1 with objects := objects' }, snapshot') h calls
      (.inl (.compacting run')) := by
  have harmless := harmless_of_compacting knows applied
  refine ⟨guarded.of_harmless harmless, fun c here => (others c here).of_harmless guarded harmless,
    ?_⟩
  rintro p ⟨⟩
  obtain ⟨idx, order, lists, loaded, tracked, deletes⟩ := knows
  refine ⟨idx, order, lists, loaded.of_harmless guarded harmless,
    tracked.resume (fun stage ids listed => absurd listed (notListing ids stage))
      (fun _ _ _ _ _ _ _ _ => trivial) continues, ?_⟩
  intro targets packing id pending deleting
  rcases Run.deleting_of_resume continues deleting with ⟨stage, persisted⟩ | ⟨earlier, stage⟩
  · have answered : a = .ended (compactPersist codec mapStore run.idx o (s.1.objects, s.2)).2 := by
      unfold Run.effect at applied
      rw [stage] at applied
      simp only [Compaction.apply, Option.some.injEq, Prod.mk.injEq] at applied
      exact applied.2.symm
    rw [persisted] at answered
    rcases compactPersist_cases codec mapStore run.idx o (s.1.objects, s.2) with
      failed | ⟨data, -, encoded, -⟩
    · rw [failed] at answered
      cases answered
    · exact (encoded_of_persisting lists loaded tracked stage encoded).1
  · exact deletes targets packing earlier (id :: pending) stage

/-- What `loadIndex` takes from the store is stored. -/
theorem Loaded.of_loadIndex (guarded : Guarded codec s h) {blockSize : Int} {o : LoadOracle}
    {idx : Index} {snapshot : Option Bytes}
    (loads : loadIndex codec blockSize mapStore o s.1.objects none = some (idx, snapshot)) :
    Loaded s.1 h.log idx := by
  rcases loadIndex_none loads with ⟨-, rfl⟩ | ⟨data, stored, decoded⟩
  · exact fun ino exts stored => by cases stored
  · exact guarded.ledger.remote data stored blockSize idx decoded

theorem Advanced.of_process (calls : Call → Prop) (guarded : Guarded codec s h)
    (others : ∀ c, calls c → (Task.call c).Knows codec s h) {p : CompactProcess}
    (knows : p.Knows s h) {o : CompactProcess.Oracle} {r : Objects × Option Bytes}
    {a : CompactProcess.Answer}
    (applied : CompactProcess.apply codec mapStore (s.1.objects, s.2) p.effect o = some (r, a))
    (spared : ∀ run, p = .compacting run → run.stage = .listing →
      s.1.idx.Within (· ∉ unnamed run.idx o.compact.ids) ∧
        (∀ data ∈ s.1.objects.get indexKey,
          DataWithin codec (· ∉ unnamed run.idx o.compact.ids) data) ∧
        ∀ c, calls c → c.Within codec (· ∉ unnamed run.idx o.compact.ids)) :
    Advanced codec ({ s.1 with objects := r.1 }, r.2) (h.note (.compact p) (.compact a)) calls
      (p.resume a) := by
  cases p with
  | recovering params blockSize files =>
      simp only [CompactProcess.effect, CompactProcess.apply] at applied
      split_ifs at applied <;> cases applied
      · exact ⟨guarded, others, fun p continues => by cases continues⟩
      · exact ⟨guarded, others, fun p continues => by cases continues; exact knows⟩
  | loading params blockSize cs =>
      have fresh : s.2 = none := knows
      have stays := Harmless.refl codec s.1 h
      simp only [CompactProcess.effect, CompactProcess.apply, fresh] at applied
      split at applied
      next =>
        cases applied
        exact ⟨guarded.of_harmless stays, fun c here => (others c here).of_harmless guarded stays,
          fun p continues => by cases continues⟩
      next idx snapshot loads =>
        split_ifs at applied with lists
        cases applied
        refine ⟨guarded.of_harmless stays, fun c here => (others c here).of_harmless guarded stays,
          fun p continues => ?_⟩
        cases continues
        exact ⟨idx, o.extents, lists, .of_loadIndex guarded loads, ⟨rfl, rfl⟩,
          fun _ _ _ _ deleting => by cases deleting⟩
  | compacting run =>
      obtain ⟨⟨⟨objects', snapshot'⟩, a'⟩, ran, same⟩ := Option.map_eq_some_iff.mp applied
      cases same
      have harmless := harmless_of_compacting knows ran
      simp only [CompactProcess.resume, History.note]
      cases continues : run.resume a' with
      | inr reply =>
          refine ⟨(guarded.of_harmless harmless).ended, fun c here => ?_, fun p impossible => by
            cases impossible⟩
          obtain ⟨sound, backs, -⟩ := (others c here).of_harmless guarded harmless
          exact ⟨sound, backs, fun _ _ => List.not_mem_nil⟩
      | inl run' =>
          dsimp only [Sum.map_inl]
          split
          next ids stage =>
            obtain ⟨within, remote, called⟩ := spared run rfl stage
            simp only [Run.effect, stage, Compaction.apply] at ran
            split_ifs at ran with refused listed <;> cases ran
            refine .of_listing guarded others knows stage (fun id member => ?_) within remote called
              continues
            have inListing : id ∈ o.compact.ids.toFinset := List.mem_toFinset.mpr member
            rw [listed] at inListing
            exact (mem_mapStore_list.mp (Finset.mem_of_mem_erase inListing)).2
          next other =>
            refine .of_compacting guarded others knows ran (fun ids stage listed => ?_) continues
            exact other ids stage listed

end ProcessStep

/-! ### Every run -/

/-- One process is about to start beside a daemon without calls under way. -/
def ProcessStarts (codec : CborCodec) (pool : Pool Joint Task History) : Prop :=
  (∃ params blockSize files,
    pool.threads = [.compact (.recovering params blockSize files)]) ∧
    pool.shared.2 = none ∧ pool.record.doomed = [] ∧
    Ledger codec true pool.shared.1 pool.record.log

def Task.isProcess : Task → Bool
  | .call _ => false
  | .compact _ => true

theorem Task.isProcess_of_resume {cfg : Config} {t t' : Task} {a : Task.Answer}
    (continues : t.resume cfg a = .inl t') : t'.isProcess = t.isProcess := by
  cases t <;> cases a
  · obtain ⟨c', -, rfl⟩ := Task.resume_call cfg continues
    rfl
  · cases continues
  · cases continues
  · obtain ⟨p', -, rfl⟩ := Task.resume_compact cfg continues
    rfl

/-- There is never more than one process. -/
theorem one_process {cfg : Config} {pool next : Pool Joint Task History}
    {event : Event Task Task.Oracle} (one : pool.threads.countP Task.isProcess ≤ 1)
    (admitted : coordinated cfg.codec pool event)
    (taken : (jointSys cfg).step History.note pool event = some next) :
    next.threads.countP Task.isProcess ≤ 1 := by
  rcases Sys.step_cases taken with
    ⟨t, rfl, rfl⟩ | ⟨before, t, after, o, s, a, -, split, -, rfl⟩
  · cases t with
    | compact p => exact admitted.elim
    | call c =>
        rw [List.countP_append]
        exact one
  · have kept : (remaining ((jointSys cfg).resume t a)).countP Task.isProcess ≤
        [t].countP Task.isProcess := by
      cases continues : (jointSys cfg).resume t a with
      | inr reply => exact Nat.zero_le _
      | inl t' =>
          have same := Task.isProcess_of_resume continues
          simp only [remaining, List.countP_singleton, same, le_rfl]
    rw [split, ← List.singleton_append, List.countP_append, List.countP_append] at one
    rw [List.countP_append, List.countP_append]
    omega

theorem Call.IsSharedRequest.knows {codec : CborCodec} {s : Joint} {h : History} {c : Call}
    (request : c.IsSharedRequest) : (Task.call c).Knows codec s h := by
  refine ⟨?_, ?_, ?_⟩
  · cases c <;> first | trivial | exact request.1
  · cases c <;> first | trivial | exact request.elim | exact fun _ => request.2
  · intro ext recording
    cases c <;> cases recording
    exact request.elim

/-- Everyone else is a call when the process moves. -/
theorem call_of_one {before after : List Task} {p : CompactProcess}
    (one : (before ++ .compact p :: after).countP Task.isProcess ≤ 1) {t : Task}
    (member : t ∈ before ++ after) : ∃ c, t = .call c := by
  cases t with
  | call c => exact ⟨c, rfl⟩
  | compact other =>
      have counted : 0 < (before ++ after).countP Task.isProcess :=
        List.countP_pos_iff.mpr ⟨.compact other, member, rfl⟩
      rw [List.countP_append, List.countP_cons_of_pos rfl] at one
      rw [List.countP_append] at counted
      omega

/-- In every coordinated run the ledger stays balanced. -/
theorem Guarded.of_reachable {cfg : Config} {pool : Pool Joint Task History}
    (reached : Reachable (jointSys cfg) History.note (ProcessStarts cfg.codec)
      (coordinated cfg.codec) pool) : Guarded cfg.codec pool.shared pool.record := by
  have single : ∀ pool : Pool Joint Task History, ProcessStarts cfg.codec pool →
      pool.threads.countP Task.isProcess ≤ 1 := by
    rintro pool ⟨⟨params, blockSize, files, only⟩, -⟩
    rw [only]
    exact le_rfl
  refine (Reachable.local_invariant (Guarded cfg.codec) (Task.Knows cfg.codec) ?_ ?_ ?_
    (reached.assuming single fun _ _ _ => one_process)).1
  · rintro pool ⟨⟨params, blockSize, files, only⟩, noSnapshot, nothing, ledger⟩
    refine ⟨⟨ledger, ?_, ?_⟩, fun t member => ?_⟩
    · exact fun _ _ => nothing ▸ List.not_mem_nil
    · exact fun _ _ => nothing ▸ List.not_mem_nil
    · rw [only] at member
      rw [List.mem_singleton.mp member]
      exact noSnapshot
  · rintro pool t guarded ⟨-, admitted⟩
    cases t with
    | compact p => exact admitted.elim
    | call c => exact Call.IsSharedRequest.knows admitted
  · rintro s h before t after o s' a guarded each ⟨one, admitted⟩ applied
    have knows := each t (by simp)
    have inPool : ∀ u ∈ before ++ after, u ∈ before ++ t :: after := fun u member => by
      simp only [List.mem_append, List.mem_cons] at member ⊢
      tauto
    have others : ∀ u ∈ before ++ after, u.Knows cfg.codec s h := fun u member =>
      each u (inPool u member)
    have mayRun : t.MayRun cfg.codec ⟨s, before ++ t :: after, h⟩ o := admitted t (by
      rw [List.getElem?_append_right le_rfl, Nat.sub_self]
      rfl)
    cases t with
    | call c =>
        obtain ⟨⟨d', answer⟩, ran, same⟩ := Option.map_eq_some_iff.mp applied
        cases same
        refine ⟨guarded.of_call knows ran, fun t' continues => ?_, fun u member => ?_⟩
        · obtain ⟨c', resumed, rfl⟩ := Task.resume_call cfg continues
          exact knows.of_follows guarded mayRun.2 ran (Call.follows_of_resume resumed)
        · refine (others u member).of_call guarded knows ran fun marshalling ext recorded => ?_
          exact mayRun.1 ext recorded ⟨u, inPool u member, marshalling⟩
    | compact p =>
        obtain ⟨⟨r, answer⟩, ran, same⟩ := Option.map_eq_some_iff.mp applied
        cases same
        have advanced := Advanced.of_process (fun c => Task.call c ∈ before ++ after) guarded
          (fun c => others (.call c)) knows ran (by
            rintro run rfl stage
            obtain ⟨within, remote, tasks⟩ := mayRun (by rw [stage]; trivial)
            exact ⟨within, remote, fun c member => tasks (.call c) (inPool _ member)⟩)
        refine ⟨advanced.guarded, fun t' continues => ?_, fun u member => ?_⟩
        · obtain ⟨p', resumed, rfl⟩ := Task.resume_compact cfg continues
          exact advanced.process p' resumed
        · obtain ⟨c, rfl⟩ := call_of_one one member
          exact advanced.calls c member

/-- In every run of a daemon and a compact process on one store that is
coordinated, every extent of a sealed chunk in the daemon's index and every
extent of the stored index lies at every moment in an object that holds the
bytes written there. -/
theorem shared_store_intact {cfg : Config} {pool : Pool Joint Task History}
    (reached : Reachable (jointSys cfg) History.note (ProcessStarts cfg.codec)
      (coordinated cfg.codec) pool) :
    DataIntact cfg.codec pool.shared.1 pool.record.log :=
  (Guarded.of_reachable reached).dataIntact

/-! ### Two runs -/

/-- A daemon on an empty filesystem and a process that is about to start. -/
def emptyShared : Pool Joint Task History :=
  ⟨(freshDaemon 8 4096 0 false, none), [.compact (.recovering halfOrphaned 4096 ∅)], ⟨[], []⟩⟩

theorem emptyShared_starts (codec : CborCodec) : ProcessStarts codec emptyShared := by
  refine ⟨⟨_, _, _, rfl⟩, rfl, rfl, freshDaemon_sound (by decide) 4096 0 false, ?_, nofun, ?_, ?_⟩
  · exact ChunkStore.new_consistent 8
  · exact fun ino exts stored => by cases stored
  · exact fun data stored => by cases stored

/-- A request that runs to its end beside the process. -/
def Call.beside (c : Call) (steps : List Oracle) : List (Event Task Task.Oracle) :=
  .spawn (.call c) :: steps.map fun o => .run 1 { call := o }

/-- The steps of the process, which is the first thread. -/
def processSteps {T O : Type} (answers : CompactProcess.Oracle → O)
    (steps : List CompactProcess.Oracle) : List (Event T O) :=
  steps.map fun o => .run 0 (answers o)

/-- What the process is told in the joint system. -/
def Task.Oracle.ofProcess (o : CompactProcess.Oracle) : Task.Oracle := { compact := o }

/-- The only entry left when the first of two files of eight bytes has been
deleted. -/
def secondEntry : List DirEntry := [⟨1, [98], 3⟩]

/-- Its extents. -/
def secondExtents : List (Ino × List Extent) := [(3, [⟨chunkID 1, 0, 8, 0⟩])]

/-- A configuration that can be evaluated on the index of that state. -/
noncomputable def deletedConfig : Config :=
  ⟨100, true, .unary [wireAfter secondEntry
    ((Call.make .regular 1 [97] 0o644 0 0 1).alone 3 ++
      (Call.write 2 [1, 2, 3, 4, 5, 6, 7, 8] 0 2).alone 4 ++
      (Call.make .regular 1 [98] 0o644 0 0 3).alone 3 ++
      (Call.write 3 [1, 2, 3, 4, 5, 6, 7, 8] 0 4).alone 4 ++ (Call.unlink 1 [97] 5).alone 1)]⟩

/-- The daemon persists the deletion, the process deletes the chunk, and a write
goes into a new chunk in between. -/
def orphanCollected : List (Event Task Task.Oracle) :=
  (Call.make .regular 1 [97] 0o644 0 0 1).beside [{}, {}, {}] ++
    (Call.write 2 [1, 2, 3, 4, 5, 6, 7, 8] 0 2).beside [{}, {}, {}, {}] ++
    (Call.make .regular 1 [98] 0o644 0 0 3).beside [{}, {}, {}] ++
    (Call.write 3 [1, 2, 3, 4, 5, 6, 7, 8] 0 4).beside [{}, {}, {}, {}] ++
    (Call.unlink 1 [97] 5).beside [{}] ++
    Call.persist.beside [{}, { order := secondEntry }, {}, {}, {}, {}, {}, {},
      { order := secondEntry }, {}, {}] ++
    processSteps .ofProcess [{ compact := { ids := [chunkID 0, chunkID 1] } },
      { extents := secondExtents },
      { compact := { ids := [chunkID 0, chunkID 1] } }, {}, {}] ++
    (Call.write 3 [9] 8 6).beside [{}, {}, {}, {}] ++
    processSteps .ofProcess [{ compact := { order := secondEntry } }, {}]

/-- The orphan is gone and the other file is intact. -/
theorem shared_store_intact_orphanCollected :
    ∃ pool : Pool Joint Task History, pool.shared.1.objects.get (chunkID 0) = none ∧
      pool.shared.1.idx.extents.get 3 = some [⟨chunkID 1, 0, 8, 0⟩, ⟨chunkID 2, 0, 1, 8⟩] ∧
      DataIntact deletedConfig.codec pool.shared.1 pool.record.log := by
  have ends : ((jointSys deletedConfig).run History.note (coordinated deletedConfig.codec)
      emptyShared orphanCollected).map
        (fun pool => (pool.shared.1.objects.get (chunkID 0), pool.shared.1.idx.extents.get 3)) =
      some (none, some [⟨chunkID 1, 0, 8, 0⟩, ⟨chunkID 2, 0, 1, 8⟩]) := by decide +kernel
  obtain ⟨pool, finished, shown⟩ := Option.map_eq_some_iff.mp ends
  obtain ⟨gone, extents⟩ := Prod.mk.inj shown
  exact ⟨pool, gone, extents, shared_store_intact
    (.of_run (.start (emptyShared_starts _)) finished)⟩

/-- Requests start, and everyone may go on at any time. -/
def uncoordinated (_ : Pool Joint Task History) : Event Task Task.Oracle → Prop
  | .spawn (.call c) => c.IsSharedRequest
  | .spawn (.compact _) => False
  | .run _ _ => True

instance (pool : Pool Joint Task History) (event : Event Task Task.Oracle) :
    Decidable (uncoordinated pool event) := by
  induction event using Event.casesOn with
  | spawn t => induction t using Task.casesOn <;> dsimp only [uncoordinated] <;> infer_instance
  | run i o =>
      dsimp only [uncoordinated]
      infer_instance

/-- The process loads the empty index before the daemon fills two chunks. -/
def staleLoad : List (Event Task Task.Oracle) :=
  processSteps .ofProcess [{}, {}] ++
    (Call.make .regular 1 [97] 0o644 0 0 1).beside [{}, {}, {}] ++
    (Call.write 2 [1, 2, 3, 4, 5, 6, 7, 8] 0 2).beside [{}, {}, {}, {}] ++
    (Call.write 2 [1, 2, 3, 4, 5, 6, 7, 8] 8 3).beside [{}, {}, {}, {}] ++
    (Call.write 2 [9] 16 4).beside [{}, {}, {}, {}] ++
    processSteps .ofProcess [{ compact := { ids := [chunkID 1] } }, {}, {}, {}]

/-- The second chunk is deleted while the daemon's index names it. -/
theorem stale_load_destroys_chunk :
    ∃ pool : Pool Joint Task History,
      Reachable (jointSys sampleConfig) History.note (ProcessStarts sampleConfig.codec)
        uncoordinated pool ∧
      ¬ DataIntact sampleConfig.codec pool.shared.1 pool.record.log := by
  have ends : ((jointSys sampleConfig).run History.note uncoordinated emptyShared staleLoad).map
        (fun pool => (pool.shared.1.objects.get (chunkID 1), pool.shared.1.cs.activeID,
          pool.shared.1.idx.extents.get 2)) =
      some (none, chunkID 2,
        some [⟨chunkID 0, 0, 8, 0⟩, ⟨chunkID 1, 0, 8, 8⟩, ⟨chunkID 2, 0, 1, 16⟩]) := by
    decide +kernel
  obtain ⟨pool, finished, shown⟩ := Option.map_eq_some_iff.mp ends
  obtain ⟨gone, rest⟩ := Prod.mk.inj shown
  obtain ⟨active, extents⟩ := Prod.mk.inj rest
  refine ⟨pool, .of_run (.start (emptyShared_starts _)) finished, fun intact => ?_⟩
  obtain ⟨w, -, -, -, -, -, -, object, stored, -⟩ := intact.1 2 _ extents ⟨chunkID 1, 0, 8, 8⟩
    (by simp) (by rw [active]; decide)
  rw [gone] at stored
  cases stored

end Fusey
