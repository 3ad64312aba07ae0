import Fusey.Fuse.FileContent
import Fusey.Fuse.Runs

/-!
Contract: the log of the writes that the index has recorded, and what the
daemon keeps about them in every run.

Owns:
- the log, which `WriteExtent` extends;
- that the bytes of every logged extent are stored or wait in the dirty buffer,
  that every extent of the index is a piece of a logged one, and that every
  extent of the index stored under `IndexKey` is a piece of a stored one;
- what a suspended call has to know for its next step to keep this.

Does not own the order of calls for which a suspended call does know it.
-/

set_option autoImplicit false

namespace Fusey

open GoInt Interleaving

/-! ### The log -/

/-- A recorded write: the file, the data, and the extent that `Append` returned
for it, whose file offset is that of the write. -/
structure WriteRecord where
  ino : Ino
  data : Bytes
  ext : Extent
deriving DecidableEq

/-- A `WriteExtent` that returns nil is logged. -/
def logWrite (log : List WriteRecord) : Call → Answer → List WriteRecord
  | .writeRecord ino data ext _, .done => log ++ [⟨ino, data, ext⟩]
  | _, _ => log

theorem mem_logWrite_of_mem {log : List WriteRecord} {w : WriteRecord} (member : w ∈ log) (c : Call)
    (a : Answer) : w ∈ logWrite log c a := by
  unfold logWrite
  split
  · exact List.mem_append_left _ member
  · exact member

/-- What is in the log after a step was there before, or is the write that the
step recorded. -/
theorem mem_logWrite {log : List WriteRecord} {w : WriteRecord} {c : Call} {a : Answer}
    (member : w ∈ logWrite log c a) :
    w ∈ log ∨ ∃ now, c = .writeRecord w.ino w.data w.ext now := by
  unfold logWrite at member
  split at member
  · rcases List.mem_append.mp member with old | new
    · exact Or.inl old
    · rw [List.mem_singleton.mp new]
      exact Or.inr ⟨_, rfl⟩
  · exact Or.inl member

/-- The bytes of an appended extent have not been lost; `seals` tells whether
`Seal` may be called. -/
structure WriteRecord.Kept (seals : Bool) (d : Daemon) (w : WriteRecord) : Prop where
  minted : MintedExtent w.ext
  positive : seals = true → 0 < w.ext.length
  holds : Holds (d.cs.byteOf d.objects) w.ext w.data
  backed : d.cs.Backed d.objects w.ext

/-- An extent that a logged write of the file brought. -/
structure Logged (log : List WriteRecord) (ino : Ino) (e : Extent) : Prop where
  minted : MintedExtent e
  written : ∃ w ∈ log, w.ino = ino ∧ w.ext = e

/-- Every extent of the index in `data`, if it is one, is a piece of a logged
extent that is stored. -/
def Known (codec : CborCodec) (objects : Objects) (log : List WriteRecord) (data : Bytes) : Prop :=
  ∀ blockSize idx, decodeIndex codec blockSize data = some idx →
    idx.PiecesOf fun ino e => Logged log ino e ∧ InObject objects e

/-- What holds of the daemon and the log between any two steps. -/
structure Ledger (codec : CborCodec) (seals : Bool) (d : Daemon) (log : List WriteRecord) :
    Prop where
  sound : d.Sound
  consistent : d.cs.Consistent d.objects
  writes : ∀ w ∈ log, w.Kept seals d
  pieces : d.idx.PiecesOf (Logged log)
  remote : ∀ data, d.objects.get indexKey = some data → Known codec d.objects log data

/-- What a suspended call knows: a write whose extent has not been recorded yet
has lost no bytes, and a persist run past its flush has found every logged
extent stored, up to when it has marshalled the index. -/
def Call.Backs (codec : CborCodec) (seals : Bool) (d : Daemon) (log : List WriteRecord) :
    Call → Prop
  | .write _ data _ _ | .writeSpace _ data _ _ _ | .writeAppend _ data _ _ =>
      seals = true → data ≠ []
  | .writeRecord ino data ext _ => (⟨ino, data, ext⟩ : WriteRecord).Kept seals d
  | .persistCheck | .persistMarshal => ∀ w ∈ log, InObject d.objects w.ext
  | .persistPut data => Known codec d.objects log data
  | .sealActive => seals = true
  | .mutate _ => False
  | _ => True

/-! ### From one state to a later one -/

/-- No chunk of `live` loses bytes. -/
structure Carries (seals : Bool) (live : Key → Prop) (d d' : Daemon) : Prop where
  kept : ∀ w : WriteRecord, live w.ext.chunkID → w.Kept seals d → w.Kept seals d'
  stored : ∀ e : Extent, live e.chunkID → MintedExtent e → InObject d.objects e →
    InObject d'.objects e

/-- Every chunk. -/
abbrev anyChunk (_ : Key) : Prop := True

/-- The index names only chunks of `live`. -/
def Index.Within (live : Key → Prop) (idx : Index) : Prop :=
  ∀ ino exts, idx.extents.get ino = some exts → ∀ e ∈ exts, live e.chunkID

/-- The index in `data`, if it is one, names only chunks of `live`. -/
def DataWithin (codec : CborCodec) (live : Key → Prop) (data : Bytes) : Prop :=
  ∀ blockSize idx, decodeIndex codec blockSize data = some idx → idx.Within live

/-- What a suspended call is about to record or to store names only chunks of
`live`. -/
def Call.Within (codec : CborCodec) (live : Key → Prop) : Call → Prop
  | .writeRecord _ _ ext _ => live ext.chunkID
  | .persistPut data => DataWithin codec live data
  | _ => True

/-- A persist run between its flush and its snapshot. -/
def Call.IsMarshalling : Call → Prop
  | .persistCheck | .persistMarshal => True
  | _ => False

instance (c : Call) : Decidable c.IsMarshalling := by
  induction c using Call.casesOn <;> dsimp only [Call.IsMarshalling] <;> infer_instance

/-- The extent that a call is about to record. -/
def Call.recording : Call → Option Extent
  | .writeRecord _ _ ext _ => some ext
  | _ => none

section Carries

variable {codec : CborCodec} {seals : Bool} {live : Key → Prop} {d d' : Daemon}
  {log log' : List WriteRecord}

/-- Pieces of logged extents stay such pieces while their chunks live and the
records of these stay in the log. -/
theorem Index.PiecesOf.relog {P Q : Ino → Extent → Prop} {idx : Index} (pieces : idx.PiecesOf P)
    (within : idx.Within live) (weaker : ∀ ino e, live e.chunkID → P ino e → Q ino e) :
    idx.PiecesOf Q := by
  intro ino exts stored e member
  obtain ⟨range, whole, holds, isPart⟩ := pieces ino exts stored e member
  have alive := within ino exts stored e member
  rw [isPart.chunk] at alive
  exact ⟨range, whole, weaker ino whole alive holds, isPart⟩

theorem Logged.mono {ino : Ino} {e : Extent} (logged : Logged log ino e)
    (keeps : ∀ w ∈ log, w.ext = e → w ∈ log') : Logged log' ino e := by
  obtain ⟨minted, w, member, isIno, same⟩ := logged
  exact ⟨minted, w, keeps w member same, isIno, same⟩

theorem Known.carries {data : Bytes} (known : Known codec d.objects log data)
    (within : DataWithin codec live data) (carries : Carries seals live d d')
    (keeps : ∀ w ∈ log, live w.ext.chunkID → w ∈ log') : Known codec d'.objects log' data := by
  intro blockSize idx decoded
  refine (known blockSize idx decoded).relog (within blockSize idx decoded) ?_
  rintro ino e alive ⟨logged, inside⟩
  exact ⟨logged.mono fun w member same => keeps w member (same ▸ alive),
    carries.stored e alive logged.minted inside⟩

/-- Nothing is lost where the objects of the chunks stay. -/
theorem Carries.of_objects {objects : Objects} (same : ∀ seq, live (chunkID seq) →
      objects.get (chunkID seq) = d.objects.get (chunkID seq)) :
    Carries seals live d { d with objects := objects } := by
  have stays : ∀ e : Extent, live e.chunkID → MintedExtent e →
      objects.get e.chunkID = d.objects.get e.chunkID := by
    rintro e alive ⟨seq, minted⟩
    rw [minted] at alive ⊢
    exact same seq alive
  have stored : ∀ e : Extent, live e.chunkID → MintedExtent e → InObject d.objects e →
      InObject objects e := fun e alive minted inside =>
    inside.grows fun object stored =>
      ⟨object, (stays e alive minted).trans stored, List.prefix_refl _⟩
  refine ⟨fun w alive before => ⟨before.minted, before.positive, ?_, ?_⟩, stored⟩
  · refine before.holds.grows fun i value found => ?_
    unfold ChunkStore.byteOf objectByte at found ⊢
    rw [stays w.ext alive before.minted]
    exact found
  · exact before.backed.imp_left (stored w.ext alive before.minted)

/-- The ledger after a step that is not the daemon's, when the index names only
chunks of `live` and the log keeps the records of these and no others. -/
theorem Ledger.carries (ledger : Ledger codec seals d log) (carries : Carries seals live d d')
    (sameIndex : d'.idx = d.idx) (sameStore : d'.cs = d.cs)
    (consistent : d'.cs.Consistent d'.objects) (within : d.idx.Within live)
    (shrinks : ∀ w ∈ log', w ∈ log ∧ live w.ext.chunkID)
    (keeps : ∀ w ∈ log, live w.ext.chunkID → w ∈ log')
    (remote : ∀ data, d'.objects.get indexKey = some data → Known codec d'.objects log' data) :
    Ledger codec seals d' log' where
  sound := ⟨sameIndex ▸ ledger.sound.restorable, sameStore ▸ ledger.sound.active,
    sameStore ▸ ledger.sound.chunkSize⟩
  consistent := consistent
  writes := by
    intro w member
    obtain ⟨old, alive⟩ := shrinks w member
    exact carries.kept w alive (ledger.writes w old)
  pieces := by
    rw [sameIndex]
    exact ledger.pieces.relog within fun ino e alive logged =>
      logged.mono fun w member same => keeps w member (same ▸ alive)
  remote := remote

/-- What a suspended call knows it still knows after a step of another one,
when the records that are new to a marshalling persist run are stored. -/
theorem Call.Backs.carries {c : Call} (backs : c.Backs codec seals d log)
    (within : c.Within codec live) (carries : Carries seals live d d')
    (keeps : ∀ w ∈ log, live w.ext.chunkID → w ∈ log')
    (stored : c.IsMarshalling → ∀ w ∈ log', InObject d'.objects w.ext) :
    c.Backs codec seals d' log' := by
  cases c
  case writeRecord ino data ext now => exact carries.kept ⟨ino, data, ext⟩ within backs
  case persistPut data => exact Known.carries backs within carries keeps
  case persistCheck => exact stored trivial
  case persistMarshal => exact stored trivial
  all_goals exact backs

end Carries

variable {d d' : Daemon} {o : Oracle} {a : Answer} {seals : Bool}

/-- A step of the daemon loses no bytes. -/
theorem Daemon.carries_of_apply (seals : Bool) {e : Effect} (consistent : d.cs.Consistent d.objects)
    (applied : d.apply e o = some (d', a)) (sealing : e = .sealActive → seals = true) :
    Carries seals anyChunk d d' := by
  rcases Daemon.apply_store applied with moves | ⟨data, -, rfl⟩
  · have kept := moves.kept consistent
    refine ⟨fun w _ before => ⟨before.minted, before.positive, ?_, ?_⟩, fun e _ _ inside => ?_⟩
    · exact before.holds.grows fun i value => kept.grows _ i value
    · exact moves.backed consistent
        (fun isSeal => before.positive (sealing (by simpa using isSeal)))
        before.backed
    · exact inside.grows fun object stored => kept.objects _ object stored
  · -- `PutRaw` writes under a key that no chunk has.
    exact .of_objects fun seq _ => GoMap.get_set_ne _ _ (chunkID_ne_indexKey seq)

theorem ChunkStore.Consistent.of_apply {e : Effect} (consistent : d.cs.Consistent d.objects)
    (applied : d.apply e o = some (d', a)) : d'.cs.Consistent d'.objects := by
  rcases Daemon.apply_store applied with moves | ⟨data, -, rfl⟩
  · exact (moves.kept consistent).consistent
  · refine consistent.of_objects fun seq object stored => ?_
    exact (GoMap.get_set_ne _ _ (chunkID_ne_indexKey seq)).symm.trans stored

/-- Bytes of chunks that can be read stay readable and unchanged. -/
theorem Daemon.byteOf_of_apply {e : Effect} (consistent : d.cs.Consistent d.objects)
    (applied : d.apply e o = some (d', a)) {id : Key} (minted : ∃ seq, id = chunkID seq) (i : Nat)
    (value : UInt8) (found : d.cs.byteOf d.objects id i = some value) :
    d'.cs.byteOf d'.objects id i = some value := by
  rcases Daemon.apply_store applied with moves | ⟨data, -, rfl⟩
  · exact (moves.kept consistent).grows id i value found
  · obtain ⟨seq, rfl⟩ := minted
    unfold ChunkStore.byteOf objectByte at found ⊢
    rw [GoMap.get_set_ne _ _ (chunkID_ne_indexKey seq)]
    exact found

/-- The object of a frozen chunk stays as it is. -/
theorem Daemon.frozen_of_apply {e : Effect} (consistent : d.cs.Consistent d.objects)
    (applied : d.apply e o = some (d', a)) {seq : Nat} (isFrozen : d.cs.Frozen (chunkID seq)) :
    d'.cs.Frozen (chunkID seq) ∧ d'.objects.get (chunkID seq) = d.objects.get (chunkID seq) := by
  rcases Daemon.apply_store applied with moves | ⟨data, -, rfl⟩
  · exact (moves.kept consistent).frozen _ isFrozen
  · exact ⟨isFrozen, GoMap.get_set_ne _ _ (chunkID_ne_indexKey seq)⟩

/-! ### One step -/

variable {codec : CborCodec} {log : List WriteRecord} {c : Call}

theorem Call.Backs.sealing (backs : c.Backs codec seals d log) (asks : c.effect = .sealActive) :
    seals = true := by
  cases c <;> cases asks
  exact backs

/-- The calls of this module are not bare mutators. -/
theorem Call.Backs.scripted (backs : c.Backs codec seals d log) (m : Mutation) :
    c ≠ .mutate m := by
  rintro rfl
  exact backs

/-- Extents stay pieces of extents with property `P` if what a write records has
it. -/
theorem Index.PiecesOf.step {P : Ino → Extent → Prop} (pieces : d.idx.PiecesOf P) (sound : c.Sound)
    (scripted : ∀ m, c ≠ .mutate m) (applied : d.apply c.effect o = some (d', a))
    (records : ∀ ino data ext now, c = .writeRecord ino data ext now → a = .done → P ino ext) :
    d'.idx.PiecesOf P := by
  rcases Daemon.apply_idx applied with same | ⟨m, asks, done, succeeds⟩ | ⟨-, same⟩ | ⟨-, same⟩
  · rw [same]
    exact pieces
  · have brings : m.Brings P := by
      cases c <;> cases asks <;> try trivial
      case mutate => exact absurd rfl (scripted m)
      case setattr ino input now => exact sound.brings rfl
      case writeRecord ino data ext now =>
        refine ⟨sound.1, records ino data ext now rfl ?_⟩
        rcases succeeds with rfl | rfl
        · rfl
        · simp only [Call.effect, Daemon.apply, Daemon.mutate, Option.some.injEq] at applied
          split at applied <;> cases applied
    exact Mutation.piecesOf done pieces brings
  · rw [same]
    exact pieces
  · rw [same]
    exact pieces

/-- Every extent of the index stays a piece of a logged one. -/
theorem Index.PiecesOf.of_apply (pieces : d.idx.PiecesOf (Logged log)) (sound : c.Sound)
    (scripted : ∀ m, c ≠ .mutate m) (applied : d.apply c.effect o = some (d', a)) :
    d'.idx.PiecesOf (Logged (logWrite log c a)) := by
  have before : d.idx.PiecesOf (Logged (logWrite log c a)) :=
    pieces.mono fun _ _ logged => logged.mono fun w member _ => mem_logWrite_of_mem member c a
  refine before.step sound scripted applied fun ino data ext now isWrite done => ?_
  subst isWrite done
  exact ⟨sound.2, ⟨ino, data, ext⟩, List.mem_append_right _ (List.mem_singleton_self _), rfl, rfl⟩

theorem Ledger.of_apply (ledger : Ledger codec seals d log) (callSound : c.Sound)
    (backs : c.Backs codec seals d log) (applied : d.apply c.effect o = some (d', a)) :
    Ledger codec seals d' (logWrite log c a) := by
  have carries := Daemon.carries_of_apply seals ledger.consistent applied backs.sealing
  have keeps : ∀ w ∈ log, anyChunk w.ext.chunkID → w ∈ logWrite log c a := fun w member _ =>
    mem_logWrite_of_mem member c a
  refine ⟨ledger.sound.of_apply callSound applied, ledger.consistent.of_apply applied, ?_, ?_, ?_⟩
  · intro w member
    rcases mem_logWrite member with old | ⟨now, rfl⟩
    · exact carries.kept w trivial (ledger.writes w old)
    · exact carries.kept w trivial backs
  · exact ledger.pieces.of_apply callSound backs.scripted applied
  · intro data stored
    rcases Daemon.apply_indexKey ledger.sound.active applied with same | ⟨put, asks, now⟩
    · rw [same] at stored
      exact (ledger.remote data stored).carries (fun _ _ _ _ _ _ _ _ => trivial) carries keeps
    · rw [now] at stored
      cases stored
      cases c <;> cases asks
      exact Known.carries backs (fun _ _ _ _ _ _ _ _ => trivial) carries keeps

/-- A persist run that is marshalling has found the log stored. -/
theorem Call.Backs.marshalled (backs : c.Backs codec seals d log) (marshalling : c.IsMarshalling) :
    ∀ w ∈ log, InObject d.objects w.ext := by
  cases c <;> first | exact marshalling.elim | exact backs

/-- What another call knows survives a step, if what the step records beside a
marshalling persist run is stored. -/
theorem Call.Backs.of_other {u : Call} (knows : u.Backs codec seals d log)
    (ledger : Ledger codec seals d log) (backs : c.Backs codec seals d log)
    (applied : d.apply c.effect o = some (d', a))
    (recorded : u.IsMarshalling → ∀ ext ∈ c.recording, InObject d.objects ext) :
    u.Backs codec seals d' (logWrite log c a) := by
  have carries := Daemon.carries_of_apply seals ledger.consistent applied backs.sealing
  refine knows.carries ?_ carries (fun w old _ => mem_logWrite_of_mem old c a) ?_
  · cases u <;> first | trivial | exact fun _ _ _ _ _ _ _ _ => trivial
  · intro marshalling w member
    rcases mem_logWrite member with old | ⟨now, rfl⟩
    · exact carries.stored w.ext trivial (ledger.writes w old).minted
        (knows.marshalled marshalling w old)
    · exact carries.stored w.ext trivial backs.minted (recorded marshalling w.ext rfl)

/-- The bytes of an extent that `Append` has just returned wait in the buffer. -/
theorem WriteRecord.Kept.of_append (sound : d.Sound) {data : Bytes} {off : Int} {ext : Extent}
    (offRange : IsInt64 off) (nonempty : seals = true → data ≠ [])
    (applied : d.apply (.append data off) o = some (d', .extent ext))
    (active : ∃ seq, d'.cs.activeID = chunkID seq) (ino : Ino) :
    (⟨ino, data, ext⟩ : WriteRecord).Kept seals d' := by
  obtain ⟨start, buffer, dirty, rfl, fits⟩ := Daemon.apply_append applied
  have small := sound.chunkSize
  refine ⟨active, fun sealing => ?_, .of_append buffer offRange (by omega) _, ?_⟩
  · have := List.length_pos_iff.mpr (nonempty sealing)
    simp only
    omega
  · refine Or.inr ⟨rfl, dirty, by simp only; omega, by simp only; omega, ?_⟩
    rw [buffer, List.length_append]
    simp only
    omega

/-- What a call knows when it goes on. -/
theorem Call.Backs.of_follows {cfg : Config} (ledger : Ledger cfg.codec seals d log)
    (callSound : c.Sound) (backs : c.Backs cfg.codec seals d log)
    (applied : d.apply c.effect o = some (d', a)) {c' : Call} (follows : c.Follows cfg a c') :
    c'.Backs cfg.codec seals d' (logWrite log c a) := by
  have after := ledger.of_apply callSound backs applied
  have carries := Daemon.carries_of_apply seals ledger.consistent applied backs.sealing
  cases follows
  case writeSpace => exact backs
  case writeInside => exact backs
  case writeAppend => exact backs
  case writeRecord ino data off now ext =>
    exact .of_append ledger.sound callSound backs applied after.sound.active ino
  case persistCheck =>
    intro w member
    exact (after.writes w member).backed.inObject (Daemon.apply_flushActive applied)
  case persistMarshal =>
    intro w member
    have minted := (ledger.writes w member).minted
    exact carries.stored w.ext trivial minted (backs w member)
  case persistPut snap data encoded =>
    obtain ⟨rfl, lists, rfl⟩ := Daemon.apply_snapshot applied
    intro blockSize idx decoded ino exts stored e member
    rw [extents_of_decodeIndex (fun _ _ => ledger.sound.restorable.minted.minted) encoded decoded]
      at stored
    refine (ledger.pieces ino exts stored e member).mono fun whole logged => ⟨logged, ?_⟩
    obtain ⟨w, inLog, -, rfl⟩ := logged.written
    exact backs w inLog
  case readFirst | readNext =>
    unfold nextRead
    split <;> trivial
  all_goals trivial

end Fusey
