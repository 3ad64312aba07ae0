import Fusey.Fuse.Reading
import Fusey.Fuse.Ledger

/-!
Contract: where the bytes that a `Read` returns come from, under any
interleaving of calls.

Owns:
- the chunk cache within a session: it holds prefixes of stored chunks;
- the provenance of a buffer that a read is filling: every byte is zero or was
  written to that offset of the same file;
- that it holds of every successful read in every run, and that every extent of
  a file is a part of one that was written to it.

Files share chunks, so this is what separates them. A read carries its request
as a note, because its last step no longer knows the offset it was asked for.
-/

set_option autoImplicit false

namespace Fusey

open GoInt Interleaving

/-! ### The chunk cache in a session -/

/-- Everything in the cache is a chunk. -/
def ChunkStore.CachesChunks (cs : ChunkStore) : Prop :=
  ∀ files, cs.cache = some files → ∀ id file, files.get id = some file → ∃ seq, id = chunkID seq

theorem ChunkStore.sealActive_cachesChunks {cs : ChunkStore} (caches : cs.CachesChunks)
    (active : ∃ seq, cs.activeID = chunkID seq) (outcome : StoreOutcome) (cached : Bool)
    (objects : Objects) :
    (ChunkStore.sealActive mapStore outcome cached objects cs).2.1.CachesChunks := by
  unfold ChunkStore.sealActive
  split_ifs
  · exact caches
  · cases outcome with
    | failedOld => exact caches
    | failedNew => exact caches
    | ok =>
        cases cached with
        | false => exact caches
        | true =>
            intro files enabled id file found
            obtain ⟨old, wasEnabled, rfl⟩ := Option.map_eq_some_iff.mp enabled
            rw [GoMap.get_set] at found
            split_ifs at found with isActive
            · rw [isActive]
              exact active
            · exact caches old wasEnabled id file found

theorem ChunkStore.append_cachesChunks {cs : ChunkStore} (caches : cs.CachesChunks)
    (active : ∃ seq, cs.activeID = chunkID seq) (outcome : StoreOutcome) (cached : Bool)
    (objects : Objects) (data : Bytes) (fileOffset : Int) :
    (ChunkStore.append mapStore outcome cached objects cs data fileOffset).2.1.CachesChunks := by
  unfold ChunkStore.append
  split_ifs
  · exact caches
  · have sealing := ChunkStore.sealActive_cachesChunks caches active outcome cached objects
    generalize ChunkStore.sealActive mapStore outcome cached objects cs = answer at sealing
    obtain ⟨objects', cs', failure | done⟩ := answer
    · exact sealing
    · exact sealing
  · exact caches

/-- The cache holds prefixes of stored chunks and nothing else. -/
structure ChunkStore.CacheSound (objects : Objects) (cs : ChunkStore) : Prop where
  coherent : cs.Coherent objects
  chunks : cs.CachesChunks

/-- The calls read chunks only. -/
theorem ChunkStore.CacheSound.of_apply {d d' : Daemon} {e : Effect} {o : Oracle} {a : Answer}
    (cache : d.cs.CacheSound d.objects) (consistent : d.cs.Consistent d.objects)
    (applied : d.apply e o = some (d', a))
    (reads : ∀ id offset length, e = .readChunk id offset length → ∃ seq, id = chunkID seq) :
    d'.cs.CacheSound d'.objects := by
  have active : ∃ seq, d.cs.activeID = chunkID seq := by
    obtain ⟨seq, -, same⟩ := consistent.active
    exact ⟨seq, same⟩
  have chunks : d'.cs.CachesChunks := by
    cases e
    case readChunk id offset length =>
      have after : (d.cs.read mapStore o.disk d.objects id offset length).1.CachesChunks := by
        rcases ChunkStore.read_cases o.disk d.objects d.cs id offset length with
          same | ⟨files, object, enabled, -, -, same⟩ <;> rw [same]
        · exact cache.chunks
        · intro files' enabled' other file found
          cases enabled'
          rw [GoMap.get_set] at found
          split_ifs at found with isIt
          · rw [isIt]
            exact reads id offset length rfl
          · exact cache.chunks files enabled other file found
      simp only [Daemon.apply, Daemon.readChunk, Option.some.injEq] at applied
      split at applied <;> rename_i answered <;> cases applied <;> rw [answered] at after <;>
        exact after
    case append data fileOffset =>
      have after := ChunkStore.append_cachesChunks cache.chunks active o.put o.disk d.objects data
        fileOffset
      simp only [Daemon.apply, Daemon.append, Option.some.injEq] at applied
      split at applied <;> rename_i answered <;> cases applied <;> rw [answered] at after <;>
        exact after
    case sealActive =>
      have after := ChunkStore.sealActive_cachesChunks cache.chunks active o.put o.disk d.objects
      simp only [Daemon.apply, Daemon.sealActive, Option.some.injEq] at applied
      split at applied <;> rename_i answered <;> cases applied <;> rw [answered] at after <;>
        exact after
    case mutate m =>
      rcases Daemon.apply_mutate applied with ⟨idx, -, rfl, -⟩ | ⟨rfl, -⟩
      · exact cache.chunks
      · exact cache.chunks
    case flushActive =>
      have after : (ChunkStore.flushActive mapStore o.put d.objects d.cs).2.1.CachesChunks := by
        unfold ChunkStore.flushActive
        split_ifs
        · exact cache.chunks
        · cases o.put <;> exact cache.chunks
      simp only [Daemon.apply, Daemon.flushActive, Option.some.injEq] at applied
      split at applied <;> rename_i answered <;> cases applied <;> rw [answered] at after <;>
        exact after
    all_goals
      simp only [Daemon.apply, Daemon.putRaw] at applied
      repeat' split at applied
      all_goals cases applied
      all_goals exact cache.chunks
  refine ⟨?_, chunks⟩
  rcases Daemon.apply_store applied with moves | ⟨data, -, rfl⟩
  · exact (moves.kept consistent).coherent cache.coherent
  · intro files enabled id file found
    obtain ⟨object, stored, isPart⟩ := cache.coherent files enabled id file found
    obtain ⟨seq, rfl⟩ := cache.chunks files enabled id file found
    exact ⟨object, (GoMap.get_set_ne _ _ (chunkID_ne_indexKey seq)).trans stored, isPart⟩

/-! ### What a read takes from an extent -/

/-- The range that a read takes from an extent it meets lies in the extent. -/
structure Call.ReadsWithin (off fin : Int) (e : Extent) : Prop where
  start : off ≤ readStart off e ∧ e.fileOffset ≤ readStart off e
  offset : readOffset off e = e.chunkOffset + (readStart off e - e.fileOffset)
  length : 0 ≤ readLength off fin e
  stop : readStart off e + readLength off fin e ≤ e.fileOffset + e.length

/-- No wrapping of an end offset leads outside: a read whose own end has wrapped
meets no extent. -/
theorem Call.readsWithin {off fin : Int} {e : Extent} (range : e.InRange) (offRange : IsInt64 off)
    (finRange : IsInt64 fin) (ordered : off ≤ fin ∨ fin + 9223372036854775808 < off)
    (met : skips off fin e = false) : ReadsWithin off fin e := by
  obtain ⟨fileOffset, nonneg, chunkOffset, chunkEnd⟩ := range
  simp only [skips, decide_eq_false_iff_not, not_or, not_le, ge_iff_le] at met
  unfold IsInt64 at offRange finRange fileOffset
  have first : readStart off e = max off e.fileOffset := rfl
  have ending : e.fileEnd = e.fileOffset + e.length ∨
      0 ≤ e.fileOffset ∧ e.fileEnd < 0 ∧
        e.fileEnd = e.fileOffset + e.length - 18446744073709551616 := by
    unfold Extent.fileEnd wrap64
    omega
  have inner : wrap64 (readStart off e - e.fileOffset) = readStart off e - e.fileOffset :=
    wrap64_of_nonneg (by omega) (by omega)
  -- An end of the extent that has wrapped is negative, so that all of it is taken.
  have taken : e.fileEnd = e.fileOffset + e.length ∧
        readLength off fin e = min fin e.fileEnd - readStart off e ∨
      readLength off fin e = e.length ∧ readStart off e = e.fileOffset := by
    unfold readLength wrap64
    omega
  refine ⟨by omega, ?_, by omega, by omega⟩
  unfold readOffset
  rw [inner]
  exact wrap64_of_nonneg (by omega) (by omega)

/-- `copy` replaces bytes of the buffer by bytes of the data. -/
theorem Call.getElem?_of_copyInto {buf data buf' : Bytes} {start : Int}
    (copied : copyInto buf start data = some buf') {i : Nat} {value : UInt8}
    (found : buf'[i]? = some value) :
    buf[i]? = some value ∨ 0 ≤ start ∧ start ≤ i ∧ data[i - start.toNat]? = some value := by
  unfold copyInto at copied
  split_ifs at copied with range
  cases copied
  have front : (buf.take start.toNat).length = start.toNat := by
    rw [List.length_take]
    omega
  rw [List.append_assoc] at found
  by_cases before : i < start.toNat
  · left
    rw [List.getElem?_append_left (by omega), List.getElem?_take, if_pos before] at found
    exact found
  · rw [List.getElem?_append_right (by omega), front] at found
    by_cases inside : i - start.toNat < (data.take (buf.length - start.toNat)).length
    · right
      rw [List.getElem?_append_left inside, List.getElem?_take] at found
      split_ifs at found
      exact ⟨range.1, by omega, found⟩
    · left
      rw [List.getElem?_append_right (by omega), List.getElem?_drop] at found
      have below := (List.getElem?_eq_some_iff.mp found).1
      rw [List.length_take] at inside found below
      have index : start.toNat + data.length +
          (i - start.toNat - min (buf.length - start.toNat) data.length) = i := by omega
      rw [index] at found
      exact found

/-! ### Owned bytes -/

/-- A write whose bytes are where its extent says. -/
structure WriteRecord.Written (d : Daemon) (w : WriteRecord) : Prop where
  minted : MintedExtent w.ext
  holds : Holds (d.cs.byteOf d.objects) w.ext w.data

/-- What can be read where the extent of a write lies is what was written. -/
structure WriteRecord.Shown (d : Daemon) (w : WriteRecord) : Prop where
  range : w.ext.InRange
  length : w.ext.length = w.data.length
  bytes : ∀ (i : Nat) value, i < w.data.length →
    d.cs.byteOf d.objects w.ext.chunkID (w.ext.chunkOffset.toNat + i) = some value →
      w.data[i]? = some value

theorem WriteRecord.Written.shown {d : Daemon} {w : WriteRecord} (written : w.Written d) :
    w.Shown d where
  range := written.holds.range
  length := written.holds.length
  bytes := fun i _ below found => (written.holds.bytes i below).symm.trans found

/-- The byte was written to the offset of the file. -/
def Wrote (log : List WriteRecord) (ino : Ino) (x : Int) (value : UInt8) : Prop :=
  ∃ w ∈ log, w.ino = ino ∧ w.ext.fileOffset ≤ x ∧
    w.data[(x - w.ext.fileOffset).toNat]? = some value

theorem Wrote.mono {log log' : List WriteRecord} {ino : Ino} {x : Int} {value : UInt8}
    (wrote : Wrote log ino x value) (keeps : ∀ w ∈ log, w ∈ log') : Wrote log' ino x value := by
  obtain ⟨w, member, rest⟩ := wrote
  exact ⟨w, keeps w member, rest⟩

/-- Every byte of a buffer for the file from `off` on is zero or was written to
its offset. -/
def Owned (log : List WriteRecord) (ino : Ino) (off : Int) (buf : Bytes) : Prop :=
  ∀ (i : Nat) (value : UInt8), buf[i]? = some value → value = 0 ∨ Wrote log ino (off + i) value

theorem Owned.zeros (log : List WriteRecord) (ino : Ino) (off : Int) (n : Nat) :
    Owned log ino off (List.replicate n 0) := by
  intro i value found
  rw [List.getElem?_replicate] at found
  split_ifs at found
  exact Or.inl (Option.some.inj found).symm

theorem Owned.mono {log log' : List WriteRecord} {ino : Ino} {off : Int} {buf : Bytes}
    (owned : Owned log ino off buf) (keeps : ∀ w ∈ log, w ∈ log') : Owned log' ino off buf :=
  fun i value found => (owned i value found).imp_right fun wrote => wrote.mono keeps

/-- What a read copies from an extent of the file was written to the file. -/
theorem Owned.copy {d : Daemon} {log : List WriteRecord} {ino : Ino} {off fin : Int} {e : Extent}
    {buf data buf' : Bytes} (owned : Owned log ino off buf) (writes : ∀ w ∈ log, w.Shown d)
    (piece : e.PieceOf (Logged log ino)) (offRange : IsInt64 off)
    (within : Call.ReadsWithin off fin e)
    (bytes : (data.length : Int) = Call.readLength off fin e ∧
      ∀ i : Nat, (i : Int) < Call.readLength off fin e →
        data[i]? = d.cs.byteOf d.objects e.chunkID ((Call.readOffset off e).toNat + i))
    (copied : Call.copyInto buf (wrap64 (Call.readStart off e - off)) data = some buf') :
    Owned log ino off buf' := by
  intro i value found
  rcases Call.getElem?_of_copyInto copied found with old | ⟨nonneg, low, new⟩
  · exact owned i value old
  · right
    obtain ⟨⟨fromOff, fromStart⟩, offset, -, stop⟩ := within
    obtain ⟨range, whole, ⟨-, w, member, isIno, rfl⟩, isPart⟩ := piece
    have shown := writes w member
    obtain ⟨chunk, shift, start, partStop, -⟩ := isPart
    have fileOffset := range.fileOffset
    have chunkOffset := range.chunkOffset
    have wholeOffset := shown.range.chunkOffset
    have wholeLength := shown.length
    unfold IsInt64 at offRange fileOffset
    have first : Call.readStart off e = max off e.fileOffset := rfl
    -- A position that does not panic is the real one.
    have position : wrap64 (Call.readStart off e - off) = Call.readStart off e - off := by
      unfold wrap64 at nonneg ⊢
      omega
    rw [position] at low new
    have below : i - (Call.readStart off e - off).toNat < data.length :=
      (List.getElem?_eq_some_iff.mp new).1
    rw [bytes.2 _ (by omega)] at new
    refine ⟨w, member, isIno, by omega, shown.bytes _ value (by omega) ?_⟩
    rw [← chunk, ← new]
    congr 1
    omega

/-! ### Every run -/

theorem WriteRecord.Written.of_apply {d d' : Daemon} {e : Effect} {o : Oracle} {a : Answer}
    {w : WriteRecord} (written : w.Written d) (consistent : d.cs.Consistent d.objects)
    (applied : d.apply e o = some (d', a)) : w.Written d' :=
  ⟨written.minted,
    written.holds.grows (Daemon.byteOf_of_apply consistent applied written.minted)⟩

/-- What holds of the daemon and the log between any two steps. -/
structure Provenance (d : Daemon) (log : List WriteRecord) : Prop where
  sound : d.Sound
  consistent : d.cs.Consistent d.objects
  cache : d.cs.CacheSound d.objects
  writes : ∀ w ∈ log, w.Written d
  pieces : d.idx.PiecesOf (Logged log)

/-- What reads rely on: of the bytes of a write, some may be out of reach. -/
structure Attributed (d : Daemon) (log : List WriteRecord) : Prop where
  sound : d.Sound
  consistent : d.cs.Consistent d.objects
  cache : d.cs.CacheSound d.objects
  writes : ∀ w ∈ log, w.Shown d
  pieces : d.idx.PiecesOf (Logged log)

theorem Provenance.attributed {d : Daemon} {log : List WriteRecord}
    (provenance : Provenance d log) : Attributed d log where
  sound := provenance.sound
  consistent := provenance.consistent
  cache := provenance.cache
  writes := fun w member => (provenance.writes w member).shown
  pieces := provenance.pieces

/-- What an extent of a file shows was written to the file. -/
theorem Attributed.wrote {d : Daemon} {log : List WriteRecord} (attributed : Attributed d log)
    {ino : Ino} {exts : List Extent} (listed : d.idx.extents.get ino = some exts) {e : Extent}
    (member : e ∈ exts) {i : Nat} (inside : (i : Int) < e.length) {value : UInt8}
    (found : d.cs.byteOf d.objects e.chunkID (e.chunkOffset.toNat + i) = some value) :
    Wrote log ino (e.fileOffset + i) value := by
  obtain ⟨range, whole, ⟨-, w, inLog, isIno, rfl⟩, chunk, shift, start, stop, -⟩ :=
    attributed.pieces ino exts listed e member
  have shown := attributed.writes w inLog
  have low := range.chunkOffset
  have wholeLow := shown.range.chunkOffset
  have length := shown.length
  refine ⟨w, inLog, isIno, by omega, shown.bytes _ value (by omega) ?_⟩
  rw [← chunk, ← found]
  congr 1
  omega

/-- The request is a read of the file from `off` on. -/
def Call.ReadsFrom (ino : Ino) (off : Int) (request : Call) : Prop :=
  ∃ dest now, request = .read ino dest off now

/-- The limits of a read: its end is that of its range, or has wrapped. -/
structure Call.ReadLimits (off fin : Int) : Prop where
  offRange : IsInt64 off
  finRange : IsInt64 fin
  ordered : off ≤ fin ∨ fin + 9223372036854775808 < off

/-- What a suspended call that started as `request` knows: a write, that its
bytes are where its extent says; a read, that what it has copied was written to
its file and that what it will copy from was too. -/
def Call.Traced (d : Daemon) (log : List WriteRecord) : Call → Call → Prop
  | .writeRecord ino data ext _, _ => (⟨ino, data, ext⟩ : WriteRecord).Written d
  | .mutate _, _ => False
  | .read ino dest off now, request =>
      request = .read ino dest off now ∧ IsInt64 off ∧ (dest : Int) < 9223372036854775808
  | .readExtents ino off fin _, request => request.ReadsFrom ino off ∧ ReadLimits off fin
  | .readChunk ino off fin _ e rest buf, request =>
      request.ReadsFrom ino off ∧ ReadLimits off fin ∧ skips off fin e = false ∧
        (∀ x ∈ e :: rest, x.PieceOf (Logged log ino)) ∧ Owned log ino off buf
  | .readTouch ino _ buf, request => ∃ off, request.ReadsFrom ino off ∧ Owned log ino off buf
  | _, _ => True

section Steps

variable {cfg : Config} {d d' : Daemon} {o : Oracle} {a : Answer} {log : List WriteRecord}
  {c request : Call}

theorem Call.Traced.scripted (traced : c.Traced d log request) (m : Mutation) :
    c ≠ .mutate m := by
  rintro rfl
  exact traced

/-- Reads are of chunks. -/
theorem Call.Traced.readsChunks (traced : c.Traced d log request) {id : Key} {offset length : Int}
    (asks : c.effect = .readChunk id offset length) : ∃ seq, id = chunkID seq := by
  cases c <;> cases asks
  obtain ⟨-, -, -, pieces, -⟩ := traced
  obtain ⟨-, whole, ⟨⟨seq, minted⟩, -⟩, isPart⟩ := pieces _ (List.mem_cons_self ..)
  exact ⟨seq, isPart.chunk.trans minted⟩

theorem Provenance.of_apply (provenance : Provenance d log) (callSound : c.Sound)
    (traced : c.Traced d log request) (applied : d.apply c.effect o = some (d', a)) :
    Provenance d' (logWrite log c a) where
  sound := provenance.sound.of_apply callSound applied
  consistent := provenance.consistent.of_apply applied
  cache := provenance.cache.of_apply provenance.consistent applied
    fun _ _ _ asks => traced.readsChunks asks
  writes := by
    intro w member
    rcases mem_logWrite member with old | ⟨now, rfl⟩
    · exact (provenance.writes w old).of_apply provenance.consistent applied
    · exact WriteRecord.Written.of_apply traced provenance.consistent applied
  pieces := provenance.pieces.of_apply callSound traced.scripted applied

/-- What another call knows survives a step. -/
theorem Call.Traced.of_other {u note : Call} (knows : u.Traced d log note)
    (consistent : d.cs.Consistent d.objects) (applied : d.apply c.effect o = some (d', a)) :
    u.Traced d' (logWrite log c a) note := by
  have keeps : ∀ w ∈ log, w ∈ logWrite log c a := fun w old => mem_logWrite_of_mem old c a
  cases u
  case writeRecord ino data ext now =>
    exact WriteRecord.Written.of_apply knows consistent applied
  case readChunk ino off fin now e rest buf =>
    obtain ⟨reads, limits, met, pieces, owned⟩ := knows
    refine ⟨reads, limits, met, fun x member => ?_, owned.mono keeps⟩
    exact (pieces x member).mono fun _ logged => logged.mono fun w old _ => keeps w old
  case readTouch ino now buf =>
    obtain ⟨off, reads, owned⟩ := knows
    exact ⟨off, reads, owned.mono keeps⟩
  all_goals exact knows

/-- The loop of a read goes on over pieces of writes to the file. -/
theorem Call.traced_nextRead {ino : Ino} {off fin now : Int} {exts : List Extent} {buf : Bytes}
    (reads : request.ReadsFrom ino off) (limits : ReadLimits off fin)
    (pieces : ∀ e ∈ exts, e.PieceOf (Logged log ino)) (owned : Owned log ino off buf) :
    (nextRead ino off fin now exts buf).Traced d log request := by
  unfold nextRead
  split
  next => exact ⟨off, reads, owned⟩
  next e rest left =>
    have met : skips off fin e = false := by
      have head := List.head?_dropWhile_not (skips off fin) exts
      rw [left] at head
      simpa using head
    refine ⟨reads, limits, met, fun x member => pieces x ?_, owned⟩
    rw [← left] at member
    exact (List.dropWhile_suffix _).subset member

/-- What a call knows when it goes on. -/
theorem Call.Traced.of_follows (attributed : Attributed d log) (callSound : c.Sound)
    (traced : c.Traced d log request) (applied : d.apply c.effect o = some (d', a)) {c' : Call}
    (follows : c.Follows cfg a c') : c'.Traced d' (logWrite log c a) request := by
  have after := attributed.sound.of_apply callSound applied
  cases follows
  case writeRecord ino data off now ext =>
    obtain ⟨start, buffer, -, rfl, fits⟩ := Daemon.apply_append applied
    have small := attributed.sound.chunkSize
    exact ⟨after.active, .of_append buffer callSound (by omega) _⟩
  case readExtents ino dest off now inode fin inside limit =>
    obtain ⟨same, offRange, destRange⟩ := traced
    refine ⟨⟨dest, now, same⟩, offRange, ?_, ?_⟩
    · have stop := wrap64_range (off + dest)
      unfold IsInt64 at offRange stop ⊢
      omega
    · unfold IsInt64 at offRange
      unfold wrap64 at limit
      omega
  case readFirst ino off fin now exts =>
    obtain ⟨reads, limits⟩ := traced
    obtain ⟨rfl, listed⟩ := Daemon.apply_getExtents applied
    exact traced_nextRead reads limits (attributed.pieces ino exts listed) (.zeros _ _ _ _)
  case readNext ino off fin now e rest buf data buf' copied =>
    obtain ⟨reads, limits, met, pieces, owned⟩ := traced
    have here := pieces e (List.mem_cons_self ..)
    have within := readsWithin here.range limits.offRange limits.finRange limits.ordered met
    have plain : wrap64 (readOffset off e + readLength off fin e) =
        readOffset off e + readLength off fin e := by
      obtain ⟨start, offset, length, stop⟩ := within
      have low := here.range.chunkOffset
      have high := here.range.chunkEnd
      exact wrap64_of_nonneg (by omega) (by omega)
    have bytes := Daemon.apply_readChunk attributed.cache.coherent plain applied
    refine traced_nextRead reads limits (fun x member => ?_) ?_
    · exact pieces x (List.mem_cons_of_mem _ member)
    · exact owned.copy attributed.writes here limits.offRange within bytes copied
  all_goals trivial

/-- A read that returns data returns owned bytes. -/
theorem Call.Traced.returns (traced : c.Traced d log request) {bytes : Bytes}
    (returned : resume cfg c a = .inr (.data bytes)) {ino : Ino} {dest : Nat} {off now : Int}
    (asked : request = .read ino dest off now) : Owned log ino off bytes := by
  rcases data_of_resume returned with
    ⟨_, _, _, _, _, -, -, -, rfl⟩ | ⟨_, _, _, _, -, -, rfl⟩ | ⟨ino', now', rfl, -⟩
  · exact nofun
  · exact nofun
  · obtain ⟨off', ⟨dest', start, same⟩, owned⟩ := traced
    rw [asked] at same
    cases same
    exact owned

end Steps

/-- A thread's note is the request it started as. -/
def keepRequest (request _ : Call) (_ : Answer) (_ : Daemon) : Call := request

/-- The record is the log of writes. -/
def logStep (log : List WriteRecord) (thread : Call × Call) (answer : Answer × Daemon) :
    List WriteRecord :=
  logWrite log thread.1 answer.1

/-- The requests, with the length of a buffer an `int`, and `Seal`. -/
def Call.IsSessionCall : Call → Prop
  | .read _ dest off _ => IsInt64 off ∧ (dest : Int) < 9223372036854775808
  | .sealActive => True
  | c => c.IsRequest

instance (c : Call) : Decidable c.IsSessionCall := by
  induction c using Call.casesOn <;> dsimp only [Call.IsSessionCall] <;> infer_instance

theorem Call.IsSessionCall.traced {c : Call} (isCall : c.IsSessionCall) (d : Daemon)
    (log : List WriteRecord) : c.Sound ∧ c.Traced d log c := by
  cases c <;> first
    | exact ⟨trivial, trivial⟩
    | exact isCall.elim
    | exact ⟨isCall, trivial⟩
    | exact ⟨trivial, rfl, isCall⟩

/-- Any such call starts at any time, and every call may go on. -/
def sessionCalls (_ : Pool Daemon (Call × Call) (List WriteRecord)) :
    Event (Call × Call) Oracle → Prop
  | .spawn (c, request) => request = c ∧ c.IsSessionCall
  | .run _ _ => True

instance (pool : Pool Daemon (Call × Call) (List WriteRecord))
    (event : Event (Call × Call) Oracle) :
    Decidable (sessionCalls pool event) := by
  induction event using Event.casesOn <;> dsimp only [sessionCalls] <;> infer_instance

/-- No call is under way and the index has its extents from the log, as in an
empty filesystem. -/
def Accounted (pool : Pool Daemon (Call × Call) (List WriteRecord)) : Prop :=
  pool.threads = [] ∧ Provenance pool.shared pool.record

theorem freshDaemon_accounted {maxChunkSize : Int} (small : maxChunkSize < 9223372036854775808)
    (blockSize now : Int) (cached : Bool) :
    Accounted ⟨freshDaemon maxChunkSize blockSize now cached, [], []⟩ := by
  refine ⟨rfl, freshDaemon_sound small blockSize now cached, ?_, ?_, nofun, ?_⟩
  · cases cached
    · exact ChunkStore.new_consistent maxChunkSize
    · exact (ChunkStore.new_consistent maxChunkSize).with_cache _
  · cases cached
    · constructor <;> intro files enabled <;> cases enabled
    · constructor <;> intro files enabled id file found <;> cases enabled <;> cases found
  · exact fun ino exts stored => by cases stored

theorem Provenance.of_reachable {cfg : Config} {pool : Pool Daemon (Call × Call) (List WriteRecord)}
    (reached : Reachable ((daemonSys cfg).annotated keepRequest) logStep Accounted sessionCalls
      pool) :
    Provenance pool.shared pool.record ∧
      ∀ t ∈ pool.threads, t.1.Sound ∧ t.1.Traced pool.shared pool.record t.2 := by
  refine Reachable.annotated_invariant Provenance
    (fun d log c request => c.Sound ∧ c.Traced d log request) ?_ ?_ ?_ reached
  · rintro pool ⟨idle, provenance⟩
    refine ⟨provenance, fun t member => ?_⟩
    rw [idle] at member
    cases member
  · rintro pool c request - ⟨rfl, isCall⟩
    exact isCall.traced pool.shared pool.record
  · intro d log before c request after o d' a provenance each _ applied
    obtain ⟨sound, traced⟩ := each (c, request) (by simp)
    refine ⟨provenance.of_apply sound traced applied, fun c' continues => ?_, fun u member => ?_⟩
    · have follows := Call.follows_of_resume continues
      exact ⟨sound.of_follows provenance.sound applied follows,
        traced.of_follows provenance.attributed sound applied follows⟩
    · have inPool : u ∈ before ++ (c, request) :: after := by
        simp only [List.mem_append, List.mem_cons] at member ⊢
        tauto
      exact ⟨(each u inPool).1, (each u inPool).2.of_other provenance.consistent applied⟩

/-- In every run of one session, every byte that a successful read returns is
zero or was written to its offset of the same file, and every extent of a file
is a part of an extent that a write to the file was given, at the same distance
between file offset and chunk offset. -/
theorem reads_return_own_bytes {cfg : Config} {pool : Pool Daemon (Call × Call) (List WriteRecord)}
    (reached : Reachable ((daemonSys cfg).annotated keepRequest) logStep Accounted sessionCalls
      pool) :
    (∀ c ino dest off now o d' a bytes, (c, Call.read ino dest off now) ∈ pool.threads →
        pool.shared.apply c.effect o = some (d', a) → c.resume cfg a = .inr (.data bytes) →
          Owned pool.record ino off bytes) ∧
      ∀ ino exts, pool.shared.idx.extents.get ino = some exts → ∀ e ∈ exts,
        ∃ w ∈ pool.record, w.ino = ino ∧ e.Part w.ext := by
  obtain ⟨provenance, each⟩ := Provenance.of_reachable reached
  refine ⟨fun c ino dest off now o d' a bytes member applied returned => ?_,
    fun ino exts stored e member => ?_⟩
  · exact (each _ member).2.returns returned rfl
  · obtain ⟨-, whole, ⟨-, w, inLog, isIno, rfl⟩, isPart⟩ :=
      provenance.pieces ino exts stored e member
    exact ⟨w, inLog, isIno, isPart⟩

/-- Two files whose bytes share a chunk, and a read of the first one while the
second one is truncated. -/
def sharedChunk : List (Event (Call × Call) Oracle) :=
  let call (c : Call) (steps : Nat) : List (Event (Call × Call) Oracle) :=
    .spawn (c, c) :: List.replicate steps (.run 0 {})
  call (.make .regular 1 [97] 0o644 0 0 1) 3 ++ call (.make .regular 1 [98] 0o644 0 0 1) 3 ++
    call (.write 2 [7, 8, 9] 0 2) 4 ++ call (.write 3 [5, 6] 0 2) 4 ++
    call (.read 2 4 1 3) 2 ++
    [.spawn (.setattr 3 { valid := 8, size := 1 } 4, .setattr 3 { valid := 8, size := 1 } 4),
      .run 1 {}, .run 0 {}]

/-- The read returns the two bytes of its own file. -/
theorem reads_return_own_bytes_sharedChunk :
    ∃ pool : Pool Daemon (Call × Call) (List WriteRecord), ∃ c d',
      (c, Call.read 2 4 1 3) ∈ pool.threads ∧
      pool.shared.apply c.effect {} = some (d', .done) ∧
      c.resume sampleConfig .done = .inr (.data [8, 9]) ∧ Owned pool.record 2 1 [8, 9] ∧
      ∃ w ∈ pool.record, w.ino = 3 ∧ Extent.Part ⟨chunkID 0, 3, 1, 0⟩ w.ext := by
  have ends : (((daemonSys sampleConfig).annotated keepRequest).run logStep sessionCalls
      ⟨freshDaemon 8 4096 0 false, [], []⟩ sharedChunk).map (fun pool =>
        (pool.threads.head?, pool.shared.idx.extents.get 3)) =
      some (some (.readTouch 2 3 [8, 9], .read 2 4 1 3), some [⟨chunkID 0, 3, 1, 0⟩]) := by
    decide +kernel
  obtain ⟨pool, finished, shown⟩ := Option.map_eq_some_iff.mp ends
  obtain ⟨first, extents⟩ := Prod.mk.inj shown
  obtain ⟨owned, parts⟩ := reads_return_own_bytes
    (.of_run (.start (freshDaemon_accounted (by decide) 4096 0 false)) finished)
  have member := List.mem_of_mem_head? (Option.mem_def.mpr first)
  exact ⟨pool, .readTouch 2 3 [8, 9], _, member, rfl, rfl,
    owned _ _ _ _ _ {} _ .done _ member rfl rfl, parts 3 _ extents _ (List.mem_singleton_self _)⟩

end Fusey
