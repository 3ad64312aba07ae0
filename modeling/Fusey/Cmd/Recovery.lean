import Fusey.Cmd.CleanRestarts
import Fusey.Fuse.LatestWrites

/-!
Contract: a crash of a mounted daemon between any two steps, and the session
after it on the same store and cache directory.

Owns:
- the account of a session: its states, each with the latest write at every
  offset;
- what a session leaves in the snapshot and under the index key: indices that
  show the latest writes of one of its moments;
- what survives a crash, and when the loaded index names only bytes that do;
- that then no extent of the loaded index names a chunk the new session writes
  to, and that a read in that session returns at every offset the byte of the
  latest write there, or zero where there is none;
- a crash before `FlushActive` after which a file shows the bytes of another.

Does not own which of the moments before the crash the loaded index shows.
-/

set_option autoImplicit false

namespace Fusey

open Interleaving ChunkStore

/-! ### The account of a session -/

/-- The log of writes, the latest write at each offset, and every state from the
first one on with the latest writes then. -/
structure Account where
  log : List WriteRecord
  latest : LatestWrites
  moments : List (Daemon × LatestWrites)

/-- The account of a session that has just begun. -/
def Account.opening (d : Daemon) (latest : LatestWrites) (log : List WriteRecord) : Account :=
  ⟨log, latest, [(d, latest)]⟩

/-- A step adds the state it leaves; `G` is what a thread carries. -/
def Account.extend {G : Type} (account : Account) (thread : Call × G)
    (answer : Answer × Daemon) : Account where
  log := logWrite account.log thread.1 answer.1
  latest := account.latest.note thread.1 answer.1
  moments := account.moments ++ [(answer.2, account.latest.note thread.1 answer.1)]

/-- The states and the log alone. -/
def Account.past (account : Account) : Past := ⟨account.log, account.moments.map Prod.fst⟩

theorem Account.past_extend (account : Account) (thread : Call × Stamp)
    (answer : Answer × Daemon) :
    (account.extend thread answer).past = account.past.extend thread answer := by
  simp only [Account.past, Account.extend, Past.extend, List.map_append, List.map_cons,
    List.map_nil]

/-! ### Before the crash -/

/-- The index in `data`, if there is one, has its extents from writes to its files
and shows the latest writes of a moment. -/
def Recorded (codec : CborCodec) (account : Account) (data : Bytes) : Prop :=
  ∀ blockSize idx, decodeIndex codec blockSize data = some idx →
    idx.Restorable ∧ idx.PiecesOf (Logged account.log) ∧
      ∃ moment ∈ account.moments, idx.ShowsLogged moment.2 account.log

/-- What holds of the daemon, its account and its two persisted indices. -/
structure Chronicle (codec : CborCodec) (d : Daemon) (account : Account) : Prop where
  provenance : Provenance d account.log
  plain : ∀ w ∈ account.log, w.ext.Plain
  shows : d.idx.ShowsLogged account.latest account.log
  current : (d, account.latest) ∈ account.moments
  neat : d.dir.Neat
  snapshot : ∀ data, d.dir.snapshot = some data → Recorded codec account data
  remote : ∀ data, d.objects.get indexKey = some data → Recorded codec account data

/-- A suspended call that will keep it. -/
structure Call.Chronicled (codec : CborCodec) (d : Daemon) (account : Account)
    (c request : Call) : Prop where
  sound : c.Sound
  traced : c.Traced d account.log request
  plain : c.Plain
  saving : c.Saving (Recorded codec account) d
  puts : c.PutsOnly (Recorded codec account)

section Step

variable {cfg : Config} {d d' : Daemon} {o : Oracle} {a : Answer} {account : Account}
  {c c' request : Call}

theorem Recorded.extend {codec : CborCodec} {data : Bytes} (recorded : Recorded codec account data)
    (thread : Call × Call) (answer : Answer × Daemon) :
    Recorded codec (account.extend thread answer) data := by
  intro blockSize idx decoded
  obtain ⟨restorable, pieces, moment, member, shows⟩ := recorded blockSize idx decoded
  have grows : ∀ w ∈ account.log, w ∈ (account.extend thread answer).log := fun w isLogged =>
    mem_logWrite_of_mem isLogged _ _
  exact ⟨restorable, pieces.mono fun _ _ logged => logged.mono fun w isLogged _ => grows w isLogged,
    moment, List.mem_append_left _ member, shows.mono grows⟩

/-- What is persisted is the index. -/
theorem Chronicle.recorded {codec : CborCodec} (chronicle : Chronicle codec d account)
    {order : List DirEntry} {data : Bytes} (lists : d.idx.Lists order)
    (encoded : encodeSnapshot codec (d.idx.snapshot order) = some data) :
    Recorded codec account data := by
  intro blockSize idx decoded
  have restorable := chronicle.provenance.sound.restorable
  refine ⟨restorable.legible lists encoded blockSize idx decoded, ?_⟩
  rw [restorable.of_decodes lists encoded decoded]
  exact ⟨chronicle.provenance.pieces, _, chronicle.current,
    chronicle.shows.shows.of_file rfl rfl rfl, chronicle.shows.logged⟩

theorem Chronicle.of_apply (chronicle : Chronicle cfg.codec d account)
    (mine : c.Chronicled cfg.codec d account request) (plainly : c.RecordsPlainly d.idx)
    (applied : d.apply c.effect o = some (d', a)) :
    Chronicle cfg.codec d' (account.extend (c, request) (a, d')) where
  provenance := chronicle.provenance.of_apply mine.sound mine.traced applied
  plain := plain_logWrite chronicle.plain mine.plain a
  shows := chronicle.shows.of_apply mine.sound mine.traced.scripted plainly applied
  current := List.mem_append_right _ (List.mem_singleton_self _)
  neat := Daemon.neat_of_apply chronicle.neat applied
  snapshot := by
    intro data present
    rcases mine.saving.snapshot chronicle.neat applied with
      same | ⟨-, data', -, -, recorded, renamed⟩
    · exact (chronicle.snapshot data (same ▸ present)).extend _ _
    · cases renamed.symm.trans present
      exact recorded.extend _ _
  remote := fun data stored => Recorded.extend
    (mine.puts.indexObject chronicle.provenance.sound.active chronicle.remote applied data stored)
    _ _

theorem Call.Chronicled.of_follows (mine : c.Chronicled cfg.codec d account request)
    (chronicle : Chronicle cfg.codec d account) (applied : d.apply c.effect o = some (d', a))
    (follows : c.Follows cfg a c') :
    c'.Chronicled cfg.codec d' (account.extend (c, request) (a, d')) request where
  sound := mine.sound.of_follows chronicle.provenance.sound applied follows
  traced := mine.traced.of_follows chronicle.provenance.attributed mine.sound applied follows
  plain := mine.plain.of_follows applied follows
  saving := (mine.saving.of_follows applied follows fun _ _ _ lists encoded =>
    chronicle.recorded lists encoded).mono fun _ recorded => recorded.extend _ _
  puts := (Call.PutsOnly.of_follows applied follows fun _ lists encoded =>
    chronicle.recorded lists encoded).mono fun _ recorded => recorded.extend _ _

end Step

/-- Calls come one after the other, at offsets that files have, and a write is
recorded only where it splits no inner extent. -/
def oneByOne (pool : Pool Daemon (Call × Call) Account) : Event (Call × Call) Oracle → Prop
  | .spawn (c, request) => request = c ∧ c.IsSessionCall ∧ c.Plain ∧ pool.threads = []
  | .run i _ => ∀ t ∈ pool.threads[i]?, t.1.RecordsPlainly pool.shared.idx

instance (pool : Pool Daemon (Call × Call) Account) (event : Event (Call × Call) Oracle) :
    Decidable (oneByOne pool event) := by
  induction event using Event.casesOn <;> dsimp only [oneByOne] <;> infer_instance

/-- No call is under way and every index shows what the account has, as in an
empty filesystem. -/
def Logging (codec : CborCodec) (pool : Pool Daemon (Call × Call) Account) : Prop :=
  pool.threads = [] ∧ Chronicle codec pool.shared pool.record

theorem Chronicle.of_reachable {cfg : Config} {pool : Pool Daemon (Call × Call) Account}
    (reached : Reachable ((daemonSys cfg).annotated keepRequest) Account.extend
      (Logging cfg.codec) oneByOne pool) : Chronicle cfg.codec pool.shared pool.record := by
  have alone := Reachable.exclusive (fun _ => true) ?_ ?_ ?_ reached
  refine (Reachable.annotated_invariant (Chronicle cfg.codec)
    (fun d account c request => c.Chronicled cfg.codec d account request) ?_ ?_ ?_ alone).1
  · rintro pool ⟨idle, chronicle⟩
    refine ⟨chronicle, fun t member => ?_⟩
    rw [idle] at member
    cases member
  · rintro pool c request - ⟨-, rfl, isCall, plain, -⟩
    obtain ⟨sound, traced⟩ := isCall.traced pool.shared pool.record.log
    refine ⟨sound, traced, plain, ?_, ?_⟩
    · cases request <;> trivial
    · cases request <;> trivial
  · rintro d account before c request after o d' a chronicle each ⟨single, plainly⟩ applied
    have mine := each (c, request) (by simp)
    have plainly := plainly (c, request) (getElem?_moving before (c, request) after)
    refine ⟨chronicle.of_apply mine plainly applied, fun c' continues => ?_, fun u member => ?_⟩
    · exact mine.of_follows chronicle applied (Call.follows_of_resume continues)
    · exact absurd (not_critical_of_count single rfl member) (by decide)
  · rintro pool ⟨idle, -⟩
    rw [idle]
    exact Nat.zero_le _
  · rintro pool ⟨c, request⟩ ⟨-, -, -, idle⟩
    refine Or.inr fun u member => ?_
    rw [idle] at member
    cases member
  · exact fun _ _ _ _ _ _ _ _ _ _ _ => Or.inl rfl

/-! ### After the crash -/

/-- Files of a chunk cache that a crash may have cut. -/
def Torn (before after : Objects) : Prop :=
  ∀ id file, after.get id = some file → ∃ whole, before.get id = some whole ∧ file <+: whole

/-- Every byte that the index names is stored, in chunks with numbers that
`RecoverNextSeq` can read. -/
structure Durable (objects : Objects) (idx : Index) : Prop where
  small : ChunksBelow 100000000 objects
  stored : ∀ ino exts, idx.extents.get ino = some exts → ∀ e ∈ exts, InObject objects e

/-- The writes of which something is stored. -/
def survivors (objects : Objects) (log : List WriteRecord) : List WriteRecord :=
  log.filter fun w => (objects.get w.ext.chunkID).isSome

/-- A write that will show no other bytes: its own are there, or its chunk will
not be written to. -/
def WriteRecord.Lasting (d : Daemon) (w : WriteRecord) : Prop :=
  w.Written d ∨ MintedExtent w.ext ∧ d.cs.Frozen w.ext.chunkID ∧ w.Shown d

/-- What holds of the daemon and the log in a session after a crash. -/
structure Recovered (d : Daemon) (log : List WriteRecord) : Prop where
  sound : d.Sound
  consistent : d.cs.Consistent d.objects
  cache : d.cs.CacheSound d.objects
  writes : ∀ w ∈ log, w.Lasting d
  plain : ∀ w ∈ log, w.ext.Plain
  pieces : d.idx.PiecesOf (Logged log)
  reached : d.idx.PiecesOf fun _ => d.Reaches

theorem WriteRecord.Lasting.shown {d : Daemon} {w : WriteRecord} (lasting : w.Lasting d) :
    w.Shown d := by
  rcases lasting with written | ⟨-, -, shown⟩
  · exact written.shown
  · exact shown

theorem Recovered.attributed {d : Daemon} {log : List WriteRecord} (recovered : Recovered d log) :
    Attributed d log where
  sound := recovered.sound
  consistent := recovered.consistent
  cache := recovered.cache
  writes := fun w member => (recovered.writes w member).shown
  pieces := recovered.pieces

section Step

variable {cfg : Config} {d d' : Daemon} {o : Oracle} {a : Answer} {log : List WriteRecord}
  {c request : Call}

theorem WriteRecord.Lasting.of_apply {e : Effect} {w : WriteRecord} (lasting : w.Lasting d)
    (consistent : d.cs.Consistent d.objects) (applied : d.apply e o = some (d', a)) :
    w.Lasting d' := by
  rcases lasting with written | ⟨⟨seq, minted⟩, isFrozen, shown⟩
  · exact Or.inl (written.of_apply consistent applied)
  · rw [minted] at isFrozen
    obtain ⟨still, same⟩ := Daemon.frozen_of_apply consistent applied isFrozen
    refine Or.inr ⟨⟨seq, minted⟩, minted ▸ still, shown.range, shown.length, ?_⟩
    intro i value below found
    refine shown.bytes i value below ?_
    rw [minted] at found ⊢
    rw [byteOf_of_ne (still.ne_activeID (consistent.of_apply applied)), objectByte, same] at found
    rw [byteOf_of_ne (isFrozen.ne_activeID consistent)]
    exact found

theorem Daemon.Reaches.of_apply {e : Effect} {ext : Extent} (reaches : d.Reaches ext)
    (consistent : d.cs.Consistent d.objects) (applied : d.apply e o = some (d', a)) :
    d'.Reaches ext where
  minted := reaches.minted
  range := reaches.range
  present := by
    intro i below
    obtain ⟨value, found⟩ := Option.ne_none_iff_exists'.mp (reaches.present i below)
    rw [Daemon.byteOf_of_apply consistent applied reaches.minted _ value found]
    exact Option.some_ne_none _

theorem Recovered.of_apply (recovered : Recovered d log) (callSound : c.Sound)
    (traced : c.Traced d log request) (plain : c.Plain)
    (applied : d.apply c.effect o = some (d', a)) : Recovered d' (logWrite log c a) where
  sound := recovered.sound.of_apply callSound applied
  consistent := recovered.consistent.of_apply applied
  cache := recovered.cache.of_apply recovered.consistent applied
    fun _ _ _ asks => traced.readsChunks asks
  writes := by
    intro w member
    rcases mem_logWrite member with old | ⟨now, rfl⟩
    · exact (recovered.writes w old).of_apply recovered.consistent applied
    · exact Or.inl (WriteRecord.Written.of_apply traced recovered.consistent applied)
  plain := plain_logWrite recovered.plain plain a
  pieces := recovered.pieces.of_apply callSound traced.scripted applied
  reached := by
    have before : d.idx.PiecesOf fun _ => d'.Reaches :=
      recovered.reached.mono fun _ _ reaches => reaches.of_apply recovered.consistent applied
    refine before.step callSound traced.scripted applied fun ino data ext now isWrite _ => ?_
    subst isWrite
    exact (WriteRecord.Written.of_apply traced recovered.consistent applied).reaches

end Step

theorem recovered_followed : Followed Recovered where
  readable := fun recovered =>
    { attributed := recovered.attributed
      plain := recovered.plain
      reached := recovered.reached }
  step := fun recovered sound traced plain applied =>
    recovered.of_apply sound traced plain applied

/-! ### What a file shows -/

/-- A file that is there has the bytes of its latest writes. -/
theorem Readable.byteIn_eq {d : Daemon} {log : List WriteRecord} {latest : LatestWrites}
    (readable : Readable d log) (showsLogged : d.idx.ShowsLogged latest log) {ino : Ino}
    (listed : d.idx.extents.get ino ≠ none) (x : Int) : d.byteIn ino x = latest.byte ino x := by
  obtain ⟨file, held, regular⟩ := showsLogged.shows.onlyFiles ino listed
  obtain ⟨-, -, -, -, extents⟩ := Index.file_eq_some.mp held
  have shows := showsLogged.shows.files ino file held regular
  rw [Daemon.byteIn, extents, shows.bytes, LatestWrites.byte]
  cases found : latest ino x with
  | none => rfl
  | some w =>
      rw [Option.bind_some, Option.bind_some, Extent.layer, if_pos (shows.covers x w found),
        Option.getD_some, totalByte]
      obtain ⟨inLog, -⟩ := showsLogged.logged ino ⟨file, held, regular⟩ x w found
      have shown := readable.attributed.writes w inLog
      -- The byte can be read, since an extent of the file is in its place.
      obtain ⟨exts, isList, e, member, covers, id, place⟩ :=
        showsLogged.shows.exists_extent ⟨file, held, regular⟩ found
      obtain ⟨range, whole, reaches, isPart⟩ := readable.reached ino exts isList e member
      obtain ⟨value, present⟩ := Option.ne_none_iff_exists'.mp
        (present_of_part isPart reaches.range reaches.present (x - e.fileOffset).toNat
          (by have := covers.1; have := covers.2; omega))
      obtain ⟨start, stop⟩ := shows.covers x w found
      have low := range.chunkOffset
      have low' := shown.range.chunkOffset
      have length := shown.length
      have here : e.chunkOffset.toNat + (x - e.fileOffset).toNat =
          w.ext.chunkOffset.toNat + (x - w.ext.fileOffset).toNat := by
        have := covers.1
        omega
      have there : (w.ext.chunkOffset + (x - w.ext.fileOffset)).toNat =
          w.ext.chunkOffset.toNat + (x - w.ext.fileOffset).toNat := by omega
      rw [id, here] at present
      rw [there, present, shown.bytes _ value (by omega) present]

/-- What the account tells of a session after a crash: the index shows the latest
writes, and at every moment a file that is there has their bytes. -/
structure Told (d : Daemon) (account : Account) : Prop where
  shows : d.idx.ShowsLogged account.latest account.log
  moments : ∀ moment ∈ account.moments, ∀ ino, moment.1.idx.extents.get ino ≠ none →
    ∀ x, moment.1.byteIn ino x = moment.2.byte ino x

theorem Told.opening {d : Daemon} {latest : LatestWrites} {log : List WriteRecord}
    (recovered : Recovered d log) (shows : d.idx.ShowsLogged latest log) :
    Told d (.opening d latest log) := by
  refine ⟨shows, fun moment member ino listed x => ?_⟩
  rw [List.mem_singleton.mp member] at listed ⊢
  exact (recovered_followed.readable recovered).byteIn_eq shows listed x

theorem Told.of_apply {d d' : Daemon} {account : Account} (told : Told d account)
    (recovered : Recovered d account.log) {c : Call} {stamp : Stamp}
    (tracked : c.Tracked False d account.past stamp) (plainly : c.RecordsPlainly d.idx)
    {o : Oracle} {a : Answer} (applied : d.apply c.effect o = some (d', a)) :
    Told d' (account.extend (c, stamp) (a, d')) := by
  have shows := told.shows.of_apply tracked.sound tracked.traced.scripted plainly applied
  have after := recovered.of_apply tracked.sound tracked.traced tracked.plain applied
  refine ⟨shows, fun moment member ino listed x => ?_⟩
  rcases List.mem_append.mp member with old | new
  · exact told.moments moment old ino listed x
  · rw [List.mem_singleton.mp new] at listed ⊢
    exact (recovered_followed.readable after).byteIn_eq shows listed x

/-- The calls of a session start at any time, stamped, and a write is recorded
only where it splits no inner extent. -/
def plainCalls (pool : Pool Daemon (Call × Stamp) Account) (event : Event (Call × Stamp) Oracle) :
    Prop :=
  kernelCalls ⟨pool.shared, pool.threads, pool.record.past⟩ event ∧
    match event with
    | .spawn _ => True
    | .run i _ => ∀ t ∈ pool.threads[i]?, t.1.RecordsPlainly pool.shared.idx

instance (pool : Pool Daemon (Call × Stamp) Account) (event : Event (Call × Stamp) Oracle) :
    Decidable (plainCalls pool event) := by
  induction event using Event.casesOn <;> dsimp only [plainCalls] <;> infer_instance

section Runs

variable {cfg : Config} {d : Daemon} {latest : LatestWrites} {log : List WriteRecord}
  {pool : Pool Daemon (Call × Stamp) Account}

theorem Recovered.of_reachable (recovered : Recovered d log)
    (reached : Reachable ((daemonSys cfg).annotated keepStamp) Account.extend
      (· = ⟨d, [], .opening d latest log⟩) plainCalls pool) :
    Recovered pool.shared pool.record.log ∧
      ∀ t ∈ pool.threads, t.1.Tracked False pool.shared pool.record.past t.2 := by
  have followed : ∃ past, Reachable ((daemonSys cfg).annotated keepStamp) Past.extend
      (· = ⟨d, [], ⟨log, [d]⟩⟩) kernelCalls ⟨pool.shared, pool.threads, past⟩ ∧
        pool.record.past = past := by
    refine reached.of_record (fun account past => account.past = past) ?_ ?_ ?_
    · rintro account _ thread answer rfl
      exact account.past_extend thread answer
    · rintro pool rfl
      exact ⟨_, rfl, rfl⟩
    · rintro pool _ event rfl admitted
      exact admitted.1
  obtain ⟨_, followed, rfl⟩ := followed
  refine Call.Tracked.of_reachable False recovered_followed ?_ (fun _ _ admitted => admitted)
    False.elim followed
  rintro pool rfl
  exact ⟨rfl, recovered⟩

theorem Told.of_reachable (recovered : Recovered d log) (shows : d.idx.ShowsLogged latest log)
    (reached : Reachable ((daemonSys cfg).annotated keepStamp) Account.extend
      (· = ⟨d, [], .opening d latest log⟩) plainCalls pool) : Told pool.shared pool.record := by
  refine (Reachable.annotated_invariant Told (fun _ _ _ _ => True) ?_ (fun _ _ _ _ _ => trivial) ?_
    (reached.knowing fun _ => recovered.of_reachable)).1
  · rintro pool rfl
    exact ⟨.opening recovered shows, fun _ _ => trivial⟩
  · rintro d account before c stamp after o d' a told - ⟨⟨now, calls⟩, -, plainly⟩ applied
    refine ⟨told.of_apply now (calls (c, stamp) (by simp)) ?_ applied, fun _ _ => trivial,
      fun _ _ => trivial⟩
    exact plainly (c, stamp) (getElem?_moving before (c, stamp) after)

end Runs

/-! ### The restart -/

/-- Latest writes of a moment before the crash; in a new filesystem there are
none. -/
def Account.Knew (account : Account) (latest : LatestWrites) : Prop :=
  latest = (fun _ _ => none) ∨ ∃ moment ∈ account.moments, latest = moment.2

/-- What `loadIndex` finds was recorded. -/
theorem Chronicle.loaded {setup : Setup} {d : Daemon} {account : Account}
    (chronicle : Chronicle setup.cfg.codec d account) {o : LoadOracle} {idx : Index}
    {kept : Option Bytes}
    (loaded : loadIndex setup.cfg.codec setup.blockSize mapStore o d.objects d.dir.snapshot =
      some (idx, kept)) :
    idx.Restorable ∧ idx.PiecesOf (Logged account.log) ∧
      ∃ latest, account.Knew latest ∧ idx.ShowsLogged latest account.log := by
  have decodes : ∀ data, Recorded setup.cfg.codec account data →
      decodeIndex setup.cfg.codec setup.blockSize data = some idx →
      idx.Restorable ∧ idx.PiecesOf (Logged account.log) ∧
        ∃ latest, account.Knew latest ∧ idx.ShowsLogged latest account.log := by
    intro data recorded decoded
    obtain ⟨restorable, pieces, moment, member, shows⟩ := recorded _ idx decoded
    exact ⟨restorable, pieces, moment.2, Or.inr ⟨moment, member, rfl⟩, shows⟩
  cases snapshot : d.dir.snapshot with
  | some data =>
      rw [snapshot] at loaded
      obtain ⟨idx', decoded, same⟩ := Option.map_eq_some_iff.mp loaded
      cases same
      exact decodes data (chronicle.snapshot data snapshot) decoded
  | none =>
      rw [snapshot] at loaded
      rcases loadIndex_none loaded with ⟨-, rfl⟩ | ⟨data, object, decoded⟩
      · exact ⟨Index.new_restorable _ _, fun ino exts stored => (by cases stored), _, Or.inl rfl,
          Index.new_showsLogged _ _ _⟩
      · exact decodes data (chronicle.remote data object) decoded

/-- A latest write of a file whose bytes are stored survives. -/
theorem Durable.showsLogged {objects : Objects} {idx : Index} (durable : Durable objects idx)
    {latest : LatestWrites} {log : List WriteRecord} (showsLogged : idx.ShowsLogged latest log) :
    idx.ShowsLogged latest (survivors objects log) where
  shows := showsLogged.shows
  logged := by
    intro ino held x w found
    obtain ⟨member, isIno⟩ := showsLogged.logged ino held x w found
    obtain ⟨exts, listed, e, inExts, -, id, -⟩ := showsLogged.shows.exists_extent held found
    obtain ⟨-, -, object, stored, -⟩ := durable.stored ino exts listed e inExts
    refine ⟨List.mem_filter.mpr ⟨member, ?_⟩, isIno⟩
    rw [← id]
    exact Option.isSome_iff_exists.mpr ⟨object, stored⟩

/-- Cut files of a sound cache make a sound one. -/
theorem Torn.cacheSound {objects files : Objects} {cs : ChunkStore}
    (torn : Torn (cs.cache.getD ∅) files) (sound : cs.CacheSound objects) (chunkSize : Int)
    (ids : List Key) : (buildChunkStore chunkSize ids files).CacheSound objects := by
  have cached : ∀ id file, files.get id = some file → (∃ seq, id = chunkID seq) ∧
      ∃ object, objects.get id = some object ∧ file <+: object := by
    intro id file found
    obtain ⟨whole, before, isPart⟩ := torn id file found
    cases enabled : cs.cache with
    | none =>
        rw [enabled] at before
        cases before
    | some old =>
        rw [enabled] at before
        obtain ⟨object, stored, inObject⟩ := sound.coherent old enabled id whole before
        exact ⟨sound.chunks old enabled id whole before, object, stored, isPart.trans inObject⟩
  rw [buildChunkStore_eq]
  constructor
  · rintro _ ⟨⟩ id file found
    exact (cached id file found).2
  · rintro _ ⟨⟩ id file found
    exact (cached id file found).1

/-- A write whose chunk stays as it is stored. -/
theorem WriteRecord.Written.lasting {d d' : Daemon} {w : WriteRecord} (written : w.Written d)
    (before : d.cs.Consistent d.objects) (after : d'.cs.Consistent d'.objects)
    (same : d'.objects = d.objects) (frozen : d'.cs.Frozen w.ext.chunkID) : w.Lasting d' := by
  refine Or.inr ⟨written.minted, frozen, written.shown.range, written.shown.length, ?_⟩
  -- What is stored of a chunk is a part of what could be read of it.
  intro i value inside found
  obtain ⟨seq, minted⟩ := written.minted
  rw [minted] at frozen
  rw [minted, byteOf_of_ne (frozen.ne_activeID after), same, ← minted] at found
  exact written.shown.bytes i value inside (before.objectByte_grows _ _ _ found)

theorem InObject.reaches {d : Daemon} {e : Extent} (inObject : InObject d.objects e)
    (minted : MintedExtent e) (range : e.InRange) (consistent : d.cs.Consistent d.objects)
    (frozen : d.cs.Frozen e.chunkID) : d.Reaches e := by
  obtain ⟨low, -, object, stored, inside⟩ := inObject
  refine ⟨minted, range, fun i below => ?_⟩
  obtain ⟨seq, minted⟩ := minted
  rw [minted] at frozen
  rw [Option.mem_def, minted] at stored
  rw [minted, byteOf_of_ne (frozen.ne_activeID consistent), objectByte, stored, Option.bind_some,
    List.getElem?_eq_getElem (by omega)]
  exact Option.some_ne_none _

/-- A crash keeps of each write what is stored of it, and a restart that finds
all chunks of its index starts past them. -/
theorem Chronicle.recovered {setup : Setup} {d d' : Daemon} {account : Account}
    (chronicle : Chronicle setup.cfg.codec d account) {files : Objects}
    (torn : Torn (d.cs.cache.getD ∅) files) {o : MountOracle}
    (mounted : mount setup o d.objects files d.dir.snapshot = some d')
    (durable : Durable d.objects d'.idx) :
    Recovered d' (survivors d.objects account.log) ∧
      (∃ latest, account.Knew latest ∧
        d'.idx.ShowsLogged latest (survivors d.objects account.log)) ∧
      ∀ seq object, d.objects.get (chunkID seq) = some object → d'.cs.Frozen (chunkID seq) := by
  obtain ⟨listed, idx, kept, loaded, rfl⟩ := mount_cases mounted
  obtain ⟨restorable, pieces, latest, knew, shows⟩ := chronicle.loaded loaded
  have below := durable.small.recovered listed
  have consistent := buildChunkStore_consistent below setup.chunkSize files
  have isFrozen : ∀ seq object, d.objects.get (chunkID seq) = some object →
      (buildChunkStore setup.chunkSize o.ids files).Frozen (chunkID seq) :=
    fun seq object stored => buildChunkStore_frozen (below seq object stored) setup.chunkSize files
  refine ⟨⟨mount_sound setup restorable o.ids files d.objects _, consistent,
    torn.cacheSound chronicle.provenance.cache _ _, ?_, ?_, ?_, ?_⟩,
    ⟨latest, knew, durable.showsLogged shows⟩, isFrozen⟩
  · intro w member
    obtain ⟨inLog, stored⟩ := List.mem_filter.mp member
    obtain ⟨object, stored⟩ := Option.isSome_iff_exists.mp stored
    have written := chronicle.provenance.writes w inLog
    obtain ⟨seq, minted⟩ := written.minted
    rw [minted] at stored
    exact written.lasting chronicle.provenance.consistent consistent rfl
      (minted ▸ isFrozen seq object stored)
  · exact fun w member => chronicle.plain w (List.mem_filter.mp member).1
  · have alive : idx.Within fun id => (d.objects.get id).isSome = true := by
      intro ino exts listed e member
      obtain ⟨-, -, object, stored, -⟩ := durable.stored ino exts listed e member
      exact Option.isSome_iff_exists.mpr ⟨object, stored⟩
    refine pieces.relog alive fun ino e stored logged => ?_
    refine logged.mono fun w member same => List.mem_filter.mpr ⟨member, ?_⟩
    rw [same]
    exact stored
  · intro ino exts listed e member
    have range := (pieces ino exts listed e member).range
    obtain ⟨seq, minted⟩ := restorable.minted.minted listed e member
    obtain ⟨-, -, object, stored, -⟩ := durable.stored ino exts listed e member
    rw [Option.mem_def, minted] at stored
    refine .self range (InObject.reaches ?_ ⟨seq, minted⟩ range consistent
      (minted ▸ isFrozen seq object stored))
    exact durable.stored ino exts listed e member

end Fusey
