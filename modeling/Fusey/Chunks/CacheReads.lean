import Fusey.Chunks.Cache

/-!
Contract: reads through the chunk cache against reads of the store
(`internal/chunks/cache.go`, `internal/chunks/local.go`).

Owns:
- for one call of `readRange`, over any directory whose files are parts of the
  objects, when it agrees with `GetRange` of the store: the exact condition on the
  range, the directory and the disk;
- for concurrent calls, that each agrees while no range extends past its object and
  no write to the disk fails: who fetches, who waits and who finds the file does
  not matter.
-/

set_option autoImplicit false

namespace Fusey

open GoInt Interleaving

/-! ### One call -/

/-- The outcome of a read is that of the store: the bytes, or an error for none. -/
def Agrees (direct : Option Bytes) : Except (GoFault ChunkError) Bytes → Prop
  | .ok data => direct = some data
  | .error (.error _) => direct = none
  | .error .panic => False

def CacheReply.ofStore : Option Bytes → CacheReply
  | some data => .ok data
  | none => .error

/-- The file of the chunk serves the range without a fetch. -/
def FileServes (files : Objects) (id : Key) (offset length : Int) : Prop :=
  ∃ file, files.get id = some file ∧ (length = 0 ∨ offset + length ≤ file.length)

/-- The slice that a fetcher returns. -/
theorem sliceBytes_range {object : Bytes} {offset length : Int} (low : 0 ≤ offset)
    (nonneg : 0 ≤ length) (offsetFits : IsInt64 offset) (lengthFits : IsInt64 length)
    (bounded : (object.length : Int) < 9223372036854775808) :
    sliceBytes object offset (wrap64 (offset + length)) =
      if offset + length ≤ object.length then readAt object offset length else none := by
  obtain ⟨_, _⟩ := offsetFits
  obtain ⟨_, _⟩ := lengthFits
  by_cases inside : offset + length ≤ object.length
  · have plain : wrap64 (offset + length) = offset + length :=
      wrap64_of_nonneg (by omega) (by omega)
    rw [if_pos inside, plain, sliceBytes, readAt, if_pos ⟨low, by omega, inside⟩,
      if_pos ⟨low, nonneg, Or.inr inside⟩, add_sub_cancel_left]
  · rw [if_neg inside, sliceBytes, if_neg]
    unfold wrap64
    omega

/-- A call agrees with the store exactly if the object is missing, the file serves
the range, or the fetched chunk can be written and the range is inside it, or it
cannot be written and the store cannot serve the range either. -/
theorem cached_read_agrees_iff {objects files : Objects} {id : Key} {offset length : Int}
    (parts : ∀ file, files.get id = some file →
      ∃ object, objects.get id = some object ∧ file <+: object)
    (low : 0 ≤ offset) (nonneg : 0 ≤ length) (offsetFits : IsInt64 offset)
    (lengthFits : IsInt64 length)
    (bounded : ∀ object, objects.get id = some object →
      (object.length : Int) < 9223372036854775808) (written : Bool) :
    Agrees (mapStore.getRange objects id offset length)
        (ChunkStore.readRange mapStore written objects files id offset length).2 ↔
      ∀ object, objects.get id = some object → FileServes files id offset length ∨
        (if written then offset + length ≤ object.length
        else 0 < length ∧ object.length < offset + length) := by
  rw [ChunkStore.readRange_mapStore, mapStore_getRange, ChunkStore.fetchFullChunk_mapStore]
  cases stored : objects.get id with
  | none =>
      have noFile : files.get id = none := by
        rw [Option.eq_none_iff_forall_ne_some]
        intro file held
        obtain ⟨object, found, -⟩ := parts file held
        cases stored.symm.trans found
      rw [noFile]
      exact iff_of_true rfl fun object found => by cases found
  | some object =>
      have one : ∀ {condition : Bytes → Prop},
          (∀ other, some object = some other → condition other) ↔ condition object :=
        fun {condition} => ⟨fun each => each object rfl, fun holds other same =>
          Option.some.inj same ▸ holds⟩
      rw [one, Option.bind_some]
      by_cases serves : FileServes files id offset length
      · obtain ⟨file, held, fits⟩ := serves
        have read : readAt file offset length = some ((file.drop offset.toNat).take length.toNat) :=
          if_pos ⟨low, nonneg, fits⟩
        obtain ⟨_, found, part⟩ := parts file held
        cases stored.symm.trans found
        rw [held, Option.bind_some, read]
        exact iff_of_true (ReadCall.readAt_of_part part read) (Or.inl ⟨file, held, fits⟩)
      · have missed : (files.get id).bind (fun file => readAt file offset length) = none := by
          rw [Option.bind_eq_none_iff]
          intro file held
          exact if_neg fun inside => serves ⟨file, held, inside.2.2⟩
        rw [missed]
        dsimp only
        cases written with
        | true =>
            rw [if_pos rfl, if_pos rfl,
              sliceBytes_range low nonneg offsetFits lengthFits (bounded object stored)]
            by_cases inside : offset + length ≤ object.length
            · rw [if_pos inside, readAt, if_pos ⟨low, nonneg, Or.inr inside⟩]
              exact iff_of_true rfl (Or.inr inside)
            · rw [if_neg inside]
              exact iff_of_false (fun panics => panics) fun either => either.elim serves inside
        | false =>
            rw [if_neg Bool.false_ne_true, if_neg Bool.false_ne_true, or_iff_right serves]
            change readAt object offset length = none ↔ _
            unfold readAt
            split_ifs with inside
            · exact iff_of_false (fun none => by cases none) (by omega)
            · exact iff_of_true rfl (by omega)

/-! ### Concurrent calls -/

/-- Calls for chunks whose ranges are inside their objects, while the store answers,
the disk accepts every write and no context is cancelled. -/
def quietReads (objects : Objects) (_ : Pool ChunkCache ReadCall (List FetchEvent)) :
    Event ReadCall CacheOracle → Prop
  | .spawn call => ∃ req, call = .check req ∧ req.Safe objects
  | .run _ o => o.ok = true ∧ o.cancelled = false

theorem safeRanges_of_quietReads {objects : Objects}
    (pool : Pool ChunkCache ReadCall (List FetchEvent)) (event : Event ReadCall CacheOracle)
    (admitted : quietReads objects pool event) : safeRanges objects pool event := by
  cases event with
  | spawn call => exact admitted
  | run i o => trivial

/-- The chunks of the fetches, by their numbers. -/
def startedChunks : List FetchEvent → List Key
  | [] => []
  | .started id :: earlier => startedChunks earlier ++ [id]
  | .succeeded _ :: earlier => startedChunks earlier

namespace ReadCall

variable {objects : Objects} {s s' : ChunkCache} {m m' : List FetchEvent} {t u : ReadCall}
  {next : ReadCall ⊕ CacheReply}

/-- Why a step takes the branch of an error when nothing fails. -/
def Excused (objects : Objects) (s : ChunkCache) : ReadCall → ReadCall ⊕ CacheReply → Prop
  | .size req _, .inl (.settle _ _ none) => mapStore.size objects req.chunkID = none
  | .getRange req _ length, .inl (.settle _ _ none) =>
      mapStore.getRange objects req.chunkID 0 length = none
  | .writeTmp _ _ _, .inl (.settle _ _ none) => False
  | .rename req _ _, .inl (.removeTmp _ _) => s.files.get (tmpPath req.chunkID) = none
  | .await _ fetch, .inr _ => s.fetches.get fetch = some ⟨true, true⟩
  | _, _ => True

theorem excused_of_apply {o : CacheOracle} {a : CacheAnswer} (ok : o.ok = true)
    (running : o.cancelled = false)
    (applied : ChunkCache.apply objects s t.effect o = some (s', a)) :
    Excused objects s t (t.resume a) := by
  cases t
  case size req fetch =>
    simp only [effect, ChunkCache.apply, ok, if_true] at applied
    cases sized : mapStore.size objects req.chunkID with
    | none =>
        rw [sized] at applied
        cases applied
        exact sized
    | some length =>
        rw [sized] at applied
        cases applied
        trivial
  case getRange req fetch length =>
    simp only [effect, ChunkCache.apply, ok, if_true] at applied
    cases read : mapStore.getRange objects req.chunkID 0 length with
    | none =>
        rw [read] at applied
        cases applied
        exact read
    | some data =>
        rw [read] at applied
        cases applied
        trivial
  case writeTmp req fetch data =>
    simp only [effect, ChunkCache.apply, ok, if_true] at applied
    cases applied
    trivial
  case rename req fetch data =>
    simp only [effect, ChunkCache.apply, ok, if_true] at applied
    cases found : s.files.get (tmpPath req.chunkID) with
    | none =>
        rw [found] at applied
        cases applied
        exact found
    | some written =>
        rw [found] at applied
        cases applied
        trivial
  case await req fetch =>
    simp only [effect, ChunkCache.apply, running, Bool.false_eq_true, if_false] at applied
    split at applied
    next failed settled =>
      cases applied
      cases failed with
      | true => exact settled
      | false => trivial
    next => cases applied
  all_goals exact True.intro

/-- What a call relies on: the number of its fetch is that of its chunk, a fetch
that it waits for has the outcome of its chunk, and only a missing object makes a
fetch fail. -/
def Relies (objects : Objects) (m : List FetchEvent) : ReadCall → Prop
  | .unlockJoin req fetch | .await req fetch | .unlockFetch req fetch | .size req fetch
  | .getRange req fetch _ | .writeTmp req fetch _ | .rename req fetch _ =>
      (startedChunks m)[fetch]? = some req.chunkID
  | .readJoined req => .succeeded req.chunkID ∈ m
  | .removeTmp _ _ => False
  | .settle req fetch none =>
      (startedChunks m)[fetch]? = some req.chunkID ∧ objects.get req.chunkID = none
  | .settle req fetch (some _) =>
      (startedChunks m)[fetch]? = some req.chunkID ∧ .succeeded req.chunkID ∈ m
  | .relock req _ none | .forget req _ none | .unlockDone req none =>
      objects.get req.chunkID = none
  | _ => True

end ReadCall

/-- Every fetch has a number; entries and settled fetches are those of their chunks. -/
structure ChunkCache.Numbered (objects : Objects) (s : ChunkCache) (m : List FetchEvent) :
    Prop where
  count : (startedChunks m).length = s.nextFetch
  entries : ∀ id fetch, s.inflight.get id = some fetch → (startedChunks m)[fetch]? = some id
  settled : ∀ fetch failed, s.fetches.get fetch = some ⟨true, failed⟩ →
    ∃ id, (startedChunks m)[fetch]? = some id ∧
      (if failed then objects.get id = none else .succeeded id ∈ m)

/-- The record only grows. -/
structure Extends (m m' : List FetchEvent) : Prop where
  started : startedChunks m <+: startedChunks m'
  events : ∀ event ∈ m, event ∈ m'

theorem Extends.number {m m' : List FetchEvent} (grown : Extends m m') {fetch : Nat} {id : Key}
    (number : (startedChunks m)[fetch]? = some id) : (startedChunks m')[fetch]? = some id := by
  obtain ⟨later, same⟩ := grown.started
  rw [← same, List.getElem?_append_left (List.getElem?_eq_some_iff.mp number).1]
  exact number

namespace ReadCall

variable {objects : Objects} {s s' : ChunkCache} {m m' : List FetchEvent} {t u : ReadCall}
  {next : ReadCall ⊕ CacheReply}

theorem Step.extends (step : Step objects s m t s' m' next) : Extends m m' := by
  rcases step.record_cases with same | ⟨started, -⟩ | ⟨succeeded, -⟩
  · rw [same]
    exact ⟨List.prefix_refl _, fun _ => id⟩
  · rw [started]
    exact ⟨List.prefix_append _ _, fun _ => List.mem_cons_of_mem _⟩
  · rw [succeeded]
    exact ⟨List.prefix_refl _, fun _ => List.mem_cons_of_mem _⟩

theorem Relies.mono (relies : t.Relies objects m) (grown : Extends m m') : t.Relies objects m' := by
  cases t
  case unlockJoin | await | unlockFetch | size | getRange | writeTmp | rename =>
    exact grown.number relies
  case readJoined => exact grown.events _ relies
  case settle req fetch result =>
    cases result with
    | none => exact ⟨grown.number relies.1, relies.2⟩
    | some data => exact ⟨grown.number relies.1, grown.events _ relies.2⟩
  case relock req fetch result => cases result <;> exact relies
  case forget req fetch result => cases result <;> exact relies
  case unlockDone req result => cases result <;> exact relies
  all_goals exact relies

/-- A fetch that becomes the fetcher of its chunk takes the next number. -/
theorem number_become (numbered : s.Numbered objects m) (id : Key) :
    (startedChunks (.started id :: m))[s.nextFetch]? = some id := by
  rw [startedChunks, ← numbered.count]
  exact List.getElem?_concat_length

theorem Step.numbered (step : Step objects s m t s' m' next) (numbered : s.Numbered objects m)
    (relies : t.Relies objects m) : s'.Numbered objects m' := by
  have grown := step.extends
  have settled : ∀ fetch failed, s.fetches.get fetch = some ⟨true, failed⟩ →
      ∃ id, (startedChunks m')[fetch]? = some id ∧
        (if failed then objects.get id = none else .succeeded id ∈ m') := by
    intro fetch failed isSettled
    obtain ⟨id, number, outcome⟩ := numbered.settled fetch failed isSettled
    refine ⟨id, grown.number number, ?_⟩
    cases failed with
    | true => exact outcome
    | false => exact grown.events _ outcome
  have entries : ∀ id fetch, s.inflight.get id = some fetch →
      (startedChunks m')[fetch]? = some id :=
    fun id fetch entry => grown.number (numbered.entries id fetch entry)
  cases step
  case become req absent =>
    refine ⟨?_, ?_, ?_⟩
    · rw [startedChunks, List.length_append, List.length_singleton, numbered.count]
    · intro id fetch entry
      rw [GoMap.get_set] at entry
      split_ifs at entry with same
      · cases entry
        rw [same]
        exact number_become numbered _
      · exact entries id fetch entry
    · intro fetch failed isSettled
      rw [GoMap.get_set] at isSettled
      split_ifs at isSettled
      · cases isSettled
      · exact settled fetch failed isSettled
  case settle req fetch result =>
    refine ⟨numbered.count, entries, fun other failed isSettled => ?_⟩
    rw [GoMap.get_set] at isSettled
    split_ifs at isSettled with same
    · cases isSettled
      rw [same]
      cases result with
      | none => exact ⟨req.chunkID, relies.1, relies.2⟩
      | some data => exact ⟨req.chunkID, relies.1, relies.2⟩
    · exact settled other failed isSettled
  case forget req fetch result =>
    refine ⟨numbered.count, fun id other entry => ?_, settled⟩
    rw [GoMap.get_delete] at entry
    split_ifs at entry
    exact entries id other entry
  all_goals exact ⟨numbered.count, entries, settled⟩

theorem Step.relies_self (step : Step objects s m t s' m' (.inl u))
    (excused : Excused objects s t (.inl u)) (numbered : s.Numbered objects m)
    (knows : t.Knows objects s m) (relies : t.Relies objects m) : u.Relies objects m' := by
  cases step
  case join present => exact numbered.entries _ _ present
  case become => exact number_become numbered _
  case awake req fetch ready =>
    obtain ⟨id, number, outcome⟩ := numbered.settled _ _ ready
    cases (show some req.chunkID = some id from relies.symm.trans number)
    exact outcome
  case noSize req fetch => exact ⟨relies, Option.map_eq_none_iff.mp excused⟩
  case noRange req fetch length =>
    obtain ⟨object, stored, isLength⟩ := Option.map_eq_some_iff.mp knows
    have read : mapStore.getRange objects req.chunkID 0 length = some object := by
      rw [mapStore_getRange, stored, Option.bind_some, ← isLength, readAt_whole]
    cases excused.symm.trans read
  case tornTmp | noTmp => exact excused.elim
  case rename => exact ⟨relies, List.mem_cons_self⟩
  case noRename => cases excused.symm.trans knows.2
  case removeTmp | keepTmp => exact relies.elim
  case settle result =>
    cases result with
    | none => exact relies.2
    | some data => trivial
  case relock result _ => cases result <;> exact relies
  case forget result => cases result <;> exact relies
  all_goals exact relies

/-- Only a missing object makes a call fail. -/
theorem Step.missing_of_error {reply : CacheReply} (step : Step objects s m t s' m' (.inr reply))
    (isError : reply = .error) (excused : Excused objects s t (.inr reply))
    (numbered : s.Numbered objects m) (sound : s.Sound objects m) (valid : t.Valid objects s m)
    (relies : t.Relies objects m) : objects.get t.req.chunkID = none := by
  cases step
  case giveUp req fetch =>
    obtain ⟨id, number, outcome⟩ := numbered.settled _ _ excused
    cases (show some req.chunkID = some id from relies.symm.trans number)
    exact outcome
  case missJoined req absent =>
    obtain ⟨data, found⟩ := hit_of_fetched sound valid.safe relies
    cases absent.symm.trans found
  case unlockDone req result =>
    cases result with
    | none => exact relies
    | some data =>
        have safe : req.Safe objects := valid.safe
        obtain ⟨range, -, sliced⟩ := safe_readAt safe valid.knows
        rw [returned, sliced] at isError
        cases isError
  all_goals cases isError

/-- A call that returns has the outcome of the store. -/
theorem Step.agrees {reply : CacheReply} (step : Step objects s m t s' m' (.inr reply))
    (excused : Excused objects s t (.inr reply)) (numbered : s.Numbered objects m)
    (sound : s.Sound objects m) (valid : t.Valid objects s m) (relies : t.Relies objects m) :
    reply = .ofStore (mapStore.getRange objects t.req.chunkID t.req.offset t.req.length) := by
  rw [mapStore_getRange]
  rcases step.returns sound valid with isError | ⟨data, rfl, direct⟩
  · rw [step.missing_of_error isError excused numbered sound valid relies]
    exact isError
  · rw [direct]
    rfl

end ReadCall

/-- In every run in which nothing fails, every call that returns has the outcome of
the store, whether it found the file, waited for a fetch or made it. -/
theorem concurrent_reads_agree {objects : Objects}
    {pool : Pool ChunkCache ReadCall (List FetchEvent)}
    (reached : Reachable (cacheSys objects) noteFetches (OverDirectory objects)
      (quietReads objects) pool) {call : ReadCall} (inPool : call ∈ pool.threads)
    {oracle : CacheOracle} (ok : oracle.ok = true) (running : oracle.cancelled = false)
    {shared : ChunkCache} {answer : CacheAnswer}
    (applied : (cacheSys objects).apply pool.shared call.effect oracle = some (shared, answer))
    {reply : CacheReply} (returns : call.resume answer = .inr reply) :
    reply = .ofStore
      (mapStore.getRange objects call.req.chunkID call.req.offset call.req.length) := by
  have valid : ∀ pool, Reachable (cacheSys objects) noteFetches (OverDirectory objects)
      (quietReads objects) pool → pool.shared.Sound objects pool.record ∧
        ∀ t ∈ pool.threads, t.Valid objects pool.shared pool.record :=
    fun pool reached => cache_valid (reached.mono safeRanges_of_quietReads)
  obtain ⟨numbered, relies⟩ := (reached.knowing valid).local_invariant
    (ChunkCache.Numbered objects) (fun _ m t => t.Relies objects m) (by
      rintro pool ⟨files, -, rfl⟩
      exact ⟨⟨rfl, nofun, nofun⟩, nofun⟩) (by
      rintro pool t - ⟨-, req, rfl, -⟩
      trivial) (by
      rintro s m before t after o s' a numbered each ⟨⟨sound, valid⟩, ok, running⟩ applied
      have inPool : t ∈ before ++ t :: after := List.mem_append_right _ List.mem_cons_self
      have step := ReadCall.Step.of_apply (m := m) applied
      refine ⟨step.numbered numbered (each t inPool), fun t' continues => ?_, fun u member => ?_⟩
      · have excused := ReadCall.excused_of_apply ok running applied
        rw [show t.resume a = .inl t' from continues] at step excused
        exact step.relies_self excused numbered (valid t inPool).knows (each t inPool)
      · exact (each u (mem_of_mem_others t member)).mono step.extends)
  obtain ⟨sound, each⟩ := valid pool reached
  have step := ReadCall.Step.of_apply (m := pool.record) applied
  have excused := ReadCall.excused_of_apply ok running applied
  rw [returns] at step excused
  exact step.agrees excused numbered sound (each call inPool) (relies call inPool)

/-- The cache is transparent for a call exactly under the condition above, and for
concurrent calls whenever the ranges are inside their objects and no write fails. -/
theorem cache_transparent_iff {objects : Objects}
    (bounded : ∀ id object, objects.get id = some object →
      (object.length : Int) < 9223372036854775808) :
    (∀ (files : Objects) (id : Key) (offset length : Int) (written : Bool),
      (∀ id file, files.get id = some file →
        ∃ object, objects.get id = some object ∧ file <+: object) →
      0 ≤ offset → 0 ≤ length → IsInt64 offset → IsInt64 length →
      (Agrees (mapStore.getRange objects id offset length)
          (ChunkStore.readRange mapStore written objects files id offset length).2 ↔
        ∀ object, objects.get id = some object → FileServes files id offset length ∨
          (if written then offset + length ≤ object.length
          else 0 < length ∧ object.length < offset + length))) ∧
    ∀ pool, Reachable (cacheSys objects) noteFetches (OverDirectory objects)
        (quietReads objects) pool →
      ∀ call ∈ pool.threads, ∀ oracle shared answer reply,
        oracle.ok = true → oracle.cancelled = false →
        (cacheSys objects).apply pool.shared call.effect oracle = some (shared, answer) →
        call.resume answer = .inr reply →
        reply = .ofStore
          (mapStore.getRange objects call.req.chunkID call.req.offset call.req.length) := by
  refine ⟨?_, ?_⟩
  · intro files id offset length written parts low nonneg offsetFits lengthFits
    exact cached_read_agrees_iff (parts id) low nonneg offsetFits lengthFits (bounded id) written
  · intro pool reached call inPool oracle shared answer reply ok running applied returns
    exact concurrent_reads_agree reached inPool ok running applied returns

/-- The two calls of `pairRequests` are made, and nothing fails. -/
def quietPair (_ : Pool ChunkCache ReadCall (List FetchEvent)) :
    Event ReadCall CacheOracle → Prop
  | .spawn (.check req) => req ∈ pairRequests
  | .spawn _ => False
  | .run _ o => o.ok = true ∧ o.cancelled = false

instance (pool : Pool ChunkCache ReadCall (List FetchEvent)) (event : Event ReadCall CacheOracle) :
    Decidable (quietPair pool event) := by
  induction event using Event.casesOn with
  | run => exact inferInstanceAs (Decidable (_ ∧ _))
  | spawn thread =>
      induction thread using ReadCall.casesOn <;> dsimp only [quietPair] <;> infer_instance

theorem quietReads_of_quietPair (pool : Pool ChunkCache ReadCall (List FetchEvent))
    (event : Event ReadCall CacheOracle) (admitted : quietPair pool event) :
    quietReads pairObjects pool event := by
  unfold quietPair at admitted
  split at admitted
  next req =>
    obtain ⟨_, same, inside⟩ := insideRanges_of_pairAdmits pool (.spawn (.check req)) admitted
    exact ⟨_, same, inside.safe⟩
  next => cases admitted
  next => exact admitted

/-- The first byte of a chunk of three is cached. One range inside the chunk is read
through the cache and one past its end is not; and of two concurrent calls the last
one returns its range. -/
theorem cache_transparent_iff_pair :
    let files : Objects := GoMap.ofList [(['c'], [1])]
    Agrees (mapStore.getRange pairObjects ['c'] 0 2)
      (ChunkStore.readRange mapStore true pairObjects files ['c'] 0 2).2 ∧
    ¬ Agrees (mapStore.getRange pairObjects ['c'] 2 5)
      (ChunkStore.readRange mapStore true pairObjects files ['c'] 2 5).2 ∧
    ∃ pool, Reachable (cacheSys pairObjects) noteFetches (OverDirectory pairObjects)
        (quietReads pairObjects) pool ∧
      ∃ call ∈ pool.threads, ∃ shared answer reply,
        (cacheSys pairObjects).apply pool.shared call.effect {} = some (shared, answer) ∧
        call.resume answer = .inr reply ∧ reply = .ok [1, 2] := by
  intro files
  have only : pairObjects = GoMap.set ∅ ['c'] [1, 2, 3] := rfl
  have bounded : ∀ id object, pairObjects.get id = some object →
      (object.length : Int) < 9223372036854775808 := by
    intro id object stored
    rw [only, GoMap.get_set] at stored
    split_ifs at stored
    · cases stored
      decide
    · cases stored
  obtain ⟨alone, concurrent⟩ := cache_transparent_iff bounded
  have isFiles : files = GoMap.set ∅ ['c'] [1] := rfl
  have parts : ∀ id file, files.get id = some file →
      ∃ object, pairObjects.get id = some object ∧ file <+: object := by
    intro id file held
    rw [isFiles, GoMap.get_set] at held
    split_ifs at held with same
    · cases held
      exact ⟨[1, 2, 3], by rw [same]; rfl, by decide⟩
    · cases held
  have inside := alone files ['c'] 0 2 true parts (by decide) (by decide) (by decide) (by decide)
  have past := alone files ['c'] 2 5 true parts (by decide) (by decide) (by decide) (by decide)
  refine ⟨inside.mpr ?_, past.not.mpr ?_, ?_⟩
  · intro object stored
    cases stored
    exact Or.inr (by decide)
  · intro each
    rcases each [1, 2, 3] rfl with ⟨file, held, fits⟩ | isInside
    · cases held
      revert fits
      decide
    · revert isInside
      decide
  · have plays : ((cacheSys pairObjects).run noteFetches quietPair ⟨.empty, [], []⟩
        pairRun.dropLast).map (fun pool => pool.threads.map fun call => (call.req,
          ((cacheSys pairObjects).apply pool.shared call.effect {}).bind fun result =>
            (call.resume result.2).getRight?)) = some [(⟨['c'], 0, 2⟩, some (.ok [1, 2]))] := by
      decide +kernel
    obtain ⟨pool, ran, shown⟩ := Option.map_eq_some_iff.mp plays
    obtain ⟨call, isOnly, shown⟩ := List.map_eq_singleton_iff.mp shown
    obtain ⟨isRequest, shown⟩ := Prod.mk.inj shown
    obtain ⟨⟨shared, answer⟩, applied, returned⟩ := Option.bind_eq_some_iff.mp shown
    have returns := Sum.getRight?_eq_some_iff.mp returned
    have reached : Reachable (cacheSys pairObjects) noteFetches (OverDirectory pairObjects)
        (quietReads pairObjects) pool :=
      Reachable.mono quietReads_of_quietPair
        (.of_run (.start (EmptyCache.overDirectory _ rfl)) ran)
    have inPool : call ∈ pool.threads := by
      rw [isOnly]
      exact List.mem_singleton_self call
    refine ⟨pool, reached, call, inPool, shared, answer, _, applied, returns, ?_⟩
    rw [concurrent pool reached call inPool {} shared answer _ rfl rfl applied returns, isRequest]

/-- A range that extends past an object that is not cached panics, and one inside it
is lost if the disk refuses the chunk. -/
theorem uncached_reads_differ :
    (ChunkStore.readRange mapStore true pairObjects ∅ ['c'] 2 5).2 = .error .panic ∧
      mapStore.getRange pairObjects ['c'] 0 2 = some [1, 2] ∧
      (ChunkStore.readRange mapStore false pairObjects ∅ ['c'] 0 2).2 =
        .error (.error (.cacheWrite ['c'])) := by
  decide +kernel

end Fusey
