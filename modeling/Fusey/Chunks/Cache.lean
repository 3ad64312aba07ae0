import Fusey.GoLib.Interleaving
import Fusey.Chunks.ChunkStore

/-!
Contract: concurrent reads through the chunk cache (`internal/chunks/cache.go`).

Owns:
- the cache directory, the mutex, the in-flight map and the fetches it points to;
- `readRange` as the sequence of steps that a call takes, with the steps of
  `fetchFullChunk` and `writeAtomic`;
- that fetches of a chunk never overlap and are never repeated after a success,
  that every range returned is the one of the object, and that no entry stays in
  flight when no call does.

The backing store is a fixed set of objects; any fetch may fail. What one call
does alone, with the cache's files as a map, is `ChunkStore.readRange`.
-/

set_option autoImplicit false

namespace Fusey

open GoInt Interleaving

/-! ### The cache -/

/-- The arguments of `readRange`. -/
structure RangeRequest where
  chunkID : Key
  offset : Int
  length : Int
deriving DecidableEq

/-- `inflightFetch`: whether `ready` is closed, and whether `err` is set. -/
structure InflightFetch where
  ready : Bool
  failed : Bool
deriving DecidableEq

/-- `chunkCache`: the files of its directory, `mu`, and `inflight` with the
fetches that its pointers lead to. -/
structure ChunkCache where
  files : GoMap Key Bytes
  locked : Bool
  inflight : GoMap Key Nat
  fetches : GoMap Nat InflightFetch
  nextFetch : Nat

/-- A cache over an empty directory. -/
def ChunkCache.empty : ChunkCache :=
  { files := ∅, locked := false, inflight := ∅, fetches := ∅, nextFetch := 0 }

/-- `path + ".tmp"`. -/
def tmpPath (path : Key) : Key := path ++ ".tmp".toList

/-! ### Steps -/

/-- The atomic steps of `readRange`. -/
inductive CacheEffect where
  | readFileSlice (path : Key) (offset length : Int)
  | lock
  | unlock
  | join (chunkID : Key)
  | await (fetch : Nat)
  | size (chunkID : Key)
  | getRange (chunkID : Key) (length : Int)
  | writeTmp (path : Key) (data : Bytes)
  | rename (path : Key)
  | removeTmp (path : Key)
  | settle (fetch : Nat) (failed : Bool)
  | forget (chunkID : Key)

inductive CacheAnswer where
  | done
  | failed
  | slice (found : Option Bytes)
  | joined (fetch : Nat)
  | fetcher (fetch : Nat)
  | ready (failed : Bool)
  | cancelled
  | size (length : Int)
  | data (bytes : Bytes)

/-- What the environment decides about a step: whether the store or the disk
accepts it, how much of a temporary file a failed write leaves, and whether the
caller's context is cancelled. -/
structure CacheOracle where
  ok : Bool := true
  leaves : Option Nat := none
  cancelled : Bool := false

namespace ChunkCache

/-- One atomic step; `none` is a step that has to wait. -/
def apply (objects : Objects) (s : ChunkCache) (e : CacheEffect) (o : CacheOracle) :
    Option (ChunkCache × CacheAnswer) :=
  match e with
  | .readFileSlice path offset length =>
      some (s, .slice ((s.files.get path).bind fun file => readAt file offset length))
  | .lock => if s.locked then none else some ({ s with locked := true }, .done)
  | .unlock => some ({ s with locked := false }, .done)
  | .join chunkID =>
      match s.inflight.get chunkID with
      | some fetch => some (s, .joined fetch)
      | none =>
          some ({ s with
            inflight := s.inflight.set chunkID s.nextFetch
            fetches := s.fetches.set s.nextFetch ⟨false, false⟩
            nextFetch := s.nextFetch + 1 }, .fetcher s.nextFetch)
  | .await fetch =>
      if o.cancelled then some (s, .cancelled)
      else
        match s.fetches.get fetch with
        | some ⟨true, failed⟩ => some (s, .ready failed)
        | _ => none
  | .size chunkID =>
      if o.ok then
        match mapStore.size objects chunkID with
        | some length => some (s, .size length)
        | none => some (s, .failed)
      else some (s, .failed)
  | .getRange chunkID length =>
      if o.ok then
        match mapStore.getRange objects chunkID 0 length with
        | some bytes => some (s, .data bytes)
        | none => some (s, .failed)
      else some (s, .failed)
  | .writeTmp path data =>
      if o.ok then some ({ s with files := s.files.set (tmpPath path) data }, .done)
      else
        match o.leaves with
        | some length =>
            some ({ s with files := s.files.set (tmpPath path) (data.take length) }, .failed)
        | none => some (s, .failed)
  | .rename path =>
      if o.ok then
        match s.files.get (tmpPath path) with
        | some data =>
            some ({ s with files := (s.files.delete (tmpPath path)).set path data }, .done)
        | none => some (s, .failed)
      else some (s, .failed)
  | .removeTmp path =>
      -- `_ = os.Remove(tmp)`.
      if o.ok then some ({ s with files := s.files.delete (tmpPath path) }, .done)
      else some (s, .done)
  | .settle fetch failed =>
      some ({ s with fetches := s.fetches.set fetch ⟨true, failed⟩ }, .done)
  | .forget chunkID => some ({ s with inflight := s.inflight.delete chunkID }, .done)

end ChunkCache

/-- A call of `readRange`, at the point of its next step. A fetch that has ended
carries the chunk, or `none` for its error. -/
inductive ReadCall where
  | check (req : RangeRequest)
  | lock (req : RangeRequest)
  | recheck (req : RangeRequest)
  | unlockHit (req : RangeRequest) (data : Bytes)
  | join (req : RangeRequest)
  | unlockJoin (req : RangeRequest) (fetch : Nat)
  | await (req : RangeRequest) (fetch : Nat)
  | readJoined (req : RangeRequest)
  | unlockFetch (req : RangeRequest) (fetch : Nat)
  | size (req : RangeRequest) (fetch : Nat)
  | getRange (req : RangeRequest) (fetch : Nat) (length : Int)
  | writeTmp (req : RangeRequest) (fetch : Nat) (data : Bytes)
  | rename (req : RangeRequest) (fetch : Nat) (data : Bytes)
  | removeTmp (req : RangeRequest) (fetch : Nat)
  | settle (req : RangeRequest) (fetch : Nat) (result : Option Bytes)
  | relock (req : RangeRequest) (fetch : Nat) (result : Option Bytes)
  | forget (req : RangeRequest) (fetch : Nat) (result : Option Bytes)
  | unlockDone (req : RangeRequest) (result : Option Bytes)

/-- How a call ends. -/
inductive CacheReply where
  | ok (data : Bytes)
  | error
  | panicked
deriving DecidableEq

namespace ReadCall

def effect : ReadCall → CacheEffect
  | .check req | .recheck req | .readJoined req =>
      .readFileSlice req.chunkID req.offset req.length
  | .lock _ | .relock _ _ _ => .lock
  | .unlockHit _ _ | .unlockJoin _ _ | .unlockFetch _ _ | .unlockDone _ _ => .unlock
  | .join req => .join req.chunkID
  | .await _ fetch => .await fetch
  | .size req _ => .size req.chunkID
  | .getRange req _ length => .getRange req.chunkID length
  | .writeTmp req _ data => .writeTmp req.chunkID data
  | .rename req _ _ => .rename req.chunkID
  | .removeTmp req _ => .removeTmp req.chunkID
  | .settle _ fetch result => .settle fetch result.isNone
  | .forget req _ _ => .forget req.chunkID

/-- `return data[offset : offset+length], nil`, or the error of the fetch. -/
def returned (req : RangeRequest) : Option Bytes → CacheReply
  | none => .error
  | some data =>
      match sliceBytes data req.offset (wrap64 (req.offset + req.length)) with
      | some range => .ok range
      | none => .panicked

/-- What a call does with the answer of its step. An answer that belongs to
another step does not occur; it shares the branch of an error. -/
def resume : ReadCall → CacheAnswer → ReadCall ⊕ CacheReply
  | .check _, .slice (some data) => .inr (.ok data)
  | .check req, .slice none => .inl (.lock req)
  | .lock req, .done => .inl (.recheck req)
  | .recheck req, .slice (some data) => .inl (.unlockHit req data)
  | .recheck req, .slice none => .inl (.join req)
  | .unlockHit _ data, .done => .inr (.ok data)
  | .join req, .joined fetch => .inl (.unlockJoin req fetch)
  | .join req, .fetcher fetch => .inl (.unlockFetch req fetch)
  | .unlockJoin req fetch, .done => .inl (.await req fetch)
  | .await req _, .ready failed => if failed then .inr .error else .inl (.readJoined req)
  | .readJoined _, .slice (some data) => .inr (.ok data)
  | .unlockFetch req fetch, .done => .inl (.size req fetch)
  | .size req fetch, .size length => .inl (.getRange req fetch length)
  | .size req fetch, .failed => .inl (.settle req fetch none)
  | .getRange req fetch _, .data bytes => .inl (.writeTmp req fetch bytes)
  | .getRange req fetch _, .failed => .inl (.settle req fetch none)
  | .writeTmp req fetch data, .done => .inl (.rename req fetch data)
  | .writeTmp req fetch _, .failed => .inl (.settle req fetch none)
  | .rename req fetch data, .done => .inl (.settle req fetch (some data))
  | .rename req fetch _, .failed => .inl (.removeTmp req fetch)
  | .removeTmp req fetch, .done => .inl (.settle req fetch none)
  | .settle req fetch result, .done => .inl (.relock req fetch result)
  | .relock req fetch result, .done => .inl (.forget req fetch result)
  | .forget req _ result, .done => .inl (.unlockDone req result)
  | .unlockDone req result, .done => .inr (returned req result)
  | _, _ => .inr .error

/-! ### Where a call is -/

/-- The request of a call. -/
def req : ReadCall → RangeRequest
  | .check req | .lock req | .recheck req | .unlockHit req _ | .join req | .unlockJoin req _
  | .await req _ | .readJoined req | .unlockFetch req _ | .size req _ | .getRange req _ _
  | .writeTmp req _ _ | .rename req _ _ | .removeTmp req _ | .settle req _ _ | .relock req _ _
  | .forget req _ _ | .unlockDone req _ => req

/-- The call holds the mutex. -/
def critical : ReadCall → Bool
  | .recheck _ | .unlockHit _ _ | .join _ | .unlockJoin _ _ | .unlockFetch _ _ | .forget _ _ _
  | .unlockDone _ _ => true
  | _ => false

/-- The fetch whose entry the call has put into the map and not deleted. -/
def holds : ReadCall → Option Nat
  | .unlockFetch _ fetch | .size _ fetch | .getRange _ fetch _ | .writeTmp _ fetch _
  | .rename _ fetch _ | .removeTmp _ fetch | .settle _ fetch _ | .relock _ fetch _
  | .forget _ fetch _ => some fetch
  | _ => none

/-- The chunk that a call is fetching: from the moment it has become the fetcher
until its entry is gone. -/
def fetching (t : ReadCall) : Option Key := t.holds.map fun _ => t.req.chunkID

end ReadCall

/-- Concurrent calls of `readRange` over the objects of a store. -/
def cacheSys (objects : Objects) :
    Sys ChunkCache CacheEffect CacheAnswer CacheOracle ReadCall CacheReply where
  apply := ChunkCache.apply objects
  effect := ReadCall.effect
  resume := ReadCall.resume

/-- What is recorded of fetches. -/
inductive FetchEvent where
  | started (chunkID : Key)
  | succeeded (chunkID : Key)
deriving DecidableEq

/-- A fetch starts when its call becomes the fetcher, and succeeds with the
rename. The newest event is first. -/
def noteFetches (trace : List FetchEvent) : ReadCall → CacheAnswer → List FetchEvent
  | .join req, .fetcher _ => .started req.chunkID :: trace
  | .rename req _ _, .done => .succeeded req.chunkID :: trace
  | _, _ => trace

/-- A chunk ID that is not the temporary file of another. -/
def ChunkName (id : Key) : Prop := ¬ ".tmp".toList <:+ id

/-- The request is for a range inside an object, whose length is an `int64`. -/
def RangeRequest.Inside (objects : Objects) (req : RangeRequest) : Prop :=
  ChunkName req.chunkID ∧ ∃ object, objects.get req.chunkID = some object ∧
    0 ≤ req.offset ∧ 0 ≤ req.length ∧ req.offset + req.length ≤ object.length ∧
    (object.length : Int) < 9223372036854775808

/-- The request is for a chunk, and its range is inside the object if there is one. -/
def RangeRequest.Safe (objects : Objects) (req : RangeRequest) : Prop :=
  ChunkName req.chunkID ∧ ∀ object, objects.get req.chunkID = some object →
    0 ≤ req.offset ∧ 0 ≤ req.length ∧ req.offset + req.length ≤ object.length ∧
    (object.length : Int) < 9223372036854775808

theorem RangeRequest.Inside.safe {objects : Objects} {req : RangeRequest}
    (inside : req.Inside objects) : req.Safe objects := by
  obtain ⟨named, object, stored, range⟩ := inside
  refine ⟨named, fun other found => ?_⟩
  cases stored.symm.trans found
  exact range

/-- Any number of calls, each for a range inside its object. -/
def insideRanges (objects : Objects) (_ : Pool ChunkCache ReadCall (List FetchEvent)) :
    Event ReadCall CacheOracle → Prop
  | .spawn call => ∃ req, call = .check req ∧ req.Inside objects
  | .run _ _ => True

/-- Any number of calls for chunks, whose objects may be missing. -/
def safeRanges (objects : Objects) (_ : Pool ChunkCache ReadCall (List FetchEvent)) :
    Event ReadCall CacheOracle → Prop
  | .spawn call => ∃ req, call = .check req ∧ req.Safe objects
  | .run _ _ => True

theorem safeRanges_of_insideRanges {objects : Objects}
    (pool : Pool ChunkCache ReadCall (List FetchEvent)) (event : Event ReadCall CacheOracle)
    (admitted : insideRanges objects pool event) : safeRanges objects pool event := by
  cases event with
  | spawn call =>
      obtain ⟨req, rfl, inside⟩ := admitted
      exact ⟨req, rfl, inside.safe⟩
  | run i o => trivial

/-- No call is active and nothing is cached. -/
def EmptyCache (pool : Pool ChunkCache ReadCall (List FetchEvent)) : Prop :=
  pool = ⟨.empty, [], []⟩

/-- The files of chunks are parts of their objects, from the start. -/
def PartsOf (objects : Objects) (files : GoMap Key Bytes) : Prop :=
  ∀ id file, ChunkName id → files.get id = some file →
    ∃ object, objects.get id = some object ∧ file <+: object

/-- No call is active in a new cache over a directory with parts of objects. -/
def OverDirectory (objects : Objects) (pool : Pool ChunkCache ReadCall (List FetchEvent)) : Prop :=
  ∃ files, PartsOf objects files ∧ pool = ⟨{ ChunkCache.empty with files := files }, [], []⟩

theorem EmptyCache.overDirectory {objects : Objects}
    (pool : Pool ChunkCache ReadCall (List FetchEvent)) (empty : EmptyCache pool) :
    OverDirectory objects pool := ⟨∅, nofun, empty⟩

/-! ### One step of a call -/

namespace ReadCall

variable {objects : Objects} {s s' : ChunkCache} {m m' : List FetchEvent} {t u : ReadCall}
  {next : ReadCall ⊕ CacheReply}

/-- Everything a step of a call can do, with the events it records. -/
inductive Step (objects : Objects) (s : ChunkCache) (m : List FetchEvent) :
    ReadCall → ChunkCache → List FetchEvent → ReadCall ⊕ CacheReply → Prop where
  | hit {req : RangeRequest} {data : Bytes}
      (found : (s.files.get req.chunkID).bind (readAt · req.offset req.length) = some data) :
      Step objects s m (.check req) s m (.inr (.ok data))
  | miss {req : RangeRequest}
      (absent : (s.files.get req.chunkID).bind (readAt · req.offset req.length) = none) :
      Step objects s m (.check req) s m (.inl (.lock req))
  | lock {req : RangeRequest} (free : s.locked = false) :
      Step objects s m (.lock req) { s with locked := true } m (.inl (.recheck req))
  | hitLocked {req : RangeRequest} {data : Bytes}
      (found : (s.files.get req.chunkID).bind (readAt · req.offset req.length) = some data) :
      Step objects s m (.recheck req) s m (.inl (.unlockHit req data))
  | missLocked {req : RangeRequest}
      (absent : (s.files.get req.chunkID).bind (readAt · req.offset req.length) = none) :
      Step objects s m (.recheck req) s m (.inl (.join req))
  | unlockHit {req : RangeRequest} {data : Bytes} :
      Step objects s m (.unlockHit req data) { s with locked := false } m (.inr (.ok data))
  | join {req : RangeRequest} {fetch : Nat}
      (present : s.inflight.get req.chunkID = some fetch) :
      Step objects s m (.join req) s m (.inl (.unlockJoin req fetch))
  | become {req : RangeRequest} (absent : s.inflight.get req.chunkID = none) :
      Step objects s m (.join req)
        { s with
          inflight := s.inflight.set req.chunkID s.nextFetch
          fetches := s.fetches.set s.nextFetch ⟨false, false⟩
          nextFetch := s.nextFetch + 1 }
        (.started req.chunkID :: m) (.inl (.unlockFetch req s.nextFetch))
  | unlockJoin {req : RangeRequest} {fetch : Nat} :
      Step objects s m (.unlockJoin req fetch) { s with locked := false } m
        (.inl (.await req fetch))
  | giveUp {req : RangeRequest} {fetch : Nat} :
      Step objects s m (.await req fetch) s m (.inr .error)
  | awake {req : RangeRequest} {fetch : Nat}
      (ready : s.fetches.get fetch = some ⟨true, false⟩) :
      Step objects s m (.await req fetch) s m (.inl (.readJoined req))
  | readJoined {req : RangeRequest} {data : Bytes}
      (found : (s.files.get req.chunkID).bind (readAt · req.offset req.length) = some data) :
      Step objects s m (.readJoined req) s m (.inr (.ok data))
  | missJoined {req : RangeRequest}
      (absent : (s.files.get req.chunkID).bind (readAt · req.offset req.length) = none) :
      Step objects s m (.readJoined req) s m (.inr .error)
  | unlockFetch {req : RangeRequest} {fetch : Nat} :
      Step objects s m (.unlockFetch req fetch) { s with locked := false } m
        (.inl (.size req fetch))
  | size {req : RangeRequest} {fetch : Nat} {length : Int}
      (sized : mapStore.size objects req.chunkID = some length) :
      Step objects s m (.size req fetch) s m (.inl (.getRange req fetch length))
  | noSize {req : RangeRequest} {fetch : Nat} :
      Step objects s m (.size req fetch) s m (.inl (.settle req fetch none))
  | getRange {req : RangeRequest} {fetch : Nat} {length : Int} {data : Bytes}
      (read : mapStore.getRange objects req.chunkID 0 length = some data) :
      Step objects s m (.getRange req fetch length) s m (.inl (.writeTmp req fetch data))
  | noRange {req : RangeRequest} {fetch : Nat} {length : Int} :
      Step objects s m (.getRange req fetch length) s m (.inl (.settle req fetch none))
  | writeTmp {req : RangeRequest} {fetch : Nat} {data : Bytes} :
      Step objects s m (.writeTmp req fetch data)
        { s with files := s.files.set (tmpPath req.chunkID) data } m
        (.inl (.rename req fetch data))
  | tornTmp {req : RangeRequest} {fetch : Nat} {data left : Bytes} :
      Step objects s m (.writeTmp req fetch data)
        { s with files := s.files.set (tmpPath req.chunkID) left } m
        (.inl (.settle req fetch none))
  | noTmp {req : RangeRequest} {fetch : Nat} {data : Bytes} :
      Step objects s m (.writeTmp req fetch data) s m (.inl (.settle req fetch none))
  | rename {req : RangeRequest} {fetch : Nat} {data written : Bytes}
      (found : s.files.get (tmpPath req.chunkID) = some written) :
      Step objects s m (.rename req fetch data)
        { s with files := (s.files.delete (tmpPath req.chunkID)).set req.chunkID written }
        (.succeeded req.chunkID :: m) (.inl (.settle req fetch (some data)))
  | noRename {req : RangeRequest} {fetch : Nat} {data : Bytes} :
      Step objects s m (.rename req fetch data) s m (.inl (.removeTmp req fetch))
  | removeTmp {req : RangeRequest} {fetch : Nat} :
      Step objects s m (.removeTmp req fetch)
        { s with files := s.files.delete (tmpPath req.chunkID) } m
        (.inl (.settle req fetch none))
  | keepTmp {req : RangeRequest} {fetch : Nat} :
      Step objects s m (.removeTmp req fetch) s m (.inl (.settle req fetch none))
  | settle {req : RangeRequest} {fetch : Nat} {result : Option Bytes} :
      Step objects s m (.settle req fetch result)
        { s with fetches := s.fetches.set fetch ⟨true, result.isNone⟩ } m
        (.inl (.relock req fetch result))
  | relock {req : RangeRequest} {fetch : Nat} {result : Option Bytes} (free : s.locked = false) :
      Step objects s m (.relock req fetch result) { s with locked := true } m
        (.inl (.forget req fetch result))
  | forget {req : RangeRequest} {fetch : Nat} {result : Option Bytes} :
      Step objects s m (.forget req fetch result)
        { s with inflight := s.inflight.delete req.chunkID } m (.inl (.unlockDone req result))
  | unlockDone {req : RangeRequest} {result : Option Bytes} :
      Step objects s m (.unlockDone req result) { s with locked := false } m
        (.inr (returned req result))

theorem Step.of_apply {o : CacheOracle} {a : CacheAnswer}
    (applied : ChunkCache.apply objects s t.effect o = some (s', a)) :
    Step objects s m t s' (noteFetches m t a) (t.resume a) := by
  cases t <;> simp only [effect, ChunkCache.apply] at applied
  case check req =>
    cases applied
    cases found : (s.files.get req.chunkID).bind (readAt · req.offset req.length) with
    | none => exact .miss found
    | some data => exact .hit found
  case recheck req =>
    cases applied
    cases found : (s.files.get req.chunkID).bind (readAt · req.offset req.length) with
    | none => exact .missLocked found
    | some data => exact .hitLocked found
  case readJoined req =>
    cases applied
    cases found : (s.files.get req.chunkID).bind (readAt · req.offset req.length) with
    | none => exact .missJoined found
    | some data => exact .readJoined found
  case lock req =>
    split_ifs at applied with taken
    cases applied
    exact .lock (Bool.eq_false_iff.mpr taken)
  case relock req fetch result =>
    split_ifs at applied with taken
    cases applied
    exact .relock (Bool.eq_false_iff.mpr taken)
  case join req =>
    split at applied <;> cases applied
    next fetch present => exact .join present
    next absent => exact .become absent
  case await req fetch =>
    split_ifs at applied
    · cases applied
      exact .giveUp
    · split at applied
      next failed ready =>
        cases applied
        cases failed with
        | false => exact .awake ready
        | true => exact .giveUp
      next => cases applied
  case size req fetch =>
    split_ifs at applied
    · split at applied <;> cases applied
      next length sized => exact .size sized
      next => exact .noSize
    · cases applied
      exact .noSize
  case getRange req fetch length =>
    split_ifs at applied
    · split at applied <;> cases applied
      next data read => exact .getRange read
      next => exact .noRange
    · cases applied
      exact .noRange
  case writeTmp req fetch data =>
    split_ifs at applied
    · cases applied
      exact .writeTmp
    · split at applied <;> cases applied
      · exact .tornTmp
      · exact .noTmp
  case rename req fetch data =>
    split_ifs at applied
    · split at applied <;> cases applied
      next written found => exact .rename found
      next => exact .noRename
    · cases applied
      exact .noRename
  case removeTmp req fetch =>
    split_ifs at applied <;> cases applied
    · exact .removeTmp
    · exact .keepTmp
  case unlockHit => cases applied; exact .unlockHit
  case unlockJoin => cases applied; exact .unlockJoin
  case unlockFetch => cases applied; exact .unlockFetch
  case unlockDone => cases applied; exact .unlockDone
  case settle => cases applied; exact .settle
  case forget => cases applied; exact .forget

/-- A call keeps its request. -/
theorem Step.req_eq (step : Step objects s m t s' m' (.inl u)) : u.req = t.req := by
  cases step <;> rfl

/-- The mutex is held exactly by the call in a critical state. -/
theorem Step.balanced (step : Step objects s m t s' m' next)
    (holds : t.critical = true → s.locked = true) :
    (remaining next).countP critical + s.locked.toNat = t.critical.toNat + s'.locked.toNat := by
  cases step <;>
    simp_all [critical, remaining]

/-- A fetch number is new, or was the call's already. -/
theorem Step.holds_cases (step : Step objects s m t s' m' (.inl u)) {fetch : Nat}
    (holds : u.holds = some fetch) :
    t.holds = some fetch ∨ fetch = s.nextFetch ∧ s'.nextFetch = s.nextFetch + 1 := by
  cases step <;> simp_all [ReadCall.holds]

theorem Step.nextFetch_le (step : Step objects s m t s' m' next) :
    s.nextFetch ≤ s'.nextFetch := by
  cases step <;> simp

/-! ### Frames of a step -/

/-- The in-flight map changes only where a call becomes the fetcher of its chunk,
and where it deletes its entry. -/
theorem Step.inflight_cases (step : Step objects s m t s' m' next) :
    s'.inflight = s.inflight ∨
      (s.inflight.get t.req.chunkID = none ∧ t.critical = true ∧
        s'.inflight = s.inflight.set t.req.chunkID s.nextFetch ∧
        next = .inl (.unlockFetch t.req s.nextFetch)) ∨
      ∃ fetch, t.holds = some fetch ∧ t.critical = true ∧
        s'.inflight = s.inflight.delete t.req.chunkID := by
  cases step
  case become absent => exact Or.inr (Or.inl ⟨absent, rfl, rfl, rfl⟩)
  case forget => exact Or.inr (Or.inr ⟨_, rfl, rfl, rfl⟩)
  all_goals exact Or.inl rfl

/-- An entry was there before, or its call has just become the fetcher. -/
theorem Step.entry_cases (step : Step objects s m t s' m' next) {id : Key} {fetch : Nat}
    (entry : s'.inflight.get id = some fetch) :
    s.inflight.get id = some fetch ∨ ∃ u, next = .inl u ∧ u.fetching = some id := by
  rcases step.inflight_cases with same | ⟨-, -, added, becomes⟩ | ⟨-, -, -, deleted⟩
  · exact Or.inl (same ▸ entry)
  · rw [added, GoMap.get_set] at entry
    split_ifs at entry with same
    · exact Or.inr ⟨_, becomes, by rw [same]; rfl⟩
    · exact Or.inl entry
  · rw [deleted, GoMap.get_delete] at entry
    split_ifs at entry
    exact Or.inl entry

/-- A fetcher stays one until it has deleted the entry of its chunk. -/
theorem Step.fetching_kept (step : Step objects s m t s' m' next) {id : Key} {fetch : Nat}
    (fetches : t.fetching = some id) (entry : s'.inflight.get id = some fetch) :
    ∃ u, next = .inl u ∧ u.fetching = some id := by
  cases step
  case forget =>
    cases fetches
    cases (GoMap.get_delete_self _ _).symm.trans entry
  all_goals first | cases fetches; done | exact ⟨_, rfl, fetches⟩

/-- Only the fetcher of a chunk writes, and only its file and its temporary one. -/
theorem Step.files_cases (step : Step objects s m t s' m' next) :
    s'.files = s.files ∨ t.holds.isSome = true ∧
      ∀ path, path ≠ t.req.chunkID → path ≠ tmpPath t.req.chunkID →
        s'.files.get path = s.files.get path := by
  cases step
  case writeTmp | tornTmp =>
    exact Or.inr ⟨rfl, fun path _ other => GoMap.get_set_ne _ _ other⟩
  case removeTmp =>
    exact Or.inr ⟨rfl, fun path _ other => GoMap.get_delete_ne _ other⟩
  case rename =>
    refine Or.inr ⟨rfl, fun path own other => ?_⟩
    exact (GoMap.get_set_ne _ _ own).trans (GoMap.get_delete_ne _ other)
  all_goals exact Or.inl rfl

theorem Step.record_cases (step : Step objects s m t s' m' next) :
    m' = m ∨
      (m' = .started t.req.chunkID :: m ∧ t = .join t.req ∧
        s.inflight.get t.req.chunkID = none) ∨
      (m' = .succeeded t.req.chunkID :: m ∧ ∃ fetch data, t = .rename t.req fetch data ∧
        s'.inflight = s.inflight) := by
  cases step
  case become absent => exact Or.inr (Or.inl ⟨rfl, rfl, absent⟩)
  case rename => exact Or.inr (Or.inr ⟨rfl, _, _, rfl, rfl⟩)
  all_goals exact Or.inl rfl

end ReadCall

/-! ### Temporary files -/

theorem tmpPath_injective {left right : Key} (same : tmpPath left = tmpPath right) :
    left = right :=
  List.append_cancel_right same

/-- No chunk is the temporary file of another. -/
theorem ChunkName.ne_tmpPath {id : Key} (named : ChunkName id) (other : Key) :
    id ≠ tmpPath other := by
  rintro rfl
  exact named (List.suffix_append _ _)

/-- An ID that ends in a number, as those of chunks do. -/
theorem chunkName_of_digits (front : Key) {digits : List Char} (some : digits ≠ [])
    (each : ∀ c ∈ digits, c.isDigit = true) : ChunkName (front ++ digits) := by
  rintro ⟨start, same⟩
  have last := congrArg List.getLast? same
  rw [List.getLast?_append_of_ne_nil _ some, List.getLast?_append_of_ne_nil _ (by decide),
    List.getLast?_eq_some_getLast some] at last
  have letter : 'p' = digits.getLast some := Option.some.inj last
  have digit := each _ (List.getLast_mem some)
  rw [← letter] at digit
  cases digit

theorem chunkName_chunkID (seq : Nat) : ChunkName (chunkID seq) :=
  chunkName_of_digits _ (GoFmt.padded_ne_nil 8 seq) fun _ => GoFmt.isDigit_of_mem_padded

/-! ### A call alone -/

/-- How the outcome of `ChunkStore.readRange` looks to the caller. -/
def CacheReply.ofOutcome : Except (GoFault ChunkError) Bytes → CacheReply
  | .ok data => .ok data
  | .error (.error _) => .error
  | .error .panic => .panicked

namespace ReadCall

section Alone

variable {objects : Objects} {s s' : ChunkCache} {reply : CacheReply}

/-- The first step of a call that completes. -/
theorem step_of_completes {t : ReadCall} (completes : Completes (cacheSys objects) s t s' reply) :
    ∃ middle m next, Step objects s [] t middle m next ∧
      ((next = .inr reply ∧ middle = s') ∨
        ∃ u, next = .inl u ∧ Completes (cacheSys objects) middle u s' reply) := by
  obtain ⟨o, middle, a, applied, rest⟩ := completes.first
  exact ⟨middle, _, _, Step.of_apply (m := []) applied, rest⟩

/-- The end of a fetch touches no file. -/
theorem settle_alone {req : RangeRequest} {fetch : Nat} {result : Option Bytes}
    (completes : Completes (cacheSys objects) s (.settle req fetch result) s' reply) :
    s'.files = s.files ∧ reply = returned req result := by
  obtain ⟨_, _, _, ⟨⟩, ⟨⟨⟩, -⟩ | ⟨_, ⟨⟩, relocks⟩⟩ := step_of_completes completes
  obtain ⟨_, _, _, ⟨⟩, ⟨⟨⟩, -⟩ | ⟨_, ⟨⟩, forgets⟩⟩ := step_of_completes relocks
  obtain ⟨_, _, _, ⟨⟩, ⟨⟨⟩, -⟩ | ⟨_, ⟨⟩, unlocks⟩⟩ := step_of_completes forgets
  obtain ⟨_, _, _, ⟨⟩, ⟨⟨⟩, rfl⟩ | ⟨_, ⟨⟩, -⟩⟩ := step_of_completes unlocks
  exact ⟨rfl, rfl⟩

/-- `writeAtomic`: the chunk's file is the data, or an error leaves the files of
chunks as they are. -/
theorem writeAtomic_alone {req : RangeRequest} {fetch : Nat} {data : Bytes}
    (completes : Completes (cacheSys objects) s (.writeTmp req fetch data) s' reply) :
    (reply = .error ∧ ∀ path, ChunkName path → s'.files.get path = s.files.get path) ∨
      reply = returned req (some data) ∧
        ∀ path, ChunkName path → s'.files.get path = (s.files.set req.chunkID data).get path := by
  have tmp : ∀ (written : Bytes) path, ChunkName path →
      (s.files.set (tmpPath req.chunkID) written).get path = s.files.get path :=
    fun written path named => GoMap.get_set_ne _ _ (named.ne_tmpPath _)
  obtain ⟨_, _, _, step, ⟨rfl, -⟩ | ⟨_, rfl, rest⟩⟩ := step_of_completes completes
  · cases step
  · cases step with
    | tornTmp =>
        obtain ⟨files, failed⟩ := settle_alone rest
        exact Or.inl ⟨failed, fun path named => by rw [files]; exact tmp _ path named⟩
    | noTmp =>
        obtain ⟨files, failed⟩ := settle_alone rest
        exact Or.inl ⟨failed, fun path _ => by rw [files]⟩
    | writeTmp =>
        obtain ⟨_, _, _, renames, ⟨rfl, -⟩ | ⟨_, rfl, ends⟩⟩ := step_of_completes rest
        · cases renames
        · cases renames with
          | rename found =>
              obtain ⟨files, returns⟩ := settle_alone ends
              cases (GoMap.get_set_self _ _ _).symm.trans found
              refine Or.inr ⟨returns, fun path named => ?_⟩
              rw [files, GoMap.get_set, GoMap.get_set, GoMap.get_delete_ne _ (named.ne_tmpPath _),
                tmp _ path named]
          | noRename =>
              obtain ⟨_, _, _, removes, ⟨rfl, -⟩ | ⟨_, rfl, settles⟩⟩ := step_of_completes ends
              · cases removes
              · cases removes with
                | removeTmp =>
                    obtain ⟨files, failed⟩ := settle_alone settles
                    refine Or.inl ⟨failed, fun path named => ?_⟩
                    rw [files, GoMap.get_delete_ne _ (named.ne_tmpPath _), tmp _ path named]
                | keepTmp =>
                    obtain ⟨files, failed⟩ := settle_alone settles
                    exact Or.inl ⟨failed, fun path named => by rw [files]; exact tmp _ path named⟩

/-- `fetchFullChunk`, then `writeAtomic`. -/
theorem fetch_alone {req : RangeRequest} {fetch : Nat}
    (completes : Completes (cacheSys objects) s (.size req fetch) s' reply) :
    (reply = .error ∧ ∀ path, ChunkName path → s'.files.get path = s.files.get path) ∨
      ∃ data, ChunkStore.fetchFullChunk mapStore objects req.chunkID = .ok data ∧
        reply = returned req (some data) ∧
        ∀ path, ChunkName path → s'.files.get path = (s.files.set req.chunkID data).get path := by
  obtain ⟨_, _, _, step, ⟨rfl, -⟩ | ⟨_, rfl, rest⟩⟩ := step_of_completes completes
  · cases step
  · cases step with
    | noSize =>
        obtain ⟨files, failed⟩ := settle_alone rest
        exact Or.inl ⟨failed, fun path _ => by rw [files]⟩
    | size sized =>
        obtain ⟨_, _, _, reads, ⟨rfl, -⟩ | ⟨_, rfl, ends⟩⟩ := step_of_completes rest
        · cases reads
        · cases reads with
          | noRange =>
              obtain ⟨files, failed⟩ := settle_alone ends
              exact Or.inl ⟨failed, fun path _ => by rw [files]⟩
          | getRange read =>
              rcases writeAtomic_alone ends with failed | ⟨returns, files⟩
              · exact Or.inl failed
              · refine Or.inr ⟨_, ?_, returns, files⟩
                simp only [ChunkStore.fetchFullChunk, sized, read]

/-- With nobody else active, `readRange` fails and leaves the files of chunks as
they are, or does what `ChunkStore.readRange` does in one step. -/
theorem readRange_alone {req : RangeRequest} (free : s.inflight.get req.chunkID = none)
    (completes : Completes (cacheSys objects) s (.check req) s' reply) :
    (reply = .error ∧ ∀ path, ChunkName path → s'.files.get path = s.files.get path) ∨
      ∃ files outcome,
        ChunkStore.readRange mapStore true objects s.files req.chunkID req.offset req.length =
          (files, outcome) ∧
        reply = .ofOutcome outcome ∧
        ∀ path, ChunkName path → s'.files.get path = files.get path := by
  rw [ChunkStore.readRange_mapStore]
  obtain ⟨_, _, _, step, ⟨rfl, rfl⟩ | ⟨_, rfl, locks⟩⟩ := step_of_completes completes
  · cases step with
    | hit found => exact Or.inr ⟨_, _, by rw [found], rfl, fun _ _ => rfl⟩
  cases step with
  | miss absent =>
    obtain ⟨_, _, _, ⟨⟩, ⟨⟨⟩, -⟩ | ⟨_, ⟨⟩, rechecks⟩⟩ := step_of_completes locks
    obtain ⟨_, _, _, again, ⟨rfl, -⟩ | ⟨_, rfl, joins⟩⟩ := step_of_completes rechecks
    · cases again
    cases again with
    | hitLocked found => cases absent.symm.trans found
    | missLocked =>
      obtain ⟨_, _, _, becomes, ⟨rfl, -⟩ | ⟨_, rfl, unlocks⟩⟩ := step_of_completes joins
      · cases becomes
      cases becomes with
      | join present => cases free.symm.trans present
      | become =>
        obtain ⟨_, _, _, ⟨⟩, ⟨⟨⟩, -⟩ | ⟨_, ⟨⟩, fetches⟩⟩ := step_of_completes unlocks
        rcases fetch_alone fetches with failed | ⟨data, whole, returns, files⟩
        · exact Or.inl failed
        · refine Or.inr ⟨_, _, by rw [absent, whole]; rfl, ?_, files⟩
          rw [returns, returned]
          cases sliceBytes data req.offset (wrap64 (req.offset + req.length)) <;> rfl

end Alone

end ReadCall

/-! ### What holds in every run -/

/-- The files of chunks are parts of their objects, and the file of a chunk that has
been fetched is its object. A fetch is never started after one has succeeded. -/
structure ChunkCache.Sound (objects : Objects) (s : ChunkCache) (m : List FetchEvent) : Prop where
  files : PartsOf objects s.files
  fetched : ∀ id, .succeeded id ∈ m → ChunkName id ∧
    ∃ object, objects.get id = some object ∧ s.files.get id = some object
  once : m.Pairwise fun later earlier => ∀ id, later = .started id → earlier ≠ .succeeded id

namespace ReadCall

variable {objects : Objects} {s s' : ChunkCache} {m m' : List FetchEvent} {t u : ReadCall}
  {next : ReadCall ⊕ CacheReply}

/-- What a call knows between two of its steps. -/
def Knows (objects : Objects) (s : ChunkCache) (m : List FetchEvent) : ReadCall → Prop
  | .join req => .succeeded req.chunkID ∈ m → ∃ fetch, s.inflight.get req.chunkID = some fetch
  | .unlockHit req data =>
      (objects.get req.chunkID).bind (readAt · req.offset req.length) = some data
  | .getRange req _ length => mapStore.size objects req.chunkID = some length
  | .writeTmp req _ data => objects.get req.chunkID = some data
  | .rename req _ data =>
      objects.get req.chunkID = some data ∧ s.files.get (tmpPath req.chunkID) = some data
  | .settle req _ (some data) | .relock req _ (some data) | .forget req _ (some data)
  | .unlockDone req (some data) => objects.get req.chunkID = some data
  | _ => True

/-- A call for a chunk, with a range inside its object; if it is a fetcher, its
entry is in the map. -/
structure Valid (objects : Objects) (s : ChunkCache) (m : List FetchEvent) (t : ReadCall) :
    Prop where
  safe : t.req.Safe objects
  entry : ∀ fetch, t.holds = some fetch → s.inflight.get t.req.chunkID = some fetch
  knows : t.Knows objects s m

theorem safe_readAt {req : RangeRequest} (safe : req.Safe objects) {object : Bytes}
    (stored : objects.get req.chunkID = some object) :
    ∃ range, readAt object req.offset req.length = some range ∧
      sliceBytes object req.offset (wrap64 (req.offset + req.length)) = some range := by
  obtain ⟨low, nonneg, high, bounded⟩ := safe.2 object stored
  have plain : wrap64 (req.offset + req.length) = req.offset + req.length :=
    wrap64_of_nonneg (by omega) (by omega)
  refine ⟨_, if_pos ⟨low, nonneg, Or.inr high⟩, ?_⟩
  rw [plain, sliceBytes, if_pos ⟨low, by omega, high⟩, add_sub_cancel_left]

/-- What a part of an object gives is the range of the object. -/
theorem readAt_of_part {file object : Bytes} (part : file <+: object) {offset length : Int}
    {data : Bytes} (read : readAt file offset length = some data) :
    readAt object offset length = some data := by
  unfold readAt at read ⊢
  split_ifs at read with inside
  obtain ⟨rest, rfl⟩ := part
  rw [List.length_append]
  push_cast
  rw [if_pos ⟨inside.1, inside.2.1, by omega⟩, ← read]
  rcases inside.2.2 with empty | high
  · simp only [empty, Int.toNat_zero, List.take_zero]
  · rw [List.drop_append_of_le_length (by omega), List.take_append_of_le_length (by
      rw [List.length_drop]
      omega)]

/-- What a file of the cache gives is the range of the object. -/
theorem range_of_file (sound : s.Sound objects m) {req : RangeRequest}
    (named : ChunkName req.chunkID)
    {data : Bytes}
    (found : (s.files.get req.chunkID).bind (readAt · req.offset req.length) = some data) :
    (objects.get req.chunkID).bind (readAt · req.offset req.length) = some data := by
  obtain ⟨file, held, read⟩ := Option.bind_eq_some_iff.mp found
  obtain ⟨object, stored, part⟩ := sound.files _ _ named held
  exact Option.bind_eq_some_iff.mpr ⟨object, stored, readAt_of_part part read⟩

/-- A chunk that has been fetched is not missed. -/
theorem hit_of_fetched (sound : s.Sound objects m) {req : RangeRequest} (safe : req.Safe objects)
    (fetched : .succeeded req.chunkID ∈ m) :
    ∃ data, (s.files.get req.chunkID).bind (readAt · req.offset req.length) = some data := by
  obtain ⟨-, object, stored, held⟩ := sound.fetched _ fetched
  obtain ⟨range, read, -⟩ := safe_readAt safe stored
  exact ⟨range, Option.bind_eq_some_iff.mpr ⟨object, held, read⟩⟩

theorem readAt_whole (object : Bytes) : readAt object 0 object.length = some object := by
  rw [readAt, if_pos ⟨le_rfl, by omega, Or.inr (by omega)⟩, Int.toNat_zero, List.drop_zero,
    Int.toNat_natCast, List.take_length]

/-- A fetch of the length of an object reads the object. -/
theorem object_of_getRange {id : Key} {length : Int} {data : Bytes}
    (sized : mapStore.size objects id = some length)
    (read : mapStore.getRange objects id 0 length = some data) : objects.get id = some data := by
  obtain ⟨object, stored, whole⟩ := Option.bind_eq_some_iff.mp read
  simp only [mapStore_size, stored, Option.map_some, Option.some.injEq] at sized
  rw [← sized, readAt_whole] at whole
  exact stored.trans whole

/-- A step leaves its call valid. -/
theorem Step.valid_self (step : Step objects s m t s' m' (.inl u)) (sound : s.Sound objects m)
    (valid : t.Valid objects s m) : u.Valid objects s' m' := by
  have safe : u.req.Safe objects := by
    rw [step.req_eq]
    exact valid.safe
  have entry := valid.entry
  have knows := valid.knows
  refine ⟨safe, ?_, ?_⟩
  · intro fetch holds
    cases step
    case become =>
      cases holds
      exact GoMap.get_set_self _ _ _
    all_goals first | cases holds; done | exact entry fetch holds
  · cases step
    case hitLocked found => exact range_of_file sound safe.1 found
    case missLocked absent =>
      intro fetched
      obtain ⟨data, found⟩ := hit_of_fetched sound safe fetched
      cases absent.symm.trans found
    case size sized => exact sized
    case getRange read => exact object_of_getRange knows read
    case writeTmp => exact ⟨knows, GoMap.get_set_self _ _ _⟩
    case rename => exact knows.1
    case settle result => cases result <;> exact knows
    case relock result _ => cases result <;> exact knows
    case forget result => cases result <;> exact knows
    all_goals trivial

/-- The calls of two fetchers of one chunk have the same number. -/
theorem Valid.fetch_eq (left : t.Valid objects s m) (right : u.Valid objects s m) {f g : Nat}
    (holds : t.holds = some f) (holds' : u.holds = some g) (same : t.req.chunkID = u.req.chunkID) :
    f = g := by
  have entry := right.entry g holds'
  rw [← same, left.entry f holds] at entry
  exact Option.some.inj entry

/-- An entry stays while another call, which holds the lock, is about to join. -/
theorem Step.entry_kept (step : Step objects s m t s' m' next)
    (exclusive : t.critical = true → u.critical = false) (inside : u.critical = true) {id : Key}
    (present : ∃ fetch, s.inflight.get id = some fetch) :
    ∃ fetch, s'.inflight.get id = some fetch := by
  obtain ⟨fetch, entry⟩ := present
  rcases step.inflight_cases with same | ⟨-, critical, -⟩ | ⟨-, -, critical, -⟩
  · exact ⟨fetch, by rw [same]; exact entry⟩
  · rw [exclusive critical] at inside
    cases inside
  · rw [exclusive critical] at inside
    cases inside

section Others

variable (step : Step objects s m t s' m' next) (mover : t.Valid objects s m)
  (valid : u.Valid objects s m)
  (tokens : ∀ fetch, t.holds = some fetch → u.holds ≠ some fetch)
include step mover valid tokens

/-- The entry of another fetcher stays. -/
theorem Step.entry_other (fetch : Nat) (holds : u.holds = some fetch) :
    s'.inflight.get u.req.chunkID = some fetch := by
  have entry := valid.entry fetch holds
  rcases step.inflight_cases with same | ⟨absent, -, added, -⟩ | ⟨own, mine, -, deleted⟩
  · rw [same]
    exact entry
  · have different : u.req.chunkID ≠ t.req.chunkID := by
      intro same
      rw [same, absent] at entry
      cases entry
    rw [added, GoMap.get_set_ne _ _ different]
    exact entry
  · have different : u.req.chunkID ≠ t.req.chunkID := by
      intro same
      rw [← mover.fetch_eq valid mine holds same.symm] at holds
      exact tokens own mine holds
    rw [deleted, GoMap.get_delete_ne _ different]
    exact entry

/-- The temporary file of another fetcher stays. -/
theorem Step.tmp_other {fetch : Nat} (holds : u.holds = some fetch) :
    s'.files.get (tmpPath u.req.chunkID) = s.files.get (tmpPath u.req.chunkID) := by
  rcases step.files_cases with same | ⟨isFetcher, kept⟩
  · rw [same]
  · obtain ⟨own, mine⟩ := Option.isSome_iff_exists.mp isFetcher
    refine kept _ (mover.safe.1.ne_tmpPath _).symm fun same => ?_
    rw [← mover.fetch_eq valid mine holds (tmpPath_injective same).symm] at holds
    exact tokens own mine holds

/-- A step leaves the other calls valid. -/
theorem Step.valid_other (exclusive : t.critical = true → u.critical = false) :
    u.Valid objects s' m' := by
  refine ⟨valid.safe, step.entry_other mover valid tokens, ?_⟩
  have knows := valid.knows
  cases u
  case join req =>
    intro fetched
    have before : ∃ fetch, s.inflight.get req.chunkID = some fetch := by
      rcases step.record_cases with same | ⟨started, -, -⟩ | ⟨succeeded, fetch, data, isRename, -⟩
      · rw [same] at fetched
        exact knows fetched
      · rw [started] at fetched
        exact knows (by simpa using fetched)
      · rw [succeeded] at fetched
        rcases List.mem_cons.mp fetched with same | old
        · rw [FetchEvent.succeeded.inj same]
          exact ⟨fetch, mover.entry fetch (by rw [isRename]; rfl)⟩
        · exact knows old
    exact step.entry_kept exclusive rfl before
  case rename req fetch data =>
    have kept := step.tmp_other mover valid tokens rfl
    exact ⟨knows.1, kept.trans knows.2⟩
  case settle req fetch result => cases result <;> exact knows
  case relock req fetch result => cases result <;> exact knows
  case forget req fetch result => cases result <;> exact knows
  case unlockDone req result => cases result <;> exact knows
  all_goals exact knows

end Others

/-- A step leaves the cache sound. -/
theorem Step.sound (step : Step objects s m t s' m' next) (sound : s.Sound objects m)
    (valid : t.Valid objects s m) : s'.Sound objects m' := by
  have knows := valid.knows
  have named := valid.safe.1
  have files : ∀ id, ChunkName id → s'.files.get id = s.files.get id ∨
      s'.files.get id = objects.get id ∧ ∃ object, objects.get id = some object := by
    intro id isChunk
    cases step
    case writeTmp | tornTmp =>
      exact Or.inl (GoMap.get_set_ne _ _ (isChunk.ne_tmpPath _))
    case removeTmp => exact Or.inl (GoMap.get_delete_ne _ (isChunk.ne_tmpPath _))
    case rename req fetch data written found =>
      have whole : objects.get req.chunkID = some written :=
        knows.1.trans (knows.2.symm.trans found)
      by_cases same : id = req.chunkID
      · subst same
        exact Or.inr ⟨(GoMap.get_set_self _ _ _).trans whole.symm, written, whole⟩
      · refine Or.inl ?_
        exact (GoMap.get_set_ne _ _ same).trans (GoMap.get_delete_ne _ (isChunk.ne_tmpPath _))
    all_goals exact Or.inl rfl
  refine ⟨?_, ?_, ?_⟩
  · intro id file isChunk held
    rcases files id isChunk with same | ⟨same, -⟩
    · exact sound.files id file isChunk (same.symm.trans held)
    · exact ⟨file, same.symm.trans held, List.prefix_refl file⟩
  · intro id fetched
    have old : .succeeded id ∈ m →
        ChunkName id ∧ ∃ object, objects.get id = some object ∧ s'.files.get id = some object := by
      intro member
      obtain ⟨isChunk, object, stored, held⟩ := sound.fetched id member
      refine ⟨isChunk, object, stored, ?_⟩
      rcases files id isChunk with same | ⟨same, -⟩
      · exact same.trans held
      · exact same.trans stored
    cases step
    case rename req fetch data written found =>
      rcases List.mem_cons.mp fetched with same | member
      · rw [FetchEvent.succeeded.inj same]
        exact ⟨named, written, knows.1.trans (knows.2.symm.trans found), GoMap.get_set_self _ _ _⟩
      · exact old member
    case become => exact old (by simpa using fetched)
    all_goals exact old fetched
  · rcases step.record_cases with same | ⟨started, isJoin, absent⟩ | ⟨succeeded, -⟩
    · rw [same]
      exact sound.once
    · rw [started]
      refine List.pairwise_cons.mpr ⟨?_, sound.once⟩
      rintro earlier member id same rfl
      rw [isJoin] at knows
      obtain ⟨fetch, entry⟩ := knows (by rw [FetchEvent.started.inj same]; exact member)
      cases absent.symm.trans entry
    · rw [succeeded]
      exact List.pairwise_cons.mpr ⟨fun _ _ _ same => (by cases same), sound.once⟩

/-- A call that returns no error returns the range of the object, and none
panics. -/
theorem Step.returns {reply : CacheReply} (step : Step objects s m t s' m' (.inr reply))
    (sound : s.Sound objects m) (valid : t.Valid objects s m) :
    reply = .error ∨ ∃ data, reply = .ok data ∧
      (objects.get t.req.chunkID).bind (readAt · t.req.offset t.req.length) = some data := by
  have knows := valid.knows
  cases step
  case hit data found => exact Or.inr ⟨data, rfl, range_of_file sound valid.safe.1 found⟩
  case readJoined data found =>
    exact Or.inr ⟨data, rfl, range_of_file sound valid.safe.1 found⟩
  case unlockHit data => exact Or.inr ⟨data, rfl, knows⟩
  case giveUp => exact Or.inl rfl
  case missJoined => exact Or.inl rfl
  case unlockDone req result =>
    cases result with
    | none => exact Or.inl rfl
    | some data =>
        have safe : req.Safe objects := valid.safe
        obtain ⟨range, read, sliced⟩ := safe_readAt safe knows
        refine Or.inr ⟨range, ?_, Option.bind_eq_some_iff.mpr ⟨data, knows, read⟩⟩
        simp only [returned, sliced]

end ReadCall

section Runs

variable {objects : Objects} {pool : Pool ChunkCache ReadCall (List FetchEvent)}
  (reached : Reachable (cacheSys objects) noteFetches (OverDirectory objects)
    (safeRanges objects) pool)
include reached

theorem cache_mutex : pool.threads.countP ReadCall.critical = pool.shared.locked.toNat := by
  refine reached.mutex ReadCall.critical ChunkCache.locked ?_ ?_ ?_
  · rintro pool ⟨files, -, rfl⟩
    rfl
  · rintro pool t ⟨req, rfl, -⟩
    rfl
  · intro s t o s' a holds applied
    exact (ReadCall.Step.of_apply (m := []) applied).balanced holds

theorem cache_tokens : (pool.threads.filterMap ReadCall.holds).Nodup := by
  have tokens := reached.distinct ReadCall.holds (fun s fetch => fetch < s.nextFetch) ?_ ?_ ?_ ?_
  · exact tokens.1
  · rintro pool ⟨files, -, rfl⟩
    rfl
  · rintro pool t ⟨req, rfl, -⟩
    rfl
  · intro s t o s' a fetch applied issued
    exact Nat.lt_of_lt_of_le issued (ReadCall.Step.of_apply (m := []) applied).nextFetch_le
  · intro s t o s' a t' fetch applied continues holds
    have step := ReadCall.Step.of_apply (m := []) applied
    rw [show t.resume a = .inl t' from continues] at step
    rcases step.holds_cases holds with old | ⟨fresh, more⟩
    · exact Or.inl old
    · exact Or.inr ⟨by omega, by omega⟩

/-- In every run the cache is sound and every call valid. -/
theorem cache_valid :
    pool.shared.Sound objects pool.record ∧
      ∀ t ∈ pool.threads, t.Valid objects pool.shared pool.record := by
  have alone : ∀ pool,
      Reachable (cacheSys objects) noteFetches (OverDirectory objects) (safeRanges objects) pool →
      pool.threads.countP ReadCall.critical ≤ 1 ∧
        (pool.threads.filterMap ReadCall.holds).Nodup := by
    intro pool reached
    refine ⟨?_, cache_tokens reached⟩
    rw [cache_mutex reached]
    exact Bool.toNat_le _
  refine (reached.knowing alone).local_invariant (ChunkCache.Sound objects)
    (ReadCall.Valid objects) ?_ ?_ ?_
  · rintro pool ⟨files, parts, rfl⟩
    exact ⟨⟨parts, nofun, .nil⟩, fun t member => by cases member⟩
  · rintro pool t - ⟨-, req, rfl, safe⟩
    exact ⟨safe, fun fetch holds => (by cases holds), trivial⟩
  · rintro s m before t after o s' a sound valid ⟨⟨one, distinct⟩, -⟩ applied
    have step := ReadCall.Step.of_apply (m := m) applied
    have mover := valid t (List.mem_append_right _ List.mem_cons_self)
    refine ⟨step.sound sound mover, fun t' continues => ?_, fun u member => ?_⟩
    · rw [show t.resume a = .inl t' from continues] at step
      exact step.valid_self sound mover
    · exact step.valid_other mover (valid u (mem_of_mem_others t member))
        (fun fetch holds => ne_of_nodup_filterMap distinct holds member)
        (fun critical => not_critical_of_count one critical member)

/-- Every entry of the map belongs to a call that will delete it. -/
theorem cache_entries {id : Key} {fetch : Nat} (entry : pool.shared.inflight.get id = some fetch) :
    ∃ t ∈ pool.threads, t.fetching = some id := by
  revert id fetch
  have initially : ∀ pool, OverDirectory objects pool → ∀ id fetch,
      pool.shared.inflight.get id = some fetch → ∃ t ∈ pool.threads, t.fetching = some id := by
    rintro pool ⟨files, -, rfl⟩ id fetch entry
    cases entry
  refine reached.invariant initially ?_
  rintro ⟨s, threads, m⟩ next event held admitted taken id fetch entry
  rcases Sys.step_cases taken with
    ⟨t, rfl, rfl⟩ | ⟨before, t, after, o, s', a, rfl, split, applied, rfl⟩
  · obtain ⟨u, member, fetches⟩ := held id fetch entry
    exact ⟨u, List.mem_append_left _ member, fetches⟩
  · dsimp only at split held entry ⊢
    subst split
    have step := ReadCall.Step.of_apply (m := m) applied
    have own : ∀ u, t.resume a = .inl u → u.fetching = some id →
        ∃ u ∈ before ++ remaining (t.resume a) ++ after, u.fetching = some id := by
      intro u continues fetches
      refine ⟨u, List.mem_append_left _ (List.mem_append_right _ ?_), fetches⟩
      rw [continues]
      exact List.mem_singleton_self u
    rcases step.entry_cases entry with old | ⟨u, continues, fetches⟩
    · obtain ⟨u, member, fetches⟩ := held id fetch old
      rcases List.mem_append.mp member with early | late
      · exact ⟨u, List.mem_append_left _ (List.mem_append_left _ early), fetches⟩
      · rcases List.mem_cons.mp late with rfl | late
        · obtain ⟨u', continues, still⟩ := step.fetching_kept fetches entry
          exact own u' continues still
        · exact ⟨u, List.mem_append_right _ late, fetches⟩
    · exact own u continues fetches

/-- The chunks being fetched are distinct: their entries are, and no two calls
have the same one. -/
theorem cache_fetching : (pool.threads.filterMap ReadCall.fetching).Nodup := by
  obtain ⟨-, valid⟩ := cache_valid reached
  have tokens := cache_tokens reached
  rw [List.Nodup, List.pairwise_filterMap] at tokens ⊢
  refine tokens.imp_of_mem fun {t u} inPool inPool' distinct id fetches id' fetches' same => ?_
  obtain ⟨fetch, holds, rfl⟩ := Option.map_eq_some_iff.mp fetches
  obtain ⟨fetch', holds', rfl⟩ := Option.map_eq_some_iff.mp fetches'
  exact distinct fetch holds fetch' holds'
    ((valid t inPool).fetch_eq (valid u inPool') holds holds' same)

end Runs

/-- Single flight: in every run of concurrent reads, with fetches that fail or
succeed as they may, no two fetches of a chunk overlap and none is started after
one has succeeded; a call that returns without an error returns the bytes of its
range, and none panics; and when no call is active the in-flight map is empty. -/
theorem reads_are_single_flight {objects : Objects}
    {pool : Pool ChunkCache ReadCall (List FetchEvent)}
    (reached : Reachable (cacheSys objects) noteFetches EmptyCache (insideRanges objects) pool) :
    (pool.threads.filterMap ReadCall.fetching).Nodup ∧
      (pool.record.Pairwise fun later earlier =>
        ∀ id, later = .started id → earlier ≠ .succeeded id) ∧
      (∀ call ∈ pool.threads, ∀ oracle shared answer reply,
        (cacheSys objects).apply pool.shared call.effect oracle = some (shared, answer) →
        call.resume answer = .inr reply →
        reply = .error ∨ ∃ object, objects.get call.req.chunkID = some object ∧
          reply = .ok ((object.drop call.req.offset.toNat).take call.req.length.toNat)) ∧
      (pool.threads = [] → pool.shared.inflight = ∅) := by
  have reached : Reachable (cacheSys objects) noteFetches (OverDirectory objects)
      (safeRanges objects) pool :=
    (reached.of_start EmptyCache.overDirectory).mono safeRanges_of_insideRanges
  obtain ⟨sound, valid⟩ := cache_valid reached
  refine ⟨cache_fetching reached, sound.once, ?_, ?_⟩
  · intro call inPool oracle shared answer reply applied returns
    have step := ReadCall.Step.of_apply (m := pool.record) applied
    rw [returns] at step
    rcases step.returns sound (valid call inPool) with error | ⟨data, ok, range⟩
    · exact Or.inl error
    · obtain ⟨object, stored, read⟩ := Option.bind_eq_some_iff.mp range
      refine Or.inr ⟨object, stored, ok.trans ?_⟩
      unfold readAt at read
      split_ifs at read
      exact congrArg CacheReply.ok (Option.some.inj read).symm
  · intro idle
    refine GoMap.ext fun id => ?_
    cases entry : pool.shared.inflight.get id with
    | none => rfl
    | some fetch =>
        obtain ⟨t, inPool, -⟩ := cache_entries reached entry
        rw [idle] at inPool
        cases inPool

/-- Two readers of one chunk of three bytes. -/
def pairObjects : Objects := GoMap.ofList [(['c'], [1, 2, 3])]

def pairRequests : List RangeRequest := [⟨['c'], 0, 2⟩, ⟨['c'], 1, 2⟩]

/-- The first call to run becomes the fetcher. The other joins it, is awoken and
reads its range from the file before the entry is gone. -/
def pairRun : List (Event ReadCall CacheOracle) :=
  pairRequests.map (fun req => .spawn (.check req)) ++
    [.run 0 {}, .run 1 {}, .run 0 {}, .run 0 {}, .run 0 {}, .run 0 {},
      .run 1 {}, .run 1 {}, .run 1 {}, .run 1 {},
      .run 0 {}, .run 0 {}, .run 0 {}, .run 0 {}, .run 0 {}, .run 1 {}, .run 1 {},
      .run 0 {}, .run 0 {}, .run 0 {}]

/-- Only those two calls are made. -/
def pairAdmits (_ : Pool ChunkCache ReadCall (List FetchEvent)) :
    Event ReadCall CacheOracle → Prop
  | .spawn (.check req) => req ∈ pairRequests
  | .spawn _ => False
  | .run _ _ => True

instance (pool : Pool ChunkCache ReadCall (List FetchEvent)) (event : Event ReadCall CacheOracle) :
    Decidable (pairAdmits pool event) := by
  unfold pairAdmits
  split <;> infer_instance

theorem insideRanges_of_pairAdmits (pool : Pool ChunkCache ReadCall (List FetchEvent))
    (event : Event ReadCall CacheOracle) (admitted : pairAdmits pool event) :
    insideRanges pairObjects pool event := by
  unfold pairAdmits at admitted
  split at admitted
  next req =>
    have stored : pairObjects.get ['c'] = some [1, 2, 3] := by decide +kernel
    have named : ChunkName ['c'] := by unfold ChunkName; decide
    refine ⟨req, rfl, ?_⟩
    rcases List.mem_pair.mp admitted with rfl | rfl
    · exact ⟨named, _, stored, by decide, by decide, by decide, by decide⟩
    · exact ⟨named, _, stored, by decide, by decide, by decide, by decide⟩
  next => cases admitted
  next => trivial

theorem reads_are_single_flight_pair :
    ∃ pool, Reachable (cacheSys pairObjects) noteFetches EmptyCache (insideRanges pairObjects)
        pool ∧
      pool.threads = [] ∧ pool.record = [.succeeded ['c'], .started ['c']] ∧
      pool.shared.inflight = ∅ := by
  have plays : ((cacheSys pairObjects).run noteFetches pairAdmits ⟨.empty, [], []⟩ pairRun).map
      (fun pool => (pool.threads.length, pool.record)) =
      some (0, [.succeeded ['c'], .started ['c']]) := by decide +kernel
  obtain ⟨pool, ran, result⟩ := Option.map_eq_some_iff.mp plays
  have reached : Reachable (cacheSys pairObjects) noteFetches EmptyCache
      (insideRanges pairObjects) pool :=
    Reachable.mono insideRanges_of_pairAdmits (.of_run (.start rfl) ran)
  have idle : pool.threads = [] := List.eq_nil_of_length_eq_zero (congrArg Prod.fst result)
  exact ⟨pool, reached, idle, congrArg Prod.snd result,
    (reads_are_single_flight reached).2.2.2 idle⟩

end Fusey
