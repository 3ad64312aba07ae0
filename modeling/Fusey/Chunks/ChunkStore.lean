import Mathlib.Logic.Relation
import Fusey.GoLib.Fmt
import Fusey.Chunks.Store

/-!
Contract: the chunk store and its disk cache (`internal/chunks/chunk_store.go`,
`internal/chunks/cache.go`).

Owns:
- the active buffer and the methods that rotate, flush, read and list chunks,
  over any backing store;
- which bytes a chunk identifier denotes, and that every method of the chunk
  store leaves every byte that could be read readable and unchanged.

An operation takes the outcome of its store call and, where the cache writes a
file, whether the disk accepted it. The singleflight bookkeeping of the cache is
left out: calls on one chunk store are taken one at a time.
-/

set_option autoImplicit false

namespace Fusey

open GoInt

/-- `chunkID`. -/
def chunkID (seq : Nat) : Key := "chunk-".toList ++ GoFmt.padded 8 seq

/-- The errors of the chunk store, with the values their texts print. -/
inductive ChunkError where
  | tooLarge (length maxChunkSize : Int)
  | sealFailed (id : Key)
  | outOfBounds (id : Key) (offset length size : Int)
  | getRange (id : Key)
  | missSize (id : Key)
  | missFetch (id : Key)
  | cacheWrite (id : Key)
deriving DecidableEq, Repr

/-- `data[low:high]`; `none` is the panic of a bad slice. -/
def sliceBytes (data : Bytes) (low high : Int) : Option Bytes :=
  if 0 ≤ low ∧ low ≤ high ∧ high ≤ data.length then
    some ((data.drop low.toNat).take (high - low).toNat)
  else none

/-- `ChunkStore`, without the backing store. `cache` holds the files of the
disk cache when `SetCacheDir` has enabled it. -/
structure ChunkStore where
  maxChunkSize : Int
  cache : Option Objects
  activeID : Key
  activeBuf : Bytes
  activeDirty : Bool
  nextSeq : Nat
deriving DecidableEq

namespace ChunkStore

/-- `NewChunkStore`. -/
def new (maxChunkSize : Int) : ChunkStore :=
  { maxChunkSize := maxChunkSize, cache := none, activeID := chunkID 0, activeBuf := [],
    activeDirty := false, nextSeq := 1 }

/-- `SetCacheDir` on a directory that already holds `files`. -/
def setCacheDir (cs : ChunkStore) (files : Objects) : ChunkStore := { cs with cache := some files }

/-- `fmt.Sscanf(id, "chunk-%08d", &seq)`. -/
def scanChunkID (id : Key) : Option Int :=
  if "chunk-".toList <+: id then GoFmt.scanInt 8 (id.drop 6) else none

/-- The highest sequence number among the listed IDs, or -1. -/
def maxSeq (ids : List Key) : Int :=
  ids.foldl (fun highest id =>
    match scanChunkID id with
    | some seq => if seq > highest then seq else highest
    | none => highest) (-1)

/-- `RecoverNextSeq`, when the store lists `ids`. -/
def recoverNextSeq (cs : ChunkStore) (ids : List Key) : ChunkStore :=
  if maxSeq ids < 0 then cs
  else
    { cs with
      activeID := chunkID (maxSeq ids + 1).toNat
      nextSeq := (maxSeq ids + 2).toNat }

/-- A fresh active ID. -/
def rotate (cs : ChunkStore) : ChunkStore :=
  { cs with activeID := chunkID cs.nextSeq, nextSeq := cs.nextSeq + 1 }

/-- The chunk store once the active chunk is sealed. The cache write is best
effort. -/
def startNext (cached : Bool) (cs : ChunkStore) : ChunkStore :=
  { maxChunkSize := cs.maxChunkSize
    cache := if cached then cs.cache.map fun files => files.set cs.activeID cs.activeBuf
      else cs.cache
    activeID := chunkID cs.nextSeq
    activeBuf := []
    activeDirty := false
    nextSeq := cs.nextSeq + 1 }

section Methods

variable {σ : Type} (store : Store σ)

/-- `sealLocked`, which is also `Seal`. -/
def sealActive (outcome : StoreOutcome) (cached : Bool) (s : σ) (cs : ChunkStore) :
    σ × ChunkStore × Except ChunkError Unit :=
  if cs.activeBuf = [] then (s, cs.rotate, .ok ())
  else
    match store.tryPut outcome s cs.activeID cs.activeBuf with
    | (s', false) => (s', cs, .error (.sealFailed cs.activeID))
    | (s', true) => (s', cs.startNext cached, .ok ())

/-- The end of `Append`: the data goes behind the buffer. -/
def push (cs : ChunkStore) (data : Bytes) (fileOffset : Int) : ChunkStore × Extent :=
  ({ cs with activeBuf := cs.activeBuf ++ data, activeDirty := true },
    { chunkID := cs.activeID, chunkOffset := cs.activeBuf.length, length := data.length,
      fileOffset := fileOffset })

/-- `Append`. -/
def append (outcome : StoreOutcome) (cached : Bool) (s : σ) (cs : ChunkStore) (data : Bytes)
    (fileOffset : Int) : σ × ChunkStore × Except ChunkError Extent :=
  if (data.length : Int) > cs.maxChunkSize then
    (s, cs, .error (.tooLarge data.length cs.maxChunkSize))
  else if (cs.activeBuf.length : Int) + data.length > cs.maxChunkSize then
    match sealActive store outcome cached s cs with
    | (s', cs', .error failure) => (s', cs', .error failure)
    | (s', cs', .ok ()) => (s', (cs'.push data fileOffset).1, .ok (cs'.push data fileOffset).2)
  else (s, (cs.push data fileOffset).1, .ok (cs.push data fileOffset).2)

/-- `FlushActive`; the Boolean says whether it returned nil. -/
def flushActive (outcome : StoreOutcome) (s : σ) (cs : ChunkStore) : σ × ChunkStore × Bool :=
  if cs.activeDirty = false then (s, cs, true)
  else
    match store.tryPut outcome s cs.activeID cs.activeBuf with
    | (s', false) => (s', cs, false)
    | (s', true) => (s', { cs with activeDirty := false }, true)

/-- `fetchFullChunk`. -/
def fetchFullChunk (s : σ) (id : Key) : Except ChunkError Bytes :=
  match store.size s id with
  | none => .error (.missSize id)
  | some size =>
      match store.getRange s id 0 size with
      | none => .error (.missFetch id)
      | some data => .ok data

/-- `chunkCache.readRange` over the cache's files, `written` saying whether the
disk accepts the fetched chunk. Go bounds a slice by the capacity of what was
fetched, not by its length. -/
def readRange (written : Bool) (s : σ) (files : Objects) (id : Key) (offset length : Int) :
    Objects × Except (GoFault ChunkError) Bytes :=
  match (files.get id).bind fun file => readAt file offset length with
  | some data => (files, .ok data)
  | none =>
      match fetchFullChunk store s id with
      | .error failure => (files, .error (.error failure))
      | .ok data =>
          if written then
            (files.set id data,
              match sliceBytes (data ++ store.spare data) offset (wrap64 (offset + length)) with
              | some range => .ok range
              | none => .error .panic)
          else (files, .error (.error (.cacheWrite id)))

/-- `Read`. -/
def read (written : Bool) (s : σ) (cs : ChunkStore) (id : Key) (offset length : Int) :
    ChunkStore × Except (GoFault ChunkError) Bytes :=
  if id = cs.activeID then
    let high := wrap64 (offset + length)
    (cs,
      if high > cs.activeBuf.length then
        .error (.error (.outOfBounds id offset length cs.activeBuf.length))
      else
        match sliceBytes cs.activeBuf offset high with
        | some range => .ok range
        | none => .error .panic)
  else
    match cs.cache with
    | some files =>
        let answer := readRange store written s files id offset length
        ({ cs with cache := some answer.1 }, answer.2)
    | none =>
        (cs,
          match store.getRange s id offset length with
          | some data => .ok data
          | none => .error (.error (.getRange id)))

/-- `SealedSize`. -/
def sealedSize (s : σ) (cs : ChunkStore) (id : Key) : Option Int :=
  if id = cs.activeID then some cs.activeBuf.length else store.size s id

/-- `ListSealed`, as a set. -/
def listSealed (s : σ) (cs : ChunkStore) : Finset Key := (store.list s).erase cs.activeID

end Methods

end ChunkStore

/-! ### Chunk identifiers -/

theorem chunkID_injective : Function.Injective chunkID := by
  intro left right same
  exact GoFmt.padded_injective 8 (List.append_cancel_left same)

theorem chunkID_ne_indexKey (seq : Nat) : chunkID seq ≠ indexKey := by
  intro same
  cases congrArg List.head? same

/-- `Sscanf` reads a sequence number of at most eight digits back. -/
theorem scanChunkID_chunkID {seq : Nat} (fits : seq < 100000000) :
    ChunkStore.scanChunkID (chunkID seq) = some (seq : Int) := by
  have start : "chunk-".toList <+: chunkID seq := List.prefix_append _ _
  have rest : (chunkID seq).drop 6 = GoFmt.padded 8 seq := rfl
  unfold ChunkStore.scanChunkID
  rw [if_pos start, rest]
  exact GoFmt.scanInt_padded (by decide) fits

private theorem le_maxSeq_from (ids : List Key) (highest : Int) :
    highest ≤ ids.foldl (fun highest id =>
        match ChunkStore.scanChunkID id with
        | some seq => if seq > highest then seq else highest
        | none => highest) highest ∧
      ∀ id ∈ ids, ∀ seq, ChunkStore.scanChunkID id = some seq →
        seq ≤ ids.foldl (fun highest id =>
          match ChunkStore.scanChunkID id with
          | some seq => if seq > highest then seq else highest
          | none => highest) highest := by
  induction ids generalizing highest with
  | nil => simp
  | cons head tail inductionHypothesis =>
      rw [List.foldl_cons]
      generalize raised : (match ChunkStore.scanChunkID head with
        | some seq => if seq > highest then seq else highest
        | none => highest) = next
      obtain ⟨above, bound⟩ := inductionHypothesis next
      have step : highest ≤ next := by
        rw [← raised]
        split
        · split_ifs <;> omega
        · exact Int.le_refl _
      refine ⟨Int.le_trans step above, ?_⟩
      intro id member seq scanned
      rcases List.mem_cons.mp member with rfl | inTail
      · refine Int.le_trans ?_ above
        rw [← raised, scanned]
        dsimp only
        split_ifs <;> omega
      · exact bound id inTail seq scanned

/-- `RecoverNextSeq` moves past every listed ID it can read. -/
theorem ChunkStore.le_maxSeq {ids : List Key} {id : Key} (member : id ∈ ids) {seq : Int}
    (scanned : scanChunkID id = some seq) : seq ≤ maxSeq ids :=
  (le_maxSeq_from ids (-1)).2 id member seq scanned

theorem ChunkStore.neg_one_le_maxSeq (ids : List Key) : -1 ≤ maxSeq ids :=
  (le_maxSeq_from ids (-1)).1

/-- Eight characters are scanned. -/
theorem ChunkStore.maxSeq_lt (ids : List Key) : maxSeq ids < 100000000 := by
  have scanned : ∀ id seq, scanChunkID id = some seq → seq < 100000000 := by
    intro id seq read
    unfold scanChunkID at read
    split_ifs at read
    exact GoFmt.scanInt_lt read
  induction ids using List.reverseRecOn with
  | nil => decide
  | append_singleton front last inductionHypothesis =>
      unfold maxSeq at inductionHypothesis ⊢
      rw [List.foldl_append, List.foldl_cons, List.foldl_nil]
      split
      next seq read =>
        split_ifs
        · exact scanned last seq read
        · exact inductionHypothesis
      next => exact inductionHypothesis

/-! ### The bytes a chunk identifier denotes -/

/-- Byte `i` of a stored object. -/
def objectByte (objects : Objects) (id : Key) (i : Nat) : Option UInt8 :=
  (objects.get id).bind fun object => object[i]?

/-- The extent lies within the bytes of the object it names. -/
def InObject (objects : Objects) (e : Extent) : Prop :=
  0 ≤ e.chunkOffset ∧ 0 ≤ e.length ∧
    ∃ object ∈ objects.get e.chunkID, e.chunkOffset + e.length ≤ object.length

instance (objects : Objects) (e : Extent) : Decidable (InObject objects e) := by
  unfold InObject
  infer_instance

/-- Objects that only grow keep what lies within them. -/
theorem InObject.grows {objects objects' : Objects} {e : Extent} (inside : InObject objects e)
    (grows : ∀ object, objects.get e.chunkID = some object →
      ∃ longer, objects'.get e.chunkID = some longer ∧ object <+: longer) :
    InObject objects' e := by
  obtain ⟨low, nonneg, object, stored, high⟩ := inside
  obtain ⟨longer, found, isPart⟩ := grows object stored
  have := isPart.length_le
  exact ⟨low, nonneg, longer, found, by omega⟩

/-- Byte `i` of a chunk, as a read sees it: the active chunk is the buffer, any
other is its object. -/
def ChunkStore.byteOf (objects : Objects) (cs : ChunkStore) (id : Key) (i : Nat) : Option UInt8 :=
  if id = cs.activeID then cs.activeBuf[i]? else objectByte objects id i

/-- Bytes that can be read stay readable and unchanged. -/
def Grows (before after : Key → Nat → Option UInt8) : Prop :=
  ∀ id i value, before id i = some value → after id i = some value

theorem Grows.refl (bytes : Key → Nat → Option UInt8) : Grows bytes bytes := fun _ _ _ => id

theorem Grows.trans {first second third : Key → Nat → Option UInt8} (one : Grows first second)
    (two : Grows second third) : Grows first third :=
  fun id i value readable => two id i value (one id i value readable)

theorem getElem?_extend {short long : Bytes} (isPrefix : short <+: long) {i : Nat} {value : UInt8}
    (found : short[i]? = some value) : long[i]? = some value := by
  obtain ⟨rest, rfl⟩ := isPrefix
  rw [List.getElem?_append_left (List.getElem?_eq_some_iff.mp found).1]
  exact found

/-- What the chunk store keeps about its active chunk and its store: IDs that
are yet to be minted have no object, and the object of the active chunk is a
prefix of the buffer. -/
structure ChunkStore.Consistent (objects : Objects) (cs : ChunkStore) : Prop where
  active : ∃ seq, cs.nextSeq = seq + 1 ∧ cs.activeID = chunkID seq
  fresh : ∀ seq, cs.nextSeq ≤ seq → objects.get (chunkID seq) = none
  stored : ∀ object, objects.get cs.activeID = some object → object <+: cs.activeBuf

/-- What the cache holds of a chunk is a prefix of its object. -/
def ChunkStore.Coherent (objects : Objects) (cs : ChunkStore) : Prop :=
  ∀ files, cs.cache = some files → ∀ id file, files.get id = some file →
    ∃ object, objects.get id = some object ∧ file <+: object

namespace ChunkStore

variable {objects : Objects} {cs : ChunkStore}

theorem byteOf_active (objects : Objects) (cs : ChunkStore) (i : Nat) :
    byteOf objects cs cs.activeID i = cs.activeBuf[i]? := if_pos rfl

theorem byteOf_of_ne {id : Key} (inactive : id ≠ cs.activeID) {i : Nat} :
    byteOf objects cs id i = objectByte objects id i := if_neg inactive

theorem Consistent.activeID_ne (consistent : Consistent objects cs) {seq : Nat}
    (later : cs.nextSeq ≤ seq) : cs.activeID ≠ chunkID seq := by
  obtain ⟨current, next, active⟩ := consistent.active
  rw [active]
  intro same
  have := chunkID_injective same
  omega

theorem Consistent.activeID_ne_indexKey (consistent : Consistent objects cs) :
    cs.activeID ≠ indexKey := by
  obtain ⟨current, -, active⟩ := consistent.active
  rw [active]
  exact chunkID_ne_indexKey current

/-- Chunks may be deleted, and nothing is kept about the other objects. -/
theorem Consistent.of_objects (consistent : Consistent objects cs) {objects' : Objects}
    (smaller : ∀ seq object, objects'.get (chunkID seq) = some object →
      objects.get (chunkID seq) = some object) : Consistent objects' cs where
  active := consistent.active
  fresh := by
    intro seq later
    rw [Option.eq_none_iff_forall_ne_some]
    intro object stored
    have := smaller seq object stored
    rw [consistent.fresh seq later] at this
    cases this
  stored := by
    obtain ⟨seq, -, active⟩ := consistent.active
    intro object stored
    rw [active] at stored
    refine consistent.stored object ?_
    rw [active]
    exact smaller seq object stored

theorem new_consistent (maxChunkSize : Int) : Consistent ∅ (new maxChunkSize) where
  active := ⟨0, rfl, rfl⟩
  fresh := fun _ _ => GoMap.get_empty _
  stored := fun _ stored => by cases stored

/-- An object of the active chunk reads as the buffer does. -/
theorem Consistent.objectByte_grows (consistent : Consistent objects cs) :
    Grows (objectByte objects) (byteOf objects cs) := by
  intro id i value found
  unfold byteOf
  split_ifs with isActive
  · subst isActive
    obtain ⟨object, stored, byte⟩ := Option.bind_eq_some_iff.mp found
    exact getElem?_extend (consistent.stored object stored) byte
  · exact found

/-! ### What the methods do, move by move -/

/-- The moves that the methods are made of, over a key-to-bytes store; `seals`
tells whether `Seal` itself may be called. -/
inductive Move (seals : Bool) : Objects × ChunkStore → Objects × ChunkStore → Prop where
  /-- The buffer is put under the active ID. -/
  | put (objects : Objects) (cs : ChunkStore) (dirty : Bool) :
      Move seals (objects, cs)
        (objects.set cs.activeID cs.activeBuf, { cs with activeDirty := dirty })
  /-- `Seal` of an empty chunk only changes its ID. -/
  | rotateEmpty (objects : Objects) (cs : ChunkStore) (allowed : seals = true)
      (empty : cs.activeBuf = []) : Move seals (objects, cs) (objects, cs.rotate)
  /-- A chunk whose object is the buffer is left behind, cached or not. -/
  | rotateStored (objects : Objects) (cs : ChunkStore) (cached : Bool)
      (stored : objects.get cs.activeID = some cs.activeBuf) :
      Move seals (objects, cs) (objects, cs.startNext cached)
  /-- Data is added to the buffer. -/
  | push (objects : Objects) (cs : ChunkStore) (data : Bytes) (fileOffset : Int) :
      Move seals (objects, cs) (objects, (cs.push data fileOffset).1)
  /-- A fetched object is cached. -/
  | recache (objects : Objects) (cs : ChunkStore) {files : Objects}
      (enabled : cs.cache = some files)
      {id : Key} {object : Bytes} (stored : objects.get id = some object) :
      Move seals (objects, cs) (objects, { cs with cache := some (files.set id object) })

/-- Any number of moves. -/
abbrev Moves (seals : Bool) := Relation.ReflTransGen (Move seals)

/-- Moves that do without `Seal` are moves where it is allowed. -/
theorem Moves.allowing {before after : Objects × ChunkStore} (moves : Moves false before after) :
    Moves true before after := by
  refine Relation.ReflTransGen.mono (fun _ _ move => ?_) _ _ moves
  cases move with
  | put objects cs dirty => exact .put objects cs dirty
  | rotateEmpty objects cs allowed empty => cases allowed
  | rotateStored objects cs cached stored => exact .rotateStored objects cs cached stored
  | push objects cs data fileOffset => exact .push objects cs data fileOffset
  | recache objects cs enabled stored => exact .recache objects cs enabled stored

/-- Sealing a chunk that holds something puts it and leaves it behind. -/
theorem sealActive_moves (seals : Bool) (outcome : StoreOutcome) (cached : Bool)
    (objects : Objects) (cs : ChunkStore) (allowed : cs.activeBuf = [] → seals = true) :
    Moves seals (objects, cs) ((sealActive mapStore outcome cached objects cs).1,
      (sealActive mapStore outcome cached objects cs).2.1) := by
  unfold sealActive
  split_ifs with empty
  · exact .single (.rotateEmpty objects cs (allowed empty) empty)
  · have putting : Move seals (objects, cs) (objects.set cs.activeID cs.activeBuf, cs) :=
      .put objects cs cs.activeDirty
    cases outcome with
    | failedOld => exact .refl
    | failedNew => exact .single putting
    | ok =>
        exact (Relation.ReflTransGen.single putting).tail
          (.rotateStored (objects.set cs.activeID cs.activeBuf) cs cached
            (GoMap.get_set_self _ _ _))

theorem append_moves (outcome : StoreOutcome) (cached : Bool) (objects : Objects)
    (cs : ChunkStore) (data : Bytes) (fileOffset : Int) :
    Moves false (objects, cs) ((append mapStore outcome cached objects cs data fileOffset).1,
      (append mapStore outcome cached objects cs data fileOffset).2.1) := by
  unfold append
  split_ifs with large overflow
  · exact .refl
  · -- An empty buffer has room for whatever is not too large.
    have nonempty : cs.activeBuf = [] → false = true := by
      intro empty
      rw [empty, List.length_nil] at overflow
      exact absurd overflow (by omega)
    have sealing := sealActive_moves false outcome cached objects cs nonempty
    generalize sealActive mapStore outcome cached objects cs = answer at sealing
    obtain ⟨objects', cs', failure | done⟩ := answer
    · exact sealing
    · exact sealing.tail (.push objects' cs' data fileOffset)
  · exact .single (.push objects cs data fileOffset)

theorem flushActive_moves (outcome : StoreOutcome) (objects : Objects) (cs : ChunkStore) :
    Moves false (objects, cs) ((flushActive mapStore outcome objects cs).1,
      (flushActive mapStore outcome objects cs).2.1) := by
  unfold flushActive
  split_ifs with clean
  · exact .refl
  · cases outcome with
    | failedOld => exact .refl
    | failedNew => exact .single (.put objects cs cs.activeDirty)
    | ok => exact .single (.put objects cs false)

/-- The extent that `Append` returns: the last bytes of the new buffer, within
the size limit of a chunk. -/
theorem append_extent {outcome : StoreOutcome} {cached : Bool} {objects objects' : Objects}
    {cs cs' : ChunkStore} {data : Bytes} {fileOffset : Int} {ext : Extent}
    (appended : append mapStore outcome cached objects cs data fileOffset =
      (objects', cs', .ok ext)) :
    ∃ start : Bytes, cs'.activeBuf = start ++ data ∧ cs'.activeDirty = true ∧
      ext = ⟨cs'.activeID, start.length, data.length, fileOffset⟩ ∧
      (start.length : Int) + data.length ≤ cs.maxChunkSize := by
  unfold append at appended
  split_ifs at appended with large overflow
  · cases congrArg (fun answer => answer.2.2) appended
  · have emptied : ∀ objects₁ cs₁, sealActive mapStore outcome cached objects cs =
        (objects₁, cs₁, .ok ()) → cs₁.activeBuf = [] := by
      intro objects₁ cs₁ sealed
      unfold sealActive at sealed
      split_ifs at sealed with empty
      · cases sealed
        exact empty
      · cases outcome <;> cases sealed
        rfl
    generalize sealed : sealActive mapStore outcome cached objects cs = answer at appended
    obtain ⟨objects₁, cs₁, failure | done⟩ := answer
    · cases congrArg (fun answer => answer.2.2) appended
    · have empty := emptied objects₁ cs₁ sealed
      cases appended
      exact ⟨cs₁.activeBuf, rfl, rfl, rfl, by
        rw [empty]
        simpa using large⟩
  · cases appended
    exact ⟨cs.activeBuf, rfl, rfl, rfl, by omega⟩

/-- The chunk that `Append` appends to: the active one when the data fits, else
the next one. -/
theorem append_chunk {outcome : StoreOutcome} {cached : Bool} {objects objects' : Objects}
    {cs cs' : ChunkStore} {data : Bytes} {fileOffset : Int} {ext : Extent}
    (appended : append mapStore outcome cached objects cs data fileOffset =
      (objects', cs', .ok ext)) :
    (ext.chunkID = cs.activeID ∧ ext.chunkOffset = cs.activeBuf.length ∧
        (cs.activeBuf.length : Int) + data.length ≤ cs.maxChunkSize) ∨
      ext.chunkID = chunkID cs.nextSeq := by
  unfold append at appended
  split_ifs at appended with large overflow
  · cases congrArg (fun answer => answer.2.2) appended
  · have next : ∀ objects₁ cs₁, sealActive mapStore outcome cached objects cs =
        (objects₁, cs₁, .ok ()) → cs₁.activeID = chunkID cs.nextSeq := by
      intro objects₁ cs₁ sealed
      unfold sealActive at sealed
      split_ifs at sealed
      · cases sealed
        rfl
      · cases outcome <;> cases sealed
        rfl
    generalize sealed : sealActive mapStore outcome cached objects cs = answer at appended
    obtain ⟨objects₁, cs₁, failure | done⟩ := answer
    · cases congrArg (fun answer => answer.2.2) appended
    · have active := next objects₁ cs₁ sealed
      cases appended
      exact Or.inr active
  · cases appended
    exact Or.inl ⟨rfl, rfl, by omega⟩

/-! ### What moves keep -/

theorem Move.consistent {before after : Objects × ChunkStore} {seals : Bool}
    (move : Move seals before after)
    (consistent : Consistent before.1 before.2) : Consistent after.1 after.2 := by
  cases move with
  | put objects cs dirty =>
      refine ⟨consistent.active, ?_, ?_⟩
      · intro seq later
        rw [GoMap.get_set_ne _ _ (consistent.activeID_ne later).symm]
        exact consistent.fresh seq later
      · intro object stored
        cases (GoMap.get_set_self objects cs.activeID cs.activeBuf).symm.trans stored
        exact List.prefix_refl _
  | rotateEmpty objects cs _ empty =>
      refine ⟨⟨cs.nextSeq, rfl, rfl⟩, ?_, ?_⟩
      · intro seq later
        exact consistent.fresh seq (Nat.le_of_succ_le later)
      · intro object stored
        cases (consistent.fresh cs.nextSeq le_rfl).symm.trans stored
  | rotateStored objects cs cached stored =>
      refine ⟨⟨cs.nextSeq, rfl, rfl⟩, ?_, ?_⟩
      · intro seq later
        exact consistent.fresh seq (Nat.le_of_succ_le later)
      · intro object found
        cases (consistent.fresh cs.nextSeq le_rfl).symm.trans found
  | push objects cs data fileOffset =>
      refine ⟨consistent.active, consistent.fresh, ?_⟩
      intro object stored
      exact (consistent.stored object stored).trans (List.prefix_append _ _)
  | recache objects cs enabled stored =>
      exact ⟨consistent.active, consistent.fresh, consistent.stored⟩

theorem Move.byteOf_grows {before after : Objects × ChunkStore} {seals : Bool}
    (move : Move seals before after)
    (consistent : Consistent before.1 before.2) :
    Grows (byteOf before.1 before.2) (byteOf after.1 after.2) := by
  intro id i value found
  -- A byte that can be read does not lie in a chunk yet to be minted.
  have notNext : id ≠ chunkID before.2.nextSeq := by
    rintro rfl
    rw [byteOf_of_ne (consistent.activeID_ne le_rfl).symm, objectByte,
      consistent.fresh _ le_rfl] at found
    cases found
  by_cases isActive : id = before.2.activeID
  · subst isActive
    rw [byteOf_active] at found
    cases move with
    | put objects cs dirty => exact (byteOf_active _ _ _).trans found
    | rotateEmpty objects cs _ empty => simp [empty] at found
    | rotateStored objects cs cached stored =>
        rw [byteOf_of_ne notNext, objectByte, stored]
        exact found
    | push objects cs data fileOffset =>
        exact (byteOf_active _ _ _).trans (getElem?_extend (List.prefix_append _ _) found)
    | recache objects cs enabled stored => exact (byteOf_active _ _ _).trans found
  · rw [byteOf_of_ne isActive] at found
    cases move with
    | put objects cs dirty =>
        refine (byteOf_of_ne ?_).trans ?_
        · exact isActive
        · rw [objectByte, GoMap.get_set_ne _ _ isActive]
          exact found
    | rotateEmpty objects cs _ empty => exact (byteOf_of_ne notNext).trans found
    | rotateStored objects cs cached stored => exact (byteOf_of_ne notNext).trans found
    | push objects cs data fileOffset =>
        refine (byteOf_of_ne ?_).trans found
        exact isActive
    | recache objects cs enabled stored =>
        refine (byteOf_of_ne ?_).trans found
        exact isActive

/-- A move changes no object but that of the active chunk, which it only
extends. -/
theorem Move.object_grows {before after : Objects × ChunkStore} {seals : Bool}
    (move : Move seals before after)
    (consistent : Consistent before.1 before.2) {id : Key} {object : Bytes}
    (stored : before.1.get id = some object) :
    ∃ longer, after.1.get id = some longer ∧ object <+: longer := by
  cases move with
  | put objects cs dirty =>
      by_cases isActive : id = cs.activeID
      · subst isActive
        exact ⟨cs.activeBuf, GoMap.get_set_self _ _ _, consistent.stored object stored⟩
      · exact ⟨object, (GoMap.get_set_ne _ _ isActive).trans stored, List.prefix_refl _⟩
  | rotateEmpty objects cs _ empty => exact ⟨object, stored, List.prefix_refl _⟩
  | rotateStored objects cs cached found => exact ⟨object, stored, List.prefix_refl _⟩
  | push objects cs data fileOffset => exact ⟨object, stored, List.prefix_refl _⟩
  | recache objects cs enabled found => exact ⟨object, stored, List.prefix_refl _⟩

/-- The ID is neither the active one nor one that is yet to be minted. -/
def Frozen (cs : ChunkStore) (id : Key) : Prop := ∀ seq, cs.nextSeq ≤ seq + 1 → id ≠ chunkID seq

theorem Frozen.of_notChunk {id : Key} (notChunk : ∀ seq, id ≠ chunkID seq) : Frozen cs id :=
  fun seq _ => notChunk seq

theorem Frozen.ne_activeID {id : Key} (frozen : Frozen cs id) (consistent : Consistent objects cs) :
    id ≠ cs.activeID := by
  obtain ⟨seq, next, active⟩ := consistent.active
  rw [active]
  exact frozen seq (by omega)

/-- A minted chunk that is no longer active is frozen. -/
theorem Consistent.frozen (consistent : Consistent objects cs) {seq : Nat}
    (minted : seq < cs.nextSeq) (inactive : chunkID seq ≠ cs.activeID) :
    Frozen cs (chunkID seq) := by
  intro other later same
  obtain ⟨current, next, active⟩ := consistent.active
  have isCurrent : seq = current := by
    have := chunkID_injective same
    omega
  exact inactive (by rw [active, isCurrent])

/-- A move touches no object of a frozen ID. -/
theorem Move.object_frozen {before after : Objects × ChunkStore} {seals : Bool}
    (move : Move seals before after) (consistent : Consistent before.1 before.2) {id : Key}
    (frozen : Frozen before.2 id) : after.1.get id = before.1.get id := by
  cases move with
  | put objects cs dirty => exact GoMap.get_set_ne _ _ (frozen.ne_activeID consistent)
  | rotateEmpty objects cs _ empty => rfl
  | rotateStored objects cs cached stored => rfl
  | push objects cs data fileOffset => rfl
  | recache objects cs enabled stored => rfl

theorem Coherent.recache (coherent : Coherent objects cs) {files : Objects}
    (enabled : cs.cache = some files) {id : Key} {object : Bytes}
    (stored : objects.get id = some object) :
    Coherent objects { cs with cache := some (files.set id object) } := by
  intro files' enabled' other file found
  cases enabled'
  rw [GoMap.get_set] at found
  split_ifs at found with isCached
  · cases found
    subst isCached
    exact ⟨object, stored, List.prefix_refl _⟩
  · exact coherent files enabled other file found

theorem Move.coherent {before after : Objects × ChunkStore} {seals : Bool}
    (move : Move seals before after)
    (consistent : Consistent before.1 before.2) (coherent : Coherent before.1 before.2) :
    Coherent after.1 after.2 := by
  intro files enabled id file found
  have old : ∀ files, before.2.cache = some files → files.get id = some file →
      ∃ object, after.1.get id = some object ∧ file <+: object := by
    intro files enabled found
    obtain ⟨object, stored, isPart⟩ := coherent files enabled id file found
    obtain ⟨longer, kept, grown⟩ := move.object_grows consistent stored
    exact ⟨longer, kept, isPart.trans grown⟩
  cases move with
  | put objects cs dirty => exact old files enabled found
  | rotateEmpty objects cs _ empty => exact old files enabled found
  | push objects cs data fileOffset => exact old files enabled found
  | rotateStored objects cs cached complete =>
      cases cached with
      | false => exact old files enabled found
      | true =>
          obtain ⟨previous, wasEnabled, rfl⟩ := Option.map_eq_some_iff.mp enabled
          rw [GoMap.get_set] at found
          split_ifs at found with isActive
          · cases found
            subst isActive
            exact ⟨cs.activeBuf, complete, List.prefix_refl _⟩
          · exact old previous wasEnabled found
  | recache objects cs wasEnabled stored =>
      exact coherent.recache wasEnabled stored files enabled id file found

theorem Move.maxChunkSize {before after : Objects × ChunkStore} {seals : Bool}
    (move : Move seals before after) :
    after.2.maxChunkSize = before.2.maxChunkSize := by
  cases move <;> rfl

theorem Move.nextSeq_le {before after : Objects × ChunkStore} {seals : Bool}
    (move : Move seals before after) : before.2.nextSeq ≤ after.2.nextSeq := by
  cases move with
  | put objects cs dirty => exact le_rfl
  | rotateEmpty objects cs _ empty => exact Nat.le_succ _
  | rotateStored objects cs cached stored => exact Nat.le_succ _
  | push objects cs data fileOffset => exact le_rfl
  | recache objects cs enabled stored => exact le_rfl

/-- What any number of moves keeps. -/
structure Kept (before after : Objects × ChunkStore) : Prop where
  consistent : Consistent after.1 after.2
  grows : Grows (byteOf before.1 before.2) (byteOf after.1 after.2)
  objects : ∀ id object, before.1.get id = some object →
    ∃ longer, after.1.get id = some longer ∧ object <+: longer
  frozen : ∀ id, Frozen before.2 id → Frozen after.2 id ∧ after.1.get id = before.1.get id
  coherent : Coherent before.1 before.2 → Coherent after.1 after.2
  maxChunkSize : after.2.maxChunkSize = before.2.maxChunkSize
  nextSeq : before.2.nextSeq ≤ after.2.nextSeq

theorem Moves.kept {before after : Objects × ChunkStore} {seals : Bool}
    (moves : Moves seals before after)
    (consistent : Consistent before.1 before.2) : Kept before after := by
  induction moves with
  | refl =>
      exact ⟨consistent, Grows.refl _, fun _ object stored => ⟨object, stored, List.prefix_refl _⟩,
        fun _ frozen => ⟨frozen, rfl⟩, id, rfl, le_rfl⟩
  | tail _ move inductionHypothesis =>
      obtain ⟨middle, grows, objects, frozen, coherent, same, below⟩ := inductionHypothesis
      refine ⟨move.consistent middle, grows.trans (move.byteOf_grows middle), ?_, ?_,
        fun start => move.coherent middle (coherent start), move.maxChunkSize.trans same,
        below.trans move.nextSeq_le⟩
      · intro id object stored
        obtain ⟨long, found, first⟩ := objects id object stored
        obtain ⟨longer, last, second⟩ := move.object_grows middle found
        exact ⟨longer, last, first.trans second⟩
      · intro id before
        obtain ⟨still, unchanged⟩ := frozen id before
        exact ⟨fun seq later => still seq (move.nextSeq_le.trans later),
          (move.object_frozen middle still).trans unchanged⟩

/-- No method touches an object that is not a chunk. -/
theorem Kept.others {before after : Objects × ChunkStore} (kept : Kept before after) {key : Key}
    (notChunk : ∀ seq, key ≠ chunkID seq) : after.1.get key = before.1.get key :=
  (kept.frozen key (.of_notChunk notChunk)).2

/-! ### Stored or waiting -/

/-- The bytes of the extent are stored, or wait in the dirty buffer for the next
put. -/
def Backed (objects : Objects) (cs : ChunkStore) (e : Extent) : Prop :=
  InObject objects e ∨ e.chunkID = cs.activeID ∧ cs.activeDirty = true ∧ 0 ≤ e.chunkOffset ∧
    0 ≤ e.length ∧ e.chunkOffset + e.length ≤ cs.activeBuf.length

/-- Once nothing is dirty everything is stored. -/
theorem Backed.inObject {e : Extent} (backed : Backed objects cs e)
    (clean : cs.activeDirty = false) : InObject objects e := by
  rcases backed with inside | ⟨-, dirty, -⟩
  · exact inside
  · rw [clean] at dirty
    cases dirty

/-- A move loses no bytes, unless a `Seal` leaves an empty extent of an empty
chunk behind. -/
theorem Move.backed {before after : Objects × ChunkStore} {seals : Bool}
    (move : Move seals before after) (consistent : Consistent before.1 before.2) {e : Extent}
    (allowed : seals = true → 0 < e.length) (backed : Backed before.1 before.2 e) :
    Backed after.1 after.2 e := by
  rcases backed with inside | ⟨active, dirty, low, nonneg, high⟩
  · exact Or.inl (inside.grows fun object stored => move.object_grows consistent stored)
  · cases move with
    | put objects cs _ =>
        refine Or.inl ⟨low, nonneg, cs.activeBuf, ?_, high⟩
        rw [active]
        exact GoMap.get_set_self _ _ _
    | rotateEmpty objects cs isSeal empty =>
        have positive := allowed isSeal
        rw [empty] at high
        exact absurd high (by rw [List.length_nil]; omega)
    | rotateStored objects cs cached stored =>
        refine Or.inl ⟨low, nonneg, cs.activeBuf, ?_, high⟩
        rw [active]
        exact stored
    | push objects cs data fileOffset =>
        refine Or.inr ⟨active, rfl, low, nonneg, Int.le_trans high ?_⟩
        change (cs.activeBuf.length : Int) ≤ (cs.activeBuf ++ data).length
        rw [List.length_append]
        omega
    | recache objects cs enabled stored => exact Or.inr ⟨active, dirty, low, nonneg, high⟩

theorem Moves.backed {before after : Objects × ChunkStore} {seals : Bool}
    (moves : Moves seals before after) (consistent : Consistent before.1 before.2) {e : Extent}
    (allowed : seals = true → 0 < e.length) (backed : Backed before.1 before.2 e) :
    Backed after.1 after.2 e := by
  induction moves with
  | refl => exact backed
  | tail earlier move inductionHypothesis =>
      exact move.backed (Moves.kept earlier consistent).consistent allowed inductionHypothesis

/-! ### Reading -/

theorem getElem?_of_sliceBytes {bytes data : Bytes} {low high : Int}
    (sliced : sliceBytes bytes low high = some data) :
    (data.length : Int) = high - low ∧ ∀ i : Nat, (i : Int) < high - low →
      data[i]? = bytes[low.toNat + i]? := by
  unfold sliceBytes at sliced
  split_ifs at sliced with range
  cases sliced
  refine ⟨?_, fun i below => ?_⟩
  · rw [List.length_take, List.length_drop]
    omega
  · rw [List.getElem?_take, if_pos (by omega), List.getElem?_drop]

theorem fetchFullChunk_mapStore (objects : Objects) (id : Key) :
    fetchFullChunk mapStore objects id =
      match objects.get id with
      | none => .error (.missSize id)
      | some object => .ok object := by
  unfold fetchFullChunk
  cases stored : objects.get id with
  | none => simp [stored]
  | some object => simp [stored, readAt]

/-- Without spare capacity a range is cut out of the chunk. -/
theorem readRange_mapStore (written : Bool) (objects files : Objects) (id : Key)
    (offset length : Int) :
    readRange mapStore written objects files id offset length =
      match (files.get id).bind fun file => readAt file offset length with
      | some data => (files, .ok data)
      | none =>
          match fetchFullChunk mapStore objects id with
          | .error failure => (files, .error (.error failure))
          | .ok data =>
              if written then
                (files.set id data,
                  match sliceBytes data offset (wrap64 (offset + length)) with
                  | some range => .ok range
                  | none => .error .panic)
              else (files, .error (.error (.cacheWrite id))) := by
  simp only [readRange, mapStore_spare, List.append_nil]

-- Two bytes of capacity behind a fetched chunk serve a range that ends past the chunk.
example : (readRange { mapStore with spare := fun _ => [0, 0] } true
    (GoMap.set ∅ (chunkID 0) [7, 8]) ∅ (chunkID 0) 1 3).2 = .ok [8, 0, 0] := by decide +kernel

/-- What a successful read takes its bytes from: the buffer of the active chunk,
the object of another one, or a cached file. -/
def Source (objects : Objects) (cs : ChunkStore) (id : Key) (bytes : Bytes) : Prop :=
  (id = cs.activeID ∧ bytes = cs.activeBuf) ∨
    id ≠ cs.activeID ∧ (objects.get id = some bytes ∨
      ∃ files, cs.cache = some files ∧ files.get id = some bytes)

/-- A successful read returns the requested range of its source. -/
theorem read_source {written : Bool} {id : Key} {offset length : Int} {data : Bytes}
    (plain : wrap64 (offset + length) = offset + length)
    (answer : (read mapStore written objects cs id offset length).2 = .ok data) :
    ∃ bytes, Source objects cs id bytes ∧ (data.length : Int) = length ∧
      ∀ i : Nat, (i : Int) < length → data[i]? = bytes[offset.toNat + i]? := by
  have ofSlice : ∀ bytes, sliceBytes bytes offset (offset + length) = some data →
      (data.length : Int) = length ∧ ∀ i : Nat, (i : Int) < length →
        data[i]? = bytes[offset.toNat + i]? := by
    intro bytes sliced
    have range : offset + length - offset = length := by omega
    simpa only [range] using getElem?_of_sliceBytes sliced
  by_cases isActive : id = cs.activeID
  · simp only [read, if_pos isActive, plain] at answer
    split_ifs at answer
    split at answer
    next range sliced =>
      cases answer
      exact ⟨cs.activeBuf, Or.inl ⟨isActive, rfl⟩, ofSlice _ sliced⟩
    next => cases answer
  · simp only [read, if_neg isActive] at answer
    cases enabled : cs.cache with
    | none =>
        simp only [enabled, mapStore_getRange] at answer
        split at answer
        next range found =>
          cases answer
          obtain ⟨object, stored, taken⟩ := Option.bind_eq_some_iff.mp found
          exact ⟨object, Or.inr ⟨isActive, Or.inl stored⟩, length_of_readAt taken,
            fun i below => getElem?_of_readAt taken below⟩
        next => cases answer
    | some files =>
        simp only [enabled, readRange_mapStore, fetchFullChunk_mapStore, plain] at answer
        split at answer
        next range found =>
          cases answer
          obtain ⟨file, cachedFile, taken⟩ := Option.bind_eq_some_iff.mp found
          exact ⟨file, Or.inr ⟨isActive, Or.inr ⟨files, enabled, cachedFile⟩⟩,
            length_of_readAt taken,
            fun i below => getElem?_of_readAt taken below⟩
        next =>
          cases stored : objects.get id with
          | none =>
              rw [stored] at answer
              cases answer
          | some object =>
              rw [stored] at answer
              dsimp only at answer
              split_ifs at answer
              dsimp only at answer
              split at answer
              next range sliced =>
                cases answer
                exact ⟨object, Or.inr ⟨isActive, Or.inl stored⟩, ofSlice object sliced⟩
              next => cases answer

/-- What a successful read returns, cache or not. -/
theorem read_ok {written : Bool} {id : Key} {offset length : Int} {data : Bytes}
    (coherent : Coherent objects cs) (plain : wrap64 (offset + length) = offset + length)
    (answer : (read mapStore written objects cs id offset length).2 = .ok data) :
    (data.length : Int) = length ∧ ∀ i : Nat, (i : Int) < length →
      data[i]? = byteOf objects cs id (offset.toNat + i) := by
  obtain ⟨bytes, source, full, ranged⟩ := read_source plain answer
  refine ⟨full, fun i below => ?_⟩
  rcases source with ⟨rfl, rfl⟩ | ⟨inactive, stored | ⟨files, enabled, cached⟩⟩
  · rw [byteOf_active]
    exact ranged i below
  · rw [byteOf_of_ne inactive, objectByte, stored]
    exact ranged i below
  · obtain ⟨object, stored, isPart⟩ := coherent files enabled id bytes cached
    have there : i < data.length := by omega
    have byte := ranged i below
    rw [List.getElem?_eq_getElem there] at byte ⊢
    rw [byteOf_of_ne inactive, objectByte, stored]
    exact (getElem?_extend isPart byte.symm).symm

/-- A read changes nothing, or caches the object of an inactive chunk. -/
theorem read_cases (written : Bool) (objects : Objects) (cs : ChunkStore) (id : Key)
    (offset length : Int) :
    (read mapStore written objects cs id offset length).1 = cs ∨
      ∃ files object, cs.cache = some files ∧ id ≠ cs.activeID ∧ objects.get id = some object ∧
        (read mapStore written objects cs id offset length).1 =
          { cs with cache := some (files.set id object) } := by
  by_cases isActive : id = cs.activeID
  · simp [read, isActive]
  cases enabled : cs.cache with
  | none => simp [read, isActive, enabled]
  | some files =>
      have unchanged : { cs with cache := some files } = cs := by rw [← enabled]
      simp only [read, if_neg isActive, enabled, readRange]
      split
      · exact Or.inl unchanged
      · cases stored : objects.get id with
        | none =>
            simp only [fetchFullChunk_mapStore, stored]
            exact Or.inl unchanged
        | some object =>
            simp only [fetchFullChunk_mapStore, stored]
            cases written with
            | false => exact Or.inl unchanged
            | true => exact Or.inr ⟨files, object, rfl, isActive, rfl, rfl⟩

theorem read_moves (written : Bool) (objects : Objects) (cs : ChunkStore) (id : Key)
    (offset length : Int) :
    Moves false (objects, cs) (objects, (read mapStore written objects cs id offset length).1) := by
  rcases read_cases written objects cs id offset length with
    same | ⟨files, object, enabled, -, stored, same⟩
  · rw [same]
  · rw [same]
    exact .single (.recache objects cs enabled stored)

/-- A read leaves the cache coherent. -/
theorem read_coherent (written : Bool) (id : Key) (offset length : Int)
    (coherent : Coherent objects cs) :
    Coherent objects (read mapStore written objects cs id offset length).1 := by
  rcases read_cases written objects cs id offset length with
    same | ⟨files, object, enabled, -, stored, same⟩
  · rw [same]
    exact coherent
  · rw [same]
    exact coherent.recache enabled stored

/-- A read changes no field but the cache. -/
theorem read_cache_only (written : Bool) (objects : Objects) (cs : ChunkStore) (id : Key)
    (offset length : Int) :
    ∃ cache, (read mapStore written objects cs id offset length).1 =
      { cs with cache := cache } := by
  rcases read_cases written objects cs id offset length with same | ⟨files, object, -, -, -, same⟩
  · exact ⟨cs.cache, same⟩
  · exact ⟨_, same⟩

theorem Consistent.with_cache (consistent : Consistent objects cs) (cache : Option Objects) :
    Consistent objects { cs with cache := cache } :=
  ⟨consistent.active, consistent.fresh, consistent.stored⟩

end ChunkStore

end Fusey
