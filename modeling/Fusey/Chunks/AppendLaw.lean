import Fusey.Chunks.ChunkStore

/-!
Contract: what the chunk store promises about the extents it hands out, over
whole runs of its methods.

Owns:
- runs of `Append`, `Seal`, `FlushActive` and `Read` over a key-to-bytes store
  whose puts may fail, with the data every extent was returned for;
- the append and read law: each extent reads as its data from then on, extents
  do not overlap, the buffer stays within its limit, a chunk left behind does
  not change, and a failed `Append` is not noticed by any reader.

The law needs one thing of the callers: `Seal` of an empty buffer leaves no
object behind, so it must not follow an `Append` of no bytes at the start of the
active chunk. File operations of the cache succeed at read time.
-/

set_option autoImplicit false

namespace Fusey

open GoInt

namespace ChunkStore

/-! ### Calls and runs -/

/-- One method call, with the outcome of its put and of its cache write. -/
inductive MethodCall where
  | append (data : Bytes) (fileOffset : Int) (outcome : StoreOutcome) (cached : Bool)
  | sealing (outcome : StoreOutcome) (cached : Bool)
  | flush (outcome : StoreOutcome)
  | read (id : Key) (offset length : Int)
deriving DecidableEq, Repr

/-- An extent that `Append` returned, with the data it was given. -/
structure Handed where
  data : Bytes
  ext : Extent
deriving DecidableEq, Repr

/-- The store, the chunk store and what it has handed out, the latest first. -/
structure History where
  objects : Objects
  cs : ChunkStore
  handed : List Handed
deriving DecidableEq

/-- What one call does. -/
def MethodCall.run (h : History) : MethodCall → History
  | .append data fileOffset outcome cached =>
      match ChunkStore.append mapStore outcome cached h.objects h.cs data fileOffset with
      | (objects, cs, .ok ext) => ⟨objects, cs, ⟨data, ext⟩ :: h.handed⟩
      | (objects, cs, .error _) => ⟨objects, cs, h.handed⟩
  | .sealing outcome cached =>
      let answer := sealActive mapStore outcome cached h.objects h.cs
      ⟨answer.1, answer.2.1, h.handed⟩
  | .flush outcome =>
      let answer := flushActive mapStore outcome h.objects h.cs
      ⟨answer.1, answer.2.1, h.handed⟩
  | .read id offset length =>
      ⟨h.objects, (ChunkStore.read mapStore true h.objects h.cs id offset length).1, h.handed⟩

/-- A `Seal` that finds nothing to put does not abandon an extent: the active
chunk has an object, or no extent of it was handed out. -/
def MethodCall.Spares (h : History) : MethodCall → Prop
  | .sealing _ _ => h.cs.activeBuf = [] → h.objects.get h.cs.activeID = none →
      ∀ given ∈ h.handed, given.ext.chunkID ≠ h.cs.activeID
  | _ => True

instance (h : History) : ∀ call : MethodCall, Decidable (call.Spares h)
  | .append _ _ _ _ => isTrue trivial
  | .sealing _ _ => inferInstanceAs (Decidable (_ → _))
  | .flush _ => isTrue trivial
  | .read _ _ _ => isTrue trivial

/-- Runs of calls that spare every extent. -/
inductive Runs : History → History → Prop where
  | refl (h : History) : Runs h h
  | tail {first middle : History} (earlier : Runs first middle) (call : MethodCall)
      (spares : call.Spares middle) : Runs first (call.run middle)

/-- A run of calls, executed; `none` if one of them abandons an extent. -/
def History.runAll (h : History) : List MethodCall → Option History
  | [] => some h
  | call :: rest => if call.Spares h then (call.run h).runAll rest else none

theorem Runs.of_runAll {first : History} : ∀ {calls : List MethodCall} {h last : History},
    Runs first h → h.runAll calls = some last → Runs first last
  | [], _, _, earlier, finished => by
      cases finished
      exact earlier
  | call :: rest, h, last, earlier, finished => by
      simp only [History.runAll] at finished
      split_ifs at finished with spares
      exact Runs.of_runAll (.tail earlier call spares) finished

/-- A chunk store as `NewChunkStore` and `RecoverNextSeq` leave it: nothing is
buffered, no ID it will mint is taken, and what is cached is stored. -/
structure History.Opens (h : History) : Prop where
  consistent : Consistent h.objects h.cs
  coherent : Coherent h.objects h.cs
  empty : h.cs.activeBuf = []
  clean : h.cs.activeDirty = false
  unused : h.handed = []
  limit : 0 ≤ h.cs.maxChunkSize ∧ IsInt64 h.cs.maxChunkSize

/-! ### The law -/

/-- The byte ranges of two extents do not meet. -/
def Apart (left right : Extent) : Prop :=
  left.chunkID ≠ right.chunkID ∨ left.chunkOffset + left.length ≤ right.chunkOffset ∨
    right.chunkOffset + right.length ≤ left.chunkOffset

/-- What holds of the chunk store at every moment of a run. -/
structure Lawful (h : History) : Prop where
  lengths : ∀ given ∈ h.handed, given.ext.length = given.data.length
  readable : ∀ given ∈ h.handed, (ChunkStore.read mapStore true h.objects h.cs given.ext.chunkID
    given.ext.chunkOffset given.ext.length).2 = .ok given.data
  disjoint : h.handed.Pairwise fun later earlier => Apart later.ext earlier.ext
  bounded : (h.cs.activeBuf.length : Int) ≤ h.cs.maxChunkSize
  flushed : h.cs.activeDirty = false → h.cs.activeBuf ≠ [] →
    h.objects.get h.cs.activeID = some h.cs.activeBuf

/-! ### The content of a chunk -/

/-- The bytes of a chunk as a reader gets them, if there are any. -/
def content (objects : Objects) (cs : ChunkStore) (id : Key) : Option Bytes :=
  if id = cs.activeID then some cs.activeBuf else objects.get id

variable {objects : Objects} {cs : ChunkStore}

theorem content_active (objects : Objects) (cs : ChunkStore) :
    content objects cs cs.activeID = some cs.activeBuf := if_pos rfl

theorem content_of_ne {id : Key} (inactive : id ≠ cs.activeID) :
    content objects cs id = objects.get id := if_neg inactive

/-- What a chunk contains only grows, if its rotation puts it. -/
theorem Move.content {before after : Objects × ChunkStore} (move : Move false before after)
    (consistent : Consistent before.1 before.2) {id : Key} (minted : id ≠ chunkID before.2.nextSeq)
    {source : Bytes} (found : content before.1 before.2 id = some source) :
    ∃ longer, content after.1 after.2 id = some longer ∧ source <+: longer := by
  by_cases isActive : id = before.2.activeID
  · subst isActive
    rw [content_active] at found
    cases found
    cases move with
    | put objects cs dirty => exact ⟨_, content_active _ _, List.prefix_refl _⟩
    | rotateEmpty objects cs allowed empty => cases allowed
    | rotateStored objects cs cached stored =>
        exact ⟨_, (content_of_ne minted).trans stored, List.prefix_refl _⟩
    | push objects cs data fileOffset => exact ⟨_, content_active _ _, List.prefix_append _ _⟩
    | recache objects cs enabled stored => exact ⟨_, content_active _ _, List.prefix_refl _⟩
  · rw [content_of_ne isActive] at found
    have inactive : id ≠ after.2.activeID := by
      cases move with
      | put objects cs dirty => exact isActive
      | rotateEmpty objects cs allowed empty => exact minted
      | rotateStored objects cs cached stored => exact minted
      | push objects cs data fileOffset => exact isActive
      | recache objects cs enabled stored => exact isActive
    rw [content_of_ne inactive]
    exact move.object_grows consistent found

theorem Moves.content {before after : Objects × ChunkStore} (moves : Moves false before after)
    (consistent : Consistent before.1 before.2) {id : Key}
    (minted : ∃ seq, seq < before.2.nextSeq ∧ id = chunkID seq) {source : Bytes}
    (found : ChunkStore.content before.1 before.2 id = some source) :
    ∃ longer, ChunkStore.content after.1 after.2 id = some longer ∧ source <+: longer := by
  obtain ⟨seq, below, rfl⟩ := minted
  induction moves with
  | refl => exact ⟨source, found, List.prefix_refl _⟩
  | @tail middle _ earlier move inductionHypothesis =>
      obtain ⟨long, reached, first⟩ := inductionHypothesis
      have kept := Moves.kept earlier consistent
      have notNext : chunkID seq ≠ chunkID middle.2.nextSeq := by
        intro same
        have := chunkID_injective same
        have := kept.nextSeq
        omega
      obtain ⟨longer, last, second⟩ := move.content kept.consistent notNext reached
      exact ⟨longer, last, first.trans second⟩

/-- A non-empty clean buffer is stored. -/
def Clean (objects : Objects) (cs : ChunkStore) : Prop :=
  cs.activeDirty = false → cs.activeBuf ≠ [] → objects.get cs.activeID = some cs.activeBuf

theorem Move.clean {before after : Objects × ChunkStore} {seals : Bool}
    (move : Move seals before after) (clean : Clean before.1 before.2) :
    Clean after.1 after.2 := by
  cases move with
  | put objects cs dirty => exact fun _ _ => GoMap.get_set_self _ _ _
  | rotateEmpty objects cs allowed empty => exact fun _ filled => absurd empty filled
  | rotateStored objects cs cached stored => exact fun _ filled => absurd rfl filled
  | push objects cs data fileOffset => exact fun undirtied => Bool.noConfusion undirtied
  | recache objects cs enabled stored => exact clean

theorem Moves.clean {before after : Objects × ChunkStore} {seals : Bool}
    (moves : Moves seals before after) (clean : Clean before.1 before.2) :
    Clean after.1 after.2 := by
  induction moves with
  | refl => exact clean
  | tail _ move inductionHypothesis => exact move.clean inductionHypothesis

/-! ### Reading what is there -/

theorem sliceBytes_middle (start data rest : Bytes) :
    sliceBytes (start ++ data ++ rest) start.length (start.length + data.length) = some data := by
  unfold sliceBytes
  have inside : (start.length : Int) + data.length ≤ (start ++ data ++ rest).length := by
    simp only [List.length_append]
    omega
  have width : ((start.length : Int) + data.length - start.length).toNat = data.length := by omega
  rw [if_pos ⟨by omega, by omega, inside⟩, width, Int.toNat_natCast, List.append_assoc,
    List.drop_left, List.take_left]

theorem readAt_middle (start data rest : Bytes) :
    readAt (start ++ data ++ rest) start.length data.length = some data := by
  unfold readAt
  have inside : (start.length : Int) + data.length ≤ (start ++ data ++ rest).length := by
    simp only [List.length_append]
    omega
  rw [if_pos ⟨by omega, by omega, Or.inr inside⟩, Int.toNat_natCast, Int.toNat_natCast,
    List.append_assoc, List.drop_left, List.take_left]

/-- What a prefix of an object reads as is what the object reads as. -/
theorem readAt_extend {short long data other : Bytes} {offset length : Int}
    (isPart : short <+: long) (first : readAt short offset length = some data)
    (second : readAt long offset length = some other) : data = other := by
  have sameLength : data.length = other.length := by
    have := length_of_readAt first
    have := length_of_readAt second
    omega
  apply List.ext_getElem?
  intro i
  by_cases below : (i : Int) < length
  · have inData : i < data.length := by
      have := length_of_readAt first
      omega
    have byte := getElem?_of_readAt first below
    rw [List.getElem?_eq_getElem inData] at byte ⊢
    rw [getElem?_of_readAt second below]
    exact (getElem?_extend isPart byte.symm).symm
  · have := length_of_readAt first
    rw [List.getElem?_eq_none (by omega), List.getElem?_eq_none (by omega)]

/-- Bytes that a chunk contains are read back, through the cache or not. -/
theorem read_of_content (coherent : Coherent objects cs) {id : Key} {start data rest : Bytes}
    (found : content objects cs id = some (start ++ data ++ rest))
    (small : IsInt64 ((start.length : Int) + data.length)) :
    (ChunkStore.read mapStore true objects cs id start.length data.length).2 = .ok data := by
  have plain := wrap64_of_range small
  by_cases isActive : id = cs.activeID
  · subst isActive
    rw [content_active] at found
    have buffer := Option.some.inj found
    have inside : ¬ (start.length : Int) + data.length > cs.activeBuf.length := by
      rw [buffer]
      simp only [List.length_append]
      omega
    simp only [ChunkStore.read, if_true, plain, if_neg inside]
    rw [buffer, sliceBytes_middle]
  · rw [content_of_ne isActive] at found
    cases enabled : cs.cache with
    | none =>
        simp only [ChunkStore.read, if_neg isActive, enabled, mapStore_getRange, found,
          Option.bind_some, readAt_middle]
    | some files =>
        simp only [ChunkStore.read, if_neg isActive, enabled, readRange_mapStore]
        split
        next other reached =>
          obtain ⟨file, cachedFile, taken⟩ := Option.bind_eq_some_iff.mp reached
          obtain ⟨object, stored, isPart⟩ := coherent files enabled id file cachedFile
          rw [found] at stored
          cases stored
          exact congrArg _ (readAt_extend isPart taken (readAt_middle start data rest))
        next =>
          simp only [fetchFullChunk_mapStore, found, if_true, plain, sliceBytes_middle]

/-! ### The invariant of a run -/

/-- The data of an extent lies in the chunk it names. -/
structure Handed.Held (objects : Objects) (cs : ChunkStore) (given : Handed) : Prop where
  minted : ∃ seq, seq < cs.nextSeq ∧ given.ext.chunkID = chunkID seq
  length : given.ext.length = given.data.length
  small : IsInt64 (given.ext.chunkOffset + given.ext.length)
  there : ∃ start rest, given.ext.chunkOffset = List.length start ∧
    content objects cs given.ext.chunkID = some (start ++ given.data ++ rest)

theorem Handed.Held.grows {given : Handed} (held : given.Held objects cs) {objects' : Objects}
    {cs' : ChunkStore} (below : cs.nextSeq ≤ cs'.nextSeq)
    (grows : ∀ source, content objects cs given.ext.chunkID = some source →
      ∃ longer, content objects' cs' given.ext.chunkID = some longer ∧ source <+: longer) :
    given.Held objects' cs' := by
  obtain ⟨⟨seq, minted, id⟩, length, small, start, rest, offset, found⟩ := held
  obtain ⟨longer, found', more, rfl⟩ := grows _ found
  refine ⟨⟨seq, minted.trans_le below, id⟩, length, small, start, rest ++ more, offset, ?_⟩
  rw [found', List.append_assoc _ rest more]

/-- What was handed out ends within the buffer, if it is in the active chunk. -/
theorem Handed.Held.end_le {given : Handed} (held : given.Held objects cs)
    (active : given.ext.chunkID = cs.activeID) :
    given.ext.chunkOffset + given.ext.length ≤ cs.activeBuf.length := by
  obtain ⟨-, length, -, start, rest, offset, found⟩ := held
  rw [active, content_active] at found
  rw [Option.some.inj found, offset, length]
  simp only [List.length_append]
  omega

structure History.Sound (h : History) : Prop where
  consistent : Consistent h.objects h.cs
  coherent : Coherent h.objects h.cs
  clean : Clean h.objects h.cs
  limit : 0 ≤ h.cs.maxChunkSize ∧ IsInt64 h.cs.maxChunkSize
  bounded : (h.cs.activeBuf.length : Int) ≤ h.cs.maxChunkSize
  held : ∀ given ∈ h.handed, given.Held h.objects h.cs
  disjoint : h.handed.Pairwise fun later earlier => Apart later.ext earlier.ext

theorem History.Opens.sound {h : History} (opens : h.Opens) : h.Sound where
  consistent := opens.consistent
  coherent := opens.coherent
  clean := fun _ filled => absurd opens.empty filled
  limit := opens.limit
  bounded := by
    rw [opens.empty]
    exact opens.limit.1
  held := by
    rw [opens.unused]
    exact fun _ member => absurd member List.not_mem_nil
  disjoint := by
    rw [opens.unused]
    exact .nil

theorem History.Sound.lawful {h : History} (sound : h.Sound) : Lawful h where
  lengths := fun given member => (sound.held given member).length
  readable := by
    intro given member
    obtain ⟨-, length, small, start, rest, offset, found⟩ := sound.held given member
    rw [offset, length] at small ⊢
    exact read_of_content sound.coherent found small
  disjoint := sound.disjoint
  bounded := sound.bounded
  flushed := sound.clean

section Steps

variable {h : History} {objects' : Objects} {cs' : ChunkStore}

/-- Moves that put every chunk they leave keep the invariant. -/
theorem History.Sound.of_moves (sound : h.Sound)
    (moves : Moves false (h.objects, h.cs) (objects', cs'))
    (bounded : (cs'.activeBuf.length : Int) ≤ h.cs.maxChunkSize) :
    History.Sound ⟨objects', cs', h.handed⟩ := by
  have kept := Moves.kept moves sound.consistent
  refine ⟨kept.consistent, kept.coherent sound.coherent, Moves.clean moves sound.clean, ?_, ?_, ?_,
    sound.disjoint⟩
  · rw [kept.maxChunkSize]
    exact sound.limit
  · rw [kept.maxChunkSize]
    exact bounded
  · intro given member
    have held := sound.held given member
    exact held.grows kept.nextSeq fun source found =>
      Moves.content moves sound.consistent held.minted found

theorem sealActive_activeBuf (outcome : StoreOutcome) (cached : Bool) (objects : Objects)
    (cs : ChunkStore) :
    (sealActive mapStore outcome cached objects cs).2.1.activeBuf = [] ∨
      (sealActive mapStore outcome cached objects cs).2.1 = cs := by
  unfold sealActive
  split_ifs with empty
  · exact Or.inl empty
  · cases outcome with
    | ok => exact Or.inl rfl
    | failedOld => exact Or.inr rfl
    | failedNew => exact Or.inr rfl

/-- A failed `Append` leaves the chunk store, and at most puts its buffer. -/
theorem append_error {outcome : StoreOutcome} {cached : Bool} {data : Bytes} {fileOffset : Int}
    {failure : ChunkError}
    (failed : ChunkStore.append mapStore outcome cached objects cs data fileOffset =
      (objects', cs', .error failure)) :
    cs' = cs ∧ (objects' = objects ∨ objects' = objects.set cs.activeID cs.activeBuf) := by
  unfold ChunkStore.append at failed
  split_ifs at failed with large overflow
  · cases failed
    exact ⟨rfl, Or.inl rfl⟩
  · unfold sealActive at failed
    split_ifs at failed with empty
    · cases congrArg (fun answer => answer.2.2) failed
    · cases outcome with
      | ok => cases congrArg (fun answer => answer.2.2) failed
      | failedOld =>
          cases failed
          exact ⟨rfl, Or.inl rfl⟩
      | failedNew =>
          cases failed
          exact ⟨rfl, Or.inr rfl⟩
  · cases congrArg (fun answer => answer.2.2) failed

/-- No reader sees the object of the active chunk. -/
theorem read_set_activeID (written : Bool) (objects : Objects) (cs : ChunkStore) (object : Bytes)
    (id : Key) (offset length : Int) :
    (ChunkStore.read mapStore written (objects.set cs.activeID object) cs id offset length).2 =
      (ChunkStore.read mapStore written objects cs id offset length).2 := by
  by_cases isActive : id = cs.activeID
  · simp only [ChunkStore.read, if_pos isActive]
  · simp only [ChunkStore.read, if_neg isActive, readRange, fetchFullChunk_mapStore,
      mapStore_getRange, GoMap.get_set_ne _ _ isActive]

/-- An empty active chunk that is left behind takes no extent with it. -/
theorem History.Sound.of_rotate (sound : h.Sound) (empty : h.cs.activeBuf = [])
    (spared : h.objects.get h.cs.activeID = none →
      ∀ given ∈ h.handed, given.ext.chunkID ≠ h.cs.activeID) :
    History.Sound ⟨h.objects, h.cs.rotate, h.handed⟩ := by
  have moves : Moves true (h.objects, h.cs) (h.objects, h.cs.rotate) :=
    .single (.rotateEmpty h.objects h.cs rfl empty)
  have kept := Moves.kept moves sound.consistent
  refine ⟨kept.consistent, kept.coherent sound.coherent, Moves.clean moves sound.clean, sound.limit,
    sound.bounded, ?_, sound.disjoint⟩
  intro given member
  have held := sound.held given member
  refine held.grows kept.nextSeq fun source found => ?_
  have notNext : given.ext.chunkID ≠ h.cs.rotate.activeID := by
    obtain ⟨seq, below, id⟩ := held.minted
    rw [id]
    intro same
    have : seq = h.cs.nextSeq := chunkID_injective same
    omega
  rw [content_of_ne notNext]
  by_cases isActive : given.ext.chunkID = h.cs.activeID
  · -- The chunk has an object, which is as empty as the buffer.
    rw [isActive, content_active, empty] at found
    cases found
    rw [isActive]
    cases stored : h.objects.get h.cs.activeID with
    | none => exact absurd isActive (spared stored given member)
    | some object => exact ⟨object, rfl, List.nil_prefix⟩
  · rw [content_of_ne isActive] at found
    exact ⟨source, found, List.prefix_refl _⟩

/-- The extent that a successful `Append` returns joins the others. -/
theorem History.Sound.of_append (sound : h.Sound) {outcome : StoreOutcome} {cached : Bool}
    {data : Bytes} {fileOffset : Int} {ext : Extent}
    (appended : ChunkStore.append mapStore outcome cached h.objects h.cs data fileOffset =
      (objects', cs', .ok ext)) :
    History.Sound ⟨objects', cs', ⟨data, ext⟩ :: h.handed⟩ := by
  have moves := append_moves outcome cached h.objects h.cs data fileOffset
  rw [appended] at moves
  have kept := Moves.kept moves sound.consistent
  obtain ⟨start, buffer, -, same, fits⟩ := append_extent appended
  obtain ⟨-, limit⟩ := sound.limit
  have before := sound.of_moves moves (by
    rw [buffer, List.length_append]
    omega)
  have offset : ext.chunkOffset = start.length := by rw [same]
  have length : ext.length = data.length := by rw [same]
  have id : ext.chunkID = cs'.activeID := by rw [same]
  refine { before with held := ?_, disjoint := ?_ }
  · intro given member
    rcases List.mem_cons.mp member with rfl | earlier
    · obtain ⟨seq, next, active⟩ := kept.consistent.active
      refine ⟨⟨seq, ?_, id.trans active⟩, length, ?_, start, [], offset, ?_⟩
      · exact Nat.lt_of_lt_of_eq (Nat.lt_succ_self seq) next.symm
      · unfold IsInt64 at limit ⊢
        change _ ≤ ext.chunkOffset + ext.length ∧ ext.chunkOffset + ext.length < _
        omega
      · change content objects' cs' ext.chunkID = _
        rw [id, content_active, buffer, List.append_nil]
    · exact before.held given earlier
  · refine List.pairwise_cons.mpr ⟨fun given earlier => ?_, sound.disjoint⟩
    have held := sound.held given earlier
    by_cases sameChunk : ext.chunkID = given.ext.chunkID
    · right
      right
      rcases append_chunk appended with ⟨active, end_, -⟩ | next
      · change given.ext.chunkOffset + given.ext.length ≤ ext.chunkOffset
        rw [end_]
        exact held.end_le (sameChunk.symm.trans active)
      · obtain ⟨seq, below, minted⟩ := held.minted
        rw [sameChunk, minted] at next
        have := chunkID_injective next
        omega
    · exact Or.inl sameChunk

end Steps

/-- Every call that spares what was handed out keeps the invariant. -/
theorem MethodCall.run_sound {h : History} (sound : h.Sound) (call : MethodCall)
    (spares : call.Spares h) : (call.run h).Sound := by
  have bounded := sound.bounded
  cases call with
  | append data fileOffset outcome cached =>
      have moves := append_moves outcome cached h.objects h.cs data fileOffset
      simp only [MethodCall.run]
      split
      next objects cs ext appended => exact sound.of_append appended
      next objects cs failure failed =>
        rw [failed] at moves
        obtain ⟨rfl, -⟩ := append_error failed
        exact sound.of_moves moves bounded
  | sealing outcome cached =>
      by_cases empty : h.cs.activeBuf = []
      · have rotated : MethodCall.run h (.sealing outcome cached) =
            ⟨h.objects, h.cs.rotate, h.handed⟩ := by
          simp only [MethodCall.run, sealActive, if_pos empty]
        rw [rotated]
        exact sound.of_rotate empty (spares empty)
      · have moves := sealActive_moves false outcome cached h.objects h.cs fun isEmpty =>
          absurd isEmpty empty
        refine sound.of_moves moves ?_
        rcases sealActive_activeBuf outcome cached h.objects h.cs with isEmpty | same
        · rw [isEmpty]
          exact sound.limit.1
        · rw [same]
          exact bounded
  | flush outcome =>
      refine sound.of_moves (flushActive_moves outcome h.objects h.cs) ?_
      have same : (flushActive mapStore outcome h.objects h.cs).2.1.activeBuf = h.cs.activeBuf := by
        unfold flushActive
        split_ifs
        · rfl
        · cases outcome <;> rfl
      rw [same]
      exact bounded
  | read id offset length =>
      refine sound.of_moves (read_moves true h.objects h.cs id offset length) ?_
      obtain ⟨cache, same⟩ := read_cache_only true h.objects h.cs id offset length
      rw [same]
      exact bounded

theorem Runs.sound {first last : History} (runs : Runs first last) (sound : first.Sound) :
    last.Sound := by
  induction runs with
  | refl => exact sound
  | tail _ call spares inductionHypothesis => exact call.run_sound inductionHypothesis spares

/-- What a call does to the store and the chunk store, as moves. -/
theorem MethodCall.run_moves (h : History) (call : MethodCall) :
    Moves true (h.objects, h.cs) ((call.run h).objects, (call.run h).cs) := by
  cases call with
  | append data fileOffset outcome cached =>
      have moves := Moves.allowing (append_moves outcome cached h.objects h.cs data fileOffset)
      simp only [MethodCall.run]
      split
      next appended =>
        rw [appended] at moves
        exact moves
      next failed =>
        rw [failed] at moves
        exact moves
  | sealing outcome cached => exact sealActive_moves true outcome cached h.objects h.cs fun _ => rfl
  | flush outcome => exact Moves.allowing (flushActive_moves outcome h.objects h.cs)
  | read id offset length => exact Moves.allowing (read_moves true h.objects h.cs id offset length)

/-- A run leaves the chunks behind that were left behind before it. -/
theorem Runs.object_frozen {first last : History} (runs : Runs first last) (sound : first.Sound)
    {id : Key} (frozen : Frozen first.cs id) :
    Frozen last.cs id ∧ last.objects.get id = first.objects.get id := by
  induction runs with
  | refl => exact ⟨frozen, rfl⟩
  | @tail middle earlier call spares inductionHypothesis =>
      obtain ⟨still, unchanged⟩ := inductionHypothesis
      have kept := Moves.kept (call.run_moves middle) (Runs.sound earlier sound).consistent
      obtain ⟨frozen', same⟩ := kept.frozen id still
      exact ⟨frozen', same.trans unchanged⟩

theorem Runs.nextSeq_le {first last : History} (runs : Runs first last) (sound : first.Sound) :
    first.cs.nextSeq ≤ last.cs.nextSeq := by
  induction runs with
  | refl => exact le_rfl
  | @tail middle earlier call spares inductionHypothesis =>
      have kept := Moves.kept (call.run_moves middle) (Runs.sound earlier sound).consistent
      exact inductionHypothesis.trans kept.nextSeq

/-! ### The append and read law -/

/-- At every moment of a run the law holds; the object of a chunk that has been
left behind does not change any more; and an `Append` that fails now leaves the
active chunk and all that can be read as they are. -/
theorem append_read_law {start now : History} (opens : start.Opens) (runs : Runs start now) :
    Lawful now ∧
      (∀ wasActive leftBehind, Runs start wasActive → Runs wasActive leftBehind →
        Runs leftBehind now → leftBehind.cs.activeID ≠ wasActive.cs.activeID →
        now.objects.get wasActive.cs.activeID = leftBehind.objects.get wasActive.cs.activeID) ∧
      ∀ outcome cached data fileOffset objects' cs' failure,
        ChunkStore.append mapStore outcome cached now.objects now.cs data fileOffset =
          (objects', cs', .error failure) →
        cs'.activeID = now.cs.activeID ∧ cs'.activeBuf = now.cs.activeBuf ∧
          ∀ written id offset length,
            (ChunkStore.read mapStore written objects' cs' id offset length).2 =
              (ChunkStore.read mapStore written now.objects now.cs id offset length).2 := by
  refine ⟨(runs.sound opens.sound).lawful, ?_, ?_⟩
  · intro wasActive leftBehind toActive toBehind toNow inactive
    have soundActive := toActive.sound opens.sound
    have soundBehind := toBehind.sound soundActive
    obtain ⟨seq, next, active⟩ := soundActive.consistent.active
    have minted : seq < leftBehind.cs.nextSeq := by
      have := toBehind.nextSeq_le soundActive
      omega
    have frozen : Frozen leftBehind.cs wasActive.cs.activeID := by
      rw [active] at inactive ⊢
      exact soundBehind.consistent.frozen minted inactive.symm
    exact (toNow.object_frozen soundBehind frozen).2
  · intro outcome cached data fileOffset objects' cs' failure failed
    obtain ⟨rfl, stored⟩ := append_error failed
    refine ⟨rfl, rfl, fun written id offset length => ?_⟩
    rcases stored with same | put
    · rw [same]
    · rw [put]
      exact read_set_activeID written now.objects now.cs now.cs.activeBuf id offset length

/-- `NewChunkStore` over an empty store, with an empty cache directory or none. -/
def History.opened (maxChunkSize : Int) (cacheDir : Bool) : History :=
  ⟨∅, if cacheDir then (ChunkStore.new maxChunkSize).setCacheDir ∅ else .new maxChunkSize, []⟩

theorem History.opened_opens {maxChunkSize : Int}
    (limit : 0 ≤ maxChunkSize ∧ IsInt64 maxChunkSize) (cacheDir : Bool) :
    (History.opened maxChunkSize cacheDir).Opens := by
  cases cacheDir with
  | false =>
      refine ⟨new_consistent maxChunkSize, ?_, rfl, rfl, rfl, limit⟩
      intro files enabled
      cases enabled
  | true =>
      refine ⟨(new_consistent maxChunkSize).with_cache (some ∅), ?_, rfl, rfl, rfl, limit⟩
      intro files enabled id file found
      cases enabled
      cases found

/-- A flush, two failed rotations, and a rotation whose cache write fails; the
first chunk is then read into the cache. -/
def rotating : List MethodCall :=
  [.append [1, 2] 0 .ok true, .flush .ok, .append [3] 7 .ok true, .append [4, 5] 0 .failedNew true,
    .sealing .failedOld true, .append [4, 5] 2 .ok false, .read (chunkID 0) 0 3,
    .append [] 4 .ok true]

theorem append_read_law_rotating :
    ((History.opened 4 true).runAll rotating).map (fun now => now.handed.length) = some 4 ∧
      ∀ now ∈ (History.opened 4 true).runAll rotating, Lawful now := by
  refine ⟨by decide +kernel, fun now finished => ?_⟩
  have opens := History.opened_opens (show 0 ≤ 4 ∧ IsInt64 4 by decide) true
  exact (append_read_law opens (Runs.of_runAll (.refl _) finished)).1

/-- An `Append` of no bytes at the start of a chunk, then `Seal`. -/
def abandoned : History :=
  (MethodCall.sealing .ok true).run ((MethodCall.append [] 0 .ok true).run (.opened 100 false))

/-- `Seal` abandons the chunk without an object, and its extent cannot be read
any more. With a negative limit, which nothing rejects, the empty buffer exceeds
it. -/
theorem empty_append_abandoned :
    (∃ given ∈ abandoned.handed,
      (ChunkStore.read mapStore true abandoned.objects abandoned.cs given.ext.chunkID
        given.ext.chunkOffset given.ext.length).2 = .error (.error (.getRange (chunkID 0)))) ∧
      ¬ ((History.opened (-1) false).cs.activeBuf.length : Int) ≤ -1 := by
  decide +kernel

end ChunkStore

end Fusey
