import Fusey.GoLib.Simulation
import Fusey.Chunks.AppendLaw

/-!
Contract: the chunk store against the state machine it corresponds to
(`specs/chunks.qnt`, `internal/chunks/chunk_store.go`).

Owns:
- the state machine, with its actions and its invariants;
- that every run of `Append`, `Seal`, `FlushActive` and `Read`, with puts that may
  fail, is a run of its actions, one for each call that succeeds and none for one
  that fails;
- that a read succeeds exactly where `readRange` is enabled.

The bound `nextChunkSeqBound` of the specification holds in none of its states, the
initial one included. What it stands for is stated here as it is meant: the chunks
are those numbered below `nextChunkSeq`.

`appendData` requires at least one byte, and so do the runs here. The store answers
as a local one does: nothing lies behind a chunk that it has fetched.
-/

set_option autoImplicit false

namespace Fusey

open GoInt ChunkStore

namespace ChunkSpec

/-! ### The state machine -/

inductive ChunkStatus where
  | active
  | closed
deriving DecidableEq, Repr

/-- The metadata of a chunk. `closed` is `Sealed`. -/
structure Chunk where
  id : Key
  status : ChunkStatus
  size : Int
deriving DecidableEq, Repr

structure State where
  chunks : GoMap Key Chunk
  activeChunkId : Key
  nextChunkSeq : Nat
  chunkDirty : Bool
  lastWrittenExtent : Extent
deriving DecidableEq

def init : State :=
  { chunks := GoMap.set ∅ (chunkID 0) ⟨chunkID 0, .active, 0⟩
    activeChunkId := chunkID 0
    nextChunkSeq := 1
    chunkDirty := false
    lastWrittenExtent := ⟨chunkID 0, 0, 0, 0⟩ }

/-- The active chunk is sealed and a fresh one is opened. -/
def rotateChunk (s : State) : Option State :=
  (s.chunks.get s.activeChunkId).map fun oldChunk =>
    { s with
      chunks := (s.chunks.set s.activeChunkId { oldChunk with status := .closed }).set
        (chunkID s.nextChunkSeq) ⟨chunkID s.nextChunkSeq, .active, 0⟩
      activeChunkId := chunkID s.nextChunkSeq
      nextChunkSeq := s.nextChunkSeq + 1
      chunkDirty := false }

/-- The second half of `appendData`, once the target is the active chunk. -/
def writeTarget (dataSize fileOffset : Int) (s : State) : Option State :=
  (s.chunks.get s.activeChunkId).map fun targetChunk =>
    { s with
      chunks := s.chunks.set s.activeChunkId
        { targetChunk with size := targetChunk.size + dataSize }
      chunkDirty := true
      lastWrittenExtent := ⟨s.activeChunkId, targetChunk.size, dataSize, fileOffset⟩ }

inductive Action where
  | appendData (dataSize fileOffset : Int)
  | readRange (chunkId : Key) (offset length : Int)
  | explicitSeal
  | flushActive
deriving DecidableEq, Repr

/-- An action, where its requirements are met. -/
def act (maxChunkSize : Int) (s : State) : Action → Option State
  | .appendData dataSize fileOffset =>
      if 0 < dataSize ∧ dataSize ≤ maxChunkSize then
        (s.chunks.get s.activeChunkId).bind fun active =>
          if active.size + dataSize > maxChunkSize then
            (rotateChunk s).bind (writeTarget dataSize fileOffset)
          else writeTarget dataSize fileOffset s
      else none
  | .readRange chunkId offset length =>
      (s.chunks.get chunkId).bind fun chunk =>
        if 0 ≤ offset ∧ 0 < length ∧ offset + length ≤ chunk.size then some s else none
  | .explicitSeal => rotateChunk s
  | .flushActive => if s.chunkDirty then some { s with chunkDirty := false } else none

/-! ### Its invariants -/

/-- `nextChunkSeqBound`, as the specification has it. -/
def nextChunkSeqBound (s : State) : Prop := s.chunks.keys.card < s.nextChunkSeq

/-- The other invariants of the specification; `numbered` is what
`nextChunkSeqBound` approximates. -/
structure Invariant (maxChunkSize : Int) (s : State) : Prop where
  activeChunk : ∃ chunk, s.chunks.get s.activeChunkId = some chunk ∧ chunk.status = .active
  /-- This holds of the active chunk, and so of those that have been active. -/
  withinBound : ∀ id chunk, s.chunks.get id = some chunk → chunk.size ≤ maxChunkSize
  onlyOneActive : ∀ id chunk, s.chunks.get id = some chunk → id ≠ s.activeChunkId →
    chunk.status = .closed
  chunkSizesNonNeg : ∀ id chunk, s.chunks.get id = some chunk → 0 ≤ chunk.size
  chunkIdConsistency : ∀ id chunk, s.chunks.get id = some chunk → chunk.id = id
  numbered : ∀ id, s.chunks.get id ≠ none ↔ ∃ seq < s.nextChunkSeq, id = chunkID seq
  lastExtent : ∃ chunk, s.chunks.get s.lastWrittenExtent.chunkID = some chunk ∧
    s.lastWrittenExtent.chunkOffset + s.lastWrittenExtent.length ≤ chunk.size

theorem init_invariant {maxChunkSize : Int} (nonneg : 0 ≤ maxChunkSize) :
    Invariant maxChunkSize init := by
  have only : ∀ {id chunk}, init.chunks.get id = some chunk →
      id = chunkID 0 ∧ chunk = ⟨chunkID 0, .active, 0⟩ := by
    intro id chunk found
    simp only [init, GoMap.get_set, GoMap.get_empty] at found
    split_ifs at found with isFirst
    exact ⟨isFirst, (Option.some.inj found).symm⟩
  have first : init.chunks.get (chunkID 0) = some ⟨chunkID 0, .active, 0⟩ :=
    GoMap.get_set_self _ _ _
  refine ⟨⟨_, first, rfl⟩, ?_, ?_, ?_, ?_, ?_, ⟨_, first, Int.le_refl 0⟩⟩
  · intro id chunk found
    rw [(only found).2]
    exact nonneg
  · intro id chunk found other
    exact absurd (only found).1 other
  · intro id chunk found
    rw [(only found).2]
  · intro id chunk found
    rw [(only found).1, (only found).2]
  · intro id
    constructor
    · intro found
      obtain ⟨chunk, isThere⟩ := Option.ne_none_iff_exists'.mp found
      exact ⟨0, Nat.zero_lt_one, (only isThere).1⟩
    · rintro ⟨seq, below, rfl⟩
      rw [Nat.lt_one_iff.mp below, first]
      exact Option.some_ne_none _

namespace Invariant

variable {maxChunkSize : Int} {s next : State}

theorem fresh (holds : Invariant maxChunkSize s) :
    s.chunks.get (chunkID s.nextChunkSeq) = none := by
  refine not_not.mp fun found => ?_
  obtain ⟨seq, below, same⟩ := (holds.numbered _).mp found
  exact absurd (chunkID_injective same) (Nat.ne_of_gt below)

/-- There is one chunk for each number that has been given out. -/
theorem card_keys (holds : Invariant maxChunkSize s) : s.chunks.keys.card = s.nextChunkSeq := by
  have keys : s.chunks.keys = (Finset.range s.nextChunkSeq).image chunkID := by
    ext id
    rw [GoMap.mem_keys, ← Option.ne_none_iff_exists', holds.numbered id]
    simp only [Finset.mem_image, Finset.mem_range, eq_comm]
  rw [keys, Finset.card_image_of_injective _ fun _ _ same => chunkID_injective same,
    Finset.card_range]

theorem not_nextChunkSeqBound (holds : Invariant maxChunkSize s) : ¬ nextChunkSeqBound s := by
  unfold nextChunkSeqBound
  rw [holds.card_keys]
  exact Nat.lt_irrefl _

theorem get_rotateChunk {old : Chunk} (id : Key) :
    (GoMap.set (s.chunks.set s.activeChunkId { old with status := .closed })
      (chunkID s.nextChunkSeq) ⟨chunkID s.nextChunkSeq, .active, 0⟩).get id =
      if id = chunkID s.nextChunkSeq then some ⟨chunkID s.nextChunkSeq, .active, 0⟩
      else if id = s.activeChunkId then some { old with status := .closed }
      else s.chunks.get id := by
  rw [GoMap.get_set, GoMap.get_set]

theorem rotateChunk (holds : Invariant maxChunkSize s) (nonneg : 0 ≤ maxChunkSize)
    (rotated : rotateChunk s = some next) : Invariant maxChunkSize next := by
  obtain ⟨old, found, rfl⟩ := Option.map_eq_some_iff.mp rotated
  have isNew := holds.fresh
  refine ⟨⟨_, GoMap.get_set_self _ _ _, rfl⟩, ?_, ?_, ?_, ?_, ?_, ?_⟩
  · intro id chunk stored
    rw [get_rotateChunk] at stored
    split_ifs at stored with isNext wasActive
    · cases stored
      exact nonneg
    · cases stored
      exact holds.withinBound _ old found
    · exact holds.withinBound id chunk stored
  · intro id chunk stored other
    rw [get_rotateChunk, if_neg other] at stored
    split_ifs at stored with wasActive
    · cases stored
      rfl
    · exact holds.onlyOneActive id chunk stored wasActive
  · intro id chunk stored
    rw [get_rotateChunk] at stored
    split_ifs at stored with isNext wasActive
    · cases stored
      exact Int.le_refl 0
    · cases stored
      exact holds.chunkSizesNonNeg _ old found
    · exact holds.chunkSizesNonNeg id chunk stored
  · intro id chunk stored
    rw [get_rotateChunk] at stored
    split_ifs at stored with isNext wasActive
    · cases stored
      exact isNext.symm
    · cases stored
      rw [wasActive]
      exact holds.chunkIdConsistency _ old found
    · exact holds.chunkIdConsistency id chunk stored
  · intro id
    have split : (∃ seq < s.nextChunkSeq + 1, id = chunkID seq) ↔
        id = chunkID s.nextChunkSeq ∨ ∃ seq < s.nextChunkSeq, id = chunkID seq := by
      simp only [Nat.lt_succ_iff_lt_or_eq, or_and_right, exists_or, exists_eq_left, or_comm]
    rw [get_rotateChunk, split, ← holds.numbered id]
    split_ifs with isNext wasActive
    · simp only [ne_eq, reduceCtorEq, not_false_eq_true, isNext, true_or]
    · rw [wasActive, found]
      simp only [ne_eq, reduceCtorEq, not_false_eq_true, or_true]
    · simp only [isNext, false_or]
  · obtain ⟨chunk, stored, inside⟩ := holds.lastExtent
    have old' : s.lastWrittenExtent.chunkID ≠ chunkID s.nextChunkSeq := fun same => by
      rw [same, isNew] at stored
      cases stored
    by_cases wasActive : s.lastWrittenExtent.chunkID = s.activeChunkId
    · rw [wasActive, found] at stored
      cases stored
      refine ⟨{ old with status := .closed }, ?_, inside⟩
      rw [get_rotateChunk, if_neg old', if_pos wasActive]
    · refine ⟨chunk, ?_, inside⟩
      rw [get_rotateChunk, if_neg old', if_neg wasActive]
      exact stored

theorem writeTarget {dataSize fileOffset : Int} (holds : Invariant maxChunkSize s)
    (positive : 0 < dataSize)
    (fits : ∀ chunk, s.chunks.get s.activeChunkId = some chunk →
      chunk.size + dataSize ≤ maxChunkSize)
    (written : writeTarget dataSize fileOffset s = some next) : Invariant maxChunkSize next := by
  obtain ⟨target, found, rfl⟩ := Option.map_eq_some_iff.mp written
  obtain ⟨chunk, again, isActive⟩ := holds.activeChunk
  cases found.symm.trans again
  have size := holds.chunkSizesNonNeg _ target found
  refine ⟨⟨_, GoMap.get_set_self _ _ _, isActive⟩, ?_, ?_, ?_, ?_, ?_,
    ⟨_, GoMap.get_set_self _ _ _, Int.le_refl _⟩⟩
  · intro id chunk stored
    rw [GoMap.get_set] at stored
    split_ifs at stored with isTarget
    · cases stored
      exact fits target found
    · exact holds.withinBound id chunk stored
  · intro id chunk stored other
    rw [GoMap.get_set_ne _ _ other] at stored
    exact holds.onlyOneActive id chunk stored other
  · intro id chunk stored
    rw [GoMap.get_set] at stored
    split_ifs at stored with isTarget
    · cases stored
      exact Int.add_nonneg size (Int.le_of_lt positive)
    · exact holds.chunkSizesNonNeg id chunk stored
  · intro id chunk stored
    rw [GoMap.get_set] at stored
    split_ifs at stored with isTarget
    · cases stored
      rw [isTarget]
      exact holds.chunkIdConsistency _ target found
    · exact holds.chunkIdConsistency id chunk stored
  · intro id
    rw [← holds.numbered id, GoMap.get_set]
    split_ifs with isTarget
    · rw [isTarget, found]
      simp only [ne_eq, reduceCtorEq, not_false_eq_true]
    · exact Iff.rfl

/-- Every action keeps the invariants. -/
theorem act (holds : Invariant maxChunkSize s) (nonneg : 0 ≤ maxChunkSize) {action : Action}
    (acted : act maxChunkSize s action = some next) : Invariant maxChunkSize next := by
  cases action with
  | appendData dataSize fileOffset =>
      simp only [ChunkSpec.act] at acted
      split_ifs at acted with required
      obtain ⟨active, found, acted⟩ := Option.bind_eq_some_iff.mp acted
      split_ifs at acted with willRotate
      · obtain ⟨fresh, rotated, written⟩ := Option.bind_eq_some_iff.mp acted
        refine (holds.rotateChunk nonneg rotated).writeTarget required.1 ?_ written
        obtain ⟨old, -, rfl⟩ := Option.map_eq_some_iff.mp rotated
        intro chunk stored
        cases (GoMap.get_set_self _ _ _).symm.trans stored
        exact (Int.zero_add dataSize).symm ▸ required.2
      · refine holds.writeTarget required.1 ?_ acted
        intro chunk stored
        cases found.symm.trans stored
        exact Int.not_lt.mp willRotate
  | readRange chunkId offset length =>
      obtain ⟨chunk, found, acted⟩ := Option.bind_eq_some_iff.mp acted
      split_ifs at acted
      cases acted
      exact holds
  | explicitSeal => exact holds.rotateChunk nonneg acted
  | flushActive =>
      simp only [ChunkSpec.act] at acted
      split_ifs at acted
      cases acted
      exact ⟨holds.activeChunk, holds.withinBound, holds.onlyOneActive, holds.chunkSizesNonNeg,
        holds.chunkIdConsistency, holds.numbered, holds.lastExtent⟩

end Invariant

/-! ### What the code's state represents -/

/-- The chunk store and its objects represent a state of the machine: the active
chunk is the buffer, every other chunk is its object, and one without an object is
empty. -/
structure Represents (objects : Objects) (cs : ChunkStore) (s : State) : Prop where
  active : s.activeChunkId = cs.activeID
  seq : s.nextChunkSeq = cs.nextSeq
  dirty : s.chunkDirty = cs.activeDirty
  buffer : s.chunks.get cs.activeID = some ⟨cs.activeID, .active, cs.activeBuf.length⟩
  behind : ∀ id chunk, id ≠ cs.activeID → s.chunks.get id = some chunk →
    chunk.size = (((objects.get id).getD []).length : Int)
  stored : ∀ id, objects.get id ≠ none → s.chunks.get id ≠ none

namespace Represents

variable {objects : Objects} {cs : ChunkStore} {s : State}

/-- What is put for the active chunk is not yet a chunk of its own. -/
theorem put (represents : Represents objects cs s) (data : Bytes) :
    Represents (objects.set cs.activeID data) cs s := by
  refine { represents with behind := fun id chunk other found => ?_, stored := fun id there => ?_ }
  · rw [GoMap.get_set_ne _ _ other]
    exact represents.behind id chunk other found
  · rw [GoMap.get_set] at there
    split_ifs at there with isActive
    · rw [isActive, represents.buffer]
      exact Option.some_ne_none _
    · exact represents.stored id there

/-- A full or empty active chunk is left behind. -/
theorem rotate (represents : Represents objects cs s)
    (complete : (objects.get cs.activeID).getD [] = cs.activeBuf) (cs' : ChunkStore)
    (activeID : cs'.activeID = chunkID cs.nextSeq) (activeBuf : cs'.activeBuf = [])
    (activeDirty : cs'.activeDirty = false) (nextSeq : cs'.nextSeq = cs.nextSeq + 1) :
    ∃ next, rotateChunk s = some next ∧ Represents objects cs' next ∧
      next.lastWrittenExtent = s.lastWrittenExtent := by
  have found : s.chunks.get s.activeChunkId = some ⟨cs.activeID, .active, cs.activeBuf.length⟩ := by
    rw [represents.active]
    exact represents.buffer
  refine ⟨_, Option.map_eq_some_iff.mpr ⟨_, found, rfl⟩, ?_, rfl⟩
  refine ⟨?_, ?_, activeDirty.symm, ?_, fun id chunk other stored => ?_, fun id there => ?_⟩
  · rw [activeID, represents.seq]
  · rw [nextSeq, represents.seq]
  · rw [activeID, activeBuf, represents.seq]
    exact GoMap.get_set_self _ _ _
  · rw [activeID, ← represents.seq] at other
    rw [Invariant.get_rotateChunk, if_neg other] at stored
    split_ifs at stored with wasActive
    · cases stored
      rw [wasActive, represents.active, complete]
    · rw [represents.active] at wasActive
      exact represents.behind id chunk wasActive stored
  · rw [Invariant.get_rotateChunk]
    split_ifs
    · exact Option.some_ne_none _
    · exact Option.some_ne_none _
    · exact represents.stored id there

/-- Data is added behind the buffer. -/
theorem push (represents : Represents objects cs s) (data : Bytes) (fileOffset : Int) :
    ∃ next, writeTarget data.length fileOffset s = some next ∧
      Represents objects (cs.push data fileOffset).1 next ∧
      next.lastWrittenExtent = (cs.push data fileOffset).2 := by
  have found : s.chunks.get s.activeChunkId = some ⟨cs.activeID, .active, cs.activeBuf.length⟩ := by
    rw [represents.active]
    exact represents.buffer
  refine ⟨_, Option.map_eq_some_iff.mpr ⟨_, found, rfl⟩, ?_, ?_⟩
  · refine ⟨represents.active, represents.seq, rfl, ?_, fun id chunk other stored => ?_,
      fun id there => ?_⟩
    · dsimp only [ChunkStore.push]
      rw [represents.active, GoMap.get_set_self, List.length_append, Nat.cast_add]
    · dsimp only [ChunkStore.push] at other stored
      rw [GoMap.get_set_ne _ _ (represents.active.symm ▸ other)] at stored
      exact represents.behind id chunk other stored
    · dsimp only
      rw [GoMap.get_set]
      split_ifs
      · exact Option.some_ne_none _
      · exact represents.stored id there
  · dsimp only [ChunkStore.push]
    rw [represents.active]

end Represents

/-! ### The simulation -/

/-- The calls whose arguments the specification covers: data that is not empty, and
ranges of 64-bit integers. -/
def Covered : MethodCall → Prop
  | .append data _ _ _ => data ≠ []
  | .read _ offset length => IsInt64 offset ∧ IsInt64 length
  | _ => True

instance (call : MethodCall) : Decidable (Covered call) := by
  induction call using MethodCall.casesOn <;> dsimp only [Covered] <;> infer_instance

/-- The actions that a call amounts to: none if it fails or has nothing to do. -/
def actions (h : History) : MethodCall → List Action
  | .append data fileOffset outcome cached =>
      match (ChunkStore.append mapStore outcome cached h.objects h.cs data fileOffset).2.2 with
      | .ok _ => [.appendData data.length fileOffset]
      | .error _ => []
  | .sealing outcome cached =>
      match (sealActive mapStore outcome cached h.objects h.cs).2.2 with
      | .ok _ => [.explicitSeal]
      | .error _ => []
  | .flush outcome =>
      if h.cs.activeDirty && (ChunkStore.flushActive mapStore outcome h.objects h.cs).2.2 then
        [.flushActive]
      else []
  | .read id offset length =>
      match (ChunkStore.read mapStore true h.objects h.cs id offset length).2 with
      | .ok _ => if 0 < length then [.readRange id offset length] else []
      | .error _ => []

/-- A call as a step. -/
def callStep (h : History) (call : MethodCall) : Option History := some (call.run h)

/-- The extent that was handed out last, or that of the initial state. -/
def lastHanded (h : History) : Extent :=
  match h.handed with
  | [] => init.lastWrittenExtent
  | given :: _ => given.ext

/-- The relation that every call keeps. -/
structure Simulates (maxChunkSize : Int) (h : History) (s : State) : Prop where
  represents : Represents h.objects h.cs s
  invariant : Invariant maxChunkSize s
  consistent : Consistent h.objects h.cs
  coherent : Coherent h.objects h.cs
  limit : h.cs.maxChunkSize = maxChunkSize
  /-- An empty buffer has nothing to flush. -/
  unwritten : h.cs.activeBuf = [] → h.cs.activeDirty = false
  last : s.lastWrittenExtent = lastHanded h

namespace Simulates

variable {maxChunkSize : Int} {h : History} {s : State}

/-- The object of an empty active chunk is empty. -/
theorem complete_of_empty (simulates : Simulates maxChunkSize h s) (empty : h.cs.activeBuf = []) :
    (h.objects.get h.cs.activeID).getD [] = h.cs.activeBuf := by
  cases stored : h.objects.get h.cs.activeID with
  | none => exact empty.symm
  | some object =>
      have isPart := simulates.consistent.stored object stored
      rw [empty] at isPart ⊢
      exact List.prefix_nil.mp isPart

/-- `Seal` rotates, or fails and leaves the chunk store. -/
theorem seal_cases (simulates : Simulates maxChunkSize h s) (outcome : StoreOutcome)
    (cached : Bool) :
    (∃ objects' cs' next, sealActive mapStore outcome cached h.objects h.cs =
        (objects', cs', .ok ()) ∧ rotateChunk s = some next ∧ Represents objects' cs' next ∧
        next.lastWrittenExtent = s.lastWrittenExtent ∧ cs'.activeDirty = false) ∨
      ∃ objects' failure, sealActive mapStore outcome cached h.objects h.cs =
        (objects', h.cs, .error failure) ∧ Represents objects' h.cs s := by
  unfold sealActive
  split_ifs with empty
  · obtain ⟨next, rotated, represents, last⟩ := simulates.represents.rotate
      (simulates.complete_of_empty empty) h.cs.rotate rfl empty (simulates.unwritten empty) rfl
    exact Or.inl ⟨_, _, next, rfl, rotated, represents, last, simulates.unwritten empty⟩
  · have put := simulates.represents.put h.cs.activeBuf
    cases outcome with
    | ok =>
        have complete : ((h.objects.set h.cs.activeID h.cs.activeBuf).get h.cs.activeID).getD [] =
            h.cs.activeBuf := by
          rw [GoMap.get_set_self]
          rfl
        obtain ⟨next, rotated, represents, last⟩ := put.rotate complete
          (h.cs.startNext cached) rfl rfl rfl rfl
        exact Or.inl ⟨_, _, next, rfl, rotated, represents, last, rfl⟩
    | failedOld => exact Or.inr ⟨_, _, rfl, simulates.represents⟩
    | failedNew => exact Or.inr ⟨_, _, rfl, put⟩

/-- `Append` is `appendData`, or fails and leaves the chunk store. -/
theorem append_cases (simulates : Simulates maxChunkSize h s) {data : Bytes} (filled : data ≠ [])
    (fileOffset : Int) (outcome : StoreOutcome) (cached : Bool) :
    (∃ objects' cs' ext next,
        ChunkStore.append mapStore outcome cached h.objects h.cs data fileOffset =
          (objects', cs', .ok ext) ∧
        ChunkSpec.act maxChunkSize s (.appendData data.length fileOffset) = some next ∧
        Represents objects' cs' next ∧ next.lastWrittenExtent = ext ∧ cs'.activeBuf ≠ []) ∨
      ∃ objects' failure,
        ChunkStore.append mapStore outcome cached h.objects h.cs data fileOffset =
          (objects', h.cs, .error failure) ∧ Represents objects' h.cs s := by
  have positive : (0 : Int) < data.length := Int.natCast_pos.mpr (List.length_pos_iff.mpr filled)
  have pushed : ∀ cs : ChunkStore, (cs.push data fileOffset).1.activeBuf ≠ [] :=
    fun cs => List.append_ne_nil_of_right_ne_nil _ filled
  have found : s.chunks.get s.activeChunkId =
      some ⟨h.cs.activeID, .active, h.cs.activeBuf.length⟩ := by
    rw [simulates.represents.active]
    exact simulates.represents.buffer
  unfold ChunkStore.append
  rw [simulates.limit]
  split_ifs with large overflow
  · exact Or.inr ⟨_, _, rfl, simulates.represents⟩
  · have required : (0 : Int) < data.length ∧ (data.length : Int) ≤ maxChunkSize :=
      ⟨positive, Int.not_lt.mp large⟩
    rcases simulates.seal_cases outcome cached with
      ⟨objects', cs', fresh, closed, rotated, represents, -, -⟩ |
      ⟨objects', failure, closed, represents⟩ <;> rw [closed]
    · obtain ⟨next, written, represents', last⟩ := represents.push data fileOffset
      refine Or.inl ⟨_, _, _, next, rfl, ?_, represents', last, pushed cs'⟩
      simp only [ChunkSpec.act, if_pos required, found, Option.bind_some, if_pos overflow, rotated,
        written]
    · exact Or.inr ⟨_, _, rfl, represents⟩
  · have required : (0 : Int) < data.length ∧ (data.length : Int) ≤ maxChunkSize :=
      ⟨positive, Int.not_lt.mp large⟩
    obtain ⟨next, written, represents, last⟩ := simulates.represents.push data fileOffset
    refine Or.inl ⟨_, _, _, next, rfl, ?_, represents, last, pushed h.cs⟩
    simp only [ChunkSpec.act, if_pos required, found, Option.bind_some, if_neg overflow, written]

/-- `FlushActive` changes nothing, or puts the buffer. -/
theorem flush_cases (simulates : Simulates maxChunkSize h s) (outcome : StoreOutcome) :
    (h.cs.activeDirty = true ∧ ∃ objects' cs', flushActive mapStore outcome h.objects h.cs =
        (objects', cs', true) ∧ cs'.activeBuf = h.cs.activeBuf ∧ cs'.activeDirty = false ∧
        Represents objects' cs' { s with chunkDirty := false }) ∨
      ∃ objects' done, flushActive mapStore outcome h.objects h.cs = (objects', h.cs, done) ∧
        (h.cs.activeDirty && done) = false ∧ Represents objects' h.cs s := by
  unfold flushActive
  split_ifs with clean
  · exact Or.inr ⟨_, _, rfl, by rw [clean, Bool.false_and], simulates.represents⟩
  · have put := simulates.represents.put h.cs.activeBuf
    cases outcome with
    | ok =>
        refine Or.inl ⟨Bool.not_eq_false _ ▸ clean, _, _, rfl, rfl, rfl, ?_⟩
        exact ⟨put.active, put.seq, rfl, put.buffer, put.behind, put.stored⟩
    | failedOld => exact Or.inr ⟨_, _, rfl, Bool.and_false _, simulates.represents⟩
    | failedNew => exact Or.inr ⟨_, _, rfl, Bool.and_false _, put⟩

/-- What a call leaves is represented, so it is simulated. -/
theorem of_call (simulates : Simulates maxChunkSize h s) (nonneg : 0 ≤ maxChunkSize)
    (call : MethodCall) {done : List Action} {next : State}
    (acted : Simulation.run (ChunkSpec.act maxChunkSize) s done = some next)
    (represents : Represents (call.run h).objects (call.run h).cs next)
    (unwritten : (call.run h).cs.activeBuf = [] → (call.run h).cs.activeDirty = false)
    (last : next.lastWrittenExtent = lastHanded (call.run h)) :
    Simulates maxChunkSize (call.run h) next := by
  have kept := Moves.kept (call.run_moves h) simulates.consistent
  refine ⟨represents, ?_, kept.consistent, kept.coherent simulates.coherent,
    kept.maxChunkSize.trans simulates.limit, unwritten, last⟩
  exact Simulation.run_invariant (fun _ _ _ holds stepped => holds.act nonneg stepped) acted
    simulates.invariant

/-- A call that fails or has nothing to do leaves the chunk store, and is no
action. -/
theorem of_idle (simulates : Simulates maxChunkSize h s) (nonneg : 0 ≤ maxChunkSize)
    (call : MethodCall) {objects' : Objects}
    (ran : call.run h = ⟨objects', h.cs, h.handed⟩) (idle : actions h call = [])
    (represents : Represents objects' h.cs s) :
    ∃ next, Simulation.run (ChunkSpec.act maxChunkSize) s (actions h call) = some next ∧
      Simulates maxChunkSize (call.run h) next := by
  have taken : Simulation.run (ChunkSpec.act maxChunkSize) s (actions h call) = some s := by
    rw [idle]
    rfl
  refine ⟨s, taken, simulates.of_call nonneg call taken ?_ ?_ ?_⟩ <;> rw [ran]
  · exact represents
  · exact simulates.unwritten
  · exact simulates.last

end Simulates

/-! ### Reads -/

/-- A range ends where it says, if a slice with its wrapped end succeeds. -/
theorem end_le_of_slice {bytes range : Bytes} {offset length : Int} (fits : IsInt64 offset)
    (fits' : IsInt64 length) (positive : 0 < length)
    (sliced : sliceBytes bytes offset (wrap64 (offset + length)) = some range) :
    0 ≤ offset ∧ offset + length ≤ bytes.length := by
  unfold sliceBytes at sliced
  split_ifs at sliced with inside
  unfold IsInt64 at fits fits'
  unfold wrap64 at inside
  omega

theorem end_le_of_readAt {bytes range : Bytes} {offset length : Int} (positive : 0 < length)
    (taken : readAt bytes offset length = some range) :
    0 ≤ offset ∧ offset + length ≤ bytes.length := by
  unfold readAt at taken
  split_ifs at taken with inside
  omega

/-- A range that is read lies within the content of its chunk. -/
theorem inside_of_read_ok {objects : Objects} {cs : ChunkStore} (coherent : Coherent objects cs)
    {id : Key} {offset length : Int} (fits : IsInt64 offset) (fits' : IsInt64 length)
    (positive : 0 < length) {data : Bytes}
    (answer : (ChunkStore.read mapStore true objects cs id offset length).2 = .ok data) :
    0 ≤ offset ∧ ∃ bytes, content objects cs id = some bytes ∧
      offset + length ≤ bytes.length := by
  by_cases isActive : id = cs.activeID
  · simp only [ChunkStore.read, if_pos isActive] at answer
    split_ifs at answer
    split at answer
    next range sliced =>
      obtain ⟨low, high⟩ := end_le_of_slice fits fits' positive sliced
      exact ⟨low, cs.activeBuf, by rw [isActive, content_active], high⟩
    next => cases answer
  · rw [content_of_ne isActive]
    simp only [ChunkStore.read, if_neg isActive] at answer
    cases enabled : cs.cache with
    | none =>
        simp only [enabled, mapStore_getRange] at answer
        split at answer
        next range found =>
          obtain ⟨object, stored, taken⟩ := Option.bind_eq_some_iff.mp found
          obtain ⟨low, high⟩ := end_le_of_readAt positive taken
          exact ⟨low, object, stored, high⟩
        next => cases answer
    | some files =>
        simp only [enabled, readRange_mapStore, fetchFullChunk_mapStore] at answer
        split at answer
        next range found =>
          obtain ⟨file, isCached, taken⟩ := Option.bind_eq_some_iff.mp found
          obtain ⟨object, stored, isPart⟩ := coherent files enabled id file isCached
          obtain ⟨low, high⟩ := end_le_of_readAt positive taken
          exact ⟨low, object, stored, high.trans (Int.ofNat_le.mpr isPart.length_le)⟩
        next =>
          cases stored : objects.get id with
          | none =>
              rw [stored] at answer
              cases answer
          | some object =>
              simp only [stored, if_true] at answer
              split at answer
              next range sliced =>
                obtain ⟨low, high⟩ := end_le_of_slice fits fits' positive sliced
                exact ⟨low, object, rfl, high⟩
              next => cases answer

/-- A read succeeds within the content of a chunk, and nowhere else. -/
theorem read_ok_iff {objects : Objects} {cs : ChunkStore} (coherent : Coherent objects cs)
    {id : Key} {offset length : Int} (fits : IsInt64 offset) (fits' : IsInt64 length)
    (positive : 0 < length)
    (small : ∀ bytes, content objects cs id = some bytes → IsInt64 bytes.length) :
    (∃ data, (ChunkStore.read mapStore true objects cs id offset length).2 = .ok data) ↔
      0 ≤ offset ∧ ∃ bytes, content objects cs id = some bytes ∧
        offset + length ≤ bytes.length := by
  constructor
  · rintro ⟨data, answer⟩
    exact inside_of_read_ok coherent fits fits' positive answer
  · rintro ⟨low, bytes, found, high⟩
    -- The content splits around the range.
    have whole : bytes.take offset.toNat ++ (bytes.drop offset.toNat).take length.toNat ++
        (bytes.drop offset.toNat).drop length.toNat = bytes := by
      rw [List.append_assoc, List.take_append_drop, List.take_append_drop]
    have atStart : ((bytes.take offset.toNat).length : Int) = offset := by
      rw [List.length_take]
      omega
    have inside : (((bytes.drop offset.toNat).take length.toNat).length : Int) = length := by
      rw [List.length_take, List.length_drop]
      omega
    have limit := small bytes found
    rw [← whole] at found
    have answer := read_of_content coherent found (by
      rw [atStart, inside]
      unfold IsInt64 at limit ⊢
      omega)
    rw [atStart, inside] at answer
    exact ⟨_, answer⟩

namespace Simulates

variable {maxChunkSize : Int} {h : History} {s : State}

/-- The content of a chunk has the size that the machine gives it. -/
theorem size_of_content (simulates : Simulates maxChunkSize h s) {id : Key} {bytes : Bytes}
    (found : content h.objects h.cs id = some bytes) :
    ∃ chunk, s.chunks.get id = some chunk ∧ chunk.size = bytes.length := by
  by_cases isActive : id = h.cs.activeID
  · rw [isActive, content_active] at found
    cases found
    rw [isActive]
    exact ⟨_, simulates.represents.buffer, rfl⟩
  · rw [content_of_ne isActive] at found
    have there : h.objects.get id ≠ none := by
      rw [found]
      exact Option.some_ne_none _
    obtain ⟨chunk, isChunk⟩ := Option.ne_none_iff_exists'.mp (simulates.represents.stored id there)
    refine ⟨chunk, isChunk, ?_⟩
    rw [simulates.represents.behind id chunk isActive isChunk, found]
    rfl

/-- A read succeeds where `readRange` is enabled, and nowhere else. -/
theorem read_iff (simulates : Simulates maxChunkSize h s) (limit : IsInt64 maxChunkSize) {id : Key}
    {offset length : Int} (fits : IsInt64 offset) (fits' : IsInt64 length)
    (positive : 0 < length) :
    (∃ data, (ChunkStore.read mapStore true h.objects h.cs id offset length).2 = .ok data) ↔
      ChunkSpec.act maxChunkSize s (.readRange id offset length) = some s := by
  have small : ∀ bytes, content h.objects h.cs id = some bytes → IsInt64 bytes.length := by
    intro bytes found
    obtain ⟨chunk, isChunk, size⟩ := simulates.size_of_content found
    have bound := simulates.invariant.withinBound id chunk isChunk
    rw [size] at bound
    unfold IsInt64 at limit ⊢
    omega
  rw [read_ok_iff simulates.coherent fits fits' positive small]
  simp only [ChunkSpec.act, Option.bind_eq_some_iff]
  constructor
  · rintro ⟨low, bytes, found, high⟩
    obtain ⟨chunk, isChunk, size⟩ := simulates.size_of_content found
    exact ⟨chunk, isChunk, if_pos ⟨low, positive, size ▸ high⟩⟩
  · rintro ⟨chunk, isChunk, enabled⟩
    split_ifs at enabled with range
    obtain ⟨low, -, high⟩ := range
    refine ⟨low, ?_⟩
    by_cases isActive : id = h.cs.activeID
    · rw [isActive, simulates.represents.buffer] at isChunk
      cases isChunk
      exact ⟨_, by rw [isActive, content_active], high⟩
    · have size := simulates.represents.behind id chunk isActive isChunk
      rw [content_of_ne isActive]
      cases stored : h.objects.get id with
      | none =>
          -- A chunk without an object has no bytes to read.
          rw [stored] at size
          simp only [Option.getD_none, List.length_nil, Nat.cast_zero] at size
          omega
      | some object =>
          rw [stored] at size
          exact ⟨object, rfl, size ▸ high⟩

/-- The specification takes the actions of a call and simulates what the call leaves. -/
def Answers (maxChunkSize : Int) (h : History) (s : State) (call : MethodCall) : Prop :=
  ∃ next, Simulation.run (ChunkSpec.act maxChunkSize) s (actions h call) = some next ∧
    Simulates maxChunkSize (call.run h) next

theorem append (simulates : Simulates maxChunkSize h s) (limit : 0 ≤ maxChunkSize) {data : Bytes}
    (nonempty : data ≠ []) (fileOffset : Int) (outcome : StoreOutcome) (cached : Bool) :
    Answers maxChunkSize h s (.append data fileOffset outcome cached) := by
  rcases simulates.append_cases nonempty fileOffset outcome cached with
    ⟨objects', cs', ext, next, appended, acted, represents, last, grown⟩ |
    ⟨objects', failure, failed, represents⟩
  · have ran : MethodCall.run h (.append data fileOffset outcome cached) =
        ⟨objects', cs', ⟨data, ext⟩ :: h.handed⟩ := by
      simp only [MethodCall.run, appended]
    have taken : Simulation.run (ChunkSpec.act maxChunkSize) s
        (actions h (.append data fileOffset outcome cached)) = some next := by
      simp only [actions, appended, Simulation.run, acted, Option.bind_some]
    refine ⟨next, taken, simulates.of_call limit _ taken ?_ ?_ ?_⟩ <;> rw [ran]
    · exact represents
    · exact fun empty => absurd empty grown
    · exact last
  · refine simulates.of_idle limit _ ?_ ?_ represents
    · simp only [MethodCall.run, failed]
    · simp only [actions, failed]

theorem sealing (simulates : Simulates maxChunkSize h s) (limit : 0 ≤ maxChunkSize)
    (outcome : StoreOutcome) (cached : Bool) :
    Answers maxChunkSize h s (.sealing outcome cached) := by
  rcases simulates.seal_cases outcome cached with
    ⟨objects', cs', next, closed, rotated, represents, last, clean⟩ |
    ⟨objects', failure, failed, represents⟩
  · have ran : MethodCall.run h (.sealing outcome cached) = ⟨objects', cs', h.handed⟩ := by
      simp only [MethodCall.run, closed]
    have taken : Simulation.run (ChunkSpec.act maxChunkSize) s
        (actions h (.sealing outcome cached)) = some next := by
      simp only [actions, closed, Simulation.run, ChunkSpec.act, rotated, Option.bind_some]
    refine ⟨next, taken, simulates.of_call limit _ taken ?_ ?_ ?_⟩ <;> rw [ran]
    · exact represents
    · exact fun _ => clean
    · exact last.trans simulates.last
  · refine simulates.of_idle limit _ ?_ ?_ represents
    · simp only [MethodCall.run, failed]
    · simp only [actions, failed]

theorem flush (simulates : Simulates maxChunkSize h s) (limit : 0 ≤ maxChunkSize)
    (outcome : StoreOutcome) : Answers maxChunkSize h s (.flush outcome) := by
  rcases simulates.flush_cases outcome with
    ⟨dirty, objects', cs', flushed, sameBuf, clean, represents⟩ |
    ⟨objects', done, flushed, idle, represents⟩
  · have ran : MethodCall.run h (.flush outcome) = ⟨objects', cs', h.handed⟩ := by
      simp only [MethodCall.run, flushed]
    have isDirty : s.chunkDirty = true := simulates.represents.dirty.trans dirty
    have taken : Simulation.run (ChunkSpec.act maxChunkSize) s (actions h (.flush outcome)) =
        some { s with chunkDirty := false } := by
      simp only [actions, flushed, dirty, Bool.and_self, if_true, Simulation.run, ChunkSpec.act,
        isDirty, Option.bind_some]
    refine ⟨_, taken, simulates.of_call limit _ taken ?_ ?_ ?_⟩ <;> rw [ran]
    · exact represents
    · exact fun _ => clean
    · exact simulates.last
  · refine simulates.of_idle limit _ ?_ ?_ represents
    · simp only [MethodCall.run, flushed]
    · simp only [actions, flushed, idle, Bool.false_eq_true, if_false]

theorem read (simulates : Simulates maxChunkSize h s)
    (limit : 0 ≤ maxChunkSize ∧ IsInt64 maxChunkSize) {id : Key} {offset length : Int}
    (fits : IsInt64 offset) (fits' : IsInt64 length) :
    Answers maxChunkSize h s (.read id offset length) := by
  obtain ⟨cache, same⟩ := read_cache_only true h.objects h.cs id offset length
  have taken : Simulation.run (ChunkSpec.act maxChunkSize) s
      (actions h (.read id offset length)) = some s := by
    simp only [actions]
    split
    next data answer =>
      split_ifs with positive
      · have enabled := (simulates.read_iff limit.2 fits fits' positive).mp
          ⟨data, answer⟩
        simp only [Simulation.run, enabled, Option.bind_some]
      · rfl
    next => rfl
  have ran : MethodCall.run h (.read id offset length) =
      ⟨h.objects, { h.cs with cache := cache }, h.handed⟩ := by
    simp only [MethodCall.run, same]
  refine ⟨s, taken, simulates.of_call limit.1 _ taken ?_ ?_ ?_⟩ <;> rw [ran]
  · have represents := simulates.represents
    exact ⟨represents.active, represents.seq, represents.dirty, represents.buffer,
      represents.behind, represents.stored⟩
  · exact simulates.unwritten
  · exact simulates.last

/-- One call is its actions. -/
theorem step (simulates : Simulates maxChunkSize h s)
    (limit : 0 ≤ maxChunkSize ∧ IsInt64 maxChunkSize) {call : MethodCall} (covered : Covered call) :
    Answers maxChunkSize h s call := by
  cases call with
  | append data fileOffset outcome cached =>
      exact simulates.append limit.1 covered fileOffset outcome cached
  | sealing outcome cached => exact simulates.sealing limit.1 outcome cached
  | flush outcome => exact simulates.flush limit.1 outcome
  | read id offset length => exact simulates.read limit covered.1 covered.2

/-- A new chunk store is the initial state. -/
theorem opened (limit : 0 ≤ maxChunkSize ∧ IsInt64 maxChunkSize) (cacheDir : Bool) :
    Simulates maxChunkSize (History.opened maxChunkSize cacheDir) init := by
  have opens := History.opened_opens limit cacheDir
  have fields : (History.opened maxChunkSize cacheDir).cs.activeID = chunkID 0 ∧
      (History.opened maxChunkSize cacheDir).cs.nextSeq = 1 ∧
      (History.opened maxChunkSize cacheDir).cs.maxChunkSize = maxChunkSize := by
    cases cacheDir <;> exact ⟨rfl, rfl, rfl⟩
  obtain ⟨activeID, nextSeq, same⟩ := fields
  refine ⟨⟨activeID.symm, nextSeq.symm, opens.clean.symm, ?_, fun id chunk other found => ?_,
    fun id there => absurd rfl there⟩, init_invariant limit.1, opens.consistent, opens.coherent,
    same, fun _ => opens.clean, rfl⟩
  · rw [opens.empty, activeID]
    exact GoMap.get_set_self _ _ _
  · rw [activeID] at other
    have none : init.chunks.get id = none := GoMap.get_set_ne _ _ other
    rw [none] at found
    cases found

end Simulates

/-! ### The refinement -/

/-- Every run of the chunk store's methods is a run of the specification: the calls
that succeed are its actions in their order, the others are none, the state reached
is the one the chunk store and its objects represent and has the specification's
invariants but `nextChunkSeqBound`, which it breaks, and a range can then be read
exactly where `readRange` is enabled. -/
theorem chunk_store_refines_specification {maxChunkSize : Int}
    (limit : 0 ≤ maxChunkSize ∧ IsInt64 maxChunkSize) (cacheDir : Bool) {calls : List MethodCall}
    (covered : ∀ call ∈ calls, Covered call) {h : History}
    (ran : Simulation.run callStep (History.opened maxChunkSize cacheDir) calls = some h) :
    ∃ s, Simulation.run (act maxChunkSize) init
        (Simulation.trace callStep actions (History.opened maxChunkSize cacheDir) calls) = some s ∧
      Represents h.objects h.cs s ∧ Invariant maxChunkSize s ∧ ¬ nextChunkSeqBound s ∧
      s.lastWrittenExtent = lastHanded h ∧
      ∀ id offset length, IsInt64 offset → IsInt64 length → 0 < length →
        ((∃ data, (ChunkStore.read mapStore true h.objects h.cs id offset length).2 = .ok data) ↔
          act maxChunkSize s (.readRange id offset length) = some s) := by
  have stepwise : ∀ h call next s, Covered call → Simulates maxChunkSize h s →
      callStep h call = some next →
      ∃ s', Simulation.run (act maxChunkSize) s (actions h call) = some s' ∧
        Simulates maxChunkSize next s' := by
    intro h call next s covers simulates taken
    cases taken
    exact simulates.step limit covers
  obtain ⟨s, acted, simulates⟩ :=
    Simulation.run_trace stepwise covered (Simulates.opened limit cacheDir) ran
  exact ⟨s, acted, simulates.represents, simulates.invariant,
    simulates.invariant.not_nextChunkSeqBound, simulates.last,
    fun id offset length fits fits' positive => simulates.read_iff limit.2 fits fits' positive⟩

/-- A flush, a rotation that fails, a `Seal` that fails, and a rotation. -/
def rotatingCalls : List MethodCall :=
  [.append [1, 2] 0 .ok true, .flush .ok, .append [3] 7 .ok true, .append [4, 5] 0 .failedNew true,
    .sealing .failedOld true, .append [4, 5] 2 .ok false, .read (chunkID 0) 0 3]

/-- The two failures are no actions. -/
theorem chunk_store_refines_specification_rotating :
    ∃ h s, Simulation.run callStep (History.opened 4 true) rotatingCalls = some h ∧
      Simulation.run (act 4) init [.appendData 2 0, .flushActive, .appendData 1 7, .appendData 2 2,
        .readRange (chunkID 0) 0 3] = some s ∧
      Represents h.objects h.cs s ∧ Invariant 4 s ∧ ¬ nextChunkSeqBound s ∧
      s.lastWrittenExtent = lastHanded h := by
  have covered : ∀ call ∈ rotatingCalls, Covered call := by decide +kernel
  have traced : Simulation.trace callStep actions (History.opened 4 true) rotatingCalls =
      [.appendData 2 0, .flushActive, .appendData 1 7, .appendData 2 2,
        .readRange (chunkID 0) 0 3] := by decide +kernel
  have finishes : (Simulation.run callStep (History.opened 4 true) rotatingCalls).isSome := by
    decide +kernel
  obtain ⟨h, ran⟩ := Option.isSome_iff_exists.mp finishes
  obtain ⟨s, acted, represents, invariant, unbounded, last, -⟩ :=
    chunk_store_refines_specification (by decide) true covered ran
  rw [traced] at acted
  exact ⟨h, s, ran, acted, represents, invariant, unbounded, last⟩

/-- An `Append` of no bytes would be outside: it raises the flag over an empty
buffer, so that the next flush puts an empty object. -/
example : (MethodCall.run (MethodCall.run (History.opened 4 true) (.append [] 0 .ok true))
    (.flush .ok)).objects.get (chunkID 0) = some [] := by decide +kernel

end ChunkSpec

end Fusey
