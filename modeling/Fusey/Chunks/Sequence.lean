import Fusey.Chunks.ChunkStore

/-!
Contract: the chunk numbers a process takes after `RecoverNextSeq`
(`internal/chunks/chunk_store.go`).

Owns:
- the number at which a process starts when the store lists given IDs;
- the IDs minted by any sequence of `Append` and `Seal` calls, over any store and
  with any failures;
- that they are fresh exactly when no listed chunk number has more than the eight
  digits `Sscanf` reads.
-/

set_option autoImplicit false

namespace Fusey

open ChunkStore

/-! ### The recovered chunk number -/

/-- The number of the active chunk after `RecoverNextSeq` has listed `ids`. -/
def recoveredSeq (ids : List Key) : Nat := (maxSeq ids + 1).toNat

/-- `RecoverNextSeq` on a new chunk store. -/
theorem recoverNextSeq_new (maxChunkSize : Int) (ids : List Key) :
    (ChunkStore.new maxChunkSize).recoverNextSeq ids =
      { ChunkStore.new maxChunkSize with
        activeID := chunkID (recoveredSeq ids)
        nextSeq := recoveredSeq ids + 1 } := by
  have low := neg_one_le_maxSeq ids
  unfold recoverNextSeq recoveredSeq
  split_ifs with none
  · have isNone : maxSeq ids = -1 := by omega
    rw [isNone]
    rfl
  · have next : (maxSeq ids + 2).toNat = (maxSeq ids + 1).toNat + 1 := by omega
    rw [next]

/-- Numbers of at most eight digits are read back. -/
theorem lt_recoveredSeq {ids : List Key} {seq : Nat} (listed : chunkID seq ∈ ids)
    (small : seq < 100000000) : seq < recoveredSeq ids := by
  have := le_maxSeq listed (scanChunkID_chunkID small)
  unfold recoveredSeq
  omega

/-- No list takes the start past nine digits. -/
theorem recoveredSeq_le (ids : List Key) : recoveredSeq ids ≤ 100000000 := by
  have := maxSeq_lt ids
  unfold recoveredSeq
  omega

/-! ### Minted IDs -/

/-- A call that may rotate the active chunk, with what the store and the disk do. -/
inductive RotatingCall where
  | append (data : Bytes) (fileOffset : Int) (outcome : StoreOutcome) (cached : Bool)
  | sealActive (outcome : StoreOutcome) (cached : Bool)
deriving DecidableEq

section Minting

variable {σ : Type} (store : Store σ)

def RotatingCall.apply : RotatingCall → σ → ChunkStore → σ × ChunkStore
  | .append data fileOffset outcome cached, s, cs =>
      let after := cs.append store outcome cached s data fileOffset
      (after.1, after.2.1)
  | .sealActive outcome cached, s, cs =>
      let after := cs.sealActive store outcome cached s
      (after.1, after.2.1)

/-- The IDs that a sequence of calls mints, in order: the new active ID each time
the counter is used. -/
def mintedIDs : List RotatingCall → σ → ChunkStore → List Key
  | [], _, _ => []
  | call :: rest, s, cs =>
      let after := call.apply store s cs
      (if after.2.nextSeq = cs.nextSeq then [] else [after.2.activeID]) ++
        mintedIDs rest after.1 after.2

/-- A call uses the counter once, or not at all. -/
theorem RotatingCall.apply_cases (call : RotatingCall) (s : σ) (cs : ChunkStore) :
    let after := (call.apply store s cs).2
    after.nextSeq = cs.nextSeq ∨
      after.nextSeq = cs.nextSeq + 1 ∧ after.activeID = chunkID cs.nextSeq := by
  have sealing : ∀ outcome cached,
      let after := (cs.sealActive store outcome cached s).2.1
      after.nextSeq = cs.nextSeq ∨
        after.nextSeq = cs.nextSeq + 1 ∧ after.activeID = chunkID cs.nextSeq := by
    intro outcome cached
    unfold ChunkStore.sealActive
    by_cases empty : cs.activeBuf = []
    · rw [if_pos empty]
      exact Or.inr ⟨rfl, rfl⟩
    · rw [if_neg empty]
      rcases store.tryPut outcome s cs.activeID cs.activeBuf with ⟨s', _ | _⟩
      · exact Or.inl rfl
      · exact Or.inr ⟨rfl, rfl⟩
  cases call with
  | sealActive outcome cached => exact sealing outcome cached
  | append data fileOffset outcome cached =>
      dsimp only [RotatingCall.apply]
      unfold ChunkStore.append
      split_ifs with large full
      · exact Or.inl rfl
      · have rotated := sealing outcome cached
        revert rotated
        rcases cs.sealActive store outcome cached s with ⟨s', cs', _ | _⟩
        · exact id
        · exact id
      · exact Or.inl rfl

/-- The minted IDs are those of consecutive numbers. -/
theorem mintedIDs_eq (calls : List RotatingCall) (s : σ) (cs : ChunkStore) :
    ∃ count, mintedIDs store calls s cs = (List.range' cs.nextSeq count).map chunkID := by
  induction calls generalizing s cs with
  | nil => exact ⟨0, rfl⟩
  | cons call rest inductionHypothesis =>
      obtain ⟨count, later⟩ := inductionHypothesis (call.apply store s cs).1
        (call.apply store s cs).2
      unfold mintedIDs
      dsimp only
      rw [later]
      rcases call.apply_cases store s cs with same | ⟨next, active⟩
      · refine ⟨count, ?_⟩
        rw [if_pos same, List.nil_append, same]
      · refine ⟨count + 1, ?_⟩
        rw [if_neg (by omega), active, next, List.range'_succ, List.map_cons, List.singleton_append]

/-- Empty chunks can be sealed as often as one likes. -/
theorem mintedIDs_seals (count : Nat) (s : σ) {cs : ChunkStore} (empty : cs.activeBuf = []) :
    mintedIDs store (List.replicate count (.sealActive .ok true)) s cs =
      (List.range' cs.nextSeq count).map chunkID := by
  induction count generalizing cs with
  | zero => rfl
  | succ count inductionHypothesis =>
      have rotated : RotatingCall.apply store (.sealActive .ok true) s cs = (s, cs.rotate) := by
        dsimp only [RotatingCall.apply]
        unfold ChunkStore.sealActive
        rw [if_pos empty]
      have used : ¬ cs.rotate.nextSeq = cs.nextSeq := Nat.succ_ne_self cs.nextSeq
      rw [List.replicate_succ, mintedIDs, rotated]
      dsimp only
      have rest := inductionHypothesis (show cs.rotate.activeBuf = [] from empty)
      rw [if_neg used, rest, List.range'_succ, List.map_cons]
      rfl

end Minting

/-- After `RecoverNextSeq` the active ID and all IDs minted later differ from each
other and from every listed ID, exactly if no listed ID is that of a number with
more than eight digits. -/
theorem recovered_ids_fresh_iff {σ : Type} (store : Store σ) (s : σ) (maxChunkSize : Int)
    (cache : Option Objects) (ids : List Key) :
    let cs := { (ChunkStore.new maxChunkSize).recoverNextSeq ids with cache := cache }
    (∀ calls, (cs.activeID :: mintedIDs store calls s cs).Nodup ∧
        ∀ id ∈ cs.activeID :: mintedIDs store calls s cs, id ∉ ids) ↔
      ∀ seq, 100000000 ≤ seq → chunkID seq ∉ ids := by
  intro cs
  have recovered : cs = { ChunkStore.new maxChunkSize with
      cache := cache, activeID := chunkID (recoveredSeq ids),
      nextSeq := recoveredSeq ids + 1 } := by
    simp only [cs, recoverNextSeq_new]
  have active : cs.activeID = chunkID (recoveredSeq ids) := by rw [recovered]
  have next : cs.nextSeq = recoveredSeq ids + 1 := by rw [recovered]
  have minted : ∀ count, chunkID (recoveredSeq ids) ::
      (List.range' (recoveredSeq ids + 1) count).map chunkID =
        (List.range' (recoveredSeq ids) (count + 1)).map chunkID := by
    intro count
    rw [List.range'_succ, List.map_cons]
  constructor
  · intro fresh seq long listed
    -- Sealing empty chunks reaches the number.
    have low := recoveredSeq_le ids
    have empty : cs.activeBuf = [] := by
      rw [recovered]
      rfl
    refine (fresh (List.replicate (seq - recoveredSeq ids) (.sealActive .ok true))).2
      (chunkID seq) ?_ listed
    rw [mintedIDs_seals store _ s empty, active, next, minted]
    refine List.mem_map.mpr ⟨seq, List.mem_range'_1.mpr ⟨by omega, by omega⟩, rfl⟩
  · intro short calls
    obtain ⟨count, later⟩ := mintedIDs_eq store calls s cs
    rw [later, active, next, minted]
    refine ⟨(List.nodup_range').map chunkID_injective, ?_⟩
    intro id member listed
    obtain ⟨seq, inRange, rfl⟩ := List.mem_map.mp member
    have above := (List.mem_range'_1.mp inRange).1
    by_cases small : seq < 100000000
    · exact absurd (lt_recoveredSeq listed small) (Nat.not_lt.mpr above)
    · exact short seq (Nat.not_lt.mp small) listed

/-- The number that follows the last one of eight digits is listed, and is taken
again at once. -/
theorem nine_digit_id_reused :
    ((ChunkStore.new 8).recoverNextSeq [chunkID 99999999, chunkID 100000000]).activeID ∈
      [chunkID 99999999, chunkID 100000000] := by
  decide +kernel

end Fusey
