import Fusey.Compaction.Preservation
import Fusey.Compaction.Relocation
import Mathlib.Algebra.BigOperators.Group.Finset.Basic
import Mathlib.Algebra.Order.BigOperators.Group.Finset
import Mathlib.Algebra.Order.Field.Rat
import Mathlib.Algebra.Order.Ring.Cast
import Mathlib.Order.WithBot

/-!
Contract: the end state of a compaction cycle.

Owns:
- the orphan fraction as `Compact` computes it and the bytes of a chunk that no
  live extent has;
- that one complete cycle leaves only chunks below the threshold, that what it
  writes has no orphaned bytes and keeps the size limit, and that the orphaned
  bytes do not grow;
- that the next cycle has nothing to do, and that a complete cycle behind one
  that stopped anywhere ends in the same way.

`float64` enters as two monotone maps that are exact at zero and one.
-/

set_option autoImplicit false

namespace Fusey

open GoInt Interleaving

/-- The byte at `p` of its chunk is one of the extent's. -/
def Extent.SpansByte (e : Extent) (p : Int) : Prop :=
  e.chunkOffset ≤ p ∧ p < e.chunkOffset + e.length

instance (e : Extent) (p : Int) : Decidable (e.SpansByte p) := by
  unfold Extent.SpansByte
  infer_instance

namespace Compaction

/-! ### The orphan fraction -/

/-- The conversion of an `int64` to `float64` and the rounding of a quotient. -/
structure Rounding where
  ofInt : Int → ℚ
  round : ℚ → ℚ
  ofInt_mono : ∀ {m n : Int}, m ≤ n → ofInt m ≤ ofInt n
  round_mono : ∀ {p q : ℚ}, p ≤ q → round p ≤ round q
  ofInt_zero : ofInt 0 = 0
  ofInt_one : ofInt 1 = 1
  round_zero : round 0 = 0
  round_one : round 1 = 1

/-- Exact arithmetic. -/
def Rounding.exact : Rounding where
  ofInt n := n
  round q := q
  ofInt_mono le := Int.cast_le.mpr le
  round_mono le := le
  ofInt_zero := Int.cast_zero
  ofInt_one := Int.cast_one
  round_zero := rfl
  round_one := rfl

/-- `float64(total-live) / float64(total)`. -/
def orphanFraction (float : Rounding) (total live : Int) : ℚ :=
  float.round (float.ofInt (wrap64 (total - live)) / float.ofInt total)

/-- A `Compactor` with a threshold, which may be infinite. -/
def thresholdParams (float : Rounding) (threshold : WithTop ℚ) (chunkSize : Int)
    (clock : Nat → Nat) : Params where
  heavy total live := decide (threshold ≤ (orphanFraction float total live : ℚ))
  chunkSize := chunkSize
  clock := clock

section Fraction

variable {float : Rounding} {threshold : WithTop ℚ} {total live : Int}

theorem Rounding.ofInt_pos (float : Rounding) {n : Int} (positive : 0 < n) : 0 < float.ofInt n := by
  have one := float.ofInt_mono (show (1 : Int) ≤ n from positive)
  rw [float.ofInt_one] at one
  exact lt_of_lt_of_le one_pos one

/-- A chunk that is all live has no orphans. -/
theorem orphanFraction_self (float : Rounding) (total : Int) :
    orphanFraction float total total = 0 := by
  have nothing : wrap64 (total - total) = 0 := by
    rw [sub_self]
    rfl
  rw [orphanFraction, nothing, float.ofInt_zero, zero_div, float.round_zero]

/-- A chunk without live bytes is all orphans. -/
theorem orphanFraction_zero (float : Rounding) (positive : 0 < total)
    (typed : total < 9223372036854775808) : orphanFraction float total 0 = 1 := by
  have all : wrap64 (total - 0) = total := by
    rw [sub_zero]
    exact wrap64_of_nonneg positive.le typed
  rw [orphanFraction, all, div_self (float.ofInt_pos positive).ne', float.round_one]

/-- Above a positive threshold there are orphans. -/
theorem orphans_of_heavy (positive : 0 < threshold) (nonempty : 0 < total)
    (heavy : threshold ≤ (orphanFraction float total live : ℚ)) : 0 < wrap64 (total - live) := by
  by_contra none
  have low : float.ofInt (wrap64 (total - live)) ≤ 0 :=
    (float.ofInt_mono (Int.not_lt.mp none)).trans_eq float.ofInt_zero
  have fraction : orphanFraction float total live ≤ 0 :=
    (float.round_mono (div_nonpos_of_nonpos_of_nonneg low (float.ofInt_pos nonempty).le)).trans_eq
      float.round_zero
  exact absurd (positive.trans_le (heavy.trans (WithTop.coe_le_coe.mpr fraction))) (lt_irrefl _)

end Fraction

/-! ### Orphaned bytes -/

/-- The bytes of a stored chunk that no live extent has. -/
def orphaned (objects : Objects) (live : List Extent) (id : Key) : Nat :=
  ((objects.get id).map fun object =>
    (List.range object.length).countP fun p : Nat =>
      decide (∀ e ∈ liveIn live id, ¬ e.SpansByte p)).getD 0

/-- The same as `Compact` counts it: `total - live`. -/
def unaccounted (objects : Objects) (live : List Extent) (id : Key) : Int :=
  ((objects.get id).map fun object =>
    wrap64 ((object.length : Int) - liveBytes live id)).getD 0

/-- A chunk as `Compact` writes it: its live extents fill it, and there is only
one of them if it exceeds the limit. -/
structure Tidy (chunkSize : Int) (object : Bytes) (exts : List Extent) : Prop where
  nonempty : object ≠ []
  full : (exts.map Extent.length).sum = object.length
  spanned : ∀ p : Nat, p < object.length → ∃ e ∈ exts, e.SpansByte p
  limited : (object.length : Int) ≤ chunkSize ∨ exts.length = 1

section Chunks

variable {params : Params} {objects objects' : Objects} {live live' : List Extent} {id : Key}
  {object : Bytes} {chunkSize : Int}

theorem Tidy.perm {exts exts' : List Extent} (tidy : Tidy chunkSize object exts)
    (same : exts'.Perm exts) : Tidy chunkSize object exts' where
  nonempty := tidy.nonempty
  full := ((same.map _).sum_eq).trans tidy.full
  spanned := fun p below => by
    obtain ⟨e, member, spans⟩ := tidy.spanned p below
    exact ⟨e, same.mem_iff.mpr member, spans⟩
  limited := tidy.limited.imp_right same.length_eq.trans

theorem Tidy.orphaned (tidy : Tidy chunkSize object (liveIn live id))
    (stored : objects.get id = some object) : orphaned objects live id = 0 := by
  rw [Compaction.orphaned, stored, Option.map_some, Option.getD_some, List.countP_eq_zero]
  intro p below free
  obtain ⟨e, member, spans⟩ := tidy.spanned p (List.mem_range.mp below)
  exact of_decide_eq_true free e member spans

theorem Tidy.liveBytes (tidy : Tidy chunkSize object (liveIn live id))
    (typed : (object.length : Int) < 9223372036854775808) : liveBytes live id = object.length := by
  rw [liveBytes_eq, tidy.full]
  exact wrap64_of_nonneg (Int.natCast_nonneg _) typed

theorem Tidy.unaccounted (tidy : Tidy chunkSize object (liveIn live id))
    (typed : (object.length : Int) < 9223372036854775808) (stored : objects.get id = some object) :
    unaccounted objects live id = 0 := by
  rw [Compaction.unaccounted, stored, Option.map_some, Option.getD_some, tidy.liveBytes typed,
    sub_self]
  rfl

theorem orphaned_perm (same : (liveIn live' id).Perm (liveIn live id))
    (stored : objects'.get id = objects.get id) :
    orphaned objects' live' id = orphaned objects live id := by
  have spans : ∀ p : Int, (∀ e ∈ liveIn live' id, ¬ e.SpansByte p) ↔
      ∀ e ∈ liveIn live id, ¬ e.SpansByte p := by
    intro p
    simp only [same.mem_iff]
  simp only [orphaned, stored, spans]

theorem unaccounted_perm (same : (liveIn live' id).Perm (liveIn live id))
    (stored : objects'.get id = objects.get id) :
    unaccounted objects' live' id = unaccounted objects live id := by
  rw [unaccounted, unaccounted, stored, liveBytes_perm same]

theorem chosenAt_perm (same : (liveIn live' id).Perm (liveIn live id))
    (stored : objects'.get id = objects.get id) :
    chosenAt params live' objects' id = chosenAt params live objects id := by
  rw [chosenAt, chosenAt, mapStore_size, mapStore_size, stored]
  cases objects.get id with
  | none => rfl
  | some object => simp only [Option.map_some, selects, liveBytes_perm same]

/-- What an output becomes. -/
theorem Moves.tidy {cs : ChunkStore} {targets : List Key} {packing : Packing}
    (moves : Moves params cs objects live targets packing)
    (ready : Packable params cs objects live) {output : OutputChunk}
    (member : output ∈ packing.outputs) (typed : (output.buf.length : Int) < 9223372036854775808) :
    Tidy params.chunkSize output.buf (liveIn (live.map (relocate packing)) output.id) := by
  obtain ⟨isOutput, nonempty⟩ := mem_outputs.mp member
  obtain ⟨slots, places, tiled⟩ := moves.tiledFor.2
  obtain ⟨k, named⟩ := moves.tiledFor.1.output_id isOutput
  have tiles := tiled.tiles output isOutput
  refine Tidy.perm ⟨nonempty, ?_, ?_, ?_⟩ (moves.liveIn_output ready places tiled named)
  · have stop := tiles.stop_eq
    omega
  · intro p below
    exact tiles.covers (Int.natCast_nonneg p) (by omega)
  · refine (tiled.limited output isOutput typed).imp_right fun atMost => ?_
    -- An output with bytes has a place.
    have length : (placesIn slots output.id).length ≠ 0 := by
      intro none
      rw [List.length_eq_zero_iff.mp none] at tiles
      have empty : (0 : Int) = output.buf.length := tiles
      exact nonempty (List.length_eq_zero_iff.mp (by omega))
    omega

end Chunks

/-! ### What becomes of each chunk -/

/-- How the sealed chunks after some cycles come from those before: they were
there and were not to be targets, or they were written; what is gone was to be a
target. -/
structure Tidied (params : Params) (cs : ChunkStore) (objects : Objects) (live : List Extent)
    (cs' : ChunkStore) (objects' : Objects) (live' : List Extent) : Prop where
  chunks : ∀ id ∈ cs'.listSealed mapStore objects', ∀ object, objects'.get id = some object →
    (objects.get id = some object ∧ id ∈ cs.listSealed mapStore objects ∧
        (liveIn live' id).Perm (liveIn live id) ∧ chosenAt params live objects id = false) ∨
      (objects.get id = none ∧ Tidy params.chunkSize object (liveIn live' id))
  gone : ∀ id ∈ cs.listSealed mapStore objects, id ∉ cs'.listSealed mapStore objects' →
    chosenAt params live objects id = true

/-- The same after a cycle that stopped: there may also be chunks without live
extents, which were to be targets if they were there before. -/
structure Interrupted (params : Params) (cs : ChunkStore) (objects : Objects) (live : List Extent)
    (cs' : ChunkStore) (objects' : Objects) (live' : List Extent) : Prop where
  chunks : ∀ id ∈ cs'.listSealed mapStore objects', ∀ object, objects'.get id = some object →
    (objects.get id = some object ∧ id ∈ cs.listSealed mapStore objects ∧
        (liveIn live' id).Perm (liveIn live id)) ∨
      (objects.get id = none ∧ Tidy params.chunkSize object (liveIn live' id)) ∨
      (liveIn live' id = [] ∧
        (id ∈ cs.listSealed mapStore objects → chosenAt params live objects id = true))
  gone : ∀ id ∈ cs.listSealed mapStore objects, id ∉ cs'.listSealed mapStore objects' →
    chosenAt params live objects id = true

/-- The chunk store goes on, or a new one begins; neither the old nor the new
one then has an open chunk. -/
def Reopens (cs : ChunkStore) (objects : Objects) (cs' : ChunkStore) (objects' : Objects) : Prop :=
  (cs'.activeID = cs.activeID ∧ cs'.activeBuf = cs.activeBuf) ∨
    (cs.activeBuf = [] ∧ objects.get cs.activeID = none ∧
      cs'.activeBuf = [] ∧ objects'.get cs'.activeID = none)

section Chunkwise

variable {params params' : Params} {cs cs' : ChunkStore} {objects objects' objects'' : Objects}
  {idx idx' idx'' : Index} {order order' order'' : List (Ino × List Extent)}

theorem Reopens.refl (cs : ChunkStore) (objects objects' : Objects) :
    Reopens cs objects cs objects' :=
  Or.inl ⟨rfl, rfl⟩

/-- A chunk that is sealed now and was there was sealed. -/
theorem Reopens.sealed_before (reopens : Reopens cs objects cs' objects') {id : Key}
    {object : Bytes} (now : id ∈ cs'.listSealed mapStore objects')
    (stored : objects.get id = some object) : id ∈ cs.listSealed mapStore objects := by
  obtain ⟨inactive, notIndex, -⟩ := mem_listSealed.mp now
  refine mem_listSealed.mpr ⟨?_, notIndex, object, stored⟩
  rcases reopens with ⟨same, -⟩ | ⟨-, unused, -⟩
  · exact same ▸ inactive
  · rintro rfl
    rw [unused] at stored
    cases stored

/-- A chunk that was sealed and is still there is sealed. -/
theorem Reopens.sealed_after (reopens : Reopens cs objects cs' objects') {id : Key}
    {object : Bytes} (before : id ∈ cs.listSealed mapStore objects)
    (stored : objects'.get id = some object) : id ∈ cs'.listSealed mapStore objects' := by
  obtain ⟨inactive, notIndex, -⟩ := mem_listSealed.mp before
  refine mem_listSealed.mpr ⟨?_, notIndex, object, stored⟩
  rcases reopens with ⟨same, -⟩ | ⟨-, -, -, unused⟩
  · exact same ▸ inactive
  · rintro rfl
    rw [unused] at stored
    cases stored

/-- An extent stays inside its chunk: behind a restart the open chunk is empty. -/
theorem Reopens.inChunk (reopens : Reopens cs objects cs' objects') {e : Extent}
    (positive : 0 < e.length) (inside : InChunk cs objects' e) : InChunk cs' objects' e := by
  obtain ⟨low, bytes, found, within⟩ := inside
  refine ⟨low, bytes, ?_, within⟩
  rw [chunkBytes] at found ⊢
  rcases reopens with ⟨sameID, sameBuf⟩ | ⟨empty, -, -, unused⟩
  · rw [sameID, sameBuf]
    exact found
  · split_ifs at found with isActive
    · rw [← Option.some.inj found, empty, List.length_nil] at within
      omega
    · have inactive : e.chunkID ≠ cs'.activeID := by
        intro isIt
        rw [isIt, unused] at found
        cases found
      rw [if_neg inactive]
      exact found

/-- An object that is there does not have a name yet to be given. -/
theorem Packable.named {live : List Extent} (ready : Packable params cs objects live) {id : Key}
    {object : Bytes} (stored : objects.get id = some object) (k : Nat) :
    id ≠ compactedID (params.clock k) k := by
  rintro rfl
  rw [ready.fresh k] at stored
  cases stored

/-- What a cycle that stopped has made of each chunk. -/
theorem Left.interrupted (lists : ListsExtents idx order)
    (ready : Packable params cs objects (Index.liveExtents order))
    (left : Left params cs objects idx (Index.liveExtents order) idx' objects')
    (reopens : Reopens cs objects cs' objects') (measured : Measured objects')
    (lists' : ListsExtents idx' order') :
    Interrupted params cs objects (Index.liveExtents order) cs' objects'
      (Index.liveExtents order') := by
  obtain ⟨targets, packing, moves, grown, ⟨rfl, kept⟩ | ⟨rfl, kept, stored⟩⟩ := left
  · have same := liveExtents_perm lists lists'
    refine ⟨fun id isSealed object found => ?_, fun id wasSealed notSealed => ?_⟩
    · rcases grown id object found with old | ⟨output, member, rfl, rfl⟩
      · exact Or.inl ⟨old, reopens.sealed_before isSealed old, same.filter _⟩
      · -- No index names this output.
        obtain ⟨k, named⟩ := moves.tiledFor.1.output_id (mem_outputs.mp member).1
        refine Or.inr (Or.inr ⟨?_, fun wasSealed => ?_⟩)
        · rw [List.eq_nil_iff_forall_not_mem]
          intro e inChunk
          obtain ⟨isLive, isIt⟩ := mem_liveIn.mp inChunk
          exact ready.ne_compacted (same.mem_iff.mp isLive) k (isIt.trans named)
        · obtain ⟨-, -, object, stored⟩ := mem_listSealed.mp wasSealed
          exact absurd named (ready.named stored k)
    · obtain ⟨-, -, object, found⟩ := mem_listSealed.mp wasSealed
      exact absurd (reopens.sealed_after wasSealed (kept id object found (by simp))) notSealed
  · have same := liveExtents_remapExtents lists lists'
    refine ⟨fun id isSealed object found => ?_, fun id wasSealed notSealed => ?_⟩
    · have here := same.filter fun e => decide (e.chunkID = id)
      rcases grown id object found with old | ⟨output, member, rfl, rfl⟩
      · by_cases inTargets : id ∈ targets
        · refine Or.inr (Or.inr ⟨?_, fun _ => (moves.listed id inTargets).2⟩)
          exact List.perm_nil.mp (here.trans (.of_eq (moves.liveIn_target ready inTargets)))
        · exact Or.inl ⟨old, reopens.sealed_before isSealed old,
            here.trans (.of_eq (moves.liveIn_kept ready (ready.named old) inTargets))⟩
      · exact Or.inr (Or.inl ⟨(moves.seated ready.fresh).free _ (mem_outputs.mp member).1,
          (moves.tidy ready member (measured _ _ found)).perm here⟩)
    · obtain ⟨-, -, object, found⟩ := mem_listSealed.mp wasSealed
      by_cases inTargets : id ∈ targets
      · exact (moves.listed id inTargets).2
      · exact absurd (reopens.sealed_after wasSealed (kept id object found inTargets)) notSealed

/-- What a complete cycle has made of each chunk. -/
theorem Done.tidied (lists : ListsExtents idx order)
    (ready : Packable params cs objects (Index.liveExtents order))
    (done : Done params cs objects idx (Index.liveExtents order) idx' objects')
    (measured : Measured objects') (lists' : ListsExtents idx' order') :
    Tidied params cs objects (Index.liveExtents order) cs objects' (Index.liveExtents order') := by
  cases done with
  | nothing rest =>
      have same := liveExtents_perm lists lists'
      exact ⟨fun id isSealed object found =>
          Or.inl ⟨found, isSealed, same.filter _, rest id isSealed⟩,
        fun id wasSealed notSealed => absurd wasSealed notSealed⟩
  | @moved targets packing _ moves all kept grown stored gone =>
      have same := liveExtents_remapExtents lists lists'
      have reopens := Reopens.refl cs objects objects'
      refine ⟨fun id isSealed object found => ?_, fun id wasSealed notSealed => ?_⟩
      · have here := same.filter fun e => decide (e.chunkID = id)
        rcases grown id object found with old | ⟨output, member, rfl, rfl⟩
        · have outside : id ∉ targets := by
            intro inTargets
            rw [gone id inTargets] at found
            cases found
          have wasSealed := reopens.sealed_before isSealed old
          refine Or.inl ⟨old, wasSealed,
            here.trans (.of_eq (moves.liveIn_kept ready (ready.named old) outside)), ?_⟩
          exact Bool.eq_false_iff.mpr fun isChosen => outside (all id wasSealed isChosen)
        · exact Or.inr ⟨(moves.seated ready.fresh).free _ (mem_outputs.mp member).1,
            (moves.tidy ready member (measured _ _ found)).perm here⟩
      · obtain ⟨-, -, object, found⟩ := mem_listSealed.mp wasSealed
        by_cases inTargets : id ∈ targets
        · exact (moves.listed id inTargets).2
        · exact absurd (reopens.sealed_after wasSealed (kept id object found inTargets)) notSealed

/-- A chunk without live extents is to be a target. -/
theorem chosenAt_of_empty {float : Rounding} {threshold : WithTop ℚ} (atMost : threshold ≤ 1)
    {chunkSize : Int} {clock : Nat → Nat} {live : List Extent} {id : Key} {object : Bytes}
    (empty : liveIn live id = []) (stored : objects.get id = some object)
    (measured : Measured objects) :
    chosenAt (thresholdParams float threshold chunkSize clock) live objects id = true := by
  have typed := measured id object stored
  have nothing : liveBytes live id = 0 := by rw [liveBytes, empty, List.foldl_nil]
  rw [chosenAt, mapStore_size, stored, Option.map_some, selects, nothing, Bool.or_eq_true]
  by_cases zero : (object.length : Int) = 0
  · exact Or.inl (decide_eq_true zero)
  · refine Or.inr (decide_eq_true ?_)
    rw [orphanFraction_zero float (by omega) typed]
    exact atMost

/-- A complete cycle behind one that stopped. -/
theorem Interrupted.tidied {float : Rounding} {threshold : WithTop ℚ} (atMost : threshold ≤ 1)
    {chunkSize : Int} {clock clock' : Nat → Nat} {live live' live'' : List Extent}
    (interrupted : Interrupted (thresholdParams float threshold chunkSize clock) cs objects live
      cs' objects' live')
    (tidied : Tidied (thresholdParams float threshold chunkSize clock') cs' objects' live' cs'
      objects'' live'')
    (measured : Measured objects')
    (unused : ∀ id object, objects''.get id = some object → objects'.get id = none →
      objects.get id = none) :
    Tidied (thresholdParams float threshold chunkSize clock) cs objects live cs' objects''
      live'' := by
  -- Whether a chunk is to be a target does not depend on the clock.
  have judged : ∀ {id : Key} {object : Bytes}, objects'.get id = some object →
      objects.get id = some object → (liveIn live' id).Perm (liveIn live id) →
      chosenAt (thresholdParams float threshold chunkSize clock') live' objects' id =
        chosenAt (thresholdParams float threshold chunkSize clock) live objects id :=
    fun now before same => chosenAt_perm same (now.trans before.symm)
  refine ⟨fun id isSealed object found => ?_, fun id wasSealed notSealed => ?_⟩
  · rcases tidied.chunks id isSealed object found with ⟨middle, inMiddle, same, rejected⟩ |
      ⟨new, tidy⟩
    · rcases interrupted.chunks id inMiddle object middle with ⟨old, wasSealed, same'⟩ |
        ⟨new, tidy⟩ | ⟨empty, -⟩
      · exact Or.inl ⟨old, wasSealed, same.trans same', judged middle old same' ▸ rejected⟩
      · exact Or.inr ⟨new, tidy.perm same⟩
      · rw [chosenAt_of_empty atMost empty middle measured] at rejected
        cases rejected
    · exact Or.inr ⟨unused id object found new, tidy⟩
  · by_cases inMiddle : id ∈ cs'.listSealed mapStore objects'
    · obtain ⟨-, -, object, middle⟩ := mem_listSealed.mp inMiddle
      rcases interrupted.chunks id inMiddle object middle with ⟨old, -, same⟩ | ⟨new, -⟩ |
        ⟨-, isChosen⟩
      · exact judged middle old same ▸ tidied.gone id inMiddle notSealed
      · obtain ⟨-, -, object, stored⟩ := mem_listSealed.mp wasSealed
        rw [new] at stored
        cases stored
      · exact isChosen wasSealed
    · exact interrupted.gone id wasSealed inMiddle

/-- The state that a cycle leaves is one to begin with. -/
theorem Left.packable (lists : ListsExtents idx order)
    (ready : Packable params cs objects (Index.liveExtents order))
    (left : Left params cs objects idx (Index.liveExtents order) idx' objects')
    (reopens : Reopens cs objects cs' objects') (lists' : ListsExtents idx' order')
    (fresh : ∀ k, objects'.get (compactedID (params'.clock k) k) = none)
    (active : ∃ seq, cs'.activeID = chunkID seq) (measured : Measured objects')
    (buffered : (cs'.activeBuf.length : Int) < 9223372036854775808) :
    Packable params' cs' objects' (Index.liveExtents order') := by
  have kept' : ∀ e ∈ Index.liveExtents order', 0 < e.length ∧ InChunk cs objects' e := by
    obtain ⟨targets, packing, moves, -, ⟨rfl, kept⟩ | ⟨rfl, kept, stored⟩⟩ := left
    · intro e isLive
      have isLive := (liveExtents_perm lists lists').mem_iff.mp isLive
      refine ⟨ready.positive e isLive, ?_⟩
      obtain ⟨low, bytes, found, within⟩ := ready.inside e isLive
      refine ⟨low, bytes, ?_, within⟩
      rw [chunkBytes] at found ⊢
      split_ifs at found ⊢
      · exact found
      · exact kept _ _ found (by simp)
    · intro e isLive
      obtain ⟨origin, wasLive, rfl⟩ :=
        List.mem_map.mp ((liveExtents_remapExtents lists lists').mem_iff.mp isLive)
      exact moves.inside ready kept stored wasLive
  refine ⟨fun e isLive => (kept' e isLive).1, fun e isLive => ?_, ?_, fresh, active, measured,
    buffered⟩
  · obtain ⟨positive, inside⟩ := kept' e isLive
    exact reopens.inChunk positive inside
  · obtain ⟨targets, packing, moves, -, ⟨rfl, -⟩ | ⟨rfl, -⟩⟩ := left
    · exact ((liveExtents_perm lists lists').map _).nodup_iff.mpr ready.distinct
    · exact ((liveExtents_remapExtents lists lists').map _).nodup_iff.mpr (moves.distinct ready)

end Chunkwise

/-! ### The end state -/

/-- What a `Compact` that returned nil has reached, from the chunks at the start
to those at the end. -/
structure Compacted (float : Rounding) (threshold : WithTop ℚ) (chunkSize : Int) (cs : ChunkStore)
    (objects : Objects) (live : List Extent) (cs' : ChunkStore) (objects' : Objects)
    (live' : List Extent) : Prop where
  below : ∀ id ∈ cs'.listSealed mapStore objects', ∀ object, objects'.get id = some object →
    object ≠ [] ∧ (orphanFraction float object.length (liveBytes live' id) : ℚ) < threshold
  written : ∀ id ∈ cs'.listSealed mapStore objects', ∀ object, objects'.get id = some object →
    objects.get id = none →
      orphaned objects' live' id = 0 ∧ unaccounted objects' live' id = 0 ∧
        ((object.length : Int) ≤ chunkSize ∨ (liveIn live' id).length = 1)
  total : ∑ id ∈ cs'.listSealed mapStore objects', orphaned objects' live' id ≤
    ∑ id ∈ cs.listSealed mapStore objects, orphaned objects live id
  totalAccounted : ∑ id ∈ cs'.listSealed mapStore objects', unaccounted objects' live' id ≤
    ∑ id ∈ cs.listSealed mapStore objects, unaccounted objects live id

/-- A run that has selected nothing and is to change nothing. -/
def Idle (idx : Index) : Run ⊕ Reply → Prop
  | .inl run => run.idx = idx ∧
      (run.stage = .listing ∨ ∃ id pending, run.stage = .sizing [] id pending)
  | .inr reply => reply.idx = idx

/-- Whatever the next `Compact` meets, it selects no target and changes neither
the index nor the store. -/
def Rests (float : Rounding) (threshold : WithTop ℚ) (chunkSize : Int) (cs : ChunkStore)
    (objects : Objects) (idx : Index) : Prop :=
  ∀ (clock : Nat → Nat) (cs' : ChunkStore) (order : List (Ino × List Extent)) (durable : Index)
    (s : Objects × Index) (point : Run ⊕ Reply), cs'.activeID = cs.activeID →
    ListsExtents idx order →
    Progress (compactSys mapStore durably) (objects, durable)
      (Run.begin (thresholdParams float threshold chunkSize clock) idx cs' order) s point →
    s = (objects, durable) ∧ Idle idx point

/-- Sums over sets of which one keeps some values of the other and adds nothing. -/
theorem sum_le_of_carried {ι M : Type} [DecidableEq ι] [AddCommMonoid M] [PartialOrder M]
    [IsOrderedAddMonoid M] {before after : Finset ι} {f g : ι → M}
    (carried : ∀ i ∈ after, (i ∈ before ∧ g i = f i) ∨ (i ∉ before ∧ g i = 0))
    (dropped : ∀ i ∈ before, i ∉ after → 0 ≤ f i) : ∑ i ∈ after, g i ≤ ∑ i ∈ before, f i := by
  calc ∑ i ∈ after, g i
      = ∑ i ∈ after ∩ before, g i := by
        refine (Finset.sum_subset Finset.inter_subset_left fun i member outside => ?_).symm
        rcases carried i member with ⟨inside, -⟩ | ⟨-, zero⟩
        · exact absurd (Finset.mem_inter.mpr ⟨member, inside⟩) outside
        · exact zero
    _ = ∑ i ∈ after ∩ before, f i := by
        refine Finset.sum_congr rfl fun i member => ?_
        obtain ⟨isAfter, isBefore⟩ := Finset.mem_inter.mp member
        rcases carried i isAfter with ⟨-, same⟩ | ⟨outside, -⟩
        · exact same
        · exact absurd isBefore outside
    _ ≤ ∑ i ∈ before, f i := by
        refine Finset.sum_le_sum_of_subset_of_nonneg Finset.inter_subset_right ?_
        intro i isBefore outside
        exact dropped i isBefore fun isAfter => outside (Finset.mem_inter.mpr ⟨isAfter, isBefore⟩)

section End

variable {float : Rounding} {threshold : WithTop ℚ} {chunkSize : Int} {clock clock' : Nat → Nat}
  {cs cs' : ChunkStore} {objects objects' : Objects} {live live' : List Extent}

/-- What is not to be a target has bytes and is below the threshold. -/
theorem below_of_rejected {id : Key} {object : Bytes} (stored : objects.get id = some object)
    (rejected : chosenAt (thresholdParams float threshold chunkSize clock) live objects id =
      false) :
    object ≠ [] ∧ (orphanFraction float object.length (liveBytes live id) : ℚ) < threshold := by
  rw [chosenAt, mapStore_size, stored, Option.map_some, selects, Bool.or_eq_false_iff] at rejected
  obtain ⟨nonempty, light⟩ := rejected
  refine ⟨?_, not_le.mp (of_decide_eq_false light)⟩
  rintro rfl
  exact absurd nonempty (by decide)

/-- What is to be a target has orphans, by the code's own count. -/
theorem unaccounted_of_chosen (positive : 0 < threshold) {id : Key} {object : Bytes}
    (stored : objects.get id = some object) (inChunk : ∀ e ∈ liveIn live id, object ≠ [])
    (chosen : chosenAt (thresholdParams float threshold chunkSize clock) live objects id = true) :
    0 ≤ unaccounted objects live id := by
  rw [chosenAt, mapStore_size, stored, Option.map_some, selects, Bool.or_eq_true] at chosen
  rw [unaccounted, stored, Option.map_some, Option.getD_some]
  by_cases zero : (object.length : Int) = 0
  · have none : liveIn live id = [] := by
      rw [List.eq_nil_iff_forall_not_mem]
      intro e member
      exact inChunk e member (List.length_eq_zero_iff.mp (by omega))
    have nothing : liveBytes live id = 0 := by rw [liveBytes, none, List.foldl_nil]
    rw [zero, nothing]
    decide
  · rcases chosen with isZero | heavy
    · exact absurd (of_decide_eq_true isZero) zero
    · exact (orphans_of_heavy positive (by omega) (of_decide_eq_true heavy)).le

/-- Chunk by chunk to the end state. -/
theorem Tidied.compacted (positive : 0 < threshold)
    (ready : Packable (thresholdParams float threshold chunkSize clock) cs objects live)
    (tidied : Tidied (thresholdParams float threshold chunkSize clock) cs objects live cs' objects'
      live') (measured : Measured objects') :
    Compacted float threshold chunkSize cs objects live cs' objects' live' := by
  refine ⟨fun id isSealed object found => ?_, fun id isSealed object found new => ?_, ?_, ?_⟩
  · rcases tidied.chunks id isSealed object found with ⟨old, -, same, rejected⟩ | ⟨-, tidy⟩
    · rw [liveBytes_perm same]
      exact below_of_rejected old rejected
    · rw [tidy.liveBytes (measured id object found), orphanFraction_self]
      exact ⟨tidy.nonempty, positive⟩
  · rcases tidied.chunks id isSealed object found with ⟨old, -⟩ | ⟨-, tidy⟩
    · rw [new] at old
      cases old
    · exact ⟨tidy.orphaned found, tidy.unaccounted (measured id object found) found, tidy.limited⟩
  · refine sum_le_of_carried (fun id isSealed => ?_) fun id _ _ => Nat.zero_le _
    obtain ⟨-, -, object, found⟩ := mem_listSealed.mp isSealed
    rcases tidied.chunks id isSealed object found with ⟨old, wasSealed, same, -⟩ | ⟨new, tidy⟩
    · exact Or.inl ⟨wasSealed, orphaned_perm same (found.trans old.symm)⟩
    · refine Or.inr ⟨fun wasSealed => ?_, tidy.orphaned found⟩
      obtain ⟨-, -, object', old⟩ := mem_listSealed.mp wasSealed
      rw [new] at old
      cases old
  · refine sum_le_of_carried (fun id isSealed => ?_) fun id wasSealed notSealed => ?_
    · obtain ⟨-, -, object, found⟩ := mem_listSealed.mp isSealed
      rcases tidied.chunks id isSealed object found with ⟨old, wasSealed, same, -⟩ | ⟨new, tidy⟩
      · exact Or.inl ⟨wasSealed, unaccounted_perm same (found.trans old.symm)⟩
      · refine Or.inr ⟨fun wasSealed => ?_, tidy.unaccounted (measured id object found) found⟩
        obtain ⟨-, -, object', old⟩ := mem_listSealed.mp wasSealed
        rw [new] at old
        cases old
    · obtain ⟨inactive, -, object, stored⟩ := mem_listSealed.mp wasSealed
      refine unaccounted_of_chosen positive stored ?_ (tidied.gone id wasSealed notSealed)
      -- A chunk with a live extent has bytes.
      rintro e inChunk rfl
      obtain ⟨isLive, rfl⟩ := mem_liveIn.mp inChunk
      obtain ⟨low, bytes, found, within⟩ := ready.inside e isLive
      have length := ready.positive e isLive
      rw [chunkBytes, if_neg inactive, stored] at found
      rw [← Option.some.inj found, List.length_nil] at within
      omega

/-- With nothing to select, a cycle does nothing. -/
theorem idle_of_progress {params : Params} {idx durable : Index}
    {order : List (Ino × List Extent)}
    (rejected : ∀ id ∈ cs.listSealed mapStore objects,
      chosenAt params (Index.liveExtents order) objects id = false)
    {s : Objects × Index} {point : Run ⊕ Reply}
    (progress : Progress (compactSys mapStore durably) (objects, durable)
      (Run.begin params idx cs order) s point) : s = (objects, durable) ∧ Idle idx point := by
  have invariant := Progress.invariant (fun s point => s = (objects, durable) ∧ Idle idx point ∧
    ∀ run, point = .inl run → run.params = params ∧ run.cs = cs ∧
      run.live = Index.liveExtents order ∧ ∀ targets id pending,
        run.stage = .sizing targets id pending →
          ∀ x ∈ id :: pending, x ∈ cs.listSealed mapStore objects) ?_ ?_ progress
  · exact ⟨invariant.1, invariant.2.1⟩
  · refine ⟨rfl, ⟨rfl, Or.inl rfl⟩, ?_⟩
    rintro run ⟨⟩
    exact ⟨rfl, rfl, rfl, nofun⟩
  · rintro s run o s' a ⟨rfl, ⟨sameIndex, stages⟩, known⟩ applied
    obtain ⟨isParams, sameStore, isLive, listed⟩ := known run rfl
    have applied : apply mapStore durably (objects, durable) run.effect o = some (s', a) := applied
    have same : s' = (objects, durable) := by
      refine Run.same_of_apply applied fun targets packing => ?_
      rcases stages with stage | ⟨id, pending, stage⟩ <;> simp [stage]
    refine ⟨same, ?_⟩
    cases next : (compactSys mapStore durably).resume run a with
    | inr reply =>
        have unchanged : reply.idx = run.idx := Run.idx_of_resume next
        refine ⟨unchanged.trans sameIndex, ?_⟩
        rintro run' ⟨⟩
    | inl run' =>
        have goes := Run.next_of_resume next
        -- A chunk that is judged is rejected.
        have judged : ∀ id pending size, run.stage = .sizing [] id pending → a = .sized size →
            selects run.params run.live id size = false := by
          rintro id pending size stage rfl
          have inSealed := listed [] id pending stage id List.mem_cons_self
          have sized : cs.sealedSize mapStore objects id = mapStore.size objects id :=
            if_neg (mem_listSealed.mp inSealed).1
          simp only [Run.effect, stage, apply, sameStore, sized] at applied
          obtain ⟨-, answer⟩ := Prod.mk.inj (Option.some.inj applied)
          rw [← Answer.sized.inj answer, isParams, isLive]
          split_ifs
          · exact rejected id inSealed
          · rfl
        rcases stages with stage | ⟨id, pending, stage⟩
        · cases goes with
          | @sizeFirst first rest isListing =>
              simp only [Run.effect, stage, apply, sameStore] at applied
              split_ifs at applied with silent isAll
              · cases applied
              have ids : o.ids = first :: rest :=
                Option.some.inj (Answer.listed.inj (Prod.mk.inj (Option.some.inj applied)).2)
              rw [ids] at isAll
              refine ⟨⟨sameIndex, Or.inr ⟨first, rest, rfl⟩⟩, ?_⟩
              rintro run ⟨⟩
              refine ⟨isParams, sameStore, isLive, ?_⟩
              rintro targets id pending ⟨⟩ x member
              rw [← isAll]
              exact List.mem_toFinset.mpr member
          | sizeNext other => cases stage.symm.trans other
          | pack other => cases stage.symm.trans other
          | read other => cases stage.symm.trans other
          | put other => cases stage.symm.trans other
          | persist other => cases stage.symm.trans other
          | delete other => cases stage.symm.trans other
        · cases goes with
          | @sizeNext targets judgedTargets id' following size pending' isSizing judges =>
              cases stage.symm.trans isSizing
              rw [judged id _ size stage rfl, if_neg Bool.false_ne_true] at judges
              subst judges
              refine ⟨⟨sameIndex, Or.inr ⟨following, pending', rfl⟩⟩, ?_⟩
              rintro run ⟨⟩
              refine ⟨isParams, sameStore, isLive, ?_⟩
              rintro targets id pending ⟨⟩ x member
              exact listed [] _ _ stage x (List.mem_cons_of_mem _ member)
          | @pack targets judgedTargets id' size isSizing judges some =>
              cases stage.symm.trans isSizing
              rw [judged id _ size stage rfl, if_neg Bool.false_ne_true] at judges
              exact absurd judges some
          | sizeFirst other => cases stage.symm.trans other
          | read other => cases stage.symm.trans other
          | put other => cases stage.symm.trans other
          | persist other => cases stage.symm.trans other
          | delete other => cases stage.symm.trans other

/-- Behind an end state the next cycle rests. -/
theorem Compacted.rests {idx' : Index} {order' : List (Ino × List Extent)}
    (compacted : Compacted float threshold chunkSize cs objects live cs' objects'
      (Index.liveExtents order')) (lists' : ListsExtents idx' order') :
    Rests float threshold chunkSize cs' objects' idx' := by
  intro clock cs'' order'' durable s point sameActive lists'' progress
  refine idle_of_progress (fun id isSealed => ?_) progress
  rw [ChunkStore.listSealed, sameActive] at isSealed
  obtain ⟨-, -, object, found⟩ := mem_listSealed.mp isSealed
  obtain ⟨nonempty, low⟩ := compacted.below id isSealed object found
  have same : (liveIn (Index.liveExtents order'') id).Perm
      (liveIn (Index.liveExtents order') id) := (liveExtents_perm lists' lists'').filter _
  rw [chosenAt, mapStore_size, found, Option.map_some, selects, liveBytes_perm same,
    Bool.or_eq_false_iff]
  refine ⟨decide_eq_false fun zero => nonempty (List.length_eq_zero_iff.mp (by omega)), ?_⟩
  have light : ¬ threshold ≤ (orphanFraction float object.length
      (liveBytes (Index.liveExtents order') id) : ℚ) := low.not_ge
  exact decide_eq_false light

end End

/-! ### One cycle, or one that stopped and another -/

/-- What a second cycle needs: a chunk store that goes on or begins anew, names
that the store had at neither start, and lengths that are `int64`s. -/
structure StartsAgain (cs : ChunkStore) (objects : Objects) (clock : Nat → Nat) (cs' : ChunkStore)
    (objects' : Objects) : Prop where
  reopens : Reopens cs objects cs' objects'
  unused : ∀ k, objects.get (compactedID (clock k) k) = none
  fresh : ∀ k, objects'.get (compactedID (clock k) k) = none
  active : ∃ seq, cs'.activeID = chunkID seq
  measured : Measured objects'
  buffered : (cs'.activeBuf.length : Int) < 9223372036854775808

/-- A chunk that a complete cycle added has a name that was given in it. -/
theorem Done.added_name {params : Params} {cs : ChunkStore} {objects objects' : Objects}
    {idx idx' : Index} {live : List Extent} (done : Done params cs objects idx live idx' objects')
    {id : Key} {object : Bytes} (found : objects'.get id = some object)
    (new : objects.get id = none) : ∃ k, id = compactedID (params.clock k) k := by
  cases done with
  | nothing =>
      rw [new] at found
      cases found
  | moved moves _ _ grown =>
      rcases grown id object found with old | ⟨output, member, rfl, -⟩
      · rw [new] at old
        cases old
      · exact moves.tiledFor.1.output_id (mem_outputs.mp member).1

section Cycles

variable (float : Rounding) {threshold : WithTop ℚ} (chunkSize : Int) {clock : Nat → Nat}
  {cs : ChunkStore} {objects : Objects} {idx : Index} {order : List (Ino × List Extent)}

/-- A complete cycle reaches the end state, and so does one behind a cycle that
stopped at any point. -/
theorem compaction_reaches_fixpoint (positive : 0 < threshold) (lists : ListsExtents idx order)
    (ready : Packable (thresholdParams float threshold chunkSize clock) cs objects
      (Index.liveExtents order)) (durable : Index) :
    (∀ s reply order', Progress ((compactSys mapStore durably).under (Answers true))
        (objects, durable)
        (Run.begin (thresholdParams float threshold chunkSize clock) idx cs order) s (.inr reply) →
      reply.ok = true → Measured s.1 → ListsExtents reply.idx order' →
      Compacted float threshold chunkSize cs objects (Index.liveExtents order) cs s.1
          (Index.liveExtents order') ∧
        Rests float threshold chunkSize cs s.1 reply.idx) ∧
      (threshold ≤ 1 → ∀ stopped point idx' order' clock' cs' durable' s reply order'',
        Progress ((compactSys mapStore durably).under (Answers false)) (objects, durable)
          (Run.begin (thresholdParams float threshold chunkSize clock) idx cs order) stopped point →
        idx' = indexAt point ∨ (durable = idx ∧ idx' = stopped.2) →
        ListsExtents idx' order' → StartsAgain cs objects clock' cs' stopped.1 →
        Progress ((compactSys mapStore durably).under (Answers true)) (stopped.1, durable')
          (Run.begin (thresholdParams float threshold chunkSize clock') idx' cs' order') s
          (.inr reply) →
        reply.ok = true → Measured s.1 → ListsExtents reply.idx order'' →
        Compacted float threshold chunkSize cs objects (Index.liveExtents order) cs' s.1
            (Index.liveExtents order'') ∧
          Rests float threshold chunkSize cs' s.1 reply.idx) := by
  constructor
  · intro s reply order' progress ok measured lists'
    have done := (cycle_of_progress ready progress).2.2 reply rfl ok rfl
    have compacted := (done.tidied lists ready measured lists').compacted positive ready measured
    exact ⟨compacted, compacted.rests lists'⟩
  · intro atMost stopped point idx' order' clock' cs' durable' s reply order'' first index lists'
      again second ok measured lists''
    obtain ⟨memory, stored, -⟩ := cycle_of_progress ready first
    have left : Left (thresholdParams float threshold chunkSize clock) cs objects idx
        (Index.liveExtents order) idx' stopped.1 := by
      rcases index with rfl | ⟨same, rfl⟩
      · exact memory
      · exact stored same
    have ready' : Packable (thresholdParams float threshold chunkSize clock') cs' stopped.1
        (Index.liveExtents order') :=
      left.packable lists ready again.reopens lists' again.fresh again.active again.measured
        again.buffered
    have done := (cycle_of_progress ready' second).2.2 reply rfl ok rfl
    have interrupted := left.interrupted lists ready again.reopens again.measured lists'
    have tidied := interrupted.tidied atMost (done.tidied lists' ready' measured lists'')
      again.measured (by
        intro id object found new
        obtain ⟨k, rfl⟩ := done.added_name found new
        exact again.unused k)
    have compacted := tidied.compacted positive ready measured
    exact ⟨compacted, compacted.rests lists''⟩

end Cycles

/-! ### Runs -/

/-- A threshold of one half. -/
def halfThreshold : WithTop ℚ := ((1 / 2 : ℚ) : WithTop ℚ)

theorem halfThreshold_pos : 0 < halfThreshold := WithTop.coe_pos.mpr (by decide +kernel)

theorem halfThreshold_le_one : halfThreshold ≤ 1 := WithTop.coe_le_coe.mpr (by decide +kernel)

theorem measured_empty : Measured ∅ := nofun

theorem Measured.set {objects : Objects} (measured : Measured objects) (id : Key) {data : Bytes}
    (typed : (data.length : Int) < 9223372036854775808) : Measured (objects.set id data) := by
  intro other object stored
  rw [GoMap.get_set] at stored
  split_ifs at stored
  · cases stored
    exact typed
  · exact measured other object stored

theorem tail_packable :
    Packable (thresholdParams .exact halfThreshold 8 id) tailStore tailObjects [tailExtent] where
  positive := by decide
  inside := by decide +kernel
  distinct := by decide
  fresh := fun k => GoMap.get_set_ne _ _ (compactedID_ne_chunkID _ _ _)
  active := ⟨1, rfl⟩
  measured := measured_empty.set _ (by decide)
  buffered := by decide

/-- The two live bytes of a chunk of eight are moved; when the first cycle stops
behind its put, the second one moves them again and removes the first output. -/
theorem compaction_reaches_fixpoint_tail :
    (∃ s reply, Progress ((compactSys mapStore durably).under (Answers true))
        (tailObjects, tailIndex) (Run.begin (thresholdParams .exact halfThreshold 8 id) tailIndex
          tailStore [(2, [tailExtent])]) s (.inr reply) ∧
      s.1 = GoMap.set ∅ (compactedID 0 0) [7, 8] ∧
      Compacted .exact halfThreshold 8 tailStore tailObjects [tailExtent] tailStore s.1
        [⟨compactedID 0 0, 0, 2, 0⟩] ∧
      Rests .exact halfThreshold 8 tailStore s.1 reply.idx) ∧
    ∃ stopped run s reply, Progress ((compactSys mapStore durably).under (Answers false))
        (tailObjects, tailIndex) (Run.begin (thresholdParams .exact halfThreshold 8 id) tailIndex
          tailStore [(2, [tailExtent])]) stopped (.inl run) ∧
      stopped.1.get (compactedID 0 0) = some [7, 8] ∧
      Progress ((compactSys mapStore durably).under (Answers true)) stopped
        (Run.begin (thresholdParams .exact halfThreshold 8 Nat.succ) stopped.2 tailStore
          [(2, [tailExtent])]) s (.inr reply) ∧
      s.1 = GoMap.set ∅ (compactedID 1 0) [7, 8] ∧
      Compacted .exact halfThreshold 8 tailStore tailObjects [tailExtent] tailStore s.1
        [⟨compactedID 1 0, 0, 2, 0⟩] ∧
      Rests .exact halfThreshold 8 tailStore s.1 reply.idx := by
  have lists : ListsExtents tailIndex [(2, [tailExtent])] := by decide +kernel
  obtain ⟨complete, resumed⟩ := compaction_reaches_fixpoint .exact 8 halfThreshold_pos lists
    tail_packable tailIndex
  have ends : (((compactSys mapStore durably).under (Answers true)).advance (tailObjects, tailIndex)
      (Run.begin (thresholdParams .exact halfThreshold 8 id) tailIndex tailStore
        [(2, [tailExtent])]) [{ ids := [chunkID 0] }, {}, {}, {}, {}, {}]).map (fun result =>
        (result.2.elim (fun _ => false) Reply.ok,
          decide (result.1.1 = GoMap.set ∅ (compactedID 0 0) [7, 8] ∧
            ListsExtents (indexAt result.2) [(2, [⟨compactedID 0 0, 0, 2, 0⟩])]))) =
      some (true, true) := by decide +kernel
  have stops : (((compactSys mapStore durably).under (Answers false)).advance
      (tailObjects, tailIndex) (Run.begin (thresholdParams .exact halfThreshold 8 id) tailIndex
        tailStore [(2, [tailExtent])]) [{ ids := [chunkID 0] }, {}, {}, {}]).map (fun result =>
        (result.2.elim (fun _ => true) (fun _ => false),
          decide (result.1.1 = tailObjects.set (compactedID 0 0) [7, 8] ∧
            ListsExtents result.1.2 [(2, [tailExtent])]),
          (((compactSys mapStore durably).under (Answers true)).advance result.1
            (Run.begin (thresholdParams .exact halfThreshold 8 Nat.succ) result.1.2 tailStore
              [(2, [tailExtent])])
            [{ ids := [chunkID 0, compactedID 0 0] }, {}, {}, {}, {}, {}, {}, {}]).map
            (fun result => (result.2.elim (fun _ => false) Reply.ok,
                decide (result.1.1 = GoMap.set ∅ (compactedID 1 0) [7, 8] ∧
                  ListsExtents (indexAt result.2) [(2, [⟨compactedID 1 0, 0, 2, 0⟩])]))))) =
      some (true, true, some (true, true)) := by decide +kernel
  constructor
  · obtain ⟨⟨s, point⟩, advanced, same⟩ := Option.map_eq_some_iff.mp ends
    have progress := Progress.of_advance .start advanced
    obtain ⟨ok, left⟩ := Prod.mk.inj same
    obtain ⟨holds, listed⟩ := of_decide_eq_true left
    cases point with
    | inl run => cases ok
    | inr reply =>
        have measured : Measured s.1 := by
          rw [holds]
          exact measured_empty.set _ (by decide)
        exact ⟨s, reply, progress, holds, complete s reply _ progress ok measured listed⟩
  · obtain ⟨⟨stopped, middle⟩, advanced, same⟩ := Option.map_eq_some_iff.mp stops
    have first := Progress.of_advance .start advanced
    obtain ⟨running, rest⟩ := Prod.mk.inj same
    obtain ⟨left, again⟩ := Prod.mk.inj rest
    obtain ⟨holds, listed⟩ := of_decide_eq_true left
    obtain ⟨⟨s, point⟩, advanced', same'⟩ := Option.map_eq_some_iff.mp again
    have second := Progress.of_advance .start advanced'
    obtain ⟨ok, left'⟩ := Prod.mk.inj same'
    obtain ⟨holds', listed'⟩ := of_decide_eq_true left'
    cases middle with
    | inr reply => cases running
    | inl run =>
        cases point with
        | inl run => cases ok
        | inr reply =>
            have measured : Measured s.1 := by
              rw [holds']
              exact measured_empty.set _ (by decide)
            have free : ∀ k, tailObjects.get (compactedID (Nat.succ k) k) = none :=
              fun k => GoMap.get_set_ne _ _ (compactedID_ne_chunkID _ _ _)
            have starts : StartsAgain tailStore tailObjects Nat.succ tailStore stopped.1 := by
              rw [holds]
              refine ⟨.refl _ _ _, free, fun k => ?_, ⟨1, rfl⟩,
                (measured_empty.set _ (by decide)).set _ (by decide), by decide⟩
              rw [GoMap.get_set_ne]
              · exact free k
              · intro taken
                exact absurd (compactedID_injective taken).1 (Nat.succ_ne_zero k)
            refine ⟨stopped, run, s, reply, first, ?_, second, holds', ?_⟩
            · rw [holds]
              exact GoMap.get_set_self _ _ _
            · exact resumed halfThreshold_le_one stopped (.inl run) stopped.2 _ Nat.succ tailStore
                stopped.2 s reply _ first (Or.inr ⟨rfl, rfl⟩) listed starts second ok
                measured listed'

/-- `time.Now().UnixNano()` on a day in 2023. -/
def takenNano : Nat := 1700000000000000000

/-- A chunk whose name the next cycle gives again, and a chunk that is mostly
orphaned. -/
def takenObjects : Objects :=
  GoMap.set (GoMap.set ∅ (compactedID takenNano 0) [9]) (chunkID 0) [1, 2, 3, 4, 5, 6, 7]

/-- One file's extent in each. -/
def takenExtents : List (Ino × List Extent) :=
  [(2, [⟨compactedID takenNano 0, 0, 1, 0⟩]), (3, [⟨chunkID 0, 0, 3, 0⟩])]

def takenIndex : Index := { Index.new 4096 0 with extents := GoMap.ofList takenExtents }

/-- A generated name that is taken: the output replaces a chunk that is all live,
exceeds the limit of two bytes and has the live extents of both files. -/
theorem compaction_reuses_taken_name :
    (∀ e ∈ Index.liveExtents takenExtents, 0 < e.length ∧ InChunk tailStore takenObjects e) ∧
      ((Index.liveExtents takenExtents).map Extent.position).Nodup ∧
      ListsExtents takenIndex takenExtents ∧
      ∃ s reply order', Progress ((compactSys mapStore durably).under (Answers true))
          (takenObjects, takenIndex)
          (Run.begin (thresholdParams .exact halfThreshold 2 fun _ => takenNano) takenIndex
            tailStore takenExtents) s (.inr reply) ∧
        reply.ok = true ∧ ListsExtents reply.idx order' ∧
        takenObjects.get (compactedID takenNano 0) = some [9] ∧
        s.1.get (compactedID takenNano 0) = some [1, 2, 3] ∧
        ¬ ((3 : Int) ≤ 2 ∨
          (liveIn (Index.liveExtents order') (compactedID takenNano 0)).length = 1) := by
  have ends : (((compactSys mapStore durably).under (Answers true)).advance
      (takenObjects, takenIndex)
      (Run.begin (thresholdParams .exact halfThreshold 2 fun _ => takenNano) takenIndex tailStore
        takenExtents)
      [{ ids := [chunkID 0, compactedID takenNano 0] }, {}, {}, {}, {}, {}, {}]).map (fun result =>
        (result.2.elim (fun _ => false) Reply.ok,
          decide (result.1.1.get (compactedID takenNano 0) = some [1, 2, 3]),
          decide (ListsExtents (indexAt result.2) [(2, [⟨compactedID takenNano 0, 0, 1, 0⟩]),
            (3, [⟨compactedID takenNano 0, 0, 3, 0⟩])]))) =
      some (true, true, true) := by decide +kernel
  obtain ⟨⟨s, point⟩, advanced, same⟩ := Option.map_eq_some_iff.mp ends
  have progress := Progress.of_advance .start advanced
  obtain ⟨ok, rest⟩ := Prod.mk.inj same
  obtain ⟨replaced, listed⟩ := Prod.mk.inj rest
  cases point with
  | inl run => cases ok
  | inr reply =>
      refine ⟨by decide +kernel, by decide +kernel, by decide +kernel, s, reply, _, progress, ok,
        of_decide_eq_true listed, by decide +kernel, of_decide_eq_true replaced, by decide +kernel⟩

end Compaction

end Fusey
