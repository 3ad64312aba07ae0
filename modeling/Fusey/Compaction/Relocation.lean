import Fusey.Compaction.Cycle

/-!
Contract: where the live extents of a remapped index lie.

Owns:
- the live extents of an index after `RemapExtents`, as a list up to order;
- that chunks outside the targets keep theirs, that targets have none left and
  that the outputs are tiled by theirs;
- that the state a cycle leaves is one that a cycle may begin with.
-/

set_option autoImplicit false

namespace Fusey

open GoInt Interleaving

namespace Compaction

/-! ### The remapped index -/

/-- Where `RemapExtents` puts an extent. -/
def relocate (packing : Packing) (e : Extent) : Extent :=
  (packing.remap.get (e.chunkID, e.chunkOffset)).getD e

/-- Two iterations of one extent map give the same live extents. -/
theorem liveExtents_perm {idx : Index} {order order' : List (Ino × List Extent)}
    (lists : ListsExtents idx order) (lists' : ListsExtents idx order') :
    (Index.liveExtents order').Perm (Index.liveExtents order) :=
  (Multiset.coe_eq_coe.mp (Eq.trans lists' lists.symm)).flatMap_right _

/-- The live extents of the remapped index are the relocated ones. -/
theorem liveExtents_remapExtents {idx : Index} {packing : Packing}
    {order order' : List (Ino × List Extent)} (lists : ListsExtents idx order)
    (lists' : ListsExtents (idx.remapExtents packing.remap) order') :
    (Index.liveExtents order').Perm ((Index.liveExtents order).map (relocate packing)) := by
  have entries : (idx.remapExtents packing.remap).extents.entries =
      idx.extents.entries.map fun entry => (entry.1, entry.2.map (relocate packing)) :=
    GoMap.entries_map _ _
  have same : order'.Perm (order.map fun entry => (entry.1, entry.2.map (relocate packing))) := by
    rw [← Multiset.coe_eq_coe, ← Multiset.map_coe]
    exact (Eq.trans lists' entries).trans (congrArg _ lists.symm)
  refine (same.flatMap_right _).trans ?_
  rw [Index.liveExtents, List.flatMap_map, List.map_flatMap]

section Relocation

variable {params : Params} {cs : ChunkStore} {objects : Objects} {live : List Extent}
  {targets : List Key} {packing : Packing} {slots : List (Extent × Extent)}

/-- A live extent of a target goes to the place it was given. -/
theorem Moves.relocate_moved (moves : Moves params cs objects live targets packing)
    (ready : Packable params cs objects live) (places : slots.map Prod.fst = moved live targets)
    (tiled : Tiled params slots packing) {e : Extent} (isLive : e ∈ live)
    (inTargets : e.chunkID ∈ targets) :
    ∃ slot ∈ slots, slot.1 = e ∧ relocate packing e = slot.2 := by
  obtain ⟨place, found⟩ := moves.tiledFor.1.covers e (mem_moved.mpr ⟨isLive, inTargets⟩)
  obtain ⟨slot, member, key, rfl⟩ := tiled.origin _ _ found
  have wasMoved : slot.1 ∈ moved live targets := places ▸ List.mem_map_of_mem member
  refine ⟨slot, member, ?_, ?_⟩
  · exact ready.eq_of_position (mem_moved.mp wasMoved).1 isLive key.symm
  · rw [relocate, found, Option.getD_some]

/-- Every other live extent stays. -/
theorem Moves.relocate_kept (moves : Moves params cs objects live targets packing)
    (ready : Packable params cs objects live) {e : Extent} (isLive : e ∈ live)
    (outside : e.chunkID ∉ targets) : relocate packing e = e := by
  unfold relocate
  cases found : packing.remap.get (e.chunkID, e.chunkOffset) with
  | none => rfl
  | some place =>
      obtain ⟨origin, inMoved, key, -⟩ := moves.tiledFor.1.origin _ _ found
      obtain ⟨isLive', inTargets⟩ := mem_moved.mp inMoved
      cases ready.eq_of_position isLive isLive' key
      exact absurd inTargets outside

theorem Moves.relocate_slot (moves : Moves params cs objects live targets packing)
    (ready : Packable params cs objects live) (places : slots.map Prod.fst = moved live targets)
    (tiled : Tiled params slots packing) {slot : Extent × Extent} (member : slot ∈ slots) :
    relocate packing slot.1 = slot.2 := by
  have wasMoved : slot.1 ∈ moved live targets := places ▸ List.mem_map_of_mem member
  obtain ⟨isLive, inTargets⟩ := mem_moved.mp wasMoved
  obtain ⟨other, isSlot, same, goes⟩ := moves.relocate_moved ready places tiled isLive inTargets
  have nodup : (slots.map Prod.fst).Nodup := places ▸ nodup_moved ready.nodup moves.nodup
  cases List.inj_on_of_nodup_map nodup isSlot member same
  exact goes

/-- A place is in a chunk whose name was free. -/
theorem Moves.slot_id (moves : Moves params cs objects live targets packing)
    (tiled : Tiled params slots packing) {slot : Extent × Extent} (member : slot ∈ slots) :
    ∃ k, slot.2.chunkID = compactedID (params.clock k) k := by
  obtain ⟨output, isOutput, id⟩ := tiled.outputs slot member
  obtain ⟨k, named⟩ := moves.tiledFor.1.output_id isOutput
  exact ⟨k, id.symm.trans named⟩

/-- A relocated extent has not moved, or is in a chunk whose name was free. -/
theorem Moves.relocate_cases (moves : Moves params cs objects live targets packing)
    (ready : Packable params cs objects live) {e : Extent} (isLive : e ∈ live) :
    (e.chunkID ∉ targets ∧ relocate packing e = e) ∨
      (e.chunkID ∈ targets ∧
        ∃ k, (relocate packing e).chunkID = compactedID (params.clock k) k) := by
  by_cases inTargets : e.chunkID ∈ targets
  · obtain ⟨slots, places, tiled⟩ := moves.tiledFor.2
    obtain ⟨slot, member, -, goes⟩ := moves.relocate_moved ready places tiled isLive inTargets
    rw [goes]
    exact Or.inr ⟨inTargets, moves.slot_id tiled member⟩
  · exact Or.inl ⟨inTargets, moves.relocate_kept ready isLive inTargets⟩

/-! ### Chunk by chunk -/

/-- A chunk that is there and is not a target keeps its live extents. -/
theorem Moves.liveIn_kept (moves : Moves params cs objects live targets packing)
    (ready : Packable params cs objects live) {id : Key}
    (named : ∀ k, id ≠ compactedID (params.clock k) k) (outside : id ∉ targets) :
    liveIn (live.map (relocate packing)) id = liveIn live id := by
  have same : ∀ e ∈ live, decide ((relocate packing e).chunkID = id) = decide (e.chunkID = id) := by
    intro e isLive
    rw [decide_eq_decide]
    rcases moves.relocate_cases ready isLive with ⟨-, stays⟩ | ⟨inTargets, k, goes⟩
    · rw [stays]
    · constructor
      · intro isIt
        exact absurd (isIt.symm.trans goes) (named k)
      · rintro rfl
        exact absurd inTargets outside
  rw [liveIn, liveIn, List.filter_map, List.filter_congr (p := _ ∘ relocate packing) same]
  refine (List.map_congr_left fun e member => ?_).trans (List.map_id _)
  obtain ⟨isLive, isIt⟩ := mem_liveIn.mp member
  exact moves.relocate_kept ready isLive (isIt ▸ outside)

/-- A target has no live extent left. -/
theorem Moves.liveIn_target (moves : Moves params cs objects live targets packing)
    (ready : Packable params cs objects live) {id : Key} (inTargets : id ∈ targets) :
    liveIn (live.map (relocate packing)) id = [] := by
  rw [List.eq_nil_iff_forall_not_mem]
  intro e' member
  obtain ⟨isLive', isIt⟩ := mem_liveIn.mp member
  obtain ⟨e, isLive, rfl⟩ := List.mem_map.mp isLive'
  rcases moves.relocate_cases ready isLive with ⟨outside, stays⟩ | ⟨-, k, goes⟩
  · rw [stays] at isIt
    exact outside (isIt ▸ inTargets)
  · obtain ⟨-, -, object, stored⟩ := mem_listSealed.mp (moves.listed id inTargets).1
    rw [← isIt, goes, ready.fresh k] at stored
    cases stored

/-- The live extents in an output are the places it gave away. -/
theorem Moves.liveIn_output (moves : Moves params cs objects live targets packing)
    (ready : Packable params cs objects live) (places : slots.map Prod.fst = moved live targets)
    (tiled : Tiled params slots packing) {id : Key} {k : Nat}
    (named : id = compactedID (params.clock k) k) :
    (liveIn (live.map (relocate packing)) id).Perm (placesIn slots id) := by
  have movedPerm : (moved live targets).Perm (live.filter fun e => e.chunkID ∈ targets) := by
    refine (List.perm_ext_iff_of_nodup (nodup_moved ready.nodup moves.nodup)
      (ready.nodup.filter _)).mpr fun e => ?_
    rw [mem_moved, List.mem_filter, decide_eq_true_eq]
  have given : slots.map Prod.snd = (moved live targets).map (relocate packing) := by
    rw [← places, List.map_map]
    exact List.map_congr_left fun slot member =>
      (moves.relocate_slot ready places tiled member).symm
  -- An extent that ends up here was in a target.
  have onlyMoved : live.filter ((fun e => decide (e.chunkID = id)) ∘ relocate packing) =
      (live.filter fun e => e.chunkID ∈ targets).filter
        ((fun e => decide (e.chunkID = id)) ∘ relocate packing) := by
    rw [List.filter_filter]
    refine List.filter_congr fun e isLive => ?_
    rcases moves.relocate_cases ready isLive with ⟨outside, stays⟩ | ⟨inTargets, -⟩
    · have notHere : e.chunkID ≠ id := fun isIt => ready.ne_compacted isLive k (isIt.trans named)
      simp [stays, notHere]
    · simp [inTargets]
  rw [placesIn, given, liveIn, List.filter_map, List.filter_map, onlyMoved]
  exact ((movedPerm.filter _).map _).symm

/-! ### The next start -/

/-- Relocated extents still have positions of their own. -/
theorem Moves.relocate_injective (moves : Moves params cs objects live targets packing)
    (ready : Packable params cs objects live) {e other : Extent} (isLive : e ∈ live)
    (isLive' : other ∈ live)
    (same : (relocate packing e).position = (relocate packing other).position) : e = other := by
  obtain ⟨slots, places, tiled⟩ := moves.tiledFor.2
  obtain ⟨sameID, sameOffset⟩ := Prod.mk.inj same
  by_cases inTargets : e.chunkID ∈ targets <;> by_cases inTargets' : other.chunkID ∈ targets
  · obtain ⟨slot, member, rfl, goes⟩ := moves.relocate_moved ready places tiled isLive inTargets
    obtain ⟨slot', member', rfl, goes'⟩ :=
      moves.relocate_moved ready places tiled isLive' inTargets'
    rw [goes, goes'] at sameID sameOffset
    -- Two places at one offset would share a byte.
    by_contra different
    have symmetric : Std.Symm fun a b : Extent × Extent => a.2.Apart b.2 :=
      ⟨fun _ _ apart => apart.symm⟩
    have apart := tiled.apart.forall member member' fun isIt => different (congrArg Prod.fst isIt)
    have bytes := tiled.positive slot member
    have bytes' := tiled.positive slot' member'
    rcases apart sameID with before | behind <;> omega
  · rcases moves.relocate_cases ready isLive with ⟨outside, -⟩ | ⟨-, k, goes⟩
    · exact absurd inTargets outside
    · rw [moves.relocate_kept ready isLive' inTargets', goes] at sameID
      exact absurd sameID.symm (ready.ne_compacted isLive' k)
  · rcases moves.relocate_cases ready isLive' with ⟨outside, -⟩ | ⟨-, k, goes⟩
    · exact absurd inTargets' outside
    · rw [moves.relocate_kept ready isLive inTargets, goes] at sameID
      exact absurd sameID (ready.ne_compacted isLive k)
  · rw [moves.relocate_kept ready isLive inTargets, moves.relocate_kept ready isLive' inTargets']
      at same
    exact ready.eq_of_position isLive isLive' same

/-- Positions stay distinct. -/
theorem Moves.distinct (moves : Moves params cs objects live targets packing)
    (ready : Packable params cs objects live) :
    ((live.map (relocate packing)).map Extent.position).Nodup := by
  rw [List.map_map]
  exact ready.nodup.map_on fun e isLive other isLive' same =>
    moves.relocate_injective ready isLive isLive' same

/-- A place lies in its output, which is stored. -/
theorem Moves.slot_stored (moves : Moves params cs objects live targets packing)
    (ready : Packable params cs objects live) (tiled : Tiled params slots packing)
    {objects' : Objects} (stored : OutputsStored objects' packing) {slot : Extent × Extent}
    (member : slot ∈ slots) : InChunk cs objects' slot.2 := by
  obtain ⟨output, isOutput, id⟩ := tiled.outputs slot member
  obtain ⟨low, high⟩ := tiled.inside member isOutput id.symm
  have bytes := tiled.positive slot member
  have nonempty : output.buf ≠ [] := by
    intro empty
    rw [empty, List.length_nil] at high
    omega
  obtain ⟨seq, active⟩ := ready.active
  obtain ⟨k, named⟩ := moves.slot_id tiled member
  refine ⟨low, output.buf, ?_, high⟩
  rw [chunkBytes, named, active, if_neg (compactedID_ne_chunkID _ _ _), ← named, ← id]
  exact stored output isOutput nonempty

/-- Every relocated extent has bytes and lies inside its chunk. -/
theorem Moves.inside (moves : Moves params cs objects live targets packing)
    (ready : Packable params cs objects live) {objects' : Objects}
    (kept : KeptExcept objects objects' targets) (stored : OutputsStored objects' packing)
    {e : Extent} (isLive : e ∈ live) :
    0 < (relocate packing e).length ∧ InChunk cs objects' (relocate packing e) := by
  by_cases inTargets : e.chunkID ∈ targets
  · obtain ⟨slots, places, tiled⟩ := moves.tiledFor.2
    obtain ⟨slot, member, -, goes⟩ := moves.relocate_moved ready places tiled isLive inTargets
    rw [goes]
    exact ⟨tiled.positive slot member, moves.slot_stored ready tiled stored member⟩
  · rw [moves.relocate_kept ready isLive inTargets]
    refine ⟨ready.positive e isLive, ?_⟩
    obtain ⟨low, bytes, found, within⟩ := ready.inside e isLive
    refine ⟨low, bytes, ?_, within⟩
    rw [chunkBytes] at found ⊢
    split_ifs at found ⊢ with isActive
    · exact found
    · exact kept _ _ found inTargets

end Relocation

end Compaction

end Fusey
