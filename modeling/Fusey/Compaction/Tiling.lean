import Fusey.Compaction.Compactor

/-!
Contract: where the packing loop of `Compact` puts the extents it moves
(`internal/compaction/compactor.go`, step 3).

Owns:
- extents one behind the other in a chunk, and what follows for the bytes they
  cover;
- that every output chunk is tiled by the places it was given, that no two
  places share a byte, and that an output with more than one place keeps the
  size limit;
- that this holds at every point of a run, whatever the store does, as long as
  live extents have bytes at offsets that `int64` holds.

Only the number of bytes that a read returns plays a part, not the bytes.
-/

set_option autoImplicit false

namespace Fusey

open GoInt Interleaving

/-- No byte of a chunk lies in both extents. -/
def Extent.Apart (a b : Extent) : Prop :=
  a.chunkID = b.chunkID →
    a.chunkOffset + a.length ≤ b.chunkOffset ∨ b.chunkOffset + b.length ≤ a.chunkOffset

theorem Extent.Apart.symm {a b : Extent} (apart : a.Apart b) : b.Apart a :=
  fun same => (apart same.symm).symm

namespace Compaction

/-! ### One behind the other -/

/-- The extents lie one behind the other, from `start` to `stop`. -/
def Consecutive : Int → List Extent → Int → Prop
  | start, [], stop => start = stop
  | start, e :: rest, stop => e.chunkOffset = start ∧ Consecutive (start + e.length) rest stop

section Consecutive

variable {start stop : Int} {exts : List Extent}

theorem Consecutive.concat (consecutive : Consecutive start exts stop) {e : Extent}
    (behind : e.chunkOffset = stop) : Consecutive start (exts ++ [e]) (stop + e.length) := by
  induction exts generalizing start with
  | nil =>
      cases consecutive
      exact ⟨behind, rfl⟩
  | cons first rest inductionHypothesis =>
      exact ⟨consecutive.1, inductionHypothesis consecutive.2⟩

theorem Consecutive.stop_eq (consecutive : Consecutive start exts stop) :
    stop = start + (exts.map Extent.length).sum := by
  induction exts generalizing start with
  | nil =>
      cases consecutive
      simp
  | cons first rest inductionHypothesis =>
      have further := inductionHypothesis consecutive.2
      rw [List.map_cons, List.sum_cons]
      omega

/-- Each of them lies between the two ends. -/
theorem Consecutive.within (consecutive : Consecutive start exts stop)
    (positive : ∀ e ∈ exts, 0 < e.length) :
    start ≤ stop ∧ ∀ e ∈ exts, start ≤ e.chunkOffset ∧ e.chunkOffset + e.length ≤ stop := by
  induction exts generalizing start with
  | nil =>
      cases consecutive
      exact ⟨le_rfl, nofun⟩
  | cons first rest inductionHypothesis =>
      obtain ⟨here, further⟩ := consecutive
      obtain ⟨ordered, inside⟩ := inductionHypothesis further
        fun e member => positive e (List.mem_cons_of_mem _ member)
      have length := positive first List.mem_cons_self
      refine ⟨by omega, fun e member => ?_⟩
      rcases List.mem_cons.mp member with rfl | later
      · omega
      · have := inside e later
        omega

/-- Together they cover everything between the two ends. -/
theorem Consecutive.covers (consecutive : Consecutive start exts stop) {p : Int} (low : start ≤ p)
    (high : p < stop) : ∃ e ∈ exts, e.chunkOffset ≤ p ∧ p < e.chunkOffset + e.length := by
  induction exts generalizing start with
  | nil =>
      cases consecutive
      omega
  | cons first rest inductionHypothesis =>
      obtain ⟨here, further⟩ := consecutive
      by_cases before : p < start + first.length
      · exact ⟨first, List.mem_cons_self, by omega, by omega⟩
      · obtain ⟨e, member, covered⟩ := inductionHypothesis further (by omega)
        exact ⟨e, List.mem_cons_of_mem _ member, covered⟩

end Consecutive

/-! ### The places of a packing -/

/-- The places that were given in one chunk, in their order. -/
def placesIn (slots : List (Extent × Extent)) (id : Key) : List Extent :=
  (slots.map Prod.snd).filter fun place => place.chunkID = id

theorem mem_placesIn {slots : List (Extent × Extent)} {id : Key} {place : Extent} :
    place ∈ placesIn slots id ↔ ∃ slot ∈ slots, slot.2 = place ∧ place.chunkID = id := by
  simp only [placesIn, List.mem_filter, List.mem_map, decide_eq_true_eq]
  constructor
  · rintro ⟨⟨slot, member, same⟩, inChunk⟩
    exact ⟨slot, member, same, inChunk⟩
  · rintro ⟨slot, member, same, inChunk⟩
    exact ⟨⟨slot, member, same⟩, inChunk⟩

/-- The packing loop after it has given each extent of `slots` the place beside
it. An extent that is read twice has two places, and the table names the second. -/
structure Tiled (params : Params) (slots : List (Extent × Extent)) (packing : Packing) :
    Prop where
  origin : ∀ key place, packing.remap.get key = some place →
    ∃ slot ∈ slots, key = (slot.1.chunkID, slot.1.chunkOffset) ∧ slot.2 = place
  copies : ∀ slot ∈ slots, slot.2.length = slot.1.length ∧ slot.2.fileOffset = slot.1.fileOffset
  positive : ∀ slot ∈ slots, 0 < slot.2.length
  outputs : ∀ slot ∈ slots, ∃ output ∈ packing.earlier ++ [packing.current],
    output.id = slot.2.chunkID
  tiles : ∀ output ∈ packing.earlier ++ [packing.current],
    Consecutive 0 (placesIn slots output.id) output.buf.length
  apart : slots.Pairwise fun a b => a.2.Apart b.2
  limited : ∀ output ∈ packing.earlier ++ [packing.current],
    (output.buf.length : Int) < 9223372036854775808 →
      (output.buf.length : Int) ≤ params.chunkSize ∨ (placesIn slots output.id).length ≤ 1

section Tiled

variable {Reads : Extent → Bytes → Prop} {params : Params} {slots : List (Extent × Extent)}
  {packing : Packing} {done : List Extent}

theorem Tiled.begin (params : Params) : Tiled params [] (.begin params) where
  origin := fun key place found => by cases found
  copies := nofun
  positive := nofun
  outputs := nofun
  tiles := by
    intro output member
    rw [List.mem_singleton.mp member]
    rfl
  apart := List.Pairwise.nil
  limited := fun _ _ _ => Or.inr (Nat.zero_le _)

/-- A place lies in the buffer of its output. -/
theorem Tiled.inside (tiled : Tiled params slots packing) {slot : Extent × Extent}
    (member : slot ∈ slots) {output : OutputChunk}
    (isOutput : output ∈ packing.earlier ++ [packing.current]) (id : slot.2.chunkID = output.id) :
    0 ≤ slot.2.chunkOffset ∧ slot.2.chunkOffset + slot.2.length ≤ output.buf.length := by
  refine ((tiled.tiles output isOutput).within ?_).2 slot.2
    (mem_placesIn.mpr ⟨slot, member, rfl, id⟩)
  intro place inChunk
  obtain ⟨other, isSlot, rfl, -⟩ := mem_placesIn.mp inChunk
  exact tiled.positive other isSlot

theorem Tiled.newOutput (tiled : Tiled params slots packing)
    (packed : Packed Reads params done packing) :
    Tiled params slots (packing.newOutput params) := by
  have unused : ∀ slot ∈ slots, slot.2.chunkID ≠ (packing.newOutput params).current.id := by
    intro slot member same
    obtain ⟨output, isOutput, id⟩ := tiled.outputs slot member
    exact packed.newOutput.earlier_ne output isOutput (id.trans same)
  have nothing : placesIn slots (packing.newOutput params).current.id = [] := by
    rw [List.eq_nil_iff_forall_not_mem]
    intro place inChunk
    obtain ⟨slot, member, rfl, id⟩ := mem_placesIn.mp inChunk
    exact unused slot member id
  refine ⟨tiled.origin, tiled.copies, tiled.positive, ?_, ?_, tiled.apart, ?_⟩
  · intro slot member
    obtain ⟨output, isOutput, id⟩ := tiled.outputs slot member
    exact ⟨output, List.mem_append_left _ isOutput, id⟩
  · intro output isOutput
    rcases List.mem_append.mp isOutput with old | new
    · exact tiled.tiles output old
    · rw [List.mem_singleton.mp new, nothing]
      rfl
  · intro output isOutput
    rcases List.mem_append.mp isOutput with old | new
    · exact tiled.limited output old
    · rw [List.mem_singleton.mp new, nothing]
      exact fun _ => Or.inr (Nat.zero_le _)

theorem Tiled.roomFor (tiled : Tiled params slots packing)
    (packed : Packed Reads params done packing) (e : Extent) :
    Tiled params slots (packing.roomFor params e) := by
  unfold Packing.roomFor
  split_ifs
  · exact tiled.newOutput packed
  · exact tiled

/-- There is room for the extent in the current output, or nothing in it. -/
theorem Packing.roomFor_room (params : Params) (packing : Packing) (e : Extent) :
    (packing.roomFor params e).current.buf = [] ∨
      wrap64 ((packing.roomFor params e).current.buf.length + e.length) ≤ params.chunkSize := by
  unfold Packing.roomFor
  split_ifs with full
  · exact Or.inl rfl
  · by_cases empty : packing.current.buf = []
    · exact Or.inl empty
    · exact Or.inr (Int.not_lt.mp fun above => full ⟨empty, above⟩)

/-- The place that an extent gets in the current output. -/
def Packing.nextPlace (packing : Packing) (e : Extent) : Extent :=
  { chunkID := packing.current.id, chunkOffset := packing.current.buf.length,
    length := e.length, fileOffset := e.fileOffset }

theorem Tiled.place (tiled : Tiled params slots packing)
    (packed : Packed Reads params done packing) {e : Extent} (positive : 0 < e.length)
    {data : Bytes} (full : (data.length : Int) = e.length)
    (room : packing.current.buf = [] ∨
      wrap64 (packing.current.buf.length + e.length) ≤ params.chunkSize) :
    Tiled params (slots ++ [(e, packing.nextPlace e)]) (packing.place e data) := by
  have isCurrent : packing.current ∈ packing.earlier ++ [packing.current] :=
    List.mem_append_right _ (List.mem_singleton_self _)
  -- The new place comes behind those of the current output and touches no other.
  have here : placesIn (slots ++ [(e, packing.nextPlace e)]) packing.current.id =
      placesIn slots packing.current.id ++ [packing.nextPlace e] := by
    simp [placesIn, Packing.nextPlace]
  have elsewhere : ∀ output ∈ packing.earlier,
      placesIn (slots ++ [(e, packing.nextPlace e)]) output.id = placesIn slots output.id := by
    intro output earlier
    have other : packing.current.id ≠ output.id := (packed.earlier_ne output earlier).symm
    simp [placesIn, Packing.nextPlace, other]
  have grown : ((packing.current.buf ++ data).length : Int) =
      packing.current.buf.length + (packing.nextPlace e).length := by
    rw [List.length_append, Nat.cast_add, full]
    rfl
  refine ⟨?_, ?_, ?_, ?_, ?_, ?_, ?_⟩
  · intro key place found
    simp only [Packing.place, GoMap.get_set] at found
    split_ifs at found with isIt
    · cases found
      exact ⟨_, List.mem_append_right _ (List.mem_singleton_self _), isIt, rfl⟩
    · obtain ⟨slot, member, isKey, same⟩ := tiled.origin key place found
      exact ⟨slot, List.mem_append_left _ member, isKey, same⟩
  · intro slot member
    rcases List.mem_append.mp member with old | new
    · exact tiled.copies slot old
    · rw [List.mem_singleton.mp new]
      exact ⟨rfl, rfl⟩
  · intro slot member
    rcases List.mem_append.mp member with old | new
    · exact tiled.positive slot old
    · rw [List.mem_singleton.mp new]
      exact positive
  · intro slot member
    rcases List.mem_append.mp member with old | new
    · obtain ⟨output, isOutput, id⟩ := tiled.outputs slot old
      rcases List.mem_append.mp isOutput with earlier | current
      · exact ⟨output, List.mem_append_left _ earlier, id⟩
      · rw [List.mem_singleton.mp current] at id
        exact ⟨_, List.mem_append_right _ (List.mem_singleton_self _), id⟩
    · rw [List.mem_singleton.mp new]
      exact ⟨_, List.mem_append_right _ (List.mem_singleton_self _), rfl⟩
  · intro output isOutput
    rcases List.mem_append.mp isOutput with earlier | current
    · rw [elsewhere output earlier]
      exact tiled.tiles output (List.mem_append_left _ earlier)
    · rw [List.mem_singleton.mp current]
      have tiles := (tiled.tiles packing.current isCurrent).concat (e := packing.nextPlace e) rfl
      rw [← here, ← grown] at tiles
      exact tiles
  · rw [List.pairwise_append]
    refine ⟨tiled.apart, List.pairwise_singleton _ _, ?_⟩
    intro slot old new isNew
    rw [List.mem_singleton.mp isNew]
    intro same
    exact Or.inl (tiled.inside old isCurrent same).2
  · intro output isOutput small
    rcases List.mem_append.mp isOutput with earlier | current
    · rw [elsewhere output earlier]
      exact tiled.limited output (List.mem_append_left _ earlier) small
    · rw [List.mem_singleton.mp current] at small ⊢
      have length : ((packing.place e data).current.buf.length : Int) =
          packing.current.buf.length + e.length := grown
      have sameID : (packing.place e data).current.id = packing.current.id := rfl
      rw [length] at small ⊢
      rcases room with empty | fits
      · -- An empty buffer has no place with bytes.
        have none : placesIn slots packing.current.id = [] := by
          rw [List.eq_nil_iff_forall_not_mem]
          intro place inChunk
          obtain ⟨slot, member, rfl, id⟩ := mem_placesIn.mp inChunk
          have inside := tiled.inside member isCurrent id
          have bytes := tiled.positive slot member
          rw [empty, List.length_nil] at inside
          omega
        rw [sameID, here, none]
        exact Or.inr le_rfl
      · rw [wrap64_of_nonneg (by omega) small] at fits
        exact Or.inl fits

/-- Entries of the table for different positions share no byte. -/
theorem Tiled.entries_apart (tiled : Tiled params slots packing) {key other : Key × Int}
    {place place' : Extent} (found : packing.remap.get key = some place)
    (found' : packing.remap.get other = some place') (different : key ≠ other) :
    place.Apart place' := by
  obtain ⟨slot, member, rfl, rfl⟩ := tiled.origin key place found
  obtain ⟨slot', member', rfl, rfl⟩ := tiled.origin other place' found'
  have symmetric : Std.Symm fun a b : Extent × Extent => a.2.Apart b.2 :=
    ⟨fun _ _ apart => apart.symm⟩
  refine tiled.apart.forall member member' ?_
  rintro rfl
  exact different rfl

end Tiled

/-! ### Every point of a run -/

/-- What a run has packed so far satisfies `P`. -/
def Run.Packs (P : List Extent → Packing → Prop) (run : Run) : Prop :=
  match run.stage with
  | .listing | .sizing .. => True
  | .reading targets packing e pending =>
      ∃ done, moved run.live targets = done ++ e :: pending ∧ P done packing
  | .putting targets packing _ _ | .persisting targets packing | .deleting targets packing _ _ =>
      P (moved run.live targets) packing

section Packs

variable {P : List Extent → Packing → Prop} {run : Run} {targets : List Key} {packing : Packing}

theorem Run.Packs.toPut (packs : P (moved run.live targets) packing) (pending : List OutputChunk) :
    (run.toPut targets packing pending).Packs P := by
  cases pending <;> exact packs

theorem Run.Packs.toRead {done pending : List Extent}
    (order : moved run.live targets = done ++ pending) (packs : P done packing) :
    (run.toRead targets packing pending).Packs P := by
  cases pending with
  | nil =>
      rw [List.append_nil] at order
      exact Run.Packs.toPut (order ▸ packs) _
  | cons e pending => exact ⟨done, order, packs⟩

/-- The rule for a property of the packing: it holds at the beginning, and
placing an extent that was read keeps it. -/
theorem Run.Packs.resume (packs : run.Packs P) (begins : P [] (.begin run.params)) {answer : Answer}
    (places : ∀ targets packing e pending done cs data,
      run.stage = .reading targets packing e pending → answer = .bytes cs (.ok data) →
      P done packing → P (done ++ [e]) ((packing.roomFor run.params e).place e data)) {run' : Run}
    (continues : run.resume answer = .inl run') : run'.Packs P := by
  unfold Run.Packs at packs
  cases Run.next_of_resume continues with
  | sizeFirst => trivial
  | sizeNext => trivial
  | pack => exact Run.Packs.toRead (List.nil_append _).symm begins
  | @read targets packing e pending cs data stage =>
      rw [stage] at packs
      obtain ⟨done, order, packed⟩ := packs
      have next : moved run.live targets = (done ++ [e]) ++ pending := by
        rw [order, List.append_assoc, List.singleton_append]
      exact @Run.Packs.toRead _ { run with cs := cs } _ _ _ _ next
        (places targets packing e pending done cs data stage rfl packed)
  | put stage =>
      rw [stage] at packs
      exact Run.Packs.toPut packs _
  | persist stage =>
      rw [stage] at packs
      exact packs
  | delete stage =>
      rw [stage] at packs
      exact packs

end Packs

/-- A read returned as many bytes as the extent has. -/
def Full (e : Extent) (data : Bytes) : Prop := (data.length : Int) = e.length

/-- The extents `done` have been packed, each into a place of its own. -/
def TiledFor (params : Params) (done : List Extent) (packing : Packing) : Prop :=
  Packed Full params done packing ∧
    ∃ slots : List (Extent × Extent), slots.map Prod.fst = done ∧ Tiled params slots packing

/-- The extent has bytes, at offsets that `int64` holds. -/
structure Movable (e : Extent) : Prop where
  positive : 0 < e.length
  chunkOffset : 0 ≤ e.chunkOffset
  chunkEnd : e.chunkOffset + e.length < 9223372036854775808

theorem TiledFor.begin (params : Params) : TiledFor params [] (.begin params) :=
  ⟨.begin _ _, [], rfl, .begin params⟩

theorem TiledFor.place {params : Params} {done : List Extent} {packing : Packing}
    (tiledFor : TiledFor params done packing) {e : Extent} (positive : 0 < e.length) {data : Bytes}
    (full : Full e data) :
    TiledFor params (done ++ [e]) ((packing.roomFor params e).place e data) := by
  obtain ⟨packed, slots, rfl, tiled⟩ := tiledFor
  refine ⟨(packed.roomFor e).place full, slots ++ [(e, (packing.roomFor params e).nextPlace e)], ?_,
    (tiled.roomFor packed e).place (packed.roomFor e) positive full
      (packing.roomFor_room params e)⟩
  rw [List.map_append, List.map_singleton]

/-- A read of a movable extent that succeeds returns all of it. -/
theorem full_of_read {δ : Type} {persist : Index → Oracle → Objects × δ → (Objects × δ) × Bool}
    {s s' : Objects × δ} {cs cs' : ChunkStore} {e : Extent} (movable : Movable e) {o : Oracle}
    {data : Bytes}
    (applied : apply mapStore persist s (.read cs e.chunkID e.chunkOffset e.length) o =
      some (s', .bytes cs' (.ok data))) : Full e data := by
  obtain ⟨positive, low, high⟩ := movable
  simp only [apply] at applied
  split_ifs at applied
  · obtain ⟨-, answer⟩ := Prod.mk.inj (Option.some.inj applied)
    obtain ⟨bytes, -, full, -⟩ := ChunkStore.read_source
      (wrap64_of_nonneg (by omega) high) (Answer.bytes.inj answer).2
    exact full
  · cases applied

section Run

variable {δ : Type} {persist : Index → Oracle → Objects × δ → (Objects × δ) × Bool}
  {params : Params} {idx : Index} {cs : ChunkStore} {order : List (Ino × List Extent)}
  {start s : Objects × δ} {point : Run ⊕ Reply}

/-- At every point of a run its stage is tracked and its packing tiled. -/
theorem tiled_of_progress (movable : ∀ e ∈ Index.liveExtents order, Movable e)
    (progress : Progress (compactSys mapStore persist) start (Run.begin params idx cs order) s
      point) :
    (∀ run, point = .inl run → run.params = params ∧
        run.Tracked (fun _ => True) Full idx (Index.liveExtents order) ∧
        run.Packs (TiledFor params)) ∧
      ∀ reply, point = .inr reply → reply.ok = true →
        reply.idx = idx ∨ ∃ targets packing,
          reply.idx = idx.remapExtents packing.remap ∧
            TiledFor params (moved (Index.liveExtents order) targets) packing := by
  refine Progress.invariant (fun _ point =>
    (∀ run, point = .inl run → run.params = params ∧
        run.Tracked (fun _ => True) Full idx (Index.liveExtents order) ∧
        run.Packs (TiledFor params)) ∧
      ∀ reply, point = .inr reply → reply.ok = true →
        reply.idx = idx ∨ ∃ targets packing,
          reply.idx = idx.remapExtents packing.remap ∧
            TiledFor params (moved (Index.liveExtents order) targets) packing) ?_ ?_ progress
  · refine ⟨?_, nofun⟩
    rintro run ⟨⟩
    exact ⟨rfl, ⟨rfl, rfl⟩, trivial⟩
  · rintro s run o s' a ⟨holds, -⟩ applied
    obtain ⟨isParams, tracked, packs⟩ := holds run rfl
    -- Only live extents are read, and all of each.
    have reads : ∀ targets packing e pending, run.stage = .reading targets packing e pending →
        ∀ cs data, a = .bytes cs (.ok data) → 0 < e.length ∧ Full e data := by
      rintro targets packing e pending stage cs data rfl
      have isLive : e ∈ Index.liveExtents order := by
        obtain ⟨-, holds⟩ := tracked
        rw [stage] at holds
        obtain ⟨-, -, done, order, -⟩ := holds
        exact (mem_moved.mp (order ▸ List.mem_append_right _ List.mem_cons_self)).1
      have asked : apply mapStore persist s run.effect o = some (s', .bytes cs (.ok data)) :=
        applied
      simp only [Run.effect, stage] at asked
      exact ⟨(movable e isLive).positive, full_of_read (movable e isLive) asked⟩
    refine ⟨fun run' continues => ?_, fun reply returned ok => ?_⟩
    · refine ⟨(Run.params_of_resume continues).trans isParams,
        tracked.resume (fun _ _ _ _ _ => trivial) (fun targets packing e pending stage cs data
          answered => (reads targets packing e pending stage cs data answered).2) continues,
        packs.resume (isParams ▸ .begin _) ?_ continues⟩
      intro targets packing e pending done cs data stage answered tiledFor
      obtain ⟨positive, full⟩ := reads targets packing e pending stage cs data answered
      rw [isParams]
      exact tiledFor.place positive full
    · obtain ⟨returns, same⟩ := Run.returns_of_resume returned ok
      obtain ⟨isLive, holds⟩ := tracked
      unfold Run.Packs at packs
      rw [same]
      cases returns with
      | nothingListed stage =>
          rw [stage] at holds
          exact Or.inl holds
      | nothingSelected stage =>
          rw [stage] at holds
          exact Or.inl holds.1
      | nothingToDelete stage =>
          rw [stage] at holds packs
          exact Or.inr ⟨_, _, holds.1, isLive ▸ packs⟩
      | lastDeleted stage =>
          rw [stage] at holds packs
          exact Or.inr ⟨_, _, holds.1, isLive ▸ packs⟩

end Run

end Compaction

end Fusey
