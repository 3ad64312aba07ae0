import Fusey.Compaction.Tiling
import Fusey.Fuse.Ledger

/-!
Contract: whether the key under which `Compact` remaps an extent, its chunk and
its offset there, identifies the extent.

Owns:
- what the index mutators do to the extents of a file, as one way of cutting
  each of them;
- that in every run from an empty filesystem, with compactions in between, no two
  live extents share a byte of a chunk, but for copies within one file that the
  loop of `WriteExtent` may leave;
- the condition under which a key then identifies an extent, and a run in which
  it does not.

The persist function of `Compact` may be any. Does not own the bytes.
-/

set_option autoImplicit false

namespace Fusey

open GoInt Interleaving

/-- The extent is one of the file's. -/
def Index.Has (idx : Index) (ino : Ino) (e : Extent) : Prop :=
  ∃ exts, idx.extents.get ino = some exts ∧ e ∈ exts

/-! ### Cutting extents -/

theorem Extent.Apart.of_parts {a b p q : Extent} (apart : a.Apart b) (ofA : p.Part a)
    (ofB : q.Part b) : p.Apart q := by
  intro same
  have disjoint := apart (ofA.chunk.symm.trans (same.trans ofB.chunk))
  obtain ⟨-, shiftA, startA, stopA, -⟩ := ofA
  obtain ⟨-, shiftB, startB, stopB, -⟩ := ofB
  omega

/-- A way of cutting extents: what is kept of one are parts with bytes, which
share none. -/
structure Cuts (cut : Extent → List Extent) : Prop where
  part : ∀ e p, e.InRange → 0 < e.length → p ∈ cut e → p.Part e ∧ p.InRange ∧ 0 < p.length
  apart : ∀ e p q, e.InRange → p ∈ cut e → q ∈ cut e → p = q ∨ p.Apart q

theorem Cuts.keep : Cuts fun e => [e] where
  part := by
    intro e p range positive member
    rw [List.mem_singleton.mp member]
    exact ⟨.refl range.length, range, positive⟩
  apart := by
    intro e p q _ inP inQ
    rw [List.mem_singleton.mp inP, List.mem_singleton.mp inQ]
    exact Or.inl rfl

theorem Cuts.trim {size : Int} (sizeRange : IsInt64 size) :
    Cuts fun e => (trimExtent size e).toList where
  part := by
    intro e p range positive member
    have kept : trimExtent size e = some p := Option.mem_toList.mp member
    have inList : p ∈ trimExtents size [e] := by
      simp only [trimExtents, List.filterMap_cons, kept, List.mem_cons, true_or]
    obtain ⟨pRange, whole, isE, part⟩ := trimExtents_part
      (by rintro x (_ | ⟨_, ⟨⟩⟩); exact range) sizeRange p inList
    rw [List.mem_singleton.mp isE] at part
    refine ⟨part, pRange, ?_⟩
    obtain ⟨fileOffset, -, low, high⟩ := range
    unfold IsInt64 at fileOffset sizeRange
    unfold trimExtent at kept
    split_ifs at kept with beyond longer <;> cases kept
    · unfold Extent.fileEnd wrap64 at longer
      simp only [wrap64]
      omega
    · exact positive
  apart := by
    intro e p q _ inP inQ
    cases (Option.mem_toList.mp inP).symm.trans (Option.mem_toList.mp inQ)
    exact Or.inl rfl

/-- Head and tail of an extent lie on the two sides of the write, also where the
end of the write wraps. -/
theorem Extent.headPiece_apart_tailPiece {ext e : Extent} (range : e.InRange)
    (extRange : ext.InRange) (overlap : ext.fileOffset < e.fileEnd)
    (inside : e.fileOffset < ext.fileEnd) (before : e.fileOffset < ext.fileOffset)
    (behind : ext.fileEnd < e.fileEnd) : (headPiece ext e).Apart (tailPiece ext.fileEnd e) := by
  have head := headPiece_part range extRange before overlap
  have tail := tailPiece_part range extRange overlap inside behind
  intro _
  left
  have headLength : (headPiece ext e).length = wrap64 (ext.fileOffset - e.fileOffset) := rfl
  have headOffset : (headPiece ext e).fileOffset = e.fileOffset := rfl
  have tailOffset : (tailPiece ext.fileEnd e).fileOffset = ext.fileEnd := rfl
  have ordered : ext.fileOffset ≤ ext.fileEnd := by
    obtain ⟨⟨_, _⟩, _, _, _⟩ := range
    obtain ⟨⟨_, _⟩, _, _, _⟩ := extRange
    unfold Extent.fileEnd wrap64 at *
    omega
  have length : wrap64 (ext.fileOffset - e.fileOffset) = ext.fileOffset - e.fileOffset := by
    obtain ⟨⟨_, _⟩, _, _, _⟩ := range
    obtain ⟨⟨_, _⟩, _, _, _⟩ := extRange
    unfold Extent.fileEnd at overlap
    unfold wrap64 at *
    omega
  have headShift := head.shift
  have tailShift := tail.shift
  omega

theorem Cuts.write {ext : Extent} (extRange : ext.InRange) : Cuts (Extent.pieces ext) where
  part := by
    intro e p range positive member
    obtain ⟨part, pRange⟩ := Extent.pieces_part range extRange member
    refine ⟨part, pRange, ?_⟩
    obtain ⟨⟨_, _⟩, _, _, _⟩ := range
    obtain ⟨⟨_, _⟩, _, _, _⟩ := extRange
    rcases Extent.mem_pieces member with
      ⟨rfl, -⟩ | ⟨overlap, inside, ⟨before, rfl⟩ | ⟨behind, rfl⟩⟩
    · exact positive
    · unfold Extent.fileEnd wrap64 at overlap
      simp only [Extent.headPiece, wrap64]
      omega
    · have plain : e.fileEnd = e.fileOffset + e.length := by
        unfold Extent.fileEnd wrap64 at *
        omega
      have fin : IsInt64 ext.fileEnd := wrap64_range _
      unfold IsInt64 at fin
      generalize ext.fileEnd = fin' at *
      simp only [Extent.tailPiece, plain, wrap64] at *
      omega
  apart := by
    intro e p q range inP inQ
    rcases Extent.mem_pieces inP with
      ⟨rfl, outside⟩ | ⟨overlap, inside, ⟨before, rfl⟩ | ⟨behind, rfl⟩⟩ <;>
    rcases Extent.mem_pieces inQ with
      ⟨rfl, outside'⟩ | ⟨overlap', inside', ⟨before', rfl⟩ | ⟨behind', rfl⟩⟩
    · exact Or.inl rfl
    · omega
    · omega
    · omega
    · exact Or.inl rfl
    · exact Or.inr
        (Extent.headPiece_apart_tailPiece range extRange overlap inside before behind')
    · omega
    · exact Or.inr
        (Extent.headPiece_apart_tailPiece range extRange overlap inside before' behind).symm
    · exact Or.inl rfl

/-- A mutator cuts the extents of a file in one way and adds at most the extent
that it writes. -/
theorem Mutation.cuts {m : Mutation} {idx idx' : Index} (applied : m.apply idx = .ok idx')
    (sizes : ∀ ino change now, m = .setAttr ino change now → ∀ size ∈ change.size, IsInt64 size)
    (writes : ∀ ino ext now, m = .writeExtent ino ext now → ext.InRange) {ino : Ino}
    {exts : List Extent} (stored : idx'.extents.get ino = some exts) :
    ∃ cut, Cuts cut ∧ ∀ e ∈ exts, (∃ whole, idx.Has ino whole ∧ e ∈ cut whole) ∨
      ∃ now, m = .writeExtent ino e now := by
  have old : ∀ e ∈ (idx.extents.get ino).getD [], idx.Has ino e := by
    intro e member
    cases found : idx.extents.get ino with
    | none =>
        rw [found] at member
        cases member
    | some list =>
        rw [found] at member
        exact ⟨list, found, member⟩
  rcases Mutation.extents applied stored with
    same | ⟨rfl, -⟩ | ⟨change, now, size, rfl, given, -, rfl⟩ | ⟨ext, now, rfl, rfl⟩
  · exact ⟨_, .keep, fun e member => Or.inl ⟨e, ⟨exts, same, member⟩, List.mem_singleton_self e⟩⟩
  · exact ⟨_, .keep, nofun⟩
  · refine ⟨_, .trim (sizes ino change now rfl size given), fun e member => ?_⟩
    obtain ⟨whole, inExts, kept⟩ := List.mem_filterMap.mp member
    exact Or.inl ⟨whole, old whole inExts, Option.mem_toList.mpr kept⟩
  · have extRange := writes ino ext now rfl
    refine ⟨_, .write extRange, fun e member => ?_⟩
    rcases mem_writeExtents extRange.fileOffset member with rfl | ⟨whole, inExts, inPieces⟩
    · exact Or.inr ⟨now, rfl⟩
    · exact Or.inl ⟨whole, old whole inExts, inPieces⟩

/-! ### Where `Append` does not write again -/

/-- The extent lies in a chunk that has been minted and, in the active one, in
the buffer. -/
structure ChunkStore.Occupies (cs : ChunkStore) (e : Extent) : Prop where
  minted : ∀ seq, cs.nextSeq ≤ seq → e.chunkID ≠ chunkID seq
  active : e.chunkID = cs.activeID → e.chunkOffset + e.length ≤ cs.activeBuf.length

/-- The active chunk is the last one that was minted. -/
def ChunkStore.Counted (cs : ChunkStore) : Prop :=
  ∃ seq, cs.nextSeq = seq + 1 ∧ cs.activeID = chunkID seq

theorem ChunkStore.Occupies.of_part {cs : ChunkStore} {part whole : Extent}
    (occupies : cs.Occupies whole) (piece : part.Part whole) : cs.Occupies part where
  minted := fun seq later => piece.chunk ▸ occupies.minted seq later
  active := by
    intro isActive
    have high := occupies.active (piece.chunk.symm.trans isActive)
    have shift := piece.shift
    have stop := piece.stop
    omega

theorem ChunkStore.Move.occupies {seals : Bool} {before after : Objects × ChunkStore}
    (move : Move seals before after) (counted : before.2.Counted) :
    after.2.Counted ∧ ∀ e, before.2.Occupies e → after.2.Occupies e := by
  -- Once the next chunk is active, nothing lies in it.
  have rotated : ∀ cs cs' : ChunkStore, cs'.activeID = chunkID cs.nextSeq →
      cs'.nextSeq = cs.nextSeq + 1 → ∀ e, cs.Occupies e → cs'.Occupies e := by
    intro cs cs' active next e occupies
    refine ⟨fun seq later => occupies.minted seq (by omega), fun isActive => ?_⟩
    exact absurd (isActive.trans active) (occupies.minted _ le_rfl)
  cases move with
  | put objects cs dirty => exact ⟨counted, fun e occupies => ⟨occupies.minted, occupies.active⟩⟩
  | rotateEmpty objects cs _ empty => exact ⟨⟨cs.nextSeq, rfl, rfl⟩, rotated _ _ rfl rfl⟩
  | rotateStored objects cs cached stored => exact ⟨⟨cs.nextSeq, rfl, rfl⟩, rotated _ _ rfl rfl⟩
  | push objects cs data fileOffset =>
      refine ⟨counted, fun e occupies => ⟨occupies.minted, fun isActive => ?_⟩⟩
      have high : e.chunkOffset + e.length ≤ cs.activeBuf.length := occupies.active isActive
      change e.chunkOffset + e.length ≤ ((cs.activeBuf ++ data).length : Int)
      rw [List.length_append]
      omega
  | recache objects cs enabled stored =>
      exact ⟨counted, fun e occupies => ⟨occupies.minted, occupies.active⟩⟩

/-- No step of the daemon gives up what is occupied. -/
theorem Daemon.occupies_of_apply {d d' : Daemon} {e : Effect} {o : Oracle} {a : Answer}
    (counted : d.cs.Counted) (applied : d.apply e o = some (d', a)) :
    d'.cs.Counted ∧ d'.cs.maxChunkSize = d.cs.maxChunkSize ∧
      ∀ x, d.cs.Occupies x → d'.cs.Occupies x := by
  rcases Daemon.apply_store applied with moves | ⟨data, -, rfl⟩
  · refine Relation.ReflTransGen.rec (motive := fun after _ => after.2.Counted ∧
      after.2.maxChunkSize = d.cs.maxChunkSize ∧ ∀ x, d.cs.Occupies x → after.2.Occupies x)
      ⟨counted, rfl, fun _ => id⟩ ?_ moves
    rintro middle after - move ⟨known, same, kept⟩
    obtain ⟨known', kept'⟩ := move.occupies known
    exact ⟨known', move.maxChunkSize.trans same, fun x occupies => kept' x (kept x occupies)⟩
  · exact ⟨counted, rfl, fun _ => id⟩

/-- The extent that `Append` returns lies where nothing lay. -/
theorem Daemon.appended_apart {d d' : Daemon} {o : Oracle} {data : Bytes} {off : Int} {ext : Extent}
    (applied : d.apply (.append data off) o = some (d', .extent ext)) {e : Extent}
    (occupies : d.cs.Occupies e) : ext.Apart e := by
  intro same
  right
  rcases Daemon.apply_append_chunk applied with ⟨active, offset, -⟩ | next
  · rw [offset]
    exact occupies.active (same.symm.trans active)
  · exact absurd (same.symm.trans next) (occupies.minted _ le_rfl)

theorem Daemon.appended_occupies {d d' : Daemon} {o : Oracle} {data : Bytes} {off : Int}
    {ext : Extent} (counted : d'.cs.Counted)
    (applied : d.apply (.append data off) o = some (d', .extent ext)) : d'.cs.Occupies ext := by
  obtain ⟨start, buffer, -, rfl, -⟩ := Daemon.apply_append applied
  obtain ⟨current, next, active⟩ := counted
  refine ⟨fun seq later same => ?_, fun _ => ?_⟩
  · have := chunkID_injective (active.symm.trans same)
    omega
  · rw [buffer, List.length_append, Nat.cast_add]

/-! ### What holds between any two steps -/

/-- No two extents share a byte, but for copies in one file. -/
structure Keyed (d : Daemon) : Prop where
  counted : d.cs.Counted
  chunkSize : d.cs.maxChunkSize < 9223372036854775808
  extents : ∀ ino e, d.idx.Has ino e → e.InRange ∧ 0 < e.length ∧ d.cs.Occupies e
  apart : ∀ ino e ino' e', d.idx.Has ino e → d.idx.Has ino' e' →
    e.Apart e' ∨ ino = ino' ∧ e = e'

/-- An extent that is about to be recorded, and shares no byte with a recorded
one. -/
structure Pending (d : Daemon) (ext : Extent) : Prop where
  range : ext.InRange
  positive : 0 < ext.length
  occupies : d.cs.Occupies ext
  apart : ∀ ino e, d.idx.Has ino e → ext.Apart e

/-- The writes under way bring bytes. -/
def Call.Carries (d : Daemon) : Call → Prop
  | .write _ data off _ | .writeSpace _ data off _ _ | .writeAppend _ data off _ =>
      IsInt64 off ∧ data ≠ []
  | .writeRecord _ _ ext _ => Pending d ext
  | .mutate _ => False
  | _ => True

/-- Where an extent comes from: it was recorded for the file, or the call records
it now. -/
def Source (d : Daemon) (c : Call) (ino : Ino) (whole : Extent) : Prop :=
  d.idx.Has ino whole ∨ (∃ data now, c = .writeRecord ino data whole now) ∧ Pending d whole

section Steps

variable {cfg : Config} {d d' : Daemon} {o : Oracle} {a : Answer} {c : Call} {ino : Ino}

/-- A step cuts the extents of a file in one way and adds at most the extent that
it records. -/
theorem Call.Carries.cuts (keeps : c.Carries d) (applied : d.apply c.effect o = some (d', a))
    {exts : List Extent} (stored : d'.idx.extents.get ino = some exts) :
    ∃ cut, Cuts cut ∧ ∀ e ∈ exts, (∃ whole, d.idx.Has ino whole ∧ e ∈ cut whole) ∨
      ∃ data now, c = .writeRecord ino data e now := by
  have unchanged : d.idx.extents.get ino = some exts → ∃ cut, Cuts cut ∧ ∀ e ∈ exts,
      (∃ whole, d.idx.Has ino whole ∧ e ∈ cut whole) ∨
        ∃ data now, c = .writeRecord ino data e now :=
    fun same => ⟨_, .keep, fun e member =>
      Or.inl ⟨e, ⟨exts, same, member⟩, List.mem_singleton_self e⟩⟩
  rcases Daemon.apply_idx applied with same | ⟨m, asks, done, -⟩ | ⟨-, same⟩ | ⟨-, same⟩
  · exact unchanged (same ▸ stored)
  · have sizes : ∀ ino change now, m = .setAttr ino change now → ∀ size ∈ change.size,
        IsInt64 size := by
      rintro ino change now rfl size given
      cases c <;> cases asks
      case setattr.refl input => exact input.isInt64_size given
      case mutate.refl => exact keeps.elim
    have records : ∀ ino ext now, m = .writeExtent ino ext now →
        (∃ data now, c = .writeRecord ino data ext now) ∧ ext.InRange := by
      rintro ino ext now rfl
      cases c <;> cases asks
      case writeRecord.refl data => exact ⟨⟨data, now, rfl⟩, keeps.range⟩
      case mutate.refl => exact keeps.elim
    obtain ⟨cut, cuts, origin⟩ := Mutation.cuts done sizes
      (fun ino ext now same => (records ino ext now same).2) stored
    refine ⟨cut, cuts, fun e member => ?_⟩
    rcases origin e member with old | ⟨now, isWrite⟩
    · exact Or.inl old
    · exact Or.inr (records ino e now isWrite).1
  · rw [same] at stored
    exact unchanged stored
  · rw [same] at stored
    exact unchanged stored

/-- Every extent after a step is a part of one from before. -/
theorem Call.Carries.has_source (keeps : c.Carries d) (keyed : Keyed d)
    (applied : d.apply c.effect o = some (d', a)) {e : Extent} (has : d'.idx.Has ino e) :
    ∃ whole, Source d c ino whole ∧ e.Part whole ∧ e.InRange ∧ 0 < e.length := by
  obtain ⟨exts, stored, member⟩ := has
  obtain ⟨cut, cuts, origin⟩ := keeps.cuts applied stored
  rcases origin e member with ⟨whole, old, inCut⟩ | ⟨data, now, rfl⟩
  · obtain ⟨range, positive, -⟩ := keyed.extents ino whole old
    exact ⟨whole, Or.inl old, cuts.part whole e range positive inCut⟩
  · exact ⟨e, Or.inr ⟨⟨data, now, rfl⟩, keeps⟩, .refl keeps.range.length, keeps.range,
      keeps.positive⟩

/-- Two extents of one file are parts of two extents from before, or are cut from
one and then equal or apart. -/
theorem Call.Carries.has_pair (keeps : c.Carries d) (keyed : Keyed d)
    (applied : d.apply c.effect o = some (d', a)) {e e' : Extent} (has : d'.idx.Has ino e)
    (has' : d'.idx.Has ino e') : e.Apart e' ∨ e = e' := by
  obtain ⟨exts, stored, member⟩ := has
  obtain ⟨exts', stored', member'⟩ := has'
  cases stored.symm.trans stored'
  obtain ⟨cut, cuts, origin⟩ := keeps.cuts applied stored
  have part : ∀ whole p, d.idx.Has ino whole → p ∈ cut whole → p.Part whole := by
    intro whole p old inCut
    obtain ⟨range, positive, -⟩ := keyed.extents ino whole old
    exact (cuts.part whole p range positive inCut).1
  rcases origin e member with ⟨whole, old, inCut⟩ | ⟨data, now, rfl⟩ <;>
    rcases origin e' member' with ⟨whole', old', inCut'⟩ | ⟨data', now', isIt⟩
  · rcases keyed.apart ino whole ino whole' old old' with apart | ⟨-, rfl⟩
    · exact Or.inl (apart.of_parts (part whole e old inCut) (part whole' e' old' inCut'))
    · exact (cuts.apart whole e e' (keyed.extents ino whole old).1 inCut inCut').symm
  · subst isIt
    exact Or.inl ((keeps.apart ino whole old).symm.of_parts (part whole e old inCut)
      (.refl keeps.range.length))
  · exact Or.inl ((keeps.apart ino whole' old').of_parts (.refl keeps.range.length)
      (part whole' e' old' inCut'))
  · cases isIt
    exact Or.inr rfl

/-- What extents of different files come from is apart. -/
theorem Source.apart (keyed : Keyed d) {ino' : Ino} {whole whole' : Extent}
    (source : Source d c ino whole) (source' : Source d c ino' whole') (different : ino ≠ ino') :
    whole.Apart whole' := by
  rcases source with old | ⟨⟨data, now, rfl⟩, pending⟩ <;>
    rcases source' with old' | ⟨⟨data', now', isIt⟩, pending'⟩
  · rcases keyed.apart ino whole ino' whole' old old' with apart | ⟨same, -⟩
    · exact apart
    · exact absurd same different
  · exact (pending'.apart ino whole old).symm
  · exact pending.apart ino' whole' old'
  · cases isIt
    exact absurd rfl different

/-- The extents stay apart. -/
theorem Keyed.of_apply (keyed : Keyed d) (keeps : c.Carries d)
    (applied : d.apply c.effect o = some (d', a)) : Keyed d' := by
  obtain ⟨counted, sameSize, kept⟩ := Daemon.occupies_of_apply keyed.counted applied
  refine ⟨counted, lt_of_eq_of_lt sameSize keyed.chunkSize, fun ino e has => ?_,
    fun ino e ino' e' has has' => ?_⟩
  · obtain ⟨whole, source, part, range, positive⟩ := keeps.has_source keyed applied has
    refine ⟨range, positive, kept e (ChunkStore.Occupies.of_part ?_ part)⟩
    rcases source with old | ⟨-, pending⟩
    · exact (keyed.extents ino whole old).2.2
    · exact pending.occupies
  · by_cases sameFile : ino = ino'
    · subst sameFile
      rcases keeps.has_pair keyed applied has has' with apart | same
      · exact Or.inl apart
      · exact Or.inr ⟨rfl, same⟩
    · obtain ⟨whole, source, part, -, -⟩ := keeps.has_source keyed applied has
      obtain ⟨whole', source', part', -, -⟩ := keeps.has_source keyed applied has'
      exact Or.inl ((source.apart keyed source' sameFile).of_parts part part')

/-- What a call knows when it goes on. -/
theorem Call.Carries.of_follows (keeps : c.Carries d) (keyed : Keyed d)
    (applied : d.apply c.effect o = some (d', a)) {c' : Call} (follows : c.Follows cfg a c') :
    c'.Carries d' := by
  cases follows
  case writeSpace => exact keeps
  case writeInside => exact keeps
  case writeAppend => exact keeps
  case writeRecord ino data off now ext =>
    obtain ⟨counted, -, -⟩ := Daemon.occupies_of_apply keyed.counted applied
    obtain ⟨start, -, -, same, fits⟩ := Daemon.apply_append applied
    have small := keyed.chunkSize
    have bytes : 0 < data.length := List.length_pos_iff.mpr keeps.2
    refine ⟨?_, ?_, Daemon.appended_occupies counted applied, fun ino e has => ?_⟩
    · rw [same]
      exact ⟨keeps.1, by simp only; omega, by simp only; omega, by simp only; omega⟩
    · rw [same]
      simp only
      omega
    · have old : d.idx.Has ino e := by
        rcases Daemon.apply_idx applied with same | ⟨m, asks, -, -⟩ | ⟨asks, -⟩ | ⟨asks, -⟩
        · rw [← same]
          exact has
        · cases asks
        · cases asks
        · cases asks
      exact Daemon.appended_apart applied (keyed.extents ino e old).2.2
  case readFirst | readNext =>
    unfold nextRead
    split <;> trivial
  all_goals trivial

/-- What another call knows survives a step, if the extents that the two record
are apart. -/
theorem Call.Carries.of_other {u : Call} (knows : u.Carries d) (keeps : c.Carries d)
    (keyed : Keyed d)
    (applied : d.apply c.effect o = some (d', a))
    (apart : ∀ ext ∈ c.recording, ∀ other ∈ u.recording, ext.Apart other) : u.Carries d' := by
  cases u
  case writeRecord ino data ext now =>
    obtain ⟨-, -, kept⟩ := Daemon.occupies_of_apply keyed.counted applied
    refine ⟨knows.range, knows.positive, kept ext knows.occupies, fun ino' e has => ?_⟩
    obtain ⟨whole, source, part, -, -⟩ := keeps.has_source keyed applied has
    refine Extent.Apart.of_parts ?_ (.refl knows.range.length) part
    rcases source with old | ⟨⟨data', now', rfl⟩, -⟩
    · exact knows.apart ino' whole old
    · exact (apart whole rfl ext rfl).symm
  all_goals exact knows

end Steps

/-! ### Every run -/

/-- The requests, with writes that bring bytes, and `Seal`. -/
def Call.BringsBytes : Call → Prop
  | .write _ data off _ => IsInt64 off ∧ data ≠ []
  | .sealActive => True
  | c => c.IsRequest

instance (c : Call) : Decidable c.BringsBytes := by
  induction c using Call.casesOn <;> dsimp only [Call.BringsBytes] <;> infer_instance

/-- Only such calls start. -/
def bytesOnly {M : Type} (_ : Pool Daemon Call M) : Event Call Oracle → Prop
  | .spawn c => c.BringsBytes
  | .run _ _ => True

instance {M : Type} (pool : Pool Daemon Call M) (event : Event Call Oracle) :
    Decidable (bytesOnly pool event) := by
  induction event using Event.casesOn <;> dsimp only [bytesOnly] <;> infer_instance

theorem Call.BringsBytes.keeps {c : Call} (brings : c.BringsBytes) (d : Daemon) :
    c.Carries d ∧ c.recording = none := by
  cases c <;> first
    | exact ⟨trivial, rfl⟩
    | exact ⟨brings, rfl⟩
    | exact brings.elim

/-- A call records what `Append` has just returned. -/
theorem Call.Follows.recording {cfg : Config} {c c' : Call} {a : Answer}
    (follows : c.Follows cfg a c') {ext : Extent} (records : c'.recording = some ext) :
    ∃ ino data off now, c = .writeAppend ino data off now ∧ a = .extent ext := by
  cases follows
  case writeRecord ino data off now ext' =>
    cases records
    exact ⟨ino, data, off, now, rfl, rfl⟩
  case readFirst | readNext =>
    unfold nextRead at records
    split at records <;> cases records
  all_goals cases records

section Runs

variable {cfg : Config} {M : Type} {note : M → Call → Answer → M}
  {start : Pool Daemon Call M → Prop}
  {pool : Pool Daemon Call M}

/-- The extents that suspended writes are about to record are apart. -/
theorem recordings_apart
    (initially : ∀ pool, start pool → pool.threads = [] ∧ pool.shared.cs.Counted)
    (reached : Reachable (daemonSys cfg) note start bytesOnly pool) :
    (pool.threads.filterMap Call.recording).Pairwise Extent.Apart := by
  have counted : ∀ pool, Reachable (daemonSys cfg) note start bytesOnly pool →
      pool.shared.cs.Counted := by
    intro pool reached
    refine reached.invariant (fun pool initial => (initially pool initial).2) ?_
    intro pool next event counted _ taken
    rcases Sys.step_cases taken with
      ⟨t, rfl, rfl⟩ | ⟨before, t, after, o, d', a, rfl, -, applied, rfl⟩
    · exact counted
    · exact (Daemon.occupies_of_apply counted applied).1
  refine (Reachable.pairwise Call.recording (fun d ext => d.cs.Occupies ext) Extent.Apart.symm
    ?_ ?_ ?_ ?_ (reached.knowing counted)).1
  · intro pool initial
    rw [(initially pool initial).1]
    rfl
  · rintro pool c ⟨-, brings⟩
    exact (brings.keeps pool.shared).2
  · rintro d m before c after o d' a ext ⟨known, -⟩ applied occupies
    exact (Daemon.occupies_of_apply known applied).2.2 ext occupies
  · rintro d m before c after o d' a c' ext ⟨known, -⟩ applied continues records
    obtain ⟨ino, data, off, now, rfl, rfl⟩ :=
      (Call.follows_of_resume continues).recording records
    have appended : d.apply (.append data off) o = some (d', .extent ext) := applied
    have counted := (Daemon.occupies_of_apply known appended).1
    exact Or.inr ⟨fun e occupies => Daemon.appended_apart appended occupies,
      Daemon.appended_occupies counted appended⟩

theorem Keyed.of_reachable
    (initially : ∀ pool, start pool → pool.threads = [] ∧ Keyed pool.shared)
    (reached : Reachable (daemonSys cfg) note start bytesOnly pool) : Keyed pool.shared := by
  have separate := reached.knowing fun _ => recordings_apart
    fun pool initial => ⟨(initially pool initial).1, (initially pool initial).2.counted⟩
  refine (Reachable.local_invariant (fun d _ => Keyed d) (fun d _ c => c.Carries d) ?_ ?_ ?_
    separate).1
  · intro pool initial
    obtain ⟨idle, keyed⟩ := initially pool initial
    refine ⟨keyed, fun c member => ?_⟩
    rw [idle] at member
    cases member
  · rintro pool c - ⟨-, brings⟩
    exact (brings.keeps pool.shared).1
  · rintro d m before c after o d' a keyed each ⟨pairwise, -⟩ applied
    have keeps := each c (by simp)
    refine ⟨keyed.of_apply keeps applied, fun c' continues => ?_, fun u member => ?_⟩
    · exact keeps.of_follows keyed applied (Call.follows_of_resume continues)
    · refine (each u (mem_of_mem_others c member)).of_other keeps keyed applied ?_
      intro ext mine other theirs
      exact apart_of_pairwise_filterMap Extent.Apart.symm pairwise mine member theirs

end Runs

/-! ### Compactions in between -/

open Compaction in
/-- `Compact` has run on the index and the chunk store, with nothing else going
on, and returned nil. Its persist function may have done anything but change
inodes and extents. Offsets in a Go slice are `int`s, also in an output. -/
inductive Compacts (params : Params) (d : Daemon) : Daemon → Prop where
  | returned {δ : Type} {persist : Index → Compaction.Oracle → Objects × δ → (Objects × δ) × Bool}
      {order : List (Ino × List Extent)} {before : δ} {s : Objects × δ} {reply : Compaction.Reply}
      (lists : ListsExtents d.idx order)
      (progress : Progress (compactSys mapStore persist) (d.objects, before)
        (Run.begin params d.idx d.cs order) s (.inr reply))
      (ok : reply.ok = true)
      (typed : ∀ ino e, reply.idx.Has ino e → e.chunkOffset + e.length < 9223372036854775808)
      (cache : Option Objects) (activeDirty dirty remoteDirty : Bool) (dir : SnapshotDir) :
      Compacts params d
        { idx := { reply.idx with dirty := dirty, remoteDirty := remoteDirty }
          cs := { d.cs with cache := cache, activeDirty := activeDirty }
          objects := s.1
          dir := dir }

/-- No extent names a chunk that `Compact` would create. -/
def NamesUnused (params : Compaction.Params) (idx : Index) : Prop :=
  ∀ ino e, idx.Has ino e → ∀ k, e.chunkID ≠ Compaction.compactedID (params.clock k) k

section Compacts

open Compaction

variable {d d' : Daemon} {params : Params}

theorem Index.has_remapExtents {idx : Index} {remap : GoMap (Key × Int) Extent} {ino : Ino}
    {e' : Extent} (has : (idx.remapExtents remap).Has ino e') :
    ∃ e, idx.Has ino e ∧ e' = (remap.get (e.chunkID, e.chunkOffset)).getD e := by
  obtain ⟨exts', stored, member⟩ := has
  cases old : idx.extents.get ino with
  | none =>
      simp only [Index.remapExtents, Index.touched, GoMap.get_map, old] at stored
      cases stored
  | some exts =>
      rw [get_remapExtents remap old] at stored
      cases stored
      obtain ⟨e, inExts, rfl⟩ := List.mem_map.mp member
      exact ⟨e, ⟨exts, old, inExts⟩, rfl⟩

/-- Extents that share no byte have different keys. -/
theorem Extent.Apart.key_ne {e e' : Extent} (apart : e.Apart e') (positive : 0 < e.length)
    (positive' : 0 < e'.length) : (e.chunkID, e.chunkOffset) ≠ (e'.chunkID, e'.chunkOffset) := by
  intro same
  obtain ⟨chunk, offset⟩ := Prod.mk.inj same
  have := apart chunk
  omega

/-- What an entry of the table says about the extent it replaces. -/
theorem Keyed.remap_entry (keyed : Keyed d) {order : List (Ino × List Extent)}
    (lists : ListsExtents d.idx order) {targets : List Key} {packing : Packing}
    (packed : Packed Full params (moved (Index.liveExtents order) targets) packing) {ino : Ino}
    {e place : Extent} (has : d.idx.Has ino e)
    (found : packing.remap.get (e.chunkID, e.chunkOffset) = some place) :
    place.length = e.length ∧ place.fileOffset = e.fileOffset ∧ 0 ≤ place.chunkOffset ∧
      ∃ k, place.chunkID = compactedID (params.clock k) k := by
  obtain ⟨origin, inMoved, key, placed⟩ := packed.origin _ place found
  obtain ⟨ino', exts, stored, inExts⟩ := (mem_liveExtents lists).mp (mem_moved.mp inMoved).1
  have live : d.idx.Has ino' origin := ⟨exts, stored, inExts⟩
  have isIt : e = origin := by
    rcases keyed.apart ino e ino' origin has live with apart | ⟨-, same⟩
    · exact absurd key (apart.key_ne (keyed.extents ino e has).2.1
        (keyed.extents ino' origin live).2.1)
    · exact same
  obtain ⟨output, isOutput, id, start, data, offset, -⟩ := placed.place
  obtain ⟨k, numbered⟩ := packed.output_id isOutput
  rw [isIt]
  exact ⟨placed.length, placed.fileOffset, by omega, k, id.symm.trans numbered⟩

theorem Keyed.compacts (keyed : Keyed d) (unused : NamesUnused params d.idx)
    (compacts : Compacts params d d') : Keyed d' := by
  obtain ⟨lists, progress, ok, typed, cache, activeDirty, dirty, remoteDirty, dir⟩ := compacts
  rename_i δ persist order before s reply
  have sameOccupies : ∀ e, d.cs.Occupies e →
      ChunkStore.Occupies { d.cs with cache := cache, activeDirty := activeDirty } e :=
    fun e occupies => ⟨occupies.minted, occupies.active⟩
  have movable : ∀ e ∈ Index.liveExtents order, Movable e := by
    intro e member
    obtain ⟨ino, exts, stored, inExts⟩ := (mem_liveExtents lists).mp member
    obtain ⟨range, positive, -⟩ := keyed.extents ino e ⟨exts, stored, inExts⟩
    exact ⟨positive, range.chunkOffset, range.chunkEnd⟩
  rcases (tiled_of_progress movable progress).2 reply rfl ok with
    same | ⟨targets, packing, remapped, packed, slots, -, tiled⟩
  · rw [same]
    refine ⟨keyed.counted, keyed.chunkSize, fun ino e has => ?_, keyed.apart⟩
    obtain ⟨range, positive, occupies⟩ := keyed.extents ino e has
    exact ⟨range, positive, sameOccupies e occupies⟩
  · have remappedHas : ∀ ino e', reply.idx.Has ino e' → ∃ e, d.idx.Has ino e ∧
        e' = (packing.remap.get (e.chunkID, e.chunkOffset)).getD e :=
      fun ino e' has => Index.has_remapExtents (remapped ▸ has)
    refine ⟨keyed.counted, keyed.chunkSize, fun ino e' has => ?_,
      fun ino e' ino' f' has has' => ?_⟩
    · have high := typed ino e' has
      obtain ⟨e, old, rfl⟩ := remappedHas ino e' has
      obtain ⟨range, positive, occupies⟩ := keyed.extents ino e old
      cases found : packing.remap.get (e.chunkID, e.chunkOffset) with
      | none => exact ⟨range, positive, sameOccupies e occupies⟩
      | some place =>
          rw [found, Option.getD_some] at high
          obtain ⟨length, fileOffset, low, k, id⟩ := keyed.remap_entry lists packed old found
          obtain ⟨seq, -, active⟩ := keyed.counted
          refine ⟨⟨fileOffset ▸ range.fileOffset, by simp only [Option.getD_some]; omega,
            low, high⟩, by simp only [Option.getD_some]; omega, fun other _ same => ?_,
              fun isActive => ?_⟩
          · exact compactedID_ne_chunkID _ _ _ (id.symm.trans same)
          · exact absurd (id.symm.trans (isActive.trans active)) (compactedID_ne_chunkID _ _ _)
    · obtain ⟨e, old, rfl⟩ := remappedHas ino e' has
      obtain ⟨f, old', rfl⟩ := remappedHas ino' f' has'
      rcases keyed.apart ino e ino' f old old' with apart | ⟨sameFile, rfl⟩
      · left
        have keys := apart.key_ne (keyed.extents ino e old).2.1 (keyed.extents ino' f old').2.1
        cases found : packing.remap.get (e.chunkID, e.chunkOffset) with
        | none =>
            cases found' : packing.remap.get (f.chunkID, f.chunkOffset) with
            | none => exact apart
            | some place' =>
                obtain ⟨-, -, -, k, id⟩ := keyed.remap_entry lists packed old' found'
                exact fun same => absurd (same.trans id) (unused ino e old k)
        | some place =>
            obtain ⟨-, -, -, k, id⟩ := keyed.remap_entry lists packed old found
            cases found' : packing.remap.get (f.chunkID, f.chunkOffset) with
            | none => exact fun same => absurd (same.symm.trans id) (unused ino' f old' k)
            | some place' => exact tiled.entries_apart found found' keys
      · exact Or.inr ⟨sameFile, rfl⟩

end Compacts

/-- An empty filesystem, or what `Compact` leaves in a run when no call is under
way and it creates no chunk that an extent names. -/
inductive KeysApart (cfg : Config) : Pool Daemon Call Unit → Prop where
  | fresh {maxChunkSize : Int} (small : maxChunkSize < 9223372036854775808) (blockSize now : Int)
      (cached : Bool) : KeysApart cfg ⟨freshDaemon maxChunkSize blockSize now cached, [], ()⟩
  | compacted {idle pool : Pool Daemon Call Unit} {params : Compaction.Params} {d' : Daemon}
      (settled : KeysApart cfg idle)
      (reached : Reachable (daemonSys cfg) noRecord (· = idle) bytesOnly pool)
      (quiet : pool.threads = []) (unused : NamesUnused params pool.shared.idx)
      (compacts : Compacts params pool.shared d') : KeysApart cfg ⟨d', [], ()⟩

theorem freshDaemon_keyed {maxChunkSize : Int} (small : maxChunkSize < 9223372036854775808)
    (blockSize now : Int) (cached : Bool) :
    Keyed (freshDaemon maxChunkSize blockSize now cached) := by
  refine ⟨⟨0, ?_, ?_⟩, ?_, ?_, ?_⟩
  · cases cached <;> rfl
  · cases cached <;> rfl
  · cases cached <;> exact small
  · rintro ino e ⟨exts, stored, -⟩
    cases stored
  · rintro ino e ino' e' ⟨exts, stored, -⟩
    cases stored

theorem KeysApart.keyed {cfg : Config} {idle : Pool Daemon Call Unit}
    (settled : KeysApart cfg idle) :
    idle.threads = [] ∧ Keyed idle.shared := by
  induction settled with
  | fresh small blockSize now cached => exact ⟨rfl, freshDaemon_keyed small blockSize now cached⟩
  | compacted _ reached _ unused compacts inductionHypothesis =>
      refine ⟨rfl, Keyed.compacts ?_ unused compacts⟩
      exact Keyed.of_reachable (by rintro _ rfl; exact inductionHypothesis) reached

/-- In every run from an empty filesystem whose writes all bring bytes, with any
number of compactions in between that give their chunks new names, the key under
which an extent is remapped identifies it. -/
theorem remap_key_identifies {cfg : Config} {idle pool : Pool Daemon Call Unit}
    (settled : KeysApart cfg idle)
    (reached : Reachable (daemonSys cfg) noRecord (· = idle) bytesOnly pool) {ino ino' : Ino}
    {e e' : Extent} (has : pool.shared.idx.Has ino e) (has' : pool.shared.idx.Has ino' e')
    (sameChunk : e.chunkID = e'.chunkID) (sameOffset : e.chunkOffset = e'.chunkOffset) :
    e.length = e'.length ∧ e.fileOffset = e'.fileOffset := by
  have keyed := Keyed.of_reachable (by rintro _ rfl; exact settled.keyed) reached
  rcases keyed.apart ino e ino' e' has has' with apart | ⟨-, rfl⟩
  · have different := apart.key_ne (keyed.extents ino e has).2.1 (keyed.extents ino' e' has').2.1
    exact absurd (Prod.ext sameChunk sameOffset) different
  · exact ⟨rfl, rfl⟩

/-- A file of eight bytes is cut to two, and its chunk is sealed. -/
def cutAndSealed : List (Event Call Oracle) :=
  Call.alone (.make .regular 1 [97] 0o644 0 0 1) 3 ++
    Call.alone (.write 2 [1, 2, 3, 4, 5, 6, 7, 8] 0 2) 4 ++
    Call.alone (.setattr 2 { valid := 8, size := 2 } 3) 2 ++ Call.alone .sealActive 1

open Compaction in
/-- After its two bytes have been moved, their key identifies them. -/
theorem remap_key_identifies_moved :
    ∃ idle e, KeysApart sampleConfig idle ∧ idle.shared.idx.Has 2 e ∧
      e.chunkID = compactedID 0 0 ∧
      ∀ ino e', idle.shared.idx.Has ino e' → e'.chunkID = e.chunkID →
        e'.chunkOffset = e.chunkOffset → e'.length = e.length ∧ e'.fileOffset = e.fileOffset := by
  let keepsIndex : Index → Compaction.Oracle → Objects × Unit → (Objects × Unit) × Bool :=
    fun _ _ s => (s, true)
  have ends : ((daemonSys sampleConfig).run noRecord bytesOnly
      ⟨freshDaemon 8 4096 0 false, [], ()⟩ cutAndSealed).map (fun pool =>
        (pool.threads, decide (ListsExtents pool.shared.idx [(2, [⟨chunkID 0, 0, 2, 0⟩])]),
          ((compactSys mapStore keepsIndex).advance (pool.shared.objects, ())
            (Run.begin halfOrphaned pool.shared.idx pool.shared.cs [(2, [⟨chunkID 0, 0, 2, 0⟩])])
            [{ ids := [chunkID 0] }, {}, {}, {}, {}, {}]).map (fun result =>
              result.2.elim (fun _ => (false, false)) fun reply =>
                (reply.ok, decide (ListsExtents reply.idx [(2, [⟨compactedID 0 0, 0, 2, 0⟩])]))))) =
      some ([], true, some (true, true)) := by
    decide +kernel
  obtain ⟨pool, ran, shown⟩ := Option.map_eq_some_iff.mp ends
  obtain ⟨quiet, rest⟩ := Prod.mk.inj shown
  obtain ⟨lists, compacted⟩ := Prod.mk.inj rest
  obtain ⟨⟨s, point⟩, advanced, answer⟩ := Option.map_eq_some_iff.mp compacted
  have before := of_decide_eq_true lists
  cases point with
  | inl run => cases (Prod.mk.inj answer).1
  | inr reply =>
      obtain ⟨ok, listed⟩ := Prod.mk.inj answer
      have after := of_decide_eq_true listed
      have only : ∀ {idx : Index} {x : Extent}, ListsExtents idx [(2, [x])] → ∀ ino e,
          idx.Has ino e → e = x := by
        rintro idx x lists ino e ⟨exts, stored, member⟩
        have inList := (mem_liveExtents lists).mpr ⟨ino, exts, stored, member⟩
        exact List.mem_singleton.mp inList
      have unused : NamesUnused halfOrphaned pool.shared.idx := by
        intro ino e has k
        rw [only before ino e has]
        exact (compactedID_ne_chunkID _ _ _).symm
      have typed : ∀ ino e, reply.idx.Has ino e →
        e.chunkOffset + e.length < 9223372036854775808 := by
        intro ino e has
        rw [only after ino e has]
        decide
      have settled : KeysApart sampleConfig _ := .compacted (.fresh (by decide) 4096 0 false)
        (.of_run (.start rfl) ran) quiet unused
        (.returned before (.of_advance .start advanced) ok typed none false true true .empty)
      have has : reply.idx.Has 2 ⟨compactedID 0 0, 0, 2, 0⟩ := by
        have stored : reply.idx.extents.get 2 = some [⟨compactedID 0 0, 0, 2, 0⟩] := by
          rw [← GoMap.mem_entries, ← after]
          exact Multiset.mem_singleton_self _
        exact ⟨_, stored, List.mem_singleton_self _⟩
      refine ⟨_, _, settled, has, rfl, fun ino e' has' sameChunk sameOffset => ?_⟩
      exact remap_key_identifies settled (.start rfl) has' has sameChunk sameOffset

/-- Two files, of which the first gets an empty write and the second three bytes. -/
def emptyThenFull : List (Event Call Oracle) :=
  Call.alone (.make .regular 1 [97] 0o644 0 0 1) 3 ++
    Call.alone (.make .regular 1 [98] 0o644 0 0 1) 3 ++
    Call.alone (.write 2 [] 0 2) 3 ++ Call.alone (.write 3 [7, 8, 9] 0 2) 4

/-- The two extents have one key and different lengths. -/
theorem empty_write_shares_key :
    ∃ pool e e', Reachable (daemonSys sampleConfig) noRecord
        (· = ⟨freshDaemon 8 4096 0 false, [], ()⟩) requestsOnly pool ∧ pool.threads = [] ∧
      pool.shared.idx.Has 2 e ∧ pool.shared.idx.Has 3 e' ∧ e.chunkID = e'.chunkID ∧
      e.chunkOffset = e'.chunkOffset ∧ e.length ≠ e'.length := by
  have ends : ((daemonSys sampleConfig).run noRecord requestsOnly
      ⟨freshDaemon 8 4096 0 false, [], ()⟩ emptyThenFull).map (fun pool =>
        (pool.threads, pool.shared.idx.extents.get 2, pool.shared.idx.extents.get 3)) =
      some ([], some [⟨chunkID 0, 0, 0, 0⟩], some [⟨chunkID 0, 0, 3, 0⟩]) := by
    decide +kernel
  obtain ⟨pool, ran, shown⟩ := Option.map_eq_some_iff.mp ends
  obtain ⟨quiet, extents⟩ := Prod.mk.inj shown
  obtain ⟨first, second⟩ := Prod.mk.inj extents
  exact ⟨pool, _, _, .of_run (.start rfl) ran, quiet, ⟨_, first, List.mem_singleton_self _⟩,
    ⟨_, second, List.mem_singleton_self _⟩, rfl, rfl, by decide⟩

end Fusey
