import Fusey.GoLib.InPlace
import Fusey.GoLib.Overlay
import Fusey.Index.Types

/-!
Contract: the extent lists of one file (`Index.WriteExtent` and
`Index.trimExtents`, `internal/index/index.go`).

Owns:
- the list that a write leaves, computed as the Go loop computes it: `surviving`
  shares the backing array of the slice being ranged over;
- the list that a truncation leaves;
- the meaning of an extent list as a partial byte function over file offsets,
  later extents winning, and what both operations do to it.

Does not own inode sizes or which chunk bytes exist.
-/

set_option autoImplicit false

namespace Fusey

open GoInt GoSlice Overlay

namespace Extent

/-- `e.FileOffset + e.Length`, as the code computes it. -/
def fileEnd (e : Extent) : Int := wrap64 (e.fileOffset + e.length)

/-- The head of `e` that precedes a write at `ext`. -/
def headPiece (ext e : Extent) : Extent :=
  { chunkID := e.chunkID
    chunkOffset := e.chunkOffset
    length := wrap64 (ext.fileOffset - e.fileOffset)
    fileOffset := e.fileOffset }

/-- The tail of `e` that follows a write ending at `fin`. -/
def tailPiece (fin : Int) (e : Extent) : Extent :=
  { chunkID := e.chunkID
    chunkOffset := wrap64 (e.chunkOffset + wrap64 (fin - e.fileOffset))
    length := wrap64 (e.fileEnd - fin)
    fileOffset := fin }

/-- What the loop of `WriteExtent` appends for one old extent `e`. -/
def pieces (ext e : Extent) : List Extent :=
  let fin := ext.fileEnd
  if e.fileEnd ≤ ext.fileOffset ∨ e.fileOffset ≥ fin then [e]
  else
    (if e.fileOffset < ext.fileOffset then [headPiece ext e] else []) ++
      (if e.fileEnd > fin then [tailPiece fin e] else [])

end Extent

/-- The extent list that `WriteExtent` leaves: the loop over the old list, in
its own backing array, and then the new extent. -/
def writeExtents (exts : List Extent) (ext : Extent) : List Extent :=
  rewriteInPlace (Extent.pieces ext) exts ++ [ext]

/-- One extent under `trimExtents`. -/
def trimExtent (newSize : Int) (e : Extent) : Option Extent :=
  if e.fileOffset ≥ newSize then none
  else if e.fileEnd > newSize then some { e with length := wrap64 (newSize - e.fileOffset) }
  else some e

/-- `trimExtents`: drop or shorten what reaches past `newSize`. -/
def trimExtents (newSize : Int) (exts : List Extent) : List Extent :=
  exts.filterMap (trimExtent newSize)

/-! ### The byte function of an extent list -/

/-- The file offsets an extent covers. -/
def Extent.Covers (e : Extent) (x : Int) : Prop :=
  e.fileOffset ≤ x ∧ x < e.fileOffset + e.length

instance (e : Extent) (x : Int) : Decidable (e.Covers x) := by
  unfold Extent.Covers
  infer_instance

section Bytes

variable {β : Type}

/-- The byte an extent denotes at file offset `x`, when `bytesOf` gives the
bytes of each chunk. -/
def Extent.layer (bytesOf : Key → Int → β) (e : Extent) (x : Int) : Option β :=
  if e.Covers x then some (bytesOf e.chunkID (e.chunkOffset + (x - e.fileOffset))) else none

/-- The byte a list denotes at `x`: the last extent that covers `x`. -/
def byteAt (bytesOf : Key → Int → β) (exts : List Extent) (x : Int) : Option β :=
  overlay (exts.map (Extent.layer bytesOf)) x

theorem Extent.layer_eq_some {bytesOf : Key → Int → β} {e : Extent} {x : Int} {value : β} :
    e.layer bytesOf x = some value ↔
      e.Covers x ∧ bytesOf e.chunkID (e.chunkOffset + (x - e.fileOffset)) = value := by
  unfold Extent.layer
  split_ifs with covers
  · simp only [covers, true_and, Option.some.injEq]
  · simp only [covers, false_and]

theorem Extent.layer_of_not_covers {bytesOf : Key → Int → β} {e : Extent} {x : Int}
    (outside : ¬ e.Covers x) : e.layer bytesOf x = none := by
  unfold Extent.layer
  rw [if_neg outside]

/-- A byte of the list is the byte of an extent that covers it. -/
theorem exists_of_byteAt {bytesOf : Key → Int → β} {exts : List Extent} {x : Int} {value : β}
    (found : byteAt bytesOf exts x = some value) :
    ∃ e ∈ exts, e.Covers x ∧ bytesOf e.chunkID (e.chunkOffset + (x - e.fileOffset)) = value := by
  obtain ⟨layer, member, here⟩ := exists_of_overlay found
  obtain ⟨e, inExts, rfl⟩ := List.mem_map.mp member
  exact ⟨e, inExts, Extent.layer_eq_some.mp here⟩

theorem byteAt_eq_none {bytesOf : Key → Int → β} {exts : List Extent} {x : Int} :
    byteAt bytesOf exts x = none ↔ ∀ e ∈ exts, ¬ e.Covers x := by
  unfold byteAt
  rw [overlay_eq_none]
  constructor
  · intro nothing e member covers
    have here := nothing _ (List.mem_map_of_mem member)
    rw [Extent.layer, if_pos covers] at here
    cases here
  · intro nothing layer member
    obtain ⟨e, inExts, rfl⟩ := List.mem_map.mp member
    exact Extent.layer_of_not_covers (nothing e inExts)

end Bytes

/-- A part of an extent: fewer bytes of the same chunk, at the same distance
between file offset and chunk offset. -/
structure Extent.Part (part whole : Extent) : Prop where
  chunk : part.chunkID = whole.chunkID
  shift : part.chunkOffset - part.fileOffset = whole.chunkOffset - whole.fileOffset
  start : whole.fileOffset ≤ part.fileOffset
  stop : part.fileOffset + part.length ≤ whole.fileOffset + whole.length
  nonneg : 0 ≤ part.length

/-- The `int64` ranges of an extent as the chunk store returns it: its file
offset is an `int64`, its chunk range is non-negative and ends in range. -/
structure Extent.InRange (e : Extent) : Prop where
  fileOffset : IsInt64 e.fileOffset
  length : 0 ≤ e.length
  chunkOffset : 0 ≤ e.chunkOffset
  chunkEnd : e.chunkOffset + e.length < 9223372036854775808

theorem Extent.Part.refl {e : Extent} (nonneg : 0 ≤ e.length) : e.Part e :=
  ⟨rfl, rfl, le_rfl, le_rfl, nonneg⟩

theorem Extent.Part.trans {a b c : Extent} (first : a.Part b) (second : b.Part c) : a.Part c where
  chunk := first.chunk.trans second.chunk
  shift := first.shift.trans second.shift
  start := second.start.trans first.start
  stop := first.stop.trans second.stop
  nonneg := first.nonneg

/-! ### Pieces are parts -/

section Pieces

variable {ext e : Extent}

theorem Extent.InRange.of_part {part whole : Extent} (range : whole.InRange)
    (piece : part.Part whole) (offset : IsInt64 part.fileOffset) : part.InRange where
  fileOffset := offset
  length := piece.nonneg
  chunkOffset := by
    have shift := piece.shift
    have start := piece.start
    have := range.chunkOffset
    omega
  chunkEnd := by
    have shift := piece.shift
    have stop := piece.stop
    have := range.chunkEnd
    omega

/-- The head kept before a write is a part of the old extent. -/
theorem Extent.headPiece_part (range : e.InRange) (extRange : ext.InRange)
    (before : e.fileOffset < ext.fileOffset) (overlap : ext.fileOffset < e.fileEnd) :
    (headPiece ext e).Part e := by
  obtain ⟨⟨_, _⟩, _, _, _⟩ := range
  obtain ⟨⟨_, _⟩, _, _, _⟩ := extRange
  unfold Extent.fileEnd wrap64 at overlap
  refine ⟨rfl, rfl, le_rfl, ?_, ?_⟩ <;> simp only [headPiece, wrap64] <;> omega

/-- The tail kept behind a write is a part of the old extent. -/
theorem Extent.tailPiece_part (range : e.InRange) (extRange : ext.InRange)
    (overlap : ext.fileOffset < e.fileEnd) (inside : e.fileOffset < ext.fileEnd)
    (behind : ext.fileEnd < e.fileEnd) : (tailPiece ext.fileEnd e).Part e := by
  obtain ⟨⟨_, _⟩, _, _, _⟩ := range
  obtain ⟨⟨_, _⟩, _, _, _⟩ := extRange
  -- The old extent does not wrap, since it reaches past the new one.
  have plain : e.fileEnd = e.fileOffset + e.length := by
    unfold Extent.fileEnd wrap64 at *
    omega
  have fin : IsInt64 ext.fileEnd := wrap64_range _
  unfold IsInt64 at fin
  generalize ext.fileEnd = fin' at *
  refine ⟨rfl, ?_, ?_, ?_, ?_⟩ <;> simp only [tailPiece, plain, wrap64] at * <;> omega

theorem Extent.mem_pieces {p : Extent} (member : p ∈ pieces ext e) :
    (p = e ∧ (e.fileEnd ≤ ext.fileOffset ∨ ext.fileEnd ≤ e.fileOffset)) ∨
      (ext.fileOffset < e.fileEnd ∧ e.fileOffset < ext.fileEnd ∧
        ((e.fileOffset < ext.fileOffset ∧ p = headPiece ext e) ∨
          (ext.fileEnd < e.fileEnd ∧ p = tailPiece ext.fileEnd e))) := by
  simp only [pieces] at member
  split_ifs at member with apart before behind behind <;>
    simp only [List.mem_append, List.mem_singleton, List.not_mem_nil, List.append_nil,
      List.nil_append] at member
  · exact Or.inl ⟨member, apart⟩
  all_goals
    simp only [not_or, not_le, ge_iff_le] at apart
    refine Or.inr ⟨apart.1, apart.2, ?_⟩
  · exact member.imp (fun same => ⟨before, same⟩) fun same => ⟨behind, same⟩
  · exact Or.inl ⟨before, member⟩
  · exact Or.inr ⟨behind, member⟩

/-- Whatever `WriteExtent` keeps of an old extent is a part of it. -/
theorem Extent.pieces_part (range : e.InRange) (extRange : ext.InRange) {p : Extent}
    (member : p ∈ pieces ext e) : p.Part e ∧ p.InRange := by
  rcases mem_pieces member with ⟨rfl, -⟩ | ⟨overlap, inside, ⟨before, rfl⟩ | ⟨behind, rfl⟩⟩
  · exact ⟨Part.refl range.length, range⟩
  · have piece := headPiece_part range extRange before overlap
    exact ⟨piece, range.of_part piece range.fileOffset⟩
  · have piece := tailPiece_part range extRange overlap inside behind
    exact ⟨piece, range.of_part piece (wrap64_range _)⟩

end Pieces

/-- What a write keeps of an extent it keeps as it is when the loop meets it
again. -/
theorem Extent.pieces_of_piece {ext e p : Extent} (offset : IsInt64 ext.fileOffset)
    (member : p ∈ pieces ext e) : pieces ext p = [p] := by
  have apart : p.fileEnd ≤ ext.fileOffset ∨ p.fileOffset ≥ ext.fileEnd := by
    rcases mem_pieces member with ⟨rfl, apart⟩ | ⟨-, -, ⟨-, rfl⟩ | ⟨-, rfl⟩⟩
    · exact apart
    · exact Or.inl (wrap64_add_wrap64_sub e.fileOffset offset).le
    · exact Or.inr le_rfl
  simp only [pieces]
  rw [if_pos apart]

/-- Every extent a write leaves is the new one or a piece of an old one,
whatever the loop overwrote. -/
theorem mem_writeExtents {exts : List Extent} {ext x : Extent} (offset : IsInt64 ext.fileOffset)
    (member : x ∈ writeExtents exts ext) : x = ext ∨ ∃ e ∈ exts, x ∈ Extent.pieces ext e := by
  rcases List.mem_append.mp member with old | new
  · right
    -- The loop reads old extents and pieces that it has written itself.
    have all := rewriteInPlace_all
      (P := fun p => p ∈ exts ∨ ∃ e ∈ exts, p ∈ Extent.pieces ext e)
      (Q := fun p => ∃ e ∈ exts, p ∈ Extent.pieces ext e)
      (fun e inExts => Or.inl inExts)
      (by
        rintro e (inExts | ⟨whole, inExts, inPieces⟩) p inPieces'
        · exact ⟨Or.inr ⟨e, inExts, inPieces'⟩, e, inExts, inPieces'⟩
        · rw [Extent.pieces_of_piece offset inPieces] at inPieces'
          rw [List.mem_singleton.mp inPieces']
          exact ⟨Or.inr ⟨whole, inExts, inPieces⟩, whole, inExts, inPieces⟩)
    exact (all x old).2
  · exact Or.inl (List.mem_singleton.mp new)

/-- Every extent a write leaves is the new one or a part of an old one. -/
theorem writeExtents_part {exts : List Extent} {ext : Extent}
    (range : ∀ e ∈ exts, e.InRange) (extRange : ext.InRange) :
    ∀ x ∈ writeExtents exts ext, x = ext ∨ (x.InRange ∧ ∃ e ∈ exts, x.Part e) := by
  intro x member
  rcases mem_writeExtents extRange.fileOffset member with new | ⟨e, inExts, inPieces⟩
  · exact Or.inl new
  · obtain ⟨part, pieceRange⟩ := Extent.pieces_part (range e inExts) extRange inPieces
    exact Or.inr ⟨pieceRange, e, inExts, part⟩

theorem mem_trimExtents {exts : List Extent} {newSize : Int} {x : Extent}
    (member : x ∈ trimExtents newSize exts) :
    ∃ e ∈ exts, e.fileOffset < newSize ∧ (x = e ∧ e.fileEnd ≤ newSize ∨
      newSize < e.fileEnd ∧ x = { e with length := wrap64 (newSize - e.fileOffset) }) := by
  obtain ⟨e, inExts, kept⟩ := List.mem_filterMap.mp member
  refine ⟨e, inExts, ?_⟩
  unfold trimExtent at kept
  split_ifs at kept with beyond cut
  · exact ⟨by omega, Or.inr ⟨by omega, (Option.some.inj kept).symm⟩⟩
  · exact ⟨by omega, Or.inl ⟨(Option.some.inj kept).symm, by omega⟩⟩

/-- Every extent a truncation leaves is a part of an old one. -/
theorem trimExtents_part {exts : List Extent} {newSize : Int}
    (range : ∀ e ∈ exts, e.InRange) (sizeRange : IsInt64 newSize) :
    ∀ x ∈ trimExtents newSize exts, x.InRange ∧ ∃ e ∈ exts, x.Part e := by
  intro x member
  obtain ⟨e, inExts, below, ⟨rfl, -⟩ | ⟨cut, rfl⟩⟩ := mem_trimExtents member
  · exact ⟨range x inExts, x, inExts, .refl (range x inExts).length⟩
  · have eRange := range e inExts
    have part : Extent.Part { e with length := wrap64 (newSize - e.fileOffset) } e := by
      obtain ⟨⟨_, _⟩, _, _, _⟩ := eRange
      obtain ⟨_, _⟩ := sizeRange
      unfold Extent.fileEnd wrap64 at cut
      refine ⟨rfl, rfl, le_rfl, ?_, ?_⟩ <;> simp only [wrap64] <;> omega
    exact ⟨eRange.of_part part eRange.fileOffset, e, inExts, part⟩

/-! ### The byte function after a write -/

/-- The extent lies inside a file of `size` bytes. -/
structure Extent.Within (size : Int) (e : Extent) : Prop where
  start : 0 ≤ e.fileOffset
  positive : 0 < e.length
  stop : e.fileOffset + e.length ≤ size

/-- The end of an extent inside a file does not wrap. -/
theorem Extent.Within.fileEnd {size : Int} {e : Extent} (within : e.Within size)
    (small : size < 9223372036854775808) : e.fileEnd = e.fileOffset + e.length := by
  obtain ⟨start, positive, stop⟩ := within
  exact wrap64_of_nonneg (by omega) (by omega)

/-- A part denotes the same bytes as the whole where it covers. -/
theorem Extent.Part.layer {β : Type} {part whole : Extent} (piece : part.Part whole)
    (bytesOf : Key → Int → β) {x : Int} (covers : part.Covers x) :
    part.layer bytesOf x = whole.layer bytesOf x := by
  have wholeCovers : whole.Covers x := by
    obtain ⟨low, high⟩ := covers
    have start := piece.start
    have stop := piece.stop
    exact ⟨by omega, by omega⟩
  unfold Extent.layer
  rw [if_pos covers, if_pos wholeCovers, piece.chunk]
  congr 2
  have shift := piece.shift
  omega

theorem Extent.layer_eq_ite {β : Type} {part whole : Extent} (piece : part.Part whole)
    (bytesOf : Key → Int → β) (x : Int) :
    part.layer bytesOf x = if part.Covers x then whole.layer bytesOf x else none := by
  split_ifs with covers
  · exact piece.layer bytesOf covers
  · exact layer_of_not_covers covers

/-- Outside the written range, what is kept of an old extent denotes what the
old extent denoted. -/
theorem Extent.pieces_agree {β : Type} {size : Int} {ext e : Extent} (bytesOf : Key → Int → β)
    (small : size < 9223372036854775808) (within : e.Within size) (range : e.InRange)
    (extRange : ext.InRange) (extPlain : ext.fileEnd = ext.fileOffset + ext.length) {x : Int}
    (outside : ¬ ext.Covers x) :
    overlay ((pieces ext e).map (Extent.layer bytesOf)) x = e.layer bytesOf x := by
  have plain := within.fileEnd small
  have nonneg := extRange.length
  simp only [Covers, not_and, not_lt] at outside
  simp only [pieces]
  split_ifs with apart before behind behind
  · simp
  all_goals simp only [not_or, not_le, ge_iff_le] at apart
  -- Both sides survive: the two parts cover `e` except the written range.
  · have head := headPiece_part range extRange before apart.1
    have tail := tailPiece_part range extRange apart.1 apart.2 behind
    simp only [List.cons_append, List.nil_append, List.map_cons, List.map_nil, overlay_cons,
      overlay_nil, Option.none_or]
    rw [layer_eq_ite head, layer_eq_ite tail]
    by_cases covers : e.Covers x
    · have side : (headPiece ext e).Covers x ∨ (tailPiece ext.fileEnd e).Covers x := by
        unfold Covers at covers ⊢
        have headLength : (headPiece ext e).length = ext.fileOffset - e.fileOffset :=
          wrap64_of_nonneg (by omega) (by
            obtain ⟨⟨_, _⟩, _, _, _⟩ := extRange
            have := within.start
            omega)
        have tailLength : (tailPiece ext.fileEnd e).length = e.fileEnd - ext.fileEnd :=
          wrap64_of_nonneg (by omega) (by
            have := within.stop
            have := within.start
            omega)
        have headStart : (headPiece ext e).fileOffset = e.fileOffset := rfl
        have tailStart : (tailPiece ext.fileEnd e).fileOffset = ext.fileEnd := rfl
        rw [headLength, tailLength, headStart, tailStart]
        omega
      split_ifs <;> simp_all
    · rw [layer_of_not_covers covers]
      simp
  · have head := headPiece_part range extRange before apart.1
    simp only [List.append_nil, List.map_cons, List.map_nil, overlay_singleton]
    rw [layer_eq_ite head]
    by_cases covers : e.Covers x
    · rw [if_pos]
      unfold Covers at covers ⊢
      have headLength : (headPiece ext e).length = ext.fileOffset - e.fileOffset :=
        wrap64_of_nonneg (by omega) (by
          obtain ⟨⟨_, _⟩, _, _, _⟩ := extRange
          have := within.start
          omega)
      have headStart : (headPiece ext e).fileOffset = e.fileOffset := rfl
      rw [headLength, headStart]
      omega
    · rw [layer_of_not_covers covers]
      simp
  · have tail := tailPiece_part range extRange apart.1 apart.2 behind
    simp only [List.nil_append, List.map_cons, List.map_nil, overlay_singleton]
    rw [layer_eq_ite tail]
    by_cases covers : e.Covers x
    · rw [if_pos]
      unfold Covers at covers ⊢
      have tailLength : (tailPiece ext.fileEnd e).length = e.fileEnd - ext.fileEnd :=
        wrap64_of_nonneg (by omega) (by
          have := within.stop
          have := within.start
          omega)
      have tailStart : (tailPiece ext.fileEnd e).fileOffset = ext.fileEnd := rfl
      rw [tailLength, tailStart]
      omega
    · rw [layer_of_not_covers covers]
      simp
  · simp only [List.append_nil, List.map_nil, overlay_nil]
    rw [layer_of_not_covers]
    unfold Covers
    omega

/-- The write splits an extent that is not the last of the list: its head and
tail take two places, and the loop overwrites the extents behind it. -/
def SplitsInner (exts : List Extent) (ext : Extent) : Prop :=
  ∃ e ∈ exts.dropLast, e.fileOffset < ext.fileOffset ∧ ext.fileEnd < e.fileEnd

instance (exts : List Extent) (ext : Extent) : Decidable (SplitsInner exts ext) := by
  unfold SplitsInner
  infer_instance

/-- Without such a split the loop in the shared array is the plain rewrite. -/
theorem writeExtents_eq {exts : List Extent} {ext : Extent}
    (noSplit : ¬ SplitsInner exts ext) :
    writeExtents exts ext = exts.flatMap (Extent.pieces ext) ++ [ext] := by
  unfold writeExtents
  rw [rewriteInPlace_of_last]
  intro e member
  have oneSide : ¬ (e.fileOffset < ext.fileOffset ∧ ext.fileEnd < e.fileEnd) :=
    fun split => noSplit ⟨e, member, split⟩
  simp only [Extent.pieces]
  split_ifs with apart before behind
  · simp
  · exact absurd ⟨before, behind⟩ oneSide
  all_goals simp

/-- A write overrides the byte function on its range and nowhere else. -/
theorem byteAt_writeExtents {β : Type} {size : Int} {exts : List Extent} {ext : Extent}
    (bytesOf : Key → Int → β) (small : size < 9223372036854775808)
    (within : ∀ e ∈ exts, e.Within size) (range : ∀ e ∈ exts, e.InRange)
    (extRange : ext.InRange) (extPlain : ext.fileEnd = ext.fileOffset + ext.length)
    (noSplit : ¬ SplitsInner exts ext) (x : Int) :
    byteAt bytesOf (writeExtents exts ext) x =
      if ext.Covers x then ext.layer bytesOf x else byteAt bytesOf exts x := by
  unfold byteAt
  rw [writeExtents_eq noSplit, List.map_append, List.map_singleton, overlay_concat]
  split_ifs with covers
  · simp [Extent.layer, covers]
  · rw [Extent.layer_of_not_covers covers, Option.none_or]
    exact overlay_flatMap_of_agree fun e member =>
      Extent.pieces_agree bytesOf small (within e member) (range e member) extRange extPlain covers

/-- Every extent a write leaves lies inside the grown file. -/
theorem within_writeExtents {size : Int} {exts : List Extent} {ext : Extent}
    (small : size < 9223372036854775808) (within : ∀ e ∈ exts, e.Within size)
    (range : ∀ e ∈ exts, e.InRange) (extRange : ext.InRange) (extStart : 0 ≤ ext.fileOffset)
    (extPositive : 0 < ext.length) (extPlain : ext.fileEnd = ext.fileOffset + ext.length)
    (noSplit : ¬ SplitsInner exts ext) :
    ∀ x ∈ writeExtents exts ext, x.Within (max size (ext.fileOffset + ext.length)) := by
  intro x member
  rw [writeExtents_eq noSplit, List.mem_append] at member
  rcases member with old | new
  · obtain ⟨e, inExts, inPieces⟩ := List.mem_flatMap.mp old
    have eWithin := within e inExts
    have plain := eWithin.fileEnd small
    have part := (Extent.pieces_part (range e inExts) extRange inPieces).1
    refine ⟨eWithin.start.trans part.start, ?_,
      part.stop.trans (eWithin.stop.trans (le_max_left _ _))⟩
    rcases Extent.mem_pieces inPieces with
      ⟨rfl, -⟩ | ⟨overlap, inside, ⟨before, rfl⟩ | ⟨behind, rfl⟩⟩
    · exact eWithin.positive
    · have length : (Extent.headPiece ext e).length = ext.fileOffset - e.fileOffset :=
        wrap64_of_nonneg (by omega) (by
          obtain ⟨⟨_, _⟩, _, _, _⟩ := extRange
          have := eWithin.start
          omega)
      omega
    · have length : (Extent.tailPiece ext.fileEnd e).length = e.fileEnd - ext.fileEnd :=
        wrap64_of_nonneg (by omega) (by
          have := eWithin.stop
          have := eWithin.start
          omega)
      omega
  · rw [List.mem_singleton] at new
    subst new
    exact ⟨extStart, extPositive, le_max_right _ _⟩

/-! ### The byte function after a truncation -/

theorem trimExtent_layer {β : Type} {size : Int} (newSize : Int) {e : Extent}
    (bytesOf : Key → Int → β) (small : size < 9223372036854775808) (within : e.Within size)
    (x : Int) :
    overlay (((trimExtent newSize e).toList).map (Extent.layer bytesOf)) x =
      if x < newSize then e.layer bytesOf x else none := by
  obtain ⟨start, positive, stop⟩ := within
  have plain : e.fileEnd = e.fileOffset + e.length :=
    Extent.Within.fileEnd ⟨start, positive, stop⟩ small
  have length (above : e.fileOffset < newSize) (cut : newSize < e.fileEnd) :
      wrap64 (newSize - e.fileOffset) = newSize - e.fileOffset :=
    wrap64_of_nonneg (by omega) (by omega)
  have shorter (above : e.fileOffset < newSize) (cut : newSize < e.fileEnd) :
      Extent.Part { e with length := wrap64 (newSize - e.fileOffset) } e := by
    rw [length above cut]
    exact ⟨rfl, rfl, le_rfl, by simp only; omega, by simp only; omega⟩
  unfold trimExtent
  split_ifs with beyond below cut below below
  · rw [Extent.layer_of_not_covers]
    · rfl
    · unfold Extent.Covers
      omega
  · rfl
  all_goals simp only [Option.toList_some, List.map_cons, List.map_nil, overlay_singleton]
  · rw [Extent.layer_eq_ite (shorter (by omega) cut)]
    by_cases covers : e.Covers x
    · rw [if_pos]
      unfold Extent.Covers at covers ⊢
      simp only [length (by omega) cut]
      omega
    · rw [Extent.layer_of_not_covers covers, ite_self]
  · apply Extent.layer_of_not_covers
    unfold Extent.Covers
    simp only [length (by omega) cut]
    omega
  · apply Extent.layer_of_not_covers
    unfold Extent.Covers
    omega

/-- A truncation cuts the byte function at the new size. -/
theorem byteAt_trimExtents {β : Type} {size newSize : Int} {exts : List Extent}
    (bytesOf : Key → Int → β) (small : size < 9223372036854775808)
    (within : ∀ e ∈ exts, e.Within size) (x : Int) :
    byteAt bytesOf (trimExtents newSize exts) x =
      if x < newSize then byteAt bytesOf exts x else none := by
  exact overlay_filterMap fun e member => trimExtent_layer newSize bytesOf small (within e member) x

theorem within_trimExtents {size newSize : Int} {exts : List Extent}
    (small : size < 9223372036854775808) (within : ∀ e ∈ exts, e.Within size) :
    ∀ x ∈ trimExtents newSize exts, x.Within newSize := by
  intro x member
  obtain ⟨e, inExts, below, ⟨rfl, fits⟩ | ⟨cut, rfl⟩⟩ := mem_trimExtents member
  · have plain := (within x inExts).fileEnd small
    exact ⟨(within x inExts).start, (within x inExts).positive, by omega⟩
  · have eWithin := within e inExts
    have plain := eWithin.fileEnd small
    have start := eWithin.start
    have stop := eWithin.stop
    have length : wrap64 (newSize - e.fileOffset) = newSize - e.fileOffset :=
      wrap64_of_nonneg (by omega) (by omega)
    exact ⟨start, by simp only [length]; omega, by simp only [length]; omega⟩

end Fusey
