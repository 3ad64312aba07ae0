import Fusey.Chunks.ChunkStore
import Fusey.Index.Extents

/-!
Contract: the content of one file as a byte array, and when an extent list over
the chunks denotes it.

Owns:
- the reference operations on a byte array: overwriting a range with zero fill
  of the gap, and resizing;
- the relation between an extent list and a byte array, and that it survives
  growing chunks, a write that splits no inner extent, and a truncation.

Does not own the calls that perform these operations.
-/

set_option autoImplicit false

namespace Fusey

open GoInt

/-! ### The reference operations -/

/-- Overwrite `[off, off + data.length)`, zero-filling a gap past the end. -/
def overwrite (old : Bytes) (off : Nat) (data : Bytes) : Bytes :=
  old.take off ++ List.replicate (off - old.length) 0 ++ data ++ old.drop (off + data.length)

/-- Truncate or zero-extend. -/
def resize (old : Bytes) (size : Nat) : Bytes :=
  old.take size ++ List.replicate (size - old.length) 0

theorem length_overwrite (old : Bytes) (off : Nat) (data : Bytes) :
    (overwrite old off data).length = max (max old.length off) (off + data.length) := by
  simp only [overwrite, List.length_append, List.length_take, List.length_replicate,
    List.length_drop]
  omega

theorem length_resize (old : Bytes) (size : Nat) : (resize old size).length = size := by
  simp only [resize, List.length_append, List.length_take, List.length_replicate]
  omega

/-- Byte `x` of an array, zero past its end. -/
def byteOr (content : Bytes) (x : Nat) : UInt8 := (content[x]?).getD 0

theorem getElem?_eq_byteOr {content : Bytes} {x : Nat} (below : x < content.length) :
    content[x]? = some (byteOr content x) := by
  rw [byteOr, List.getElem?_eq_getElem below, Option.getD_some]

/-- The bytes of `[off, off + data.length)` are the data. -/
theorem byteOr_overwrite_inside (old : Bytes) {off x : Nat} {data : Bytes} (low : off ≤ x)
    (high : x < off + data.length) :
    byteOr (overwrite old off data) x = byteOr data (x - off) := by
  have front : (old.take off ++ List.replicate (off - old.length) (0 : UInt8)).length = off := by
    simp only [List.length_append, List.length_take, List.length_replicate]
    omega
  unfold byteOr overwrite
  rw [List.getElem?_append_left (by rw [List.length_append, front]; omega),
    List.getElem?_append_right (by rw [front]; exact low), front]

/-- The other bytes are as before. -/
theorem byteOr_overwrite_outside (old : Bytes) {off x : Nat} {data : Bytes}
    (outside : x < off ∨ off + data.length ≤ x) :
    byteOr (overwrite old off data) x = byteOr old x := by
  have front : (old.take off ++ List.replicate (off - old.length) (0 : UInt8)).length = off := by
    simp only [List.length_append, List.length_take, List.length_replicate]
    omega
  unfold byteOr overwrite
  rcases outside with before | behind
  · rw [List.getElem?_append_left (by rw [List.length_append, front]; omega),
      List.getElem?_append_left (by rw [front]; exact before)]
    by_cases inOld : x < old.length
    · rw [List.getElem?_append_left (by rw [List.length_take]; omega), List.getElem?_take,
        if_pos before]
    · rw [List.getElem?_append_right (by rw [List.length_take]; omega),
        List.getElem?_eq_none (l := old) (by omega), List.getElem?_replicate]
      split_ifs <;> rfl
  · rw [List.getElem?_append_right (by rw [List.length_append, front]; exact behind),
      List.length_append, front, List.getElem?_drop]
    congr 2
    omega

theorem byteOr_resize (old : Bytes) (size x : Nat) :
    byteOr (resize old size) x = if x < size then byteOr old x else 0 := by
  unfold byteOr resize
  by_cases inOld : x < min size old.length
  · rw [List.getElem?_append_left (by rw [List.length_take]; exact inOld), List.getElem?_take,
      if_pos (by omega), if_pos (by omega)]
  · rw [List.getElem?_append_right (by rw [List.length_take]; omega), List.getElem?_replicate]
    split_ifs with zero below below
    · rw [List.getElem?_eq_none (by omega)]
      rfl
    · rfl
    · rw [List.length_take] at zero
      omega
    · rfl

/-! ### An extent list that denotes a byte array -/

/-- The chunk bytes as a total function. -/
def totalByte (byte : Key → Nat → Option UInt8) (id : Key) (i : Int) : UInt8 :=
  (byte id i.toNat).getD 0

/-- The extent list of a file of `size` bytes denotes `content` over the chunk
bytes `byte`: every extent lies in the file and names bytes that are there, and
every byte of the file is that of the extents, or zero where none covers. -/
structure Denotes (byte : Key → Nat → Option UInt8) (size : Int) (exts : List Extent)
    (content : Bytes) : Prop where
  length : (content.length : Int) = size
  small : size < 9223372036854775808
  within : ∀ e ∈ exts, e.Within size
  range : ∀ e ∈ exts, e.InRange
  present : ∀ e ∈ exts, ∀ i : Nat, (i : Int) < e.length →
    byte e.chunkID (e.chunkOffset.toNat + i) ≠ none
  bytes : ∀ x : Nat, x < content.length →
    byteOr content x = (byteAt (totalByte byte) exts x).getD 0

theorem Denotes.empty (byte : Key → Nat → Option UInt8) : Denotes byte 0 [] [] where
  length := rfl
  small := by decide
  within := by simp
  range := by simp
  present := by simp
  bytes := by simp

/-- Growing chunks change no denoted byte. -/
theorem byteAt_grows {byte byte' : Key → Nat → Option UInt8} (grows : Grows byte byte')
    {exts : List Extent} (range : ∀ e ∈ exts, e.InRange)
    (present : ∀ e ∈ exts, ∀ i : Nat, (i : Int) < e.length →
      byte e.chunkID (e.chunkOffset.toNat + i) ≠ none) (x : Int) :
    byteAt (totalByte byte') exts x = byteAt (totalByte byte) exts x := by
  apply Overlay.overlay_congr
  intro e member
  unfold Extent.layer
  split_ifs with covers
  · obtain ⟨low, high⟩ := covers
    have offset := (range e member).chunkOffset
    have there := present e member (x - e.fileOffset).toNat (by omega)
    have index : (e.chunkOffset + (x - e.fileOffset)).toNat =
        e.chunkOffset.toNat + (x - e.fileOffset).toNat := by omega
    obtain ⟨value, found⟩ := Option.ne_none_iff_exists'.mp there
    unfold totalByte
    rw [index, found, grows _ _ _ found]
  · rfl

theorem Denotes.grows {byte byte' : Key → Nat → Option UInt8} (grows : Grows byte byte')
    {size : Int} {exts : List Extent} {content : Bytes}
    (denotes : Denotes byte size exts content) : Denotes byte' size exts content where
  length := denotes.length
  small := denotes.small
  within := denotes.within
  range := denotes.range
  present := by
    intro e member i below
    obtain ⟨value, found⟩ := Option.ne_none_iff_exists'.mp (denotes.present e member i below)
    rw [grows _ _ _ found]
    exact Option.some_ne_none _
  bytes := by
    intro x below
    rw [denotes.bytes x below, byteAt_grows grows denotes.range denotes.present]

/-- An extent that holds `data` in its chunk. -/
structure Holds (byte : Key → Nat → Option UInt8) (ext : Extent) (data : Bytes) : Prop where
  range : ext.InRange
  length : ext.length = data.length
  bytes : ∀ i : Nat, i < data.length → byte ext.chunkID (ext.chunkOffset.toNat + i) = data[i]?

/-- What is held stays held when the chunks grow. -/
theorem Holds.grows {byte byte' : Key → Nat → Option UInt8} {ext : Extent} {data : Bytes}
    (holds : Holds byte ext data) (grows : ∀ i value, byte ext.chunkID i = some value →
      byte' ext.chunkID i = some value) : Holds byte' ext data := by
  refine ⟨holds.range, holds.length, fun i below => ?_⟩
  have byte := holds.bytes i below
  rw [List.getElem?_eq_getElem below] at byte ⊢
  exact grows _ _ byte

/-- The data at the end of the active buffer. -/
theorem Holds.of_append {cs : ChunkStore} {start data : Bytes} {off : Int}
    (buffer : cs.activeBuf = start ++ data) (offset : IsInt64 off)
    (fits : (start.length : Int) + data.length < 9223372036854775808) (objects : Objects) :
    Holds (cs.byteOf objects) ⟨cs.activeID, start.length, data.length, off⟩ data := by
  refine ⟨⟨offset, by simp only; omega, by simp only; omega, fits⟩, rfl, ?_⟩
  intro i below
  simp only [Int.toNat_natCast]
  rw [ChunkStore.byteOf_active, buffer, List.getElem?_append_right (by omega),
    Nat.add_sub_cancel_left]

/-- A part of an extent names bytes that the whole names. -/
theorem present_of_part {byte : Key → Nat → Option UInt8} {part whole : Extent}
    (piece : part.Part whole) (range : whole.InRange)
    (present : ∀ i : Nat, (i : Int) < whole.length →
      byte whole.chunkID (whole.chunkOffset.toNat + i) ≠ none) :
    ∀ i : Nat, (i : Int) < part.length →
      byte part.chunkID (part.chunkOffset.toNat + i) ≠ none := by
  intro i below
  obtain ⟨chunk, shift, start, stop, -⟩ := piece
  have offset := range.chunkOffset
  have index : part.chunkOffset.toNat + i =
      whole.chunkOffset.toNat + ((part.fileOffset - whole.fileOffset).toNat + i) := by omega
  rw [chunk, index]
  exact present _ (by omega)

/-- A part of an extent that lies within its object does so too. -/
theorem InObject.of_part {objects : Objects} {part whole : Extent} (inside : InObject objects whole)
    (isPart : part.Part whole) : InObject objects part := by
  obtain ⟨low, -, object, stored, high⟩ := inside
  obtain ⟨chunk, shift, start, stop, nonneg⟩ := isPart
  refine ⟨by omega, nonneg, object, ?_, by omega⟩
  rw [chunk]
  exact stored

/-- A write that splits no inner extent overwrites the content. -/
theorem Denotes.write {byte : Key → Nat → Option UInt8} {size : Int} {exts : List Extent}
    {content data : Bytes} {ext : Extent} (denotes : Denotes byte size exts content)
    (holds : Holds byte ext data) (low : 0 ≤ ext.fileOffset) (nonempty : data ≠ [])
    (small : ext.fileOffset + data.length < 9223372036854775808)
    (noSplit : ¬ SplitsInner exts ext) :
    Denotes byte (max size (ext.fileOffset + ext.length)) (writeExtents exts ext)
      (overwrite content ext.fileOffset.toNat data) := by
  have positive : 0 < data.length := List.length_pos_iff.mpr nonempty
  have length := holds.length
  have contentLength := denotes.length
  have plain : ext.fileEnd = ext.fileOffset + ext.length :=
    wrap64_of_nonneg (by omega) (by omega)
  have parts := writeExtents_part denotes.range holds.range
  refine ⟨?_, ?_, ?_, ?_, ?_, ?_⟩
  · rw [length_overwrite]
    omega
  · exact max_lt denotes.small (by omega)
  · exact within_writeExtents denotes.small denotes.within denotes.range holds.range low
      (by omega) plain noSplit
  · intro x member
    rcases parts x member with rfl | ⟨range, -⟩
    · exact holds.range
    · exact range
  · intro x member
    rcases parts x member with rfl | ⟨-, whole, inExts, piece⟩
    · intro i below
      rw [holds.bytes i (by omega), List.getElem?_eq_getElem (by omega)]
      exact Option.some_ne_none _
    · exact present_of_part piece (denotes.range whole inExts) (denotes.present whole inExts)
  · intro x below
    rw [byteAt_writeExtents (totalByte byte) denotes.small denotes.within denotes.range
      holds.range plain noSplit]
    split_ifs with covers
    · obtain ⟨start, stop⟩ := covers
      have offset := holds.range.chunkOffset
      have index : (ext.chunkOffset + ((x : Int) - ext.fileOffset)).toNat =
          ext.chunkOffset.toNat + (x - ext.fileOffset.toNat) := by omega
      rw [byteOr_overwrite_inside content (by omega) (by omega), Extent.layer, if_pos ⟨start, stop⟩,
        Option.getD_some, totalByte, index, holds.bytes _ (by omega)]
      rfl
    · simp only [Extent.Covers, not_and, not_lt] at covers
      rw [byteOr_overwrite_outside content (by omega)]
      by_cases inside : x < content.length
      · exact denotes.bytes x inside
      · -- Past the old end no extent covers, and the gap is zero.
        have nothing : byteAt (totalByte byte) exts x = none := by
          refine byteAt_eq_none.mpr fun e inExts => ?_
          have stop := (denotes.within e inExts).stop
          unfold Extent.Covers
          omega
        rw [nothing, byteOr, List.getElem?_eq_none (by omega)]

/-- A truncation or an extension resizes the content. -/
theorem Denotes.trim {byte : Key → Nat → Option UInt8} {size newSize : Int} {exts : List Extent}
    {content : Bytes} (denotes : Denotes byte size exts content) (low : 0 ≤ newSize)
    (small : newSize < 9223372036854775808) :
    Denotes byte newSize (trimExtents newSize exts) (resize content newSize.toNat) := by
  have contentLength := denotes.length
  have sizeRange : IsInt64 newSize := ⟨by omega, by omega⟩
  have parts := trimExtents_part denotes.range sizeRange
  refine ⟨?_, small, ?_, ?_, ?_, ?_⟩
  · rw [length_resize]
    omega
  · exact within_trimExtents denotes.small denotes.within
  · exact fun x member => (parts x member).1
  · intro x member
    obtain ⟨-, whole, inExts, piece⟩ := parts x member
    exact present_of_part piece (denotes.range whole inExts) (denotes.present whole inExts)
  · intro x below
    rw [length_resize] at below
    rw [byteOr_resize, if_pos below, byteAt_trimExtents (totalByte byte) denotes.small
      denotes.within, if_pos (by omega)]
    by_cases inside : x < content.length
    · exact denotes.bytes x inside
    · have nothing : byteAt (totalByte byte) exts x = none := by
        refine byteAt_eq_none.mpr fun e inExts => ?_
        have stop := (denotes.within e inExts).stop
        unfold Extent.Covers
        omega
      rw [nothing, byteOr, List.getElem?_eq_none (by omega)]

/-- Setting the size it has changes nothing. -/
theorem resize_self (content : Bytes) : resize content content.length = content := by
  simp [resize]

end Fusey
