import Fusey.Index.Layout

/-!
Contract: the law of `Index.SetAttr` on the content of a regular file
(`internal/index/index.go`).

Owns:
- the content of a file as a byte function that ends at its size, resolved through
  the extents with the `int64` arithmetic of `FileHandle.Read`
  (`internal/fuse/fs.go`), and what cutting or zero-extending does to it;
- the invariant behind the law: no extent of a file ends past its size;
- that every run of `WriteExtent` and `SetAttr` keeps the invariant, whatever the
  in-place loop overwrites and whatever wraps, and that the law follows for single
  sizes, chains of sizes and writes past the end.
-/

set_option autoImplicit false

namespace Fusey

open GoInt GoSlice Overlay

/-! ### Contents -/

/-- The file offsets that `Read` takes from the extent; `FileOffset + Length` is an
`int64`. -/
def Extent.Spans (e : Extent) (x : Int) : Prop := e.fileOffset ≤ x ∧ x < e.fileEnd

instance (e : Extent) (x : Int) : Decidable (e.Spans x) := by
  unfold Extent.Spans
  infer_instance

/-- The byte that `Read` takes from the extent at file offset `x`. -/
def Extent.shows (bytesOf : Key → Int → UInt8) (e : Extent) (x : Int) : Option UInt8 :=
  if e.Spans x then some (bytesOf e.chunkID (wrap64 (e.chunkOffset + (x - e.fileOffset)))) else none

theorem Extent.shows_of_not_spans {bytesOf : Key → Int → UInt8} {e : Extent} {x : Int}
    (outside : ¬ e.Spans x) : e.shows bytesOf x = none := if_neg outside

/-- The byte of a file at offset `x`: the byte of the last extent that covers it,
zero where none does, and nothing past the end. -/
def Index.fileByte (idx : Index) (bytesOf : Key → Int → UInt8) (ino : Ino) (x : Int) :
    Option UInt8 :=
  match idx.inodes.get ino with
  | none => none
  | some inode =>
      if 0 ≤ x ∧ x < inode.size then
        some ((overlay (((idx.extents.get ino).getD []).map (Extent.shows bytesOf)) x).getD 0)
      else none

/-- The first `n` bytes of a content, zero-extended to `n`. -/
def cutAt (n : Int) (content : Int → Option UInt8) (x : Int) : Option UInt8 :=
  if 0 ≤ x ∧ x < n then some ((content x).getD 0) else none

/-- Cutting at several sizes, in order. -/
def cutAll (sizes : List Int) (content : Int → Option UInt8) : Int → Option UInt8 :=
  sizes.foldl (fun shown n => cutAt n shown) content

/-- After a cut at the last and the smallest size, one more size is again a cut
at the last and the smallest. -/
theorem cutAt_cutAt {least last n : Int} (content : Int → Option UInt8) (above : least ≤ last) :
    cutAt n (cutAt last (cutAt least content)) = cutAt n (cutAt (min least n) content) := by
  funext x
  unfold cutAt
  by_cases inside : 0 ≤ x ∧ x < n
  · rw [if_pos inside, if_pos inside]
    by_cases low : x < least
    · rw [if_pos ⟨inside.1, by omega⟩, if_pos ⟨inside.1, low⟩, if_pos ⟨inside.1, by omega⟩]
      rfl
    · rw [if_neg (by omega : ¬ (0 ≤ x ∧ x < min least n)),
        if_neg (by omega : ¬ (0 ≤ x ∧ x < least))]
      split_ifs <;> rfl
  · rw [if_neg inside, if_neg inside]

theorem foldl_min_le_getLast (rest : List Int) (first : Int) :
    rest.foldl min first ≤ rest.getLastD first := by
  induction rest using List.reverseRecOn with
  | nil => exact le_rfl
  | append_singleton front n _ =>
      rw [List.foldl_append, List.foldl_cons, List.foldl_nil, List.getLastD_concat]
      exact min_le_right _ _

/-- A chain of cuts is a cut at the smallest of the sizes, zero-extended to the
last. -/
theorem cutAll_cons (first : Int) (rest : List Int) (content : Int → Option UInt8) :
    cutAll (first :: rest) content =
      cutAt (rest.getLastD first) (cutAt (rest.foldl min first) content) := by
  induction rest using List.reverseRecOn with
  | nil =>
      funext x
      change cutAt first content x = cutAt first (cutAt first content) x
      unfold cutAt
      by_cases inside : 0 ≤ x ∧ x < first
      · rw [if_pos inside, if_pos inside, Option.getD_some]
      · rw [if_neg inside, if_neg inside]
  | append_singleton front n inductionHypothesis =>
      have step : cutAll (first :: (front ++ [n])) content =
          cutAt n (cutAll (first :: front) content) := by
        simp only [cutAll, List.foldl_cons, List.foldl_append, List.foldl_nil]
      rw [step, inductionHypothesis, cutAt_cutAt content (foldl_min_le_getLast front first)]
      simp only [List.foldl_append, List.foldl_cons, List.foldl_nil, List.getLastD_concat]

/-! ### No extent past the end -/

section Ends

variable {size newSize : Int} {ext e p : Extent}

/-- Where the pieces of an extent end: at the write, or where the extent did. -/
theorem Extent.fileEnd_pieces (offset : IsInt64 ext.fileOffset) (member : p ∈ pieces ext e) :
    p.fileEnd ≤ e.fileEnd := by
  rcases mem_pieces member with ⟨rfl, -⟩ | ⟨overlap, -, ⟨-, rfl⟩ | ⟨-, rfl⟩⟩
  · exact le_rfl
  · have fin : (headPiece ext e).fileEnd = ext.fileOffset :=
      wrap64_add_wrap64_sub e.fileOffset offset
    omega
  · exact (wrap64_add_wrap64_sub ext.fileEnd (wrap64_range _)).le

/-- A truncation leaves an extent that ends at the cut, or as it is. -/
theorem Extent.fileEnd_trim (sizeRange : IsInt64 newSize) (kept : trimExtent newSize e = some p) :
    p.fileEnd ≤ newSize := by
  unfold trimExtent at kept
  split_ifs at kept with beyond cut <;> cases kept
  · exact (wrap64_add_wrap64_sub e.fileOffset sizeRange).le
  · exact not_lt.mp cut

/-- Whatever the in-place loop overwrites, a write leaves no extent past the grown
end. -/
theorem fileEnd_writeExtents {exts : List Extent} (ends : ∀ e ∈ exts, e.fileEnd ≤ size)
    (offset : IsInt64 ext.fileOffset) :
    ∀ x ∈ writeExtents exts ext, x.fileEnd ≤ max size ext.fileEnd := by
  intro x member
  rcases mem_writeExtents offset member with rfl | ⟨e, inExts, inPieces⟩
  · exact le_max_right _ _
  · exact ((Extent.fileEnd_pieces offset inPieces).trans (ends e inExts)).trans (le_max_left _ _)

/-- Nothing is shown past the end. -/
theorem overlay_shows_eq_none {exts : List Extent} (ends : ∀ e ∈ exts, e.fileEnd ≤ size)
    (bytesOf : Key → Int → UInt8) {x : Int} (past : size ≤ x) :
    overlay (exts.map (Extent.shows bytesOf)) x = none := by
  apply overlay_eq_none.mpr
  intro layer member
  obtain ⟨e, inExts, rfl⟩ := List.mem_map.mp member
  have below := ends e inExts
  exact Extent.shows_of_not_spans fun spans => absurd spans.2 (by omega)

theorem Extent.shows_trim (sizeRange : IsInt64 newSize) (bytesOf : Key → Int → UInt8) (x : Int) :
    overlay ((trimExtent newSize e).toList.map (Extent.shows bytesOf)) x =
      if x < newSize then e.shows bytesOf x else none := by
  unfold trimExtent
  by_cases beyond : e.fileOffset ≥ newSize
  · rw [if_pos beyond]
    by_cases below : x < newSize
    · rw [if_pos below, shows_of_not_spans fun spans => absurd spans.1 (by omega)]
      rfl
    · rw [if_neg below]
      rfl
  rw [if_neg beyond]
  by_cases cut : e.fileEnd > newSize
  · have cutSpans : Extent.Spans { e with length := wrap64 (newSize - e.fileOffset) } x ↔
        e.fileOffset ≤ x ∧ x < newSize := by
      have fin := wrap64_add_wrap64_sub e.fileOffset sizeRange
      exact and_congr_right' (iff_of_eq (congrArg (x < ·) fin))
    rw [if_pos cut, Option.toList_some, List.map_singleton, overlay_singleton]
    by_cases inside : e.fileOffset ≤ x ∧ x < newSize
    · rw [if_pos inside.2, shows, if_pos (cutSpans.mpr inside), shows,
        if_pos ⟨inside.1, inside.2.trans cut⟩]
    · rw [shows_of_not_spans (mt cutSpans.mp inside)]
      by_cases below : x < newSize
      · rw [if_pos below, shows_of_not_spans fun spans => inside ⟨spans.1, below⟩]
      · rw [if_neg below]
  · rw [if_neg cut, Option.toList_some, List.map_singleton, overlay_singleton]
    by_cases below : x < newSize
    · rw [if_pos below]
    · rw [if_neg below, shows_of_not_spans fun spans => absurd spans.2 (by omega)]

/-- A truncation cuts what the list shows. -/
theorem overlay_shows_trim (sizeRange : IsInt64 newSize) (bytesOf : Key → Int → UInt8)
    (exts : List Extent) (x : Int) :
    overlay ((trimExtents newSize exts).map (Extent.shows bytesOf)) x =
      if x < newSize then overlay (exts.map (Extent.shows bytesOf)) x else none :=
  overlay_filterMap fun _ _ => Extent.shows_trim sizeRange bytesOf x

end Ends

/-! ### Runs -/

/-- The file is regular and none of its extents ends past its size. -/
def Index.FileEnds (idx : Index) (ino : Ino) : Prop :=
  ∃ inode exts, idx.inodes.get ino = some inode ∧ inode.fileType = .regular ∧
    idx.extents.get ino = some exts ∧ ∀ e ∈ exts, e.fileEnd ≤ inode.size

/-- `WriteExtent` or `SetAttr` with any `int64` arguments. -/
def Mutation.ChangesFile : Mutation → Prop
  | .writeExtent _ ext _ => IsInt64 ext.fileOffset ∧ IsInt64 ext.length
  | .setAttr _ change _ => ∀ size ∈ change.size, IsInt64 size
  | _ => False

instance (m : Mutation) : Decidable m.ChangesFile := by
  induction m using Mutation.casesOn <;> dsimp only [Mutation.ChangesFile] <;> infer_instance

theorem Mutation.ChangesFile.isEdit {m : Mutation} (changes : m.ChangesFile) : m.IsEdit := by
  cases m <;> trivial

theorem Index.FileEnds.edit {idx : Index} {ino : Ino} (ends : idx.FileEnds ino) {m : Mutation}
    (changes : m.ChangesFile) : (idx.edit m).FileEnds ino := by
  unfold Index.edit
  cases applied : m.apply idx with
  | error failure => exact ends
  | ok idx' =>
      obtain ⟨inode, exts, known, regular, listed, each⟩ := ends
      obtain ⟨inode', exts', known', regular', listed', how⟩ :=
        changes.isEdit.file_cases applied known regular listed
      refine ⟨inode', exts', known', regular', listed', ?_⟩
      rcases how with ⟨size, rfl, -⟩ | ⟨ext, now, rfl, size, rfl⟩ |
        ⟨change, now, rfl, given, -, rfl⟩
      · rw [size]
        exact each
      · rw [size]
        exact fileEnd_writeExtents each changes.1
      · intro x member
        obtain ⟨e, -, kept⟩ := List.mem_filterMap.mp member
        exact Extent.fileEnd_trim (changes _ given) kept

theorem Index.FileEnds.edits {ino : Ino} {ms : List Mutation} :
    ∀ {idx : Index}, idx.FileEnds ino → (∀ m ∈ ms, m.ChangesFile) →
      (idx.edits ms).FileEnds ino := by
  induction ms with
  | nil =>
      intro idx ends _
      exact ends
  | cons m rest inductionHypothesis =>
      intro idx ends changes
      exact inductionHypothesis (ends.edit (changes m List.mem_cons_self))
        fun other member => changes other (List.mem_cons_of_mem m member)

theorem Index.FileEnds.new (idx : Index) (mode uid gid rdev : UInt32) (now : Int) :
    (idx.createInode .regular mode uid gid rdev now).2.FileEnds idx.nextIno :=
  ⟨_, [], GoMap.get_set_self _ _ _, rfl, GoMap.get_set_self _ _ _, nofun⟩

/-! ### The law -/

theorem Index.fileByte_eq {idx : Index} {ino : Ino} {inode : Inode} {exts : List Extent}
    (known : idx.inodes.get ino = some inode) (listed : idx.extents.get ino = some exts)
    (bytesOf : Key → Int → UInt8) (x : Int) :
    idx.fileByte bytesOf ino x =
      if 0 ≤ x ∧ x < inode.size then
        some ((overlay (exts.map (Extent.shows bytesOf)) x).getD 0)
      else none := by
  unfold Index.fileByte
  rw [known, listed]
  rfl

/-- `SetAttr` with a size cuts the content there, or zero-extends it. -/
theorem Index.FileEnds.fileByte_setAttr {idx idx' : Index} {ino : Ino} (ends : idx.FileEnds ino)
    {change : AttrChange} {now n : Int} (given : change.size = some n) (sizeRange : IsInt64 n)
    (applied : idx.setAttr ino change now = .ok idx') (bytesOf : Key → Int → UInt8) :
    idx'.fileByte bytesOf ino = cutAt n (idx.fileByte bytesOf ino) := by
  obtain ⟨inode, exts, known, regular, listed, each⟩ := ends
  have isEdit : (Mutation.setAttr ino change now).IsEdit := trivial
  obtain ⟨inode', exts', known', -, listed', how⟩ :=
    isEdit.file_cases applied known regular listed
  funext x
  rw [fileByte_eq known' listed', cutAt, fileByte_eq known listed]
  rcases how with ⟨size, rfl, same⟩ | ⟨ext, _, isWrite, -⟩ | ⟨_, _, isSet, sized, -, rfl⟩
  · -- The size stays, and so do the extents.
    have isSize := same change now rfl n given
    rw [size, isSize]
    split_ifs <;> rfl
  · cases isWrite
  · cases isSet
    cases given.symm.trans sized
    by_cases inside : 0 ≤ x ∧ x < inode'.size
    · rw [if_pos inside, if_pos inside, overlay_shows_trim sizeRange, if_pos inside.2]
      by_cases old : x < inode.size
      · rw [if_pos ⟨inside.1, old⟩, Option.getD_some]
      · rw [overlay_shows_eq_none each bytesOf (not_lt.mp old), if_neg fun both => old both.2]
    · rw [if_neg inside, if_neg inside]

theorem Index.FileEnds.setAttr_succeeds {idx : Index} {ino : Ino} (ends : idx.FileEnds ino)
    (change : AttrChange) (now : Int) : ∃ idx', idx.setAttr ino change now = .ok idx' := by
  obtain ⟨inode, -, known, -⟩ := ends
  unfold Index.setAttr
  rw [known]
  exact ⟨_, rfl⟩

theorem Index.FileEnds.writeExtent_succeeds {idx : Index} {ino : Ino} (ends : idx.FileEnds ino)
    (ext : Extent) (now : Int) : ∃ idx', idx.writeExtent ino ext now = .ok idx' := by
  obtain ⟨inode, -, known, regular, -⟩ := ends
  unfold Index.writeExtent
  rw [known]
  simp only [regular, ne_eq, not_true_eq_false, if_false]
  exact ⟨_, rfl⟩

/-- `SetAttr` on one file leaves the extents of the others. -/
theorem Index.extents_setAttr_ne {idx idx' : Index} {ino other : Ino} {change : AttrChange}
    {now : Int} (applied : idx.setAttr ino change now = .ok idx') (differs : other ≠ ino) :
    idx'.extents.get other = idx.extents.get other := by
  obtain ⟨inode, -, rfl⟩ := Index.setAttr_ok applied
  simp only [Index.touched]
  split
  · rfl
  · split_ifs
    · exact GoMap.get_set_ne _ _ differs
    · rfl

/-- A content is itself cut at the size of the file. -/
theorem Index.fileByte_cut {idx : Index} {ino : Ino} {inode : Inode}
    (known : idx.inodes.get ino = some inode) (bytesOf : Key → Int → UInt8) :
    cutAt inode.size (idx.fileByte bytesOf ino) = idx.fileByte bytesOf ino := by
  funext x
  unfold cutAt Index.fileByte
  rw [known]
  by_cases inside : 0 ≤ x ∧ x < inode.size
  · simp only [if_pos inside, Option.getD_some]
  · simp only [if_neg inside]

/-- The chain `ms` of `SetAttr` calls on the file sets the given sizes in order. -/
def SetsSizes (ino : Ino) (ms : List Mutation) (sizes : List Int) : Prop :=
  List.Forall₂ (fun m n => ∃ change now, m = Mutation.setAttr ino change now ∧
    change.size = some n) ms sizes

/-- A chain of sizes cuts at each of them in turn. -/
theorem Index.FileEnds.fileByte_setSizes {ino : Ino} {ms : List Mutation} {sizes : List Int}
    (bytesOf : Key → Int → UInt8) (chain : SetsSizes ino ms sizes) :
    ∀ {idx : Index}, idx.FileEnds ino → (∀ n ∈ sizes, IsInt64 n) →
      (idx.edits ms).fileByte bytesOf ino = cutAll sizes (idx.fileByte bytesOf ino) := by
  induction chain with
  | nil =>
      intro idx _ _
      rfl
  | cons first _ inductionHypothesis =>
      intro idx ends range
      obtain ⟨change, now, rfl, given⟩ := first
      have changes : (Mutation.setAttr ino change now).ChangesFile := by
        intro size isGiven
        cases given.symm.trans isGiven
        exact range _ List.mem_cons_self
      have next := inductionHypothesis (ends.edit changes)
        fun n member => range n (List.mem_cons_of_mem _ member)
      obtain ⟨idx', applied⟩ := ends.setAttr_succeeds change now
      have edited : idx.edit (.setAttr ino change now) = idx' := by
        have same : (Mutation.setAttr ino change now).apply idx = .ok idx' := applied
        unfold Index.edit
        rw [same]
      have cut := ends.fileByte_setAttr given (range _ List.mem_cons_self) applied bytesOf
      rw [edited, cut] at next
      rw [← edited] at next
      exact next

/-- A write that starts at or past the end keeps the content, fills the gap with
zeros and adds its own bytes. -/
theorem Index.FileEnds.fileByte_writeExtent {idx idx' : Index} {ino : Ino}
    (ends : idx.FileEnds ino) {inode : Inode} (known : idx.inodes.get ino = some inode)
    {ext : Extent} {now : Int} (start : 0 ≤ ext.fileOffset) (past : inode.size ≤ ext.fileOffset)
    (applied : idx.writeExtent ino ext now = .ok idx') (bytesOf : Key → Int → UInt8) (x : Int) :
    idx'.fileByte bytesOf ino x =
      if ext.Spans x then ext.shows bytesOf x
      else cutAt (max inode.size ext.fileEnd) (idx.fileByte bytesOf ino) x := by
  obtain ⟨_, exts, found, -, listed, each⟩ := ends
  cases known.symm.trans found
  -- Every old extent ends before the write, so the loop keeps the list.
  have apart : ∀ e ∈ exts, Extent.pieces ext e = [e] := by
    intro e member
    unfold Extent.pieces
    rw [if_pos (Or.inl ((each e member).trans past))]
  have written : writeExtents exts ext = exts ++ [ext] := by
    unfold writeExtents
    rw [rewriteInPlace_of_last fun e member => by
      rw [apart e (List.mem_of_mem_dropLast member)]
      exact le_rfl, List.flatMap_congr apart, List.flatMap_singleton']
  obtain ⟨_, found', -, rfl⟩ := Index.writeExtent_ok applied
  cases known.symm.trans found'
  have size := (Index.size_recordWrite ext now inode).1
  rw [listed, Option.getD_some, written]
  rw [fileByte_eq (GoMap.get_set_self _ _ _) (GoMap.get_set_self _ _ _), size, cutAt,
    fileByte_eq known listed, List.map_append, List.map_singleton, overlay_concat]
  by_cases spans : ext.Spans x
  · rw [if_pos spans, if_pos ⟨start.trans spans.1, lt_max_of_lt_right spans.2⟩, Extent.shows,
      if_pos spans, Option.some_or, Option.getD_some]
  · rw [if_neg spans, Extent.shows_of_not_spans spans, Option.none_or]
    by_cases inside : 0 ≤ x ∧ x < max inode.size ext.fileEnd
    · rw [if_pos inside, if_pos inside]
      by_cases old : x < inode.size
      · rw [if_pos ⟨inside.1, old⟩, Option.getD_some]
      · rw [if_neg fun both => old both.2]
        exact congrArg (fun byte => some (Option.getD byte 0))
          (overlay_shows_eq_none each bytesOf (not_lt.mp old))
    · rw [if_neg inside, if_neg inside]

/-- The truncation law at a file: what one size does to its content and to other
files, what a chain of sizes does, and what a write at or past the end adds. -/
structure Index.TruncationLaw (idx : Index) (ino : Ino) (inode : Inode)
    (bytesOf : Key → Int → UInt8) : Prop where
  resized : ∀ (change : AttrChange) (now n : Int), change.size = some n → 0 ≤ n → IsInt64 n →
    ∃ after, idx.setAttr ino change now = .ok after ∧
      after.fileByte bytesOf ino = cutAt n (idx.fileByte bytesOf ino) ∧
      ∀ other, other ≠ ino → after.extents.get other = idx.extents.get other
  chained : ∀ (ms : List Mutation) (sizes : List Int), SetsSizes ino ms sizes →
    (∀ n ∈ sizes, 0 ≤ n ∧ IsInt64 n) →
    (idx.edits ms).fileByte bytesOf ino =
      cutAt (sizes.getLastD inode.size)
        (cutAt (sizes.foldl min inode.size) (idx.fileByte bytesOf ino))
  appended : ∀ (ext : Extent) (now : Int), 0 ≤ ext.fileOffset → inode.size ≤ ext.fileOffset →
    ∃ after, idx.writeExtent ino ext now = .ok after ∧ ∀ x,
      after.fileByte bytesOf ino x =
        if ext.Spans x then ext.shows bytesOf x
        else cutAt (max inode.size ext.fileEnd) (idx.fileByte bytesOf ino) x

theorem Index.FileEnds.truncationLaw {idx : Index} {ino : Ino} (ends : idx.FileEnds ino)
    {inode : Inode} (known : idx.inodes.get ino = some inode) (bytesOf : Key → Int → UInt8) :
    idx.TruncationLaw ino inode bytesOf where
  resized change now n given _ range := by
    obtain ⟨after, applied⟩ := ends.setAttr_succeeds change now
    exact ⟨after, applied, ends.fileByte_setAttr given range applied bytesOf,
      fun other differs => Index.extents_setAttr_ne applied differs⟩
  chained ms sizes chain range := by
    have cuts := ends.fileByte_setSizes bytesOf chain fun n member => (range n member).2
    -- The size of the file is one more cut, in front of the chain.
    have whole : cutAll sizes (idx.fileByte bytesOf ino) =
        cutAll (inode.size :: sizes) (idx.fileByte bytesOf ino) := by
      rw [cutAll, cutAll, List.foldl_cons, Index.fileByte_cut known]
    rw [cuts, whole, cutAll_cons]
  appended ext now start past := by
    obtain ⟨after, applied⟩ := ends.writeExtent_succeeds ext now
    exact ⟨after, applied, ends.fileByte_writeExtent known start past applied bytesOf⟩

/-- The law holds for a new file after any run of writes and attribute changes. -/
theorem truncation_law {idx : Index} {mode uid gid rdev : UInt32} {now : Int} {ms : List Mutation}
    (changes : ∀ m ∈ ms, m.ChangesFile) (bytesOf : Key → Int → UInt8) :
    ∃ inode,
      ((idx.createInode .regular mode uid gid rdev now).2.edits ms).inodes.get idx.nextIno =
        some inode ∧
      ((idx.createInode .regular mode uid gid rdev now).2.edits ms).TruncationLaw idx.nextIno
        inode bytesOf := by
  have ends := (Index.FileEnds.new idx mode uid gid rdev now).edits changes
  have ⟨inode, _, known, _⟩ := ends
  exact ⟨inode, known, ends.truncationLaw known bytesOf⟩

/-- It holds after a write whose end wraps, a grow, an overwrite and a shrink. -/
theorem truncation_law_wrapped :
    ∃ inode,
      (newFile.edits [.writeExtent 2 ⟨chunkID 0, 0, 4, 9223372036854775806⟩ 1,
        .setAttr 2 { size := some 9 } 2, .writeExtent 2 ⟨chunkID 0, 4, 6, 2⟩ 3,
        .setAttr 2 { size := some 5 } 4]).inodes.get 2 = some inode ∧
      (newFile.edits [.writeExtent 2 ⟨chunkID 0, 0, 4, 9223372036854775806⟩ 1,
        .setAttr 2 { size := some 9 } 2, .writeExtent 2 ⟨chunkID 0, 4, 6, 2⟩ 3,
        .setAttr 2 { size := some 5 } 4]).TruncationLaw 2 inode fun _ offset =>
          offset.toNat.toUInt8 :=
  truncation_law (by decide) _

end Fusey
