import Fusey.Index.Mutation

/-!
Contract: the layout of a file's extent list under `Index.WriteExtent` and
`Index.SetAttr` (`internal/index/index.go`).

Owns:
- a laid-out list: no two extents share a file offset, each has bytes, and each
  ends inside the file;
- that a write keeps the layout when it splits no extent but the last and its end
  is an `int64`, and that a truncation always does;
- runs of both methods on a new file, and a run that breaks the layout.

Chunk offsets play no part.
-/

set_option autoImplicit false

namespace Fusey

open GoInt

/-! ### One list -/

/-- No file offset lies in both extents. -/
def Extent.Disjoint (a b : Extent) : Prop := ∀ x, ¬ (a.Covers x ∧ b.Covers x)

/-- The extents of a file of `size` bytes. -/
structure Laid (size : Int) (exts : List Extent) : Prop where
  disjoint : exts.Pairwise Extent.Disjoint
  within : ∀ e ∈ exts, e.Within size

theorem Laid.nil (size : Int) : Laid size [] := ⟨List.Pairwise.nil, nofun⟩

section Pieces

variable {size : Int} {ext e p : Extent}

/-- What a write keeps of an old extent lies inside it, has bytes, and is apart
from the new one. -/
structure Extent.KeptOf (ext e p : Extent) : Prop where
  start : e.fileOffset ≤ p.fileOffset
  stop : p.fileOffset + p.length ≤ e.fileOffset + e.length
  positive : 0 < p.length
  apart : p.fileOffset + p.length ≤ ext.fileOffset ∨ ext.fileOffset + ext.length ≤ p.fileOffset

theorem Extent.length_headPiece (low : 0 ≤ e.fileOffset) (before : e.fileOffset < ext.fileOffset)
    (small : ext.fileOffset < 9223372036854775808) :
    (headPiece ext e).length = ext.fileOffset - e.fileOffset :=
  wrap64_of_nonneg (by omega) (by omega)

theorem Extent.length_tailPiece {fin : Int} (low : 0 ≤ fin) (behind : fin < e.fileEnd) :
    (tailPiece fin e).length = e.fileEnd - fin := by
  have range : IsInt64 e.fileEnd := wrap64_range _
  unfold IsInt64 at range
  exact wrap64_of_nonneg (by omega) (by omega)

theorem Extent.keptOf_pieces (within : e.Within size) (small : size < 9223372036854775808)
    (low : 0 ≤ ext.fileOffset) (positive : 0 < ext.length)
    (ends : ext.fileOffset + ext.length < 9223372036854775808) (member : p ∈ pieces ext e) :
    KeptOf ext e p := by
  have plain : ext.fileEnd = ext.fileOffset + ext.length := wrap64_of_nonneg (by omega) ends
  have oldPlain := within.fileEnd small
  obtain ⟨start, length, stop⟩ := within
  rcases mem_pieces member with ⟨rfl, apart⟩ | ⟨overlap, inside, ⟨before, rfl⟩ | ⟨behind, rfl⟩⟩
  · exact ⟨le_rfl, le_rfl, length, by omega⟩
  · have headLength := length_headPiece start before (by omega)
    have headStart : (headPiece ext e).fileOffset = e.fileOffset := rfl
    exact ⟨by omega, by omega, by omega, by omega⟩
  · have tailLength := length_tailPiece (by omega) behind
    have tailStart : (tailPiece ext.fileEnd e).fileOffset = ext.fileEnd := rfl
    exact ⟨by omega, by omega, by omega, by omega⟩

/-- Head and tail of one extent lie on the two sides of the write. -/
theorem Extent.pairwise_pieces (within : e.Within size) (low : 0 ≤ ext.fileOffset)
    (positive : 0 < ext.length) (ends : ext.fileOffset + ext.length < 9223372036854775808) :
    (pieces ext e).Pairwise Extent.Disjoint := by
  have plain : ext.fileEnd = ext.fileOffset + ext.length := wrap64_of_nonneg (by omega) ends
  simp only [pieces]
  split_ifs with apart before behind behind
  · exact List.pairwise_singleton _ _
  · have headLength := length_headPiece within.start before (by omega)
    have headStart : (headPiece ext e).fileOffset = e.fileOffset := rfl
    have tailStart : (tailPiece ext.fileEnd e).fileOffset = ext.fileEnd := rfl
    rw [List.singleton_append, List.pairwise_pair]
    rintro x ⟨⟨-, inHead⟩, inTail, -⟩
    omega
  · exact List.pairwise_singleton _ _
  · exact List.pairwise_singleton _ _
  · exact List.Pairwise.nil

end Pieces

section Lists

variable {size : Int} {exts : List Extent}

/-- A write that splits no inner extent and whose end does not wrap keeps the
layout of the grown file. -/
theorem Laid.write (laid : Laid size exts) (small : size < 9223372036854775808) {ext : Extent}
    (low : 0 ≤ ext.fileOffset) (positive : 0 < ext.length)
    (ends : ext.fileOffset + ext.length < 9223372036854775808)
    (noSplit : ¬ SplitsInner exts ext) :
    Laid (max size (ext.fileOffset + ext.length)) (writeExtents exts ext) := by
  have kept : ∀ e ∈ exts, ∀ p ∈ Extent.pieces ext e, Extent.KeptOf ext e p :=
    fun e member p => Extent.keptOf_pieces (laid.within e member) small low positive ends
  rw [writeExtents_eq noSplit]
  constructor
  · rw [List.pairwise_append, List.pairwise_flatMap]
    refine ⟨⟨fun e member => Extent.pairwise_pieces (laid.within e member) low positive ends,
      ?_⟩, List.pairwise_singleton _ _, ?_⟩
    · -- Pieces of two extents lie inside extents that share nothing.
      apply laid.disjoint.imp_of_mem
      rintro a b aMember bMember apart p inA q inB x ⟨⟨pLow, pHigh⟩, qLow, qHigh⟩
      have ofA := kept a aMember p inA
      have ofB := kept b bMember q inB
      exact apart x ⟨⟨ofA.start.trans pLow, by have := ofA.stop; omega⟩,
        ofB.start.trans qLow, by have := ofB.stop; omega⟩
    · intro p old new isNew
      obtain ⟨e, member, inPieces⟩ := List.mem_flatMap.mp old
      rw [List.mem_singleton.mp isNew]
      rintro x ⟨⟨pLow, pHigh⟩, extLow, extHigh⟩
      have apart := (kept e member p inPieces).apart
      omega
  · intro p member
    rcases List.mem_append.mp member with old | new
    · obtain ⟨e, inExts, inPieces⟩ := List.mem_flatMap.mp old
      have ofE := kept e inExts p inPieces
      have within := laid.within e inExts
      exact ⟨within.start.trans ofE.start, ofE.positive,
        ofE.stop.trans (within.stop.trans (le_max_left _ _))⟩
    · rw [List.mem_singleton.mp new]
      exact ⟨low, positive, le_max_right _ _⟩

theorem trimExtent_some {newSize : Int} {e x : Extent} (kept : trimExtent newSize e = some x) :
    x.fileOffset = e.fileOffset ∧ (e.fileOffset + e.length < 9223372036854775808 →
      0 ≤ e.fileOffset → 0 < e.length → x.length ≤ e.length) := by
  unfold trimExtent at kept
  split_ifs at kept with beyond cut <;> cases kept
  · refine ⟨rfl, fun ends low positive => ?_⟩
    have plain : e.fileEnd = e.fileOffset + e.length := wrap64_of_nonneg (by omega) ends
    have length : wrap64 (newSize - e.fileOffset) = newSize - e.fileOffset :=
      wrap64_of_nonneg (by omega) (by omega)
    simp only [length]
    omega
  · exact ⟨rfl, fun _ _ _ => le_rfl⟩

/-- A truncation keeps the layout. -/
theorem Laid.trim (laid : Laid size exts) (small : size < 9223372036854775808) (newSize : Int) :
    Laid newSize (trimExtents newSize exts) := by
  refine ⟨?_, within_trimExtents small laid.within⟩
  unfold trimExtents
  rw [List.pairwise_filterMap]
  apply laid.disjoint.imp_of_mem
  rintro a b aMember bMember apart p ofA q ofB x ⟨⟨pLow, pHigh⟩, qLow, qHigh⟩
  obtain ⟨aLow, aPositive, aStop⟩ := laid.within a aMember
  obtain ⟨bLow, bPositive, bStop⟩ := laid.within b bMember
  obtain ⟨pStart, pLength⟩ := trimExtent_some ofA
  obtain ⟨qStart, qLength⟩ := trimExtent_some ofB
  have shorterA := pLength (by omega) aLow aPositive
  have shorterB := qLength (by omega) bLow bPositive
  exact apart x ⟨⟨by omega, by omega⟩, by omega, by omega⟩

end Lists

/-! ### Runs on a new file -/

/-- The extents of a regular file are laid out. -/
def Index.FileLaid (idx : Index) (ino : Ino) : Prop :=
  ∃ inode exts, idx.inodes.get ino = some inode ∧ inode.fileType = .regular ∧
    idx.extents.get ino = some exts ∧ inode.size < 9223372036854775808 ∧ Laid inode.size exts

/-- `WriteExtent` with an extent of positive length at a non-negative offset, or
`SetAttr` with a non-negative size. -/
def Mutation.Edits : Mutation → Prop
  | .writeExtent _ ext _ => 0 ≤ ext.fileOffset ∧ 0 < ext.length
  | .setAttr _ change _ => ∀ size ∈ change.size, 0 ≤ size ∧ IsInt64 size
  | _ => False

instance (m : Mutation) : Decidable m.Edits := by
  induction m using Mutation.casesOn <;> dsimp only [Mutation.Edits] <;> infer_instance

/-- A method that returns an error leaves the index as it was. -/
def Index.edit (idx : Index) (m : Mutation) : Index :=
  match m.apply idx with
  | .ok idx' => idx'
  | .error _ => idx

/-- A run of methods. -/
def Index.edits (idx : Index) (ms : List Mutation) : Index := ms.foldl Index.edit idx

/-- A write to the file ends in the range of `int64` and splits no extent of its
list but the last. -/
def Mutation.SplitsNone (ino : Ino) (idx : Index) : Mutation → Prop
  | .writeExtent target ext _ => target = ino →
      ext.fileOffset + ext.length < 9223372036854775808 ∧
        ¬ SplitsInner ((idx.extents.get ino).getD []) ext
  | _ => True

instance (ino : Ino) (idx : Index) (m : Mutation) : Decidable (m.SplitsNone ino idx) := by
  induction m using Mutation.casesOn <;> dsimp only [Mutation.SplitsNone] <;> infer_instance

/-- Every method of the run meets the condition when it is called. -/
def SplitsNone (ino : Ino) : Index → List Mutation → Prop
  | _, [] => True
  | idx, m :: rest => m.SplitsNone ino idx ∧ SplitsNone ino (idx.edit m) rest

instance decidableSplitsNone (ino : Ino) :
    ∀ (idx : Index) (ms : List Mutation), Decidable (SplitsNone ino idx ms)
  | _, [] => isTrue trivial
  | idx, m :: rest => @instDecidableAnd _ _ _ (decidableSplitsNone ino (idx.edit m) rest)

theorem Index.size_recordWrite (ext : Extent) (now : Int) (inode : Inode) :
    (recordWrite ext now inode).size = max inode.size ext.fileEnd ∧
      (recordWrite ext now inode).fileType = inode.fileType := by
  unfold recordWrite
  split_ifs with beyond
  · exact ⟨(max_eq_right (Int.le_of_lt beyond)).symm, rfl⟩
  · exact ⟨(max_eq_left (Int.not_lt.mp beyond)).symm, rfl⟩

theorem Index.AttrChange.size_apply (change : AttrChange) (now : Int) (inode : Inode) :
    (change.apply now inode).size = change.size.getD inode.size ∧
      (change.apply now inode).fileType = inode.fileType := by
  unfold AttrChange.apply
  cases change.size with
  | none => exact ⟨rfl, rfl⟩
  | some newSize =>
      dsimp only
      split_ifs with resized
      · exact ⟨rfl, rfl⟩
      · exact ⟨(not_not.mp resized).symm, rfl⟩

/-- `WriteExtent` or `SetAttr`. -/
def Mutation.IsEdit : Mutation → Prop
  | .writeExtent .. | .setAttr .. => True
  | _ => False

theorem Mutation.Edits.isEdit {m : Mutation} (edits : m.Edits) : m.IsEdit := by
  cases m <;> trivial

/-- What an edit does to a regular file: it keeps size and list, writes an extent
into it, or trims it to another size. -/
theorem Mutation.IsEdit.file_cases {m : Mutation} (isEdit : m.IsEdit) {idx idx' : Index}
    (applied : m.apply idx = .ok idx') {ino : Ino} {inode : Inode} {exts : List Extent}
    (known : idx.inodes.get ino = some inode) (regular : inode.fileType = .regular)
    (listed : idx.extents.get ino = some exts) :
    ∃ inode' exts', idx'.inodes.get ino = some inode' ∧ inode'.fileType = .regular ∧
      idx'.extents.get ino = some exts' ∧
      ((inode'.size = inode.size ∧ exts' = exts ∧
          ∀ change now, m = .setAttr ino change now → ∀ size ∈ change.size, size = inode.size) ∨
        (∃ ext now, m = .writeExtent ino ext now ∧ inode'.size = max inode.size ext.fileEnd ∧
          exts' = writeExtents exts ext) ∨
        ∃ change now, m = .setAttr ino change now ∧ change.size = some inode'.size ∧
          inode'.size ≠ inode.size ∧ exts' = trimExtents inode'.size exts) := by
  cases m with
  | writeExtent target ext now =>
      obtain ⟨written, found, -, rfl⟩ := Index.writeExtent_ok applied
      by_cases isIt : ino = target
      · subst isIt
        cases known.symm.trans found
        obtain ⟨size, sameType⟩ := Index.size_recordWrite ext now inode
        refine ⟨_, _, GoMap.get_set_self _ _ _, sameType.trans regular, GoMap.get_set_self _ _ _,
          Or.inr (Or.inl ⟨ext, now, rfl, size, ?_⟩)⟩
        rw [listed, Option.getD_some]
      · exact ⟨inode, exts, (GoMap.get_set_ne _ _ isIt).trans known, regular,
          (GoMap.get_set_ne _ _ isIt).trans listed, Or.inl ⟨rfl, rfl, nofun⟩⟩
  | setAttr target change now =>
      obtain ⟨changed, found, rfl⟩ := Index.setAttr_ok applied
      by_cases isIt : ino = target
      · subst isIt
        cases known.symm.trans found
        obtain ⟨size, sameType⟩ := Index.AttrChange.size_apply change now inode
        have stored := GoMap.get_set_self idx.inodes ino (change.apply now inode)
        simp only [Index.touched]
        cases given : change.size with
        | none =>
            rw [given, Option.getD_none] at size
            refine ⟨_, exts, stored, sameType.trans regular, listed, Or.inl ⟨size, rfl, ?_⟩⟩
            rintro _ _ ⟨⟩ size' isGiven
            rw [given] at isGiven
            cases isGiven
        | some newSize =>
            rw [given, Option.getD_some] at size
            by_cases same : newSize = inode.size
            · refine ⟨_, exts, stored, sameType.trans regular, ?_,
                Or.inl ⟨size.trans same, rfl, ?_⟩⟩
              · simp only [same, ne_eq, not_true_eq_false, false_and, if_false]
                exact listed
              · rintro _ _ ⟨⟩ size' isGiven
                rw [given] at isGiven
                cases isGiven
                exact same
            · refine ⟨_, trimExtents newSize exts, stored, sameType.trans regular, ?_,
                Or.inr (Or.inr ⟨change, now, rfl, given.trans (congrArg some size.symm), ?_, ?_⟩)⟩
              · simp only [ne_eq, same, not_false_eq_true, regular, and_self, if_true,
                  GoMap.get_set_self, listed, Option.getD_some]
              · rw [size]
                exact same
              · rw [size]
      · refine ⟨inode, exts, (GoMap.get_set_ne _ _ isIt).trans known, regular, ?_,
          Or.inl ⟨rfl, rfl, ?_⟩⟩
        · simp only [Index.touched]
          split
          · exact listed
          · split_ifs
            · exact (GoMap.get_set_ne _ _ isIt).trans listed
            · exact listed
        · rintro _ _ ⟨⟩
          exact absurd rfl isIt
  | _ => exact isEdit.elim

/-- One method. -/
theorem Index.FileLaid.edit {idx : Index} {ino : Ino} (laid : idx.FileLaid ino) {m : Mutation}
    (edits : m.Edits) (splits : m.SplitsNone ino idx) : (idx.edit m).FileLaid ino := by
  unfold Index.edit
  cases applied : m.apply idx with
  | error failure => exact laid
  | ok idx' =>
      obtain ⟨inode, exts, known, regular, listed, small, layout⟩ := laid
      obtain ⟨inode', exts', known', regular', listed', how⟩ :=
        edits.isEdit.file_cases applied known regular listed
      refine ⟨inode', exts', known', regular', listed', ?_⟩
      rcases how with ⟨size, rfl, -⟩ | ⟨ext, now, rfl, size, rfl⟩ |
        ⟨change, now, rfl, given, -, rfl⟩
      · rw [size]
        exact ⟨small, layout⟩
      · obtain ⟨low, positive⟩ := edits
        obtain ⟨ends, noSplit⟩ := splits rfl
        rw [listed, Option.getD_some] at noSplit
        have plain : ext.fileEnd = ext.fileOffset + ext.length := wrap64_of_nonneg (by omega) ends
        rw [size, plain]
        exact ⟨max_lt small ends, layout.write small low positive ends noSplit⟩
      · exact ⟨(edits inode'.size given).2.2, layout.trim small inode'.size⟩

theorem Index.FileLaid.edits {ino : Ino} {ms : List Mutation} :
    ∀ {idx : Index}, idx.FileLaid ino → (∀ m ∈ ms, m.Edits) → SplitsNone ino idx ms →
      (idx.edits ms).FileLaid ino := by
  induction ms with
  | nil =>
      intro idx laid _ _
      exact laid
  | cons m rest inductionHypothesis =>
      intro idx laid edits splits
      exact inductionHypothesis (laid.edit (edits m List.mem_cons_self) splits.1)
        (fun other member => edits other (List.mem_cons_of_mem m member)) splits.2

theorem Index.FileLaid.new (idx : Index) (mode uid gid rdev : UInt32) (now : Int) :
    (idx.createInode .regular mode uid gid rdev now).2.FileLaid idx.nextIno :=
  ⟨_, [], GoMap.get_set_self _ _ _, rfl, GoMap.get_set_self _ _ _,
    (by decide : (0 : Int) < 9223372036854775808), .nil 0⟩

/-- After any run of writes and truncations whose writes split no inner extent and
end in range, the extents of a new file share no offset, have bytes, and end
inside the file. -/
theorem extents_stay_laid_out {idx : Index} {mode uid gid rdev : UInt32} {now : Int}
    {ms : List Mutation} (edits : ∀ m ∈ ms, m.Edits)
    (splits : SplitsNone idx.nextIno (idx.createInode .regular mode uid gid rdev now).2 ms) :
    ∃ inode exts,
      ((idx.createInode .regular mode uid gid rdev now).2.edits ms).inodes.get idx.nextIno =
        some inode ∧
      ((idx.createInode .regular mode uid gid rdev now).2.edits ms).extents.get idx.nextIno =
        some exts ∧
      exts.Pairwise Extent.Disjoint ∧
      ∀ e ∈ exts, 0 < e.length ∧ e.fileOffset + e.length ≤ inode.size := by
  obtain ⟨inode, exts, known, -, listed, -, layout⟩ :=
    (Index.FileLaid.new idx mode uid gid rdev now).edits edits splits
  exact ⟨inode, exts, known, listed, layout.disjoint,
    fun e member => ⟨(layout.within e member).positive, (layout.within e member).stop⟩⟩

/-- A new file in an empty filesystem. -/
def newFile : Index := ((Index.new 4096 0).createInode .regular 0o644 0 0 0 1).2

/-- Appends, an overwrite inside the last extent and a truncation keep it. -/
theorem extents_stay_laid_out_overwritten :
    ∃ inode exts,
      (newFile.edits [.writeExtent 2 ⟨chunkID 0, 0, 4, 0⟩ 1, .writeExtent 2 ⟨chunkID 0, 4, 6, 4⟩ 2,
        .writeExtent 2 ⟨chunkID 0, 10, 2, 6⟩ 3, .setAttr 2 { size := some 9 } 4]).inodes.get 2 =
          some inode ∧
      (newFile.edits [.writeExtent 2 ⟨chunkID 0, 0, 4, 0⟩ 1, .writeExtent 2 ⟨chunkID 0, 4, 6, 4⟩ 2,
        .writeExtent 2 ⟨chunkID 0, 10, 2, 6⟩ 3, .setAttr 2 { size := some 9 } 4]).extents.get 2 =
          some exts ∧
      exts.Pairwise Extent.Disjoint ∧
      ∀ e ∈ exts, 0 < e.length ∧ e.fileOffset + e.length ≤ inode.size :=
  extents_stay_laid_out (by decide) (by decide +kernel)

/-- Two appends, and an overwrite inside the first of them. -/
def innerSplit : List Mutation :=
  [.writeExtent 2 ⟨chunkID 0, 0, 4, 0⟩ 1, .writeExtent 2 ⟨chunkID 0, 4, 4, 4⟩ 2,
    .writeExtent 2 ⟨chunkID 0, 8, 1, 1⟩ 3]

/-- The tail of the first extent takes the place of the second, and is there
twice. -/
theorem inner_split_overlaps :
    (∀ m ∈ innerSplit, m.Edits) ∧
      ∃ exts, (newFile.edits innerSplit).extents.get 2 = some exts ∧
        ¬ exts.Pairwise Extent.Disjoint := by
  refine ⟨by decide, [⟨chunkID 0, 0, 1, 0⟩, ⟨chunkID 0, 2, 2, 2⟩, ⟨chunkID 0, 2, 2, 2⟩,
    ⟨chunkID 0, 8, 1, 1⟩], by decide +kernel, ?_⟩
  intro disjoint
  have rest := (List.pairwise_cons.mp disjoint).2
  exact (List.pairwise_cons.mp rest).1 ⟨chunkID 0, 2, 2, 2⟩ List.mem_cons_self 2
    ⟨by decide, by decide⟩

/-- An end past the largest `int64` wraps, and the size stays behind it. -/
theorem wrapped_end_passes_size :
    let write : Mutation := .writeExtent 2 ⟨chunkID 0, 0, 2, 9223372036854775807⟩ 1
    write.Edits ∧ (newFile.edits [write]).extents.get 2 =
        some [⟨chunkID 0, 0, 2, 9223372036854775807⟩] ∧
      ((newFile.edits [write]).inodes.get 2).map Inode.size = some 0 := by
  decide +kernel

end Fusey
