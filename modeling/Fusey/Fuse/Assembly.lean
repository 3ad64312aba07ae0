import Fusey.Fuse.Reading

/-!
Contract: the buffer that `FileHandle.Read` assembles (`internal/fuse/fs.go`),
whatever serves its chunk reads.

Owns:
- a `Read` against an index and chunks that answer exactly what is asked;
- that it returns, and returns the denoted bytes: for each offset those of the
  last extent in the list that covers it, zero in a hole.

The extents may come in any order and overlap.
-/

set_option autoImplicit false

namespace Fusey

open GoInt Interleaving

/-- `Read` on a file whose `GetInode` and `GetExtents` answer as given, where
`ChunkStore.Read` returns the requested bytes of a chunk, or has no answer for a
range outside it. -/
def readerSys (cfg : Config) (inode : Inode) (exts : List Extent) (chunks : Key → Bytes) :
    Sys Unit Effect Answer Unit Call Reply where
  apply _ effect _ :=
    match effect with
    | .getInode _ => some ((), .inode (some inode))
    | .getExtents _ => some ((), .extents (some exts))
    | .readChunk id offset length =>
        (readAt (chunks id) offset length).map fun data => ((), .bytes data)
    | .mutate (.touchAtime _ _) => some ((), .done)
    | _ => none
  effect := Call.effect
  resume := Call.resume cfg

/-- The byte of the last extent in list order that covers `x`, or 0. -/
def denotedByte (chunks : Key → Bytes) (exts : List Extent) (x : Int) : UInt8 :=
  match (exts.filter fun e => e.Covers x).getLast? with
  | some e => byteOr (chunks e.chunkID) (e.chunkOffset + (x - e.fileOffset)).toNat
  | none => 0

/-- An extent whose offsets are non-negative, whose ends are `int64`s and which
lies inside its chunk. -/
structure Extent.Readable (chunks : Key → Bytes) (e : Extent) : Prop where
  fileOffset : 0 ≤ e.fileOffset
  chunkOffset : 0 ≤ e.chunkOffset
  positive : 0 < e.length
  fileEnd : e.fileOffset + e.length < 9223372036854775808
  chunkEnd : e.chunkOffset + e.length < 9223372036854775808
  inside : e.chunkOffset + e.length ≤ (chunks e.chunkID).length

instance (chunks : Key → Bytes) (e : Extent) : Decidable (e.Readable chunks) :=
  decidable_of_iff (0 ≤ e.fileOffset ∧ 0 ≤ e.chunkOffset ∧ 0 < e.length ∧
      e.fileOffset + e.length < 9223372036854775808 ∧
      e.chunkOffset + e.length < 9223372036854775808 ∧
      e.chunkOffset + e.length ≤ (chunks e.chunkID).length)
    ⟨fun ⟨a, b, c, d, e, f⟩ => ⟨a, b, c, d, e, f⟩, fun ⟨a, b, c, d, e, f⟩ => ⟨a, b, c, d, e, f⟩⟩

/-- The chunks as the loop's invariant reads them. -/
def chunkByte (chunks : Key → Bytes) (id : Key) (i : Nat) : Option UInt8 := (chunks id)[i]?

/-! ### The denoted byte -/

theorem denotedByte_eq_byteAt (chunks : Key → Bytes) (exts : List Extent) (x : Int) :
    denotedByte chunks exts x = (byteAt (totalByte (chunkByte chunks)) exts x).getD 0 := by
  induction exts using List.reverseRecOn with
  | nil => rfl
  | append_singleton front last inductionHypothesis =>
      unfold denotedByte at inductionHypothesis ⊢
      rw [byteAt, List.map_append, List.map_singleton, Overlay.overlay_concat,
        List.filter_append]
      by_cases covers : last.Covers x
      · rw [List.filter_cons_of_pos (by simpa using covers), List.filter_nil,
          List.getLast?_concat, Extent.layer, if_pos covers, Option.some_or, Option.getD_some]
        rfl
      · rw [List.filter_cons_of_neg (by simpa using covers), List.filter_nil, List.append_nil,
          Extent.layer_of_not_covers covers, Option.none_or]
        exact inductionHypothesis

/-! ### The loop -/

namespace Extent.Readable

variable {chunks : Key → Bytes} {e : Extent}

theorem inRange (readable : e.Readable chunks) : e.InRange := by
  obtain ⟨low, chunkLow, positive, fileEnd, chunkEnd, -⟩ := readable
  exact ⟨⟨by omega, by omega⟩, by omega, chunkLow, chunkEnd⟩

theorem ends (readable : e.Readable chunks) : e.fileEnd = e.fileOffset + e.length := by
  obtain ⟨low, -, positive, fileEnd, -, -⟩ := readable
  exact wrap64_of_nonneg (by omega) fileEnd

/-- The range that a read asks of the chunk is in the chunk. -/
theorem answered (readable : e.Readable chunks) {off fin : Int}
    (ordered : off ≤ fin) (met : Call.skips off fin e = false) (plain : Call.PlainRead off fin e) :
    ∃ data, readAt (chunks e.chunkID) (Call.readOffset off e) (Call.readLength off fin e) =
      some data := by
  have ends := readable.ends
  obtain ⟨low, chunkLow, positive, -, -, inside⟩ := readable
  obtain ⟨length, offset, -, -⟩ := plain
  simp only [Call.skips, decide_eq_false_iff_not, not_or, not_le, ge_iff_le, ends] at met
  have first : Call.readStart off e = max off e.fileOffset := rfl
  unfold readAt
  rw [if_pos ⟨by omega, by omega, Or.inr (by omega)⟩]
  exact ⟨_, rfl⟩

end Extent.Readable

/-- The loop of `Read` from any of its iterations on: it ends, with the buffer
filled from all extents. -/
theorem Filled.assembles {cfg : Config} {inode : Inode} {exts : List Extent}
    {chunks : Key → Bytes} {ino : Ino} {off fin now : Int} (low : 0 ≤ off) (ordered : off ≤ fin)
    (below : fin < 9223372036854775808) {rest : List Extent} :
    ∀ {done : List Extent} {buf : Bytes}, (∀ e ∈ rest, e.Readable chunks) →
      Filled (chunkByte chunks) off fin done buf →
      ∃ bytes, Completes (readerSys cfg inode exts chunks) ()
        (Call.nextRead ino off fin now rest buf)
          () (.data bytes) ∧ Filled (chunkByte chunks) off fin (done ++ rest) bytes := by
  induction rest with
  | nil =>
      intro done buf _ filled
      refine ⟨buf, .last (o := ()) rfl rfl, ?_⟩
      rw [List.append_nil]
      exact filled
  | cons e rest inductionHypothesis =>
      intro done buf readable filled
      have here := readable e List.mem_cons_self
      have others : ∀ x ∈ rest, x.Readable chunks :=
        fun x member => readable x (List.mem_cons_of_mem e member)
      rw [List.append_cons]
      cases met : Call.skips off fin e with
      | true =>
          rw [Call.nextRead, List.dropWhile_cons_of_pos met]
          exact inductionHypothesis others (filled.skip here.ends met)
      | false =>
          have plain := Call.plainRead here.ends here.inRange low ordered below met
          obtain ⟨data, read⟩ := here.answered ordered met plain
          obtain ⟨buf', copied, filled'⟩ := filled.copy here.ends here.inRange met plain
            (length_of_readAt read) fun i inside => getElem?_of_readAt read inside
          obtain ⟨bytes, completes, all⟩ := inductionHypothesis others filled'
          refine ⟨bytes, ?_, all⟩
          rw [Call.nextRead, List.dropWhile_cons_of_neg (by simp [met])]
          refine .more (o := ()) (a := .bytes data) ?_ ?_ completes
          · simp only [readerSys, Call.effect, read, Option.map_some]
          · simp only [readerSys, Call.resume, copied]

/-! ### The whole call -/

theorem readerSys_determined (cfg : Config) (inode : Inode) (exts : List Extent)
    (chunks : Key → Bytes) (s : Unit) (e : Effect) (o o' : Unit) :
    (readerSys cfg inode exts chunks).apply s e o =
      (readerSys cfg inode exts chunks).apply s e o' :=
  rfl

/-- `Read` returns, in one way only: with as many bytes as the window has inside
the file, each the one that the extents denote. -/
theorem read_assembles_denoted_bytes (cfg : Config) {inode : Inode} {exts : List Extent}
    {chunks : Key → Bytes} (readable : ∀ e ∈ exts, e.Readable chunks)
    (ino : Ino) (dest : Nat) {off : Int} (now : Int) (low : 0 ≤ off)
    (small : off + dest < 9223372036854775808) :
    ∃ bytes : Bytes,
      (∀ reply, Completes (readerSys cfg inode exts chunks) () (.read ino dest off now) () reply ↔
        reply = .data bytes) ∧
      (bytes.length : Int) = max 0 (min (off + dest) inode.size - off) ∧
      ∀ i : Nat, i < bytes.length → bytes[i]? = some (denotedByte chunks exts (off + i)) := by
  suffices returned : ∃ bytes : Bytes,
      Completes (readerSys cfg inode exts chunks) () (.read ino dest off now) () (.data bytes) ∧
      (bytes.length : Int) = max 0 (min (off + dest) inode.size - off) ∧
      ∀ i : Nat, i < bytes.length → bytes[i]? = some (denotedByte chunks exts (off + i)) by
    obtain ⟨bytes, completes, rest⟩ := returned
    refine ⟨bytes, fun reply => ⟨fun other => ?_, fun same => same ▸ completes⟩, rest⟩
    exact (completes.unique (readerSys_determined cfg inode exts chunks) other).2.symm
  have plain : wrap64 (off + dest) = off + dest := wrap64_of_nonneg (by omega) small
  by_cases beyond : inode.size ≤ off
  · refine ⟨[], .last (o := ()) (a := .inode (some inode)) rfl ?_, ?_, nofun⟩
    · simp only [readerSys, Call.resume, if_pos beyond]
    · simp only [List.length_nil]
      omega
  · have limit : (if off + (dest : Int) > inode.size then inode.size else off + dest) =
        min (off + dest) inode.size := by
      split_ifs <;> omega
    have need : wrap64 (min (off + dest) inode.size - off) = min (off + dest) inode.size - off :=
      wrap64_of_nonneg (by omega) (by omega)
    have loop : ∃ bytes, Completes (readerSys cfg inode exts chunks) ()
        (Call.nextRead ino off (min (off + dest) inode.size) now exts
          (List.replicate (min (off + dest) inode.size - off).toNat 0)) () (.data bytes) ∧
        Filled (chunkByte chunks) off (min (off + dest) inode.size) ([] ++ exts) bytes :=
      Filled.assembles low (by omega) (by omega) readable (Filled.start _ (by omega))
    obtain ⟨bytes, completes, filled⟩ := loop
    refine ⟨bytes, ?_, ?_, ?_⟩
    · have reads : (readerSys cfg inode exts chunks).resume (.read ino dest off now)
          (.inode (some inode)) =
          .inl (.readExtents ino off (min (off + dest) inode.size) now) := by
        simp only [readerSys, Call.resume, if_neg beyond, plain, limit]
      refine .more (o := ()) rfl reads
        (.more (o := ()) (a := .extents (some exts)) rfl ?_ completes)
      simp only [readerSys, Call.resume, need]
      rw [if_neg (by omega)]
    · have length := filled.length
      omega
    · intro i inside
      rw [getElem?_eq_byteOr inside, filled.bytes i inside, denotedByte_eq_byteAt]
      rfl

/-- A file of ten bytes with a hole, whose second extent lies over the end of the
first, read from offset 1 to past the end. -/
theorem read_assembles_denoted_bytes_overlapping :
    ∃ bytes : Bytes,
      (∀ reply, Completes (readerSys sampleConfig
          { ino := 2, fileType := .regular, mode := 0, nlink := 1, uid := 0, gid := 0, size := 10,
            atime := 0, mtime := 0, ctime := 0, blksize := 4096, blocks := 1, rdev := 0 }
          [⟨chunkID 0, 0, 4, 0⟩, ⟨chunkID 1, 1, 2, 3⟩, ⟨chunkID 0, 2, 3, 7⟩]
          fun id => if id = chunkID 0 then [1, 2, 3, 4, 5] else [6, 7, 8])
        () (.read 2 100 1 0) () reply ↔ reply = .data bytes) ∧
      bytes = [2, 3, 7, 8, 0, 0, 3, 4, 5] := by
  obtain ⟨bytes, returns, length, denoted⟩ := read_assembles_denoted_bytes sampleConfig
    (by decide : ∀ e ∈ [⟨chunkID 0, 0, 4, 0⟩, ⟨chunkID 1, 1, 2, 3⟩, ⟨chunkID 0, 2, 3, 7⟩],
      Extent.Readable (fun id => if id = chunkID 0 then [1, 2, 3, 4, 5] else [6, 7, 8]) e)
    2 100 0 (by decide : (0 : Int) ≤ 1) (by decide)
  refine ⟨bytes, returns, ?_⟩
  have nine : bytes.length = 9 := Int.ofNat_inj.mp length
  apply List.ext_getElem?
  intro i
  by_cases inside : i < bytes.length
  · rw [denoted i inside]
    rw [nine] at inside
    clear denoted returns length nine bytes
    revert i
    decide
  · rw [List.getElem?_eq_none (by omega), List.getElem?_eq_none (by simpa [nine] using inside)]

end Fusey
