import Fusey.Fuse.Calls
import Fusey.Fuse.FileContent

/-!
Contract: what a `Read` that runs alone returns.

Owns the loop of `FileHandle.Read` over the extents of a file: the buffer holds,
where an extent covers it, the bytes that its chunk shows, and zero elsewhere.
The extents may be those of any index, as long as no end offset wraps.

Does not own which bytes the chunks show.
-/

set_option autoImplicit false

namespace Fusey

open GoInt Interleaving

/-- What a chunk read answers with. -/
theorem Daemon.apply_readChunk {d d' : Daemon} {o : Oracle} {id : Key} {offset length : Int}
    {data : Bytes} (coherent : d.cs.Coherent d.objects)
    (plain : wrap64 (offset + length) = offset + length)
    (applied : d.apply (.readChunk id offset length) o = some (d', .bytes data)) :
    (data.length : Int) = length ∧ ∀ i : Nat, (i : Int) < length →
      data[i]? = d.cs.byteOf d.objects id (offset.toNat + i) := by
  simp only [apply, readChunk, Option.some.injEq] at applied
  split at applied <;> rename_i answered <;> cases applied
  exact ChunkStore.read_ok coherent plain (congrArg Prod.snd answered)

/-- The buffer of a read of `[off, fin)` after the extents `done`. -/
structure Filled (byte : Key → Nat → Option UInt8) (off fin : Int) (done : List Extent)
    (buf : Bytes) : Prop where
  length : (buf.length : Int) = fin - off
  bytes : ∀ i : Nat, i < buf.length →
    byteOr buf i = (byteAt (totalByte byte) done (off + i)).getD 0
  present : ∀ e ∈ done, ∀ i : Nat, i < buf.length → e.Covers (off + i) →
    byte e.chunkID (e.chunkOffset + (off + i - e.fileOffset)).toNat ≠ none

theorem Filled.start (byte : Key → Nat → Option UInt8) {off fin : Int} (ordered : off ≤ fin) :
    Filled byte off fin [] (List.replicate (fin - off).toNat 0) where
  length := by
    rw [List.length_replicate]
    omega
  bytes := by
    intro i below
    rw [byteOr, List.getElem?_replicate]
    split_ifs <;> rfl
  present := nofun

/-- Extents outside the range change nothing. -/
theorem Filled.skip {byte : Key → Nat → Option UInt8} {off fin : Int} {done : List Extent}
    {buf : Bytes} (filled : Filled byte off fin done buf) {e : Extent}
    (ends : e.fileEnd = e.fileOffset + e.length) (skipped : Call.skips off fin e = true) :
    Filled byte off fin (done ++ [e]) buf := by
  have bufLength := filled.length
  have outside : ∀ i : Nat, i < buf.length → ¬ e.Covers (off + i) := by
    intro i below
    simp only [Call.skips, decide_eq_true_eq] at skipped
    unfold Extent.Covers
    omega
  refine ⟨filled.length, fun i below => ?_, fun x member i below covers => ?_⟩
  · rw [filled.bytes i below, byteAt, byteAt, List.map_append, List.map_singleton,
      Overlay.overlay_concat, Extent.layer_of_not_covers (outside i below), Option.none_or]
  · rcases List.mem_append.mp member with old | new
    · exact filled.present x old i below covers
    · rw [List.mem_singleton.mp new] at covers
      exact absurd covers (outside i below)

theorem copyInto_eq_overwrite {buf data : Bytes} {start : Int} (low : 0 ≤ start)
    (fits : start + data.length ≤ buf.length) :
    Call.copyInto buf start data = some (overwrite buf start.toNat data) := by
  unfold Call.copyInto overwrite
  have gap : start.toNat - buf.length = 0 := by omega
  rw [if_pos ⟨low, by omega⟩, List.take_of_length_le (l := data) (by omega), gap,
    List.replicate_zero, List.append_nil]

/-- The range a read takes from an extent that it meets, without wrapping. -/
structure Call.PlainRead (off fin : Int) (e : Extent) : Prop where
  length : readLength off fin e = min fin (e.fileOffset + e.length) - readStart off e
  offset : readOffset off e = e.chunkOffset + (readStart off e - e.fileOffset)
  position : wrap64 (readStart off e - off) = readStart off e - off
  stop : wrap64 (readOffset off e + readLength off fin e) = readOffset off e + readLength off fin e

theorem Call.plainRead {off fin : Int} {e : Extent} (ends : e.fileEnd = e.fileOffset + e.length)
    (range : e.InRange) (low : 0 ≤ off) (ordered : off ≤ fin) (below : fin < 9223372036854775808)
    (met : skips off fin e = false) : PlainRead off fin e := by
  have chunkStart := range.chunkOffset
  have chunkEnd := range.chunkEnd
  have nonneg := range.length
  simp only [skips, decide_eq_false_iff_not, not_or, not_le, ge_iff_le, ends] at met
  have first : readStart off e = max off e.fileOffset := rfl
  have length : readLength off fin e = min fin (e.fileOffset + e.length) - readStart off e := by
    unfold readLength
    rw [ends]
    exact wrap64_of_nonneg (by omega) (by omega)
  have inner : wrap64 (readStart off e - e.fileOffset) = readStart off e - e.fileOffset :=
    wrap64_of_nonneg (by omega) (by omega)
  have offset : readOffset off e = e.chunkOffset + (readStart off e - e.fileOffset) := by
    unfold readOffset
    rw [inner]
    exact wrap64_of_nonneg (by omega) (by omega)
  exact ⟨length, offset, wrap64_of_nonneg (by omega) (by omega),
    wrap64_of_nonneg (by omega) (by omega)⟩

/-- The bytes of an extent go over the buffer where it covers. -/
theorem Filled.copy {byte : Key → Nat → Option UInt8} {off fin : Int} {done : List Extent}
    {buf data : Bytes} (filled : Filled byte off fin done buf) {e : Extent}
    (ends : e.fileEnd = e.fileOffset + e.length) (range : e.InRange)
    (met : Call.skips off fin e = false) (plain : Call.PlainRead off fin e)
    (length : (data.length : Int) = Call.readLength off fin e)
    (bytes : ∀ i : Nat, (i : Int) < Call.readLength off fin e →
      data[i]? = byte e.chunkID ((Call.readOffset off e).toNat + i)) :
    ∃ buf', Call.copyInto buf (wrap64 (Call.readStart off e - off)) data = some buf' ∧
      Filled byte off fin (done ++ [e]) buf' := by
  obtain ⟨count, offset, position, -⟩ := plain
  have bufLength := filled.length
  have chunkStart := range.chunkOffset
  have nonneg := range.length
  simp only [Call.skips, decide_eq_false_iff_not, not_or, not_le, ge_iff_le, ends] at met
  have first : Call.readStart off e = max off e.fileOffset := rfl
  have copied : (overwrite buf (Call.readStart off e - off).toNat data).length = buf.length := by
    rw [length_overwrite]
    omega
  rw [position, copyInto_eq_overwrite (by omega) (by omega)]
  refine ⟨_, rfl, by rw [copied]; exact bufLength, fun i inside => ?_,
    fun x member i inside covers => ?_⟩
  · rw [copied] at inside
    rw [byteAt, List.map_append, List.map_singleton, Overlay.overlay_concat]
    by_cases covered : Call.readStart off e ≤ off + i ∧ off + i < min fin (e.fileOffset + e.length)
    · have covers : e.Covers (off + i) := ⟨by omega, by omega⟩
      have index : (e.chunkOffset + (off + i - e.fileOffset)).toNat =
          (Call.readOffset off e).toNat + (i - (Call.readStart off e - off).toNat) := by omega
      rw [byteOr_overwrite_inside buf (by omega) (by omega), Extent.layer, if_pos covers,
        Option.some_or, Option.getD_some, totalByte, index, byteOr, bytes _ (by omega)]
    · have outside : ¬ e.Covers (off + i) := by
        unfold Extent.Covers
        omega
      rw [byteOr_overwrite_outside buf (by omega), Extent.layer_of_not_covers outside,
        Option.none_or]
      exact filled.bytes i (by omega)
  · rw [copied] at inside
    rcases List.mem_append.mp member with old | new
    · exact filled.present x old i inside covers
    · -- The read returned a byte for every position that the extent covers.
      rw [List.mem_singleton.mp new] at covers ⊢
      obtain ⟨start, stop⟩ := covers
      have index : (e.chunkOffset + (off + i - e.fileOffset)).toNat =
          (Call.readOffset off e).toNat + (i - (Call.readStart off e - off).toNat) := by omega
      rw [index, ← bytes _ (by omega), List.getElem?_eq_getElem (by omega)]
      exact Option.some_ne_none _

/-- The loop of `Read`, from any of its iterations on. -/
theorem Filled.of_nextRead {cfg : Config} {ino : Ino} {off fin now : Int} (low : 0 ≤ off)
    (ordered : off ≤ fin) (below : fin < 9223372036854775808) {rest : List Extent} :
    ∀ {d d' : Daemon} {bytes : Bytes} {done : List Extent} {buf : Bytes},
      d.cs.Coherent d.objects → (∀ e ∈ rest, e.fileEnd = e.fileOffset + e.length) →
      (∀ e ∈ rest, e.InRange) → Filled (d.cs.byteOf d.objects) off fin done buf →
      Completes (daemonSys cfg) d (Call.nextRead ino off fin now rest buf) d' (.data bytes) →
      Filled (d.cs.byteOf d.objects) off fin (done ++ rest) bytes := by
  induction rest with
  | nil =>
      intro d d' bytes done buf coherent ends range filled completes
      obtain ⟨o, touched, a, applied, finish⟩ := completes.first
      cases applied
      obtain ⟨returns, rfl⟩ | ⟨c', continues, -⟩ := finish
      · cases returns
        rw [List.append_nil]
        exact filled
      · cases continues
  | cons e rest inductionHypothesis =>
      intro d d' bytes done buf coherent ends range filled completes
      have here := ends e (by simp)
      have hereRange := range e (by simp)
      have others := fun x member => ends x (List.mem_cons_of_mem e member)
      have othersRange := fun x member => range x (List.mem_cons_of_mem e member)
      rw [List.append_cons]
      cases skipped : Call.skips off fin e with
      | true =>
          rw [Call.nextRead, List.dropWhile_cons_of_pos skipped] at completes
          exact inductionHypothesis coherent others othersRange (filled.skip here skipped) completes
      | false =>
          rw [Call.nextRead, List.dropWhile_cons_of_neg (by simp [skipped])] at completes
          obtain ⟨o, fetched, a, applied, finish⟩ := completes.first
          have after := ChunkStore.read_coherent o.disk e.chunkID (Call.readOffset off e)
            (Call.readLength off fin e) coherent
          obtain ⟨cache, onlyCache⟩ := ChunkStore.read_cache_only o.disk d.objects d.cs e.chunkID
            (Call.readOffset off e) (Call.readLength off fin e)
          simp only [daemonSys_apply, daemonSys_effect, Call.effect, Daemon.apply,
            Daemon.readChunk, Option.some.injEq] at applied
          generalize answered : ChunkStore.read mapStore o.disk d.objects d.cs e.chunkID
            (Call.readOffset off e) (Call.readLength off fin e) = answer
            at applied after onlyCache
          have plain := Call.plainRead here hereRange low ordered below skipped
          obtain ⟨cs, (failure | ⟨⟩) | data⟩ := answer <;> cases applied
          · obtain ⟨returns, -⟩ | ⟨c', continues, -⟩ := finish
            · cases returns
            · cases continues
          · obtain ⟨returns, -⟩ | ⟨c', continues, -⟩ := finish
            · cases returns
            · cases continues
          · obtain ⟨length, bytes⟩ := ChunkStore.read_ok coherent plain.stop
              (congrArg Prod.snd answered)
            obtain ⟨buf', copied, filled'⟩ :=
              filled.copy here hereRange skipped plain length bytes
            simp only [daemonSys_resume, Call.resume, copied] at finish
            obtain ⟨returns, -⟩ | ⟨c', continues, rest⟩ := finish
            · cases returns
            cases continues
            have sameBytes : cs.byteOf d.objects = d.cs.byteOf d.objects := by
              rw [show cs = { d.cs with cache := cache } from onlyCache]
              rfl
            rw [← sameBytes] at filled' ⊢
            exact inductionHypothesis after others othersRange filled' rest

/-- What a successful read returns: nothing past the end of the file, else the
filled buffer. -/
theorem Filled.of_read {cfg : Config} {ino : Ino} {dest : Nat} {off now : Int} {d d' : Daemon}
    {bytes : Bytes} {inode : Inode} (known : d.idx.inodes.get ino = some inode)
    {exts : List Extent} (listed : d.idx.extents.get ino = some exts)
    (coherent : d.cs.Coherent d.objects)
    (ends : ∀ e ∈ exts, e.fileEnd = e.fileOffset + e.length) (range : ∀ e ∈ exts, e.InRange)
    (low : 0 ≤ off) (small : off + dest < 9223372036854775808)
    (completes : Completes (daemonSys cfg) d (.read ino dest off now) d' (.data bytes)) :
    inode.size ≤ off ∧ bytes = [] ∨
      off < inode.size ∧
        Filled (d.cs.byteOf d.objects) off (min (off + dest) inode.size) exts bytes := by
  obtain ⟨o, same, a, applied, finish⟩ := completes.first
  cases applied
  have plain : wrap64 (off + dest) = off + dest := wrap64_of_nonneg (by omega) small
  simp only [daemonSys_resume, Call.resume, Index.getInode, known, plain] at finish
  have limit : (if off + (dest : Int) > inode.size then inode.size else off + dest) =
      min (off + dest) inode.size := by
    split_ifs <;> omega
  rw [limit] at finish
  split_ifs at finish with beyond
  · obtain ⟨returns, -⟩ | ⟨c', continues, -⟩ := finish
    · cases returns
      exact Or.inl ⟨beyond, rfl⟩
    · cases continues
  · obtain ⟨returns, -⟩ | ⟨c', continues, rest⟩ := finish
    · cases returns
    cases continues
    obtain ⟨o, same, a, applied, finish⟩ := rest.first
    cases applied
    have need : wrap64 (min (off + dest) inode.size - off) = min (off + dest) inode.size - off :=
      wrap64_of_nonneg (by omega) (by omega)
    simp only [daemonSys_resume, Call.resume, Index.getExtents, listed, need] at finish
    rw [if_neg (by omega)] at finish
    obtain ⟨returns, -⟩ | ⟨c', continues, rest⟩ := finish
    · cases returns
    cases continues
    refine Or.inr ⟨by omega, ?_⟩
    exact Filled.of_nextRead low (by omega) (by omega) coherent ends range
      (Filled.start _ (by omega)) rest

end Fusey
