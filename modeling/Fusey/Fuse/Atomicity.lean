import Fusey.Fuse.Provenance

/-!
Contract: whether a `Read` sees its file as it was at one moment.

Owns:
- the past of a session: every state it went through, with the position in it at
  which each call started;
- the content of a file at a moment, and the range of it that a `Read` should
  return;
- that in every run the bytes that a `Read` returns are those of the file at one
  moment while it ran, over any invariant that keeps the extents readable;
- that in every run in which the end of the range has not moved when a `Read`
  takes the extent list, they are exactly its range;
- a run in which a truncation comes between, and a `Read` returns bytes that the
  file never had.
-/

set_option autoImplicit false

namespace Fusey

open GoInt Interleaving

/-! ### Moments -/

/-- The past of a session: the log of writes, and every state from the first
one on. -/
structure Past where
  log : List WriteRecord
  moments : List Daemon

/-- What a thread carries: the request it started as, how many moments there
were before the one it started in, and for a `Read` the size that its file had at
the moment of its `GetInode`. -/
structure Stamp where
  request : Call
  since : Nat
  size : Option Int
deriving DecidableEq

/-- A `Read` notes the size of its file; otherwise the stamp of a thread stays. -/
def keepStamp (stamp : Stamp) (c : Call) (_ : Answer) (d : Daemon) : Stamp :=
  match c with
  | .read ino _ _ _ => { stamp with size := (d.idx.inodes.get ino).map Inode.size }
  | _ => stamp

theorem keepStamp_request (stamp : Stamp) (c : Call) (a : Answer) (d : Daemon) :
    (keepStamp stamp c a d).request = stamp.request := by
  unfold keepStamp
  split <;> rfl

theorem keepStamp_since (stamp : Stamp) (c : Call) (a : Answer) (d : Daemon) :
    (keepStamp stamp c a d).since = stamp.since := by
  unfold keepStamp
  split <;> rfl

/-- A step adds the state it leaves. -/
def Past.extend (past : Past) (thread : Call × Stamp) (answer : Answer × Daemon) : Past :=
  ⟨logWrite past.log thread.1 answer.1, past.moments ++ [answer.2]⟩

/-- The moments since a call started. -/
def Past.since (past : Past) (stamp : Stamp) : List Daemon := past.moments.drop stamp.since

/-- Byte `x` of a file: what its extents denote, or zero. -/
def Daemon.byteIn (d : Daemon) (ino : Ino) (x : Int) : UInt8 :=
  (byteAt (totalByte (d.cs.byteOf d.objects)) ((d.idx.extents.get ino).getD []) x).getD 0

/-- The length of `[off, min(off + dest, size))` in a file. -/
def Daemon.rangeLength (d : Daemon) (ino : Ino) (dest : Nat) (off : Int) : Option Nat :=
  (d.idx.inodes.get ino).map fun inode => (min (off + dest) inode.size - off).toNat

/-- The bytes `[off, min(off + dest, size))` of a file. -/
def Daemon.fileRange (d : Daemon) (ino : Ino) (dest : Nat) (off : Int) : Option Bytes :=
  (d.idx.inodes.get ino).map fun inode =>
    (List.range (min (off + dest) inode.size - off).toNat).map fun i : Nat => d.byteIn ino (off + i)

/-- The range had the length `n` at a moment since the call started. -/
def Past.Sized (past : Past) (stamp : Stamp) (ino : Ino) (dest : Nat) (off : Int) (n : Nat) :
    Prop :=
  ∃ sized ∈ past.since stamp, sized.rangeLength ino dest off = some n

/-- Every byte of a chunk that could be read before can be read now. -/
def Daemon.Keeps (before after : Daemon) : Prop :=
  ∀ id, (∃ seq, id = chunkID seq) → ∀ i value, before.cs.byteOf before.objects id i = some value →
    after.cs.byteOf after.objects id i = some value

theorem Daemon.Keeps.of_apply {moment d d' : Daemon} {e : Effect} {o : Oracle} {a : Answer}
    (keeps : moment.Keeps d) (consistent : d.cs.Consistent d.objects)
    (applied : d.apply e o = some (d', a)) : moment.Keeps d' :=
  fun id minted i value found =>
    Daemon.byteOf_of_apply consistent applied minted i value (keeps id minted i value found)

/-! ### Ranges that do not wrap -/

/-- The extent ends below the integer limit. -/
def Extent.Plain (e : Extent) : Prop :=
  0 ≤ e.fileOffset ∧ e.fileOffset + e.length < 9223372036854775808

/-- The offsets of reads and writes are those of files: they neither start below
zero nor end beyond the integer limit. -/
def Call.Plain : Call → Prop
  | .read _ dest off _ => 0 ≤ off ∧ off + dest < 9223372036854775808
  | .write _ data off _ | .writeSpace _ data off _ _ | .writeAppend _ data off _ =>
      0 ≤ off ∧ off + data.length < 9223372036854775808
  | .writeRecord _ _ ext _ => ext.Plain
  | _ => True

instance (c : Call) : Decidable c.Plain := by
  induction c using Call.casesOn <;> dsimp only [Call.Plain, Extent.Plain] <;> infer_instance

theorem Extent.Plain.fileEnd {e : Extent} (plain : e.Plain) (nonneg : 0 ≤ e.length) :
    e.fileEnd = e.fileOffset + e.length :=
  wrap64_of_nonneg (by have := plain.1; omega) plain.2

theorem Extent.Plain.of_part {part whole : Extent} (plain : whole.Plain)
    (isPart : part.Part whole) :
    part.Plain := by
  obtain ⟨-, -, start, stop, -⟩ := isPart
  obtain ⟨low, high⟩ := plain
  exact ⟨by omega, by omega⟩

theorem Call.Plain.of_follows {cfg : Config} {d d' : Daemon} {o : Oracle} {a : Answer} {c c' : Call}
    (plain : c.Plain) (applied : d.apply c.effect o = some (d', a)) (follows : c.Follows cfg a c') :
    c'.Plain := by
  cases follows
  case writeSpace => exact plain
  case writeInside => exact plain
  case writeAppend => exact plain
  case writeRecord ino data off now ext =>
    obtain ⟨start, -, -, rfl, -⟩ := Daemon.apply_append applied
    exact plain
  case readFirst | readNext =>
    unfold nextRead
    split <;> trivial
  all_goals trivial

/-! ### A file as a read sees it -/

/-- Every byte that the extent names can be read. -/
structure Daemon.Reaches (d : Daemon) (e : Extent) : Prop where
  minted : MintedExtent e
  range : e.InRange
  present : ∀ i : Nat, (i : Int) < e.length →
    d.cs.byteOf d.objects e.chunkID (e.chunkOffset.toNat + i) ≠ none

theorem WriteRecord.Written.reaches {d : Daemon} {w : WriteRecord} (written : w.Written d) :
    d.Reaches w.ext where
  minted := written.minted
  range := written.holds.range
  present := by
    intro i below
    have length := written.holds.length
    rw [written.holds.bytes i (by omega), List.getElem?_eq_getElem (by omega)]
    exact Option.some_ne_none _

/-- What reads rely on: every extent is a piece of a write to its file whose end
does not wrap, and its bytes are within reach. -/
structure Readable (d : Daemon) (log : List WriteRecord) : Prop where
  attributed : Attributed d log
  plain : ∀ w ∈ log, w.ext.Plain
  reached : d.idx.PiecesOf fun _ => d.Reaches

/-- A read of `[off, fin)` has taken the extents of the file at a moment, with all
their bytes within reach; in a `steady` run `fin` was the end of its range at that
moment. -/
structure ReadView (steady : Prop) (moment : Daemon) (ino : Ino) (dest : Nat) (off fin : Int)
    (exts : List Extent) : Prop where
  low : 0 ≤ off
  ordered : off ≤ fin
  small : fin < 9223372036854775808
  limit : steady → ∃ inode, moment.idx.inodes.get ino = some inode ∧
    fin = min inode.size (off + dest)
  listed : moment.idx.extents.get ino = some exts
  minted : ∀ e ∈ exts, MintedExtent e
  range : ∀ e ∈ exts, e.InRange
  ends : ∀ e ∈ exts, e.fileEnd = e.fileOffset + e.length
  present : ∀ e ∈ exts, ∀ i : Nat, (i : Int) < e.length →
    moment.cs.byteOf moment.objects e.chunkID (e.chunkOffset.toNat + i) ≠ none

theorem Readable.view {steady : Prop} {d : Daemon} {log : List WriteRecord}
    (readable : Readable d log) {ino : Ino} {dest : Nat} {off fin : Int} (low : 0 ≤ off)
    (ordered : off ≤ fin) (small : fin < 9223372036854775808)
    (limit : steady → ∃ inode, d.idx.inodes.get ino = some inode ∧
      fin = min inode.size (off + dest))
    {exts : List Extent} (listed : d.idx.extents.get ino = some exts) :
    ReadView steady d ino dest off fin exts where
  low := low
  ordered := ordered
  small := small
  limit := limit
  listed := listed
  minted := readable.attributed.sound.restorable.minted.minted listed
  range := fun e member => (readable.reached ino exts listed e member).range
  ends := by
    intro e member
    obtain ⟨range, whole, ⟨-, w, inLog, -, rfl⟩, isPart⟩ :=
      readable.attributed.pieces ino exts listed e member
    exact ((readable.plain w inLog).of_part isPart).fileEnd range.length
  present := by
    intro e member
    obtain ⟨-, whole, reaches, isPart⟩ := readable.reached ino exts listed e member
    exact present_of_part isPart reaches.range reaches.present

section View

variable {steady : Prop} {moment : Daemon} {ino : Ino} {dest : Nat} {off fin : Int}
  {exts : List Extent} {buf : Bytes}

/-- A buffer that is filled from all extents has the bytes of the file. -/
theorem ReadView.byteIn (view : ReadView steady moment ino dest off fin exts)
    (filled : Filled (moment.cs.byteOf moment.objects) off fin exts buf) {i : Nat}
    (below : i < buf.length) : buf[i]? = some (moment.byteIn ino (off + i)) := by
  rw [getElem?_eq_byteOr below, filled.bytes i below, Daemon.byteIn, view.listed, Option.getD_some]

/-- It is the range of the file, if the end is. -/
theorem ReadView.fileRange (view : ReadView steady moment ino dest off fin exts)
    (filled : Filled (moment.cs.byteOf moment.objects) off fin exts buf) (isSteady : steady) :
    moment.fileRange ino dest off = some buf := by
  obtain ⟨inode, known, limit⟩ := view.limit isSteady
  have length := filled.length
  have count : (min (off + dest) inode.size - off).toNat = buf.length := by omega
  simp only [Daemon.fileRange, known, Option.map_some, count]
  refine congrArg some (List.ext_getElem? fun i => ?_)
  by_cases below : i < buf.length
  · rw [List.getElem?_map, List.getElem?_range below, Option.map_some, view.byteIn filled below]
  · rw [List.getElem?_eq_none (by simpa using below), List.getElem?_eq_none (by omega)]

end View

/-- Extents that the loop skips change nothing. -/
theorem Filled.dropWhile {byte : Key → Nat → Option UInt8} {off fin : Int} {buf : Bytes} :
    ∀ {left done : List Extent}, Filled byte off fin done buf →
      (∀ e ∈ left, e.fileEnd = e.fileOffset + e.length) →
      ∃ done', Filled byte off fin done' buf ∧
        done ++ left = done' ++ left.dropWhile (Call.skips off fin)
  | [], done, filled, _ => ⟨done, filled, rfl⟩
  | e :: left, done, filled, ends => by
      cases skipped : Call.skips off fin e with
      | true =>
          rw [List.dropWhile_cons_of_pos skipped, List.append_cons]
          exact Filled.dropWhile (filled.skip (ends e (by simp)) skipped)
            fun x member => ends x (List.mem_cons_of_mem e member)
      | false =>
          rw [List.dropWhile_cons_of_neg (by simp [skipped])]
          exact ⟨done, filled, rfl⟩

/-! ### What a read knows -/

/-- A read past its `GetInode` knows its request and the end that the size gave;
past its `GetExtents`, a moment since it started whose content it is copying; at
its end, that it has copied all extents of that moment. -/
def Call.Viewing (steady : Prop) (d : Daemon) (past : Past) : Call → Stamp → Prop
  | .readExtents ino off fin _, stamp => ∃ dest now size,
      stamp.request = .read ino dest off now ∧ stamp.size = some size ∧
        0 ≤ off ∧ off ≤ fin ∧ fin < 9223372036854775808 ∧ fin = min size (off + dest) ∧
        past.Sized stamp ino dest off (fin - off).toNat
  | .readChunk ino off fin _ e rest buf, stamp => ∃ moment ∈ past.since stamp, ∃ dest now done,
      stamp.request = .read ino dest off now ∧
        ReadView steady moment ino dest off fin (done ++ e :: rest) ∧
        skips off fin e = false ∧
        Filled (moment.cs.byteOf moment.objects) off fin done buf ∧ moment.Keeps d ∧
        past.Sized stamp ino dest off (fin - off).toNat
  | .readTouch ino _ buf, stamp => ∃ moment ∈ past.since stamp, ∃ dest off fin now exts,
      stamp.request = .read ino dest off now ∧
        ReadView steady moment ino dest off fin exts ∧
        Filled (moment.cs.byteOf moment.objects) off fin exts buf ∧
        past.Sized stamp ino dest off buf.length
  | _, _ => True

/-- Everything a suspended call knows. -/
structure Call.Tracked (steady : Prop) (d : Daemon) (past : Past) (c : Call) (stamp : Stamp) :
    Prop where
  sound : c.Sound
  traced : c.Traced d past.log stamp.request
  plain : c.Plain
  started : stamp.since ≤ past.moments.length
  viewing : c.Viewing steady d past stamp

/-- The end of the range that a read is about to take the extents for is where it
was at the moment of its `GetInode`, and the file is still there. -/
def Call.RangeHeld (d : Daemon) (c : Call) (stamp : Stamp) : Prop :=
  match c, stamp.request, stamp.size with
  | .readExtents ino off _ _, .read _ dest _ _, some size =>
      (∃ inode ∈ d.idx.inodes.get ino, min inode.size (off + dest) = min size (off + dest)) ∧
        d.idx.extents.get ino ≠ none
  | _, _, _ => True

instance (d : Daemon) (c : Call) (stamp : Stamp) : Decidable (c.RangeHeld d stamp) := by
  unfold Call.RangeHeld
  split <;> infer_instance

section Steps

variable {cfg : Config} {steady : Prop} {d d' : Daemon} {o : Oracle} {a : Answer} {past : Past}
  {c : Call} {stamp : Stamp}

theorem Past.mem_since_extend (started : stamp.since ≤ past.moments.length)
    (thread : Call × Stamp) (answer : Answer × Daemon) (moment : Daemon) :
    moment ∈ (past.extend thread answer).since stamp ↔
      moment ∈ past.since stamp ∨ moment = answer.2 := by
  simp only [Past.since, Past.extend, List.drop_append_of_le_length started, List.mem_append,
    List.mem_singleton]

theorem Past.Sized.extend {ino : Ino} {dest : Nat} {off : Int} {n : Nat}
    (sized : past.Sized stamp ino dest off n) (started : stamp.since ≤ past.moments.length)
    (thread : Call × Stamp) (answer : Answer × Daemon) :
    (past.extend thread answer).Sized stamp ino dest off n := by
  obtain ⟨moment, member, length⟩ := sized
  exact ⟨moment, (Past.mem_since_extend started thread answer moment).mpr (Or.inl member), length⟩

/-- What another call knows survives a step. -/
theorem Call.Tracked.of_other {u : Call} {other : Stamp} (knows : u.Tracked steady d past other)
    (consistent : d.cs.Consistent d.objects) (applied : d.apply c.effect o = some (d', a)) :
    u.Tracked steady d' (past.extend (c, stamp) (a, d')) other where
  sound := knows.sound
  traced := knows.traced.of_other consistent applied
  plain := knows.plain
  started := by
    have := knows.started
    simp only [Past.extend, List.length_append]
    omega
  viewing := by
    have since : ∀ moment, moment ∈ past.since other →
        moment ∈ (past.extend (c, stamp) (a, d')).since other := fun moment member =>
      (Past.mem_since_extend knows.started _ _ moment).mpr (Or.inl member)
    have viewing := knows.viewing
    cases u
    case readExtents ino off fin now =>
      obtain ⟨dest, start, size, asked, noted, low, ordered, small, limit, sized⟩ := viewing
      exact ⟨dest, start, size, asked, noted, low, ordered, small, limit,
        sized.extend knows.started _ _⟩
    case readChunk ino off fin now e rest buf =>
      obtain ⟨moment, member, dest, start, done, asked, view, met, filled, keeps, sized⟩ := viewing
      exact ⟨moment, since moment member, dest, start, done, asked, view, met, filled,
        keeps.of_apply consistent applied, sized.extend knows.started _ _⟩
    case readTouch ino now buf =>
      obtain ⟨moment, member, dest, off, fin, start, exts, asked, view, filled, sized⟩ := viewing
      exact ⟨moment, since moment member, dest, off, fin, start, exts, asked, view, filled,
        sized.extend knows.started _ _⟩
    all_goals exact viewing

/-- The loop of a read goes on over the extents it took. -/
theorem Call.viewing_nextRead {moment : Daemon} (member : moment ∈ past.since stamp) {ino : Ino}
    {dest : Nat} {off fin now start : Int} {done left : List Extent} {buf : Bytes}
    (asked : stamp.request = .read ino dest off start)
    (view : ReadView steady moment ino dest off fin (done ++ left))
    (filled : Filled (moment.cs.byteOf moment.objects) off fin done buf) (keeps : moment.Keeps d)
    (sized : past.Sized stamp ino dest off (fin - off).toNat) :
    (nextRead ino off fin now left buf).Viewing steady d past stamp := by
  obtain ⟨done', filled', split⟩ := filled.dropWhile
    fun e inLeft => view.ends e (List.mem_append_right _ inLeft)
  rw [split] at view
  unfold nextRead
  split
  next finished =>
    rw [finished, List.append_nil] at view
    refine ⟨moment, member, dest, off, fin, start, done', asked, view, filled', ?_⟩
    have length := filled'.length
    have count : buf.length = (fin - off).toNat := by omega
    rw [count]
    exact sized
  next e rest more =>
    have met : skips off fin e = false := by
      have head := List.head?_dropWhile_not (skips off fin) left
      rw [more] at head
      simpa using head
    rw [more] at view
    exact ⟨moment, member, dest, start, done', asked, view, met, filled', keeps, sized⟩

/-- What a read knows when it goes on. -/
theorem Call.Viewing.of_follows (readable : Readable d past.log)
    (tracked : c.Tracked steady d past stamp) (held : steady → c.RangeHeld d stamp)
    (applied : d.apply c.effect o = some (d', a)) {c' : Call} (follows : c.Follows cfg a c') :
    c'.Viewing steady d' (past.extend (c, stamp) (a, d')) (keepStamp stamp c a d') := by
  have viewing := tracked.viewing
  have since := Past.mem_since_extend tracked.started (c, stamp) (a, d')
  have consistent := readable.attributed.consistent
  cases follows
  case readExtents ino dest off now inode fin inside limit =>
    obtain ⟨asked, -, -⟩ := tracked.traced
    obtain ⟨low, small⟩ := tracked.plain
    obtain ⟨rfl, known⟩ := Daemon.apply_getInode applied
    rw [wrap64_of_nonneg (by omega) small] at limit
    refine ⟨dest, now, inode.size, asked, ?_, low, by omega, by omega, by omega, d',
      (since d').mpr (Or.inr rfl), ?_⟩
    · simp only [keepStamp, known, Option.map_some]
    · rw [Daemon.rangeLength, known, Option.map_some, min_comm, limit]
  case readFirst ino off fin now exts =>
    obtain ⟨dest, start, size, asked, noted, low, ordered, small, limit, sized⟩ := viewing
    obtain ⟨rfl, listed⟩ := Daemon.apply_getExtents applied
    have need : wrap64 (fin - off) = fin - off := wrap64_of_nonneg (by omega) (by omega)
    rw [need]
    have view : ReadView steady d' ino dest off fin ([] ++ exts) := by
      refine readable.view low ordered small (fun isSteady => ?_) listed
      have kept := held isSteady
      simp only [RangeHeld, asked, noted] at kept
      obtain ⟨⟨inode, known, same⟩, -⟩ := kept
      exact ⟨inode, known, by omega⟩
    exact viewing_nextRead ((since d').mpr (Or.inr rfl)) asked view (Filled.start _ ordered)
      (fun _ _ _ _ => id) (sized.extend tracked.started _ _)
  case readNext ino off fin now e rest buf data buf' copied =>
    obtain ⟨moment, member, dest, start, done, asked, view, met, filled, keeps, sized⟩ := viewing
    have inExts : e ∈ done ++ e :: rest := by simp
    have ends := view.ends e inExts
    have range := view.range e inExts
    have plain := plainRead ends range view.low view.ordered view.small met
    obtain ⟨length, bytes⟩ :=
      Daemon.apply_readChunk readable.attributed.cache.coherent plain.stop applied
    -- The bytes were there at the moment, so they are the same now.
    have same : ∀ i : Nat, (i : Int) < readLength off fin e →
        data[i]? = moment.cs.byteOf moment.objects e.chunkID ((readOffset off e).toNat + i) := by
      intro i below
      have first : readStart off e = max off e.fileOffset := rfl
      have chunkOffset := range.chunkOffset
      obtain ⟨count, offset, -, -⟩ := plain
      have index : (readOffset off e).toNat + i =
          e.chunkOffset.toNat + ((readStart off e - e.fileOffset).toNat + i) := by omega
      obtain ⟨value, found⟩ := Option.ne_none_iff_exists'.mp
        (view.present e inExts ((readStart off e - e.fileOffset).toNat + i) (by omega))
      rw [← index] at found
      rw [bytes i below, found, keeps _ (view.minted e inExts) _ _ found]
    obtain ⟨filledBuf, copiedBuf, filled'⟩ := filled.copy ends range met plain length same
    rw [copiedBuf] at copied
    cases copied
    rw [List.append_cons] at view
    exact viewing_nextRead ((since moment).mpr (Or.inl member)) asked view filled'
      (keeps.of_apply consistent applied) (sized.extend tracked.started _ _)
  all_goals trivial

/-- A read that returns data returns bytes of its file at a moment since it
started, as many as its range had at one, or nothing of a file that is gone; and
exactly its range if the end of the range has not moved. -/
theorem Call.Tracked.returns (tracked : c.Tracked steady d past stamp)
    (held : steady → c.RangeHeld d stamp) (applied : d.apply c.effect o = some (d', a))
    {bytes : Bytes} (returned : resume cfg c a = .inr (.data bytes)) {ino : Ino} {dest : Nat}
    {off now : Int} (asked : stamp.request = .read ino dest off now) :
    ∃ moment ∈ (past.extend (c, stamp) (a, d')).since stamp,
      (steady → moment.fileRange ino dest off = some bytes) ∧
        ((past.extend (c, stamp) (a, d')).Sized stamp ino dest off bytes.length ∨
          bytes = [] ∧ moment.idx.extents.get ino = none) ∧
        ∀ (i : Nat) value, bytes[i]? = some value →
          moment.idx.extents.get ino ≠ none ∧ value = moment.byteIn ino (off + i) := by
  have since := Past.mem_since_extend tracked.started (c, stamp) (a, d')
  rcases data_of_resume returned with ⟨ino', dest', off', now', inode, rfl, rfl, beyond, rfl⟩ |
    ⟨ino', off', fin, now', rfl, rfl, rfl⟩ | ⟨ino', now', rfl, rfl⟩
  · obtain ⟨same, -, -⟩ := tracked.traced
    rw [asked] at same
    cases same
    obtain ⟨rfl, known⟩ := Daemon.apply_getInode applied
    have none : (min (off + dest) inode.size - off).toNat = 0 := by omega
    refine ⟨d', (since d').mpr (Or.inr rfl), fun _ => ?_,
      Or.inl ⟨d', (since d').mpr (Or.inr rfl), ?_⟩, fun i value found => by cases found⟩
    · simp only [Daemon.fileRange, known, Option.map_some, none, List.range_zero, List.map_nil]
    · simp only [Daemon.rangeLength, known, Option.map_some, none, List.length_nil]
  · obtain ⟨rfl, absent⟩ := Daemon.apply_getExtents applied
    obtain ⟨dest', start, size, same, noted, -⟩ := tracked.viewing
    refine ⟨d', (since d').mpr (Or.inr rfl), fun isSteady => ?_, Or.inr ⟨rfl, ?_⟩,
      fun i value found => by cases found⟩
    all_goals
      rw [asked] at same
      cases same
    · have kept := held isSteady
      simp only [RangeHeld, asked, noted] at kept
      exact absurd absent kept.2
    · exact absent
  · obtain ⟨moment, member, dest', off', fin, start, exts, same, view, filled, sized⟩ :=
      tracked.viewing
    rw [asked] at same
    cases same
    refine ⟨moment, (since moment).mpr (Or.inl member), view.fileRange filled,
      Or.inl (sized.extend tracked.started _ _), fun i value found => ?_⟩
    have below : i < bytes.length := (List.getElem?_eq_some_iff.mp found).1
    rw [view.byteIn filled below] at found
    refine ⟨?_, (Option.some.inj found).symm⟩
    rw [view.listed]
    exact Option.some_ne_none _

end Steps

/-! ### Every run -/

/-- The calls of a session start at any time, stamped, and every call may go
on. -/
def kernelCalls (pool : Pool Daemon (Call × Stamp) Past) : Event (Call × Stamp) Oracle → Prop
  | .spawn (c, stamp) => stamp.request = c ∧ stamp.since + 1 = pool.record.moments.length ∧
      c.IsSessionCall ∧ c.Plain
  | .run _ _ => True

instance (pool : Pool Daemon (Call × Stamp) Past) (event : Event (Call × Stamp) Oracle) :
    Decidable (kernelCalls pool event) := by
  induction event using Event.casesOn <;> dsimp only [kernelCalls] <;> infer_instance

/-- A read takes the extents only when the end of its range has not moved. -/
def rangesHeld (pool : Pool Daemon (Call × Stamp) Past) (event : Event (Call × Stamp) Oracle) :
    Prop :=
  kernelCalls pool event ∧
    match event with
    | .spawn _ => True
    | .run i _ => ∀ t ∈ pool.threads[i]?, t.1.RangeHeld pool.shared t.2

instance (pool : Pool Daemon (Call × Stamp) Past) (event : Event (Call × Stamp) Oracle) :
    Decidable (rangesHeld pool event) := by
  induction event using Event.casesOn <;> dsimp only [rangesHeld] <;> infer_instance

/-- What the daemon and the log keep in a session, and that it lets reads be
followed. -/
structure Followed (keeps : Daemon → List WriteRecord → Prop) : Prop where
  readable : ∀ {d log}, keeps d log → Readable d log
  step : ∀ {d d' log c request o a}, keeps d log → c.Sound → c.Traced d log request → c.Plain →
    d.apply c.effect o = some (d', a) → keeps d' (logWrite log c a)

section Runs

variable {cfg : Config} {keeps : Daemon → List WriteRecord → Prop}
  {start : Pool Daemon (Call × Stamp) Past → Prop}
  {admits : Pool Daemon (Call × Stamp) Past → Event (Call × Stamp) Oracle → Prop}
  {pool : Pool Daemon (Call × Stamp) Past}

/-- Every call knows what it should, in a run of stamped calls; `steady` runs
are those in which the ends of ranges hold. -/
theorem Call.Tracked.of_reachable (steady : Prop) (followed : Followed keeps)
    (begins : ∀ pool, start pool → pool.threads = [] ∧ keeps pool.shared pool.record.log)
    (stamped : ∀ pool event, admits pool event → kernelCalls pool event)
    (held : steady → ∀ pool event, admits pool event → rangesHeld pool event)
    (reached : Reachable ((daemonSys cfg).annotated keepStamp) Past.extend start admits pool) :
    keeps pool.shared pool.record.log ∧
      ∀ t ∈ pool.threads, t.1.Tracked steady pool.shared pool.record t.2 := by
  refine Reachable.annotated_invariant (fun d past => keeps d past.log)
    (fun d past c stamp => c.Tracked steady d past stamp) ?_ ?_ ?_ reached
  · intro pool begun
    obtain ⟨idle, kept⟩ := begins pool begun
    refine ⟨kept, fun t member => ?_⟩
    rw [idle] at member
    cases member
  · intro pool c stamp _ admitted
    obtain ⟨asked, position, isCall, plain⟩ := stamped _ _ admitted
    have started : stamp.since ≤ pool.record.moments.length := by omega
    obtain ⟨sound, traced⟩ := isCall.traced pool.shared pool.record.log
    refine ⟨sound, asked ▸ traced, plain, started, ?_⟩
    cases c <;> trivial
  · intro d past before c stamp after o d' a kept each admitted applied
    have tracked := each (c, stamp) (by simp)
    have readable := followed.readable kept
    have rangeHeld : steady → c.RangeHeld d stamp := fun isSteady =>
      (held isSteady _ _ admitted).2 (c, stamp) (getElem?_moving before (c, stamp) after)
    refine ⟨followed.step kept tracked.sound tracked.traced tracked.plain applied,
      fun c' continues => ?_, fun u member => ?_⟩
    · have follows := Call.follows_of_resume continues
      refine ⟨tracked.sound.of_follows readable.attributed.sound applied follows, ?_,
        tracked.plain.of_follows applied follows, ?_,
        .of_follows readable tracked rangeHeld applied follows⟩
      · rw [keepStamp_request]
        exact tracked.traced.of_follows readable.attributed tracked.sound applied follows
      · rw [keepStamp_since]
        refine tracked.started.trans ?_
        simp only [Past.extend, List.length_append, Nat.le_add_right]
    · exact (each u (mem_of_mem_others (c, stamp) member)).of_other readable.attributed.consistent
        applied

end Runs

/-- What holds of the daemon and its log in a session. -/
structure Unwrapped (d : Daemon) (log : List WriteRecord) : Prop where
  provenance : Provenance d log
  plain : ∀ w ∈ log, w.ext.Plain

/-- The writes of a plain call are plain. -/
theorem plain_logWrite {log : List WriteRecord} (plain : ∀ w ∈ log, w.ext.Plain) {c : Call}
    (mine : c.Plain) (a : Answer) : ∀ w ∈ logWrite log c a, w.ext.Plain := by
  intro w member
  rcases mem_logWrite member with old | ⟨now, rfl⟩
  · exact plain w old
  · exact mine

theorem unwrapped_followed : Followed Unwrapped where
  readable := fun unwrapped =>
    { attributed := unwrapped.provenance.attributed
      plain := unwrapped.plain
      reached := unwrapped.provenance.pieces.mono fun _ _ logged => by
        obtain ⟨-, w, inLog, -, rfl⟩ := logged
        exact (unwrapped.provenance.writes w inLog).reaches }
  step := fun unwrapped sound traced plain applied =>
    ⟨unwrapped.provenance.of_apply sound traced applied, plain_logWrite unwrapped.plain plain _⟩

/-- A session at its first moment, as in an empty filesystem. -/
def Begun (pool : Pool Daemon (Call × Stamp) Past) : Prop :=
  pool.threads = [] ∧ pool.record.moments = [pool.shared] ∧ Unwrapped pool.shared pool.record.log

theorem freshDaemon_begun {maxChunkSize : Int} (small : maxChunkSize < 9223372036854775808)
    (blockSize now : Int) (cached : Bool) :
    Begun ⟨freshDaemon maxChunkSize blockSize now cached, [],
      ⟨[], [freshDaemon maxChunkSize blockSize now cached]⟩⟩ :=
  ⟨rfl, rfl, (freshDaemon_accounted small blockSize now cached).2, nofun⟩

/-- In every run in which no read takes its extents after the end of its range
has moved, a read that returns data returns exactly its range of the file as it
was at one moment between its start and its end. -/
theorem reads_atomic_of_rangesHeld {cfg : Config} {pool : Pool Daemon (Call × Stamp) Past}
    (reached : Reachable ((daemonSys cfg).annotated keepStamp) Past.extend Begun rangesHeld pool)
    {c : Call} {stamp : Stamp} (running : (c, stamp) ∈ pool.threads) {ino : Ino} {dest : Nat}
    {off now : Int} (asked : stamp.request = .read ino dest off now)
    (held : c.RangeHeld pool.shared stamp) {o : Oracle} {d' : Daemon} {a : Answer}
    (applied : pool.shared.apply c.effect o = some (d', a)) {bytes : Bytes}
    (returned : c.resume cfg a = .inr (.data bytes)) :
    ∃ moment ∈ (pool.record.extend (c, stamp) (a, d')).since stamp,
      moment.fileRange ino dest off = some bytes := by
  obtain ⟨-, tracked⟩ := Call.Tracked.of_reachable True unwrapped_followed
    (fun _ begun => ⟨begun.1, begun.2.2⟩) (fun _ _ admitted => admitted.1)
    (fun _ _ _ admitted => admitted) reached
  obtain ⟨moment, member, range, -, -⟩ :=
    (tracked _ running).returns (fun _ => held) applied returned asked
  exact ⟨moment, member, range trivial⟩

/-! ### Two runs -/

/-- A call that runs to its end. -/
def Call.stamped (c : Call) (since steps : Nat) : List (Event (Call × Stamp) Oracle) :=
  .spawn (c, ⟨c, since, none⟩) :: List.replicate steps (.run 0 {})

/-- A file of three bytes. -/
def threeBytes : List (Event (Call × Stamp) Oracle) :=
  (Call.make .regular 1 [97] 0o644 0 0 1).stamped 0 3 ++ (Call.write 2 [7, 8, 9] 0 2).stamped 3 4

/-- A write that comes while a read is copying. -/
def writeBehind : List (Event (Call × Stamp) Oracle) :=
  threeBytes ++ (Call.read 2 4 0 3).stamped 7 2 ++
    [.spawn (.write 2 [5, 6] 1 4, ⟨.write 2 [5, 6] 1 4, 9, none⟩), .run 1 {}, .run 1 {}, .run 1 {},
      .run 0 {}]

/-- The read returns the file before the write. -/
theorem reads_atomic_writeBehind :
    ∃ pool : Pool Daemon (Call × Stamp) Past, ∃ c d',
      (c, (⟨.read 2 4 0 3, 7, some 3⟩ : Stamp)) ∈ pool.threads ∧
      pool.shared.apply c.effect {} = some (d', .done) ∧
      c.resume sampleConfig .done = .inr (.data [7, 8, 9]) ∧
      ∃ moment ∈ (pool.record.extend (c, ⟨.read 2 4 0 3, 7, some 3⟩) (.done, d')).since
        ⟨.read 2 4 0 3, 7, some 3⟩,
        moment.fileRange 2 4 0 = some [7, 8, 9] := by
  have ends : (((daemonSys sampleConfig).annotated keepStamp).run Past.extend rangesHeld
      ⟨freshDaemon 8 4096 0 false, [], ⟨[], [freshDaemon 8 4096 0 false]⟩⟩ writeBehind).map
        (fun pool => pool.threads.head?) =
      some (some (.readTouch 2 3 [7, 8, 9], ⟨.read 2 4 0 3, 7, some 3⟩)) := by decide +kernel
  obtain ⟨pool, finished, shown⟩ := Option.map_eq_some_iff.mp ends
  have member := List.mem_of_mem_head? (Option.mem_def.mpr shown)
  exact ⟨pool, .readTouch 2 3 [7, 8, 9], _, member, rfl, rfl,
    reads_atomic_of_rangesHeld (o := {})
      (.of_run (.start (freshDaemon_begun (by decide) 4096 0 false)) finished)
      member rfl trivial rfl
      rfl⟩

/-- A truncation that comes when a read has the size of the file and not yet its
extents. -/
def truncatedBetween : List (Event (Call × Stamp) Oracle) :=
  threeBytes ++ (Call.read 2 4 0 3).stamped 7 1 ++
    [.spawn (.setattr 2 { valid := 8, size := 1 } 4,
        ⟨.setattr 2 { valid := 8, size := 1 } 4, 8, none⟩), .run 1 {}, .run 0 {}, .run 0 {}]

/-- The read returns three bytes that the file had at no moment. -/
theorem truncated_read_torn :
    ∃ pool : Pool Daemon (Call × Stamp) Past, ∃ c stamp d',
      Reachable ((daemonSys sampleConfig).annotated keepStamp) Past.extend Begun kernelCalls pool ∧
      (c, stamp) ∈ pool.threads ∧ stamp.request = .read 2 4 0 3 ∧
      pool.shared.apply c.effect {} = some (d', .done) ∧
      c.resume sampleConfig .done = .inr (.data [7, 0, 0]) ∧
      ∀ moment ∈ (pool.record.extend (c, stamp) (.done, d')).since stamp,
        moment.fileRange 2 4 0 ≠ some [7, 0, 0] := by
  let reading : Call × Stamp := (.readTouch 2 3 [7, 0, 0], ⟨.read 2 4 0 3, 7, some 3⟩)
  have ends : (((daemonSys sampleConfig).annotated keepStamp).run Past.extend kernelCalls
      ⟨freshDaemon 8 4096 0 false, [], ⟨[], [freshDaemon 8 4096 0 false]⟩⟩ truncatedBetween).bind
        (fun pool => (pool.shared.apply reading.1.effect {}).map fun result =>
          (pool.threads.head?, result.2,
            ((pool.record.extend reading (.done, result.1)).since reading.2).map fun moment =>
              moment.fileRange 2 4 0)) =
      some (some reading, .done, [some [7, 8, 9], some [7, 8, 9], some [7], some [7], some [7],
        some [7]]) := by
    decide +kernel
  obtain ⟨pool, finished, last⟩ := Option.bind_eq_some_iff.mp ends
  obtain ⟨⟨d', a⟩, applied, shown⟩ := Option.map_eq_some_iff.mp last
  obtain ⟨first, answered⟩ := Prod.mk.inj shown
  obtain ⟨rfl, ranges⟩ := Prod.mk.inj answered
  refine ⟨pool, .readTouch 2 3 [7, 0, 0], ⟨.read 2 4 0 3, 7, some 3⟩, d',
    .of_run (.start (freshDaemon_begun (by decide) 4096 0 false)) finished,
    List.mem_of_mem_head? (Option.mem_def.mpr first), rfl, applied, rfl,
    fun moment member same => ?_⟩
  have listed := List.mem_map_of_mem (f := fun moment : Daemon => moment.fileRange 2 4 0) member
  rw [ranges, same] at listed
  revert listed
  decide

end Fusey
