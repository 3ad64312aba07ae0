import Fusey.Fuse.DirtyFlags
import Fusey.Fuse.LatestWrites
import Fusey.Fuse.RemoteConsistency

/-!
Contract: what `Fsync` promises, under any interleaving of calls.

Owns:
- the journal of a session: the index, the log of writes and the latest write at
  every offset at every moment, and the `Fsync` calls whose `Save` has renamed its
  file;
- the promise: the snapshot is the index of a moment since the call, and at every
  offset of a write that had returned before the call it shows, in the store, the
  byte of the latest write there;
- that every promise is kept in every run in which a `Save` takes its snapshot
  only while no other is on its way to the rename and no overwrite waits to be
  flushed, and in which no recorded write splits an inner extent;
- a run in which an older snapshot is renamed over a newer one, a run in which an
  overwrite is saved before its bytes are flushed, and a run in which an inner
  split loses the bytes of a write.
-/

set_option autoImplicit false

namespace Fusey

open GoInt Interleaving

/-! ### The journal -/

/-- The index at a moment, the writes it has recorded, and the latest one at each
offset. -/
structure Moment where
  idx : Index
  log : List WriteRecord
  latest : LatestWrites

/-- What has happened in a session. A promise is the number of the moment at
which its `Fsync` was called. -/
structure Journal where
  log : List WriteRecord
  latest : LatestWrites
  moments : List Moment
  promises : List Nat

/-- A journal that starts with the index of an empty filesystem. -/
def Journal.opening (idx : Index) : Journal :=
  ⟨[], fun _ _ => none, [⟨idx, [], fun _ _ => none⟩], []⟩

/-- A step adds the moment it leaves. From the rename of its `Save` on, an `Fsync`
cannot fail. -/
def Journal.extend (j : Journal) (thread : Call × Nat) (answer : Answer × Daemon) : Journal where
  log := logWrite j.log thread.1 answer.1
  latest := j.latest.note thread.1 answer.1
  moments := j.moments ++
    [⟨answer.2.idx, logWrite j.log thread.1 answer.1, j.latest.note thread.1 answer.1⟩]
  promises :=
    match thread.1, answer.1 with
    | .saveRename .fsync, .done => j.promises ++ [thread.2]
    | _, _ => j.promises

/-- The number of the moment at which a call was made stays with it. -/
def keepSince (since : Nat) (_ : Call) (_ : Answer) (_ : Daemon) : Nat := since

/-- The two extents cover a common offset. -/
def Extent.Meets (e other : Extent) : Prop :=
  e.fileOffset < other.fileOffset + other.length ∧ other.fileOffset < e.fileOffset + e.length

instance (e other : Extent) : Decidable (e.Meets other) := by
  unfold Extent.Meets
  infer_instance

/-- The writes over an earlier one. -/
def overwriting : List WriteRecord → List WriteRecord
  | [] => []
  | w :: rest => rest.filter (fun later => later.ino = w.ino ∧ later.ext.Meets w.ext) ++
      overwriting rest

theorem mem_overwriting {earlier rest : List WriteRecord} {w later : WriteRecord}
    (old : w ∈ earlier) (new : later ∈ rest) (isIno : later.ino = w.ino)
    (meets : later.ext.Meets w.ext) : later ∈ overwriting (earlier ++ rest) := by
  induction earlier with
  | nil => cases old
  | cons first others inductionHypothesis =>
      rw [List.cons_append, overwriting, List.mem_append]
      rcases List.mem_cons.mp old with rfl | old
      · left
        rw [List.mem_filter, decide_eq_true_eq]
        exact ⟨List.mem_append_right _ new, isIno, meets⟩
      · exact Or.inr (inductionHypothesis old)

theorem mem_of_mem_overwriting {w : WriteRecord} :
    ∀ {log : List WriteRecord}, w ∈ overwriting log → w ∈ log
  | first :: rest, member => by
      rw [overwriting, List.mem_append] at member
      rcases member with now | later
      · exact List.mem_cons_of_mem _ (List.mem_filter.mp now).1
      · exact List.mem_cons_of_mem _ (mem_of_mem_overwriting later)

/-! ### The promise -/

/-- The bytes are the index of a moment not before any of `bounds`, and no
overwrite in it waits to be flushed. -/
def Journal.SavedSince (codec : CborCodec) (objects : Objects) (j : Journal) (bounds : List Nat)
    (data : Bytes) : Prop :=
  ∃ k moment, (∀ p ∈ bounds, p ≤ k) ∧ j.moments[k]? = some moment ∧
    moment.idx.SavedAs codec data ∧ ∀ w ∈ overwriting moment.log, InObject objects w.ext

/-- What was written before the moment is stored. -/
def Journal.Flushed (objects : Objects) (j : Journal) (since : Nat) : Prop :=
  ∀ called, j.moments[since]? = some called → ∀ w ∈ called.log, InObject objects w.ext

/-- What is stored of a chunk at an offset. -/
def storedByte (objects : Objects) (id : Key) (i : Int) : Option UInt8 :=
  objectByte objects id i.toNat

/-- At offset `x` the extents show, in the store, the byte of the latest write
there; if there is none they show nothing. -/
def ShowsStored (objects : Objects) (exts : List Extent) (latest : Option WriteRecord) (x : Int) :
    Prop :=
  match latest with
  | none => byteAt (storedByte objects) exts x = none
  | some w => ∃ value, w.data[(x - w.ext.fileOffset).toNat]? = some value ∧
      byteAt (storedByte objects) exts x = some (some value)

/-- The promise of an `Fsync` that was called at the moment `since`: the writes
that had returned are stored; the snapshot is the index of a moment since then; and
at every offset that one of these writes covered, a file that is still there shows
what was written there last, up to that moment. -/
def Journal.Upheld (codec : CborCodec) (d : Daemon) (j : Journal) (since : Nat) : Prop :=
  ∃ called, j.moments[since]? = some called ∧
    (∀ w ∈ called.log, w.ext.Shows d.objects w) ∧
    ∃ data moment, d.dir.snapshot = some data ∧ moment ∈ j.moments.drop since ∧
      moment.idx.SavedAs codec data ∧
      ∀ ino file, moment.idx.file ino = some file → file.fileType = .regular →
        ∀ x, (∃ w ∈ called.log, w.ino = ino ∧ w.ext.Covers x) →
          ShowsStored d.objects (file.extents.getD []) (moment.latest ino x) x

/-! ### What a session keeps -/

structure Journaled (codec : CborCodec) (d : Daemon) (j : Journal) : Prop where
  sound : d.Sound
  consistent : d.cs.Consistent d.objects
  neat : d.dir.Neat
  writes : ∀ w ∈ j.log, w.Kept false d
  faithful : ∀ moment ∈ j.moments, moment.idx.ShowsLogged moment.latest moment.log
  last : j.moments.getLast? = some ⟨d.idx, j.log, j.latest⟩
  logs : j.moments.Pairwise fun earlier later => earlier.log <+: later.log
  known : ∀ p ∈ j.promises, p < j.moments.length
  saved : ∀ p ∈ j.promises, ∃ data, d.dir.snapshot = some data ∧
    j.SavedSince codec d.objects [p] data
  flushed : ∀ p ∈ j.promises, j.Flushed d.objects p

/-- A suspended call that has not recorded its write yet has lost no bytes. -/
def Call.Keeps (d : Daemon) : Call → Prop
  | .writeRecord ino data ext _ => (⟨ino, data, ext⟩ : WriteRecord).Kept false d
  | .mutate _ | .sealActive => False
  | _ => True

/-- An `Fsync` between its flush and its rename. -/
def Call.HasFlushed : Call → Prop
  | .save .fsync | .saveOpen .fsync _ | .saveWrite .fsync _ _ | .saveRename .fsync => True
  | _ => False

/-- What a suspended call knows. -/
structure Call.Journaled (codec : CborCodec) (d : Daemon) (j : Journal) (c : Call) (since : Nat) :
    Prop where
  sound : c.Sound
  keeps : c.Keeps d
  started : since < j.moments.length
  carrying : c.TouchesTmp → c.Saving (j.SavedSince codec d.objects (since :: j.promises)) d
  flushed : c.HasFlushed → j.Flushed d.objects since
  promised : c = .saveMark .fsync → since ∈ j.promises

section Step

variable {cfg : Config} {codec : CborCodec} {d d' : Daemon} {o : Oracle} {a : Answer} {j : Journal}
  {c c' : Call} {since : Nat}

theorem Journaled.log_of_moment (journaled : Journaled codec d j) {k : Nat} {moment : Moment}
    (found : j.moments[k]? = some moment) : moment.log <+: j.log := by
  obtain ⟨below, isIt⟩ := List.getElem?_eq_some_iff.mp found
  have last := journaled.last
  rw [List.getLast?_eq_getElem?] at last
  obtain ⟨high, isLast⟩ := List.getElem?_eq_some_iff.mp last
  rcases Nat.lt_or_ge k (j.moments.length - 1) with earlier | latest
  · have ordered := List.pairwise_iff_getElem.mp journaled.logs k (j.moments.length - 1) below high
      earlier
    rw [isIt, isLast] at ordered
    exact ordered
  · have same : k = j.moments.length - 1 := by omega
    subst same
    rw [← isIt, isLast]

theorem Journaled.log_of_later (journaled : Journaled codec d j) {k k' : Nat}
    {moment moment' : Moment} (found : j.moments[k]? = some moment)
    (found' : j.moments[k']? = some moment') (ordered : k ≤ k') : moment.log <+: moment'.log := by
  obtain ⟨below, isIt⟩ := List.getElem?_eq_some_iff.mp found
  obtain ⟨below', isIt'⟩ := List.getElem?_eq_some_iff.mp found'
  rcases Nat.lt_or_eq_of_le ordered with earlier | rfl
  · have logs := List.pairwise_iff_getElem.mp journaled.logs k k' below below' earlier
    rw [isIt, isIt'] at logs
    exact logs
  · cases found.symm.trans found'
    exact List.prefix_refl _

/-- A stored write shows its byte wherever an extent list shows the write. -/
theorem OpenFile.Shows.stored {file : OpenFile} {latest : Int → Option WriteRecord}
    (shows : file.Shows latest) {objects : Objects} {x : Int}
    (stored : ∀ w, latest x = some w → w.ext.Shows objects w) :
    ShowsStored objects (file.extents.getD []) (latest x) x := by
  have bytes := shows.bytes (storedByte objects) x
  cases found : latest x with
  | none =>
      rw [found] at bytes
      exact bytes
  | some w =>
      have covers := shows.covers x w found
      obtain ⟨-, length, low, -, object, present, -, same⟩ := stored w found
      obtain ⟨start, stop⟩ := id covers
      have inside : (x - w.ext.fileOffset).toNat < w.data.length := by omega
      have here := same (x - w.ext.fileOffset).toNat (by omega)
      have place : (w.ext.chunkOffset + (x - w.ext.fileOffset)).toNat =
          w.ext.chunkOffset.toNat + (x - w.ext.fileOffset).toNat := by omega
      rw [sub_self, Int.toNat_zero, Nat.zero_add, List.getElem?_eq_getElem inside] at here
      refine ⟨_, List.getElem?_eq_getElem inside, ?_⟩
      rw [bytes, found, Option.bind_some, Extent.layer, if_pos covers, storedByte, objectByte,
        place, Option.mem_def.mp present, Option.bind_some, here]

/-- The promise follows from what is kept. -/
theorem Journaled.upheld (journaled : Journaled codec d j) {p : Nat} (member : p ∈ j.promises) :
    j.Upheld codec d p := by
  obtain ⟨data, snapshot, k, moment, bounds, found, saved, overwritten⟩ := journaled.saved p member
  have later : p ≤ k := bounds p (List.mem_singleton_self p)
  obtain ⟨below, isCalled⟩ : ∃ below : p < j.moments.length, j.moments[p]? = some j.moments[p] :=
    ⟨journaled.known p member, List.getElem?_eq_getElem _⟩
  have flushed := journaled.flushed p member _ isCalled
  have inLog : ∀ w ∈ moment.log, w ∈ j.log := (journaled.log_of_moment found).subset
  have faithful := journaled.faithful moment (List.mem_of_getElem? found)
  have shown : ∀ w ∈ j.log, InObject d.objects w.ext → w.ext.Shows d.objects w := by
    intro w isLogged inside
    have kept := journaled.writes w isLogged
    exact kept.shows journaled.consistent inside (.refl kept.holds.range.length)
  refine ⟨_, isCalled, fun w called => ?_, data, moment, snapshot, ?_, saved, ?_⟩
  · exact shown w ((journaled.log_of_moment isCalled).subset called) (flushed w called)
  · refine List.mem_iff_getElem?.mpr ⟨k - p, ?_⟩
    rw [List.getElem?_drop, Nat.add_sub_cancel' later]
    exact found
  · rintro ino file held regular x ⟨w, called, isIno, covered⟩
    have shows := faithful.shows.files ino file held regular
    refine shows.stored fun newest isNewest => ?_
    obtain ⟨recorded, isIno'⟩ := faithful.logged ino ⟨file, held, regular⟩ x newest isNewest
    refine shown newest (inLog newest recorded) ?_
    -- The write was there at the call, or it came later and over one that was.
    obtain ⟨rest, split⟩ := journaled.log_of_later isCalled found later
    rw [← split] at recorded overwritten
    rcases List.mem_append.mp recorded with old | new
    · exact flushed newest old
    · refine overwritten newest (mem_overwriting called new (isIno'.trans isIno.symm) ?_)
      obtain ⟨start, stop⟩ := shows.covers x newest isNewest
      obtain ⟨start', stop'⟩ := covered
      exact ⟨by omega, by omega⟩

/-! ### One step -/

/-- What is stored stays stored. -/
theorem Journaled.stored_of_apply (journaled : Journaled codec d j) (keeps : c.Keeps d)
    (applied : d.apply c.effect o = some (d', a)) {w : WriteRecord} (inLog : w ∈ j.log)
    (inside : InObject d.objects w.ext) : InObject d'.objects w.ext := by
  have carries := Daemon.carries_of_apply false journaled.consistent applied fun asks => by
    cases c <;> first | exact keeps.elim | cases asks
  exact carries.stored w.ext trivial (journaled.writes w inLog).minted inside

/-- Moments stay where they are. -/
theorem Journal.moment_extend {k : Nat} {moment : Moment} (found : j.moments[k]? = some moment)
    (thread : Call × Nat) (answer : Answer × Daemon) :
    (j.extend thread answer).moments[k]? = some moment := by
  rw [Journal.extend, List.getElem?_append_left (List.getElem?_eq_some_iff.mp found).1]
  exact found

theorem Journal.SavedSince.extend {bounds bounds' : List Nat} {data : Bytes}
    (saved : j.SavedSince codec d.objects bounds data) (journaled : Journaled codec d j)
    (keeps : c.Keeps d) (applied : d.apply c.effect o = some (d', a))
    (fewer : ∀ p ∈ bounds', p ∈ bounds) :
    (j.extend (c, since) (a, d')).SavedSince codec d'.objects bounds' data := by
  obtain ⟨k, moment, later, found, isIndex, overwritten⟩ := saved
  refine ⟨k, moment, fun p member => later p (fewer p member), Journal.moment_extend found _ _,
    isIndex, fun w member => ?_⟩
  exact journaled.stored_of_apply keeps applied
    ((journaled.log_of_moment found).subset (mem_of_mem_overwriting member)) (overwritten w member)

theorem Journal.Flushed.extend {p : Nat} (flushed : j.Flushed d.objects p)
    (journaled : Journaled codec d j) (keeps : c.Keeps d)
    (applied : d.apply c.effect o = some (d', a)) (known : p < j.moments.length) :
    (j.extend (c, since) (a, d')).Flushed d'.objects p := by
  intro called found w member
  have before : j.moments[p]? = some called := by
    rw [Journal.extend, List.getElem?_append_left known] at found
    exact found
  exact journaled.stored_of_apply keeps applied
    ((journaled.log_of_moment before).subset member) (flushed called before w member)

/-- Only the rename of an `Fsync` makes a promise. -/
theorem Journal.promises_extend (j : Journal) (c : Call) (since : Nat) (a : Answer) (d' : Daemon) :
    (j.extend (c, since) (a, d')).promises = j.promises ∨
      c = .saveRename .fsync ∧ a = .done ∧
        (j.extend (c, since) (a, d')).promises = j.promises ++ [since] := by
  unfold Journal.extend
  dsimp only
  split
  next => exact Or.inr ⟨rfl, rfl, rfl⟩
  next => exact Or.inl rfl

theorem Journal.mem_promises_extend {p : Nat}
    (member : p ∈ (j.extend (c, since) (a, d')).promises) :
    p ∈ j.promises ∨ c = .saveRename .fsync ∧ p = since := by
  rcases j.promises_extend c since a d' with same | ⟨isRename, -, added⟩
  · exact Or.inl (same ▸ member)
  · rw [added] at member
    exact (List.mem_append.mp member).imp_right fun new => ⟨isRename, List.mem_singleton.mp new⟩

/-- The present moment. -/
theorem Journaled.faithful_now (journaled : Journaled codec d j) :
    d.idx.ShowsLogged j.latest j.log :=
  journaled.faithful _ (List.mem_of_mem_getLast? journaled.last)

theorem Journaled.of_apply (journaled : Journaled cfg.codec d j)
    (mine : c.Journaled cfg.codec d j since) (plainly : c.RecordsPlainly d.idx)
    (applied : d.apply c.effect o = some (d', a)) :
    Journaled cfg.codec d' (j.extend (c, since) (a, d')) where
  sound := journaled.sound.of_apply mine.sound applied
  consistent := journaled.consistent.of_apply applied
  neat := Daemon.neat_of_apply journaled.neat applied
  writes := by
    have carries := Daemon.carries_of_apply false journaled.consistent applied fun asks => by
      cases c <;> first | exact mine.keeps.elim | cases asks
    intro w member
    rcases mem_logWrite member with old | ⟨now, rfl⟩
    · exact carries.kept w trivial (journaled.writes w old)
    · exact carries.kept w trivial mine.keeps
  faithful := by
    intro moment member
    rcases List.mem_append.mp member with old | new
    · exact journaled.faithful moment old
    · rw [List.mem_singleton.mp new]
      have scripted : ∀ m, c ≠ .mutate m := by
        rintro m rfl
        exact mine.keeps
      exact journaled.faithful_now.of_apply mine.sound scripted plainly applied
  last := List.getLast?_concat ..
  logs := by
    refine List.pairwise_append.mpr ⟨journaled.logs, List.pairwise_singleton _ _, ?_⟩
    intro moment member latest new
    rw [List.mem_singleton.mp new]
    obtain ⟨k, found⟩ := List.mem_iff_getElem?.mp member
    refine (journaled.log_of_moment found).trans ?_
    unfold logWrite
    split
    · exact List.prefix_append _ _
    · exact List.prefix_refl _
  known := by
    intro p member
    have grown : (j.extend (c, since) (a, d')).moments.length = j.moments.length + 1 :=
      List.length_append
    rcases Journal.mem_promises_extend member with old | ⟨-, rfl⟩
    · have := journaled.known p old
      omega
    · have := mine.started
      omega
  saved := by
    intro p member
    rcases j.promises_extend c since a d' with same | ⟨rfl, rfl, -⟩
    · rw [same] at member
      obtain ⟨data, present, saved⟩ := journaled.saved p member
      by_cases touches : c.TouchesTmp
      · rcases (mine.carrying touches).snapshot journaled.neat applied with
          kept | ⟨-, data', -, -, newer, renamed⟩
        · exact ⟨data, kept.trans present, saved.extend journaled mine.keeps applied fun _ => id⟩
        · refine ⟨data', renamed, newer.extend journaled mine.keeps applied fun q isIt => ?_⟩
          rw [List.mem_singleton.mp isIt]
          exact List.mem_cons_of_mem _ member
      · rw [Call.dir_of_apply touches applied]
        exact ⟨data, present, saved.extend journaled mine.keeps applied fun _ => id⟩
    · -- The renamed file is newer than every promise and than the call itself.
      have follows : Call.Follows cfg (.saveRename .fsync) .done (.saveMark .fsync) := .saveMark
      obtain ⟨data, newer, renamed⟩ := (mine.carrying trivial).of_follows applied follows nofun
      refine ⟨data, renamed, newer.extend journaled mine.keeps applied fun q isIt => ?_⟩
      rw [List.mem_singleton.mp isIt]
      rcases Journal.mem_promises_extend member with old | ⟨-, rfl⟩
      · exact List.mem_cons_of_mem _ old
      · exact List.mem_cons_self ..
  flushed := by
    intro p member
    rcases Journal.mem_promises_extend member with old | ⟨rfl, rfl⟩
    · exact (journaled.flushed p old).extend journaled mine.keeps applied (journaled.known p old)
    · exact (mine.flushed trivial).extend journaled mine.keeps applied mine.started

/-- The next step is the snapshot of a `Save`. -/
def Call.IsTaking : Call → Prop
  | .save _ => True
  | _ => False

instance (c : Call) : Decidable c.IsTaking := by
  induction c using Call.casesOn <;> dsimp only [Call.IsTaking] <;> infer_instance

/-- The snapshot that a `Save` may take now. -/
def Savable (d : Daemon) (j : Journal) (order : List DirEntry) : Prop :=
  (d.idx.snapshot order).Decodable ∧ ∀ w ∈ overwriting j.log, InObject d.objects w.ext

instance (d : Daemon) (j : Journal) (order : List DirEntry) : Decidable (Savable d j order) := by
  unfold Savable
  infer_instance

/-- The snapshot that is taken now is newer than every promise. -/
theorem Journaled.savedNow (journaled : Journaled codec d j) (started : since < j.moments.length)
    {order : List DirEntry} {data : Bytes} (lists : d.idx.Lists order)
    (encoded : encodeSnapshot codec (d.idx.snapshot order) = some data)
    (savable : Savable d j order) : j.SavedSince codec d.objects (since :: j.promises) data := by
  have last := journaled.last
  rw [List.getLast?_eq_getElem?] at last
  refine ⟨_, _, fun p member => ?_, last,
    journaled.sound.restorable.decodes lists savable.1 encoded, savable.2⟩
  rcases List.mem_cons.mp member with rfl | promised
  · omega
  · have := journaled.known p promised
    omega

theorem Call.Journaled.of_follows (mine : c.Journaled cfg.codec d j since)
    (journaled : Fusey.Journaled cfg.codec d j) (applied : d.apply c.effect o = some (d', a))
    (follows : c.Follows cfg a c') (plainly : c.RecordsPlainly d.idx)
    (savable : c.IsTaking → Savable d j o.order) :
    c'.Journaled cfg.codec d' (j.extend (c, since) (a, d')) since where
  sound := mine.sound.of_follows journaled.sound applied follows
  started := by
    rw [Journal.extend, List.length_append]
    exact Nat.lt_add_right _ mine.started
  keeps := by
    cases follows
    case writeRecord ino data off now ext =>
      have active := (journaled.sound.of_apply mine.sound applied).active
      exact .of_append journaled.sound mine.sound (fun seals => by cases seals) applied active ino
    case readFirst | readNext =>
      unfold nextRead
      split <;> trivial
    all_goals trivial
  carrying := by
    intro touches
    have saving : c.Saving (j.SavedSince cfg.codec d.objects (since :: j.promises)) d := by
      by_cases already : c.TouchesTmp
      · exact mine.carrying already
      · refine .of_not_saving fun marking => ?_
        cases c <;> first | exact marking.elim | exact already trivial | skip
        cases follows
        exact touches.elim
    refine (saving.of_follows applied follows fun saver data isSave lists encoded => ?_).mono
      fun data saved => saved.extend journaled mine.keeps applied fun p member => ?_
    · subst isSave
      exact journaled.savedNow mine.started lists encoded (savable trivial)
    · rcases List.mem_cons.mp member with rfl | promised
      · exact List.mem_cons_self ..
      · rcases Journal.mem_promises_extend promised with old | ⟨-, rfl⟩
        · exact List.mem_cons_of_mem _ old
        · exact List.mem_cons_self ..
  flushed := by
    intro past
    by_cases before : c.HasFlushed
    · exact (mine.flushed before).extend journaled mine.keeps applied mine.started
    · -- The flush has just been made.
      intro called found w member
      have after := journaled.of_apply mine plainly applied
      have kept := after.writes w ((after.log_of_moment found).subset member)
      cases follows
      case fsyncSave => exact kept.backed.inObject (Daemon.apply_flushActive applied)
      case saveOpen saver _ _ _ | saveWrite saver _ _ | saveRename saver _ _ =>
        cases saver
        · exact absurd trivial before
        · exact past.elim
      case readFirst | readNext =>
        unfold nextRead at past
        split at past <;> exact past.elim
      all_goals exact past.elim
  promised := by
    intro marking
    cases follows
    case saveMark saver =>
      cases marking
      exact List.mem_append_right _ (List.mem_singleton_self _)
    case readFirst | readNext =>
      unfold nextRead at marking
      split at marking <;> cases marking
    all_goals cases marking

theorem Call.Journaled.of_other {u : Call} {other : Nat} (theirs : u.Journaled cfg.codec d j other)
    (journaled : Fusey.Journaled cfg.codec d j) (keeps : c.Keeps d)
    (applied : d.apply c.effect o = some (d', a)) (apart : u.TouchesTmp → ¬ c.TouchesTmp) :
    u.Journaled cfg.codec d' (j.extend (c, since) (a, d')) other where
  sound := theirs.sound
  started := by
    rw [Journal.extend, List.length_append]
    exact Nat.lt_add_right _ theirs.started
  keeps := by
    have carries := Daemon.carries_of_apply false journaled.consistent applied fun asks => by
      cases c <;> first | exact keeps.elim | cases asks
    have knows := theirs.keeps
    cases u
    case writeRecord ino data ext now => exact carries.kept ⟨ino, data, ext⟩ trivial knows
    all_goals exact knows
  carrying := by
    intro touches
    refine ((theirs.carrying touches).of_dir (Call.dir_of_apply (apart touches) applied)).mono
      fun data saved => saved.extend journaled keeps applied fun p member => ?_
    rcases j.promises_extend c since a d' with same | ⟨rfl, -, -⟩
    · rw [same] at member
      exact member
    · exact absurd trivial (apart touches)
  flushed := fun past =>
    (theirs.flushed past).extend journaled keeps applied theirs.started
  promised := by
    intro marking
    rcases j.promises_extend c since a d' with same | ⟨-, -, added⟩
    · rw [same]
      exact theirs.promised marking
    · rw [added]
      exact List.mem_append_left _ (theirs.promised marking)

end Step

/-! ### Every run -/

/-- Requests start at any time, with the number of the present moment. -/
def anySaves (pool : Pool Daemon (Call × Nat) Journal) : Event (Call × Nat) Oracle → Prop
  | .spawn (c, since) => c.IsRequest ∧ since + 1 = pool.record.moments.length
  | .run _ _ => True

instance (pool : Pool Daemon (Call × Nat) Journal) (event : Event (Call × Nat) Oracle) :
    Decidable (anySaves pool event) := by
  induction event using Event.casesOn <;> dsimp only [anySaves] <;> infer_instance

/-- A write is recorded only where it splits no inner extent. A `Save` takes its
snapshot only while no other is on its way to the rename, and when what it takes
can be loaded and no overwrite waits to be flushed. -/
def separateSaves (pool : Pool Daemon (Call × Nat) Journal) (event : Event (Call × Nat) Oracle) :
    Prop :=
  anySaves pool event ∧
    match event with
    | .spawn _ => True
    | .run i o => ∀ t ∈ pool.threads[i]?, t.1.RecordsPlainly pool.shared.idx ∧
        (t.1.IsTaking → (∀ u ∈ pool.threads, ¬ u.1.TouchesTmp) ∧
          Savable pool.shared pool.record o.order)

instance (pool : Pool Daemon (Call × Nat) Journal) (event : Event (Call × Nat) Oracle) :
    Decidable (separateSaves pool event) := by
  induction event using Event.casesOn <;> dsimp only [separateSaves] <;> infer_instance

/-- A session at its first moment, as in an empty filesystem. -/
def Opened (codec : CborCodec) (pool : Pool Daemon (Call × Nat) Journal) : Prop :=
  pool.threads = [] ∧ pool.record.promises = [] ∧ Journaled codec pool.shared pool.record

theorem Call.touchesTmp_of_resume {cfg : Config} {c c' : Call} {a : Answer}
    (continues : c.resume cfg a = .inl c') (touches : c'.TouchesTmp) :
    c.IsTaking ∨ c.TouchesTmp := by
  have follows := Call.follows_of_resume continues
  cases follows <;> first
    | exact touches.elim
    | exact Or.inl trivial
    | exact Or.inr trivial
    | (unfold nextRead at touches; split at touches <;> exact touches.elim)

theorem Journaled.of_reachable {cfg : Config} {pool : Pool Daemon (Call × Nat) Journal}
    (reached : Reachable ((daemonSys cfg).annotated keepSince) Journal.extend (Opened cfg.codec)
      separateSaves pool) :
    Journaled cfg.codec pool.shared pool.record ∧
      ∀ t ∈ pool.threads, t.1.Journaled cfg.codec pool.shared pool.record t.2 := by
  have one := Reachable.exclusive (fun t : Call × Nat => decide t.1.TouchesTmp) ?_ ?_ ?_ reached
  refine Reachable.annotated_invariant (Journaled cfg.codec)
    (fun d j c since => c.Journaled cfg.codec d j since) ?_ ?_ ?_ one
  · rintro pool ⟨idle, -, journaled⟩
    refine ⟨journaled, fun t member => ?_⟩
    rw [idle] at member
    cases member
  · rintro pool c since - ⟨-, ⟨request, now⟩, -⟩
    refine ⟨request.sound, ?_, by omega, fun touches => ?_, fun past => ?_, ?_⟩
    · cases c <;> trivial
    · cases c <;> first | exact touches.elim | exact request.elim
    · cases c <;> first | exact request.elim | exact past.elim
    · rintro rfl
      exact request.elim
  · rintro d j before c since after o d' a journaled each ⟨single, -, admitted⟩ applied
    have mine := each (c, since) (by simp)
    obtain ⟨plainly, may⟩ := admitted (c, since) (getElem?_moving before (c, since) after)
    refine ⟨journaled.of_apply mine plainly applied, fun c' continues => ?_, fun u member => ?_⟩
    · exact mine.of_follows journaled applied (Call.follows_of_resume continues) plainly
        fun taking => (may taking).2
    · refine (each u (mem_of_mem_others _ member)).of_other journaled mine.keeps applied
        fun touches mineToo => ?_
      exact of_decide_eq_false (not_critical_of_count single (decide_eq_true mineToo) member)
        touches
  · rintro pool ⟨idle, -⟩
    rw [idle]
    exact Nat.zero_le _
  · rintro pool ⟨c, since⟩ ⟨⟨request, -⟩, -⟩
    left
    cases c <;> first | rfl | exact request.elim
  · rintro d j before ⟨c, since⟩ after o ⟨a, d'⟩ ⟨c', since'⟩ ⟨-, admitted⟩ continues touches
    obtain ⟨continued, -⟩ := Sys.resume_of_annotated continues
    rcases Call.touchesTmp_of_resume continued (of_decide_eq_true touches) with taking | already
    · right
      intro u member
      have others := ((admitted (c, since) (getElem?_moving before (c, since) after)).2 taking).1
      exact decide_eq_false (others u (mem_of_mem_others _ member))
    · exact Or.inl (decide_eq_true already)

/-- A call of `Fsync`, up to its return. -/
def Call.IsFsync : Call → Prop
  | .fsync | .save .fsync | .saveOpen .fsync _ | .saveWrite .fsync _ _ | .saveRename .fsync
  | .saveMark .fsync => True
  | _ => False

/-- With a cache directory, `Fsync` returns 0 after its `Save` only. -/
theorem Call.IsFsync.returns {cfg : Config} (cached : cfg.hasCacheDir = true) {c : Call}
    {a : Answer} (isFsync : c.IsFsync) (returned : c.resume cfg a = .inr .ok) :
    c = .saveMark .fsync := by
  cases c with
  | saveMark saver =>
      cases saver
      · rfl
      · exact isFsync.elim
  | fsync =>
      cases a <;> try cases returned
      case done =>
        change (if cfg.hasCacheDir then .inl (Call.save .fsync) else .inr Reply.ok) =
          Sum.inr Reply.ok at returned
        rw [if_pos cached] at returned
        cases returned
  | save saver =>
      cases saver
      · cases a <;> try cases returned
        case taken snap =>
          rw [Call.resume_save_taken] at returned
          split at returned <;> cases returned
      · exact isFsync.elim
  | saveOpen saver data =>
      cases saver
      · cases a <;> cases returned
      · exact isFsync.elim
  | saveWrite saver file data =>
      cases saver
      · cases a <;> cases returned
      · exact isFsync.elim
  | saveRename saver =>
      cases saver
      · cases a <;> cases returned
      · exact isFsync.elim
  | _ => exact isFsync.elim

/-- In every run in which `Save`s are separate, an `Fsync` that returns 0 has made
its promise, and every promise is kept at every moment. -/
theorem fsync_promises_upheld {cfg : Config} (cached : cfg.hasCacheDir = true)
    {pool : Pool Daemon (Call × Nat) Journal}
    (reached : Reachable ((daemonSys cfg).annotated keepSince) Journal.extend (Opened cfg.codec)
      separateSaves pool) :
    (∀ c since o d' a, (c, since) ∈ pool.threads → c.IsFsync →
        pool.shared.apply c.effect o = some (d', a) → c.resume cfg a = .inr .ok →
          since ∈ pool.record.promises) ∧
      ∀ since ∈ pool.record.promises, pool.record.Upheld cfg.codec pool.shared since := by
  obtain ⟨journaled, calls⟩ := Journaled.of_reachable reached
  refine ⟨fun c since o d' a member isFsync _ returned => ?_, fun since promised => ?_⟩
  · exact (calls _ member).promised (isFsync.returns cached returned)
  · exact journaled.upheld promised

/-! ### Four runs -/

/-- A configuration that can be evaluated on a file that is empty, has three
bytes, and has one of them overwritten. -/
noncomputable def overwrittenConfig : Config :=
  ⟨100, true, .unary [wireAfter oneEntry.order ((Call.make .regular 1 [97] 0o644 0 0 1).alone 3),
    wireAfter oneEntry.order ((Call.make .regular 1 [97] 0o644 0 0 1).alone 3 ++
      (Call.write 2 [7, 8, 9] 0 2).alone 4),
    wireAfter oneEntry.order ((Call.make .regular 1 [97] 0o644 0 0 1).alone 3 ++
      (Call.write 2 [7, 8, 9] 0 2).alone 4 ++ (Call.write 2 [5] 1 3).alone 3)]⟩

theorem freshDaemon_opened (codec : CborCodec) {maxChunkSize : Int}
    (small : maxChunkSize < 9223372036854775808) (blockSize now : Int) (cached : Bool) :
    Opened codec ⟨freshDaemon maxChunkSize blockSize now cached, [],
      .opening (freshDaemon maxChunkSize blockSize now cached).idx⟩ := by
  obtain ⟨-, ledger⟩ := freshDaemon_settled codec small blockSize now cached
  refine ⟨rfl, rfl, ledger.sound, ledger.consistent, SnapshotDir.empty_neat, ledger.writes, ?_, rfl,
    List.pairwise_singleton _ _, nofun, nofun, nofun⟩
  intro moment first
  rw [List.mem_singleton.mp first]
  exact Index.new_showsLogged _ _ _

/-- The `i`th call runs through some steps. -/
def stepping (i : Nat) (steps : List Oracle) : List (Event (Call × Nat) Oracle) :=
  steps.map fun o => .run i o

/-- A file of three bytes is synced, one byte is overwritten, and it is synced
again. -/
def syncedTwice : List (Event (Call × Nat) Oracle) :=
  let fsync : List Oracle := [{}, oneEntry, {}, {}, {}, {}]
  let create : Call := .make .regular 1 [97] 0o644 0 0 1
  [.spawn (create, 0)] ++ stepping 0 [{}, {}, {}] ++
    [.spawn (.write 2 [7, 8, 9] 0 2, 3)] ++ stepping 0 [{}, {}, {}, {}] ++
    [.spawn (.fsync, 7)] ++ stepping 0 fsync ++
    [.spawn (.write 2 [5] 1 3, 13)] ++ stepping 0 [{}, {}, {}] ++
    [.spawn (.fsync, 16)] ++ stepping 0 fsync

/-- Both promises are kept. -/
theorem fsync_promises_upheld_twice :
    ∃ pool : Pool Daemon (Call × Nat) Journal, pool.record.promises = [7, 16] ∧
      pool.shared.objects.get (chunkID 0) = some [7, 8, 9, 5] ∧
      pool.record.Upheld overwrittenConfig.codec pool.shared 7 ∧
      pool.record.Upheld overwrittenConfig.codec pool.shared 16 := by
  have plays : (((daemonSys overwrittenConfig).annotated keepSince).run Journal.extend separateSaves
      ⟨freshDaemon 8 4096 0 true, [], .opening (freshDaemon 8 4096 0 true).idx⟩
      syncedTwice).map (fun pool =>
        (pool.record.promises, pool.shared.objects.get (chunkID 0))) =
      some ([7, 16], some [7, 8, 9, 5]) := by decide +kernel
  obtain ⟨pool, ran, shown⟩ := Option.map_eq_some_iff.mp plays
  obtain ⟨promises, object⟩ := Prod.mk.inj shown
  have reached : Reachable ((daemonSys overwrittenConfig).annotated keepSince) Journal.extend
      (Opened overwrittenConfig.codec) separateSaves pool :=
    .of_run (.start (freshDaemon_opened _ (by decide) 4096 0 true)) ran
  obtain ⟨-, upheld⟩ := fsync_promises_upheld rfl reached
  exact ⟨pool, promises, object, upheld 7 (by rw [promises]; decide),
    upheld 16 (by rw [promises]; decide)⟩

/-- A persist run takes its snapshot before a write, and goes on when an `Fsync`
that came after the write has returned. -/
def olderRenamed : List (Event (Call × Nat) Oracle) :=
  [.spawn (.make .regular 1 [97] 0o644 0 0 1, 0)] ++ stepping 0 [{}, {}, {}] ++
    [.spawn (.persist, 3)] ++ stepping 0 [{}, oneEntry] ++
    [.spawn (.write 2 [7, 8, 9] 0 2, 5)] ++ stepping 1 [{}, {}, {}, {}] ++
    [.spawn (.fsync, 9)] ++ stepping 1 [{}, oneEntry, {}, {}, {}, {}] ++ stepping 0 [{}, {}, {}]

/-- The snapshot has lost the write that was synced. -/
theorem older_snapshot_renamed_over_newer :
    ∃ pool : Pool Daemon (Call × Nat) Journal,
      Reachable ((daemonSys overwrittenConfig).annotated keepSince) Journal.extend
        (Opened overwrittenConfig.codec) anySaves pool ∧
      9 ∈ pool.record.promises ∧ ¬ pool.record.Upheld overwrittenConfig.codec pool.shared 9 := by
  have plays : (((daemonSys overwrittenConfig).annotated keepSince).run Journal.extend anySaves
      ⟨freshDaemon 8 4096 0 true, [], .opening (freshDaemon 8 4096 0 true).idx⟩
      olderRenamed).map (fun pool =>
        (pool.record.promises, pool.shared.dir.snapshot,
          decide (∀ moment ∈ pool.record.moments.drop 9,
            moment.idx.blockSize = 4096 ∧ moment.idx.extents.get 2 ≠ some []))) =
      some ([9], some [], true) := by decide +kernel
  have decoded : (decodeIndex overwrittenConfig.codec 4096 []).map (fun idx => idx.extents.get 2) =
      some (some []) := by decide +kernel
  obtain ⟨pool, ran, shown⟩ := Option.map_eq_some_iff.mp plays
  obtain ⟨promises, rest⟩ := Prod.mk.inj shown
  obtain ⟨snapshot, moments⟩ := Prod.mk.inj rest
  refine ⟨pool, .of_run (.start (freshDaemon_opened _ (by decide) 4096 0 true)) ran,
    by rw [promises]; decide, ?_⟩
  rintro ⟨called, -, -, data, moment, present, later, saved, -⟩
  cases snapshot.symm.trans present
  obtain ⟨blockSize, filled⟩ := of_decide_eq_true moments moment later
  unfold Index.SavedAs at saved
  rw [blockSize] at saved
  rw [saved] at decoded
  exact filled (Option.some.inj decoded)

/-- After an `Fsync` a byte is overwritten, and a persist run saves the index
before it flushes. -/
def overwriteSaved : List (Event (Call × Nat) Oracle) :=
  [.spawn (.make .regular 1 [97] 0o644 0 0 1, 0)] ++ stepping 0 [{}, {}, {}] ++
    [.spawn (.write 2 [7, 8, 9] 0 2, 3)] ++ stepping 0 [{}, {}, {}, {}] ++
    [.spawn (.fsync, 7)] ++ stepping 0 [{}, oneEntry, {}, {}, {}, {}] ++
    [.spawn (.write 2 [5] 1 3, 13)] ++ stepping 0 [{}, {}, {}] ++
    [.spawn (.persist, 16)] ++ stepping 0 [{}, oneEntry, {}, {}, {}]

/-- The snapshot names a byte that is not stored in the place of one that was
synced, although no two `Save`s overlap. -/
theorem overwrite_saved_before_flush :
    ∃ pool : Pool Daemon (Call × Nat) Journal,
      Reachable ((daemonSys overwrittenConfig).annotated keepSince) Journal.extend
        (Opened overwrittenConfig.codec) anySaves pool ∧
      7 ∈ pool.record.promises ∧ ¬ pool.record.Upheld overwrittenConfig.codec pool.shared 7 := by
  have plays : (((daemonSys overwrittenConfig).annotated keepSince).run Journal.extend anySaves
      ⟨freshDaemon 8 4096 0 true, [], .opening (freshDaemon 8 4096 0 true).idx⟩
      overwriteSaved).map (fun pool =>
        (pool.record.promises, pool.shared.dir.snapshot,
          objectByte pool.shared.objects (chunkID 0) 3,
          decide (∀ called ∈ pool.record.moments[7]?, ∃ w ∈ called.log, w.ino = 2 ∧ w.ext.Covers 1),
          decide (∀ moment ∈ pool.record.moments.drop 7, moment.idx.blockSize = 4096))) =
      some ([7], some [0, 0], none, true, true) := by
    decide +kernel
  have decoded : (decodeIndex overwrittenConfig.codec 4096 [0, 0]).map (fun idx => idx.file 2) =
      some (some ⟨.regular, 3,
        some [⟨chunkID 0, 0, 1, 0⟩, ⟨chunkID 0, 2, 1, 2⟩, ⟨chunkID 0, 3, 1, 1⟩]⟩) := by
    decide +kernel
  obtain ⟨pool, ran, shown⟩ := Option.map_eq_some_iff.mp plays
  obtain ⟨promises, rest⟩ := Prod.mk.inj shown
  obtain ⟨snapshot, rest⟩ := Prod.mk.inj rest
  obtain ⟨missing, rest⟩ := Prod.mk.inj rest
  obtain ⟨returned, moments⟩ := Prod.mk.inj rest
  refine ⟨pool, .of_run (.start (freshDaemon_opened _ (by decide) 4096 0 true)) ran,
    by rw [promises]; decide, ?_⟩
  rintro ⟨called, at7, -, data, moment, present, later, saved, shows⟩
  cases snapshot.symm.trans present
  have blockSize := of_decide_eq_true moments moment later
  unfold Index.SavedAs at saved
  rw [blockSize] at saved
  rw [saved] at decoded
  have stored := shows 2 _ (Option.some.inj decoded) rfl 1 (of_decide_eq_true returned called at7)
  have byte : byteAt (storedByte pool.shared.objects)
      [⟨chunkID 0, 0, 1, 0⟩, ⟨chunkID 0, 2, 1, 2⟩, ⟨chunkID 0, 3, 1, 1⟩] 1 =
        some (objectByte pool.shared.objects (chunkID 0) 3) := rfl
  rw [missing] at byte
  unfold ShowsStored at stored
  split at stored
  next => cases stored.symm.trans byte
  next w isNewest =>
    obtain ⟨value, -, found⟩ := stored
    cases found.symm.trans byte

/-- A configuration that can be evaluated on a file whose middle extent has been
split. -/
noncomputable def splitConfig : Config :=
  ⟨100, true, .unary [wireAfter oneEntry.order ((Call.make .regular 1 [97] 0o644 0 0 1).alone 3 ++
    (Call.write 2 [1, 2, 3] 0 2).alone 4 ++ (Call.write 2 [4, 5] 3 3).alone 4 ++
    (Call.write 2 [9] 1 4).alone 3)]⟩

/-- Three writes, of which the last one splits the first, and an `Fsync`. -/
def splitSynced : List (Event (Call × Nat) Oracle) :=
  [.spawn (.make .regular 1 [97] 0o644 0 0 1, 0)] ++ stepping 0 [{}, {}, {}] ++
    [.spawn (.write 2 [1, 2, 3] 0 2, 3)] ++ stepping 0 [{}, {}, {}, {}] ++
    [.spawn (.write 2 [4, 5] 3 3, 7)] ++ stepping 0 [{}, {}, {}, {}] ++
    [.spawn (.write 2 [9] 1 4, 11)] ++ stepping 0 [{}, {}, {}] ++
    [.spawn (.fsync, 14)] ++ stepping 0 [{}, oneEntry, {}, {}, {}, {}]

/-- The snapshot has no extent for the bytes of the second write, although every
call came after the other. -/
theorem inner_split_synced :
    ∃ pool : Pool Daemon (Call × Nat) Journal,
      Reachable ((daemonSys splitConfig).annotated keepSince) Journal.extend
        (Opened splitConfig.codec) anySaves pool ∧
      14 ∈ pool.record.promises ∧ ¬ pool.record.Upheld splitConfig.codec pool.shared 14 := by
  have plays : (((daemonSys splitConfig).annotated keepSince).run Journal.extend anySaves
      ⟨freshDaemon 8 4096 0 true, [], .opening (freshDaemon 8 4096 0 true).idx⟩
      splitSynced).map (fun pool =>
        (pool.record.promises, pool.shared.dir.snapshot,
          decide (∀ called ∈ pool.record.moments[14]?, ∃ w ∈ called.log, w.ino = 2 ∧
            w.ext.Covers 3),
          decide (∀ moment ∈ pool.record.moments.drop 14,
            moment.idx.blockSize = 4096 ∧ (moment.latest 2 3).isSome))) =
      some ([14], some [], true, true) := by
    decide +kernel
  have decoded : (decodeIndex splitConfig.codec 4096 []).map (fun idx => idx.file 2) =
      some (some ⟨.regular, 5,
        some [⟨chunkID 0, 0, 1, 0⟩, ⟨chunkID 0, 2, 1, 2⟩, ⟨chunkID 0, 2, 1, 2⟩,
          ⟨chunkID 0, 5, 1, 1⟩]⟩) := by
    decide +kernel
  obtain ⟨pool, ran, shown⟩ := Option.map_eq_some_iff.mp plays
  obtain ⟨promises, rest⟩ := Prod.mk.inj shown
  obtain ⟨snapshot, rest⟩ := Prod.mk.inj rest
  obtain ⟨returned, moments⟩ := Prod.mk.inj rest
  refine ⟨pool, .of_run (.start (freshDaemon_opened _ (by decide) 4096 0 true)) ran,
    by rw [promises]; decide, ?_⟩
  rintro ⟨called, at14, -, data, moment, present, later, saved, shows⟩
  cases snapshot.symm.trans present
  obtain ⟨blockSize, written⟩ := of_decide_eq_true moments moment later
  unfold Index.SavedAs at saved
  rw [blockSize] at saved
  rw [saved] at decoded
  have stored := shows 2 _ (Option.some.inj decoded) rfl 3 (of_decide_eq_true returned called at14)
  obtain ⟨w, newest⟩ := Option.isSome_iff_exists.mp written
  rw [newest] at stored
  obtain ⟨value, -, found⟩ := stored
  cases found

end Fusey
