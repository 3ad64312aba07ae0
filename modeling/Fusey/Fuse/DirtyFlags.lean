import Fusey.Fuse.Ledger
import Fusey.Fuse.Saving

/-!
Contract: what the two dirty flags of the index say about the persisted copies.

Owns:
- a lowered flag as a promise: the snapshot decodes to the index, or the object
  under the index key does up to access times;
- which steps keep the promises: all of them, if no mutator changes the index
  between a snapshot and the mark it leads to, and no two `Save`s meet at the
  temporary file.

The two promises are kept independently of each other.
-/

set_option autoImplicit false

namespace Fusey

open Interleaving

/-! ### The promises -/

/-- The bytes decode to the index; the flags are not persisted. -/
def Index.SavedAs (codec : CborCodec) (idx : Index) (data : Bytes) : Prop :=
  decodeIndex codec idx.blockSize data = some idx.cleaned

/-- The bytes decode to the index up to access times. -/
def Index.StoredAs (codec : CborCodec) (idx : Index) (data : Bytes) : Prop :=
  ∃ decoded, decodeIndex codec idx.blockSize data = some decoded ∧
    decoded.sansAtimes = idx.sansAtimes

/-- `IsDirty` is false only if the snapshot is the index. -/
def Daemon.LocalClean (codec : CborCodec) (d : Daemon) : Prop :=
  d.idx.dirty = false → ∃ data, d.dir.snapshot = some data ∧ d.idx.SavedAs codec data

/-- The object under the index key is the index up to access times. -/
def Daemon.Stored (codec : CborCodec) (d : Daemon) : Prop :=
  ∃ data, d.objects.get indexKey = some data ∧ d.idx.StoredAs codec data

/-- `IsRemoteDirty` is false only if the stored index is the index. -/
def Daemon.RemoteClean (codec : CborCodec) (d : Daemon) : Prop :=
  d.idx.remoteDirty = false → d.Stored codec

theorem Index.SavedAs.congr {codec : CborCodec} {idx idx' : Index} {data : Bytes}
    (saved : idx.SavedAs codec data) (same : idx'.cleaned = idx.cleaned) :
    idx'.SavedAs codec data := by
  have blockSize : idx'.cleaned.blockSize = idx.cleaned.blockSize := congrArg Index.blockSize same
  change decodeIndex codec idx'.cleaned.blockSize data = some idx'.cleaned
  rw [blockSize, same]
  exact saved

theorem Index.StoredAs.congr {codec : CborCodec} {idx idx' : Index} {data : Bytes}
    (stored : idx.StoredAs codec data) (same : idx'.sansAtimes = idx.sansAtimes) :
    idx'.StoredAs codec data := by
  have blockSize : idx'.sansAtimes.blockSize = idx.sansAtimes.blockSize :=
    congrArg Index.blockSize same
  obtain ⟨decoded, decodes, agrees⟩ := stored
  refine ⟨decoded, ?_, agrees.trans same.symm⟩
  change decodeIndex codec idx'.sansAtimes.blockSize data = some decoded
  rw [blockSize]
  exact decodes

/-- What is saved is the index in particular up to access times. -/
theorem Index.SavedAs.storedAs {codec : CborCodec} {idx : Index} {data : Bytes}
    (saved : idx.SavedAs codec data) : idx.StoredAs codec data :=
  ⟨idx.cleaned, saved, idx.sansAtimes_cleaned⟩

/-- The index after the mutator that a call is about to issue, if it is. -/
def Call.outcome (d : Daemon) (c : Call) : Index :=
  match c.effect with
  | .mutate m =>
      match m.apply d.idx with
      | .ok idx => idx
      | .error _ => d.idx
  | _ => d.idx

section Steps

variable {codec : CborCodec} {cfg : Config} {d d' : Daemon} {c c' u : Call} {o : Oracle}
  {a : Answer}

/-- What a step does to the index: what its mutator does, or it lowers a
flag. -/
theorem Call.idx_of_apply (applied : d.apply c.effect o = some (d', a)) :
    d'.idx = c.outcome d ∨ (c.effect = .markClean ∧ d'.idx = d.idx.markClean) ∨
      c.effect = .markRemoteClean ∧ d'.idx = d.idx.markRemoteClean := by
  rcases Daemon.apply_idx applied with same | ⟨m, asks, done, -⟩ | marked | marked
  · left
    rw [same]
    unfold Call.outcome
    split
    next m asks =>
      rw [asks] at applied
      split
      next idx done =>
        rcases Daemon.apply_mutate applied with ⟨idx', done', rfl, -⟩ | ⟨rfl, failed⟩
        · cases done.symm.trans done'
          exact same.symm
        · simp only [Daemon.apply, Daemon.mutate, done, Option.some.injEq, Prod.mk.injEq] at applied
          rw [← applied.1]
      next => rfl
    next => rfl
  · left
    unfold Call.outcome
    rw [asks]
    simp only [done]
  · exact Or.inr (Or.inl marked)
  · exact Or.inr (Or.inr marked)

theorem Call.cleaned_of_apply (applied : d.apply c.effect o = some (d', a)) :
    d'.idx.cleaned = (c.outcome d).cleaned := by
  rcases Call.idx_of_apply applied with same | ⟨asks, same⟩ | ⟨asks, same⟩
  · rw [same]
  · rw [same]
    unfold Call.outcome
    rw [asks]
    rfl
  · rw [same]
    unfold Call.outcome
    rw [asks]
    rfl

theorem Call.sansAtimes_of_apply (applied : d.apply c.effect o = some (d', a)) :
    d'.idx.sansAtimes = (c.outcome d).sansAtimes := by
  rw [← Index.sansAtimes_cleaned d'.idx, Call.cleaned_of_apply applied, Index.sansAtimes_cleaned]

/-- A call that is not about to issue a mutator leaves the index. -/
theorem Call.outcome_eq (reads : ∀ m, c.effect ≠ .mutate m) : c.outcome d = d.idx := by
  unfold Call.outcome
  split
  next m asks => exact absurd asks (reads m)
  next => rfl

/-! ### The local promise -/

/-- Between the snapshot and `MarkClean`. -/
def Call.IsSaving : Call → Prop
  | .saveOpen .. | .saveWrite .. | .saveRename _ | .saveMark _ => True
  | _ => False

instance (c : Call) : Decidable c.IsSaving := by
  induction c using Call.casesOn <;> dsimp only [Call.IsSaving] <;> infer_instance

theorem Call.Saving.of_not_saving {P : Bytes → Prop} (outside : ¬ c.IsSaving) : c.Saving P d := by
  cases c <;> first | trivial | exact absurd trivial outside

theorem Daemon.LocalClean.of_apply (clean : d.LocalClean codec) (neat : d.dir.Neat)
    (saving : c.Saving (d.idx.SavedAs codec) d) (applied : d.apply c.effect o = some (d', a)) :
    d'.LocalClean codec := by
  have moved := saving.snapshot neat applied
  intro lowered
  have promised : d.idx.dirty = false ∧ d'.idx.cleaned = d.idx.cleaned →
      ∃ data, d'.dir.snapshot = some data ∧ d'.idx.SavedAs codec data := by
    rintro ⟨lowered, same⟩
    rcases moved with kept | ⟨-, data, -, -, saved, stored⟩
    · obtain ⟨data, stored, saved⟩ := clean lowered
      exact ⟨data, kept.trans stored, saved.congr same⟩
    · exact ⟨data, stored, saved.congr same⟩
  rcases Daemon.apply_idx applied with same | ⟨m, asks, done, -⟩ | ⟨asks, same⟩ | ⟨asks, same⟩
  · rw [same] at lowered
    exact promised ⟨lowered, congrArg Index.cleaned same⟩
  · rcases Mutation.flags done with same | ⟨raised, -⟩
    · rw [same] at lowered
      exact promised ⟨lowered, congrArg Index.cleaned same⟩
    · rw [raised] at lowered
      cases lowered
  · -- Only a `Save` that has renamed its file marks the index clean.
    cases c <;> cases asks
    obtain ⟨data, saved, stored⟩ := saving
    have unmoved : d'.dir = d.dir := Call.dir_of_apply id applied
    exact ⟨data, by rw [unmoved]; exact stored, saved.congr (by rw [same]; rfl)⟩
  · rw [same] at lowered
    exact promised ⟨lowered, by rw [same]; rfl⟩

theorem Call.Saving.advance (saving : c.Saving (d.idx.SavedAs cfg.codec) d)
    (restorable : d.idx.Restorable) (applied : d.apply c.effect o = some (d', a))
    (follows : c.Follows cfg a c')
    (decodable : ∀ saver, c = .save saver → (d.idx.snapshot o.order).Decodable) :
    c'.Saving (d'.idx.SavedAs cfg.codec) d' := by
  by_cases inside : c'.IsSaving
  · have kept : d'.idx.cleaned = d.idx.cleaned := by
      rw [Call.cleaned_of_apply applied, Call.outcome_eq]
      intro m asks
      cases follows <;> first | exact inside.elim | cases asks
    refine (saving.of_follows applied follows fun saver data isSave lists encoded => ?_).mono
      fun data saved => saved.congr kept
    exact restorable.decodes lists (decodable saver isSave) encoded
  · exact .of_not_saving inside

theorem Call.Saving.beside (other : u.Saving (d.idx.SavedAs codec) d) (neat : d.dir.Neat)
    (saving : c.Saving (d.idx.SavedAs codec) d) (applied : d.apply c.effect o = some (d', a))
    (apart : u.IsWritingTmp → ¬ c.TouchesTmp)
    (quiet : u.IsSaving → (c.outcome d).cleaned = d.idx.cleaned) :
    u.Saving (d'.idx.SavedAs codec) d' := by
  by_cases inside : u.IsSaving
  · have kept := (Call.cleaned_of_apply applied).trans (quiet inside)
    exact (other.of_other neat saving applied apart).mono fun data saved => saved.congr kept
  · exact .of_not_saving inside

/-! ### The remote promise -/

/-- What a persist run has brought about once it has marshalled the index. -/
def Call.Storing (codec : CborCodec) (d : Daemon) : Call → Prop
  | .persistPut data => d.idx.StoredAs codec data
  | .persistMark => d.Stored codec
  | _ => True

/-- Between the snapshot of a persist run and `MarkRemoteClean`. -/
def Call.IsStoring : Call → Prop
  | .persistPut _ | .persistMark => True
  | _ => False

instance (c : Call) : Decidable c.IsStoring := by
  induction c using Call.casesOn <;> dsimp only [Call.IsStoring] <;> infer_instance

theorem Call.Storing.of_not_storing (outside : ¬ c.IsStoring) : c.Storing codec d := by
  cases c <;> first | trivial | exact absurd trivial outside

/-- What is stored stays so while the index keeps all but its access times. -/
theorem Daemon.Stored.of_apply (stored : d.Stored codec)
    (active : ∃ seq, d.cs.activeID = chunkID seq)
    (storing : c.Storing codec d) (applied : d.apply c.effect o = some (d', a))
    (kept : d'.idx.sansAtimes = d.idx.sansAtimes) : d'.Stored codec := by
  obtain ⟨data, object, isIndex⟩ := stored
  rcases Daemon.apply_indexKey active applied with same | ⟨data', asks, object'⟩
  · exact ⟨data, same.trans object, isIndex.congr kept⟩
  · cases c <;> cases asks
    exact ⟨data', object', Index.StoredAs.congr storing kept⟩

theorem Daemon.RemoteClean.of_apply (clean : d.RemoteClean codec)
    (active : ∃ seq, d.cs.activeID = chunkID seq) (storing : c.Storing codec d)
    (applied : d.apply c.effect o = some (d', a)) : d'.RemoteClean codec := by
  intro lowered
  rcases Daemon.apply_idx applied with same | ⟨m, asks, done, -⟩ | ⟨asks, same⟩ | ⟨asks, same⟩
  · rw [same] at lowered
    exact (clean lowered).of_apply active storing applied (congrArg Index.sansAtimes same)
  · rcases Mutation.flags done with same | ⟨-, raised | ⟨kept, same⟩⟩
    · rw [same] at lowered
      exact (clean lowered).of_apply active storing applied (congrArg Index.sansAtimes same)
    · rw [raised] at lowered
      cases lowered
    · rw [kept] at lowered
      exact (clean lowered).of_apply active storing applied same
  · rw [same] at lowered
    exact (clean lowered).of_apply active storing applied (by rw [same]; rfl)
  · -- Only a persist run that has stored the index marks it clean.
    cases c <;> cases asks
    exact Daemon.Stored.of_apply storing active storing applied (by rw [same]; rfl)

theorem Call.Storing.of_follows (storing : c.Storing cfg.codec d) (restorable : d.idx.Restorable)
    (active : ∃ seq, d.cs.activeID = chunkID seq) (applied : d.apply c.effect o = some (d', a))
    (follows : c.Follows cfg a c')
    (decodable : c = .persistMarshal → (d.idx.snapshot o.order).Decodable) :
    c'.Storing cfg.codec d' := by
  cases follows
  case persistPut snap data encoded =>
    obtain ⟨rfl, lists, rfl⟩ := Daemon.apply_snapshot applied
    exact Index.SavedAs.storedAs (restorable.decodes lists (decodable rfl) encoded)
  case persistMark data =>
    have kept : d'.idx = d.idx := by
      rcases Daemon.apply_idx applied with same | ⟨m, asks, -⟩ | ⟨asks, -⟩ | ⟨asks, -⟩
      · exact same
      all_goals cases asks
    have object : d'.objects.get indexKey = some data := by
      rcases Daemon.apply_store applied with moves | ⟨data', asks, rfl⟩
      · simp only [Call.effect, Daemon.apply, Daemon.putRaw, Option.some.injEq] at applied
        split at applied <;> cases applied
        exact GoMap.get_set_self _ _ _
      · cases asks
        exact GoMap.get_set_self _ _ _
    exact ⟨data, object, Index.StoredAs.congr storing (congrArg Index.sansAtimes kept)⟩
  case readFirst | readNext =>
    unfold nextRead
    split <;> trivial
  all_goals trivial

theorem Call.Storing.of_other (other : u.Storing codec d)
    (active : ∃ seq, d.cs.activeID = chunkID seq)
    (storing : c.Storing codec d) (applied : d.apply c.effect o = some (d', a))
    (quiet : u.IsStoring → (c.outcome d).sansAtimes = d.idx.sansAtimes) : u.Storing codec d' := by
  by_cases inside : u.IsStoring
  · have kept := (Call.sansAtimes_of_apply applied).trans (quiet inside)
    cases u <;> try trivial
    case persistPut data => exact Index.StoredAs.congr other kept
    case persistMark => exact Daemon.Stored.of_apply other active storing applied kept
  · exact .of_not_storing inside

/-! ### Both promises -/

/-- What a call stores under the index key has property `P`. -/
def Call.PutsOnly (P : Bytes → Prop) : Call → Prop
  | .persistPut data => P data
  | _ => True

/-- A daemon that keeps both promises, and whose stored index can be loaded. -/
structure Daemon.Honest (codec : CborCodec) (size : Int) (d : Daemon) : Prop where
  sound : d.Sound
  blockSize : d.idx.blockSize = size
  neat : d.dir.Neat
  legible : ∀ data, d.objects.get indexKey = some data → Legible codec data
  localClean : d.LocalClean codec
  remoteClean : d.RemoteClean codec

/-- A call that will keep them. -/
structure Call.Honest (codec : CborCodec) (d : Daemon) (c : Call) : Prop where
  sound : c.Sound
  saving : c.Saving (d.idx.SavedAs codec) d
  storing : c.Storing codec d
  puts : c.PutsOnly (Legible codec)

section Puts

variable {P Q : Bytes → Prop}

/-- What is stored under the index key keeps a property that the calls keep. -/
theorem Call.PutsOnly.indexObject (puts : c.PutsOnly P)
    (active : ∃ seq, d.cs.activeID = chunkID seq)
    (before : ∀ data, d.objects.get indexKey = some data → P data)
    (applied : d.apply c.effect o = some (d', a)) :
    ∀ data, d'.objects.get indexKey = some data → P data := by
  intro data stored
  rcases Daemon.apply_indexKey active applied with same | ⟨data', asks, now⟩
  · exact before data (same ▸ stored)
  · cases now.symm.trans stored
    cases c <;> cases asks
    exact puts

theorem Call.PutsOnly.mono (puts : c.PutsOnly P) (weaker : ∀ data, P data → Q data) :
    c.PutsOnly Q := by
  cases c <;> try trivial
  case persistPut data => exact weaker data puts

theorem Call.PutsOnly.of_follows (applied : d.apply c.effect o = some (d', a))
    (follows : c.Follows cfg a c')
    (taken : ∀ data, d.idx.Lists o.order →
      encodeSnapshot cfg.codec (d.idx.snapshot o.order) = some data → P data) :
    c'.PutsOnly P := by
  cases follows
  case persistPut snap data encoded =>
    obtain ⟨-, lists, rfl⟩ := Daemon.apply_snapshot applied
    exact taken data lists encoded
  case readFirst | readNext =>
    unfold nextRead
    split <;> trivial
  all_goals trivial

end Puts

variable {size : Int}

theorem Daemon.Honest.of_apply (honest : d.Honest codec size) (mine : c.Honest codec d)
    (applied : d.apply c.effect o = some (d', a)) : d'.Honest codec size where
  sound := honest.sound.of_apply mine.sound applied
  blockSize := (Daemon.blockSize_of_apply applied).trans honest.blockSize
  neat := Daemon.neat_of_apply honest.neat applied
  legible := mine.puts.indexObject honest.sound.active honest.legible applied
  localClean := honest.localClean.of_apply honest.neat mine.saving applied
  remoteClean := honest.remoteClean.of_apply honest.sound.active mine.storing applied

/-- The next step takes a snapshot. -/
def Call.IsSnapshotting : Call → Prop
  | .save _ | .persistMarshal => True
  | _ => False

instance (c : Call) : Decidable c.IsSnapshotting := by
  induction c using Call.casesOn <;> dsimp only [Call.IsSnapshotting] <;> infer_instance

/-- The next step opens the temporary file. -/
def Call.IsOpening : Call → Prop
  | .saveOpen .. => True
  | _ => False

instance (c : Call) : Decidable c.IsOpening := by
  induction c using Call.casesOn <;> dsimp only [Call.IsOpening] <;> infer_instance

theorem Call.Honest.of_follows (mine : c.Honest cfg.codec d) (honest : d.Honest cfg.codec size)
    (applied : d.apply c.effect o = some (d', a)) (follows : c.Follows cfg a c')
    (decodable : c.IsSnapshotting → (d.idx.snapshot o.order).Decodable) :
    c'.Honest cfg.codec d' where
  sound := mine.sound.of_follows honest.sound applied follows
  saving := mine.saving.advance honest.sound.restorable applied follows fun _ isSave =>
    decodable (isSave ▸ trivial)
  storing := mine.storing.of_follows honest.sound.restorable honest.sound.active applied follows
    fun isMarshal => decodable (isMarshal ▸ trivial)
  puts := .of_follows applied follows fun _ lists encoded =>
    honest.sound.restorable.legible lists encoded

theorem Call.Honest.of_other (other : u.Honest codec d) (honest : d.Honest codec size)
    (mine : c.Honest codec d) (applied : d.apply c.effect o = some (d', a))
    (apart : u.IsWritingTmp → ¬ c.TouchesTmp)
    (quiet : u.IsSaving → (c.outcome d).cleaned = d.idx.cleaned)
    (still : u.IsStoring → (c.outcome d).sansAtimes = d.idx.sansAtimes) : u.Honest codec d' where
  sound := other.sound
  saving := other.saving.beside honest.neat mine.saving applied apart quiet
  storing := other.storing.of_other honest.sound.active mine.storing applied still
  puts := other.puts

end Steps

/-! ### Whole runs -/

/-- Mutators of the index, with extents of minted chunks, beside the calls of a
mounted filesystem. -/
def Call.IsIndexCall : Call → Prop
  | .mutate m => m.Brings fun _ => MintedExtent
  | c => c.IsRequest

theorem Call.IsIndexCall.honest {c : Call} (isCall : c.IsIndexCall) (codec : CborCodec)
    (d : Daemon) : c.Honest codec d := by
  cases c <;> first
    | exact ⟨trivial, trivial, trivial, trivial⟩
    | exact ⟨isCall, trivial, trivial, trivial⟩
    | exact isCall.elim

/-- When a call may go on: the snapshot it takes is within the limits of the
decoder, no other `Save` has the temporary file that it opens, and while a call
is between a snapshot and its mark no mutator changes what was persisted. -/
def Call.MayGoOn {M : Type} (pool : Pool Daemon Call M) (o : Oracle) (c : Call) : Prop :=
  (c.IsSnapshotting → (pool.shared.idx.snapshot o.order).Decodable) ∧
    (c.IsOpening → ∀ u ∈ pool.threads, ¬ u.IsWritingTmp) ∧
    ((∃ u ∈ pool.threads, u.IsSaving) →
      (c.outcome pool.shared).cleaned = pool.shared.idx.cleaned) ∧
    ((∃ u ∈ pool.threads, u.IsStoring) →
      (c.outcome pool.shared).sansAtimes = pool.shared.idx.sansAtimes)

instance {M : Type} (pool : Pool Daemon Call M) (o : Oracle) (c : Call) :
    Decidable (c.MayGoOn pool o) := by
  unfold Call.MayGoOn
  infer_instance

/-- Calls of a kind start at any time, and go on when they may. -/
def undisturbed {M : Type} (mayStart : Call → Prop) (pool : Pool Daemon Call M) :
    Event Call Oracle → Prop
  | .spawn c => mayStart c
  | .run i o => ∀ c ∈ pool.threads[i]?, c.MayGoOn pool o

instance {M : Type} (mayStart : Call → Prop) [DecidablePred mayStart] (pool : Pool Daemon Call M)
    (event : Event Call Oracle) : Decidable (undisturbed mayStart pool event) := by
  induction event using Event.casesOn <;> dsimp only [undisturbed] <;> infer_instance

theorem Call.isWritingTmp_of_resume {cfg : Config} {c c' : Call} {a : Answer}
    (continues : c.resume cfg a = .inl c') (writing : c'.IsWritingTmp) :
    c.IsOpening ∨ c.IsWritingTmp := by
  have follows := Call.follows_of_resume continues
  cases follows <;> first
    | exact writing.elim
    | exact Or.inl trivial
    | exact Or.inr trivial
    | (unfold nextRead at writing; split at writing <;> exact writing.elim)

theorem Daemon.Honest.of_reachable {cfg : Config} {size : Int} {d : Daemon}
    (honest : d.Honest cfg.codec size) {pool : Pool Daemon Call Unit}
    (reached : Reachable (daemonSys cfg) noRecord (· = ⟨d, [], ()⟩)
      (undisturbed Call.IsIndexCall) pool) :
    pool.shared.Honest cfg.codec size := by
  have one := Reachable.exclusive (fun c : Call => decide c.IsWritingTmp) ?_ ?_ ?_ reached
  refine (Reachable.local_invariant (fun d _ => d.Honest cfg.codec size)
    (fun d _ c => c.Honest cfg.codec d) ?_ ?_ ?_ one).1
  · rintro pool rfl
    exact ⟨honest, fun _ member => by cases member⟩
  · exact fun pool c _ admitted => Call.IsIndexCall.honest admitted.2 _ _
  · rintro d mark before c after o d' a honest each ⟨single, admitted⟩ applied
    have mine := each c (by simp)
    obtain ⟨decodable, opens, quiet, still⟩ := admitted c (getElem?_moving before c after)
    refine ⟨honest.of_apply mine applied, fun c' continues => ?_, fun u member => ?_⟩
    · exact mine.of_follows honest applied (Call.follows_of_resume continues) decodable
    · have inPool := mem_of_mem_others c member
      refine (each u inPool).of_other honest mine applied (fun writing touches => ?_)
        (fun saving => quiet ⟨u, inPool, saving⟩) fun storing => still ⟨u, inPool, storing⟩
      -- Either `c` is about to open the file, or it has it itself.
      by_cases opening : c.IsOpening
      · exact opens opening u inPool writing
      · have mineToo : decide c.IsWritingTmp = true := by
          cases c <;> first | exact touches.elim | rfl | exact absurd trivial opening
        have alone := not_critical_of_count single mineToo member
        exact of_decide_eq_false alone writing
  · rintro pool rfl
    exact Nat.zero_le _
  · intro pool c isCall
    left
    cases c <;> first | rfl | exact isCall.elim
  · intro d m before c after o a c' admitted continues writing
    rcases Call.isWritingTmp_of_resume continues (of_decide_eq_true writing) with opening | already
    · right
      intro u member
      exact decide_eq_false ((admitted c (getElem?_moving before c after)).2.1 opening u
        (mem_of_mem_others c member))
    · exact Or.inl (decide_eq_true already)

end Fusey
