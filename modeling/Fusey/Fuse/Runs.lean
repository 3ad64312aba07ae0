import Fusey.Fuse.Calls

/-!
Contract: runs of a daemon under any interleaving of its calls.

Owns:
- which calls the kernel and the persist loop issue;
- that in every run the index stays one that its wire form restores: every
  extent lies in a chunk that the chunk store minted.
-/

set_option autoImplicit false

namespace Fusey

open GoInt Interleaving

/-- The calls that arrive from outside: the FUSE operations, with `int64`
offsets, and the persist function. -/
def Call.IsRequest : Call → Prop
  | .make .. | .link .. | .lookup .. | .unlink .. | .rmdir .. | .rename .. | .openFile _
  | .setattr .. | .setxattr .. | .removexattr .. | .fsync | .persist => True
  | .read _ _ off _ | .write _ _ off _ => IsInt64 off
  | _ => False

instance (c : Call) : Decidable c.IsRequest := by
  induction c using Call.casesOn <;> dsimp only [Call.IsRequest] <;> infer_instance

/-- Only requests start. -/
def requestsOnly {M : Type} (_ : Pool Daemon Call M) : Event Call Oracle → Prop
  | .spawn c => c.IsRequest
  | .run _ _ => True

instance {M : Type} (pool : Pool Daemon Call M) (event : Event Call Oracle) :
    Decidable (requestsOnly pool event) := by
  induction event using Event.casesOn <;> dsimp only [requestsOnly] <;> infer_instance

/-- Nothing is recorded. -/
def noRecord (_ : Unit) (_ : Call) (_ : Answer) : Unit := ()

/-- A request that runs to its end, in `steps` steps without a fault. -/
def Call.alone (c : Call) (steps : Nat) : List (Event Call Oracle) :=
  .spawn c :: List.replicate steps (.run 0 {})

/-- A bare mutator is only ever a call of its own. -/
theorem Call.Follows.ne_mutate {cfg : Config} {c c' : Call} {a : Answer}
    (follows : c.Follows cfg a c') (m : Mutation) : c' ≠ .mutate m := by
  cases follows
  case readFirst | readNext =>
    unfold nextRead
    split <;> exact Call.noConfusion
  all_goals exact Call.noConfusion

/-! ### Restorable indices -/

/-- The index is restorable and new chunks have minted names within the integer
range. -/
structure Daemon.Sound (d : Daemon) : Prop where
  restorable : d.idx.Restorable
  active : ∃ seq, d.cs.activeID = chunkID seq
  chunkSize : d.cs.maxChunkSize < 9223372036854775808

/-- The values a suspended call brings to the index are in range. -/
def Call.Sound : Call → Prop
  | .write _ _ off _ | .writeSpace _ _ off _ _ | .writeAppend _ _ off _ => IsInt64 off
  | .writeRecord _ _ ext _ => ext.InRange ∧ MintedExtent ext
  | .mutate m => m.Brings fun _ => MintedExtent
  | _ => True

theorem Call.IsRequest.sound {c : Call} (request : c.IsRequest) : c.Sound := by
  cases c <;> trivial

theorem freshDaemon_sound {maxChunkSize : Int} (small : maxChunkSize < 9223372036854775808)
    (blockSize now : Int) (cached : Bool) :
    (freshDaemon maxChunkSize blockSize now cached).Sound where
  restorable := Index.new_restorable blockSize now
  active := ⟨0, by cases cached <;> rfl⟩
  chunkSize := by cases cached <;> exact small

theorem ChunkStore.Move.minted {seals : Bool} {before after : Objects × ChunkStore}
    (move : ChunkStore.Move seals before after) (active : ∃ seq, before.2.activeID = chunkID seq) :
    ∃ seq, after.2.activeID = chunkID seq := by
  cases move with
  | put objects cs dirty => exact active
  | rotateEmpty objects cs _ empty => exact ⟨cs.nextSeq, rfl⟩
  | rotateStored objects cs cached stored => exact ⟨cs.nextSeq, rfl⟩
  | push objects cs data fileOffset => exact active
  | recache objects cs enabled stored => exact active

/-- Moves put under chunk IDs only. -/
theorem ChunkStore.Moves.others {seals : Bool} {before after : Objects × ChunkStore}
    (moves : ChunkStore.Moves seals before after) (active : ∃ seq, before.2.activeID = chunkID seq)
    {key : Key} (notChunk : ∀ seq, key ≠ chunkID seq) :
    (∃ seq, after.2.activeID = chunkID seq) ∧ after.1.get key = before.1.get key := by
  induction moves with
  | refl => exact ⟨active, rfl⟩
  | tail _ move inductionHypothesis =>
      obtain ⟨minted, same⟩ := inductionHypothesis
      refine ⟨move.minted minted, Eq.trans ?_ same⟩
      cases move with
      | put objects cs dirty =>
          obtain ⟨seq, isActive⟩ := minted
          exact GoMap.get_set_ne _ _ fun isIt => notChunk seq (isIt.trans isActive)
      | rotateEmpty objects cs allowed empty => rfl
      | rotateStored objects cs cached stored => rfl
      | push objects cs data fileOffset => rfl
      | recache objects cs enabled stored => rfl

/-- Only `PutRaw` changes the object under the index key. -/
theorem Daemon.apply_indexKey {d d' : Daemon} {e : Effect} {o : Oracle} {a : Answer}
    (active : ∃ seq, d.cs.activeID = chunkID seq) (applied : d.apply e o = some (d', a)) :
    d'.objects.get indexKey = d.objects.get indexKey ∨
      ∃ data, e = .putRaw data ∧ d'.objects.get indexKey = some data := by
  rcases Daemon.apply_store applied with moves | ⟨data, isPut, rfl⟩
  · exact Or.inl (moves.others active fun seq => (chunkID_ne_indexKey seq).symm).2
  · exact Or.inr ⟨data, isPut, GoMap.get_set_self _ _ _⟩

/-- Nothing a call does besides its mutators touches what makes an index
restorable. -/
theorem Index.Restorable.of_apply {d d' : Daemon} {e : Effect} {o : Oracle} {a : Answer}
    (restorable : d.idx.Restorable) (applied : d.apply e o = some (d', a))
    (brings : ∀ m, e = .mutate m → m.Brings fun _ => MintedExtent) : d'.idx.Restorable := by
  rcases Daemon.apply_idx applied with same | ⟨m, rfl, done, -⟩ | ⟨-, same⟩ | ⟨-, same⟩
  · rw [same]
    exact restorable
  · exact Mutation.restorable done restorable (brings m rfl)
  · rw [same]
    exact ⟨restorable.dirs, restorable.numbered, restorable.minted⟩
  · rw [same]
    exact ⟨restorable.dirs, restorable.numbered, restorable.minted⟩

/-- A size that `Setattr` passes on is an `int64`. -/
theorem SetAttrIn.isInt64_size (input : SetAttrIn) {size : Int}
    (given : size ∈ input.change.size) : IsInt64 size := by
  rw [Option.mem_def, SetAttrIn.change] at given
  dsimp only at given
  split_ifs at given
  rw [← Option.some.inj given]
  exact wrap64_range _

/-- What a sound call asks of the index. -/
theorem Call.Sound.brings {c : Call} (sound : c.Sound) {m : Mutation}
    (asks : c.effect = .mutate m) : m.Brings fun _ => MintedExtent := by
  cases c <;> cases asks <;> try trivial
  case setattr ino input now => exact fun size given => input.isInt64_size given

theorem Daemon.Sound.of_apply {d d' : Daemon} (sound : d.Sound) {c : Call} (callSound : c.Sound)
    {o : Oracle} {a : Answer} (applied : d.apply c.effect o = some (d', a)) : d'.Sound := by
  have restorable := sound.restorable.of_apply applied fun m asks => callSound.brings asks
  rcases Daemon.apply_store applied with moves | ⟨data, -, rfl⟩
  · have kept : (∃ seq, d'.cs.activeID = chunkID seq) ∧
        d'.cs.maxChunkSize = d.cs.maxChunkSize := by
      refine Relation.ReflTransGen.rec (motive := fun after _ =>
        (∃ seq, after.2.activeID = chunkID seq) ∧ after.2.maxChunkSize = d.cs.maxChunkSize)
        ⟨sound.active, rfl⟩ ?_ moves
      rintro middle after - move ⟨minted, same⟩
      exact ⟨move.minted minted, move.maxChunkSize.trans same⟩
    exact ⟨restorable, kept.1, lt_of_eq_of_lt kept.2 sound.chunkSize⟩
  · exact ⟨restorable, sound.active, sound.chunkSize⟩

theorem Call.Sound.of_follows {cfg : Config} {d d' : Daemon} (sound : d.Sound) {c c' : Call}
    (callSound : c.Sound) {o : Oracle} {a : Answer}
    (applied : d.apply c.effect o = some (d', a)) (follows : c.Follows cfg a c') : c'.Sound := by
  have after := sound.of_apply callSound applied
  cases follows
  case writeSpace => exact callSound
  case writeInside => exact callSound
  case writeAppend => exact callSound
  case writeRecord ino data off now ext =>
    obtain ⟨start, -, -, rfl, fits⟩ := Daemon.apply_append applied
    have small := sound.chunkSize
    exact ⟨⟨callSound, by simp only; omega, by simp only; omega, by simp only; omega⟩,
      after.active⟩
  case readFirst | readNext =>
    unfold nextRead
    split <;> trivial
  all_goals trivial

/-- Every daemon that requests reach from a sound one is sound. -/
theorem Daemon.Sound.of_reachable {M : Type} {note : M → Call → Answer → M} {cfg : Config}
    {start : Pool Daemon Call M → Prop} {admits : Pool Daemon Call M → Event Call Oracle → Prop}
    (initially : ∀ pool, start pool → pool.shared.Sound ∧ ∀ c ∈ pool.threads, c.Sound)
    (spawned : ∀ pool c, admits pool (.spawn c) → c.Sound) {pool : Pool Daemon Call M}
    (reached : Reachable (daemonSys cfg) note start admits pool) :
    pool.shared.Sound ∧ ∀ c ∈ pool.threads, c.Sound := by
  refine Reachable.local_invariant (fun d _ => d.Sound) (fun _ _ c => c.Sound)
    initially (fun pool c _ => spawned pool c) ?_ reached
  intro d m before c after o d' a sound each _ applied
  have callSound := each c (by simp)
  refine ⟨sound.of_apply callSound applied, fun c' continues => ?_, fun u member => ?_⟩
  · exact callSound.of_follows sound applied (Call.follows_of_resume continues)
  · refine each u ?_
    rcases List.mem_append.mp member with first | last
    · exact List.mem_append_left _ first
    · exact List.mem_append_right _ (List.mem_cons_of_mem _ last)

end Fusey
