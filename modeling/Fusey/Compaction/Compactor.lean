import Fusey.GoLib.Interleaving
import Fusey.Index.Persist

/-!
Contract: `Compactor.Compact` (`internal/compaction/compactor.go`) as the
sequence of its store operations.

Owns:
- target selection, packing, the remap table and the put/persist/delete order,
  over any backing store and any persist function;
- which extents a run moves, and where to: exactly the live extents of its
  targets, each to a place in a `compacted-*` chunk that holds what was read.

The orphan fraction is compared in floating point; `heavy total live` stands for
`float64(total-live)/float64(total) >= threshold` and may be any predicate. Does
not own what becomes of the bytes.
-/

set_option autoImplicit false

namespace Fusey

open GoInt

namespace Compaction

/-- `fmt.Sprintf("compacted-%d-%d", nano, seq)`. -/
def compactedID (nano seq : Nat) : Key :=
  "compacted-".toList ++ (GoFmt.decimal nano ++ '-' :: GoFmt.decimal seq)

/-- The fields of `Compactor` that `Compact` decides with, and what
`time.Now().UnixNano()` returns for each output chunk. -/
structure Params where
  heavy : Int → Int → Bool
  chunkSize : Int
  clock : Nat → Nat

/-- A threshold of one half and output chunks of eight bytes. -/
def halfOrphaned : Params := ⟨fun total live => decide (total ≤ 2 * (total - live)), 8, id⟩

/-- `outputChunk`. -/
structure OutputChunk where
  id : Key
  buf : Bytes
deriving DecidableEq

/-- The packing loop's variables; `current` is the last of `outputs`. -/
structure Packing where
  earlier : List OutputChunk
  current : OutputChunk
  seq : Nat
  remap : GoMap (Key × Int) Extent

/-- What the environment decides about a step: whether the store answers, how a
`Put` or `Delete` ends, whether the local disk accepts a file, and the orders of
a listing and of a snapshot's directory entries. -/
structure Oracle where
  answers : Bool := true
  outcome : StoreOutcome := .ok
  disk : Bool := true
  ids : List Key := []
  order : List DirEntry := []

/-- Where `Compact` stands, with its variables: the targets selected so far,
the packing, and what the loop at hand has before it. -/
inductive Stage where
  | listing
  | sizing (targets : List Key) (id : Key) (pending : List Key)
  | reading (targets : List Key) (packing : Packing) (e : Extent) (pending : List Extent)
  | putting (targets : List Key) (packing : Packing) (output : OutputChunk)
      (pending : List OutputChunk)
  | persisting (targets : List Key) (packing : Packing)
  | deleting (targets : List Key) (packing : Packing) (id : Key) (pending : List Key)

/-- The chunks have not been listed yet. -/
def Stage.IsListing : Stage → Prop
  | .listing => True
  | _ => False

instance (stage : Stage) : Decidable stage.IsListing := by
  induction stage using Stage.casesOn <;> dsimp only [Stage.IsListing] <;> infer_instance

/-- The extents are remapped, and the persist function is about to be called. -/
def Stage.IsPersisting : Stage → Prop
  | .persisting .. => True
  | _ => False

instance (stage : Stage) : Decidable stage.IsPersisting := by
  induction stage using Stage.casesOn <;> dsimp only [Stage.IsPersisting] <;> infer_instance

theorem Stage.IsPersisting.eq_persisting {stage : Stage} (persists : stage.IsPersisting) :
    ∃ targets packing, stage = .persisting targets packing := by
  cases stage with
  | persisting targets packing => exact ⟨targets, packing, rfl⟩
  | _ => cases persists

/-- A run of `Compact`: the index and chunk store it works on, the live extents
it began with, and where it stands. -/
structure Run where
  params : Params
  idx : Index
  cs : ChunkStore
  live : List Extent
  stage : Stage

/-- The steps that touch the store, and the persist function. -/
inductive Effect where
  | list (cs : ChunkStore)
  | size (cs : ChunkStore) (id : Key)
  | read (cs : ChunkStore) (id : Key) (offset length : Int)
  | put (id : Key) (data : Bytes)
  | persist (idx : Index)
  | delete (id : Key)

/-- What a step returns. -/
inductive Answer where
  | listed (ids : Option (List Key))
  | sized (size : Option Int)
  | bytes (cs : ChunkStore) (data : Except (GoFault ChunkError) Bytes)
  | ended (ok : Bool)

/-- How `Compact` ends: whether it returned nil, and the index in memory. -/
structure Reply where
  ok : Bool
  idx : Index

/-! ### The loops -/

/-- `liveByChunk[id]`. -/
def liveIn (live : List Extent) (id : Key) : List Extent := live.filter fun e => e.chunkID = id

/-- The live extents of the targets, in the order they are read. -/
def moved (live : List Extent) (targets : List Key) : List Extent := targets.flatMap (liveIn live)

/-- The live bytes of a chunk, as an `int64` sum. -/
def liveBytes (live : List Extent) (id : Key) : Int :=
  (liveIn live id).foldl (fun total e => wrap64 (total + e.length)) 0

/-- Whether a chunk of the given size is a target. -/
def selects (params : Params) (live : List Extent) (id : Key) : Option Int → Bool
  | none => false
  | some total => decide (total = 0) || params.heavy total (liveBytes live id)

/-- `newOutput`. -/
def Packing.newOutput (params : Params) (packing : Packing) : Packing :=
  { packing with
    earlier := packing.earlier ++ [packing.current]
    current := ⟨compactedID (params.clock packing.seq) packing.seq, []⟩
    seq := packing.seq + 1 }

/-- The first output chunk and an empty remap table. -/
def Packing.begin (params : Params) : Packing :=
  { earlier := [], current := ⟨compactedID (params.clock 0) 0, []⟩, seq := 1, remap := ∅ }

/-- The output an extent goes to: a new one if it would overflow a current one
that holds something. -/
def Packing.roomFor (params : Params) (packing : Packing) (e : Extent) : Packing :=
  if packing.current.buf ≠ [] ∧
      wrap64 (packing.current.buf.length + e.length) > params.chunkSize then
    packing.newOutput params
  else packing

/-- Append an extent's bytes to the current output and note where they went. -/
def Packing.place (packing : Packing) (e : Extent) (data : Bytes) : Packing :=
  { packing with
    current := ⟨packing.current.id, packing.current.buf ++ data⟩
    remap := packing.remap.set (e.chunkID, e.chunkOffset)
      { chunkID := packing.current.id, chunkOffset := packing.current.buf.length,
        length := e.length, fileOffset := e.fileOffset } }

/-- The outputs that are written: those that hold something. -/
def Packing.outputs (packing : Packing) : List OutputChunk :=
  (packing.earlier ++ [packing.current]).filter fun output => output.buf ≠ []

namespace Run

/-- `Compact` on an index whose extent map is iterated in `order`. -/
def begin (params : Params) (idx : Index) (cs : ChunkStore) (order : List (Ino × List Extent)) :
    Run :=
  { params := params, idx := idx, cs := cs, live := Index.liveExtents order, stage := .listing }

/-- After the last put: remap the index and persist it. -/
def toPersist (run : Run) (targets : List Key) (packing : Packing) : Run :=
  { run with idx := run.idx.remapExtents packing.remap, stage := .persisting targets packing }

/-- The next put, or the remap. -/
def toPut (run : Run) (targets : List Key) (packing : Packing) : List OutputChunk → Run
  | [] => run.toPersist targets packing
  | output :: pending => { run with stage := .putting targets packing output pending }

/-- The next read, or the first put. -/
def toRead (run : Run) (targets : List Key) (packing : Packing) : List Extent → Run
  | [] => run.toPut targets packing packing.outputs
  | e :: pending => { run with stage := .reading targets packing e pending }

/-- Once every chunk is sized: stop if nothing is a target, else pack. -/
def toPack (run : Run) (targets : List Key) : Run ⊕ Reply :=
  if targets = [] then .inr ⟨true, run.idx⟩
  else .inl (run.toRead targets (.begin run.params) (moved run.live targets))

/-- The next chunk to size, or the packing. -/
def toSize (run : Run) (targets : List Key) : List Key → Run ⊕ Reply
  | [] => run.toPack targets
  | id :: pending => .inl { run with stage := .sizing targets id pending }

/-- The next deletion, or the end. -/
def toDelete (run : Run) (targets : List Key) (packing : Packing) : List Key → Run ⊕ Reply
  | [] => .inr ⟨true, run.idx⟩
  | id :: pending => .inl { run with stage := .deleting targets packing id pending }

/-- `Compact` returns an error, or its process dies. -/
def fail (run : Run) : Run ⊕ Reply := .inr ⟨false, run.idx⟩

/-- The step a run is about to take. -/
def effect (run : Run) : Effect :=
  match run.stage with
  | .listing => .list run.cs
  | .sizing _ id _ => .size run.cs id
  | .reading _ _ e _ => .read run.cs e.chunkID e.chunkOffset e.length
  | .putting _ _ output _ => .put output.id output.buf
  | .persisting .. => .persist run.idx
  | .deleting _ _ id _ => .delete id

/-- What a run does with the answer of its step. -/
def resume (run : Run) (answer : Answer) : Run ⊕ Reply :=
  match run.stage, answer with
  | .listing, .listed (some ids) => run.toSize [] ids
  | .sizing targets id pending, .sized size =>
      run.toSize (if selects run.params run.live id size then targets ++ [id] else targets) pending
  | .reading targets packing e pending, .bytes cs (.ok data) =>
      .inl ({ run with cs := cs }.toRead targets ((packing.roomFor run.params e).place e data)
        pending)
  | .putting targets packing _ pending, .ended true => .inl (run.toPut targets packing pending)
  | .persisting targets packing, .ended true => run.toDelete targets packing targets
  | .deleting targets packing _ pending, .ended true => run.toDelete targets packing pending
  | _, _ => run.fail

end Run

section System

variable {σ δ : Type}

/-- One store operation. `δ` is what the persist function changes besides the
store. -/
def apply (store : Store σ) (persist : Index → Oracle → σ × δ → (σ × δ) × Bool) (s : σ × δ)
    (e : Effect) (o : Oracle) : Option ((σ × δ) × Answer) :=
  match e with
  | .list cs =>
      if o.answers = false then some (s, .listed none)
      else if o.ids.toFinset = cs.listSealed store s.1 then some (s, .listed (some o.ids))
      else none
  | .size cs id => some (s, .sized (if o.answers then cs.sealedSize store s.1 id else none))
  | .read cs id offset length =>
      if o.answers then
        let answer := cs.read store o.disk s.1 id offset length
        some (s, .bytes answer.1 answer.2)
      else some (s, .bytes cs (.error (.error (.getRange id))))
  | .put id data =>
      let result := store.tryPut o.outcome s.1 id data
      some ((result.1, s.2), .ended result.2)
  | .persist idx =>
      let result := persist idx o s
      some (result.1, .ended result.2)
  | .delete id =>
      let result := store.tryDelete o.outcome s.1 id
      some ((result.1, s.2), .ended result.2)

/-- `Compact` as a system of one kind of thread. -/
def compactSys (store : Store σ) (persist : Index → Oracle → σ × δ → (σ × δ) × Bool) :
    Interleaving.Sys (σ × δ) Effect Answer Oracle Run Reply where
  apply := apply store persist
  effect := Run.effect
  resume := Run.resume

end System

/-- What one step of a run does to the store. -/
theorem Run.apply_cases {σ δ : Type} {store : Store σ}
    {persist : Index → Oracle → σ × δ → (σ × δ) × Bool} {s s' : σ × δ} {run : Run} {o : Oracle}
    {a : Answer} (applied : apply store persist s run.effect o = some (s', a)) :
    s' = s ∨
      (∃ targets packing output pending, run.stage = .putting targets packing output pending ∧
        s' = (store.put s.1 output.id output.buf, s.2)) ∨
      (∃ targets packing, run.stage = .persisting targets packing ∧
        s' = (persist run.idx o s).1 ∧ a = .ended (persist run.idx o s).2) ∨
      ∃ targets packing id pending, run.stage = .deleting targets packing id pending ∧
        s' = (store.delete s.1 id, s.2) := by
  unfold Run.effect at applied
  split at applied
  next stage =>
    simp only [apply] at applied
    split_ifs at applied <;> cases applied <;> exact Or.inl rfl
  next stage =>
    cases applied
    exact Or.inl rfl
  next stage =>
    simp only [apply] at applied
    split_ifs at applied <;> cases applied <;> exact Or.inl rfl
  next targets packing output pending stage =>
    simp only [apply, Store.tryPut] at applied
    have stored : s' = (store.put s.1 output.id output.buf, s.2) ∨ s' = s := by
      cases outcome : o.outcome <;> rw [outcome] at applied <;> cases applied
      · exact Or.inl rfl
      · exact Or.inr rfl
      · exact Or.inl rfl
    rcases stored with stored | same
    · exact Or.inr (Or.inl ⟨targets, packing, output, pending, stage, stored⟩)
    · exact Or.inl same
  next targets packing stage =>
    cases applied
    exact Or.inr (Or.inr (Or.inl ⟨targets, packing, stage, rfl, rfl⟩))
  next targets packing id pending stage =>
    simp only [apply, Store.tryDelete] at applied
    have deleted : s' = (store.delete s.1 id, s.2) ∨ s' = s := by
      cases outcome : o.outcome <;> rw [outcome] at applied <;> cases applied
      · exact Or.inl rfl
      · exact Or.inr rfl
      · exact Or.inl rfl
    rcases deleted with deleted | same
    · exact Or.inr (Or.inr (Or.inr ⟨targets, packing, id, pending, stage, deleted⟩))
    · exact Or.inl same

/-- The first three stages leave the store alone. -/
theorem Run.same_of_apply {σ δ : Type} {store : Store σ}
    {persist : Index → Oracle → σ × δ → (σ × δ) × Bool} {s s' : σ × δ} {run : Run} {o : Oracle}
    {a : Answer}
    (applied : apply store persist s run.effect o = some (s', a))
    (early : ∀ targets packing,
      (∀ output pending, run.stage ≠ .putting targets packing output pending) ∧
      run.stage ≠ .persisting targets packing ∧
      ∀ id pending, run.stage ≠ .deleting targets packing id pending) : s' = s := by
  rcases Run.apply_cases applied with same | ⟨targets, packing, output, pending, stage, -⟩ |
    ⟨targets, packing, stage, -⟩ | ⟨targets, packing, id, pending, stage, -⟩
  · exact same
  · exact absurd stage ((early targets packing).1 output pending)
  · exact absurd stage (early targets packing).2.1
  · exact absurd stage ((early targets packing).2.2 id pending)

/-! ### What follows a step -/

/-- The run that goes on with the answer of a step. -/
inductive Run.Next : Run → Answer → Run → Prop where
  | sizeFirst {run : Run} {id : Key} {pending : List Key} (stage : run.stage = .listing) :
      Next run (.listed (some (id :: pending))) { run with stage := .sizing [] id pending }
  | sizeNext {run : Run} {targets judged : List Key} {id next : Key} {size : Option Int}
      {pending : List Key} (stage : run.stage = .sizing targets id (next :: pending))
      (judges : judged = if selects run.params run.live id size then targets ++ [id] else targets) :
      Next run (.sized size) { run with stage := .sizing judged next pending }
  | pack {run : Run} {targets judged : List Key} {id : Key} {size : Option Int}
      (stage : run.stage = .sizing targets id [])
      (judges : judged = if selects run.params run.live id size then targets ++ [id] else targets)
      (some : judged ≠ []) :
      Next run (.sized size) (run.toRead judged (.begin run.params) (moved run.live judged))
  | read {run : Run} {targets : List Key} {packing : Packing} {e : Extent} {pending : List Extent}
      {cs : ChunkStore} {data : Bytes} (stage : run.stage = .reading targets packing e pending) :
      Next run (.bytes cs (.ok data))
        ({ run with cs := cs }.toRead targets ((packing.roomFor run.params e).place e data) pending)
  | put {run : Run} {targets : List Key} {packing : Packing} {output : OutputChunk}
      {pending : List OutputChunk} (stage : run.stage = .putting targets packing output pending) :
      Next run (.ended true) (run.toPut targets packing pending)
  | persist {run : Run} {id : Key} {pending : List Key} {packing : Packing}
      (stage : run.stage = .persisting (id :: pending) packing) :
      Next run (.ended true) { run with stage := .deleting (id :: pending) packing id pending }
  | delete {run : Run} {targets : List Key} {packing : Packing} {id next : Key}
      {pending : List Key} (stage : run.stage = .deleting targets packing id (next :: pending)) :
      Next run (.ended true) { run with stage := .deleting targets packing next pending }

/-- Everything a run that goes on can do with an answer. -/
theorem Run.next_of_resume {run run' : Run} {answer : Answer}
    (continues : run.resume answer = .inl run') : run.Next answer run' := by
  unfold Run.resume at continues
  split at continues
  next ids stage =>
    cases ids with
    | nil => cases continues
    | cons id pending =>
        cases continues
        exact .sizeFirst stage
  next targets id pending size stage =>
    cases pending with
    | cons next pending =>
        cases continues
        exact .sizeNext stage rfl
    | nil =>
        generalize judges : (if selects run.params run.live id size then targets ++ [id]
          else targets) = judged at continues
        simp only [Run.toSize, Run.toPack] at continues
        split_ifs at continues with nothing
        cases continues
        exact .pack stage judges.symm nothing
  next targets packing e pending cs data stage =>
    cases continues
    exact .read stage
  next targets packing output pending stage =>
    cases continues
    exact .put stage
  next targets packing stage =>
    cases targets with
    | nil => cases continues
    | cons id pending =>
        cases continues
        exact .persist stage
  next targets packing id pending stage =>
    cases pending with
    | nil => cases continues
    | cons next pending =>
        cases continues
        exact .delete stage
  next => cases continues

/-- Where `Compact` returns nil: when it finds no target, or behind the last
deletion. -/
inductive Run.Returns : Run → Answer → Prop where
  | nothingListed {run : Run} (stage : run.stage = .listing) : Returns run (.listed (some []))
  | nothingSelected {run : Run} {id : Key} {size : Option Int}
      (stage : run.stage = .sizing [] id [])
      (rejected : selects run.params run.live id size = false) : Returns run (.sized size)
  | nothingToDelete {run : Run} {packing : Packing} (stage : run.stage = .persisting [] packing) :
      Returns run (.ended true)
  | lastDeleted {run : Run} {targets : List Key} {packing : Packing} {id : Key}
      (stage : run.stage = .deleting targets packing id []) : Returns run (.ended true)

theorem Run.returns_of_resume {run : Run} {answer : Answer} {reply : Reply}
    (returned : run.resume answer = .inr reply) (ok : reply.ok = true) :
    run.Returns answer ∧ reply.idx = run.idx := by
  unfold Run.resume at returned
  split at returned
  next ids stage =>
    cases ids with
    | nil =>
        cases returned
        exact ⟨.nothingListed stage, rfl⟩
    | cons id pending => cases returned
  next targets id pending size stage =>
    cases pending with
    | cons next pending => cases returned
    | nil =>
        generalize judges : (if selects run.params run.live id size then targets ++ [id]
          else targets) = judged at returned
        simp only [Run.toSize, Run.toPack] at returned
        split_ifs at returned with nothing
        cases returned
        subst nothing
        split_ifs at judges with selected
        · exact absurd judges (List.append_ne_nil_of_right_ne_nil _ (List.cons_ne_nil _ _))
        · subst judges
          exact ⟨.nothingSelected stage (Bool.eq_false_iff.mpr selected), rfl⟩
  next => cases returned
  next => cases returned
  next targets packing stage =>
    cases targets with
    | nil =>
        cases returned
        exact ⟨.nothingToDelete stage, rfl⟩
    | cons id pending => cases returned
  next targets packing id pending stage =>
    cases pending with
    | nil =>
        cases returned
        exact ⟨.lastDeleted stage, rfl⟩
    | cons next pending => cases returned
  next =>
    cases returned
    cases ok

theorem Run.toPut_params (run : Run) (targets : List Key) (packing : Packing)
    (pending : List OutputChunk) : (run.toPut targets packing pending).params = run.params := by
  cases pending <;> rfl

theorem Run.toRead_params (run : Run) (targets : List Key) (packing : Packing)
    (pending : List Extent) : (run.toRead targets packing pending).params = run.params := by
  cases pending with
  | nil => exact run.toPut_params targets packing packing.outputs
  | cons e pending => rfl

/-- The parameters stay. -/
theorem Run.params_of_resume {run run' : Run} {answer : Answer}
    (continues : run.resume answer = .inl run') : run'.params = run.params := by
  cases Run.next_of_resume continues with
  | pack => exact Run.toRead_params _ _ _ _
  | read => exact Run.toRead_params _ _ _ _
  | put => exact Run.toPut_params _ _ _ _
  | _ => rfl

theorem Run.toPut_live (run : Run) (targets : List Key) (packing : Packing)
    (pending : List OutputChunk) : (run.toPut targets packing pending).live = run.live := by
  cases pending <;> rfl

theorem Run.toRead_live (run : Run) (targets : List Key) (packing : Packing)
    (pending : List Extent) : (run.toRead targets packing pending).live = run.live := by
  cases pending with
  | nil => exact run.toPut_live targets packing packing.outputs
  | cons e pending => rfl

/-- And so do the live extents. -/
theorem Run.live_of_resume {run run' : Run} {answer : Answer}
    (continues : run.resume answer = .inl run') : run'.live = run.live := by
  cases Run.next_of_resume continues with
  | pack => exact Run.toRead_live _ _ _ _
  | read => exact Run.toRead_live _ _ _ _
  | put => exact Run.toPut_live _ _ _ _
  | _ => rfl

/-! ### Extents and their table -/

/-- `order` is an iteration of the extent map. -/
def ListsExtents (idx : Index) (order : List (Ino × List Extent)) : Prop :=
  (order : Multiset (Ino × List Extent)) = idx.extents.entries

instance (idx : Index) (order : List (Ino × List Extent)) : Decidable (ListsExtents idx order) := by
  unfold ListsExtents
  infer_instance

theorem mem_liveExtents {idx : Index} {order : List (Ino × List Extent)}
    (lists : ListsExtents idx order) {e : Extent} :
    e ∈ Index.liveExtents order ↔ ∃ ino exts, idx.extents.get ino = some exts ∧ e ∈ exts := by
  have member : ∀ entry, entry ∈ order ↔ idx.extents.get entry.1 = some entry.2 := by
    intro entry
    rw [← GoMap.mem_entries, ← lists, Multiset.mem_coe]
  simp only [Index.liveExtents, List.mem_flatMap, member]
  constructor
  · rintro ⟨⟨ino, exts⟩, stored, inList⟩
    exact ⟨ino, exts, stored, inList⟩
  · rintro ⟨ino, exts, stored, inList⟩
    exact ⟨(ino, exts), stored, inList⟩

theorem get_remapExtents {idx : Index} (remap : GoMap (Key × Int) Extent) {ino : Ino}
    {exts : List Extent} (stored : idx.extents.get ino = some exts) :
    (idx.remapExtents remap).extents.get ino =
      some (exts.map fun e => (remap.get (e.chunkID, e.chunkOffset)).getD e) := by
  simp only [Index.remapExtents, Index.touched, GoMap.get_map, stored, Option.map_some]

/-! ### Packing -/

/-- Where the table sends `e`: an output that holds, at the noted offset, bytes
that were read for `e`. -/
structure Placed (Reads : Extent → Bytes → Prop) (outputs : List OutputChunk) (e e' : Extent) :
    Prop where
  length : e'.length = e.length
  fileOffset : e'.fileOffset = e.fileOffset
  place : ∃ output ∈ outputs, output.id = e'.chunkID ∧ ∃ start data,
    e'.chunkOffset = (start : Nat) ∧
    Reads e data ∧ start ≤ output.buf.length ∧ data <+: output.buf.drop start

/-- The packing loop after the extents `done`. The outputs are numbered, and the
table has an entry for the position of each extent and for no other. -/
structure Packed (Reads : Extent → Bytes → Prop) (params : Params) (done : List Extent)
    (packing : Packing) : Prop where
  numbered : ∃ last, packing.seq = last + 1 ∧
    packing.current.id = compactedID (params.clock last) last ∧
    ∀ output ∈ packing.earlier, ∃ k < last, output.id = compactedID (params.clock k) k
  distinct : (packing.earlier.map OutputChunk.id).Nodup
  covers : ∀ e ∈ done, ∃ e', packing.remap.get (e.chunkID, e.chunkOffset) = some e'
  origin : ∀ key e', packing.remap.get key = some e' → ∃ e ∈ done,
    key = (e.chunkID, e.chunkOffset) ∧ Placed Reads (packing.earlier ++ [packing.current]) e e'

section Packing

variable {Reads : Extent → Bytes → Prop} {params : Params} {done : List Extent} {packing : Packing}

/-- The number comes last. -/
theorem compactedID_eq (nano seq : Nat) :
    ∃ front, compactedID nano seq = front ++ GoFmt.decimal seq := by
  unfold compactedID
  generalize "compacted-".toList = start
  exact ⟨start ++ (GoFmt.decimal nano ++ ['-']), by simp⟩

theorem compactedID_injective {nano seq nano' seq' : Nat}
    (same : compactedID nano seq = compactedID nano' seq') : nano = nano' ∧ seq = seq' := by
  have noDash : ∀ n : Nat, '-' ∉ GoFmt.decimal n := fun n member =>
    absurd (GoFmt.isDigit_of_mem_decimal member) (by decide)
  obtain ⟨first, -, second⟩ := (List.append_cons_inj_of_notMem (noDash nano) (noDash seq)).mp
    (List.append_cancel_left same)
  exact ⟨GoFmt.decimal_injective first, GoFmt.decimal_injective second⟩

theorem compactedID_ne_indexKey (nano seq : Nat) : compactedID nano seq ≠ indexKey := by
  intro same
  cases congrArg List.head? same

theorem compactedID_ne_chunkID (nano seq n : Nat) : compactedID nano seq ≠ chunkID n := by
  intro same
  have second : 'o' = 'h' := Option.some.inj (congrArg (fun id : Key => id[1]?) same)
  exact absurd second (by decide)

theorem Packed.begin (Reads : Extent → Bytes → Prop) (params : Params) :
    Packed Reads params [] (.begin params) where
  numbered := ⟨0, rfl, rfl, fun output member => by cases member⟩
  distinct := List.nodup_nil
  covers := fun e member => by cases member
  origin := fun key e' found => by cases found

/-- An entry stays good when its output grows and outputs are added. -/
theorem Placed.mono {outputs outputs' : List OutputChunk} {e e' : Extent}
    (placed : Placed Reads outputs e e')
    (grows : ∀ output ∈ outputs, ∃ output' ∈ outputs', output'.id = output.id ∧
      output.buf <+: output'.buf) : Placed Reads outputs' e e' := by
  obtain ⟨length, fileOffset, output, member, id, start, data, offset, reads, inside, isPart⟩ :=
    placed
  obtain ⟨output', member', id', rest, grown⟩ := grows output member
  refine ⟨length, fileOffset, output', member', id'.trans id, start, data, offset, reads, ?_, ?_⟩
  · rw [← grown, List.length_append]
    omega
  · rw [← grown, List.drop_append_of_le_length inside]
    exact isPart.trans (List.prefix_append _ _)

/-- The current output has a name of its own. -/
theorem Packed.earlier_ne (packed : Packed Reads params done packing) (output : OutputChunk)
    (member : output ∈ packing.earlier) : output.id ≠ packing.current.id := by
  obtain ⟨last, -, current, earlier⟩ := packed.numbered
  obtain ⟨k, below, id⟩ := earlier output member
  intro same
  rw [id, current] at same
  have := (compactedID_injective same).2
  omega

theorem Packed.newOutput (packed : Packed Reads params done packing) :
    Packed Reads params done (packing.newOutput params) := by
  obtain ⟨last, seq, current, earlier⟩ := packed.numbered
  refine ⟨⟨packing.seq, rfl, rfl, ?_⟩, ?_, packed.covers, ?_⟩
  · intro output member
    rcases List.mem_append.mp member with old | new
    · obtain ⟨k, below, id⟩ := earlier output old
      exact ⟨k, by omega, id⟩
    · rw [List.mem_singleton.mp new]
      exact ⟨last, by omega, current⟩
  · simp only [Packing.newOutput, List.map_append, List.map_cons, List.map_nil]
    rw [List.nodup_append]
    refine ⟨packed.distinct, List.nodup_singleton _, ?_⟩
    intro id member id' new
    obtain ⟨output, inEarlier, rfl⟩ := List.mem_map.mp member
    rw [List.mem_singleton.mp new]
    exact packed.earlier_ne output inEarlier
  · intro key e' found
    obtain ⟨e, member, isKey, placed⟩ := packed.origin key e' found
    refine ⟨e, member, isKey, placed.mono fun output inOutputs => ?_⟩
    exact ⟨output, List.mem_append_left _ inOutputs, rfl, List.prefix_refl _⟩

theorem Packed.roomFor (packed : Packed Reads params done packing) (e : Extent) :
    Packed Reads params done (packing.roomFor params e) := by
  unfold Packing.roomFor
  split_ifs
  · exact packed.newOutput
  · exact packed

theorem Packed.place (packed : Packed Reads params done packing) {e : Extent} {data : Bytes}
    (reads : Reads e data) : Packed Reads params (done ++ [e]) (packing.place e data) := by
  refine ⟨packed.numbered, packed.distinct, ?_, ?_⟩
  · intro other member
    simp only [Packing.place, GoMap.get_set]
    split_ifs with isIt
    · exact ⟨_, rfl⟩
    · rcases List.mem_append.mp member with old | new
      · exact packed.covers other old
      · rw [List.mem_singleton.mp new] at isIt
        exact absurd rfl isIt
  · intro key e' found
    simp only [Packing.place, GoMap.get_set] at found
    split_ifs at found with isIt
    · cases found
      refine ⟨e, by simp, isIt, rfl, rfl, _, List.mem_append_right _ (List.mem_singleton_self _),
        rfl, packing.current.buf.length, data, rfl, reads, ?_, ?_⟩
      · rw [Packing.place, List.length_append]
        exact Nat.le_add_right _ _
      · rw [Packing.place, List.drop_left]
    · obtain ⟨origin, member, isKey, placed⟩ := packed.origin key e' found
      refine ⟨origin, by simp [member], isKey, placed.mono fun output inOutputs => ?_⟩
      rcases List.mem_append.mp inOutputs with old | new
      · exact ⟨output, List.mem_append_left _ old, rfl, List.prefix_refl _⟩
      · rw [List.mem_singleton.mp new]
        exact ⟨_, List.mem_append_right _ (List.mem_singleton_self _), rfl, List.prefix_append _ _⟩

/-- Every output has a compacted ID. -/
theorem Packed.output_id (packed : Packed Reads params done packing) {output : OutputChunk}
    (member : output ∈ packing.earlier ++ [packing.current]) :
    ∃ k, output.id = compactedID (params.clock k) k := by
  obtain ⟨last, -, current, earlier⟩ := packed.numbered
  rcases List.mem_append.mp member with old | new
  · obtain ⟨k, -, id⟩ := earlier output old
    exact ⟨k, id⟩
  · rw [List.mem_singleton.mp new]
    exact ⟨last, current⟩

theorem mem_outputs {output : OutputChunk} :
    output ∈ packing.outputs ↔
      output ∈ packing.earlier ++ [packing.current] ∧ output.buf ≠ [] := by
  rw [Packing.outputs, List.mem_filter, decide_eq_true_eq]

end Packing

/-! ### What a run knows at each stage -/

theorem mem_moved {live : List Extent} {targets : List Key} {e : Extent} :
    e ∈ moved live targets ↔ e ∈ live ∧ e.chunkID ∈ targets := by
  simp only [moved, liveIn, List.mem_flatMap, List.mem_filter, decide_eq_true_eq]
  constructor
  · rintro ⟨id, inTargets, isLive, rfl⟩
    exact ⟨isLive, inTargets⟩
  · rintro ⟨isLive, inTargets⟩
    exact ⟨e.chunkID, inTargets, isLive, rfl⟩

/-- What a stage has established: the ids that a listing returned satisfy
`Listed`, the bytes that reads returned satisfy `Reads`, `idx` is the index the
run began with. -/
def Run.Tracked (Listed : Key → Prop) (Reads : Extent → Bytes → Prop) (idx : Index)
    (live : List Extent) (run : Run) : Prop :=
  run.live = live ∧
    match run.stage with
    | .listing => run.idx = idx
    | .sizing targets id pending => run.idx = idx ∧ ∀ x ∈ targets ++ id :: pending, Listed x
    | .reading targets packing e pending =>
        run.idx = idx ∧ (∀ x ∈ targets, Listed x) ∧
          ∃ done, moved live targets = done ++ e :: pending ∧ Packed Reads run.params done packing
    | .putting targets packing output pending =>
        run.idx = idx ∧ (∀ x ∈ targets, Listed x) ∧
          Packed Reads run.params (moved live targets) packing ∧
          output :: pending <:+ packing.outputs
    | .persisting targets packing =>
        run.idx = idx.remapExtents packing.remap ∧ (∀ x ∈ targets, Listed x) ∧
          Packed Reads run.params (moved live targets) packing
    | .deleting targets packing id pending =>
        run.idx = idx.remapExtents packing.remap ∧ (∀ x ∈ targets, Listed x) ∧
          Packed Reads run.params (moved live targets) packing ∧ id :: pending <:+ targets

section Tracked

variable {Listed : Key → Prop} {Reads : Extent → Bytes → Prop} {idx : Index} {live : List Extent}
  {run : Run} {targets : List Key} {packing : Packing}

theorem Run.Tracked.toPut (isLive : run.live = live) (same : run.idx = idx)
    (listed : ∀ x ∈ targets, Listed x)
    (packed : Packed Reads run.params (moved live targets) packing) {pending : List OutputChunk}
    (rest : pending <:+ packing.outputs) :
    (run.toPut targets packing pending).Tracked Listed Reads idx live := by
  cases pending with
  | nil => exact ⟨isLive, congrArg (Index.remapExtents · packing.remap) same, listed, packed⟩
  | cons output pending => exact ⟨isLive, same, listed, packed, rest⟩

theorem Run.Tracked.toRead (isLive : run.live = live) (same : run.idx = idx)
    (listed : ∀ x ∈ targets, Listed x) {done pending : List Extent}
    (order : moved live targets = done ++ pending) (packed : Packed Reads run.params done packing) :
    (run.toRead targets packing pending).Tracked Listed Reads idx live := by
  cases pending with
  | nil =>
      rw [List.append_nil] at order
      exact Run.Tracked.toPut isLive same listed (order ▸ packed) (List.suffix_refl _)
  | cons e pending => exact ⟨isLive, same, listed, done, order, packed⟩

/-- Every step of a run keeps what its stage has established. -/
theorem Run.Tracked.resume (tracked : run.Tracked Listed Reads idx live) {answer : Answer}
    (lists : run.stage = .listing → ∀ ids, answer = .listed (some ids) → ∀ x ∈ ids, Listed x)
    (reads : ∀ targets packing e pending, run.stage = .reading targets packing e pending →
      ∀ cs data, answer = .bytes cs (.ok data) → Reads e data) {run' : Run}
    (continues : run.resume answer = .inl run') : run'.Tracked Listed Reads idx live := by
  obtain ⟨isLive, holds⟩ := tracked
  -- A chunk that is judged was listed, whether it becomes a target or not.
  have judged : ∀ {targets judged : List Key} {id : Key} {size : Option Int} {pending : List Key},
      (judged = if selects run.params run.live id size then targets ++ [id] else targets) →
      (∀ x ∈ targets ++ id :: pending, Listed x) → ∀ x ∈ judged ++ pending, Listed x := by
    rintro targets judged id size pending rfl listed x member
    refine listed x ?_
    split_ifs at member
    · simpa using member
    · rcases List.mem_append.mp member with old | rest
      · exact List.mem_append_left _ old
      · exact List.mem_append_right _ (List.mem_cons_of_mem _ rest)
  cases Run.next_of_resume continues with
  | sizeFirst stage =>
      rw [stage] at holds
      exact ⟨isLive, holds, fun x member => lists stage _ rfl x (by simpa using member)⟩
  | sizeNext stage judges =>
      rw [stage] at holds
      exact ⟨isLive, holds.1, judged judges holds.2⟩
  | pack stage judges some =>
      rw [stage] at holds
      have listed := judged judges holds.2
      rw [List.append_nil] at listed
      exact Run.Tracked.toRead isLive holds.1 listed (by rw [isLive, List.nil_append])
        (.begin _ _)
  | @read targets packing e pending cs data stage =>
      rw [stage] at holds
      obtain ⟨same, listed, done, order, packed⟩ := holds
      have read := reads targets packing e pending stage cs data rfl
      have next : moved live targets = (done ++ [e]) ++ pending := by
        rw [order, List.append_assoc, List.singleton_append]
      exact @Run.Tracked.toRead _ _ _ _ { run with cs := cs } _ _ isLive same listed _ _ next
        ((packed.roomFor e).place read)
  | put stage =>
      rw [stage] at holds
      obtain ⟨same, listed, packed, rest⟩ := holds
      exact Run.Tracked.toPut isLive same listed packed ((List.suffix_cons _ _).trans rest)
  | persist stage =>
      rw [stage] at holds
      obtain ⟨same, listed, packed⟩ := holds
      exact ⟨isLive, same, listed, packed, List.suffix_refl _⟩
  | delete stage =>
      rw [stage] at holds
      obtain ⟨same, listed, packed, rest⟩ := holds
      exact ⟨isLive, same, listed, packed, (List.suffix_cons _ _).trans rest⟩

end Tracked

/-! ### Selection -/

/-- `targets` are chunks of `seen` that satisfy `chosen`; in a reliable run they
are all of them. -/
structure Picked (reliable : Bool) (chosen : Key → Bool) (seen targets : List Key) : Prop where
  among : targets.Sublist (seen.filter chosen)
  all : reliable = true → targets = seen.filter chosen

theorem Picked.judge {reliable : Bool} {chosen : Key → Bool} {seen targets : List Key}
    (picked : Picked reliable chosen seen targets) {id : Key} {selected : Bool}
    (sound : selected = true → chosen id = true)
    (complete : reliable = true → chosen id = true → selected = true) :
    Picked reliable chosen (seen ++ [id]) (if selected then targets ++ [id] else targets) := by
  cases selected with
  | true =>
      have isChosen : [id].filter chosen = [id] := List.filter_cons_of_pos (sound rfl)
      refine ⟨?_, fun answers => ?_⟩
      · rw [List.filter_append, isChosen, if_pos rfl]
        exact picked.among.append_right [id]
      · rw [List.filter_append, isChosen, if_pos rfl, ← picked.all answers]
  | false =>
      refine ⟨?_, fun answers => ?_⟩
      · rw [List.filter_append]
        exact picked.among.trans (List.sublist_append_left _ _)
      · have notChosen : [id].filter chosen = [] :=
          List.filter_cons_of_neg fun isChosen => Bool.noConfusion (complete answers isChosen)
        rw [List.filter_append, notChosen, List.append_nil, ← picked.all answers]
        rfl

/-- The targets of a run whose listing satisfies `Lists`. -/
def Targets (reliable : Bool) (Lists : List Key → Prop) (chosen : Key → Bool)
    (targets : List Key) : Prop :=
  ∃ seen : List Key, Lists seen ∧ Picked reliable chosen seen targets

/-- The selection of a run, as far as it has come. -/
def Run.Chosen (reliable : Bool) (Lists : List Key → Prop) (chosen : Key → Bool) (run : Run) :
    Prop :=
  match run.stage with
  | .listing => True
  | .sizing targets id pending => ∃ seen : List Key, Lists (seen ++ id :: pending) ∧
      Picked reliable chosen seen targets
  | .reading targets .. | .putting targets .. | .persisting targets _ | .deleting targets .. =>
      Targets reliable Lists chosen targets

section Selection

variable {reliable : Bool} {Lists : List Key → Prop} {chosen : Key → Bool} {targets : List Key}
  {run : Run}

theorem Targets.mem {sealed : Finset Key} (names : ∀ ids, Lists ids → ids.toFinset = sealed)
    (isTargets : Targets reliable Lists chosen targets) (id : Key) (member : id ∈ targets) :
    id ∈ sealed ∧ chosen id = true := by
  obtain ⟨seen, lists, picked⟩ := isTargets
  obtain ⟨inSeen, isChosen⟩ := List.mem_filter.mp (picked.among.subset member)
  exact ⟨names seen lists ▸ List.mem_toFinset.mpr inSeen, isChosen⟩

theorem Targets.complete {sealed : Finset Key} (names : ∀ ids, Lists ids → ids.toFinset = sealed)
    (isTargets : Targets true Lists chosen targets) (id : Key) (member : id ∈ sealed)
    (isChosen : chosen id = true) : id ∈ targets := by
  obtain ⟨seen, lists, picked⟩ := isTargets
  rw [← names seen lists] at member
  rw [picked.all rfl]
  exact List.mem_filter.mpr ⟨List.mem_toFinset.mp member, isChosen⟩

theorem Run.Chosen.toPut (isTargets : Targets reliable Lists chosen targets) (packing : Packing)
    (pending : List OutputChunk) :
    (run.toPut targets packing pending).Chosen reliable Lists chosen := by
  cases pending <;> exact isTargets

theorem Run.Chosen.toRead (isTargets : Targets reliable Lists chosen targets) (packing : Packing)
    (pending : List Extent) :
    (run.toRead targets packing pending).Chosen reliable Lists chosen := by
  cases pending with
  | nil => exact Run.Chosen.toPut isTargets packing _
  | cons e pending => exact isTargets

/-- Every step keeps the selection: a listing brings the chunks, and a size decides
as `chosen` does. -/
theorem Run.Chosen.resume (isChosen : run.Chosen reliable Lists chosen) {answer : Answer}
    (lists : run.stage = .listing → ∀ ids, answer = .listed (some ids) → Lists ids)
    (sizes : ∀ targets id pending, run.stage = .sizing targets id pending →
      ∀ ids, Lists ids → id ∈ ids → ∀ size, answer = .sized size →
        (selects run.params run.live id size = true → chosen id = true) ∧
          (reliable = true → chosen id = true → selects run.params run.live id size = true))
    {run' : Run} (continues : run.resume answer = .inl run') :
    run'.Chosen reliable Lists chosen := by
  unfold Run.Chosen at isChosen
  have judge : ∀ {targets judged seen : List Key} {id : Key} {pending : List Key}
      {size : Option Int}, run.stage = .sizing targets id pending → answer = .sized size →
      (judged = if selects run.params run.live id size then targets ++ [id] else targets) →
      Lists (seen ++ id :: pending) → Picked reliable chosen seen targets →
      Picked reliable chosen (seen ++ [id]) judged := by
    rintro targets judged seen id pending size stage answered rfl all picked
    obtain ⟨sound, complete⟩ := sizes targets id pending stage _ all
      (List.mem_append_right _ List.mem_cons_self) size answered
    exact picked.judge sound complete
  cases Run.next_of_resume continues with
  | sizeFirst stage =>
      exact ⟨[], lists stage _ rfl, ⟨List.Sublist.refl _, fun _ => rfl⟩⟩
  | @sizeNext targets judged id next size pending stage judges =>
      rw [stage] at isChosen
      obtain ⟨seen, all, picked⟩ := isChosen
      have split : seen ++ id :: next :: pending = (seen ++ [id]) ++ next :: pending := by simp
      have judged := judge stage rfl judges all picked
      rw [split] at all
      exact ⟨seen ++ [id], all, judged⟩
  | pack stage judges some =>
      rw [stage] at isChosen
      obtain ⟨seen, all, picked⟩ := isChosen
      exact Run.Chosen.toRead ⟨_, all, judge stage rfl judges all picked⟩ _ _
  | read stage =>
      rw [stage] at isChosen
      exact Run.Chosen.toRead isChosen _ _
  | put stage =>
      rw [stage] at isChosen
      exact Run.Chosen.toPut isChosen _ _
  | persist stage =>
      rw [stage] at isChosen
      exact isChosen
  | delete stage =>
      rw [stage] at isChosen
      exact isChosen

end Selection

/-- A run deletes after it has persisted. -/
theorem Run.deleting_of_resume {run run' : Run} {answer : Answer}
    (continues : run.resume answer = .inl run') {targets : List Key} {packing : Packing} {id : Key}
    {pending : List Key} (deleting : run'.stage = .deleting targets packing id pending) :
    (run.stage = .persisting targets packing ∧ answer = .ended true) ∨
      ∃ earlier, run.stage = .deleting targets packing earlier (id :: pending) := by
  have fromPut : ∀ (run : Run) targets' packing' outputs,
      (run.toPut targets' packing' outputs).stage ≠ .deleting targets packing id pending := by
    intro run targets' packing' outputs
    cases outputs <;> exact nofun
  have fromRead : ∀ (run : Run) targets' packing' exts,
      (run.toRead targets' packing' exts).stage ≠ .deleting targets packing id pending := by
    intro run targets' packing' exts
    cases exts
    · exact fromPut run targets' packing' _
    · exact nofun
  cases Run.next_of_resume continues with
  | sizeFirst => cases deleting
  | sizeNext => cases deleting
  | pack => exact absurd deleting (fromRead _ _ _ _)
  | read => exact absurd deleting (fromRead _ _ _ _)
  | put => exact absurd deleting (fromPut _ _ _ _)
  | persist stage =>
      cases deleting
      exact Or.inl ⟨stage, rfl⟩
  | delete stage =>
      cases deleting
      exact Or.inr ⟨_, stage⟩

end Compaction

end Fusey
