import Fusey.Compaction.Compactor

/-!
Contract: what the store and the durable index hold at each stage of a run of
`Compact` with nothing else going on (`internal/compaction/compactor.go`).

Owns:
- the persist function that makes an index durable or fails with either one;
- which objects a run keeps, adds and deletes, whatever store operation fails;
- that wherever a run stops, the index in memory and the durable one each belong
  to the objects that are there.

What is known of targets and packing is a parameter: a result about contents and
one about the layout of the chunks bring their own.
-/

set_option autoImplicit false

namespace Fusey

open GoInt Interleaving

namespace Compaction

/-- A persist function that makes the index durable when it succeeds, and
leaves the old or the new one durable when it fails. -/
def durably (idx : Index) (o : Oracle) (s : Objects × Index) : (Objects × Index) × Bool :=
  match o.outcome with
  | .ok => ((s.1, idx), true)
  | .failedOld => (s, false)
  | .failedNew => ((s.1, idx), false)

/-! ### Objects -/

/-- The outputs that hold something are in the store. -/
def OutputsStored (objects' : Objects) (packing : Packing) : Prop :=
  ∀ output ∈ packing.earlier ++ [packing.current], output.buf ≠ [] →
    objects'.get output.id = some output.buf

/-- The objects outside `gone` are as at the start. -/
def KeptExcept (objects objects' : Objects) (gone : List Key) : Prop :=
  ∀ id object, objects.get id = some object → id ∉ gone → objects'.get id = some object

/-- Every object was there at the start or is an output. -/
def GrownBy (objects objects' : Objects) (packing : Packing) : Prop :=
  ∀ id object, objects'.get id = some object → objects.get id = some object ∨
    ∃ output ∈ packing.outputs, output.id = id ∧ output.buf = object

section Objects

variable {objects objects' : Objects} {packing : Packing} {gone : List Key}

theorem KeptExcept.refl (objects : Objects) (gone : List Key) : KeptExcept objects objects gone :=
  fun _ _ stored _ => stored

/-- A put of an output changes no object of the start. -/
theorem KeptExcept.set (kept : KeptExcept objects objects' gone) {id : Key}
    (free : objects.get id = none) (data : Bytes) :
    KeptExcept objects (objects'.set id data) gone := by
  intro other object stored outside
  have different : other ≠ id := by
    rintro rfl
    rw [free] at stored
    cases stored
  rw [GoMap.get_set_ne _ _ different]
  exact kept other object stored outside

theorem KeptExcept.delete (kept : KeptExcept objects objects' gone) {id : Key}
    (member : id ∈ gone) : KeptExcept objects (objects'.delete id) gone := by
  intro other object stored outside
  have different : other ≠ id := by
    rintro rfl
    exact outside member
  rw [GoMap.get_delete_ne _ different]
  exact kept other object stored outside

theorem KeptExcept.mono (kept : KeptExcept objects objects' []) (gone : List Key) :
    KeptExcept objects objects' gone :=
  fun id object stored _ => kept id object stored List.not_mem_nil

theorem GrownBy.refl (objects : Objects) (packing : Packing) : GrownBy objects objects packing :=
  fun _ _ stored => Or.inl stored

theorem GrownBy.set (grown : GrownBy objects objects' packing) {output : OutputChunk}
    (member : output ∈ packing.outputs) :
    GrownBy objects (objects'.set output.id output.buf) packing := by
  intro id object stored
  rw [GoMap.get_set] at stored
  split_ifs at stored with isIt
  · cases stored
    exact Or.inr ⟨output, member, isIt.symm, rfl⟩
  · exact grown id object stored

theorem GrownBy.delete (grown : GrownBy objects objects' packing) (id : Key) :
    GrownBy objects (objects'.delete id) packing := by
  intro other object stored
  rw [GoMap.get_delete] at stored
  split_ifs at stored
  exact grown other object stored

/-- Once the last output is put, all of them are stored. -/
theorem outputsStored_of_written
    (written : ∀ output ∈ packing.outputs, objects'.get output.id = some output.buf) :
    OutputsStored objects' packing :=
  fun output member nonempty => written output (mem_outputs.mpr ⟨member, nonempty⟩)

/-- The deletion of a chunk that was there at the start leaves the outputs. -/
theorem OutputsStored.delete (stored : OutputsStored objects' packing) {id : Key}
    (other : ∀ output ∈ packing.earlier ++ [packing.current], output.id ≠ id) :
    OutputsStored (objects'.delete id) packing := by
  intro output member nonempty
  rw [GoMap.get_delete_ne _ (other output member)]
  exact stored output member nonempty

end Objects

/-! ### The stages -/

/-- The outputs have different names, none of which was taken, and the targets
were there. -/
structure Seated (objects : Objects) (targets : List Key) (packing : Packing) : Prop where
  free : ∀ output ∈ packing.earlier ++ [packing.current], objects.get output.id = none
  unique : ∀ output ∈ packing.earlier ++ [packing.current],
    ∀ other ∈ packing.earlier ++ [packing.current], output.id = other.id → output = other
  there : ∀ id ∈ targets, ∃ object, objects.get id = some object

theorem Packed.output_unique {Reads : Extent → Bytes → Prop} {params : Params}
    {done : List Extent} {packing : Packing} (packed : Packed Reads params done packing)
    {output other : OutputChunk} (member : output ∈ packing.earlier ++ [packing.current])
    (inOutputs : other ∈ packing.earlier ++ [packing.current]) (same : output.id = other.id) :
    output = other := by
  rcases List.mem_append.mp member with old | new <;>
    rcases List.mem_append.mp inOutputs with old' | new'
  · exact List.inj_on_of_nodup_map packed.distinct old old' same
  · rw [List.mem_singleton.mp new'] at same
    exact absurd same (packed.earlier_ne output old)
  · rw [List.mem_singleton.mp new] at same
    exact absurd same.symm (packed.earlier_ne other old')
  · rw [List.mem_singleton.mp new, List.mem_singleton.mp new']

/-- A packing whose names are free, for targets that are there. -/
theorem Packed.seated {Reads : Extent → Bytes → Prop} {params : Params} {done : List Extent}
    {packing : Packing} (packed : Packed Reads params done packing) {objects : Objects}
    (fresh : ∀ k, objects.get (compactedID (params.clock k) k) = none) {targets : List Key}
    (there : ∀ id ∈ targets, ∃ object, objects.get id = some object) :
    Seated objects targets packing where
  free := by
    intro output member
    obtain ⟨k, id⟩ := packed.output_id member
    rw [id]
    exact fresh k
  unique := fun _ member _ inOutputs same => packed.output_unique member inOutputs same
  there := there

theorem Seated.output_ne {objects : Objects} {targets : List Key} {packing : Packing}
    (seated : Seated objects targets packing) {id : Key} (isTarget : id ∈ targets)
    (output : OutputChunk) (member : output ∈ packing.earlier ++ [packing.current]) :
    output.id ≠ id := by
  rintro rfl
  obtain ⟨object, stored⟩ := seated.there _ isTarget
  rw [seated.free output member] at stored
  cases stored

/-- The chunk store of a run: reads change nothing but the cache. -/
def ReadsOnly (cs cs' : ChunkStore) : Prop := ∃ cache, cs' = { cs with cache := cache }

theorem ReadsOnly.read {cs cs' : ChunkStore} (reader : ReadsOnly cs cs') (objects : Objects)
    (disk : Bool) (id : Key) (offset length : Int) :
    ReadsOnly cs (cs'.read mapStore disk objects id offset length).1 := by
  obtain ⟨cache, rfl⟩ := reader
  exact ChunkStore.read_cache_only disk objects { cs with cache := cache } id offset length

/-- Targets and packing satisfy `P` once the packing is complete. -/
def Run.Holds (P : List Key → Packing → Prop) (run : Run) : Prop :=
  match run.stage with
  | .listing | .sizing .. | .reading .. => True
  | .putting targets packing _ _ | .persisting targets packing | .deleting targets packing _ _ =>
      P targets packing

/-- What a run has established of its packing and its targets. -/
theorem Run.Tracked.holds {Listed : Key → Prop} {Reads : Extent → Bytes → Prop} {idx : Index}
    {live : List Extent} {run : Run} (tracked : run.Tracked Listed Reads idx live) :
    run.Holds fun targets packing =>
      Packed Reads run.params (moved live targets) packing ∧ ∀ id ∈ targets, Listed id := by
  obtain ⟨-, known⟩ := tracked
  unfold Run.Holds
  cases stage : run.stage <;> rw [stage] at known
  case putting => exact ⟨known.2.2.1, known.2.1⟩
  case persisting => exact ⟨known.2.2, known.2.1⟩
  case deleting => exact ⟨known.2.2.1, known.2.1⟩
  all_goals trivial

/-- What the store and the durable index hold at each stage, over a chunk store
that satisfies `Reader` as long as it reads. -/
def Run.Stores (Reader : ChunkStore → Prop) (objects : Objects) (durable : Index) (run : Run)
    (s : Objects × Index) : Prop :=
  match run.stage with
  | .listing | .sizing .. | .reading .. => s = (objects, durable) ∧ Reader run.cs
  | .putting _ packing output pending =>
      s.2 = durable ∧ KeptExcept objects s.1 [] ∧ GrownBy objects s.1 packing ∧
        ∃ written, packing.outputs = written ++ output :: pending ∧
          ∀ output ∈ written, s.1.get output.id = some output.buf
  | .persisting _ packing =>
      s.2 = durable ∧ KeptExcept objects s.1 [] ∧ GrownBy objects s.1 packing ∧
        OutputsStored s.1 packing
  | .deleting targets packing id pending =>
      s.2 = run.idx ∧ KeptExcept objects s.1 targets ∧ GrownBy objects s.1 packing ∧
        OutputsStored s.1 packing ∧
        ∃ deleted, targets = deleted ++ id :: pending ∧ ∀ x ∈ deleted, s.1.get x = none

/-- What a run may leave behind: the index of the start over everything it names,
or the remapped one over the outputs. -/
def Leaves (P : List Key → Packing → Prop) (objects : Objects) (idx idx' : Index)
    (objects' : Objects) : Prop :=
  ∃ targets packing, P targets packing ∧ GrownBy objects objects' packing ∧
    ((idx' = idx ∧ KeptExcept objects objects' []) ∨
      (idx' = idx.remapExtents packing.remap ∧ KeptExcept objects objects' targets ∧
        OutputsStored objects' packing))

section Steps

theorem put_ended {δ : Type} {persist : Index → Oracle → Objects × δ → (Objects × δ) × Bool}
    {s s' : Objects × δ} {id : Key} {data : Bytes} {o : Oracle}
    (applied : apply mapStore persist s (.put id data) o = some (s', .ended true)) :
    s' = (s.1.set id data, s.2) := by
  simp only [apply, Store.tryPut] at applied
  cases outcome : o.outcome <;> rw [outcome] at applied <;> cases applied
  rfl

theorem delete_ended {δ : Type} {persist : Index → Oracle → Objects × δ → (Objects × δ) × Bool}
    {s s' : Objects × δ} {id : Key} {o : Oracle}
    (applied : apply mapStore persist s (.delete id) o = some (s', .ended true)) :
    s' = (s.1.delete id, s.2) := by
  simp only [apply, Store.tryDelete] at applied
  cases outcome : o.outcome <;> rw [outcome] at applied <;> cases applied
  rfl

theorem durably_ended {s s' : Objects × Index} {idx : Index} {o : Oracle}
    (applied : apply mapStore durably s (.persist idx) o = some (s', .ended true)) :
    s' = (s.1, idx) := by
  simp only [apply, durably] at applied
  cases outcome : o.outcome <;> rw [outcome] at applied <;> cases applied
  rfl

/-- The persist function leaves the objects, and one of the two indices. -/
theorem durably_cases (idx : Index) (o : Oracle) (s : Objects × Index) :
    (durably idx o s).1 = s ∨ (durably idx o s).1 = (s.1, idx) := by
  unfold durably
  cases o.outcome
  · exact Or.inr rfl
  · exact Or.inl rfl
  · exact Or.inr rfl

variable {Reader : ChunkStore → Prop} {P : List Key → Packing → Prop} {objects : Objects}
  {durable : Index} {run : Run} {s s' : Objects × Index} {o : Oracle} {a : Answer}

/-- The chunk store that a read hands back. -/
theorem read_of_apply {cs cs' : ChunkStore} {id : Key} {offset length : Int} {data : Bytes}
    (applied : apply mapStore durably s (.read cs id offset length) o =
      some (s', .bytes cs' (.ok data))) :
    cs.read mapStore o.disk s.1 id offset length = (cs', .ok data) := by
  simp only [apply] at applied
  split_ifs at applied
  · obtain ⟨-, answer⟩ := Prod.mk.inj (Option.some.inj applied)
    exact Prod.ext (Answer.bytes.inj answer).1 (Answer.bytes.inj answer).2
  · cases applied

theorem Run.Stores.toPut {targets : List Key} {packing : Packing} (sameIndex : s.2 = durable)
    (kept : KeptExcept objects s.1 []) (grown : GrownBy objects s.1 packing)
    (written : List OutputChunk) {pending : List OutputChunk}
    (split : packing.outputs = written ++ pending)
    (stored : ∀ output ∈ written, s.1.get output.id = some output.buf) :
    (run.toPut targets packing pending).Stores Reader objects durable s := by
  cases pending with
  | cons output pending => exact ⟨sameIndex, kept, grown, written, split, stored⟩
  | nil =>
      rw [List.append_nil] at split
      exact ⟨sameIndex, kept, grown, outputsStored_of_written (split ▸ stored)⟩

theorem Run.Stores.toRead {targets : List Key} {packing : Packing} (reader : Reader run.cs)
    (pending : List Extent) :
    (run.toRead targets packing pending).Stores Reader objects durable (objects, durable) := by
  cases pending with
  | cons e pending => exact ⟨rfl, reader⟩
  | nil =>
      exact Run.Stores.toPut rfl (.refl _ _) (.refl _ _) [] (List.nil_append _).symm
        (fun output member => by cases member)

/-- What is deleted stays away. -/
theorem gone_delete {objects : Objects} {deleted : List Key}
    (gone : ∀ x ∈ deleted, objects.get x = none) (id : Key) :
    ∀ x ∈ deleted ++ [id], (objects.delete id).get x = none := by
  intro x member
  rw [GoMap.get_delete]
  split_ifs with isIt
  · rfl
  · rcases List.mem_append.mp member with old | new
    · exact gone x old
    · exact absurd (List.mem_singleton.mp new) isIt

/-- A step of a run that goes on leaves the store as the next stage has it. -/
theorem Run.Stores.step (seated : ∀ targets packing, P targets packing →
      Seated objects targets packing)
    (reads : ∀ cs disk id offset length, Reader cs →
      Reader (cs.read mapStore disk objects id offset length).1)
    (stores : run.Stores Reader objects durable s) (holds : run.Holds P)
    (applied : apply mapStore durably s run.effect o = some (s', a)) {run' : Run}
    (continues : run.resume a = .inl run') : run'.Stores Reader objects durable s' := by
  cases Run.next_of_resume continues with
  | sizeFirst stage =>
      simp only [Run.Stores, stage] at stores
      rw [Run.same_of_apply applied (by simp [stage])]
      exact stores
  | sizeNext stage =>
      simp only [Run.Stores, stage] at stores
      rw [Run.same_of_apply applied (by simp [stage])]
      exact stores
  | pack stage =>
      simp only [Run.Stores, stage] at stores
      rw [Run.same_of_apply applied (by simp [stage]), stores.1]
      exact Run.Stores.toRead stores.2 _
  | @read targets packing e pending cs data stage =>
      simp only [Run.Stores, stage] at stores
      obtain ⟨rfl, reader⟩ := stores
      rw [Run.same_of_apply applied (by simp [stage])]
      simp only [Run.effect, stage] at applied
      have handed : (run.cs.read mapStore o.disk objects e.chunkID e.chunkOffset e.length).1 = cs :=
        congrArg Prod.fst (read_of_apply applied)
      exact @Run.Stores.toRead _ _ _ { run with cs := cs } _ _ (handed ▸ reads _ _ _ _ _ reader) _
  | @put targets packing output pending stage =>
      simp only [Run.Holds, Run.Stores, stage] at holds stores
      obtain ⟨isDurable, kept, grown, written, split, stored⟩ := stores
      have names := seated targets packing holds
      have member : output ∈ packing.outputs := split ▸ List.mem_append_right _ List.mem_cons_self
      have isOutput := (mem_outputs.mp member).1
      simp only [Run.effect, stage] at applied
      rw [put_ended applied]
      have next : packing.outputs = (written ++ [output]) ++ pending := by
        rw [split, List.append_assoc, List.singleton_append]
      refine Run.Stores.toPut (s := (s.1.set output.id output.buf, s.2)) isDurable
        (kept.set (names.free output isOutput) output.buf) (grown.set member) (written ++ [output])
        next ?_
      intro other inWritten
      rw [GoMap.get_set]
      split_ifs with sameID
      · have inOutputs : other ∈ packing.outputs := next ▸ List.mem_append_left _ inWritten
        rw [names.unique other (mem_outputs.mp inOutputs).1 output isOutput sameID]
      · rcases List.mem_append.mp inWritten with old | new
        · exact stored other old
        · exact absurd (congrArg OutputChunk.id (List.mem_singleton.mp new)) sameID
  | persist stage =>
      simp only [Run.Stores, stage] at stores
      obtain ⟨-, kept, grown, stored⟩ := stores
      simp only [Run.effect, stage] at applied
      rw [durably_ended applied]
      exact ⟨rfl, kept.mono _, grown, stored, [], rfl, fun x member => by cases member⟩
  | @delete targets packing id next pending stage =>
      simp only [Run.Holds, Run.Stores, stage] at holds stores
      obtain ⟨isDurable, kept, grown, stored, deleted, split, gone⟩ := stores
      have member : id ∈ targets := split ▸ List.mem_append_right _ List.mem_cons_self
      simp only [Run.effect, stage] at applied
      rw [delete_ended applied]
      refine ⟨isDurable, kept.delete member, grown.delete id,
        stored.delete ((seated targets packing holds).output_ne member), deleted ++ [id], ?_,
        gone_delete gone id⟩
      rw [split, List.append_assoc, List.singleton_append]

end Steps

/-! ### Wherever a run stops -/

/-- The index in memory at a point of a run. -/
def indexAt : Run ⊕ Reply → Index
  | .inl run => run.idx
  | .inr reply => reply.idx

/-- `Compact` returns with the index it has in memory. -/
theorem Run.idx_of_resume {run : Run} {a : Answer} {reply : Reply}
    (returned : run.resume a = .inr reply) : reply.idx = run.idx := by
  unfold Run.resume at returned
  split at returned
  next ids stage =>
    cases ids <;> cases returned
    rfl
  next targets id pending size stage =>
    cases pending with
    | cons next pending => cases returned
    | nil =>
        generalize (if selects run.params run.live id size then targets ++ [id] else targets) =
          judged at returned
        simp only [Run.toSize, Run.toPack] at returned
        split_ifs at returned
        cases returned
        rfl
  next => cases returned
  next => cases returned
  next targets packing stage =>
    cases targets <;> cases returned
    rfl
  next targets packing id pending stage =>
    cases pending <;> cases returned
    rfl
  next =>
    cases returned
    rfl

section Leaves

variable {Reader : ChunkStore → Prop} {P : List Key → Packing → Prop} {Listed : Key → Prop}
  {Reads : Extent → Bytes → Prop} {params : Params} {objects : Objects} {idx durable : Index}
  {live : List Extent} {run : Run} {s s' : Objects × Index} {o : Oracle} {a : Answer}

theorem Leaves.untouched (begins : P [] (.begin params)) :
    Leaves P objects idx idx objects :=
  ⟨[], .begin params, begins, .refl _ _, Or.inl ⟨rfl, .refl _ _⟩⟩

/-- At any point both indices have what they need. -/
theorem Run.Stores.leaves (begins : P [] (.begin params))
    (stores : run.Stores Reader objects durable s) (holds : run.Holds P)
    (tracked : run.Tracked Listed Reads idx live) :
    Leaves P objects idx run.idx s.1 ∧ (durable = idx → Leaves P objects idx s.2 s.1) := by
  obtain ⟨-, known⟩ := tracked
  unfold Run.Stores at stores
  unfold Run.Holds at holds
  cases stage : run.stage <;> rw [stage] at stores holds known
  case listing =>
    rw [stores.1, known]
    exact ⟨.untouched begins, fun same => same ▸ .untouched begins⟩
  case sizing =>
    rw [stores.1, known.1]
    exact ⟨.untouched begins, fun same => same ▸ .untouched begins⟩
  case reading =>
    rw [stores.1, known.1]
    exact ⟨.untouched begins, fun same => same ▸ .untouched begins⟩
  case putting targets packing output pending =>
    obtain ⟨isDurable, kept, grown, -⟩ := stores
    rw [known.1, isDurable]
    exact ⟨⟨targets, packing, holds, grown, Or.inl ⟨rfl, kept⟩⟩,
      fun same => ⟨targets, packing, holds, grown, Or.inl ⟨same, kept⟩⟩⟩
  case persisting targets packing =>
    obtain ⟨isDurable, kept, grown, stored⟩ := stores
    rw [isDurable]
    exact ⟨⟨targets, packing, holds, grown, Or.inr ⟨known.1, kept.mono _, stored⟩⟩,
      fun same => ⟨targets, packing, holds, grown, Or.inl ⟨same, kept⟩⟩⟩
  case deleting targets packing id pending =>
    obtain ⟨isDurable, kept, grown, stored, -⟩ := stores
    rw [isDurable]
    have after : Leaves P objects idx run.idx s.1 :=
      ⟨targets, packing, holds, grown, Or.inr ⟨known.1, kept, stored⟩⟩
    exact ⟨after, fun _ => after⟩

/-- And so they have behind any step, whatever became of it. -/
theorem Run.Stores.leaves_of_apply (begins : P [] (.begin params))
    (seated : ∀ targets packing, P targets packing → Seated objects targets packing)
    (stores : run.Stores Reader objects durable s) (holds : run.Holds P)
    (tracked : run.Tracked Listed Reads idx live)
    (applied : apply mapStore durably s run.effect o = some (s', a)) :
    Leaves P objects idx run.idx s'.1 ∧ (durable = idx → Leaves P objects idx s'.2 s'.1) := by
  have before := stores.leaves begins holds tracked
  obtain ⟨-, known⟩ := tracked
  rcases Run.apply_cases applied with rfl | ⟨targets, packing, output, pending, stage, rfl⟩ |
    ⟨targets, packing, stage, same, -⟩ | ⟨targets, packing, id, pending, stage, rfl⟩
  · exact before
  · simp only [Run.Holds, Run.Stores, stage] at known holds stores
    obtain ⟨isDurable, kept, grown, written, split, -⟩ := stores
    have member : output ∈ packing.outputs := split ▸ List.mem_append_right _ List.mem_cons_self
    have names := seated targets packing holds
    have kept' := kept.set (names.free output (mem_outputs.mp member).1) output.buf
    rw [known.1, isDurable]
    exact ⟨⟨targets, packing, holds, grown.set member, Or.inl ⟨rfl, kept'⟩⟩,
      fun isIdx => ⟨targets, packing, holds, grown.set member, Or.inl ⟨isIdx, kept'⟩⟩⟩
  · simp only [Run.Holds, Run.Stores, stage] at known holds stores
    obtain ⟨isDurable, kept, grown, stored⟩ := stores
    have after : Leaves P objects idx run.idx s.1 :=
      ⟨targets, packing, holds, grown, Or.inr ⟨known.1, kept.mono _, stored⟩⟩
    rcases durably_cases run.idx o s with old | new
    · rw [same, old]
      exact before
    · rw [same, new]
      exact ⟨after, fun _ => after⟩
  · simp only [Run.Holds, Run.Stores, stage] at known holds stores
    obtain ⟨isDurable, kept, grown, stored, deleted, split, -⟩ := stores
    have member : id ∈ targets := split ▸ List.mem_append_right _ List.mem_cons_self
    have after : Leaves P objects idx run.idx (s.1.delete id) :=
      ⟨targets, packing, holds, grown.delete id, Or.inr ⟨known.1, kept.delete member,
        stored.delete ((seated targets packing holds).output_ne member)⟩⟩
    rw [isDurable]
    exact ⟨after, fun _ => after⟩

/-- The rule for a step, to a point at which the run goes on or has returned. -/
theorem Run.Stores.leaves_of_resume (begins : P [] (.begin params))
    (seated : ∀ targets packing, P targets packing → Seated objects targets packing)
    (stores : run.Stores Reader objects durable s) (holds : run.Holds P)
    (tracked : run.Tracked Listed Reads idx live)
    (applied : apply mapStore durably s run.effect o = some (s', a))
    (goesOn : ∀ run', run.resume a = .inl run' → run'.Stores Reader objects durable s' ∧
      run'.Holds P ∧ run'.Tracked Listed Reads idx live) :
    Leaves P objects idx (indexAt (run.resume a)) s'.1 ∧
      (durable = idx → Leaves P objects idx s'.2 s'.1) := by
  have after := stores.leaves_of_apply begins seated holds tracked applied
  cases next : run.resume a with
  | inl run' =>
      obtain ⟨stores', holds', tracked'⟩ := goesOn run' next
      exact stores'.leaves begins holds' tracked'
  | inr reply =>
      show Leaves P objects idx reply.idx s'.1 ∧ _
      rw [Run.idx_of_resume next]
      exact after

end Leaves

end Compaction

end Fusey
