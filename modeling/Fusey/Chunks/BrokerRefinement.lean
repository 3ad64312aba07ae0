import Fusey.Chunks.Broker
import Fusey.Chunks.Cache
import Fusey.Compaction.Compactor

/-!
Contract: the broker store over the reference broker refines a key-to-bytes map,
and agrees with the local store (`internal/chunks/broker.go`, `broker/main.py`,
`internal/chunks/local.go`).

Owns:
- sequences of store operations with the IDs that fusey mints, and what a
  key-to-bytes map answers to each;
- `LocalStore` over the files of its directory;
- the refinement over every sequence of operations, and the agreement of the two
  stores on the operations that both have.
-/

set_option autoImplicit false

namespace Fusey

open GoInt Compaction

/-! ### Operations -/

/-- The IDs of objects that fusey mints. -/
inductive MintedID : Key → Prop where
  | chunk (seq : Nat) : MintedID (chunkID seq)
  | compacted (nano seq : Nat) : MintedID (compactedID nano seq)
  | index : MintedID indexKey

/-- A call of the store interface. -/
inductive StoreOp where
  | put (id : Key) (data : Bytes)
  | putRaw (key : Key) (data : Bytes)
  | getRange (id : Key) (offset length : Int)
  | getRaw (key : Key)
  | delete (id : Key)
  | size (id : Key)
  | list

/-- How a call ends. `ErrNotFound` is told apart from other errors. -/
inductive StoreAnswer where
  | done
  | bytes (data : Bytes)
  | size (length : Int)
  | ids (ids : List Key)
  | notFound
  | failed
deriving DecidableEq

def StoreAnswer.IsError (answer : StoreAnswer) : Prop := answer = .notFound ∨ answer = .failed

namespace StoreOp

/-- MintedID IDs, a range that starts at a non-negative offset and is not empty, and
lengths that Go has. -/
def Valid : StoreOp → Prop
  | .put id data | .putRaw id data => MintedID id ∧ (data.length : Int) < 9223372036854775808
  | .getRange id offset length =>
      MintedID id ∧ 0 ≤ offset ∧ 1 ≤ length ∧ offset < 9223372036854775808 ∧
        length < 9223372036854775808
  | .getRaw id | .delete id | .size id => MintedID id
  | .list => True

/-- What a call does to a key-to-bytes map. -/
def update (objects : Objects) : StoreOp → Objects
  | .put id data | .putRaw id data => objects.set id data
  | .delete id => objects.delete id
  | _ => objects

/-- What a key-to-bytes map answers: the range if it lies inside the object, the
whole object or its length, and the IDs other than the index, each once. -/
def Specified (objects : Objects) (answer : StoreAnswer) : StoreOp → Prop
  | .put _ _ | .putRaw _ _ | .delete _ => answer = .done
  | .getRange id offset length =>
      match objects.get id with
      | none => answer.IsError
      | some object =>
          if offset + length ≤ object.length then
            answer = .bytes ((object.drop offset.toNat).take length.toNat)
          else answer.IsError
  | .getRaw key =>
      match objects.get key with
      | none => answer = .notFound
      | some object => answer = .bytes object
  | .size id =>
      match objects.get id with
      | none => answer = .notFound
      | some object => answer = .size object.length
  | .list => ∃ ids, answer = .ids ids ∧ ids.Nodup ∧
      ∀ id, id ∈ ids ↔ id ≠ indexKey ∧ ∃ object, objects.get id = some object

/-- A sequence of calls. -/
def runAll {σ : Type} (step : σ → StoreOp → σ × StoreAnswer) : σ → List StoreOp → List StoreAnswer
  | _, [] => []
  | s, op :: rest => (step s op).2 :: runAll step (step s op).1 rest

end StoreOp

/-- The answer that a result of the client is. -/
def StoreAnswer.ofResult {α : Type} (value : α → StoreAnswer) : Except BrokerError α → StoreAnswer
  | .ok a => value a
  | .error .notFound => .notFound
  | .error _ => .failed

/-- A call of `BrokerStore` over the reference broker. -/
def Broker.call (broker : Broker) (objects : Objects) : StoreOp → Objects × StoreAnswer
  | .put id data =>
      let after := broker.client.put broker.transport id data objects
      (after.1, .ofResult (fun _ => .done) after.2)
  | .putRaw key data =>
      let after := broker.client.putRaw broker.transport key data objects
      (after.1, .ofResult (fun _ => .done) after.2)
  | .getRange id offset length =>
      let after := broker.client.getRange broker.transport id offset length objects
      (after.1, .ofResult .bytes after.2)
  | .getRaw key =>
      let after := broker.client.getRaw broker.transport key objects
      (after.1, .ofResult .bytes after.2)
  | .delete id =>
      let after := broker.client.delete broker.transport id objects
      (after.1, .ofResult (fun _ => .done) after.2)
  | .size id =>
      let after := broker.client.size broker.transport id objects
      (after.1, .ofResult .size after.2)
  | .list =>
      let after := broker.client.list broker.transport objects
      (after.1, .ofResult .ids after.2)

/-! ### Minted IDs -/

/-- An ID of safe characters. -/
theorem plainID_of_safe {id : Key} (nonempty : id ≠ []) (safe : id.all isSafe = true) :
    PlainID id where
  noSlash := fun member => absurd (List.all_eq_true.mp safe '/' member) (by decide)
  valid := by
    have last : ¬ id.getLast? = some '\n' := fun newline =>
      absurd (List.all_eq_true.mp safe '\n' (List.mem_of_getLast? newline)) (by decide)
    simp only [validateId, if_neg last, Bool.and_eq_true, decide_eq_true_eq]
    exact ⟨nonempty, safe⟩

theorem all_isSafe_of_digits {digits : List Char} (each : ∀ c ∈ digits, c.isDigit = true) :
    digits.all isSafe = true := by
  refine List.all_eq_true.mpr fun c member => ?_
  simp [isSafe, Char.isAlphanum, each c member]

theorem MintedID.plain {id : Key} (minted : MintedID id) : PlainID id := by
  cases minted with
  | chunk seq =>
      refine plainID_of_safe (List.append_ne_nil_of_left_ne_nil (by decide) _) ?_
      unfold chunkID
      rw [List.all_append, Bool.and_eq_true]
      exact ⟨by decide, all_isSafe_of_digits fun _ => GoFmt.isDigit_of_mem_padded⟩
  | compacted nano seq =>
      have number : ∀ n, (GoFmt.decimal n).all isSafe = true :=
        fun n => all_isSafe_of_digits fun _ => GoFmt.isDigit_of_mem_decimal
      refine plainID_of_safe (List.append_ne_nil_of_left_ne_nil (by decide) _) ?_
      unfold compactedID
      rw [List.all_append, Bool.and_eq_true, List.all_append, Bool.and_eq_true]
      exact ⟨by decide, number nano, Bool.and_eq_true_iff.mpr ⟨by decide, number seq⟩⟩
  | index => exact plainID_of_safe (by decide) (by decide)

/-! ### The refinement -/

/-- The objects are of lengths that Go has. -/
def Bounded (objects : Objects) : Prop :=
  ∀ id object, objects.get id = some object → (object.length : Int) < 9223372036854775808

theorem StoreOp.Valid.bounded {op : StoreOp} (valid : op.Valid) {objects : Objects}
    (bounded : Bounded objects) : Bounded (op.update objects) := by
  have set : ∀ (key : Key) (data : Bytes), (data.length : Int) < 9223372036854775808 →
      Bounded (objects.set key data) := by
    intro key data small id object stored
    rw [GoMap.get_set] at stored
    split_ifs at stored
    · cases stored
      exact small
    · exact bounded id object stored
  cases op with
  | put id data => exact set id data valid.2
  | putRaw id data => exact set id data valid.2
  | delete key =>
      intro id object stored
      simp only [update, GoMap.get_delete] at stored
      split_ifs at stored
      exact bounded id object stored
  | _ => exact bounded

/-- One call does to the objects of the broker what it does to a map, and is
answered as the map answers it. -/
theorem Broker.call_specified (broker : Broker) {objects : Objects} {op : StoreOp}
    (valid : op.Valid) (bounded : Bounded objects) :
    (broker.call objects op).1 = op.update objects ∧
      op.Specified objects (broker.call objects op).2 := by
  cases op with
  | put id data =>
      rw [Broker.call, BrokerStore.put_eq valid.1.plain]
      exact ⟨rfl, rfl⟩
  | putRaw key data =>
      rw [Broker.call, BrokerStore.putRaw, BrokerStore.put_eq valid.1.plain]
      exact ⟨rfl, rfl⟩
  | delete id =>
      rw [Broker.call, BrokerStore.delete_eq valid.plain]
      exact ⟨rfl, rfl⟩
  | getRaw key =>
      rw [Broker.call, BrokerStore.getRaw_eq valid.plain]
      refine ⟨rfl, ?_⟩
      simp only [StoreOp.Specified]
      cases objects.get key <;> rfl
  | size id =>
      rw [Broker.call, BrokerStore.size_eq valid.plain]
      refine ⟨rfl, ?_⟩
      simp only [StoreOp.Specified]
      cases objects.get id <;> rfl
  | getRange id offset length =>
      obtain ⟨minted, low, positive, offsetFits, lengthFits⟩ := valid
      rw [Broker.call, BrokerStore.getRange_eq minted.plain low positive offsetFits lengthFits
        (bounded id)]
      refine ⟨rfl, ?_⟩
      simp only [StoreOp.Specified]
      cases objects.get id with
      | none => exact Or.inl rfl
      | some object =>
          by_cases inside : offset + length ≤ object.length
          · have read : readAt object offset length =
                some ((object.drop offset.toNat).take length.toNat) :=
              if_pos ⟨low, by omega, Or.inr inside⟩
            simp only [if_pos inside, read]
            rfl
          · have read : readAt object offset length = none := if_neg (by omega)
            simp only [if_neg inside, read]
            exact Or.inr rfl
  | list =>
      rw [Broker.call, BrokerStore.list_eq]
      obtain ⟨distinct, members⟩ := broker.lists objects
      refine ⟨rfl, _, rfl, distinct.filter _, fun id => ?_⟩
      rw [List.mem_filter, members, decide_eq_true_eq]
      exact and_comm

/-- If every call does to its store what it does to a map, the answer to each call
is one for the map that the earlier calls lead to. -/
theorem StoreOp.runAll_answers (inv : Objects → Prop) (domain : StoreOp → Prop)
    (answers : Objects → StoreOp → StoreAnswer → Prop)
    {step : Objects → StoreOp → Objects × StoreAnswer}
    (kept : ∀ objects op, inv objects → domain op → inv (op.update objects))
    (each : ∀ objects op, inv objects → domain op →
      (step objects op).1 = op.update objects ∧ answers objects op (step objects op).2)
    {ops : List StoreOp} (valid : ∀ op ∈ ops, domain op) :
    ∀ {objects : Objects}, inv objects → ∀ (k : Nat) op, ops[k]? = some op →
      ∃ answer, (runAll step objects ops)[k]? = some answer ∧
        answers ((ops.take k).foldl StoreOp.update objects) op answer := by
  induction ops with
  | nil => simp
  | cons first rest inductionHypothesis =>
      intro objects holds k op found
      have here := valid first List.mem_cons_self
      obtain ⟨updated, answered⟩ := each objects first holds here
      cases k with
      | zero =>
          cases found
          exact ⟨_, rfl, answered⟩
      | succ k =>
          obtain ⟨answer, given, specified⟩ :=
            inductionHypothesis (fun op member => valid op (List.mem_cons_of_mem _ member))
              (kept objects first holds here) k op found
          refine ⟨answer, ?_, specified⟩
          simp only [runAll, updated, List.getElem?_cons_succ]
          exact given

/-! ### The local store -/

/-- `LocalStore`, over the files of its directory, with the order in which
`os.ReadDir` returns their names. -/
structure LocalStore where
  readDir : Objects → List Key
  lists : ∀ files, Lists files (readDir files)

/-- A call of `LocalStore` that the disk accepts. -/
def LocalStore.call (store : LocalStore) (files : Objects) : StoreOp → Objects × StoreAnswer
  | .put id data =>
      -- `os.WriteFile` to the temporary file, then `os.Rename`.
      let written := files.set (tmpPath id) data
      ((written.delete (tmpPath id)).set id data, .done)
  | .getRange id offset length =>
      match (files.get id).bind fun file => readAt file offset length with
      | some data => (files, .bytes data)
      | none => (files, .failed)
  | .delete id => (files.delete id, .done)
  | .size id =>
      match files.get id with
      | some file => (files, .size file.length)
      | none => (files, .failed)
  | .list => (files, .ids (store.readDir files))
  -- `LocalStore` has no raw operations.
  | .putRaw _ _ | .getRaw _ => (files, .failed)

/-- The calls on chunks that both stores have. -/
def StoreOp.Shared : StoreOp → Prop
  | .put id _ | .getRange id _ _ | .delete id | .size id => id ≠ indexKey
  | .list => True
  | .putRaw _ _ | .getRaw _ => False

/-- The same answer, with errors compared only as errors and lists as sets. -/
def StoreAnswer.Agrees (left right : StoreAnswer) : Prop :=
  left = right ∨ (left.IsError ∧ right.IsError) ∨
    ∃ ids ids', left = .ids ids ∧ right = .ids ids' ∧ ∀ id, id ∈ ids ↔ id ∈ ids'

theorem MintedID.chunkName {id : Key} (minted : MintedID id) (notIndex : id ≠ indexKey) :
    ChunkName id := by
  cases minted with
  | chunk seq => exact chunkName_chunkID seq
  | compacted nano seq =>
      obtain ⟨front, name⟩ := compactedID_eq nano seq
      rw [name]
      exact chunkName_of_digits front (GoFmt.decimal_ne_nil seq)
        fun _ => GoFmt.isDigit_of_mem_decimal
  | index => exact absurd rfl notIndex

/-- The directory of the local store holds chunks only. -/
def ChunksOnly (files : Objects) : Prop :=
  ∀ id file, files.get id = some file → ChunkName id ∧ id ≠ indexKey

theorem StoreOp.Valid.chunksOnly {op : StoreOp} (valid : op.Valid) (shared : op.Shared)
    {files : Objects} (chunks : ChunksOnly files) : ChunksOnly (op.update files) := by
  cases op with
  | put key data =>
      intro id file stored
      simp only [update, GoMap.get_set] at stored
      split_ifs at stored with same
      · exact same ▸ ⟨valid.1.chunkName shared, shared⟩
      · exact chunks id file stored
  | delete key =>
      intro id file stored
      simp only [update, GoMap.get_delete] at stored
      split_ifs at stored
      exact chunks id file stored
  | putRaw _ _ => cases shared
  | _ => exact chunks

/-- The local store does to its files what a call does to a map, and what a map
answers agrees with its answer. -/
theorem LocalStore.call_agrees (store : LocalStore) {files : Objects} {op : StoreOp}
    (valid : op.Valid) (shared : op.Shared) (chunks : ChunksOnly files) :
    (store.call files op).1 = op.update files ∧
      ∀ answer, op.Specified files answer → answer.Agrees (store.call files op).2 := by
  cases op with
  | put id data =>
      have noTmp : files.get (tmpPath id) = none := by
        cases stored : files.get (tmpPath id) with
        | none => rfl
        | some file => exact absurd rfl ((chunks _ file stored).1.ne_tmpPath id)
      refine ⟨GoMap.ext fun other => ?_, fun answer done => Or.inl done⟩
      simp only [call, StoreOp.update, GoMap.get_set, GoMap.get_delete]
      by_cases isTmp : other = tmpPath id
      · rw [isTmp, noTmp]
        simp
      · simp only [if_neg isTmp]
  | delete id => exact ⟨rfl, fun answer done => Or.inl done⟩
  | getRange id offset length =>
      obtain ⟨-, low, positive, -, -⟩ := valid
      simp only [call, StoreOp.update, StoreOp.Specified]
      cases files.get id with
      | none => exact ⟨rfl, fun answer error => Or.inr (Or.inl ⟨error, Or.inr rfl⟩)⟩
      | some file =>
          by_cases inside : offset + length ≤ file.length
          · have read : readAt file offset length =
                some ((file.drop offset.toNat).take length.toNat) :=
              if_pos ⟨low, by omega, Or.inr inside⟩
            simp only [Option.bind_some, read, if_pos inside, true_and]
            exact fun answer bytes => Or.inl bytes
          · have read : readAt file offset length = none := if_neg (by omega)
            simp only [Option.bind_some, read, if_neg inside, true_and]
            exact fun answer error => Or.inr (Or.inl ⟨error, Or.inr rfl⟩)
  | size id =>
      simp only [call, StoreOp.update, StoreOp.Specified]
      cases files.get id with
      | none =>
          exact ⟨rfl, fun answer absent => Or.inr (Or.inl ⟨Or.inl absent, Or.inr rfl⟩)⟩
      | some file => exact ⟨rfl, fun answer size => Or.inl size⟩
  | list =>
      refine ⟨rfl, ?_⟩
      rintro answer ⟨ids, rfl, -, members⟩
      refine Or.inr (Or.inr ⟨ids, _, rfl, rfl, fun id => ?_⟩)
      rw [members, (store.lists files).2]
      refine ⟨And.right, fun stored => ⟨?_, stored⟩⟩
      obtain ⟨file, found⟩ := stored
      exact (chunks id file found).2
  | putRaw _ _ | getRaw _ => cases shared

/-! ### Every sequence of calls -/

/-- `BrokerStore` over the reference broker refines a key-to-bytes map: in every
sequence of calls, each is answered as the map that the earlier calls lead to
answers it. On the calls of chunks that both stores have, it agrees with
`LocalStore`. -/
theorem broker_refines_map (broker : Broker) (store : LocalStore) (ops : List StoreOp)
    (valid : ∀ op ∈ ops, op.Valid) :
    (∀ (k : Nat) op, ops[k]? = some op →
      ∃ answer, (StoreOp.runAll broker.call ∅ ops)[k]? = some answer ∧
        op.Specified ((ops.take k).foldl StoreOp.update ∅) answer) ∧
      ((∀ op ∈ ops, op.Shared) → ∀ (k : Nat) op, ops[k]? = some op →
        ∃ answer answer', (StoreOp.runAll broker.call ∅ ops)[k]? = some answer ∧
          (StoreOp.runAll store.call ∅ ops)[k]? = some answer' ∧ answer.Agrees answer') := by
  have empty : ∀ (inv : Key → Bytes → Prop) id object,
      (∅ : Objects).get id = some object → inv id object := by
    intro inv id object stored
    cases stored
  have specified := StoreOp.runAll_answers Bounded StoreOp.Valid
    (fun objects op => op.Specified objects)
    (fun objects op bounded valid => valid.bounded bounded)
    (fun objects op bounded valid => broker.call_specified valid bounded) valid
    (empty fun _ object => (object.length : Int) < 9223372036854775808)
  refine ⟨specified, fun shared k op found => ?_⟩
  obtain ⟨answer, given, meets⟩ := specified k op found
  have agrees := StoreOp.runAll_answers ChunksOnly (fun op => op.Valid ∧ op.Shared)
    (fun files op answer' => ∀ answer, op.Specified files answer → answer.Agrees answer')
    (fun files op chunks both => both.1.chunksOnly both.2 chunks)
    (fun files op chunks both => store.call_agrees both.1 both.2 chunks)
    (fun op member => ⟨valid op member, shared op member⟩)
    (empty fun id _ => ChunkName id ∧ id ≠ indexKey)
  obtain ⟨answer', given', agree⟩ := agrees k op found
  exact ⟨answer, answer', given, given', agree answer meets⟩

theorem lists_keys (objects : Objects) : Lists objects objects.keys.toList :=
  ⟨objects.keys.nodup_toList, fun id => by rw [Finset.mem_toList, GoMap.mem_keys]⟩

/-- A broker and a local store. -/
noncomputable def sampleBroker : Broker :=
  ⟨"http://localhost:8000".toList, "changeThis".toList, fun objects => objects.keys.toList,
    lists_keys⟩

noncomputable def sampleLocal : LocalStore := ⟨fun files => files.keys.toList, lists_keys⟩

/-- A chunk of three bytes, of which the last two are read. -/
theorem broker_refines_map_read :
    (StoreOp.runAll sampleBroker.call ∅ [.put (chunkID 0) [1, 2, 3], .getRange (chunkID 0) 1 2])[1]?
      = some (.bytes [2, 3]) := by
  obtain ⟨specified, -⟩ := broker_refines_map sampleBroker sampleLocal
    [.put (chunkID 0) [1, 2, 3], .getRange (chunkID 0) 1 2] (by
      intro op member
      rcases List.mem_pair.mp member with rfl | rfl
      · exact ⟨.chunk 0, by decide⟩
      · exact ⟨.chunk 0, by decide, by decide, by decide, by decide⟩)
  obtain ⟨answer, given, meets⟩ := specified 1 _ rfl
  rw [given]
  simp only [List.take, List.foldl, StoreOp.update, StoreOp.Specified, GoMap.get_set_self] at meets
  exact congrArg some meets

end Fusey
