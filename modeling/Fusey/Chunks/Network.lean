import Fusey.GoLib.Interleaving
import Fusey.Chunks.Broker
import Fusey.Chunks.ChunkStore

/-!
Contract: the chunk store over a network that delivers a PUT at any later time
(`internal/chunks/broker.go`, `internal/chunks/chunk_store.go`).

Owns:
- `Append`, `FlushActive` and `Seal` with their `Put` as the attempts of
  `withRetry`, each of which sends a message;
- the messages on their way and the moment at which the store applies one;
- that a sealed chunk keeps its contents while no PUT is overtaken by another
  with different contents, and a run in which a late PUT of `FlushActive`
  replaces a sealed chunk.

The work of the three methods before and after their `Put` is that of
`ChunkStore.append`, `ChunkStore.flushActive` and `ChunkStore.sealActive`.
-/

set_option autoImplicit false

namespace Fusey

open Interleaving

/-- A PUT request. -/
structure PutMessage where
  id : Key
  data : Bytes
deriving DecidableEq

/-! ### The methods and their `Put` -/

/-- The methods of `ChunkStore` that may call `Put`. -/
inductive UploadMethod where
  | append (data : Bytes) (fileOffset : Int)
  | flushActive
  | sealActive

namespace UploadMethod

/-- The method as one step, with the outcome of its `Put`; the Boolean says
whether it returned nil. -/
def run {σ : Type} (store : Store σ) (outcome : StoreOutcome) (cached : Bool) (s : σ)
    (cs : ChunkStore) : UploadMethod → σ × ChunkStore × Bool
  | .append data fileOffset =>
      let after := ChunkStore.append store outcome cached s cs data fileOffset
      (after.1, after.2.1, after.2.2.toBool)
  | .flushActive => ChunkStore.flushActive store outcome s cs
  | .sealActive =>
      let after := ChunkStore.sealActive store outcome cached s cs
      (after.1, after.2.1, after.2.2.toBool)

/-- The `Put` that the method issues. -/
def upload (cs : ChunkStore) : UploadMethod → Option PutMessage
  | .append data _ =>
      if (data.length : Int) > cs.maxChunkSize then none
      else if (cs.activeBuf.length : Int) + data.length > cs.maxChunkSize ∧ cs.activeBuf ≠ [] then
        some ⟨cs.activeID, cs.activeBuf⟩
      else none
  | .flushActive => if cs.activeDirty = false then none else some ⟨cs.activeID, cs.activeBuf⟩
  | .sealActive => if cs.activeBuf = [] then none else some ⟨cs.activeID, cs.activeBuf⟩

/-- The chunk store after the method, once its `Put` has returned, and whether
the method returned nil. -/
def after (stored cached : Bool) (cs : ChunkStore) (method : UploadMethod) : ChunkStore × Bool :=
  (method.run mapStore (if stored then .ok else .failedOld) cached ∅ cs).2

/-- The methods whose `Put` is that of `sealLocked`. -/
def seals : UploadMethod → Bool
  | .flushActive => false
  | _ => true

variable {method : UploadMethod} {cs : ChunkStore}

/-- What a method does to its store is the `Put` it issues. -/
theorem run_store {σ : Type} (store : Store σ) (outcome : StoreOutcome) (cached : Bool) (s : σ) :
    (method.run store outcome cached s cs).1 =
      match method.upload cs with
      | none => s
      | some put => (store.tryPut outcome s put.id put.data).1 := by
  cases method with
  | append data fileOffset =>
      simp only [run, upload, ChunkStore.append, ChunkStore.sealActive]
      split_ifs <;> simp_all
      cases outcome <;> rfl
  | flushActive =>
      simp only [run, upload, ChunkStore.flushActive]
      split_ifs
      · rfl
      · cases outcome <;> rfl
  | sealActive =>
      simp only [run, upload, ChunkStore.sealActive]
      split_ifs
      · rfl
      · cases outcome <;> rfl

/-- What a method does to the chunk store is decided by whether its `Put` returned
nil. -/
theorem run_after {σ : Type} (store : Store σ) (outcome : StoreOutcome) (cached : Bool) (s : σ) :
    (method.run store outcome cached s cs).2 = method.after (outcome = .ok) cached cs := by
  cases method with
  | append data fileOffset =>
      simp only [run, after, ChunkStore.append, ChunkStore.sealActive]
      split_ifs <;> cases outcome <;> simp_all [Store.tryPut]
  | flushActive =>
      simp only [run, after, ChunkStore.flushActive]
      split_ifs <;> cases outcome <;> simp_all [Store.tryPut]
  | sealActive =>
      simp only [run, after, ChunkStore.sealActive]
      split_ifs <;> cases outcome <;> simp_all [Store.tryPut]

theorem upload_eq {put : PutMessage} (issues : method.upload cs = some put) :
    put = ⟨cs.activeID, cs.activeBuf⟩ := by
  cases method <;> simp only [upload] at issues <;> split_ifs at issues <;>
    exact (Option.some.inj issues).symm

/-- A method keeps the active chunk or opens the next. -/
theorem after_active (method : UploadMethod) (cs : ChunkStore) (stored cached : Bool) :
    ((method.after stored cached cs).1.activeID = cs.activeID ∧
        (method.after stored cached cs).1.nextSeq = cs.nextSeq) ∨
      (method.after stored cached cs).1.activeID = chunkID cs.nextSeq ∧
        (method.after stored cached cs).1.nextSeq = cs.nextSeq + 1 := by
  cases method <;> cases stored <;>
    simp only [after, run, ChunkStore.append, ChunkStore.sealActive, ChunkStore.flushActive,
      Store.tryPut, ChunkStore.push, ChunkStore.startNext, ChunkStore.rotate] <;>
    split_ifs <;> simp

/-- A method that has sealed opens the next chunk. -/
theorem after_seals (cached : Bool) (isSeal : method.seals = true) {put : PutMessage}
    (issues : method.upload cs = some put) :
    (method.after true cached cs).1.activeID = chunkID cs.nextSeq ∧
      (method.after true cached cs).1.nextSeq = cs.nextSeq + 1 := by
  cases method with
  | flushActive => cases isSeal
  | append data fileOffset =>
      simp only [upload] at issues
      split_ifs at issues with large overflow
      simp [after, run, ChunkStore.append, ChunkStore.sealActive, Store.tryPut, large, overflow.1,
        overflow.2, ChunkStore.push, ChunkStore.startNext]
  | sealActive =>
      simp only [upload] at issues
      split_ifs at issues with empty
      simp [after, run, ChunkStore.sealActive, Store.tryPut, empty, ChunkStore.startNext]

end UploadMethod

/-! ### Messages -/

/-- The chunk store with its mutex, the objects of the store, every PUT sent, in
the order of sending, and the numbers of those that the store has applied. -/
structure Uplink where
  cs : ChunkStore
  locked : Bool
  objects : Objects
  sent : List PutMessage
  landed : List Nat

inductive UploadEffect where
  | begin (method : UploadMethod)
  | send (put : PutMessage)
  | await (number : Nat)
  | finish (method : UploadMethod) (stored : Bool)
  | land (number : Nat)

inductive UploadAnswer where
  | needs (put : PutMessage)
  | finished (returnedNil : Bool) (chunk : Option PutMessage)
  | sent (number : Nat)
  | stored
  | failed (retryable : Bool)
  | landed

/-- What the network decides: whether a request is answered with success, whether
its error may be retried (a cancelled context ends the loop as well), and whether
the cache write of a seal succeeds. -/
structure UploadOracle where
  ok : Bool := true
  retryable : Bool := true
  cached : Bool := true

namespace Uplink

/-- One atomic step; `none` is a step that has to wait. -/
def apply (s : Uplink) (e : UploadEffect) (o : UploadOracle) : Option (Uplink × UploadAnswer) :=
  match e with
  | .begin method =>
      -- `cs.mu.Lock()`.
      if s.locked then none
      else
        match method.upload s.cs with
        | some put => some ({ s with locked := true }, .needs put)
        | none =>
            let after := method.after true o.cached s.cs
            some ({ s with cs := after.1 }, .finished after.2 none)
  | .send put =>
      -- Without a presigned URL there is nothing to send to.
      if o.ok then some ({ s with sent := s.sent ++ [put] }, .sent s.sent.length)
      else some (s, .failed o.retryable)
  | .await number =>
      -- The store answers after it has applied the PUT. A failure says nothing
      -- about whether it has, or will.
      if o.ok then if number ∈ s.landed then some (s, .stored) else none
      else some (s, .failed o.retryable)
  | .finish method stored =>
      let after := method.after stored o.cached s.cs
      some ({ s with cs := after.1, locked := false },
        .finished after.2
          (if stored && method.seals then some ⟨s.cs.activeID, s.cs.activeBuf⟩ else none))
  | .land number =>
      match s.sent[number]? with
      | none => none
      | some put =>
          if number ∈ s.landed then none
          else
            some ({ s with
              objects := s.objects.set put.id put.data
              landed := number :: s.landed }, .landed)

end Uplink

/-- A method call in its `withRetry` loop, with the number of attempts left, or a
PUT that arrives. -/
inductive UploadCall where
  | begin (method : UploadMethod)
  | attempt (method : UploadMethod) (put : PutMessage) (left : Nat)
  | await (method : UploadMethod) (put : PutMessage) (left : Nat) (number : Nat)
  | finish (method : UploadMethod) (stored : Bool)
  | land (number : Nat)

namespace UploadCall

def effect : UploadCall → UploadEffect
  | .begin method => .begin method
  | .attempt _ put _ => .send put
  | .await _ _ _ number => .await number
  | .finish method stored => .finish method stored
  | .land number => .land number

/-- The next attempt, or the error of the last one. -/
def again (method : UploadMethod) (put : PutMessage) (left : Nat) (retryable : Bool) :
    UploadCall :=
  if retryable = true ∧ 1 < left then .attempt method put (left - 1) else .finish method false

/-- The result says whether the method returned nil. An answer that belongs to
another step does not occur. -/
def resume : UploadCall → UploadAnswer → UploadCall ⊕ Bool
  | .begin method, .needs put => .inl (.attempt method put defaultMaxAttempts)
  | .begin _, .finished returnedNil _ => .inr returnedNil
  | .attempt method put left, .sent number => .inl (.await method put left number)
  | .attempt method put left, .failed retryable => .inl (again method put left retryable)
  | .await method _ _ _, .stored => .inl (.finish method true)
  | .await method put left _, .failed retryable => .inl (again method put left retryable)
  | .finish _ _, .finished returnedNil _ => .inr returnedNil
  | .land _, .landed => .inr true
  | _, _ => .inr false

/-- The call holds the mutex. -/
def critical : UploadCall → Bool
  | .attempt _ _ _ | .await _ _ _ _ | .finish _ _ => true
  | .begin _ | .land _ => false

/-- What may start at any time: a method, and the arrival of a PUT. -/
def Starts : UploadCall → Prop
  | .begin _ | .land _ => True
  | _ => False

instance (t : UploadCall) : Decidable t.Starts := by
  induction t using UploadCall.casesOn <;> dsimp only [Starts] <;> infer_instance

end UploadCall

def uplinkSys : Sys Uplink UploadEffect UploadAnswer UploadOracle UploadCall Bool where
  apply := Uplink.apply
  effect := UploadCall.effect
  resume := UploadCall.resume

/-- The chunks that `sealLocked` has sealed, with their full buffers. -/
def noteSeals (chunks : List PutMessage) (_ : UploadCall) : UploadAnswer → List PutMessage
  | .finished _ (some chunk) => chunk :: chunks
  | _ => chunks

/-- A mounted chunk store, of which nothing has been sent. -/
def NothingSent (pool : Pool Uplink UploadCall (List PutMessage)) : Prop :=
  (∃ seq, pool.shared.cs.activeID = chunkID seq ∧ pool.shared.cs.nextSeq = seq + 1) ∧
    pool.shared.locked = false ∧ pool.shared.sent = [] ∧ pool.shared.landed = [] ∧
    pool.threads = [] ∧ pool.record = []

/-- Any schedule and any delivery. -/
def anyDelivery (_ : Pool Uplink UploadCall (List PutMessage)) :
    Event UploadCall UploadOracle → Prop
  | .spawn call => call.Starts
  | .run _ _ => True

/-- A later PUT of the same object, with other contents, has been applied before
this one. -/
def Uplink.Overtaken (s : Uplink) (number : Nat) : Prop :=
  ∃ later ∈ s.landed, number < later ∧ ∃ put ∈ s.sent[number]?, ∃ next ∈ s.sent[later]?,
    next.id = put.id ∧ next.data ≠ put.data

instance (s : Uplink) (number : Nat) : Decidable (s.Overtaken number) := by
  unfold Uplink.Overtaken
  infer_instance

/-- The store applies no PUT that has been overtaken. -/
def noneOvertaken (pool : Pool Uplink UploadCall (List PutMessage)) :
    Event UploadCall UploadOracle → Prop
  | .spawn call => call.Starts
  | .run i _ =>
      match pool.threads[i]? with
      | some (.land number) => ¬ pool.shared.Overtaken number
      | _ => True

instance (pool : Pool Uplink UploadCall (List PutMessage)) (event : Event UploadCall UploadOracle) :
    Decidable (anyDelivery pool event) := by
  induction event using Event.casesOn <;> dsimp only [anyDelivery] <;> infer_instance

instance (pool : Pool Uplink UploadCall (List PutMessage)) (event : Event UploadCall UploadOracle) :
    Decidable (noneOvertaken pool event) := by
  unfold noneOvertaken
  split
  · infer_instance
  · split <;> infer_instance

/-! ### One step -/

namespace UploadCall

variable {s s' : Uplink} {m m' : List PutMessage} {t u : UploadCall} {next : UploadCall ⊕ Bool}

/-- Everything a step can do, with the chunks recorded. -/
inductive Step (s : Uplink) (m : List PutMessage) :
    UploadCall → Uplink → List PutMessage → UploadCall ⊕ Bool → Prop where
  | needs {method : UploadMethod} {put : PutMessage} (free : s.locked = false)
      (issues : method.upload s.cs = some put) :
      Step s m (.begin method) { s with locked := true } m
        (.inl (.attempt method put defaultMaxAttempts))
  | without {method : UploadMethod} {cached : Bool} {ok : Bool} (free : s.locked = false) :
      Step s m (.begin method) { s with cs := (method.after true cached s.cs).1 } m (.inr ok)
  | send {method : UploadMethod} {put : PutMessage} {left : Nat} :
      Step s m (.attempt method put left) { s with sent := s.sent ++ [put] } m
        (.inl (.await method put left s.sent.length))
  | noURL {method : UploadMethod} {put : PutMessage} {left : Nat} {retryable : Bool} :
      Step s m (.attempt method put left) s m (.inl (again method put left retryable))
  | acknowledged {method : UploadMethod} {put : PutMessage} {left number : Nat}
      (applied : number ∈ s.landed) :
      Step s m (.await method put left number) s m (.inl (.finish method true))
  | unanswered {method : UploadMethod} {put : PutMessage} {left number : Nat} {retryable : Bool} :
      Step s m (.await method put left number) s m (.inl (again method put left retryable))
  | finishSeal {method : UploadMethod} {cached ok : Bool} (isSeal : method.seals = true) :
      Step s m (.finish method true)
        { s with cs := (method.after true cached s.cs).1, locked := false }
        (⟨s.cs.activeID, s.cs.activeBuf⟩ :: m) (.inr ok)
  | finish {method : UploadMethod} {stored cached ok : Bool} :
      Step s m (.finish method stored)
        { s with cs := (method.after stored cached s.cs).1, locked := false } m (.inr ok)
  | land {number : Nat} {put : PutMessage} (found : s.sent[number]? = some put) :
      Step s m (.land number)
        { s with
          objects := s.objects.set put.id put.data
          landed := number :: s.landed } m (.inr true)

theorem Step.of_apply {o : UploadOracle} {a : UploadAnswer}
    (applied : Uplink.apply s t.effect o = some (s', a)) :
    Step s m t s' (noteSeals m t a) (t.resume a) := by
  cases t with
  | begin method =>
      simp only [effect, Uplink.apply] at applied
      split_ifs at applied with taken
      have free := Bool.eq_false_iff.mpr taken
      split at applied <;> cases applied
      next put issues => exact .needs free issues
      next => exact .without free
  | attempt method put left =>
      simp only [effect, Uplink.apply] at applied
      split_ifs at applied <;> cases applied
      · exact .send
      · exact .noURL
  | await method put left number =>
      simp only [effect, Uplink.apply] at applied
      split_ifs at applied with ok landed <;> cases applied
      · exact .acknowledged landed
      · exact .unanswered
  | finish method stored =>
      simp only [effect, Uplink.apply] at applied
      cases applied
      by_cases both : (stored && method.seals) = true
      · rw [if_pos both]
        rw [Bool.and_eq_true] at both
        obtain ⟨rfl, isSeal⟩ := both
        exact .finishSeal isSeal
      · rw [if_neg both]
        exact .finish
  | land number =>
      simp only [effect, Uplink.apply] at applied
      split at applied
      next => cases applied
      next put found =>
        split_ifs at applied
        cases applied
        exact .land found

theorem critical_again (method : UploadMethod) (put : PutMessage) (left : Nat) (retryable : Bool) :
    (again method put left retryable).critical = true := by
  unfold again
  split_ifs <;> rfl

theorem Step.balanced (step : Step s m t s' m' next)
    (holds : t.critical = true → s.locked = true) :
    (remaining next).countP critical + s.locked.toNat = t.critical.toNat + s'.locked.toNat := by
  cases step
  case noURL | unanswered =>
    simp only [remaining, List.countP_singleton, critical_again, if_true]
    rfl
  all_goals simp_all [critical, remaining]

end UploadCall

/-! ### What holds in every run -/

namespace Uplink

variable {s : Uplink} {m : List PutMessage} {put : PutMessage}

/-- The last PUT of an object that has been sent. -/
def Last (s : Uplink) (number : Nat) (put : PutMessage) : Prop :=
  s.sent[number]? = some put ∧
    ∀ (other : Nat) put', s.sent[other]? = some put' → put'.id = put.id → other ≤ number

/-- The last PUT of an object has been applied. -/
def Confirmed (s : Uplink) (put : PutMessage) : Prop :=
  ∃ number ∈ s.landed, s.Last number put

/-- An object is the latest of the PUTs applied to it, and the PUTs of a sealed
chunk are over. -/
structure Sound (s : Uplink) (m : List PutMessage) : Prop where
  active : ∃ seq, s.cs.activeID = chunkID seq ∧ s.cs.nextSeq = seq + 1
  known : ∀ number ∈ s.landed, number < s.sent.length
  latest : ∀ number ∈ s.landed, ∀ put, s.sent[number]? = some put →
    (∀ other ∈ s.landed, ∀ put', s.sent[other]? = some put' → put'.id = put.id →
      other ≤ number) → s.objects.get put.id = some put.data
  retired : ∀ put ∈ m, s.Confirmed put ∧ ∃ seq, put.id = chunkID seq ∧ seq + 1 < s.cs.nextSeq

/-- A confirmed PUT is what the store holds. -/
theorem Sound.object_of_confirmed (sound : s.Sound m) (confirmed : s.Confirmed put) :
    s.objects.get put.id = some put.data := by
  obtain ⟨number, landed, found, last⟩ := confirmed
  exact sound.latest number landed put found fun other _ => last other

/-- A retired chunk is not the active one. -/
theorem Sound.ne_active (sound : s.Sound m) (member : put ∈ m) : put.id ≠ s.cs.activeID := by
  obtain ⟨-, seq, minted, below⟩ := sound.retired put member
  obtain ⟨current, active, next⟩ := sound.active
  intro same
  have := chunkID_injective (minted.symm.trans (same.trans active))
  omega

end Uplink

namespace UploadCall

variable {s s' : Uplink} {m m' : List PutMessage} {t u : UploadCall} {next : UploadCall ⊕ Bool}

/-- What a call that holds the mutex knows: its `Put` is that of the active chunk,
its latest message is the last of the chunk, and a `Put` that has returned nil is
confirmed. -/
def Knows (s : Uplink) : UploadCall → Prop
  | .attempt method put _ => method.upload s.cs = some put
  | .await method put _ number => method.upload s.cs = some put ∧ s.Last number put
  | .finish method true =>
      ∃ put, method.upload s.cs = some put ∧ s.Confirmed put
  | _ => True

theorem knows_again {method : UploadMethod} {put : PutMessage} (left : Nat) (retryable : Bool)
    (issues : method.upload s.cs = some put) : (again method put left retryable).Knows s := by
  unfold again
  split_ifs
  · exact issues
  · trivial

/-- A step leaves its call with what it knows. -/
theorem Step.knows_self (step : Step s m t s' m' (.inl u)) (knows : t.Knows s) : u.Knows s' := by
  cases step with
  | needs free issues => exact issues
  | send =>
      refine ⟨knows, List.getElem?_concat_length, fun other put' found _ => ?_⟩
      have below := (List.getElem?_eq_some_iff.mp found).1
      rw [List.length_append, List.length_singleton] at below
      exact Nat.le_of_lt_succ below
  | noURL => exact knows_again _ _ knows
  | acknowledged applied => exact ⟨_, knows.1, _, applied, knows.2⟩
  | unanswered => exact knows_again _ _ knows.1

theorem knows_of_outside (outside : u.critical = false) : u.Knows s := by
  cases u with
  | begin | land => trivial
  | _ => cases outside

/-- While a call holds the mutex, the others only let PUTs arrive. -/
theorem Step.knows_other (step : Step s m t s' m' next) (locked : s.locked = true)
    (outside : t.critical = false) (knows : u.Knows s) : u.Knows s' := by
  cases step with
  | needs free => cases locked.symm.trans free
  | without free => cases locked.symm.trans free
  | land found =>
      cases u with
      | finish method stored =>
          cases stored with
          | false => trivial
          | true =>
              obtain ⟨put, issues, number, landed, last⟩ := knows
              exact ⟨put, issues, number, List.mem_cons_of_mem _ landed, last⟩
      | _ => exact knows
  | _ => cases outside

/-- A step leaves the network sound if it applies no PUT that has been overtaken. -/
theorem Step.sound (step : Step s m t s' m' next) (sound : s.Sound m) (knows : t.Knows s)
    (inOrder : ∀ number, t = .land number → ¬ s.Overtaken number) : s'.Sound m' := by
  obtain ⟨seq, active, nextSeq⟩ := sound.active
  -- A method that changes only the chunk store may open the next chunk.
  have opened : ∀ (method : UploadMethod) (stored cached locked : Bool),
      Uplink.Sound { s with cs := (method.after stored cached s.cs).1, locked := locked } m := by
    intro method stored cached locked
    rcases method.after_active s.cs stored cached with ⟨same, number⟩ | ⟨fresh, number⟩
    · refine ⟨⟨seq, same.trans active, number.trans nextSeq⟩, sound.known, sound.latest,
        fun put member => ?_⟩
      obtain ⟨confirmed, old, minted, below⟩ := sound.retired put member
      exact ⟨confirmed, old, minted, by rw [number]; exact below⟩
    · refine ⟨⟨s.cs.nextSeq, fresh, number⟩, sound.known, sound.latest, fun put member => ?_⟩
      obtain ⟨confirmed, old, minted, below⟩ := sound.retired put member
      exact ⟨confirmed, old, minted, by rw [number]; exact Nat.lt_succ_of_lt below⟩
  cases step with
  | needs free issues => exact ⟨sound.active, sound.known, sound.latest, sound.retired⟩
  | without free => exact opened _ _ _ s.locked
  | send =>
      rename_i method put left
      have isActive : put.id = s.cs.activeID := by rw [UploadMethod.upload_eq knows]
      have old : ∀ number < s.sent.length, (s.sent ++ [put])[number]? = s.sent[number]? :=
        fun number below => List.getElem?_append_left below
      refine ⟨sound.active, ?_, ?_, ?_⟩
      · intro number landed
        exact Nat.lt_of_lt_of_le (sound.known number landed) (by simp)
      · intro number landed stored found top
        rw [old number (sound.known number landed)] at found
        refine sound.latest number landed stored found fun other landed' put' found' => ?_
        exact top other landed' put' ((old other (sound.known other landed')).trans found')
      · intro chunk member
        obtain ⟨⟨number, landed, found, last⟩, minted⟩ := sound.retired chunk member
        refine ⟨⟨number, landed, (old number (sound.known number landed)).trans found, ?_⟩, minted⟩
        intro other put' found' same
        by_cases below : other < s.sent.length
        · exact last other put' ((old other below).symm.trans found') same
        · -- The new message is one of the active chunk.
          rw [List.getElem?_append_right (Nat.le_of_not_lt below)] at found'
          have isNew := List.mem_singleton.mp (List.mem_of_getElem? found')
          rw [isNew, isActive] at same
          exact absurd same.symm (sound.ne_active member)
  | noURL => exact sound
  | acknowledged applied => exact sound
  | unanswered => exact sound
  | finish => exact opened _ _ _ false
  | @finishSeal method cached ok isSeal =>
      obtain ⟨put, issues, confirmed⟩ := knows
      obtain ⟨fresh, number⟩ := UploadMethod.after_seals cached isSeal issues
      have rest := opened method true cached false
      refine ⟨rest.active, rest.known, rest.latest, fun chunk member => ?_⟩
      rcases List.mem_cons.mp member with rfl | old
      · rw [UploadMethod.upload_eq issues] at confirmed
        exact ⟨confirmed, seq, active, by rw [number, nextSeq]; exact Nat.lt_succ_self _⟩
      · exact rest.retired chunk old
  | @land number put found =>
      refine ⟨sound.active, ?_, ?_, ?_⟩
      · intro other landed
        rcases List.mem_cons.mp landed with rfl | old
        · exact (List.getElem?_eq_some_iff.mp found).1
        · exact sound.known other old
      · intro other landed stored found' top
        by_cases isLanding : other = number
        · subst isLanding
          cases found.symm.trans found'
          exact GoMap.get_set_self _ _ _
        · have old := (List.mem_cons.mp landed).resolve_left isLanding
          have before := sound.latest other old stored found' fun later landed' =>
            top later (List.mem_cons_of_mem _ landed')
          by_cases same : stored.id = put.id
          · -- The PUT that arrives is older, so it carries what is there.
            have earlier : number < other :=
              Nat.lt_of_le_of_ne (top number List.mem_cons_self put found same.symm)
                (Ne.symm isLanding)
            have contents : stored.data = put.data := by
              by_contra different
              exact inOrder number rfl
                ⟨other, old, earlier, put, found, stored, found', same, different⟩
            rw [same, contents]
            exact GoMap.get_set_self _ _ _
          · exact (GoMap.get_set_ne _ _ same).trans before
      · intro chunk member
        obtain ⟨⟨other, landed, last⟩, minted⟩ := sound.retired chunk member
        exact ⟨⟨other, List.mem_cons_of_mem _ landed, last⟩, minted⟩

end UploadCall

theorem uplink_mutex {admits : Pool Uplink UploadCall (List PutMessage) →
      Event UploadCall UploadOracle → Prop}
    (starts : ∀ pool call, admits pool (.spawn call) → call.Starts)
    {pool : Pool Uplink UploadCall (List PutMessage)}
    (reached : Reachable uplinkSys noteSeals NothingSent admits pool) :
    pool.threads.countP UploadCall.critical = pool.shared.locked.toNat := by
  refine reached.mutex UploadCall.critical Uplink.locked ?_ ?_ ?_
  · rintro pool ⟨-, free, -, -, idle, -⟩
    rw [idle, free]
    rfl
  · intro pool t admitted
    have start := starts pool t admitted
    cases t with
    | begin | land => rfl
    | _ => cases start
  · intro s t o s' a holds applied
    exact (UploadCall.Step.of_apply (m := []) applied).balanced holds

/-- A sealed chunk stays sealed: in every run of `Append`, `FlushActive` and `Seal`
in which the store applies no PUT that has been overtaken, the object of every
chunk sealed so far is the full sealed buffer. -/
theorem sealed_chunks_stay_sealed {pool : Pool Uplink UploadCall (List PutMessage)}
    (reached : Reachable uplinkSys noteSeals NothingSent noneOvertaken pool) :
    ∀ chunk ∈ pool.record, pool.shared.objects.get chunk.id = some chunk.data := by
  have starts : ∀ pool call, noneOvertaken pool (.spawn call) → call.Starts :=
    fun pool call admitted => admitted
  have sound := (reached.knowing fun pool => uplink_mutex starts).local_invariant Uplink.Sound
    (fun s _ t => t.Knows s) ?_ ?_ ?_
  · intro chunk member
    exact sound.1.object_of_confirmed (sound.1.retired chunk member).1
  · rintro ⟨s, threads, m⟩ ⟨active, -, sent, landed, idle, record⟩
    dsimp only at sent landed idle record ⊢
    subst idle record
    refine ⟨⟨active, ?_, ?_, fun chunk member => by cases member⟩, fun t member => by cases member⟩
    · rw [landed]
      intro number member
      cases member
    · rw [landed]
      intro number member
      cases member
  · rintro pool t - ⟨-, start⟩
    cases t with
    | begin | land => trivial
    | _ => cases start
  · rintro s m before t after o s' a sound knows ⟨count, inOrder⟩ applied
    have step := UploadCall.Step.of_apply (m := m) applied
    have mine := knows t (List.mem_append_right _ List.mem_cons_self)
    refine ⟨step.sound sound mine ?_, fun t' continues => ?_, fun u member => ?_⟩
    · rintro number rfl
      simp only [noneOvertaken, getElem?_moving] at inOrder
      exact inOrder
    · rw [show t.resume a = .inl t' from continues] at step
      exact step.knows_self mine
    · cases inside : u.critical with
      | false => exact UploadCall.knows_of_outside inside
      | true =>
          have inPool := mem_of_mem_others t member
          have one : (before ++ t :: after).countP UploadCall.critical ≤ 1 := by
            rw [count]
            exact Bool.toNat_le _
          have outside : t.critical = false := by
            rw [← Bool.not_eq_true]
            intro mine
            cases inside.symm.trans (not_critical_of_count one mine member)
          have locked : s.locked = true := by
            have positive := List.countP_pos_iff.mpr ⟨u, inPool, inside⟩
            rw [count] at positive
            cases held : s.locked with
            | true => rfl
            | false =>
                rw [held] at positive
                cases positive
          exact step.knows_other locked outside (knows u inPool)

/-- A chunk store that has written nothing, over an empty store. -/
def freshUplink : Pool Uplink UploadCall (List PutMessage) :=
  ⟨⟨.new 10, false, ∅, [], []⟩, [], []⟩

theorem freshUplink_nothingSent : NothingSent freshUplink :=
  ⟨⟨0, rfl, rfl⟩, rfl, rfl, rfl, rfl, rfl⟩

/-- A byte is appended and flushed. The first PUT gets no answer in time; the
second is applied and answered. Another byte is appended and the chunk sealed. -/
def flushThenSeal (first : List (Event UploadCall UploadOracle)) :
    List (Event UploadCall UploadOracle) :=
  [.spawn (.begin (.append [1] 0)), .run 0 {}, .spawn (.begin .flushActive), .run 0 {}, .run 0 {},
    .run 0 { ok := false }, .run 0 {}] ++ first ++
  [.spawn (.land 1), .run 1 {}, .run 0 {}, .run 0 {}, .spawn (.begin (.append [2] 1)), .run 0 {},
    .spawn (.begin .sealActive), .run 0 {}, .run 0 {}, .spawn (.land 2), .run 1 {}, .run 0 {},
    .run 0 {}]

/-- The PUT of the first attempt arrives before the second does. -/
theorem sealed_chunks_stay_sealed_in_order :
    ∃ pool, Reachable uplinkSys noteSeals NothingSent noneOvertaken pool ∧
      pool.record = [⟨chunkID 0, [1, 2]⟩] ∧
      pool.shared.objects.get (chunkID 0) = some [1, 2] := by
  have plays : (uplinkSys.run noteSeals noneOvertaken freshUplink
      (flushThenSeal [.spawn (.land 0), .run 1 {}])).map Pool.record =
      some [⟨chunkID 0, [1, 2]⟩] := by decide +kernel
  obtain ⟨pool, ran, record⟩ := Option.map_eq_some_iff.mp plays
  have reached : Reachable uplinkSys noteSeals NothingSent noneOvertaken pool :=
    .of_run (.start freshUplink_nothingSent) ran
  exact ⟨pool, reached, record, sealed_chunks_stay_sealed reached ⟨chunkID 0, [1, 2]⟩
    (by rw [record]; exact List.mem_cons_self)⟩

/-- The PUT of the first attempt arrives once the chunk has been sealed, and the
sealed chunk loses its second byte. -/
theorem late_flush_replaces_sealed_chunk :
    ∃ pool, Reachable uplinkSys noteSeals NothingSent anyDelivery pool ∧
      pool.record = [⟨chunkID 0, [1, 2]⟩] ∧
      pool.shared.objects.get (chunkID 0) = some [1] := by
  have plays : (uplinkSys.run noteSeals anyDelivery freshUplink
      (flushThenSeal [] ++ [.spawn (.land 0), .run 0 {}])).map
      (fun pool => (pool.record, pool.shared.objects.get (chunkID 0))) =
      some ([⟨chunkID 0, [1, 2]⟩], some [1]) := by decide +kernel
  obtain ⟨pool, ran, result⟩ := Option.map_eq_some_iff.mp plays
  exact ⟨pool, .of_run (.start freshUplink_nothingSent) ran, congrArg Prod.fst result,
    congrArg Prod.snd result⟩

end Fusey
