import Fusey.Chunks.Broker

/-!
Contract: the retries of the two-phase operations of the broker store
(`internal/chunks/broker.go`).

Owns:
- `Put`, `GetRange` and `GetRaw` as one operation with two requests per attempt;
- scripts of replies, and what an attempt with given replies amounts to: it
  completes, fails for now, or fails for good;
- how many attempts are made, which requests they send and when the operation
  returns nil, for every script;
- that this is the retry law exactly when no attempt before the one that completes
  loses a body that is being read.

The context is not cancelled.
-/

set_option autoImplicit false

namespace Fusey

open BrokerStore

/-! ### The loop -/

namespace Client

variable {σ α β : Type}

theorem withRetry_again {fn : Client σ α} {further : Nat} {s s' : σ} {failure : Failure}
    (ran : fn s = (s', .error failure)) (again : failure.retryable = true) :
    withRetry fn (further + 1) s = withRetry fn further s' := by
  rw [withRetry, ran]
  simp only [again]

theorem withRetry_stop {fn : Client σ α} {further : Nat} {s s' : σ} {failure : Failure}
    (ran : fn s = (s', .error failure)) (stop : failure.retryable = false ∨ further = 0) :
    withRetry fn further s = (s', .error failure.error) := by
  unfold withRetry
  rw [ran]
  rcases stop with permanent | rfl
  · simp only [permanent]
  · obtain ⟨error, retryable⟩ := failure
    cases retryable <;> rfl

/-- `withRetry` passes a value on that is computed from the result. -/
theorem withRetry_bind_pure (fn : Client σ α) (f : α → β) (further : Nat) (s : σ) :
    (fn >>= fun a => pure (f a)).withRetry further s =
      ((fn.withRetry further s).1, (fn.withRetry further s).2.map f) := by
  induction further generalizing s with
  | zero =>
      rcases ran : fn s with ⟨s', failure | a⟩
      · have bound : (fn >>= fun a => pure (f a)) s = (s', .error failure) := bind_error ran
        rw [withRetry_stop ran (Or.inr rfl), withRetry_stop bound (Or.inr rfl)]
        rfl
      · have bound : (fn >>= fun a => pure (f a)) s = (s', .ok (f a)) := bind_ok ran
        rw [withRetry_ok ran, withRetry_ok bound]
        rfl
  | succ further inductionHypothesis =>
      rcases ran : fn s with ⟨s', failure | a⟩
      · have bound : (fn >>= fun a => pure (f a)) s = (s', .error failure) := bind_error ran
        cases again : failure.retryable with
        | true => rw [withRetry_again ran again, withRetry_again bound again, inductionHypothesis]
        | false =>
            rw [withRetry_stop ran (Or.inl again), withRetry_stop bound (Or.inl again)]
            rfl
      · have bound : (fn >>= fun a => pure (f a)) s = (s', .ok (f a)) := bind_ok ran
        rw [withRetry_ok ran, withRetry_ok bound]
        rfl

theorem bind_assoc (x : Client σ α) (f : α → Client σ β) {γ : Type} (g : β → Client σ γ) :
    x >>= f >>= g = x >>= fun a => f a >>= g := by
  funext s
  rcases ran : x s with ⟨s', failure | a⟩
  · rw [bind_error (bind_error ran), bind_error ran]
  · rw [bind_ok ran]
    rcases next : f a s' with ⟨s'', failure | b⟩
    · rw [bind_error ((bind_ok ran).trans next), bind_error next]
    · rw [bind_ok ((bind_ok ran).trans next), bind_ok next]

end Client

/-! ### The operations -/

/-- An operation that asks the broker for a URL and then uses it. -/
inductive TwoPhase where
  | put (id : Key) (data : Bytes)
  | getRange (id : Key) (offset length : Int)
  | getRaw (key : Key)

namespace TwoPhase

def key : TwoPhase → Key
  | .put id _ => id
  | .getRange id _ _ => id
  | .getRaw key => key

/-- The endpoint of the broker that the first request asks. -/
def endpoint : TwoPhase → Text
  | .put .. => "/upload-url".toList
  | _ => "/download-url".toList

/-- The second request. -/
def transfer (url : Text) : TwoPhase → HttpRequest
  | .put _ data => { method := .put, url := url, body := data }
  | .getRange _ offset length =>
      { method := .get, url := url, range := some (rangeHeader offset length) }
  | .getRaw _ => { method := .get, url := url }

/-- Whether the body of the second response is read. -/
def readsBody : TwoPhase → Bool
  | .put .. => false
  | _ => true

section Transport

variable {σ : Type} (send : σ → HttpRequest → σ × Option HttpResponse) (store : BrokerStore)

/-- The method of `BrokerStore`, with the bytes it returns. -/
def run (s : σ) : TwoPhase → σ × Except BrokerError Bytes
  | .put id data =>
      let after := store.put send id data s
      (after.1, after.2.map fun _ => [])
  | .getRange id offset length => store.getRange send id offset length s
  | .getRaw key => store.getRaw send key s

/-- The second phase. -/
def exchange (op : TwoPhase) (url : Text) : Client σ Bytes := do
  let resp ← request send (op.transfer url)
  checkStorageStatus resp
  if op.readsBody then readAll resp else pure []

/-- One attempt. -/
def attempt (op : TwoPhase) : Client σ Bytes := do
  let url ← presigned send store op.endpoint op.key
  op.exchange send url

theorem run_eq (op : TwoPhase) (s : σ) :
    op.run send store s = (op.attempt send store).withRetry (store.maxAttempts - 1) s := by
  cases op with
  | put id data =>
      change ((store.put send id data s).1, (store.put send id data s).2.map fun _ => []) = _
      unfold BrokerStore.put retrying
      rw [← Client.withRetry_bind_pure]
      simp only [Client.bind_assoc]
      rfl
  | getRange id offset length => rfl
  | getRaw key => rfl

end Transport

end TwoPhase

/-! ### Scripts -/

/-- The replies to the two requests of an attempt; `none` is a network error before
the response. The second is not used if the first yields no URL. -/
structure Replies where
  broker : Option HttpResponse
  storage : Option HttpResponse

/-- The replies to each attempt. -/
abbrev Script := Nat → Replies

/-- Requests to the broker carry the auth header, and each attempt makes one. -/
def attemptsMade (log : List HttpRequest) : Nat := log.countP fun req => req.auth.isSome

/-- The transport that follows a script and logs the requests. -/
def Script.send (script : Script) (log : List HttpRequest) (req : HttpRequest) :
    List HttpRequest × Option HttpResponse :=
  (log ++ [req],
    if req.auth.isSome then (script (attemptsMade log)).broker
    else (script (attemptsMade log - 1)).storage)

/-- The statuses that both checks accept. -/
def HttpResponse.Succeeds (resp : HttpResponse) : Prop :=
  resp.status = 200 ∨ resp.status = 201 ∨ resp.status = 204 ∨ resp.status = 206

instance (resp : HttpResponse) : Decidable resp.Succeeds := by
  unfold HttpResponse.Succeeds
  infer_instance

/-- What an attempt amounts to. -/
inductive Verdict where
  | completes
  | transient
  | permanent
deriving DecidableEq

/-- The verdict on the second phase. A network error at any point is transient, and
so are 5xx and 403. -/
def storageVerdict (readsBody : Bool) : Option HttpResponse → Verdict
  | none => .transient
  | some resp =>
      if resp.Succeeds then if readsBody ∧ resp.body = .broken then .transient else .completes
      else if resp.status ≥ 500 ∨ resp.status = 403 then .transient
      else .permanent

/-- The verdict on an attempt. A reply of the broker without a URL is permanent. -/
def Replies.verdict (readsBody : Bool) (replies : Replies) : Verdict :=
  match replies.broker with
  | none => .transient
  | some resp =>
      if resp.Succeeds then
        match resp.body with
        | .url _ => storageVerdict readsBody replies.storage
        | .broken => .transient
        | _ => .permanent
      else if resp.status ≥ 500 then .transient
      else .permanent

/-- The bytes that the second phase yields. -/
def storageData (readsBody : Bool) : Option HttpResponse → Bytes
  | some { body := .bytes data, .. } => if readsBody then data else []
  | _ => []

/-- The URL that the first phase yields. -/
def Replies.url (replies : Replies) : Option Text :=
  match replies.broker with
  | none => none
  | some resp =>
      if resp.Succeeds then
        match resp.body with
        | .url url => some url
        | _ => none
      else none

/-- The network fails while the body of the second response is being read. -/
def CutsStorage (readsBody : Bool) (reply : Option HttpResponse) : Prop :=
  readsBody = true ∧ ∃ resp, reply = some resp ∧ resp.Succeeds ∧ resp.body = .broken

/-- The network fails while a body is being read that the operation needs. -/
def Replies.CutsBody (readsBody : Bool) (replies : Replies) : Prop :=
  ∃ resp, replies.broker = some resp ∧ resp.Succeeds ∧
    (resp.body = .broken ∨ (∃ url, resp.body = .url url) ∧ CutsStorage readsBody replies.storage)

theorem Replies.CutsBody.verdict {readsBody : Bool} {replies : Replies}
    (cuts : replies.CutsBody readsBody) : replies.verdict readsBody = .transient := by
  obtain ⟨resp, first, succeeds,
    broken | ⟨⟨url, isUrl⟩, reads, second, stored, accepted, broken⟩⟩ := cuts
  · simp only [Replies.verdict, first, if_pos succeeds, broken]
  · simp only [Replies.verdict, first, if_pos succeeds, isUrl, storageVerdict, stored,
      if_pos accepted, reads, broken, and_self, if_true]

theorem Replies.storage_of_completes {readsBody : Bool} {replies : Replies}
    (completes : replies.verdict readsBody = .completes) :
    ∃ resp, replies.storage = some resp ∧ resp.Succeeds := by
  unfold Replies.verdict at completes
  split at completes
  · cases completes
  · split_ifs at completes
    split at completes
    · unfold storageVerdict at completes
      split at completes
      · cases completes
      next resp stored =>
        split_ifs at completes with succeeds
        exact ⟨resp, stored, succeeds⟩
    · cases completes
    · cases completes

/-! ### One attempt -/

/-- What the code makes of an attempt: it returns, may be made again, or ends the
operation with an error. An error while a body is read is not marked as retryable. -/
inductive Ends (verdict : Verdict) (cuts : Prop) (data : Bytes) : Except Failure Bytes → Prop where
  | completed (completes : verdict = .completes) : Ends verdict cuts data (.ok data)
  | again (error : BrokerError) (transient : verdict = .transient) (whole : ¬ cuts) :
      Ends verdict cuts data (.error { error := error, retryable := true })
  | stopped (error : BrokerError) (ended : verdict = .permanent ∨ cuts) :
      Ends verdict cuts data (.error { error := error })

theorem Ends.congr {verdict : Verdict} {cuts cuts' : Prop} {data : Bytes}
    {outcome : Except Failure Bytes} (ends : Ends verdict cuts data outcome)
    (same : cuts ↔ cuts') : Ends verdict cuts' data outcome := by
  cases ends with
  | completed completes => exact .completed completes
  | again error transient whole => exact .again error transient (mt same.mpr whole)
  | stopped error ended => exact .stopped error (ended.imp_right same.mp)

section Checks

variable {σ : Type} (resp : HttpResponse) (s : σ)

theorem checkBrokerStatus_cases :
    (resp.Succeeds ∧ checkBrokerStatus resp s = (s, .ok ())) ∨
      (¬ resp.Succeeds ∧ resp.status ≥ 500 ∧
        ∃ error, checkBrokerStatus resp s = (s, .error { error := error, retryable := true })) ∨
      (¬ resp.Succeeds ∧ ¬ resp.status ≥ 500 ∧
        ∃ error, checkBrokerStatus resp s = (s, .error { error := error })) := by
  by_cases accepted : resp.Succeeds
  · exact Or.inl ⟨accepted, checkBrokerStatus_ok s accepted⟩
  · refine Or.inr ?_
    have unfolded : checkBrokerStatus resp s =
        (if resp.status = 401 then .fail { error := .unauthorized }
        else if resp.status = 404 then .fail { error := .notFound }
        else .fail { error := .status resp.status, retryable := resp.status ≥ 500 } :
          Client σ Unit) s := congrFun (if_neg accepted) s
    rw [unfolded]
    by_cases large : resp.status ≥ 500
    · refine Or.inl ⟨accepted, large, .status resp.status, ?_⟩
      rw [if_neg (by omega), if_neg (by omega)]
      simp only [Client.fail_apply, large, decide_true]
    · refine Or.inr ⟨accepted, large, ?_⟩
      split_ifs
      · exact ⟨_, rfl⟩
      · exact ⟨_, rfl⟩
      · exact ⟨.status resp.status, by simp only [Client.fail_apply, large, decide_false]⟩

theorem checkStorageStatus_cases :
    (resp.Succeeds ∧ checkStorageStatus resp s = (s, .ok ())) ∨
      (¬ resp.Succeeds ∧ (resp.status ≥ 500 ∨ resp.status = 403) ∧
        ∃ error, checkStorageStatus resp s = (s, .error { error := error, retryable := true })) ∨
      (¬ resp.Succeeds ∧ ¬ (resp.status ≥ 500 ∨ resp.status = 403) ∧
        ∃ error, checkStorageStatus resp s = (s, .error { error := error })) := by
  by_cases accepted : resp.Succeeds
  · exact Or.inl ⟨accepted, checkStorageStatus_ok s accepted⟩
  · refine Or.inr ?_
    have unfolded : checkStorageStatus resp s =
        (if resp.status = 404 then .fail { error := .notFound }
        else if resp.status = 403 then .fail { error := .forbidden, retryable := true }
        else .fail { error := .status resp.status, retryable := resp.status ≥ 500 } :
          Client σ Unit) s := congrFun (if_neg accepted) s
    rw [unfolded]
    by_cases forbidden : resp.status = 403
    · refine Or.inl ⟨accepted, Or.inr forbidden, .forbidden, ?_⟩
      rw [if_neg (by omega), if_pos forbidden]
      rfl
    · by_cases large : resp.status ≥ 500
      · refine Or.inl ⟨accepted, Or.inl large, .status resp.status, ?_⟩
        rw [if_neg (by omega), if_neg forbidden]
        simp only [Client.fail_apply, large, decide_true]
      · refine Or.inr ⟨accepted, by omega, ?_⟩
        rw [if_neg forbidden]
        split_ifs
        · exact ⟨_, rfl⟩
        · exact ⟨.status resp.status, by simp only [Client.fail_apply, large, decide_false]⟩

end Checks

namespace TwoPhase

/-- The requests of an attempt: for a URL, and with it. -/
def requests (store : BrokerStore) (op : TwoPhase) (replies : Replies) : List HttpRequest :=
  store.newRequest .get (store.objectURL op.key ++ op.endpoint) ::
    (replies.url.map fun url => op.transfer url).toList

variable {store : BrokerStore} {op : TwoPhase} {script : Script} {log : List HttpRequest}

theorem transfer_auth (op : TwoPhase) (url : Text) : (op.transfer url).auth = none := by
  cases op <;> rfl

/-- The second phase ends as its reply says. -/
theorem exchange_script (op : TwoPhase) (script : Script) (log : List HttpRequest) (url : Text) :
    ∃ outcome, op.exchange script.send url log = (log ++ [op.transfer url], outcome) ∧
      Ends (storageVerdict op.readsBody (script (attemptsMade log - 1)).storage)
        (CutsStorage op.readsBody (script (attemptsMade log - 1)).storage)
        (storageData op.readsBody (script (attemptsMade log - 1)).storage) outcome := by
  have sent : script.send log (op.transfer url) =
      (log ++ [op.transfer url], (script (attemptsMade log - 1)).storage) := by
    rw [Script.send, transfer_auth]
    rfl
  unfold exchange
  cases reply : (script (attemptsMade log - 1)).storage with
  | none =>
      have failed : request script.send (op.transfer url) log =
          (log ++ [op.transfer url], .error { error := .network, retryable := true }) := by
        rw [request, sent, reply]
      refine ⟨_, Client.bind_error failed, .again _ rfl ?_⟩
      rintro ⟨-, resp, isNone, -⟩
      cases isNone
  | some resp =>
      have answered : request script.send (op.transfer url) log =
          (log ++ [op.transfer url], .ok resp) := by
        rw [request, sent, reply]
      rw [Client.bind_ok answered]
      rcases checkStorageStatus_cases resp (log ++ [op.transfer url]) with
        ⟨accepted, checked⟩ | ⟨refused, transient, error, checked⟩ |
          ⟨refused, permanent, error, checked⟩
      · rw [Client.bind_ok checked]
        by_cases cut : op.readsBody = true ∧ resp.body = .broken
        · rw [if_pos cut.1, readAll, cut.2]
          exact ⟨_, rfl, .stopped .network (Or.inr ⟨cut.1, resp, rfl, accepted, cut.2⟩)⟩
        · have completes : storageVerdict op.readsBody (some resp) = .completes := by
            simp only [storageVerdict, if_pos accepted, if_neg cut]
          have read : (if op.readsBody = true then readAll resp else pure [] :
              Client (List HttpRequest) Bytes) (log ++ [op.transfer url]) =
                (log ++ [op.transfer url], .ok (storageData op.readsBody (some resp))) := by
            obtain ⟨status, contentLength, body⟩ := resp
            by_cases reads : op.readsBody = true
            · rw [if_pos reads, readAll, reads]
              cases body with
              | broken => exact absurd ⟨reads, rfl⟩ cut
              | _ => rfl
            · rw [if_neg reads, Bool.eq_false_of_not_eq_true reads]
              cases body <;> rfl
          exact ⟨_, read, .completed completes⟩
      · refine ⟨_, Client.bind_error checked, .again error ?_ ?_⟩
        · simp only [storageVerdict, if_neg refused, if_pos transient]
        · rintro ⟨-, _, ⟨⟩, accepted, -⟩
          exact refused accepted
      · refine ⟨_, Client.bind_error checked, .stopped error (Or.inl ?_)⟩
        simp only [storageVerdict, if_neg refused, if_neg permanent]

/-- An attempt sends its requests and ends as its replies say. -/
theorem attempt_script (op : TwoPhase) (store : BrokerStore) (script : Script)
    (log : List HttpRequest) :
    ∃ outcome, op.attempt script.send store log =
        (log ++ op.requests store (script (attemptsMade log)), outcome) ∧
      Ends ((script (attemptsMade log)).verdict op.readsBody)
        ((script (attemptsMade log)).CutsBody op.readsBody)
        (storageData op.readsBody (script (attemptsMade log)).storage) outcome := by
  generalize isFirst : store.newRequest .get (store.objectURL op.key ++ op.endpoint) = first
  have auth : first.auth.isSome = true := by
    rw [← isFirst]
    rfl
  have sent : script.send log first = (log ++ [first], (script (attemptsMade log)).broker) := by
    rw [Script.send, if_pos auth]
  have counted : attemptsMade (log ++ [first]) = attemptsMade log + 1 := by
    rw [attemptsMade, List.countP_append, List.countP_singleton, if_pos auth]
    rfl
  generalize replied : script (attemptsMade log) = replies at sent ⊢
  unfold attempt presigned requests Replies.url Replies.verdict Replies.CutsBody
  rw [isFirst]
  cases reply : replies.broker with
  | none =>
      have failed : request script.send first log =
          (log ++ [first], .error { error := .network, retryable := true }) := by
        rw [request, sent, reply]
      refine ⟨_, Client.bind_error (Client.bind_error failed), .again _ rfl ?_⟩
      rintro ⟨_, ⟨⟩, -⟩
  | some resp =>
      have answered : request script.send first log = (log ++ [first], .ok resp) := by
        rw [request, sent, reply]
      dsimp only
      rcases checkBrokerStatus_cases resp (log ++ [first]) with
        ⟨accepted, checked⟩ | ⟨refused, large, error, checked⟩ | ⟨refused, small, error, checked⟩
      · simp only [if_pos accepted]
        cases body : resp.body with
        | url url =>
            obtain ⟨outcome, exchanged, ends⟩ := op.exchange_script script (log ++ [first]) url
            rw [counted, Nat.add_sub_cancel, replied] at ends
            refine ⟨outcome, ?_, ?_⟩
            · rw [Client.bind_ok ((Client.bind_ok answered).trans ((Client.bind_ok checked).trans
                (by rw [body]; rfl))), exchanged, List.append_assoc]
              rfl
            · refine ends.congr ⟨fun cuts => ⟨resp, rfl, accepted, Or.inr ⟨⟨url, body⟩, cuts⟩⟩, ?_⟩
              rintro ⟨_, ⟨⟩, -, broken | ⟨-, cuts⟩⟩
              · cases body.symm.trans broken
              · exact cuts
        | broken =>
            refine ⟨_, Client.bind_error ((Client.bind_ok answered).trans
              ((Client.bind_ok checked).trans (by rw [body]; rfl))), .stopped .decode (Or.inr ?_)⟩
            exact ⟨resp, rfl, accepted, Or.inl body⟩
        | _ =>
            exact ⟨_, Client.bind_error ((Client.bind_ok answered).trans
              ((Client.bind_ok checked).trans (by rw [body]; rfl))), .stopped .decode (Or.inl rfl)⟩
      · simp only [if_neg refused]
        refine ⟨_, Client.bind_error ((Client.bind_ok answered).trans (Client.bind_error checked)),
          .again error (if_pos large) ?_⟩
        rintro ⟨_, ⟨⟩, accepted, -⟩
        exact refused accepted
      · simp only [if_neg refused]
        exact ⟨_, Client.bind_error ((Client.bind_ok answered).trans (Client.bind_error checked)),
          .stopped error (Or.inl (if_neg small))⟩

theorem attemptsMade_append_requests (op : TwoPhase) (store : BrokerStore) (log : List HttpRequest)
    (replies : Replies) :
    attemptsMade (log ++ op.requests store replies) = attemptsMade log + 1 := by
  unfold requests attemptsMade
  rw [List.countP_append, List.countP_cons]
  cases replies.url with
  | none => rfl
  | some url =>
      have plain : (op.transfer url).auth.isSome = false := by rw [op.transfer_auth]; rfl
      simp only [Option.map_some, Option.toList_some, List.countP_singleton, plain,
        Bool.false_eq_true, if_false]
      rfl

/-- How the loop ends after `n` attempts that may be made again: with the bytes, or
with an error because the next attempt ends the operation or is the last one. -/
structure Retried (op : TwoPhase) (script : Script) (start further n : Nat)
    (outcome : Except BrokerError Bytes) : Prop where
  within : n ≤ further
  again : ∀ j < n, (script (start + j)).verdict op.readsBody = .transient ∧
    ¬ (script (start + j)).CutsBody op.readsBody
  ended : (outcome = .ok (storageData op.readsBody (script (start + n)).storage) ∧
      (script (start + n)).verdict op.readsBody = .completes) ∨
    ((∃ error, outcome = .error error) ∧ (script (start + n)).verdict op.readsBody ≠ .completes ∧
      (n < further → (script (start + n)).verdict op.readsBody = .permanent ∨
        (script (start + n)).CutsBody op.readsBody))

theorem Retried.completed {start : Nat} (further : Nat)
    (completes : (script start).verdict op.readsBody = .completes) :
    op.Retried script start further 0 (.ok (storageData op.readsBody (script start).storage)) :=
  ⟨Nat.zero_le _, nofun, Or.inl ⟨rfl, completes⟩⟩

theorem Retried.failed {start further : Nat} (error : BrokerError)
    (fails : (script start).verdict op.readsBody ≠ .completes)
    (ended : 0 < further → (script start).verdict op.readsBody = .permanent ∨
      (script start).CutsBody op.readsBody) :
    op.Retried script start further 0 (.error error) :=
  ⟨Nat.zero_le _, nofun, Or.inr ⟨⟨error, rfl⟩, fails, ended⟩⟩

theorem Retried.succ {start further n : Nat} {outcome : Except BrokerError Bytes}
    (transient : (script start).verdict op.readsBody = .transient)
    (whole : ¬ (script start).CutsBody op.readsBody)
    (rest : op.Retried script (start + 1) further n outcome) :
    op.Retried script start (further + 1) (n + 1) outcome := by
  have shift : ∀ j, start + 1 + j = start + (j + 1) := fun j => by omega
  obtain ⟨within, again, ended⟩ := rest
  rw [shift] at ended
  refine ⟨Nat.succ_le_succ within, fun j below => ?_, ?_⟩
  · cases j with
    | zero => exact ⟨transient, whole⟩
    | succ j =>
        rw [← shift]
        exact again j (by omega)
  · exact ended.imp_right fun ⟨failed, fails, early⟩ =>
      ⟨failed, fails, fun below => early (by omega)⟩

theorem verdict_of_ended {replies : Replies}
    (ended : replies.verdict op.readsBody = .permanent ∨ replies.CutsBody op.readsBody) :
    replies.verdict op.readsBody ≠ .completes := by
  rcases ended with permanent | cuts
  · rw [permanent]
    decide
  · rw [cuts.verdict]
    decide

/-- The loop, by induction on the attempts left. -/
theorem withRetry_script (op : TwoPhase) (store : BrokerStore) (script : Script) (further : Nat)
    (log : List HttpRequest) :
    ∃ n outcome, (op.attempt script.send store).withRetry further log =
        (log ++ (List.range' (attemptsMade log) (n + 1)).flatMap
          (fun i => op.requests store (script i)), outcome) ∧
      op.Retried script (attemptsMade log) further n outcome := by
  induction further generalizing log with
  | zero =>
      obtain ⟨outcome, ran, ends⟩ := op.attempt_script store script log
      refine ⟨0, ?_⟩
      rw [List.range'_one, List.flatMap_singleton]
      cases ends with
      | completed completes =>
          exact ⟨_, Client.withRetry_ok ran, .completed 0 completes⟩
      | again error transient whole =>
          refine ⟨_, Client.withRetry_stop ran (Or.inr rfl), .failed error ?_ nofun⟩
          rw [transient]
          decide
      | stopped error ended =>
          exact ⟨_, Client.withRetry_stop ran (Or.inr rfl),
            .failed error (verdict_of_ended ended) nofun⟩
  | succ further inductionHypothesis =>
      obtain ⟨outcome, ran, ends⟩ := op.attempt_script store script log
      cases ends with
      | completed completes =>
          refine ⟨0, _, ?_, .completed _ completes⟩
          rw [List.range'_one, List.flatMap_singleton]
          exact Client.withRetry_ok ran
      | stopped error ended =>
          refine ⟨0, .error error, ?_, .failed error (verdict_of_ended ended) fun _ => ended⟩
          rw [List.range'_one, List.flatMap_singleton]
          exact Client.withRetry_stop ran (Or.inl rfl)
      | again error transient whole =>
          rw [Client.withRetry_again ran rfl]
          obtain ⟨n, outcome, rest, retried⟩ :=
            inductionHypothesis (log ++ op.requests store (script (attemptsMade log)))
          rw [attemptsMade_append_requests] at rest retried
          refine ⟨n + 1, outcome, ?_, retried.succ transient whole⟩
          have split : List.range' (attemptsMade log) (n + 1 + 1) =
              attemptsMade log :: List.range' (attemptsMade log + 1) (n + 1) := List.range'_succ
          rw [rest, split, List.flatMap_cons, List.append_assoc]

theorem attemptsMade_flatMap (op : TwoPhase) (store : BrokerStore) (script : Script)
    (attempts : List Nat) :
    attemptsMade (attempts.flatMap fun i => op.requests store (script i)) = attempts.length := by
  induction attempts using List.reverseRecOn with
  | nil => rfl
  | append_singleton front last inductionHypothesis =>
      rw [List.flatMap_append, List.flatMap_singleton, attemptsMade_append_requests,
        inductionHypothesis, List.length_append, List.length_singleton]

/-- The attempt `k` is the one at which the operation returns nil. -/
structure Returns (op : TwoPhase) (store : BrokerStore) (script : Script) (k : Nat) : Prop where
  allowed : k < store.maxAttempts
  completes : (script k).verdict op.readsBody = .completes
  earlier : ∀ j < k, (script j).verdict op.readsBody = .transient ∧
    ¬ (script j).CutsBody op.readsBody

/-- The attempts that are made, and how the operation ends. -/
theorem run_script (op : TwoPhase) (store : BrokerStore) (script : Script) :
    ∃ n, (op.run script.send store []).1 =
        (List.range (n + 1)).flatMap (fun i => op.requests store (script i)) ∧
      op.Retried script 0 (store.maxAttempts - 1) n (op.run script.send store []).2 := by
  obtain ⟨n, outcome, ran, retried⟩ :=
    op.withRetry_script store script (store.maxAttempts - 1) []
  rw [← op.run_eq, List.nil_append] at ran
  refine ⟨n, ?_, ?_⟩
  · rw [ran, List.range_eq_range']
    rfl
  · rw [ran]
    exact retried

/-- The operation returns the bytes of the attempt that completes. -/
theorem run_ok_iff (op : TwoPhase) (store : BrokerStore) (script : Script) (result : Bytes) :
    (op.run script.send store []).2 = .ok result ↔
      ∃ k, op.Returns store script k ∧ result = storageData op.readsBody (script k).storage := by
  have positive := store.attempted
  obtain ⟨n, -, within, again, ended⟩ := op.run_script store script
  simp only [Nat.zero_add] at again ended
  constructor
  · intro returned
    rcases ended with ⟨isOk, completes⟩ | ⟨⟨error, isError⟩, -⟩
    · exact ⟨n, ⟨by omega, completes, again⟩, Except.ok.inj (returned.symm.trans isOk)⟩
    · cases returned.symm.trans isError
  · rintro ⟨k, ⟨allowed, completes, earlier⟩, rfl⟩
    rcases Nat.lt_trichotomy k n with less | rfl | more
    · cases completes.symm.trans (again k less).1
    · rcases ended with ⟨isOk, -⟩ | ⟨-, fails, -⟩
      · exact isOk
      · exact absurd completes fails
    · -- The loop does not end before `k`.
      obtain ⟨transient, whole⟩ := earlier n more
      rcases ended with ⟨-, completesN⟩ | ⟨-, -, early⟩
      · cases completesN.symm.trans transient
      · rcases early (by omega) with permanent | cuts
        · cases permanent.symm.trans transient
        · exact absurd cuts whole

end TwoPhase

/-! ### The law -/

/-- The retry law, for an operation that starts with an empty log. -/
structure RetryLaw (op : TwoPhase) (store : BrokerStore) (script : Script) : Prop where
  bounded : attemptsMade (op.run script.send store []).1 ≤ store.maxAttempts
  /-- Each attempt asks for a URL first, and uses the one it was given. -/
  fresh : (op.run script.send store []).1 =
    (List.range (attemptsMade (op.run script.send store []).1)).flatMap
      fun i => op.requests store (script i)
  returns : (op.run script.send store []).2.isOk = true ↔
    ∃ k < store.maxAttempts, (script k).verdict op.readsBody = .completes ∧
      ∀ j < k, (script j).verdict op.readsBody = .transient
  /-- No attempt follows a permanent failure. -/
  stops : ∀ i, i + 1 < attemptsMade (op.run script.send store []).1 →
    (script i).verdict op.readsBody ≠ .permanent

/-- The law holds exactly if no attempt before the one that completes loses a body
while it is being read. -/
theorem retry_law_iff (op : TwoPhase) (store : BrokerStore) (script : Script) :
    RetryLaw op store script ↔
      ∀ k < store.maxAttempts, (script k).verdict op.readsBody = .completes →
        (∀ j < k, (script j).verdict op.readsBody = .transient) →
        ∀ j < k, ¬ (script j).CutsBody op.readsBody := by
  have positive := store.attempted
  have isOk : (op.run script.send store []).2.isOk = true ↔ ∃ k, op.Returns store script k := by
    constructor
    · intro returned
      cases isResult : (op.run script.send store []).2 with
      | error error =>
          rw [isResult] at returned
          cases returned
      | ok result =>
          obtain ⟨k, returns, -⟩ := (op.run_ok_iff store script result).mp isResult
          exact ⟨k, returns⟩
    · rintro ⟨k, returns⟩
      rw [(op.run_ok_iff store script _).mpr ⟨k, returns, rfl⟩]
      rfl
  constructor
  · intro law k allowed completes earlier j before
    obtain ⟨k', returns⟩ := isOk.mp (law.returns.mpr ⟨k, allowed, completes, earlier⟩)
    -- Only one attempt completes after transient failures.
    rcases Nat.lt_trichotomy k' k with less | rfl | more
    · cases returns.completes.symm.trans (earlier k' less)
    · exact (returns.earlier j before).2
    · cases completes.symm.trans (returns.earlier k more).1
  · intro whole
    obtain ⟨n, log, within, again, -⟩ := op.run_script store script
    have made : attemptsMade (op.run script.send store []).1 = n + 1 := by
      rw [log, TwoPhase.attemptsMade_flatMap, List.length_range]
    refine ⟨by omega, by rw [made, log], ?_, fun i below => ?_⟩
    · rw [isOk]
      constructor
      · rintro ⟨k, returns⟩
        exact ⟨k, returns.allowed, returns.completes, fun j before => (returns.earlier j before).1⟩
      · rintro ⟨k, allowed, completes, earlier⟩
        exact ⟨k, allowed, completes, fun j before =>
          ⟨earlier j before, whole k allowed completes earlier j before⟩⟩
    · rw [made] at below
      have transient := (again i (by omega)).1
      rw [Nat.zero_add] at transient
      rw [transient]
      decide

/-- The broker's reply to the first attempt breaks while its body is read, and the
second attempt would complete. -/
def brokenFirst : Script
  | 0 => ⟨some { status := 200, body := .broken }, none⟩
  | _ => ⟨some { status := 200, body := .url "u".toList },
      some { status := 200, body := .bytes [1, 2, 3] }⟩

/-- `GetRaw` gives up after the first attempt. -/
theorem broken_url_not_retried :
    let store : BrokerStore := { baseURL := "http://b".toList, authValue := "t".toList }
    let op := TwoPhase.getRaw indexKey
    (op.run brokenFirst.send store []).2 = .error .decode ∧
      (brokenFirst 0).verdict op.readsBody = .transient ∧
      (brokenFirst 1).verdict op.readsBody = .completes ∧ 1 < store.maxAttempts ∧
      ¬ RetryLaw op store brokenFirst := by
  refine ⟨rfl, rfl, rfl, by decide, fun law => ?_⟩
  have returned := law.returns.mpr ⟨1, by decide, rfl, fun j before => by
    rw [Nat.lt_one_iff.mp before]
    rfl⟩
  cases returned

end Fusey
