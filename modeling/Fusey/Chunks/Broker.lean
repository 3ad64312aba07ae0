import Fusey.PyLib.Text
import Fusey.GoLib.Machine
import Fusey.Chunks.Store

/-!
Contract: the broker store and the reference broker (`internal/chunks/broker.go`,
`broker/main.py`).

Owns:
- the handlers of the broker over a directory of objects, with their routes,
  their checks and their status codes;
- the client: `withRetry`, the status checks, and every operation of
  `BrokerStore` as the requests it makes;
- what each operation of the client does over the reference broker.

The transport of the client is a parameter; over the reference broker it is the
reliable one. A JSON body is the value it encodes. Memory is unlimited: a body or
a buffer of any length can be allocated.
-/

set_option autoImplicit false

namespace Fusey

open GoInt

abbrev Text := List Char

/-! ### HTTP -/

inductive HttpMethod where
  | get
  | put
  | delete
  | head
deriving DecidableEq

/-- A request, with the value of the auth header and of `Range`. -/
structure HttpRequest where
  method : HttpMethod
  url : Text
  auth : Option Text := none
  range : Option Text := none
  body : Bytes := []

/-- A body: none, raw bytes, a presigned URL, a list of IDs, or one that the network
cuts off while it is being read. -/
inductive HttpBody where
  | empty
  | bytes (data : Bytes)
  | url (url : Text)
  | ids (ids : List Key)
  | broken
deriving DecidableEq

structure HttpResponse where
  status : Nat
  contentLength : Option Nat := none
  body : HttpBody := .empty

/-! ### The broker -/

/-- The names of a directory in some order, each once. -/
def Lists (objects : Objects) (names : List Key) : Prop :=
  names.Nodup ∧ ∀ id, id ∈ names ↔ ∃ object, objects.get id = some object

/-- The configuration of the broker, and the order in which `iterdir` returns the
names. -/
structure Broker where
  baseURL : Text
  authValue : Text
  iterdir : Objects → List Key
  lists : ∀ objects, Lists objects (iterdir objects)

/-- The routes of the application. -/
inductive Route where
  | uploadUrl (id : Key)
  | downloadUrl (id : Key)
  | object (id : Key)
  | objects
  | raw (id : Key)
deriving DecidableEq

/-- The route of a path. A path parameter is not empty. -/
def Route.parse (path : Text) : Option Route :=
  match path.splitOn '/' with
  | [[], first] => if first = "objects".toList then some .objects else none
  | [[], first, id] =>
      if id = [] then none
      else if first = "objects".toList then some (.object id)
      else if first = "raw".toList then some (.raw id)
      else none
  | [[], first, id, last] =>
      if id = [] ∨ first ≠ "objects".toList then none
      else if last = "upload-url".toList then some (.uploadUrl id)
      else if last = "download-url".toList then some (.downloadUrl id)
      else none
  | _ => none

/-- The characters that `_SAFE_ID` allows. -/
def isSafe (c : Char) : Bool := c.isAlphanum || c == '.' || c == '_' || c == '-'

/-- `_SAFE_ID`: the pattern's `$` also matches before a newline at the end. -/
def validateId (id : Key) : Bool :=
  let core := if id.getLast? = some '\n' then id.dropLast else id
  core ≠ [] && core.all isSafe

/-- `Range` as `raw_get` reads it. -/
def parseRange (header : Text) : Option (Int × Int) :=
  match PyText.splitOnce '-' (PyText.removeHead "bytes=".toList header) with
  | none => none
  | some (start, stop) =>
      match PyText.int start, PyText.int stop with
      | some first, some last => some (first, last)
      | _, _ => none

namespace Broker

variable (broker : Broker) (objects : Objects)

/-- The self-referential presigned URL of an object. -/
def rawUrl (id : Key) : Text := broker.baseURL ++ "/raw/".toList ++ id

def uploadUrl (id : Key) : Objects × HttpResponse :=
  (objects, { status := 200, body := .url (broker.rawUrl id) })

def downloadUrl (id : Key) : Objects × HttpResponse :=
  match objects.get id with
  | none => (objects, { status := 404 })
  | some _ => (objects, { status := 200, body := .url (broker.rawUrl id) })

def deleteObject (id : Key) : Objects × HttpResponse := (objects.delete id, { status := 204 })

def headObject (id : Key) : Objects × HttpResponse :=
  match objects.get id with
  | none => (objects, { status := 404 })
  | some object => (objects, { status := 200, contentLength := some object.length })

/-- `list_objects`. A missing directory is an empty one. -/
def listObjects : Objects × HttpResponse :=
  (objects, { status := 200, body := .ids (broker.iterdir objects) })

def rawPut (id : Key) (data : Bytes) : Objects × HttpResponse :=
  (objects.set id data, { status := 201 })

def rawGet (id : Key) (range : Option Text) : Objects × HttpResponse :=
  match objects.get id with
  | none => (objects, { status := 404 })
  | some data =>
      let header := range.getD []
      if header = [] then
        (objects, { status := 200, contentLength := some data.length, body := .bytes data })
      else
        match parseRange header with
        | none => (objects, { status := 416 })
        | some (start, stop) =>
            if start < 0 ∨ stop < start ∨ stop ≥ data.length then (objects, { status := 416 })
            else
              let slice := (data.drop start.toNat).take (stop + 1 - start).toNat
              (objects,
                { status := 206, contentLength := some slice.length, body := .bytes slice })

/-- `require_auth` and `validate_id` before a handler. -/
def guarded (auth : Option Text) (id : Key) (handler : Objects × HttpResponse) :
    Objects × HttpResponse :=
  if auth ≠ some broker.authValue then (objects, { status := 401 })
  else if validateId id = false then (objects, { status := 400 })
  else handler

/-- The application. -/
def serve (path : Text) (req : HttpRequest) : Objects × HttpResponse :=
  match Route.parse path, req.method with
  | none, _ => (objects, { status := 404 })
  | some (.uploadUrl id), .get =>
      broker.guarded objects req.auth id (broker.uploadUrl objects id)
  | some (.downloadUrl id), .get =>
      broker.guarded objects req.auth id (broker.downloadUrl objects id)
  | some (.object id), .delete => broker.guarded objects req.auth id (deleteObject objects id)
  | some (.object id), .head => broker.guarded objects req.auth id (headObject objects id)
  | some .objects, .get =>
      if req.auth ≠ some broker.authValue then (objects, { status := 401 })
      else broker.listObjects objects
  | some (.raw id), .put =>
      if validateId id = false then (objects, { status := 400 })
      else rawPut objects id req.body
  | some (.raw id), .get =>
      if validateId id = false then (objects, { status := 400 })
      else rawGet objects id req.range
  | some _, _ => (objects, { status := 405 })

/-- A reliable transport to the broker: requests to its base URL are answered. -/
def transport (req : HttpRequest) : Objects × Option HttpResponse :=
  if broker.baseURL <+: req.url then
    let answer := broker.serve objects (req.url.drop broker.baseURL.length) req
    (answer.1, some answer.2)
  else (objects, none)

end Broker

/-! ### The client -/

inductive BrokerError where
  | network
  | unauthorized
  | notFound
  | forbidden
  | status (code : Nat)
  | decode
  | missingLength
deriving DecidableEq

/-- An error, and whether `makeRetryable` wraps it. -/
structure Failure where
  error : BrokerError
  retryable : Bool := false
deriving DecidableEq

/-- A computation over a state that requests change, also when they fail. -/
def Client (σ α : Type) : Type := σ → σ × Except Failure α

namespace Client

variable {σ α β : Type}

def fail (failure : Failure) : Client σ α := fun s => (s, .error failure)

instance : Monad (Client σ) where
  pure a := fun s => (s, .ok a)
  bind x f := fun s =>
    match x s with
    | (s', .ok a) => f a s'
    | (s', .error failure) => (s', .error failure)

theorem bind_ok {x : Client σ α} {f : α → Client σ β} {s s' : σ} {a : α}
    (ran : x s = (s', .ok a)) : (x >>= f) s = f a s' := by
  show (match x s with
    | (s', .ok a) => f a s'
    | (s', .error failure) => (s', .error failure)) = _
  rw [ran]

theorem bind_error {x : Client σ α} {f : α → Client σ β} {s s' : σ} {failure : Failure}
    (ran : x s = (s', .error failure)) : (x >>= f) s = (s', .error failure) := by
  show (match x s with
    | (s', .ok a) => f a s'
    | (s', .error failure) => (s', .error failure)) = _
  rw [ran]

@[simp] theorem pure_apply (a : α) (s : σ) : (pure a : Client σ α) s = (s, .ok a) := rfl

@[simp] theorem fail_apply (failure : Failure) (s : σ) :
    (fail failure : Client σ α) s = (s, .error failure) := rfl

/-- `withRetry` with a number of further attempts. The context is not cancelled
between them; the wrapper of the last error is stripped. -/
def withRetry (fn : Client σ α) : Nat → σ → σ × Except BrokerError α
  | further, s =>
      match fn s with
      | (s', .ok a) => (s', .ok a)
      | (s', .error failure) =>
          match failure.retryable, further with
          | true, left + 1 => withRetry fn left s'
          | _, _ => (s', .error failure.error)

theorem withRetry_ok {fn : Client σ α} {further : Nat} {s s' : σ} {a : α}
    (ran : fn s = (s', .ok a)) : withRetry fn further s = (s', .ok a) := by
  unfold withRetry
  rw [ran]

theorem withRetry_permanent {fn : Client σ α} {further : Nat} {s s' : σ} {error : BrokerError}
    (ran : fn s = (s', .error { error := error })) :
    withRetry fn further s = (s', .error error) := by
  unfold withRetry
  rw [ran]

end Client

/-- `defaultMaxAttempts`. -/
def defaultMaxAttempts : Nat := 4

/-- `BrokerStore`, without its transport. -/
structure BrokerStore where
  baseURL : Text
  authValue : Text
  maxAttempts : Nat := defaultMaxAttempts
  attempted : 0 < maxAttempts := by decide

/-- `checkBrokerStatus`. -/
def checkBrokerStatus {σ : Type} (resp : HttpResponse) : Client σ Unit :=
  if resp.status = 200 ∨ resp.status = 201 ∨ resp.status = 204 ∨ resp.status = 206 then pure ()
  else if resp.status = 401 then .fail { error := .unauthorized }
  else if resp.status = 404 then .fail { error := .notFound }
  else .fail { error := .status resp.status, retryable := resp.status ≥ 500 }

/-- `checkStorageStatus`. -/
def checkStorageStatus {σ : Type} (resp : HttpResponse) : Client σ Unit :=
  if resp.status = 200 ∨ resp.status = 201 ∨ resp.status = 204 ∨ resp.status = 206 then pure ()
  else if resp.status = 404 then .fail { error := .notFound }
  else if resp.status = 403 then .fail { error := .forbidden, retryable := true }
  else .fail { error := .status resp.status, retryable := resp.status ≥ 500 }

namespace BrokerStore

variable {σ : Type} (send : σ → HttpRequest → σ × Option HttpResponse) (store : BrokerStore)

/-- `client.Do`; an error of the network may be retried. -/
def request (req : HttpRequest) : Client σ HttpResponse := fun s =>
  match send s req with
  | (s', some resp) => (s', .ok resp)
  | (s', none) => (s', .error { error := .network, retryable := true })

def objectURL (id : Key) : Text := store.baseURL ++ "/objects/".toList ++ id

/-- A request to the broker, with the auth header. -/
def newRequest (method : HttpMethod) (url : Text) : HttpRequest :=
  { method := method, url := url, auth := some store.authValue }

/-- The presigned URL that an endpoint of the broker returns. -/
def presigned (endpoint : Text) (id : Key) : Client σ Text := do
  let resp ← request send (store.newRequest .get (store.objectURL id ++ endpoint))
  checkBrokerStatus resp
  match resp.body with
  | .url url => pure url
  | _ => .fail { error := .decode }

def uploadURL (id : Key) : Client σ Text := presigned send store "/upload-url".toList id

def downloadURL (id : Key) : Client σ Text := presigned send store "/download-url".toList id

def retrying {α : Type} (fn : Client σ α) (s : σ) : σ × Except BrokerError α :=
  fn.withRetry (store.maxAttempts - 1) s

def put (id : Key) (data : Bytes) : σ → σ × Except BrokerError Unit := retrying store do
  let url ← uploadURL send store id
  let resp ← request send { method := .put, url := url, body := data }
  checkStorageStatus resp

/-- The bytes that `io.ReadAll` reads; its error is returned as it is. -/
def readAll (resp : HttpResponse) : Client σ Bytes :=
  match resp.body with
  | .bytes data => pure data
  | .broken => .fail { error := .network }
  | _ => pure []

/-- `fmt.Sprintf("bytes=%d-%d", offset, offset+length-1)`. -/
def rangeHeader (offset length : Int) : Text :=
  "bytes=".toList ++ (GoFmt.signedDecimal offset ++
    '-' :: GoFmt.signedDecimal (wrap64 (wrap64 (offset + length) - 1)))

/-- A download, of a range or of the whole object. -/
def download (id : Key) (range : Option Text) : Client σ Bytes := do
  let url ← downloadURL send store id
  let resp ← request send { method := .get, url := url, range := range }
  checkStorageStatus resp
  readAll resp

def getRange (id : Key) (offset length : Int) : σ → σ × Except BrokerError Bytes :=
  retrying store (download send store id (some (rangeHeader offset length)))

def delete (id : Key) : σ → σ × Except BrokerError Unit := retrying store do
  let resp ← request send (store.newRequest .delete (store.objectURL id))
  -- A missing object is not an error.
  if resp.status = 404 then pure () else checkBrokerStatus resp

def list : σ → σ × Except BrokerError (List Key) := retrying store do
  let resp ← request send (store.newRequest .get (store.baseURL ++ "/objects".toList))
  checkBrokerStatus resp
  match resp.body with
  | .ids ids => pure (ids.filter (· ≠ indexKey))
  | _ => .fail { error := .decode }

def size (id : Key) : σ → σ × Except BrokerError Int := retrying store do
  let resp ← request send (store.newRequest .head (store.objectURL id))
  checkBrokerStatus resp
  match resp.contentLength with
  | some length => pure (length : Int)
  | none => .fail { error := .missingLength }

def putRaw (key : Key) (data : Bytes) : σ → σ × Except BrokerError Unit := put send store key data

def getRaw (key : Key) : σ → σ × Except BrokerError Bytes :=
  retrying store (download send store key none)

end BrokerStore

/-! ### Routes -/

/-- An ID that is one segment of a path and that the broker accepts. -/
structure PlainID (id : Key) : Prop where
  noSlash : '/' ∉ id
  valid : validateId id = true

theorem PlainID.ne_nil {id : Key} (plain : PlainID id) : id ≠ [] := by
  rintro rfl
  cases plain.valid

/-- A path is split into its segments. -/
theorem splitOn_of_segments {path : Text} {segments : List Text}
    (joined : path = ['/'].intercalate segments) (nonempty : segments ≠ [])
    (noSlash : ∀ segment ∈ segments, '/' ∉ segment) : path.splitOn '/' = segments := by
  rw [joined]
  exact List.splitOn_intercalate '/' noSlash nonempty

namespace Route

variable {id : Key} (plain : PlainID id)
include plain

theorem parse_object : Route.parse ("/objects/".toList ++ id) = some (.object id) := by
  have split : ("/objects/".toList ++ id).splitOn '/' = [[], "objects".toList, id] :=
    splitOn_of_segments (by simp [List.intercalate]) (List.cons_ne_nil _ _)
      (by simp [plain.noSlash])
  simp only [Route.parse, split, if_neg plain.ne_nil, if_true]

theorem parse_raw : Route.parse ("/raw/".toList ++ id) = some (.raw id) := by
  have split : ("/raw/".toList ++ id).splitOn '/' = [[], "raw".toList, id] :=
    splitOn_of_segments (by simp [List.intercalate]) (List.cons_ne_nil _ _)
      (by simp [plain.noSlash])
  have notObjects : "raw".toList ≠ "objects".toList := by decide
  simp only [Route.parse, split, if_neg plain.ne_nil, if_neg notObjects, if_true]

theorem parse_uploadUrl :
    Route.parse ("/objects/".toList ++ id ++ "/upload-url".toList) = some (.uploadUrl id) := by
  have split : ("/objects/".toList ++ id ++ "/upload-url".toList).splitOn '/' =
      [[], "objects".toList, id, "upload-url".toList] :=
    splitOn_of_segments (by simp [List.intercalate]) (List.cons_ne_nil _ _)
      (by simp [plain.noSlash])
  simp only [Route.parse, split, plain.ne_nil, ne_eq, not_true, or_self, if_false, if_true]

theorem parse_downloadUrl :
    Route.parse ("/objects/".toList ++ id ++ "/download-url".toList) = some (.downloadUrl id) := by
  have split : ("/objects/".toList ++ id ++ "/download-url".toList).splitOn '/' =
      [[], "objects".toList, id, "download-url".toList] :=
    splitOn_of_segments (by simp [List.intercalate]) (List.cons_ne_nil _ _)
      (by simp [plain.noSlash])
  have notUpload : "download-url".toList ≠ "upload-url".toList := by decide
  simp only [Route.parse, split, plain.ne_nil, ne_eq, not_true, or_self, if_false, if_neg notUpload,
    if_true]

end Route

/-! ### Over the reference broker -/

/-- The client of a broker: its base URL and the correct token. -/
def Broker.client (broker : Broker) : BrokerStore :=
  { baseURL := broker.baseURL, authValue := broker.authValue }

namespace BrokerStore

variable {broker : Broker} {objects objects' : Objects} {id : Key} {resp : HttpResponse}

/-- A request to the broker is answered by its handler. -/
theorem request_eq {req : HttpRequest} (path : Text) (url : req.url = broker.baseURL ++ path)
    (served : broker.serve objects path req = (objects', resp)) :
    request broker.transport req objects = (objects', .ok resp) := by
  have reaches : broker.baseURL <+: req.url := url ▸ List.prefix_append _ _
  have rest : req.url.drop broker.baseURL.length = path := by rw [url, List.drop_left]
  simp only [request, Broker.transport, if_pos reaches, rest, served]

/-- The checks before a handler let the client of the broker through. -/
theorem guarded_eq (plain : PlainID id) (handler : Objects × HttpResponse) :
    broker.guarded objects (some broker.authValue) id handler = handler := by
  have accepted : ¬ validateId id = false := by simp [plain.valid]
  rw [Broker.guarded, if_neg (not_not.mpr rfl), if_neg accepted]

theorem checkBrokerStatus_ok {σ : Type} (s : σ) (accepted : resp.status = 200 ∨
    resp.status = 201 ∨ resp.status = 204 ∨ resp.status = 206) :
    checkBrokerStatus resp s = (s, .ok ()) := by
  rw [checkBrokerStatus, if_pos accepted]
  rfl

theorem checkStorageStatus_ok {σ : Type} (s : σ) (accepted : resp.status = 200 ∨
    resp.status = 201 ∨ resp.status = 204 ∨ resp.status = 206) :
    checkStorageStatus resp s = (s, .ok ()) := by
  rw [checkStorageStatus, if_pos accepted]
  rfl

section Plain

variable (plain : PlainID id)
include plain

theorem request_uploadUrl :
    request broker.transport
        (broker.client.newRequest .get (broker.client.objectURL id ++ "/upload-url".toList))
        objects = (objects, .ok { status := 200, body := .url (broker.rawUrl id) }) := by
  refine request_eq ("/objects/".toList ++ id ++ "/upload-url".toList) ?_ ?_
  · simp [newRequest, objectURL, Broker.client]
  · rw [Broker.serve, Route.parse_uploadUrl plain]
    exact guarded_eq plain _

theorem request_downloadUrl :
    request broker.transport
        (broker.client.newRequest .get (broker.client.objectURL id ++ "/download-url".toList))
        objects = ((broker.downloadUrl objects id).1, .ok (broker.downloadUrl objects id).2) := by
  refine request_eq ("/objects/".toList ++ id ++ "/download-url".toList) ?_ ?_
  · simp [newRequest, objectURL, Broker.client]
  · rw [Broker.serve, Route.parse_downloadUrl plain]
    exact guarded_eq plain _

theorem request_delete :
    request broker.transport (broker.client.newRequest .delete (broker.client.objectURL id))
      objects = (objects.delete id, .ok { status := 204 }) := by
  refine request_eq ("/objects/".toList ++ id) ?_ ?_
  · simp [newRequest, objectURL, Broker.client]
  · rw [Broker.serve, Route.parse_object plain]
    exact guarded_eq plain _

theorem request_head :
    request broker.transport (broker.client.newRequest .head (broker.client.objectURL id))
      objects = ((Broker.headObject objects id).1, .ok (Broker.headObject objects id).2) := by
  refine request_eq ("/objects/".toList ++ id) ?_ ?_
  · simp [newRequest, objectURL, Broker.client]
  · rw [Broker.serve, Route.parse_object plain]
    exact guarded_eq plain _

theorem request_rawPut (data : Bytes) :
    request broker.transport { method := .put, url := broker.rawUrl id, body := data } objects =
      (objects.set id data, .ok { status := 201 }) := by
  refine request_eq ("/raw/".toList ++ id) ?_ ?_
  · simp [Broker.rawUrl]
  · rw [Broker.serve, Route.parse_raw plain]
    exact if_neg (by simp [plain.valid])

theorem request_rawGet (range : Option Text) :
    request broker.transport { method := .get, url := broker.rawUrl id, range := range } objects =
      ((Broker.rawGet objects id range).1, .ok (Broker.rawGet objects id range).2) := by
  refine request_eq ("/raw/".toList ++ id) ?_ ?_
  · simp [Broker.rawUrl]
  · rw [Broker.serve, Route.parse_raw plain]
    exact if_neg (by simp [plain.valid])

/-! ### The operations -/

theorem uploadURL_eq :
    uploadURL broker.transport broker.client id objects = (objects, .ok (broker.rawUrl id)) := by
  unfold uploadURL presigned
  rw [Client.bind_ok (request_uploadUrl plain)]
  rw [Client.bind_ok (checkBrokerStatus_ok objects (Or.inl rfl))]
  rfl

theorem downloadURL_absent (absent : objects.get id = none) :
    downloadURL broker.transport broker.client id objects =
      (objects, .error { error := .notFound }) := by
  unfold downloadURL presigned
  rw [Client.bind_ok (request_downloadUrl plain)]
  simp only [Broker.downloadUrl, absent]
  exact Client.bind_error rfl

theorem downloadURL_present {object : Bytes} (present : objects.get id = some object) :
    downloadURL broker.transport broker.client id objects =
      (objects, .ok (broker.rawUrl id)) := by
  unfold downloadURL presigned
  rw [Client.bind_ok (request_downloadUrl plain)]
  simp only [Broker.downloadUrl, present]
  rw [Client.bind_ok (checkBrokerStatus_ok objects (Or.inl rfl))]
  rfl

/-- `Put` stores its data. -/
theorem put_eq (data : Bytes) :
    put broker.transport broker.client id data objects = (objects.set id data, .ok ()) := by
  refine Client.withRetry_ok ?_
  rw [Client.bind_ok (uploadURL_eq plain), Client.bind_ok (request_rawPut plain data)]
  exact checkStorageStatus_ok _ (Or.inr (Or.inl rfl))

/-- `Delete` removes the object, present or not. -/
theorem delete_eq :
    delete broker.transport broker.client id objects = (objects.delete id, .ok ()) := by
  refine Client.withRetry_ok ?_
  rw [Client.bind_ok (request_delete plain), if_neg (by decide)]
  exact checkBrokerStatus_ok _ (Or.inr (Or.inr (Or.inl rfl)))

/-- `Size` is the length of the object, or `ErrNotFound`. -/
theorem size_eq :
    size broker.transport broker.client id objects =
      (objects, match objects.get id with
        | none => .error .notFound
        | some object => .ok (object.length : Int)) := by
  cases found : objects.get id with
  | none =>
      refine Client.withRetry_permanent ?_
      rw [Client.bind_ok (request_head plain)]
      simp only [Broker.headObject, found]
      exact Client.bind_error rfl
  | some object =>
      refine Client.withRetry_ok ?_
      rw [Client.bind_ok (request_head plain)]
      simp only [Broker.headObject, found]
      rw [Client.bind_ok (checkBrokerStatus_ok objects (Or.inl rfl))]
      rfl

/-- A download of an absent object is `ErrNotFound`. -/
theorem download_absent (absent : objects.get id = none) (range : Option Text) :
    download broker.transport broker.client id range objects =
      (objects, .error { error := .notFound }) :=
  Client.bind_error (downloadURL_absent plain absent)

/-- A download whose range the broker refuses. -/
theorem download_refused {object : Bytes} (present : objects.get id = some object)
    {range : Option Text}
    (refused : Broker.rawGet objects id range = (objects, { status := 416 })) :
    download broker.transport broker.client id range objects =
      (objects, .error { error := .status 416 }) := by
  unfold download
  rw [Client.bind_ok (downloadURL_present plain present),
    Client.bind_ok (request_rawGet plain range), refused]
  exact Client.bind_error rfl

theorem download_served {object : Bytes} (present : objects.get id = some object)
    {range : Option Text} {data : Bytes}
    (served : Broker.rawGet objects id range = (objects, resp))
    (accepted : resp.status = 200 ∨ resp.status = 201 ∨ resp.status = 204 ∨ resp.status = 206)
    (body : resp.body = .bytes data) :
    download broker.transport broker.client id range objects = (objects, .ok data) := by
  unfold download
  rw [Client.bind_ok (downloadURL_present plain present),
    Client.bind_ok (request_rawGet plain range), served,
    Client.bind_ok (checkStorageStatus_ok objects accepted)]
  simp only [readAll, body]
  rfl

/-- `GetRaw` is the whole object, or `ErrNotFound`. -/
theorem getRaw_eq :
    getRaw broker.transport broker.client id objects =
      (objects, match objects.get id with
        | none => .error .notFound
        | some object => .ok object) := by
  cases found : objects.get id with
  | none => exact Client.withRetry_permanent (download_absent plain found none)
  | some object =>
      have served : Broker.rawGet objects id none = (objects,
          { status := 200, contentLength := some object.length, body := .bytes object }) := by
        simp only [Broker.rawGet, found, Option.getD_none, if_true]
      exact Client.withRetry_ok (download_served plain found served (Or.inl rfl) rfl)

end Plain

theorem rangeHeader_ne_nil (offset length : Int) : rangeHeader offset length ≠ [] :=
  List.cons_ne_nil _ _

/-- The broker reads the range that the client writes. -/
theorem parseRange_rangeHeader {offset : Int} (low : 0 ≤ offset) (length : Int) :
    parseRange (rangeHeader offset length) =
      some (offset, wrap64 (wrap64 (offset + length) - 1)) := by
  obtain ⟨start, rfl⟩ := Int.eq_ofNat_of_zero_le low
  have noDash : '-' ∉ GoFmt.signedDecimal (start : Int) := fun member => by
    cases GoFmt.isDigit_of_mem_decimal member
  unfold parseRange rangeHeader
  rw [PyText.removeHead_append, PyText.splitOnce_append _ noDash]
  simp only [PyText.int_signedDecimal]

/-- The inclusive end of a range: past `int64` it is negative. -/
theorem wrap64_stop {offset length : Int} (low : 0 ≤ offset) (positive : 1 ≤ length)
    (offsetFits : offset < 9223372036854775808) (lengthFits : length < 9223372036854775808) :
    wrap64 (wrap64 (offset + length) - 1) = offset + length - 1 ∨
      9223372036854775808 ≤ offset + length - 1 ∧
        wrap64 (wrap64 (offset + length) - 1) < 0 := by
  unfold wrap64
  omega

/-- `GetRange` is the range of the object, and an error if it is not inside. -/
theorem getRange_eq (plain : PlainID id) {offset length : Int} (low : 0 ≤ offset)
    (positive : 1 ≤ length) (offsetFits : offset < 9223372036854775808)
    (lengthFits : length < 9223372036854775808)
    (small : ∀ object, objects.get id = some object →
      (object.length : Int) < 9223372036854775808) :
    getRange broker.transport broker.client id offset length objects =
      (objects, match objects.get id with
        | none => .error .notFound
        | some object =>
            match readAt object offset length with
            | some data => .ok data
            | none => .error (.status 416)) := by
  cases found : objects.get id with
  | none => exact Client.withRetry_permanent (download_absent plain found _)
  | some object =>
      have bounded := small object found
      have parsed := parseRange_rangeHeader low length
      have given := rangeHeader_ne_nil offset length
      by_cases inside : offset + length ≤ object.length
      · have stop : wrap64 (wrap64 (offset + length) - 1) = offset + length - 1 := by
          rcases wrap64_stop low positive offsetFits lengthFits with plain | ⟨large, -⟩
          · exact plain
          · omega
        have read : readAt object offset length =
            some ((object.drop offset.toNat).take length.toNat) :=
          if_pos ⟨low, by omega, Or.inr inside⟩
        have width : offset + length - 1 + 1 - offset = length := by omega
        have accepted : ¬ (offset < 0 ∨ offset + length - 1 < offset ∨
            offset + length - 1 ≥ object.length) := by omega
        have served : Broker.rawGet objects id (some (rangeHeader offset length)) = (objects,
            { status := 206
              contentLength := some ((object.drop offset.toNat).take length.toNat).length
              body := .bytes ((object.drop offset.toNat).take length.toNat) }) := by
          simp only [Broker.rawGet, found, Option.getD_some, if_neg given, parsed, stop,
            if_neg accepted, width]
        simp only [read]
        exact Client.withRetry_ok
          (download_served plain found served (Or.inr (Or.inr (Or.inr rfl))) rfl)
      · have read : readAt object offset length = none := if_neg (by omega)
        have refused : offset < 0 ∨ wrap64 (wrap64 (offset + length) - 1) < offset ∨
            wrap64 (wrap64 (offset + length) - 1) ≥ object.length := by
          rcases wrap64_stop low positive offsetFits lengthFits with plain | ⟨-, negative⟩
          · omega
          · omega
        simp only [read]
        refine Client.withRetry_permanent (download_refused plain found ?_)
        simp only [Broker.rawGet, found, Option.getD_some, if_neg given, parsed, if_pos refused]

/-- `List` returns the IDs that the broker lists, without the index. -/
theorem list_eq :
    list broker.transport broker.client objects =
      (objects, .ok ((broker.iterdir objects).filter (· ≠ indexKey))) := by
  have answered : request broker.transport
      (broker.client.newRequest .get (broker.client.baseURL ++ "/objects".toList)) objects =
      (objects, .ok { status := 200, body := .ids (broker.iterdir objects) }) := by
    refine request_eq "/objects".toList rfl ?_
    have parsed : Route.parse "/objects".toList = some .objects := by decide
    rw [Broker.serve, parsed]
    exact if_neg (not_not.mpr rfl)
  refine Client.withRetry_ok ?_
  rw [Client.bind_ok answered, Client.bind_ok (checkBrokerStatus_ok objects (Or.inl rfl))]
  rfl

end BrokerStore

end Fusey
