import Fusey.Index.Types

/-!
Contract: the backing object store (`internal/chunks/store.go`, `local.go`,
`s3.go`).

Owns the store interface, the plain key-to-bytes store, and the S3 store whose
keys carry a prefix inside a shared bucket. Operations are the successful ones;
a caller that meets a failing store says so with a `StoreOutcome` or by not
taking the step.
-/

set_option autoImplicit false

namespace Fusey

/-- The key of the index object, relative to a store. -/
def indexKey : Key := "index.cbor".toList

/-- Objects by key. -/
abbrev Objects := GoMap Key Bytes

/-- `f.ReadAt(buf, offset)` into a buffer of `length` bytes: all of it or an
error. An empty buffer is filled at any non-negative offset. -/
def readAt (object : Bytes) (offset length : Int) : Option Bytes :=
  if 0 ≤ offset ∧ 0 ≤ length ∧ (length = 0 ∨ offset + length ≤ object.length) then
    some ((object.drop offset.toNat).take length.toNat)
  else none

/-- `Store` and `ObjectStore` over a state `σ`. A missing object is `none`;
`list` leaves out the index object. A slice that `getRange` returns may have
capacity left: `spare` gives the bytes behind its end. -/
structure Store (σ : Type) where
  put : σ → Key → Bytes → σ
  getRange : σ → Key → Int → Int → Option Bytes
  spare : Bytes → Bytes
  delete : σ → Key → σ
  list : σ → Finset Key
  size : σ → Key → Option Int
  putRaw : σ → Key → Bytes → σ
  getRaw : σ → Key → Option Bytes
  indexKey : Key

/-- How a `Put` or a `Delete` ended: it took effect, or it failed with the old
or the new state left behind. -/
inductive StoreOutcome where
  | ok
  | failedOld
  | failedNew
deriving DecidableEq, Repr

/-- `Put` with its outcome: the state it leaves and whether it returned nil. -/
def Store.tryPut {σ : Type} (store : Store σ) (outcome : StoreOutcome) (s : σ) (id : Key)
    (data : Bytes) : σ × Bool :=
  match outcome with
  | .ok => (store.put s id data, true)
  | .failedOld => (s, false)
  | .failedNew => (store.put s id data, false)

/-- `Delete` with its outcome. -/
def Store.tryDelete {σ : Type} (store : Store σ) (outcome : StoreOutcome) (s : σ) (id : Key) :
    σ × Bool :=
  match outcome with
  | .ok => (store.delete s id, true)
  | .failedOld => (s, false)
  | .failedNew => (store.delete s id, false)

/-- A store that is a key-to-bytes map. As in `LocalStore`, a range is read into a
buffer of its length, which has no capacity left. -/
def mapStore : Store Objects where
  put objects id data := objects.set id data
  getRange objects id offset length :=
    (objects.get id).bind fun object => readAt object offset length
  spare _ := []
  delete objects id := objects.delete id
  list objects := objects.keys.erase Fusey.indexKey
  size objects id := (objects.get id).map fun object => (object.length : Int)
  putRaw objects key data := objects.set key data
  getRaw objects key := objects.get key
  indexKey := Fusey.indexKey

@[simp] theorem mapStore_put (objects : Objects) (id : Key) (data : Bytes) :
    mapStore.put objects id data = objects.set id data := rfl

@[simp] theorem mapStore_getRange (objects : Objects) (id : Key) (offset length : Int) :
    mapStore.getRange objects id offset length =
      (objects.get id).bind fun object => readAt object offset length := rfl

@[simp] theorem mapStore_spare (data : Bytes) : mapStore.spare data = [] := rfl

@[simp] theorem mapStore_delete (objects : Objects) (id : Key) :
    mapStore.delete objects id = objects.delete id := rfl

@[simp] theorem mapStore_size (objects : Objects) (id : Key) :
    mapStore.size objects id = (objects.get id).map fun object => (object.length : Int) := rfl

@[simp] theorem mapStore_putRaw (objects : Objects) (key : Key) (data : Bytes) :
    mapStore.putRaw objects key data = objects.set key data := rfl

@[simp] theorem mapStore_getRaw (objects : Objects) (key : Key) :
    mapStore.getRaw objects key = objects.get key := rfl

@[simp] theorem mapStore_indexKey : mapStore.indexKey = indexKey := rfl

theorem mem_mapStore_list {objects : Objects} {id : Key} :
    id ∈ mapStore.list objects ↔ id ≠ indexKey ∧ ∃ object, objects.get id = some object := by
  simp only [mapStore, Finset.mem_erase, GoMap.mem_keys]

/-! ### Reading a range -/

theorem length_of_readAt {object data : Bytes} {offset length : Int}
    (read : readAt object offset length = some data) : (data.length : Int) = length := by
  unfold readAt at read
  split_ifs at read with range
  obtain ⟨low, nonneg, empty | inside⟩ := range
  · cases read
    subst empty
    simp
  · cases read
    rw [List.length_take, List.length_drop]
    omega

/-- The bytes a successful read returns, one by one. -/
theorem getElem?_of_readAt {object data : Bytes} {offset length : Int}
    (read : readAt object offset length = some data) {i : Nat} (below : (i : Int) < length) :
    data[i]? = object[offset.toNat + i]? := by
  unfold readAt at read
  split_ifs at read with range
  cases read
  rw [List.getElem?_take, if_pos (by omega), List.getElem?_drop]

/-! ### S3 -/

/-- `S3Store` with a prefix, over the objects of a bucket. `fetch` is the
server's answer to a range request on an existing object, `spare` what `io.ReadAll`
leaves behind it. -/
def s3Store (keyPrefix : Key) (fetch : Bytes → Int → Int → Option Bytes)
    (spare : Bytes → Bytes) : Store Objects where
  put bucket id data := bucket.set (keyPrefix ++ id) data
  getRange bucket id offset length :=
    (bucket.get (keyPrefix ++ id)).bind fun object => fetch object offset length
  spare := spare
  delete bucket id := bucket.delete (keyPrefix ++ id)
  -- `ListObjectsV2` returns the keys with the prefix; `TrimPrefix` strips it.
  list bucket := ((bucket.keys.filter fun key => keyPrefix <+: key).image fun key =>
    key.drop keyPrefix.length).erase Fusey.indexKey
  size bucket id := (bucket.get (keyPrefix ++ id)).map fun object => (object.length : Int)
  putRaw bucket key data := bucket.set key data
  getRaw bucket key := bucket.get key
  indexKey := keyPrefix ++ Fusey.indexKey

theorem mem_s3Store_list {keyPrefix : Key} {fetch : Bytes → Int → Int → Option Bytes}
    {spare : Bytes → Bytes} {bucket : Objects} {id : Key} :
    id ∈ (s3Store keyPrefix fetch spare).list bucket ↔
      id ≠ indexKey ∧ ∃ object, bucket.get (keyPrefix ++ id) = some object := by
  simp only [s3Store, Finset.mem_erase, Finset.mem_image, Finset.mem_filter, GoMap.mem_keys]
  constructor
  · rintro ⟨notIndex, key, ⟨stored, rest, rfl⟩, rfl⟩
    rw [List.drop_left]
    exact ⟨by simpa using notIndex, stored⟩
  · rintro ⟨notIndex, stored⟩
    exact ⟨notIndex, keyPrefix ++ id, ⟨stored, List.prefix_append _ _⟩, List.drop_left⟩

end Fusey
