import Fusey.Compaction.Stages
import Fusey.Fuse.FileContent

/-!
Contract: `Compact` keeps the content of every file, wherever it stops.

Owns:
- the content of a file as an index and a store determine it;
- that moving extents to chunks that hold their bytes keeps it, at every point of
  a run with nothing else going on, whatever store operation fails and whatever
  the persist function leaves behind when it fails;
- what the disk cache has to hold for that, and a run over a stale cached file
  that replaces the content of a file.
-/

set_option autoImplicit false

namespace Fusey

open GoInt Interleaving

/-- The content of a file: what its extents hold, zero where none covers. There
is none when an extent reaches past its object. -/
def Index.fileContent (idx : Index) (objects : Objects) (ino : Ino) : Option Bytes :=
  (idx.inodes.get ino).bind fun inode => (idx.extents.get ino).bind fun exts =>
    if ∀ e ∈ exts, InObject objects e then
      some ((List.range inode.size.toNat).map fun x =>
        (byteAt (totalByte (objectByte objects)) exts x).getD 0)
    else none

namespace Compaction

/-! ### Moving extents -/

/-- An extent and its replacement read the same. -/
structure SameBytes (objects objects' : Objects) (e e' : Extent) : Prop where
  before : InObject objects e
  after : InObject objects' e'
  bytes : ∀ x, e'.layer (totalByte (objectByte objects')) x =
    e.layer (totalByte (objectByte objects)) x

/-- Replacing every extent by one that reads the same keeps every content. -/
theorem fileContent_map {objects objects' : Objects} {idx idx' : Index} {f : Extent → Extent}
    (inodes : idx'.inodes = idx.inodes)
    (extents : ∀ ino, idx'.extents.get ino = (idx.extents.get ino).map fun exts => exts.map f)
    (same : ∀ ino exts, idx.extents.get ino = some exts → ∀ e ∈ exts,
      SameBytes objects objects' e (f e)) (ino : Ino) :
    idx'.fileContent objects' ino = idx.fileContent objects ino := by
  unfold Index.fileContent
  rw [inodes, extents]
  cases stored : idx.extents.get ino with
  | none => rfl
  | some exts =>
      have each := same ino exts stored
      have all : ∀ e ∈ exts, InObject objects e := fun e member => (each e member).before
      have all' : ∀ e ∈ exts.map f, InObject objects' e := by
        intro e' member
        obtain ⟨e, inList, rfl⟩ := List.mem_map.mp member
        exact (each e inList).after
      have layers : (exts.map f).map (Extent.layer (totalByte (objectByte objects'))) =
          exts.map (Extent.layer (totalByte (objectByte objects))) := by
        rw [List.map_map]
        exact List.map_congr_left fun e member => funext (each e member).bytes
      simp only [Option.map_some, Option.bind_some, if_pos all, if_pos all', byteAt, layers]

/-- An object that stays keeps its extents readable. -/
theorem SameBytes.of_object {objects objects' : Objects} {e : Extent} (inside : InObject objects e)
    (same : objects'.get e.chunkID = objects.get e.chunkID) : SameBytes objects objects' e e where
  before := inside
  after := by
    unfold InObject
    rw [same]
    exact inside
  bytes := by
    intro x
    simp only [Extent.layer, totalByte, objectByte, same]

/-- `data` are the bytes of `e`. -/
def IsData (objects : Objects) (e : Extent) (data : Bytes) : Prop :=
  (data.length : Int) = e.length ∧ ∀ i : Nat, (i : Int) < e.length →
    data[i]? = objectByte objects e.chunkID (e.chunkOffset.toNat + i)

/-- An extent whose bytes were put elsewhere can be read there. -/
theorem SameBytes.of_placed {objects objects' : Objects} {outputs : List OutputChunk}
    {e e' : Extent} (inside : InObject objects e) (positive : 0 < e.length)
    (placed : Placed (IsData objects) outputs e e')
    (stored : ∀ output ∈ outputs, output.buf ≠ [] → objects'.get output.id = some output.buf) :
    SameBytes objects objects' e e' := by
  obtain ⟨length, fileOffset, output, member, id, start, data, offset, ⟨full, bytes⟩, low,
    isPart⟩ := placed
  have fits : start + data.length ≤ output.buf.length := by
    have short := isPart.length_le
    rw [List.length_drop] at short
    omega
  have found : objects'.get e'.chunkID = some output.buf := by
    rw [← id]
    refine stored output member ?_
    intro empty
    rw [empty, List.length_nil] at fits
    omega
  refine ⟨inside, ⟨by omega, by omega, output.buf, found, by omega⟩, fun x => ?_⟩
  have covering : e'.Covers x ↔ e.Covers x := by
    unfold Extent.Covers
    rw [length, fileOffset]
  by_cases covers : e.Covers x
  · unfold Extent.layer
    rw [if_pos covers, if_pos (covering.mpr covers), fileOffset]
    obtain ⟨above, behind⟩ := covers
    obtain ⟨i, here⟩ := Int.eq_ofNat_of_zero_le (Int.sub_nonneg.mpr above)
    obtain ⟨chunkLow, -, -⟩ := inside
    have below : (i : Int) < e.length := by omega
    have inOutput : (e'.chunkOffset + (x - e.fileOffset)).toNat = start + i := by omega
    have inChunk : (e.chunkOffset + (x - e.fileOffset)).toNat = e.chunkOffset.toNat + i := by omega
    have byte : output.buf[start + i]? = data[i]? := by
      obtain ⟨rest, split⟩ := isPart
      rw [← List.getElem?_drop, ← split, List.getElem?_append_left (by omega)]
    simp only [totalByte, inOutput, inChunk]
    rw [← bytes i below, ← byte, objectByte, found, Option.bind_some]
  · rw [Extent.layer_of_not_covers covers,
      Extent.layer_of_not_covers fun also => covers (covering.mp also)]

/-! ### What a run needs -/

/-- What `Compact` may count on: live extents are not empty and lie in their
objects, at offsets that `int64` holds; no two share a position; the names of
the output chunks are free. -/
structure Compactable (params : Params) (objects : Objects) (live : List Extent) : Prop where
  positive : ∀ e ∈ live, 0 < e.length
  inside : ∀ e ∈ live, InObject objects e
  typed : ∀ e ∈ live, e.chunkOffset + e.length < 9223372036854775808
  distinct : ∀ e ∈ live, ∀ other ∈ live, e.chunkID = other.chunkID →
    e.chunkOffset = other.chunkOffset → e = other
  fresh : ∀ k, objects.get (compactedID (params.clock k) k) = none

/-- A cached file that reaches as far as a live extent holds what the object holds
there. -/
def CacheTrue (objects : Objects) (live : List Extent) (cs : ChunkStore) : Prop :=
  ∀ files, cs.cache = some files → ∀ e ∈ live, ∀ file, files.get e.chunkID = some file →
    e.chunkOffset + e.length ≤ file.length → ∀ i : Nat, (i : Int) < e.length →
      file[e.chunkOffset.toNat + i]? = objectByte objects e.chunkID (e.chunkOffset.toNat + i)

section Reader

variable {objects : Objects} {live : List Extent}

/-- What a read adds to the cache is an object. -/
theorem CacheTrue.read {cs : ChunkStore} (cached : CacheTrue objects live cs) (disk : Bool)
    (id : Key) (offset length : Int) :
    CacheTrue objects live (cs.read mapStore disk objects id offset length).1 := by
  rcases ChunkStore.read_cases disk objects cs id offset length with
    same | ⟨files, object, enabled, -, stored, same⟩
  · rw [same]
    exact cached
  · rw [same]
    rintro files' ⟨⟩ e isLive file found reaches i below
    rw [GoMap.get_set] at found
    split_ifs at found with isIt
    · cases found
      rw [objectByte, isIt, stored, Option.bind_some]
    · exact cached files enabled e isLive file found reaches i below

/-- A read of a live extent outside the active chunk returns its bytes. -/
theorem isData_of_read {cs : ChunkStore} (cached : CacheTrue objects live cs) {e : Extent}
    (isLive : e ∈ live) (positive : 0 < e.length) (low : 0 ≤ e.chunkOffset)
    (typed : e.chunkOffset + e.length < 9223372036854775808) (inactive : e.chunkID ≠ cs.activeID)
    {disk : Bool} {data : Bytes}
    (answer : (cs.read mapStore disk objects e.chunkID e.chunkOffset e.length).2 = .ok data) :
    IsData objects e data := by
  obtain ⟨bytes, source, full, ranged⟩ :=
    ChunkStore.read_source (wrap64_of_nonneg (by omega) typed) answer
  refine ⟨full, fun i below => (ranged i below).trans ?_⟩
  rcases source with ⟨isActive, -⟩ | ⟨-, stored | ⟨files, enabled, held⟩⟩
  · exact absurd isActive inactive
  · rw [objectByte, stored, Option.bind_some]
  · -- The file gave the last byte of the extent, so it reaches its end.
    have reaches : e.chunkOffset + e.length ≤ bytes.length := by
      have last := ranged (e.length.toNat - 1) (by omega)
      rw [List.getElem?_eq_getElem (by omega)] at last
      have there := (List.getElem?_eq_some_iff.mp last.symm).1
      omega
    exact cached files enabled e isLive bytes held reaches i below

end Reader

/-! ### Contents -/

section Run

variable {params : Params} {cs : ChunkStore} {objects : Objects} {idx : Index}
  {order : List (Ino × List Extent)}

/-- The chunks a listing at the start returns. -/
def ListedAt (objects : Objects) (cs : ChunkStore) (id : Key) : Prop :=
  id ≠ cs.activeID ∧ ∃ object, objects.get id = some object

/-- The packing has the bytes of the live extents of its targets. -/
def Carries (params : Params) (objects : Objects) (cs : ChunkStore) (live : List Extent)
    (targets : List Key) (packing : Packing) : Prop :=
  Packed (IsData objects) params (moved live targets) packing ∧
    ∀ id ∈ targets, ListedAt objects cs id

theorem sameBytes_old (lists : ListsExtents idx order)
    (ready : Compactable params objects (Index.liveExtents order)) {objects' : Objects}
    {gone : List Key} (kept : KeptExcept objects objects' gone) {ino : Ino} {exts : List Extent}
    (stored : idx.extents.get ino = some exts) {e : Extent} (member : e ∈ exts)
    (outside : e.chunkID ∉ gone) : SameBytes objects objects' e e := by
  have inside := ready.inside e ((mem_liveExtents lists).mpr ⟨ino, exts, stored, member⟩)
  obtain ⟨-, -, object, found, -⟩ := id inside
  exact .of_object inside ((kept _ object found outside).trans (Option.mem_def.mp found).symm)

theorem sameBytes_new (lists : ListsExtents idx order)
    (ready : Compactable params objects (Index.liveExtents order)) {targets : List Key}
    {packing : Packing}
    (packed : Packed (IsData objects) params (moved (Index.liveExtents order) targets) packing)
    {objects' : Objects} (stored : OutputsStored objects' packing)
    (kept : KeptExcept objects objects' targets) {ino : Ino} {exts : List Extent}
    (listed : idx.extents.get ino = some exts) {e : Extent} (member : e ∈ exts) :
    SameBytes objects objects' e ((packing.remap.get (e.chunkID, e.chunkOffset)).getD e) := by
  have isLive := (mem_liveExtents lists).mpr ⟨ino, exts, listed, member⟩
  cases found : packing.remap.get (e.chunkID, e.chunkOffset) with
  | some e' =>
      -- The entry was made for an extent at the same position, which is `e`.
      obtain ⟨origin, inMoved, key, placed⟩ := packed.origin _ e' found
      obtain ⟨sameID, sameOffset⟩ := Prod.mk.inj key
      cases ready.distinct e isLive origin (mem_moved.mp inMoved).1 sameID sameOffset
      exact .of_placed (ready.inside e isLive) (ready.positive e isLive) placed stored
  | none =>
      refine sameBytes_old lists ready kept listed member fun inTargets => ?_
      obtain ⟨e', there⟩ := packed.covers e (mem_moved.mpr ⟨isLive, inTargets⟩)
      rw [found] at there
      cases there

/-- A table by which every extent reads the same, over an index that names what it
sends them to. -/
theorem preserved_of_map {idx' : Index} {objects' : Objects} {f : Extent → Extent}
    (inodes : idx'.inodes = idx.inodes)
    (extents : ∀ ino, idx'.extents.get ino = (idx.extents.get ino).map fun exts => exts.map f)
    (same : ∀ ino exts, idx.extents.get ino = some exts → ∀ e ∈ exts,
      SameBytes objects objects' e (f e)) :
    (∀ ino, idx'.fileContent objects' ino = idx.fileContent objects ino) ∧
      ∀ ino exts, idx'.extents.get ino = some exts → ∀ e ∈ exts, InObject objects' e := by
  refine ⟨fileContent_map inodes extents same, fun ino exts stored e member => ?_⟩
  rw [extents] at stored
  obtain ⟨before, listed, rfl⟩ := Option.map_eq_some_iff.mp stored
  obtain ⟨origin, inList, rfl⟩ := List.mem_map.mp member
  exact (same ino before listed origin inList).after

/-- Whatever a run leaves, the index gives every file its content over the store,
and every extent lies in an object that is there. -/
theorem Leaves.preserved (lists : ListsExtents idx order)
    (ready : Compactable params objects (Index.liveExtents order)) {idx' : Index}
    {objects' : Objects}
    (leaves : Leaves (Carries params objects cs (Index.liveExtents order)) objects idx idx'
      objects') :
    (∀ ino, idx'.fileContent objects' ino = idx.fileContent objects ino) ∧
      ∀ ino exts, idx'.extents.get ino = some exts → ∀ e ∈ exts, InObject objects' e := by
  obtain ⟨targets, packing, ⟨packed, -⟩, -, ⟨rfl, kept⟩ | ⟨rfl, kept, stored⟩⟩ := leaves
  · exact preserved_of_map (f := id) rfl (fun ino => by simp)
      fun _ _ listed _ member => sameBytes_old lists ready kept listed member List.not_mem_nil
  · exact preserved_of_map rfl (fun ino => GoMap.get_map _ _ _)
      fun _ _ listed _ member => sameBytes_new lists ready packed stored kept listed member

/-! ### Every step -/

/-- The chunk store of a run: the cache may have grown, and is true. -/
def ReadsTrue (cs : ChunkStore) (objects : Objects) (live : List Extent) (cs' : ChunkStore) :
    Prop :=
  ReadsOnly cs cs' ∧ CacheTrue objects live cs'

/-- `Compact` is at a point of a run, and the store is as that point implies. -/
structure AtPoint (cs : ChunkStore) (objects : Objects) (idx : Index) (live : List Extent)
    (params : Params) (run : Run) (s : Objects × Index) : Prop where
  isParams : run.params = params
  tracked : run.Tracked (ListedAt objects cs) (IsData objects) idx live
  stores : run.Stores (ReadsTrue cs objects live) objects idx s

section AtPoint

variable {live : List Extent} {run : Run} {s s' : Objects × Index} {o : Oracle} {a : Answer}

theorem AtPoint.holds (here : AtPoint cs objects idx live params run s) :
    run.Holds (Carries params objects cs live) :=
  here.isParams ▸ here.tracked.holds

/-- A listing returns sealed chunks. -/
theorem AtPoint.listed {ids : List Key} (here : AtPoint cs objects idx live params run s)
    (stage : run.stage = .listing)
    (applied : apply mapStore durably s run.effect o = some (s', .listed (some ids))) :
    ∀ x ∈ ids, ListedAt objects cs x := by
  have stores := here.stores
  simp only [Run.Stores, stage] at stores
  obtain ⟨rfl, ⟨cache, isReader⟩, -⟩ := stores
  simp only [Run.effect, stage, apply, isReader] at applied
  split_ifs at applied with silent listed <;> cases applied
  intro x member
  have sealed : x ∈ cs.listSealed mapStore objects := listed ▸ List.mem_toFinset.mpr member
  rw [ChunkStore.listSealed, Finset.mem_erase, mem_mapStore_list] at sealed
  exact ⟨sealed.1, sealed.2.2⟩

/-- A read returns the bytes of the extent. -/
theorem AtPoint.isData (ready : Compactable params objects live) {targets : List Key}
    {packing : Packing} {e : Extent} {pending : List Extent} {cs' : ChunkStore} {data : Bytes}
    (here : AtPoint cs objects idx live params run s)
    (stage : run.stage = .reading targets packing e pending)
    (applied : apply mapStore durably s run.effect o = some (s', .bytes cs' (.ok data))) :
    IsData objects e data := by
  have known := here.tracked.2
  have stores := here.stores
  simp only [Run.Stores, stage] at known stores
  obtain ⟨rfl, ⟨cache, isReader⟩, cached⟩ := stores
  obtain ⟨-, listed, done, split, -⟩ := known
  have member : e ∈ moved live targets := split ▸ List.mem_append_right _ List.mem_cons_self
  obtain ⟨isLive, inTargets⟩ := mem_moved.mp member
  have inactive : e.chunkID ≠ run.cs.activeID := by
    rw [isReader]
    exact (listed _ inTargets).1
  simp only [Run.effect, stage] at applied
  exact isData_of_read cached isLive (ready.positive e isLive) (ready.inside e isLive).1
    (ready.typed e isLive) inactive (congrArg Prod.snd (read_of_apply applied))

theorem AtPoint.step (ready : Compactable params objects live)
    (here : AtPoint cs objects idx live params run s)
    (applied : apply mapStore durably s run.effect o = some (s', a)) {run' : Run}
    (continues : run.resume a = .inl run') : AtPoint cs objects idx live params run' s' where
  isParams := (Run.params_of_resume continues).trans here.isParams
  tracked := by
    refine here.tracked.resume ?_ ?_ continues
    · rintro stage ids rfl
      exact here.listed stage applied
    · rintro targets packing e pending stage cs' data rfl
      exact here.isData ready stage applied
  stores := by
    refine here.stores.step (P := Carries params objects cs live) ?_ ?_ here.holds applied continues
    · exact fun targets packing carries =>
        carries.1.seated ready.fresh fun id member => (carries.2 id member).2
    · exact fun cs' disk id offset length reader =>
        ⟨reader.1.read objects disk id offset length, reader.2.read disk id offset length⟩

end AtPoint

/-- Compaction keeps every content: at every point of a run, whatever fails, the
durable index over the store gives each file what it held at the start, and so
does the index in memory when `Compact` returns nil, with every extent in an
object that is still there. -/
theorem compaction_preserves_contents (lists : ListsExtents idx order)
    (ready : Compactable params objects (Index.liveExtents order))
    (cached : CacheTrue objects (Index.liveExtents order) cs) {s : Objects × Index}
    {point : Run ⊕ Reply}
    (progress : Progress (compactSys mapStore durably) (objects, idx)
      (Run.begin params idx cs order) s point) :
    (∀ ino, s.2.fileContent s.1 ino = idx.fileContent objects ino) ∧
      ∀ reply, point = .inr reply → reply.ok = true →
        (∀ ino, reply.idx.fileContent s.1 ino = idx.fileContent objects ino) ∧
          ∀ ino exts, reply.idx.extents.get ino = some exts → ∀ e ∈ exts, InObject s.1 e := by
  have begins : Carries params objects cs (Index.liveExtents order) [] (.begin params) :=
    ⟨.begin _ _, fun id member => by cases member⟩
  have seated : ∀ targets packing, Carries params objects cs (Index.liveExtents order) targets
      packing → Seated objects targets packing := fun targets packing carries =>
    carries.1.seated ready.fresh fun id member => (carries.2 id member).2
  have invariant := Progress.invariant (fun s point =>
    (∀ run, point = .inl run → AtPoint cs objects idx (Index.liveExtents order) params run s) ∧
      Leaves (Carries params objects cs (Index.liveExtents order)) objects idx (indexAt point) s.1 ∧
      Leaves (Carries params objects cs (Index.liveExtents order)) objects idx s.2 s.1)
    ?_ ?_ progress
  · obtain ⟨-, memory, durable⟩ := invariant
    refine ⟨(durable.preserved lists ready).1, ?_⟩
    rintro reply rfl -
    exact memory.preserved lists ready
  · refine ⟨?_, .untouched begins, .untouched begins⟩
    rintro run ⟨⟩
    exact ⟨rfl, ⟨rfl, rfl⟩, rfl, ⟨cs.cache, rfl⟩, cached⟩
  · rintro s run o s' a ⟨atPoint, -, -⟩ applied
    have here := atPoint run rfl
    have next : ∀ run', run.resume a = .inl run' →
        AtPoint cs objects idx (Index.liveExtents order) params run' s' :=
      fun run' continues => here.step ready applied continues
    obtain ⟨memory, durable⟩ := here.stores.leaves_of_resume begins seated here.holds here.tracked
      applied fun run' continues =>
        ⟨(next run' continues).stores, (next run' continues).holds, (next run' continues).tracked⟩
    exact ⟨next, memory, durable rfl⟩

end Run

/-- A chunk of eight bytes, of which a file has the last two. -/
def tailObjects : Objects := GoMap.set ∅ (chunkID 0) [1, 2, 3, 4, 5, 6, 7, 8]

/-- That file's extent. -/
def tailExtent : Extent := ⟨chunkID 0, 6, 2, 0⟩

/-- The index that names it. -/
def tailIndex : Index :=
  match ((Index.new 4096 0).createInode .regular 0o644 0 0 0 1).2.writeExtent 2 tailExtent 2 with
  | .ok idx => idx
  | .error _ => Index.new 4096 0

/-- The chunk store of the compaction process. -/
def tailStore : ChunkStore := (ChunkStore.new 8).recoverNextSeq [chunkID 0]

theorem tail_compactable : Compactable halfOrphaned tailObjects [tailExtent] where
  positive := by decide
  inside := by decide +kernel
  typed := by decide
  distinct := by decide
  fresh := fun k => GoMap.get_set_ne _ _ (compactedID_ne_chunkID _ _ _)

/-- The two bytes are moved, their chunk is deleted, and the file still holds
them. -/
theorem compaction_preserves_contents_tail :
    ∃ s reply, Progress (compactSys mapStore durably) (tailObjects, tailIndex)
        (Run.begin halfOrphaned tailIndex tailStore [(2, [tailExtent])]) s (.inr reply) ∧
      reply.ok = true ∧ s.1.get (chunkID 0) = none ∧
      s.2.fileContent s.1 2 = some [7, 8] ∧ reply.idx.fileContent s.1 2 = some [7, 8] := by
  have ends : ((compactSys mapStore durably).advance (tailObjects, tailIndex)
      (Run.begin halfOrphaned tailIndex tailStore [(2, [tailExtent])])
      [{ ids := [chunkID 0] }, {}, {}, {}, {}, {}]).map (fun result =>
        (result.2.elim (fun _ => false) Reply.ok, result.1.1.get (chunkID 0))) =
      some (true, none) := by decide +kernel
  obtain ⟨⟨s, point⟩, advanced, same⟩ := Option.map_eq_some_iff.mp ends
  have progress := Progress.of_advance .start advanced
  obtain ⟨ok, deleted⟩ := Prod.mk.inj same
  cases point with
  | inl run => cases ok
  | inr reply =>
      have lists : ListsExtents tailIndex [(2, [tailExtent])] := by decide +kernel
      have content : tailIndex.fileContent tailObjects 2 = some [7, 8] := by decide +kernel
      have uncached : CacheTrue tailObjects [tailExtent] tailStore :=
        fun files enabled => by cases enabled
      obtain ⟨durable, memory⟩ :=
        compaction_preserves_contents lists tail_compactable uncached progress
      exact ⟨s, reply, progress, ok, deleted, (durable 2).trans content,
        ((memory reply rfl ok).1 2).trans content⟩

/-- A chunk store over a cache directory that still has a file of an earlier chunk
with the same name. -/
def staleStore : ChunkStore :=
  tailStore.setCacheDir (GoMap.set ∅ (chunkID 0) [9, 9, 9, 9, 9, 9, 9, 9])

/-- `Compact` takes the two bytes from that file and deletes the chunk they were
in. -/
theorem stale_cache_replaces_content :
    ListsExtents tailIndex [(2, [tailExtent])] ∧
      Compactable halfOrphaned tailObjects [tailExtent] ∧
      tailIndex.fileContent tailObjects 2 = some [7, 8] ∧
      ∃ s reply, Progress (compactSys mapStore durably) (tailObjects, tailIndex)
          (Run.begin halfOrphaned tailIndex staleStore [(2, [tailExtent])]) s (.inr reply) ∧
        reply.ok = true ∧ s.1.get (chunkID 0) = none ∧
        s.2.fileContent s.1 2 = some [9, 9] ∧ reply.idx.fileContent s.1 2 = some [9, 9] := by
  refine ⟨by decide +kernel, tail_compactable, by decide +kernel, ?_⟩
  have ends : ((compactSys mapStore durably).advance (tailObjects, tailIndex)
      (Run.begin halfOrphaned tailIndex staleStore [(2, [tailExtent])])
      [{ ids := [chunkID 0] }, {}, {}, {}, {}, {}]).map (fun result =>
        (result.2.elim (fun _ => none) (fun reply =>
          if reply.ok then reply.idx.fileContent result.1.1 2 else none),
        result.1.1.get (chunkID 0), result.1.2.fileContent result.1.1 2)) =
      some (some [9, 9], none, some [9, 9]) := by decide +kernel
  obtain ⟨⟨s, point⟩, advanced, same⟩ := Option.map_eq_some_iff.mp ends
  obtain ⟨memory, rest⟩ := Prod.mk.inj same
  obtain ⟨deleted, durable⟩ := Prod.mk.inj rest
  cases point with
  | inl run => cases memory
  | inr reply =>
      simp only [Sum.elim_inr, Option.ite_none_right_eq_some] at memory
      exact ⟨s, reply, .of_advance .start advanced, memory.1, deleted, durable, memory.2⟩

end Compaction

end Fusey
