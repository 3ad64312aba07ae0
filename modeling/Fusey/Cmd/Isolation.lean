import Fusey.Cmd.Main
import Fusey.Compaction.Encoding

/-!
Contract: two instances in one bucket (`internal/chunks/s3.go`).

Owns the pairs of prefixes for which what one instance lists, recovers and
compacts leaves the other's objects alone: keys are built by concatenation, so a
listing under a prefix returns every key that starts with it.
-/

set_option autoImplicit false

namespace Fusey

open Interleaving Compaction

/-- The keys of the objects of the instance with prefix `q`. -/
inductive OwnKey (q : Key) : Key → Prop where
  | index : OwnKey q (q ++ indexKey)
  | chunk (seq : Nat) : OwnKey q (q ++ chunkID seq)
  | compacted (nano seq : Nat) : OwnKey q (q ++ compactedID nano seq)

/-- A bucket and a local snapshot. -/
abbrev Site := Objects × Option Bytes

section Instance

variable (codec : CborCodec) (fetch : Bytes → Int → Int → Option Bytes) (spare : Bytes → Bytes)
  (p : Key)

/-- The compaction runs of the instance with prefix `p`. -/
abbrev s3Sys : Sys Site Compaction.Effect Compaction.Answer Compaction.Oracle Run
    Compaction.Reply :=
  compactSys (s3Store p fetch spare) (compactPersist codec (s3Store p fetch spare))

/-- One operation of the instance with prefix `p`: `List` and `RecoverNextSeq`,
which only look, and a run of `fusey compact` up to any of its points. -/
inductive InstanceStep : Site → Site → Prop where
  | look (s : Site) : InstanceStep s s
  | compact {s s' : Site} {params : Params} {chunkSize blockSize : Int} {ids : List Key}
      {files : Objects} {o : LoadOracle} {idx : Index} {snapshot : Option Bytes}
      {order : List (Ino × List Extent)} {point : Run ⊕ Compaction.Reply}
      (recovered : ids.toFinset = (s3Store p fetch spare).list s.1)
      (loaded : loadIndex codec blockSize (s3Store p fetch spare) o s.1 s.2 = some (idx, snapshot))
      (lists : ListsExtents idx order)
      (progress : Progress (s3Sys codec fetch spare p) (s.1, snapshot)
        (Run.begin params idx (buildChunkStore chunkSize ids files) order) s' point) :
      InstanceStep s s'

/-- Any sequence of operations. -/
abbrev InstanceRun := Relation.ReflTransGen (InstanceStep codec fetch spare p)

/-! ### What an instance touches -/

variable {codec fetch spare p}

/-- A step of a compaction run changes keys with the instance's prefix only. -/
theorem apply_outside {s s' : Site} {e : Compaction.Effect} {o : Compaction.Oracle}
    {a : Compaction.Answer}
    (applied : apply (s3Store p fetch spare) (compactPersist codec (s3Store p fetch spare)) s e o =
      some (s', a))
    {key : Key} (outside : ¬ p <+: key) : s'.1.get key = s.1.get key := by
  have different : ∀ id, key ≠ p ++ id := by
    rintro id rfl
    exact outside (List.prefix_append _ _)
  cases e with
  | list cs =>
      simp only [apply] at applied
      split_ifs at applied <;> cases applied <;> rfl
  | size cs id =>
      cases applied
      rfl
  | read cs id offset length =>
      simp only [apply] at applied
      split_ifs at applied <;> cases applied <;> rfl
  | put id data =>
      simp only [apply, Store.tryPut] at applied
      cases outcome : o.outcome <;> rw [outcome] at applied <;> cases applied
      · exact GoMap.get_set_ne _ _ (different id)
      · rfl
      · exact GoMap.get_set_ne _ _ (different id)
  | persist idx =>
      cases applied
      rcases compactPersist_cases codec (s3Store p fetch spare) idx o s with
        same | ⟨data, -, -, same | ⟨ok, same⟩⟩
      · rw [same]
      · rw [same]
      · rw [same]
        exact GoMap.get_set_ne _ _ (different indexKey)
  | delete id =>
      simp only [apply, Store.tryDelete] at applied
      cases outcome : o.outcome <;> rw [outcome] at applied <;> cases applied
      · exact GoMap.get_delete_ne _ (different id)
      · rfl
      · exact GoMap.get_delete_ne _ (different id)

theorem InstanceStep.outside {s s' : Site} (step : InstanceStep codec fetch spare p s s')
    {key : Key} (outside : ¬ p <+: key) : s'.1.get key = s.1.get key := by
  cases step with
  | look => rfl
  | compact recovered loaded lists progress =>
      refine Progress.invariant (fun after _ => after.1.get key = s.1.get key) rfl ?_ progress
      intro before run o after a same applied
      rw [← same]
      exact apply_outside applied outside

theorem InstanceRun.outside {s s' : Site} (run : InstanceRun codec fetch spare p s s') {key : Key}
    (outside : ¬ p <+: key) : s'.1.get key = s.1.get key := by
  induction run with
  | refl => rfl
  | tail _ step inductionHypothesis => exact (step.outside outside).trans inductionHypothesis

end Instance

/-! ### Destroying an object -/

/-- A chunk store that has recovered from one listed ID does not take it. -/
theorem buildChunkStore_activeID_ne (chunkSize : Int) (id : Key) (files : Objects) :
    (buildChunkStore chunkSize [id] files).activeID ≠ id := by
  change ((ChunkStore.new chunkSize).recoverNextSeq [id]).activeID ≠ id
  unfold ChunkStore.recoverNextSeq
  split_ifs with none_found
  · intro same
    have zero : id = chunkID 0 := same.symm
    have read := ChunkStore.le_maxSeq (List.mem_singleton_self id)
      (zero ▸ scanChunkID_chunkID (by decide : 0 < 100000000))
    exact absurd none_found (by simpa using read)
  · intro same
    generalize highest : ChunkStore.maxSeq [id] = seq at none_found same
    obtain ⟨n, isNext⟩ := Int.eq_ofNat_of_zero_le (Int.not_lt.mp none_found)
    have name : id = chunkID (n + 1) := by
      rw [← same, isNext]
      rfl
    have below : n < 100000000 := by
      have bound := ChunkStore.maxSeq_lt [id]
      omega
    by_cases fits : n + 1 < 100000000
    · have read := ChunkStore.le_maxSeq (List.mem_singleton_self id)
        (name ▸ scanChunkID_chunkID fits)
      rw [highest] at read
      push_cast at read
      omega
    · -- Eight digits of the nine-digit number 100000000 are scanned.
      obtain rfl : n = 99999999 := by omega
      rw [name, isNext] at highest
      exact absurd highest (by decide +kernel)

theorem encodes_empty (codec : CborCodec) (blockSize now : Int) :
    ∃ data, encodeSnapshot codec ((Index.new blockSize now).snapshot []) = some data := by
  have none_named : ∀ ino exts,
      ((Index.new blockSize now).snapshot []).extentMap.get ino = some exts → ∀ e ∈ exts,
        ∃ seq < 4294967296, e.chunkID = chunkID seq := fun ino exts stored => by cases stored
  obtain ⟨ws, -, encoded⟩ := encodeSnapshot_isSome codec none_named
  exact ⟨_, encoded⟩

/-- A bucket with one empty object, and no local snapshot. -/
def emptyObject (p id : Key) : Site := (GoMap.set ∅ (p ++ id) [], none)

/-- A compaction run of an instance that has no index. -/
def emptyRun (id : Key) (idx : Index) (stage : Stage) : Run :=
  ⟨halfOrphaned, idx, buildChunkStore 8 [id] ∅, [], stage⟩

/-- The run on such a bucket deletes the object. -/
theorem compact_deletes_empty (codec : CborCodec) (fetch : Bytes → Int → Int → Option Bytes)
    (spare : Bytes → Bytes) {p id : Key}
    (listing : (s3Store p fetch spare).list (emptyObject p id).1 = {id}) :
    ∃ s' point, Progress (s3Sys codec fetch spare p) (emptyObject p id)
        (Run.begin halfOrphaned (Index.new 4096 0) (buildChunkStore 8 [id] ∅) []) s' point ∧
      s'.1.get (p ++ id) = none := by
  have inactive := buildChunkStore_activeID_ne 8 id ∅
  obtain ⟨data, encoded⟩ := encodes_empty codec 4096 0
  have sealed : [id].toFinset = (buildChunkStore 8 [id] ∅).listSealed (s3Store p fetch spare)
      (emptyObject p id).1 := by
    rw [ChunkStore.listSealed, listing, Finset.erase_eq_of_notMem]
    · rfl
    · rw [Finset.mem_singleton]
      exact inactive
  have empty : (buildChunkStore 8 [id] ∅).sealedSize (s3Store p fetch spare) (emptyObject p id).1
      id = some 0 := by
    rw [ChunkStore.sealedSize, if_neg inactive.symm]
    simp [s3Store, emptyObject, GoMap.get_set_self]
  have persisted : compactPersist codec (s3Store p fetch spare)
      ((Index.new 4096 0).remapExtents ∅) {}
      (emptyObject p id) = (((emptyObject p id).1.set (p ++ indexKey) data, some data), true) := by
    have lists : ((Index.new 4096 0).remapExtents ∅).Lists [] := by decide +kernel
    have same : ((Index.new 4096 0).remapExtents ∅).snapshot [] = (Index.new 4096 0).snapshot [] :=
      snapshot_remapExtents (fun _ => rfl) []
    simp only [compactPersist, if_pos lists, same, encoded]
    rfl
  have listed : Progress (s3Sys codec fetch spare p) (emptyObject p id) (Run.begin halfOrphaned
      (Index.new 4096 0) (buildChunkStore 8 [id] ∅) []) (emptyObject p id)
      (.inl (emptyRun id (Index.new 4096 0) (.sizing [] id []))) :=
    .step (o := ({ ids := [id] } : Compaction.Oracle)) (a := Compaction.Answer.listed (some [id]))
      .start (if_pos sealed)
  have sized : Progress (s3Sys codec fetch spare p) (emptyObject p id) (Run.begin halfOrphaned
      (Index.new 4096 0) (buildChunkStore 8 [id] ∅) []) (emptyObject p id)
      (.inl (emptyRun id ((Index.new 4096 0).remapExtents ∅)
        (.persisting [id] (.begin halfOrphaned)))) :=
    .step (o := ({} : Compaction.Oracle)) (a := Compaction.Answer.sized (some 0)) listed
      (congrArg (fun size => some (emptyObject p id, Compaction.Answer.sized size)) empty)
  have stored := sized.step (o := ({} : Compaction.Oracle)) (congrArg
    (fun result : Site × Bool => some (result.1, Compaction.Answer.ended result.2)) persisted)
  have deleted := stored.step (o := ({} : Compaction.Oracle)) (t := emptyRun id
    ((Index.new 4096 0).remapExtents ∅) (.deleting [id] (.begin halfOrphaned) id [])) rfl
  exact ⟨_, _, deleted, GoMap.get_delete_self _ _⟩

/-- An instance without an index destroys an empty object whose key starts with
its prefix. -/
theorem destroys (codec : CborCodec) (fetch : Bytes → Int → Int → Option Bytes)
    (spare : Bytes → Bytes) {p id : Key} (notIndex : id ≠ indexKey) :
    ∃ s', InstanceRun codec fetch spare p (emptyObject p id) s' ∧ s'.1.get (p ++ id) = none := by
  have listing : (s3Store p fetch spare).list (emptyObject p id).1 = {id} := by
    ext x
    rw [mem_s3Store_list, Finset.mem_singleton]
    constructor
    · rintro ⟨-, object, found⟩
      by_contra different
      have apart : p ++ x ≠ p ++ id := fun same => different (List.append_cancel_left same)
      rw [emptyObject, GoMap.get_set_ne _ _ apart] at found
      cases found
    · rintro rfl
      exact ⟨notIndex, [], GoMap.get_set_self _ _ _⟩
  have absent : (emptyObject p id).1.get (p ++ indexKey) = none :=
    GoMap.get_set_ne _ _ fun same => notIndex (List.append_cancel_left same).symm
  have loaded : loadIndex codec 4096 (s3Store p fetch spare) {} (emptyObject p id).1 none =
      some (Index.new 4096 0, none) := by
    unfold loadIndex
    simp only [s3Store, absent]
    rfl
  obtain ⟨s', point, progress, gone⟩ := compact_deletes_empty codec fetch spare listing
  refine ⟨s', .single (.compact ?_ loaded rfl progress), gone⟩
  rw [listing]
  rfl

/-- The numbered keys do not end as an index key does. -/
theorem OwnKey.of_index {p q : Key} (own : OwnKey q (p ++ indexKey)) : p = q := by
  have ends : ∀ front digits : Key, digits ≠ [] → (∀ c ∈ digits, c.isDigit = true) →
      p ++ indexKey ≠ front ++ digits := by
    intro front digits nonempty all same
    have left : (p ++ indexKey).getLast? = some 'r' :=
      (List.getLast?_append_of_ne_nil p (by decide)).trans (by decide)
    have right : (front ++ digits).getLast? = digits.getLast? :=
      List.getLast?_append_of_ne_nil front nonempty
    have last : digits.getLast? = some 'r' := right.symm.trans (same ▸ left)
    exact absurd (all 'r' (List.mem_of_getLast? last)) (by decide)
  generalize isKey : p ++ indexKey = key at own
  cases own with
  | index => exact List.append_cancel_right isKey
  | chunk seq =>
      exact (ends _ _ (GoFmt.padded_ne_nil 8 seq) (fun _ => GoFmt.isDigit_of_mem_padded)
        (isKey.trans (List.append_assoc _ _ _).symm)).elim
  | compacted nano seq =>
      obtain ⟨front, name⟩ := compactedID_eq nano seq
      exact (ends _ _ (GoFmt.decimal_ne_nil seq) (fun _ => GoFmt.isDigit_of_mem_decimal)
        (isKey.trans (name ▸ (List.append_assoc _ _ _).symm))).elim

/-! ### Isolation -/

/-- No run of the instance with prefix `p` deletes or overwrites an object of
the instance with prefix `q`, and no run of the latter touches the index of the
former. -/
def Isolated (codec : CborCodec) (p q : Key) : Prop :=
  ∀ fetch spare s s',
    (InstanceRun codec fetch spare p s s' → ∀ key object, OwnKey q key → s.1.get key = some object →
      s'.1.get key = some object) ∧
    (InstanceRun codec fetch spare q s s' → ∀ object, s.1.get (p ++ indexKey) = some object →
      s'.1.get (p ++ indexKey) = some object)

/-- Instances are isolated exactly when the prefix of the first starts no key of
the second, and the prefix of the second does not start the first's index key. -/
theorem isolated_iff (codec : CborCodec) (p q : Key) :
    Isolated codec p q ↔ (∀ key, OwnKey q key → ¬ p <+: key) ∧ ¬ q <+: p ++ indexKey := by
  constructor
  · intro isolated
    have safe : ∀ key, OwnKey q key → ∀ id, key = p ++ id → id = indexKey := by
      rintro key own id rfl
      by_contra notIndex
      obtain ⟨s', run, gone⟩ := destroys codec (fun _ _ _ => none) (fun _ => []) notIndex
      have kept := (isolated _ _ _ _).1 run _ [] own (GoMap.get_set_self _ _ _)
      rw [gone] at kept
      cases kept
    have apart : ∀ key, OwnKey q key → ¬ p <+: key := by
      rintro key own ⟨id, rfl⟩
      cases safe _ own id rfl
      cases own.of_index
      exact chunkID_ne_indexKey 0 (safe _ (.chunk 0) _ rfl)
    refine ⟨apart, ?_⟩
    rintro ⟨id, same⟩
    by_cases isIndex : id = indexKey
    · subst isIndex
      rw [← List.append_cancel_right same] at apart
      exact apart _ .index (List.prefix_append _ _)
    · obtain ⟨s', run, gone⟩ := destroys codec (fun _ _ _ => none) (fun _ => []) isIndex
      rw [same] at gone
      have kept := (isolated _ _ _ _).2 run [] (same ▸ GoMap.get_set_self _ _ _)
      rw [gone] at kept
      cases kept
  · rintro ⟨apart, indexApart⟩ fetch spare s s'
    refine ⟨fun run key object own stored => ?_, fun run object stored => ?_⟩
    · rw [InstanceRun.outside run (apart key own), stored]
    · rw [InstanceRun.outside run indexApart, stored]

/-- A bucket that holds the index of the instance with prefix `"b/"`. -/
def sharedBucket : Site := (GoMap.set ∅ ("b/".toList ++ indexKey) [1], none)

/-- The instance with the empty prefix, which has no index yet, takes that
object for an orphaned chunk and deletes it. -/
theorem nested_instance_destroyed :
    OwnKey "b/".toList ("b/".toList ++ indexKey) ∧
      sharedBucket.1.get ("b/".toList ++ indexKey) = some [1] ∧
      ∃ s', InstanceRun (CborCodec.unary []) (fun _ _ _ => none) (fun _ => []) [] sharedBucket s' ∧
        s'.1.get ("b/".toList ++ indexKey) = none := by
  refine ⟨.index, by decide +kernel, ?_⟩
  have ends : ((s3Sys (CborCodec.unary []) (fun _ _ _ => none) (fun _ => []) []).advance
      sharedBucket (Run.begin halfOrphaned (Index.new 4096 0)
        (buildChunkStore 8 ["b/".toList ++ indexKey] ∅) [])
      [{ ids := ["b/".toList ++ indexKey] }, {}, {}, {}]).map
        (fun result => result.1.1.get ("b/".toList ++ indexKey)) = some none := by decide +kernel
  obtain ⟨⟨s', point⟩, advanced, gone⟩ := Option.map_eq_some_iff.mp ends
  have loaded : loadIndex (CborCodec.unary []) 4096 (s3Store [] (fun _ _ _ => none) fun _ => [])
    {} sharedBucket.1
      none = some (Index.new 4096 0, none) := by
    unfold loadIndex
    have absent : (s3Store [] (fun _ _ _ => none) fun _ => []).getRaw sharedBucket.1
        (s3Store [] (fun _ _ _ => none) fun _ => []).indexKey = none := by decide +kernel
    rw [absent]
    rfl
  exact ⟨s', .single (.compact (by decide +kernel) loaded rfl (.of_advance .start advanced)), gone⟩

end Fusey
