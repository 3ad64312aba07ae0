import Fusey.Cmd.Mounting
import Fusey.Cmd.SharedStore
import Fusey.Fuse.Provenance

/-!
Contract: what a chunk ID is bound to over the whole life of a store, through
mount sessions and compaction runs that do not overlap.

Owns:
- the lives of a store, with every state its objects have been in;
- that all objects an ID ever names are prefixes of one content, if every mount
  starts past the numbers of all chunks that were ever stored;
- a life in which the newest chunk is collected and its ID given out again.
-/

set_option autoImplicit false

namespace Fusey

open Interleaving ChunkStore

/-! ### Lives of a store -/

/-- Every state of the objects, in order. -/
abbrev Moments := List Objects

def noteObjects (moments : Moments) (_ : Call × Unit) (answer : Answer × Daemon) : Moments :=
  moments ++ [answer.2.objects]

def noteStore (moments : Moments) (_ : CompactProcess × Unit)
    (answer : CompactProcess.Answer × (Objects × Option Bytes)) : Moments :=
  moments ++ [answer.2.1]

/-- Any call starts at any time. -/
def anyCall (_ : Pool Daemon (Call × Unit) Moments) : Event (Call × Unit) Oracle → Prop
  | .spawn t => t.1.IsSessionCall
  | .run _ _ => True

instance (pool : Pool Daemon (Call × Unit) Moments) (event : Event (Call × Unit) Oracle) :
    Decidable (anyCall pool event) := by
  induction event using Event.casesOn <;> dsimp only [anyCall] <;> infer_instance

/-- Nothing starts beside the process. -/
def processAlone {R : Type} (_ : Pool (Objects × Option Bytes) (CompactProcess × Unit) R) :
    Event (CompactProcess × Unit) CompactProcess.Oracle → Prop
  | .spawn _ => False
  | .run _ _ => True

instance {R : Type} (pool : Pool (Objects × Option Bytes) (CompactProcess × Unit) R)
    (event : Event (CompactProcess × Unit) CompactProcess.Oracle) :
    Decidable (processAlone pool event) := by
  induction event using Event.casesOn <;> dsimp only [processAlone] <;> infer_instance

/-- The steps of a mounted daemon and of a compaction process. -/
def sessionSys (setup : Setup) := (daemonSys setup.cfg).annotated fun (_ : Unit) _ _ _ => ()

def compactionSys (setup : Setup) :=
  (CompactProcess.sys setup.cfg.codec mapStore).annotated fun (_ : Unit) _ _ _ => ()

/-- The lives of a store: sessions and compaction runs follow each other, and
each ends at any point. `mayMount` restricts the listings at which a session
starts. -/
inductive Life (setup : Setup) (mayMount : Moments → List Key → Prop) :
    Moments → Objects → Prop where
  | store (objects : Objects) : Life setup mayMount [objects] objects
  | session {moments : Moments} {objects files : Objects} {snapshot : Option Bytes}
      {o : MountOracle} {d : Daemon} {pool : Pool Daemon (Call × Unit) Moments}
      (before : Life setup mayMount moments objects) (allowed : mayMount moments o.ids)
      (mounted : mount setup o objects files snapshot = some d)
      (ran : Reachable (sessionSys setup) noteObjects (· = ⟨d, [], moments⟩) anyCall pool) :
      Life setup mayMount pool.record pool.shared.objects
  | compaction {moments : Moments} {objects files : Objects} {snapshot : Option Bytes}
      {params : Compaction.Params}
      {pool : Pool (Objects × Option Bytes) (CompactProcess × Unit) Moments}
      (before : Life setup mayMount moments objects)
      (ran : Reachable (compactionSys setup) noteStore
        (· = ⟨(objects, snapshot), [(.recovering params setup.blockSize files, ())], moments⟩)
        processAlone pool) :
      Life setup mayMount pool.record pool.shared.1

/-- A session starts past every chunk number that was ever stored. -/
def PastAll (moments : Moments) (ids : List Key) : Prop :=
  ∀ objects ∈ moments, ChunksBelow (recoveredSeq ids) objects

/-! ### One content for each ID -/

/-- The chunks are prefixes of the given contents. -/
def Within (contents : Nat → Bytes) (objects : Objects) : Prop :=
  ∀ seq object, objects.get (chunkID seq) = some object → object <+: contents seq

theorem Within.mono {contents contents' : Nat → Bytes} {objects : Objects}
    (within : Within contents objects) (grow : ∀ seq, contents seq <+: contents' seq) :
    Within contents' objects :=
  fun seq object stored => (within seq object stored).trans (grow seq)

theorem Within.shrinks {contents : Nat → Bytes} {objects objects' : Objects}
    (within : Within contents objects)
    (smaller : ∀ seq object, objects'.get (chunkID seq) = some object →
      objects.get (chunkID seq) = some object) : Within contents objects' :=
  fun seq object stored => within seq object (smaller seq object stored)

/-- The contents of all chunks so far: those of the active chunk are the buffer,
and those of a chunk that is yet to be minted are empty. -/
structure Binds (contents : Nat → Bytes) (moments : Moments) (objects : Objects) (cs : ChunkStore) :
    Prop where
  past : ∀ moment ∈ moments, Within contents moment
  present : Within contents objects
  active : ∃ seq, cs.nextSeq = seq + 1 ∧ cs.activeID = chunkID seq ∧ contents seq = cs.activeBuf
  unminted : ∀ seq, cs.nextSeq ≤ seq → contents seq = []

theorem Binds.of_move {contents : Nat → Bytes} {moments : Moments}
    {before after : Objects × ChunkStore} {seals : Bool}
    (binds : Binds contents moments before.1 before.2) (move : Move seals before after) :
    ∃ contents', Binds contents' moments after.1 after.2 := by
  obtain ⟨past, present, ⟨seq, next, active, isBuffer⟩, unminted⟩ := binds
  cases move with
  | put objects cs dirty =>
      refine ⟨contents, past, fun other object stored => ?_, ⟨seq, next, active, isBuffer⟩,
        unminted⟩
      simp only at active isBuffer stored
      rw [active, GoMap.get_set] at stored
      split_ifs at stored with isActive
      · cases stored
        rw [chunkID_injective isActive, isBuffer]
      · exact present other object stored
  | rotateEmpty objects cs allowed empty =>
      have isEmpty : contents cs.nextSeq = cs.activeBuf := by rw [empty, unminted _ le_rfl]
      exact ⟨contents, past, present, ⟨cs.nextSeq, rfl, rfl, isEmpty⟩,
        fun other later => unminted other (Nat.le_of_succ_le later)⟩
  | rotateStored objects cs cached stored =>
      exact ⟨contents, past, present, ⟨cs.nextSeq, rfl, rfl, unminted _ le_rfl⟩,
        fun other later => unminted other (Nat.le_of_succ_le later)⟩
  | push objects cs data fileOffset =>
      -- Only the active chunk grows, at its end.
      have grow : ∀ other, contents other <+:
          Function.update contents seq (cs.activeBuf ++ data) other := by
        intro other
        rw [Function.update_apply]
        split_ifs with isActive
        · rw [isActive, isBuffer]
          exact List.prefix_append _ _
        · exact List.prefix_refl _
      refine ⟨_, fun moment member => (past moment member).mono grow, present.mono grow,
        ⟨seq, next, active, Function.update_self ..⟩, fun other later => ?_⟩
      have notActive : other ≠ seq := by
        have : cs.nextSeq ≤ other := later
        have : cs.nextSeq = seq + 1 := next
        omega
      rw [Function.update_of_ne notActive]
      exact unminted other later
  | recache objects cs enabled stored =>
      exact ⟨contents, past, present, ⟨seq, next, active, isBuffer⟩, unminted⟩

theorem Binds.of_moves {contents : Nat → Bytes} {moments : Moments}
    {before after : Objects × ChunkStore} {seals : Bool}
    (binds : Binds contents moments before.1 before.2) (moves : Moves seals before after) :
    ∃ contents', Binds contents' moments after.1 after.2 := by
  induction moves with
  | refl => exact ⟨contents, binds⟩
  | tail _ move inductionHypothesis =>
      obtain ⟨_, middle⟩ := inductionHypothesis
      exact middle.of_move move

/-- What is in the store now is the next moment. -/
theorem Binds.noted {contents : Nat → Bytes} {moments : Moments} {objects : Objects}
    {cs : ChunkStore} (binds : Binds contents moments objects cs) :
    Binds contents (moments ++ [objects]) objects cs := by
  refine ⟨fun moment member => ?_, binds.present, binds.active, binds.unminted⟩
  rcases List.mem_append.mp member with old | new
  · exact binds.past moment old
  · rw [List.mem_singleton.mp new]
    exact binds.present

theorem Binds.of_apply {contents : Nat → Bytes} {moments : Moments} {d d' : Daemon} {e : Effect}
    {o : Oracle} {a : Answer} (binds : Binds contents moments d.objects d.cs)
    (applied : d.apply e o = some (d', a)) :
    ∃ contents', Binds contents' moments d'.objects d'.cs := by
  rcases Daemon.apply_store applied with moves | ⟨data, -, rfl⟩
  · exact binds.of_moves moves
  · refine ⟨contents, binds.past, binds.present.shrinks fun seq object stored => ?_, binds.active,
      binds.unminted⟩
    exact (GoMap.get_set_ne _ _ (chunkID_ne_indexKey seq)).symm.trans stored

/-- A session that starts past all chunks binds its chunks to nothing yet. -/
theorem Binds.of_mount {contents : Nat → Bytes} {moments : Moments} {objects files : Objects}
    {ids : List Key} (past : ∀ moment ∈ moments, Within contents moment)
    (present : objects ∈ moments)
    (pastAll : PastAll moments ids) (chunkSize : Int) :
    Binds (fun seq => if seq < recoveredSeq ids then contents seq else []) moments objects
      (buildChunkStore chunkSize ids files) := by
  have kept : ∀ moment ∈ moments,
      Within (fun seq => if seq < recoveredSeq ids then contents seq else []) moment := by
    intro moment member seq object stored
    dsimp only
    rw [if_pos (pastAll moment member seq object stored)]
    exact past moment member seq object stored
  rw [buildChunkStore_eq]
  refine ⟨kept, kept objects present, ⟨_, rfl, rfl, if_neg (lt_irrefl _)⟩, fun seq later => ?_⟩
  exact if_neg (Nat.not_lt.mpr (Nat.le_of_succ_le later))

/-! ### Whole lives -/

/-- All moments have chunks of the same contents, and the present one is among
them. -/
def Settles (moments : Moments) (objects : Objects) : Prop :=
  objects ∈ moments ∧ ∃ contents, ∀ moment ∈ moments, Within contents moment

theorem Settles.of_session {setup : Setup} {moments : Moments} {objects files : Objects}
    {snapshot : Option Bytes} {o : MountOracle} {d : Daemon}
    {pool : Pool Daemon (Call × Unit) Moments} (settles : Settles moments objects)
    (pastAll : PastAll moments o.ids) (mounted : mount setup o objects files snapshot = some d)
    (ran : Reachable (sessionSys setup) noteObjects (· = ⟨d, [], moments⟩) anyCall pool) :
    Settles pool.record pool.shared.objects := by
  obtain ⟨present, contents, past⟩ := settles
  have runs := Reachable.annotated_invariant
    (fun d moments => d.objects ∈ moments ∧ ∃ contents, Binds contents moments d.objects d.cs)
    (fun _ _ _ _ => True) ?_ (fun _ _ _ _ _ => trivial) ?_ ran
  · obtain ⟨⟨isNoted, contents', binds⟩, -⟩ := runs
    exact ⟨isNoted, contents', binds.past⟩
  · rintro pool rfl
    obtain ⟨-, idx, kept, -, rfl⟩ := mount_cases mounted
    exact ⟨⟨present, _, Binds.of_mount past present pastAll setup.chunkSize⟩, fun _ _ => trivial⟩
  · rintro d moments before c mark after oracle d' a ⟨-, contents', binds⟩ - - applied
    obtain ⟨_, next⟩ := binds.of_apply applied
    exact ⟨⟨List.mem_append_right _ (List.mem_singleton_self _), _, next.noted⟩,
      fun _ _ => trivial, fun _ _ => trivial⟩

theorem Settles.of_compaction {setup : Setup} {moments : Moments} {objects files : Objects}
    {snapshot : Option Bytes} {params : Compaction.Params}
    {pool : Pool (Objects × Option Bytes) (CompactProcess × Unit) Moments}
    (settles : Settles moments objects)
    (ran : Reachable (compactionSys setup) noteStore
      (· = ⟨(objects, snapshot), [(.recovering params setup.blockSize files, ())], moments⟩)
      processAlone pool) :
    Settles pool.record pool.shared.1 := by
  obtain ⟨present, contents, past⟩ := settles
  have runs := Reachable.annotated_invariant
    (fun s moments => s.1 ∈ moments ∧ ∀ moment ∈ moments, Within contents moment)
    (fun _ _ p _ => p.Tracked) ?_ ?_ ?_ ran
  · exact ⟨runs.1.1, contents, runs.1.2⟩
  · rintro pool rfl
    refine ⟨⟨present, past⟩, fun t member => ?_⟩
    rw [List.mem_singleton.mp member]
    trivial
  · exact fun _ _ _ _ starts => starts.elim
  · rintro s moments before p mark after oracle s' a ⟨isNoted, within⟩ each - applied
    have tracked : p.Tracked := each (p, mark) (by simp)
    refine ⟨⟨List.mem_append_right _ (List.mem_singleton_self _), fun moment member => ?_⟩,
      fun p' continues => tracked.resume continues, fun u member => each u ?_⟩
    · rcases List.mem_append.mp member with old | new
      · exact within moment old
      · rw [List.mem_singleton.mp new]
        exact (within s.1 isNoted).shrinks fun seq object stored =>
          CompactProcess.chunks_of_apply tracked applied stored
    · simp only [List.mem_append, List.mem_cons] at member ⊢
      tauto

theorem Settles.of_life {setup : Setup} {moments : Moments} {objects : Objects}
    (life : Life setup PastAll moments objects) : Settles moments objects := by
  induction life with
  | store objects =>
      refine ⟨List.mem_singleton_self _, fun seq => (objects.get (chunkID seq)).getD [], ?_⟩
      intro moment member seq object stored
      rw [List.mem_singleton.mp member] at stored
      dsimp only
      rw [stored]
      exact List.prefix_refl _
  | session _ pastAll mounted ran inductionHypothesis =>
      exact inductionHypothesis.of_session pastAll mounted ran
  | compaction _ ran inductionHypothesis => exact inductionHypothesis.of_compaction ran

/-- Of two objects that one chunk ID names at two moments, one is a prefix of
the other, in every life whose sessions start past all chunks ever stored. -/
theorem chunk_bound_once {setup : Setup} {moments : Moments} {objects : Objects}
    (life : Life setup PastAll moments objects) :
    ∀ moment ∈ moments, ∀ moment' ∈ moments, ∀ seq object object',
      moment.get (chunkID seq) = some object → moment'.get (chunkID seq) = some object' →
      object <+: object' ∨ object' <+: object := by
  obtain ⟨-, contents, within⟩ := Settles.of_life life
  intro moment member moment' member' seq object object' stored stored'
  exact List.prefix_or_prefix_of_prefix (within moment member seq object stored)
    (within moment' member' seq object' stored')

/-! ### Two lives -/

/-- A call of a session that runs to its end. -/
def Call.inSession (c : Call) (steps : List Oracle) : List (Event (Call × Unit) Oracle) :=
  .spawn (c, ()) :: steps.map fun o => .run 0 o

/-- A session on an empty store, a compaction run, and a session that finds
`ids`; with the moments before the last session. -/
def threeActs (setup : Setup) (first : List (Event (Call × Unit) Oracle))
    (process : List CompactProcess.Oracle) (ids : List Key)
    (second : List (Event (Call × Unit) Oracle)) :
    Option (Moments × Pool Daemon (Call × Unit) Moments) :=
  (mount setup {} ∅ ∅ none).bind fun d =>
    ((sessionSys setup).run noteObjects anyCall ⟨d, [], [∅]⟩ first).bind fun used =>
      ((compactionSys setup).run noteStore processAlone
        ⟨(used.shared.objects, none),
          [(.recovering Compaction.halfOrphaned setup.blockSize ∅, ())], used.record⟩
        (processSteps id process)).bind fun collected =>
          (mount setup { ids := ids } collected.shared.1 ∅ none).bind fun d =>
            ((sessionSys setup).run noteObjects anyCall ⟨d, [], collected.record⟩ second).map
              fun pool => (collected.record, pool)

theorem Life.of_threeActs {setup : Setup} {mayMount : Moments → List Key → Prop}
    {first second : List (Event (Call × Unit) Oracle)} {process : List CompactProcess.Oracle}
    {ids : List Key} {moments : Moments} {pool : Pool Daemon (Call × Unit) Moments}
    (played : threeActs setup first process ids second = some (moments, pool))
    (mayStart : mayMount [∅] []) (mayContinue : mayMount moments ids) :
    Life setup mayMount pool.record pool.shared.objects := by
  obtain ⟨d, mounted, rest⟩ := Option.bind_eq_some_iff.mp played
  obtain ⟨used, firstRan, rest⟩ := Option.bind_eq_some_iff.mp rest
  obtain ⟨collected, processRan, rest⟩ := Option.bind_eq_some_iff.mp rest
  obtain ⟨d', remounted, rest⟩ := Option.bind_eq_some_iff.mp rest
  obtain ⟨last, secondRan, same⟩ := Option.map_eq_some_iff.mp rest
  cases same
  have one := Life.session (.store ∅) mayStart mounted (.of_run (.start rfl) firstRan)
  have two := Life.compaction one (.of_run (.start rfl) processRan)
  exact Life.session two mayContinue remounted (.of_run (.start rfl) secondRan)

/-- Two files of eight bytes; the first is deleted and its chunk collected, and
the next session appends to a third chunk. -/
noncomputable def olderCollected : Option (Moments × Pool Daemon (Call × Unit) Moments) :=
  threeActs ⟨deletedConfig, 8, 4096, eight_lt⟩
    ((Call.make .regular 1 [97] 0o644 0 0 1).inSession [{}, {}, {}] ++
      (Call.write 2 [1, 2, 3, 4, 5, 6, 7, 8] 0 2).inSession [{}, {}, {}, {}] ++
      (Call.make .regular 1 [98] 0o644 0 0 3).inSession [{}, {}, {}] ++
      (Call.write 3 [1, 2, 3, 4, 5, 6, 7, 8] 0 4).inSession [{}, {}, {}, {}] ++
      (Call.unlink 1 [97] 5).inSession [{}] ++
      Call.persist.inSession [{}, { order := secondEntry }, {}, {}, {}, {}, {}, {},
        { order := secondEntry }, {}, {}])
    [{ compact := { ids := [chunkID 0, chunkID 1] } }, { extents := secondExtents },
      { compact := { ids := [chunkID 0, chunkID 1] } }, {}, {},
      { compact := { order := secondEntry } }, {}]
    [chunkID 1]
    ((Call.write 3 [9] 8 6).inSession [{}, {}, {}, {}] ++
      Call.sealActive.inSession [{}])

theorem chunk_bound_once_olderCollected :
    ∃ moments objects, Life ⟨deletedConfig, 8, 4096, eight_lt⟩ PastAll moments objects ∧
      (∃ moment ∈ moments, moment.get (chunkID 0) = some [1, 2, 3, 4, 5, 6, 7, 8]) ∧
      objects.get (chunkID 0) = none ∧ objects.get (chunkID 2) = some [9] ∧
      ∀ moment ∈ moments, ∀ moment' ∈ moments, ∀ seq object object',
        moment.get (chunkID seq) = some object → moment'.get (chunkID seq) = some object' →
        object <+: object' ∨ object' <+: object := by
  have plays : olderCollected.map (fun ends =>
      (decide (∀ moment ∈ ends.1, ∀ key ∈ moment.keys,
          key = indexKey ∨ key = chunkID 0 ∨ key = chunkID 1),
        decide (∃ moment ∈ ends.2.record,
          moment.get (chunkID 0) = some [1, 2, 3, 4, 5, 6, 7, 8]),
        ends.2.shared.objects.get (chunkID 0), ends.2.shared.objects.get (chunkID 2))) =
      some (true, true, none, some [9]) := by decide +kernel
  obtain ⟨⟨moments, pool⟩, played, shown⟩ := Option.map_eq_some_iff.mp plays
  obtain ⟨keys, rest⟩ := Prod.mk.inj shown
  obtain ⟨bound, rest⟩ := Prod.mk.inj rest
  obtain ⟨gone, new⟩ := Prod.mk.inj rest
  have second : recoveredSeq [chunkID 1] = 2 := by decide +kernel
  have pastAll : PastAll moments [chunkID 1] := by
    intro objects member seq object stored
    rw [second]
    rcases of_decide_eq_true keys objects member _ (GoMap.mem_keys.mpr ⟨object, stored⟩) with
      isIndex | first | next
    · exact absurd isIndex (chunkID_ne_indexKey seq)
    · rw [chunkID_injective first]
      decide
    · rw [chunkID_injective next]
      decide
  have empty : PastAll [∅] [] := by
    intro objects member seq object stored
    rw [List.mem_singleton.mp member] at stored
    cases stored
  have life := Life.of_threeActs played empty pastAll
  exact ⟨_, _, life, of_decide_eq_true bound, gone, new, chunk_bound_once life⟩

/-- The only file, of three bytes, is deleted and its chunk collected; the next
session numbers its chunks from zero again. -/
noncomputable def newestCollected : Option (Moments × Pool Daemon (Call × Unit) Moments) :=
  threeActs ⟨⟨100, false, .unary [wireAfter []
      ((Call.make .regular 1 [97] 0o644 0 0 1).alone 3 ++ (Call.write 2 [1, 2, 3] 0 2).alone 4 ++
        (Call.unlink 1 [97] 3).alone 1)]⟩, 8, 4096, eight_lt⟩
    ((Call.make .regular 1 [97] 0o644 0 0 1).inSession [{}, {}, {}] ++
      (Call.write 2 [1, 2, 3] 0 2).inSession [{}, {}, {}, {}] ++
      (Call.unlink 1 [97] 3).inSession [{}] ++
      Call.persist.inSession [{}, {}, {}, {}, {}, {}, {}, {}, {}, {}, {}])
    [{ compact := { ids := [chunkID 0] } }, {}, { compact := { ids := [chunkID 0] } }, {}, {}, {}]
    []
    ((Call.make .regular 1 [98] 0o644 0 0 4).inSession [{}, {}, {}] ++
      (Call.write 3 [4] 0 5).inSession [{}, {}, {}, {}] ++ Call.fsync.inSession [{}])

/-- One chunk ID names two contents that have nothing in common. -/
theorem chunk_id_reused : ∃ setup moments objects, Life setup (fun _ _ => True) moments objects ∧
    ∃ moment ∈ moments, ∃ moment' ∈ moments, moment.get (chunkID 0) = some [1, 2, 3] ∧
      moment'.get (chunkID 0) = some [4] := by
  have plays : newestCollected.map (fun ends =>
      decide (∃ moment ∈ ends.2.record, ∃ moment' ∈ ends.2.record,
        moment.get (chunkID 0) = some [1, 2, 3] ∧ moment'.get (chunkID 0) = some [4])) =
      some true := by decide +kernel
  obtain ⟨⟨moments, pool⟩, played, shown⟩ := Option.map_eq_some_iff.mp plays
  exact ⟨_, _, _, Life.of_threeActs played trivial trivial, of_decide_eq_true shown⟩

end Fusey
