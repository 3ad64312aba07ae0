import Fusey.Cmd.Mounting
import Fusey.Fuse.DirtyFlags
import Fusey.Fuse.RemoteConsistency

/-!
Contract: the dirty flags over runs and crashes of a daemon that restarts on its
cache directory and store.

Owns:
- the daemons that restarts lead to, from one whose flags say the truth;
- that a lowered flag means a persisted index in every run that no mutator
  disturbs and after every restart that finds the local snapshot no newer than
  the stored index;
- a run in which a file created during a `Save` is marked as saved.
-/

set_option autoImplicit false

namespace Fusey

open Interleaving

/-! ### Restarts -/

/-- The daemons that stand at the start of a run: one whose flags say the truth,
or one that a restart, at any point of an admitted run, has loaded. -/
inductive Booted (setup : Setup) (mayStep : Pool Daemon Call Unit → Event Call Oracle → Prop)
    (mayRestart : Objects → Option Bytes → LoadOracle → Prop) : Daemon → Prop where
  | begin {d : Daemon} (honest : d.Honest setup.cfg.codec setup.blockSize) :
      Booted setup mayStep mayRestart d
  | restart {d d' : Daemon} {pool : Pool Daemon Call Unit} {files : Objects} {o : MountOracle}
      (booted : Booted setup mayStep mayRestart d)
      (ran : Reachable (daemonSys setup.cfg) noRecord (· = ⟨d, [], ()⟩) mayStep pool)
      (allowed : mayRestart pool.shared.objects pool.shared.dir.snapshot o.load)
      (mounted : mount setup o pool.shared.objects files pool.shared.dir.snapshot = some d') :
      Booted setup mayStep mayRestart d'

/-- The store has an index. A local snapshot is this index up to access times;
without one, the `Save` that follows the load succeeds and can be loaded. -/
def LoadsClean (setup : Setup) (objects : Objects) (snapshot : Option Bytes) (o : LoadOracle) :
    Prop :=
  ∃ remote ∈ objects.get indexKey,
    ∃ stored ∈ decodeIndex setup.cfg.codec setup.blockSize remote,
      (∀ data ∈ snapshot, ∃ idx ∈ decodeIndex setup.cfg.codec setup.blockSize data,
        stored.sansAtimes = idx.sansAtimes) ∧
      (snapshot = none → o.disk = true ∧ stored.Lists o.order ∧
        (stored.snapshot o.order).Decodable ∧
        (encodeSnapshot setup.cfg.codec (stored.snapshot o.order)).isSome = true)

instance (setup : Setup) (objects : Objects) (snapshot : Option Bytes) (o : LoadOracle) :
    Decidable (LoadsClean setup objects snapshot o) := by
  unfold LoadsClean
  infer_instance

/-- A restart that loads clean leaves flags that say the truth. -/
theorem mount_honest {setup : Setup} {o : MountOracle} {objects files : Objects}
    {snapshot : Option Bytes} {d : Daemon}
    (legible : ∀ data, objects.get indexKey = some data → Legible setup.cfg.codec data)
    (clean : LoadsClean setup objects snapshot o.load)
    (mounted : mount setup o objects files snapshot = some d) :
    d.Honest setup.cfg.codec setup.blockSize := by
  obtain ⟨-, idx, kept, loaded, rfl⟩ := mount_cases mounted
  obtain ⟨remote, object, stored, decodes, fresh, cached⟩ := clean
  have storedRestorable : stored.Restorable := legible remote object _ _ decodes
  cases snapshot with
  | some data =>
      obtain ⟨local', decoded, same⟩ := Option.map_eq_some_iff.mp loaded
      cases same
      obtain ⟨idx', decoded', agrees⟩ := fresh data rfl
      cases decoded.symm.trans decoded'
      obtain ⟨blockSize, flags⟩ := decodeIndex_fields decoded
      have restorable : idx.Restorable := storedRestorable.of_sansAtimes agrees.symm
      refine ⟨mount_sound setup restorable o.ids files objects _, blockSize,
        SnapshotDir.holding_neat (some data), legible, ?_, ?_⟩
      · intro _
        refine ⟨data, SnapshotDir.holding_snapshot (some data), ?_⟩
        unfold Index.SavedAs
        rw [blockSize, flags]
        exact decoded
      · exact fun _ => ⟨remote, object, stored, blockSize.symm ▸ decodes, agrees⟩
  | none =>
      obtain ⟨accepts, lists, decodable, encodes⟩ := cached rfl
      obtain ⟨data, encoded⟩ := Option.isSome_iff_exists.mp encodes
      have isStored : idx = stored ∧ kept = some data := by
        simp only [loadIndex, mapStore_getRaw, mapStore_indexKey] at loaded
        rw [object] at loaded
        split_ifs at loaded
        obtain ⟨decoded, isIndex, same⟩ := Option.map_eq_some_iff.mp loaded
        cases isIndex.symm.trans decodes
        rw [if_pos ⟨accepts, lists⟩, encoded] at same
        cases same
        exact ⟨rfl, rfl⟩
      obtain ⟨rfl, rfl⟩ := isStored
      obtain ⟨blockSize, flags⟩ := decodeIndex_fields decodes
      refine ⟨mount_sound setup storedRestorable o.ids files objects _, blockSize,
        SnapshotDir.holding_neat (some data), legible, ?_, ?_⟩
      · exact fun _ => ⟨data, SnapshotDir.holding_snapshot (some data),
          storedRestorable.decodes lists decodable encoded⟩
      · exact fun _ => ⟨remote, object, idx, blockSize.symm ▸ decodes, rfl⟩

theorem Booted.honest {setup : Setup} {d : Daemon}
    (booted : Booted setup (undisturbed Call.IsIndexCall) (LoadsClean setup) d) :
    d.Honest setup.cfg.codec setup.blockSize := by
  induction booted with
  | begin honest => exact honest
  | restart _ ran allowed mounted inductionHypothesis =>
      exact mount_honest (inductionHypothesis.of_reachable ran).legible allowed mounted

/-- Whenever `IsDirty` is false the snapshot decodes to the index, and whenever
`IsRemoteDirty` is false the stored index does up to access times, in every
undisturbed run and after every clean load. -/
theorem flags_mean_persisted {setup : Setup} {d : Daemon}
    (booted : Booted setup (undisturbed Call.IsIndexCall) (LoadsClean setup) d)
    {pool : Pool Daemon Call Unit}
    (ran : Reachable (daemonSys setup.cfg) noRecord (· = ⟨d, [], ()⟩)
      (undisturbed Call.IsIndexCall) pool) :
    pool.shared.LocalClean setup.cfg.codec ∧ pool.shared.RemoteClean setup.cfg.codec := by
  have honest := booted.honest.of_reachable ran
  exact ⟨honest.localClean, honest.remoteClean⟩

/-! ### Two runs -/

/-- A configuration that can be evaluated on an empty filesystem and on one with
an empty file. -/
noncomputable def oneFileSetup : Setup :=
  ⟨⟨100, true, .unary [wireAfter [] [],
    wireAfter oneEntry.order ((Call.make .regular 1 [97] 0o644 0 0 1).alone 3)]⟩, 8, 4096, eight_lt⟩

/-- A store with the index of an empty filesystem, which has number zero. -/
def emptyStore : Objects := (∅ : Objects).set indexKey []

theorem emptyStore_legible {codec : CborCodec}
    (encoded : encodeSnapshot codec ((Index.new 4096 0).snapshot []) = some []) {data : Bytes}
    (stored : emptyStore.get indexKey = some data) : Legible codec data := by
  have lists : (Index.new 4096 0).Lists [] := by decide +kernel
  cases (GoMap.get_set_self (∅ : Objects) indexKey []).symm.trans stored
  exact (Index.new_restorable 4096 0).legible lists encoded

theorem emptyStore_honest {d : Daemon}
    (mounted : mount oneFileSetup {} emptyStore ∅ none = some d) :
    d.Honest oneFileSetup.cfg.codec oneFileSetup.blockSize := by
  have clean : LoadsClean oneFileSetup emptyStore none {} := by decide +kernel
  exact mount_honest (fun _ => emptyStore_legible (by decide +kernel)) clean mounted

/-- A file is created and persisted, the daemon is killed and restarts, and the
file is looked up. -/
theorem flags_mean_persisted_restarted :
    ∃ d pool, Booted oneFileSetup (undisturbed Call.IsIndexCall) (LoadsClean oneFileSetup) d ∧
      Reachable (daemonSys oneFileSetup.cfg) noRecord (· = ⟨d, [], ()⟩)
        (undisturbed Call.IsIndexCall) pool ∧
      pool.shared.idx.entry 1 [97] = some 2 ∧ pool.shared.idx.dirty = false ∧
      pool.shared.idx.remoteDirty = false ∧
      pool.shared.LocalClean oneFileSetup.cfg.codec ∧
      pool.shared.RemoteClean oneFileSetup.cfg.codec := by
  have plays : ((mount oneFileSetup {} emptyStore ∅ none).bind fun d =>
      ((daemonSys oneFileSetup.cfg).run noRecord (undisturbed Call.IsRequest) ⟨d, [], ()⟩
        ((Call.make .regular 1 [97] 0o644 0 0 1).alone 3 ++
          [.spawn .persist, .run 0 {}, .run 0 oneEntry, .run 0 {}, .run 0 {}, .run 0 {}, .run 0 {},
            .run 0 {}, .run 0 {}, .run 0 oneEntry, .run 0 {}, .run 0 {}])).bind fun crashed =>
        if LoadsClean oneFileSetup crashed.shared.objects crashed.shared.dir.snapshot {} then
          (mount oneFileSetup {} crashed.shared.objects ∅ crashed.shared.dir.snapshot).bind
            fun d' =>
            ((daemonSys oneFileSetup.cfg).run noRecord (undisturbed Call.IsRequest) ⟨d', [], ()⟩
              ((Call.lookup 1 [97]).alone 2)).map fun pool =>
                (pool.shared.idx.entry 1 [97], pool.shared.idx.dirty, pool.shared.idx.remoteDirty)
        else none) = some (some 2, false, false) := by decide +kernel
  have looser : ∀ (pool : Pool Daemon Call Unit) event, undisturbed Call.IsRequest pool event →
      undisturbed Call.IsIndexCall pool event := by
    rintro pool (c | ⟨i, o⟩) admitted
    · cases c <;> first | exact admitted | exact admitted.elim
    · exact admitted
  obtain ⟨d, mounted, rest⟩ := Option.bind_eq_some_iff.mp plays
  obtain ⟨crashed, ran, rest⟩ := Option.bind_eq_some_iff.mp rest
  split_ifs at rest with clean
  obtain ⟨d', remounted, rest⟩ := Option.bind_eq_some_iff.mp rest
  obtain ⟨pool, lookedUp, shown⟩ := Option.map_eq_some_iff.mp rest
  obtain ⟨entry, rest⟩ := Prod.mk.inj shown
  obtain ⟨dirty, remoteDirty⟩ := Prod.mk.inj rest
  have booted : Booted oneFileSetup (undisturbed Call.IsIndexCall) (LoadsClean oneFileSetup) d' :=
    .restart (.begin (emptyStore_honest mounted)) (.mono looser (.of_run (.start rfl) ran)) clean
      remounted
  have reached : Reachable (daemonSys oneFileSetup.cfg) noRecord (· = ⟨d', [], ()⟩)
      (undisturbed Call.IsIndexCall) pool := .mono looser (.of_run (.start rfl) lookedUp)
  exact ⟨d', pool, booted, reached, entry, dirty, remoteDirty, flags_mean_persisted booted reached⟩

/-- A file is created while a `Save` has its snapshot, and the `Save` ends by
marking the index clean. -/
theorem create_during_save_marked_clean :
    ∃ d pool, Booted oneFileSetup requestsOnly (fun _ _ _ => True) d ∧
      Reachable (daemonSys oneFileSetup.cfg) noRecord (· = ⟨d, [], ()⟩) requestsOnly pool ∧
      ¬ pool.shared.LocalClean oneFileSetup.cfg.codec := by
  have plays : ((mount oneFileSetup {} emptyStore ∅ none).bind fun d =>
      ((daemonSys oneFileSetup.cfg).run noRecord requestsOnly ⟨d, [], ()⟩
        ((Call.make .regular 1 [97] 0o644 0 0 1).alone 3 ++
          [.spawn .persist, .run 0 {}, .run 0 oneEntry,
            .spawn (.make .regular 1 [98] 0o644 0 0 2), .run 1 {},
            .run 0 {}, .run 0 {}, .run 0 {}, .run 0 {}])).map fun pool =>
        (pool.shared.idx.dirty, pool.shared.idx.inodes.keys.card,
          (pool.shared.dir.snapshot.bind (decodeIndex oneFileSetup.cfg.codec
            pool.shared.idx.blockSize)).map fun idx => idx.inodes.keys.card)) =
      some (false, 3, some 2) := by decide +kernel
  obtain ⟨d, mounted, rest⟩ := Option.bind_eq_some_iff.mp plays
  obtain ⟨pool, ran, shown⟩ := Option.map_eq_some_iff.mp rest
  obtain ⟨lowered, rest⟩ := Prod.mk.inj shown
  obtain ⟨present, saved⟩ := Prod.mk.inj rest
  refine ⟨d, pool, .begin (emptyStore_honest mounted), .of_run (.start rfl) ran, fun clean => ?_⟩
  obtain ⟨data, snapshot, decodes⟩ := clean lowered
  rw [snapshot, Option.bind_some, decodes, Option.map_some] at saved
  have : pool.shared.idx.inodes.keys.card = 2 := Option.some.inj saved
  omega

end Fusey
