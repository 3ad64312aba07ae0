import Fusey.Fuse.Runs

/-!
Contract: what `Save` and `Marshal` write, `Load` and `Unmarshal` restore.

Owns:
- the round trip of the index through its wire form and back, and of a wire form
  through the index types and back;
- the round trip through the snapshot directory: a `Save` that returned nil
  leaves the bytes that `Load` reads;
- which indices a default decoder accepts: those whose names, targets and
  attributes are valid UTF-8 and whose maps and lists are not too long. The
  encoder has no such limits.
-/

set_option autoImplicit false

namespace Fusey

open GoInt Interleaving

/-! ### `Save`, run alone -/

/-- A call that is not at its last step goes on. -/
theorem Call.continues_of_completes {cfg : Config} {d d' : Daemon} {c : Call} {r : Reply}
    (completes : Completes (daemonSys cfg) d c d' r)
    (unfinished : ∀ a, resume cfg c a ≠ .inr r) :
    ∃ o d₁ a c', d.apply c.effect o = some (d₁, a) ∧ Follows cfg c a c' ∧
      Completes (daemonSys cfg) d₁ c' d' r := by
  obtain ⟨o, d₁, a, applied, ⟨returns, -⟩ | ⟨c', continues, rest⟩⟩ := completes.first
  · exact absurd returns (unfinished a)
  · exact ⟨o, d₁, a, c', applied, follows_of_resume continues, rest⟩

/-- A `Save` that succeeds with nobody else at work has written the index it
found. -/
theorem Call.saves_of_completes {cfg : Config} {d d' : Daemon}
    (completes : Completes (daemonSys cfg) d (.save .fsync) d' .ok) :
    ∃ order data, d.idx.Lists order ∧
      encodeSnapshot cfg.codec (d.idx.snapshot order) = some data ∧
      d'.dir.snapshot = some data := by
  obtain ⟨o, d₁, a, c, taken, follows, toOpen⟩ := continues_of_completes completes fun a => by
    cases a
    case taken snap =>
      rw [Call.resume_save_taken]
      cases encodeSnapshot cfg.codec snap <;> exact fun returns => by cases returns
    all_goals exact fun returns => by cases returns
  cases follows
  case saveOpen snap data encoded =>
  obtain ⟨same, lists, rfl⟩ := Daemon.apply_snapshot taken
  obtain ⟨o₂, d₂, a, c, opened, follows, toWrite⟩ := continues_of_completes toOpen fun a => by
    cases a <;> exact fun returns => by cases returns
  cases follows
  case saveWrite file =>
  obtain ⟨o₃, d₃, a, c, wrote, follows, toRename⟩ := continues_of_completes toWrite fun a => by
    cases a <;> exact fun returns => by cases returns
  cases follows
  obtain ⟨o₄, d₄, a, c, renamed, follows, toMark⟩ := continues_of_completes toRename fun a => by
    cases a <;> exact fun returns => by cases returns
  cases follows
  refine ⟨_, data, lists, encoded, ?_⟩
  obtain ⟨rfl, rfl⟩ := Daemon.apply_openTmp opened
  have written := Daemon.apply_writeTmp wrote
  obtain ⟨dir, moved, rfl⟩ := Daemon.apply_renameTmp renamed
  subst written
  have isTmp : (d₁.dir.openTmp.1.write d₁.dir.openTmp.2 data).tmp = some d₁.dir.openTmp.2 :=
    SnapshotDir.openTmp_tmp d₁.dir
  have snapshot : dir.snapshot = some data :=
    SnapshotDir.rename_snapshot isTmp
      (SnapshotDir.write_empty (SnapshotDir.openTmp_empty d₁.dir) data) moved
  obtain ⟨o₅, d₅, a, marked, ⟨returns, rfl⟩ | ⟨c, continues, -⟩⟩ := toMark.first
  · cases marked
    exact snapshot
  · cases marked
    cases continues

/-! ### The round trip -/

/-- The chunks of the index have names whose numbers fit the wire. -/
def Index.Sequenced (idx : Index) : Prop :=
  ∀ ino exts, idx.extents.get ino = some exts → ∀ e ∈ exts,
    ∃ seq < 4294967296, e.chunkID = chunkID seq

theorem Index.Sequenced.minted {idx : Index} (sequenced : idx.Sequenced) {ino : Ino}
    {exts : List Extent} (stored : idx.extents.get ino = some exts) : Minted exts := by
  intro e member
  obtain ⟨seq, -, id⟩ := sequenced ino exts stored e member
  exact ⟨seq, id⟩

theorem Index.Sequenced.encodes {idx : Index} (sequenced : idx.Sequenced) (codec : CborCodec)
    (order : List DirEntry) : ∃ ws, toWireSnapshot (idx.snapshot order) = some ws ∧
      encodeSnapshot codec (idx.snapshot order) = some (codec.marshal ws) := by
  have parses : ∀ ino exts, (idx.snapshot order).extentMap.get ino = some exts → ∀ e ∈ exts,
      ∃ seq < 4294967296, e.chunkID = chunkID seq := sequenced
  exact encodeSnapshot_isSome codec parses

/-- `cbor.Unmarshal` inverts `cbor.Marshal` on the wire form of the index. -/
def CborCodec.Inverts (codec : CborCodec) (idx : Index) : Prop :=
  ∀ order ws, idx.Lists order → toWireSnapshot (idx.snapshot order) = some ws →
    codec.unmarshal (codec.marshal ws) = some ws

theorem CborCodec.Inverts.decodable {codec : CborCodec} {idx : Index} (inverts : codec.Inverts idx)
    {order : List DirEntry} (lists : idx.Lists order) : (idx.snapshot order).Decodable := by
  intro ws converted
  have inverse := inverts order ws lists converted
  rw [codec.unmarshal_marshal] at inverse
  by_contra refused
  rw [if_neg refused] at inverse
  cases inverse

/-- The index survives its wire form, whatever order its directory entries are
listed in; `cleaned` only lowers the dirty flags. So what `Marshal` writes
`Unmarshal` restores, and so does `Load` after a `Save`, where CBOR inverts. And
every wire form survives the index types. -/
theorem snapshot_round_trip {idx : Index} (dirs : idx.DirsMatch) (sequenced : idx.Sequenced) :
    (∀ order, idx.Lists order → ∃ ws, toWireSnapshot (idx.snapshot order) = some ws ∧
        Index.fromSnapshot (fromWireSnapshot ws) idx.blockSize = idx.cleaned) ∧
      (∀ codec : CborCodec, codec.Inverts idx →
        (∀ order, idx.Lists order → ∃ data,
          encodeSnapshot codec (idx.snapshot order) = some data ∧
          decodeIndex codec idx.blockSize data = some idx.cleaned)) ∧
      (∀ (cfg : Config) (d d' : Daemon), cfg.codec.Inverts idx → d.idx = idx →
        Completes (daemonSys cfg) d (.save .fsync) d' .ok →
        ∃ data, d'.dir.snapshot = some data ∧
          decodeIndex cfg.codec idx.blockSize data = some idx.cleaned) ∧
      ∀ ws : CborSnapshot, ws.Typed → toWireSnapshot (fromWireSnapshot ws) = some ws := by
  have decodes : ∀ (codec : CborCodec) order data, codec.Inverts idx → idx.Lists order →
      encodeSnapshot codec (idx.snapshot order) = some data →
        decodeIndex codec idx.blockSize data = some idx.cleaned := by
    intro codec order data inverts lists encoded
    exact decodeIndex_of_encodeSnapshot dirs (fun _ _ => sequenced.minted) lists
      (inverts.decodable lists) encoded
  refine ⟨?_, ?_, ?_, fun ws => toWireSnapshot_fromWireSnapshot⟩
  · intro order lists
    obtain ⟨ws, converted, -⟩ := sequenced.encodes (.unary []) order
    refine ⟨ws, converted, ?_⟩
    rw [fromWireSnapshot_of_toWireSnapshot (fun _ _ => sequenced.minted) converted,
      Index.fromSnapshot_snapshot dirs lists]
    rfl
  · intro codec inverts order lists
    obtain ⟨ws, converted, encoded⟩ := sequenced.encodes codec order
    exact ⟨_, encoded, decodes codec order _ inverts lists encoded⟩
  · rintro cfg d d' inverts rfl completes
    obtain ⟨order, data, lists, encoded, stored⟩ := Call.saves_of_completes completes
    exact ⟨data, stored, decodes cfg.codec order data inverts lists encoded⟩

/-! ### What a decoder accepts -/

/-- The limits of a default decoder, as a property of the index. -/
structure Index.DecoderAccepts (idx : Index) : Prop where
  inodes : idx.inodes.keys.card ≤ maxElements
  entries : idx.dirEntries.card ≤ maxElements
  files : idx.extents.keys.card ≤ maxElements
  extents : ∀ ino exts, idx.extents.get ino = some exts → exts.length ≤ maxElements
  links : idx.symlinks.keys.card ≤ maxElements
  attributed : idx.xattrs.keys.card ≤ maxElements
  attributes : ∀ ino attrs, idx.xattrs.get ino = some attrs → attrs.keys.card ≤ maxElements
  names : ∀ parent name child, idx.entry parent name = some child → GoFmt.validUTF8 name
  targets : ∀ ino target, idx.symlinks.get ino = some target → GoFmt.validUTF8 target
  values : ∀ ino attrs name value, idx.xattrs.get ino = some attrs →
    attrs.get name = some value → GoFmt.validUTF8 name ∧ GoFmt.validUTF8 value

theorem length_filterMap_toWireExtent {exts : List Extent}
    (all : ∀ e ∈ exts, (toWireExtent e).isSome) :
    (exts.filterMap toWireExtent).length = exts.length := by
  induction exts with
  | nil => rfl
  | cons head tail inductionHypothesis =>
      obtain ⟨wire, converted⟩ := Option.isSome_iff_exists.mp (all head (by simp))
      rw [List.filterMap_cons_some converted, List.length_cons, List.length_cons,
        inductionHypothesis fun e member => all e (by simp [member])]

/-- The wire form of an index is within the limits when the index is. -/
theorem Index.decodable_iff {idx : Index} {order : List DirEntry} (lists : idx.Lists order)
    {ws : CborSnapshot} (converted : toWireSnapshot (idx.snapshot order) = some ws) :
    ws.Decodable ↔ idx.DecoderAccepts := by
  unfold toWireSnapshot at converted
  split_ifs at converted with all
  cases converted
  have sameLength : ∀ ino exts, idx.extents.get ino = some exts →
      (exts.filterMap toWireExtent).length = exts.length := by
    intro ino exts stored
    have known := all ino (GoMap.mem_keys.mpr ⟨exts, stored⟩)
    simp only [snapshot, stored, Option.getD_some] at known
    exact length_filterMap_toWireExtent known
  have count : order.length = idx.dirEntries.card := by
    rw [← lists]
    rfl
  have named : (∀ e ∈ order.map toWireDirEntry, GoFmt.validUTF8 e.name) ↔
      ∀ parent name child, idx.entry parent name = some child → GoFmt.validUTF8 name := by
    have listed : ∀ e, e ∈ order ↔ idx.entry e.parentIno e.name = some e.childIno := by
      intro e
      rw [← mem_dirEntries, ← lists, Multiset.mem_coe]
    constructor
    · intro valid parent name child stored
      exact valid _ (List.mem_map_of_mem ((listed ⟨parent, name, child⟩).mpr stored))
    · intro valid wde member
      obtain ⟨e, inOrder, rfl⟩ := List.mem_map.mp member
      exact valid _ _ _ ((listed e).mp inOrder)
  simp only [CborSnapshot.Decodable, snapshot, GoMap.keys_map, List.length_map, count, named,
    GoMap.get_map]
  constructor
  · rintro ⟨⟨inodes, entries, files, extents, links, attributed, attributes⟩, names, targets,
      values⟩
    refine ⟨inodes, entries, files, ?_, links, attributed, ?_, names, ?_, ?_⟩
    · intro ino exts stored
      rw [← sameLength ino exts stored]
      exact extents ino (GoMap.mem_keys.mpr ⟨exts, stored⟩) _ (by simp [stored])
    · exact fun ino attrs stored => attributes ino (GoMap.mem_keys.mpr ⟨attrs, stored⟩) attrs stored
    · exact fun ino target stored =>
        targets ino (GoMap.mem_keys.mpr ⟨target, stored⟩) target stored
    · intro ino attrs name value stored found
      obtain ⟨validName, validValue⟩ := values ino (GoMap.mem_keys.mpr ⟨attrs, stored⟩) attrs stored
        name (GoMap.mem_keys.mpr ⟨value, found⟩)
      exact ⟨validName, validValue value found⟩
  · rintro ⟨inodes, entries, files, extents, links, attributed, attributes, names, targets, values⟩
    refine ⟨⟨inodes, entries, files, ?_, links, attributed, fun ino _ attrs stored =>
      attributes ino attrs stored⟩, names, fun ino _ target stored => targets ino target stored, ?_⟩
    · intro ino _ wire stored
      obtain ⟨exts, found, rfl⟩ := Option.map_eq_some_iff.mp stored
      rw [sameLength ino exts found]
      exact extents ino exts found
    · intro ino _ attrs stored name known
      obtain ⟨value, found⟩ := GoMap.mem_keys.mp known
      refine ⟨(values ino attrs name value stored found).1, fun other foundOther => ?_⟩
      exact (values ino attrs name other stored foundOther).2

/-- Requests from an empty filesystem reach the index. -/
def Served (cfg : Config) (idx : Index) : Prop :=
  ∃ pool : Pool Daemon Call Unit, Reachable (daemonSys cfg) (fun _ _ _ => ())
    (fun pool => pool.shared.Sound ∧ pool.threads = []) requestsOnly pool ∧ pool.shared.idx = idx

theorem Served.restorable {cfg : Config} {idx : Index} (served : Served cfg idx) :
    idx.Restorable := by
  obtain ⟨pool, reached, rfl⟩ := served
  refine (Daemon.Sound.of_reachable ?_ ?_ reached).1.restorable
  · rintro pool ⟨sound, idle⟩
    exact ⟨sound, fun c member => by rw [idle] at member; cases member⟩
  · exact fun pool c request => Call.IsRequest.sound request

/-- Of what `Marshal` or `Save` writes for an index that the FUSE operations
reach, `Unmarshal` and `Load` accept exactly what is within the limits of the
decoder, and then they restore it. -/
theorem unmarshal_accepts_iff {cfg : Config} {idx : Index} (served : Served cfg idx)
    {order : List DirEntry} (lists : idx.Lists order) {data : Bytes}
    (encoded : encodeSnapshot cfg.codec (idx.snapshot order) = some data) (blockSize : Int) :
    ((∃ restored, decodeIndex cfg.codec blockSize data = some restored) ↔ idx.DecoderAccepts) ∧
      ∀ restored, decodeIndex cfg.codec blockSize data = some restored →
        restored = { idx.cleaned with blockSize := blockSize } := by
  refine ⟨?_, fun restored decoded => served.restorable.of_decodes lists encoded decoded⟩
  obtain ⟨ws, converted, rfl⟩ := Option.map_eq_some_iff.mp encoded
  rw [← Index.decodable_iff lists converted]
  unfold decodeIndex
  rw [cfg.codec.unmarshal_marshal]
  split_ifs with decodable <;> simp [decodable]

/-! ### Two runs -/

/-- The daemon after a run of requests on an empty filesystem. -/
noncomputable def servedAfter (events : List (Event Call Oracle)) : Daemon :=
  (((daemonSys sampleConfig).run (fun _ _ _ => ()) requestsOnly
    ⟨freshDaemon 8 4096 0 false, [], ()⟩ events).map Pool.shared).getD (freshDaemon 8 4096 0 false)

theorem servedAfter_served (events : List (Event Call Oracle)) :
    Served sampleConfig (servedAfter events).idx := by
  have start : Reachable (daemonSys sampleConfig) (fun _ _ _ => ())
      (fun pool => pool.shared.Sound ∧ pool.threads = []) requestsOnly
      ⟨freshDaemon 8 4096 0 false, [], ()⟩ :=
    .start ⟨freshDaemon_sound (by decide) 4096 0 false, rfl⟩
  unfold servedAfter
  cases finished : (daemonSys sampleConfig).run (fun _ _ _ => ()) requestsOnly
      ⟨freshDaemon 8 4096 0 false, [], ()⟩ events with
  | none => exact ⟨_, start, rfl⟩
  | some pool => exact ⟨pool, .of_run start finished, rfl⟩

/-- A directory with a file of three bytes, a symlink and an attribute. -/
def smallTree : List (Event Call Oracle) :=
  (Call.make .directory 1 [100] 0o755 0 0 1).alone 3 ++
    (Call.make .regular 2 [97] 0o644 0 0 2).alone 3 ++ (Call.write 3 [7, 8, 9] 0 3).alone 4 ++
    (Call.make (.symlink [97]) 2 [108] 0o777 0 0 4).alone 4 ++
    (Call.setxattr 3 [117] [1] 5).alone 1

/-- Its entries, in some order. -/
def smallTreeOrder : List DirEntry := [⟨2, [108], 4⟩, ⟨1, [100], 2⟩, ⟨2, [97], 3⟩]

theorem snapshot_round_trip_smallTree :
    ∃ ws, toWireSnapshot ((servedAfter smallTree).idx.snapshot smallTreeOrder) = some ws ∧
      ws.extentMap.get 3 = some [⟨0, 0, 3, 0⟩] ∧
      Index.fromSnapshot (fromWireSnapshot ws) 4096 = (servedAfter smallTree).idx.cleaned := by
  have blockSize : (servedAfter smallTree).idx.blockSize = 4096 := by decide +kernel
  have lists : (servedAfter smallTree).idx.Lists smallTreeOrder := by decide +kernel
  have extents : (servedAfter smallTree).idx.extents =
      (∅ : GoMap Ino (List Extent)).set 3 [⟨chunkID 0, 0, 3, 0⟩] := by decide +kernel
  have sequenced : (servedAfter smallTree).idx.Sequenced := by
    intro ino exts stored e member
    rw [extents, GoMap.get_set] at stored
    split_ifs at stored
    · cases stored
      rw [List.mem_singleton.mp member]
      exact ⟨0, by decide, rfl⟩
    · cases stored
  have trips := snapshot_round_trip (servedAfter_served smallTree).restorable.dirs sequenced
  obtain ⟨ws, converted, restored⟩ := trips.1 smallTreeOrder lists
  refine ⟨ws, converted, ?_, blockSize ▸ restored⟩
  have shown : (toWireSnapshot ((servedAfter smallTree).idx.snapshot smallTreeOrder)).map
      (fun ws => ws.extentMap.get 3) = some (some [⟨0, 0, 3, 0⟩]) := by decide +kernel
  rw [converted] at shown
  exact Option.some.inj shown

/-- The tree is within the limits. -/
theorem unmarshal_accepts_smallTree :
    ∃ data, encodeSnapshot sampleConfig.codec
        ((servedAfter smallTree).idx.snapshot smallTreeOrder) = some data ∧
      ∃ restored, decodeIndex sampleConfig.codec 4096 data = some restored := by
  have lists : (servedAfter smallTree).idx.Lists smallTreeOrder := by decide +kernel
  have converts : ((toWireSnapshot ((servedAfter smallTree).idx.snapshot smallTreeOrder)).map
      fun ws => decide ws.Decodable) = some true := by decide +kernel
  obtain ⟨ws, converted, decodable⟩ := Option.map_eq_some_iff.mp converts
  have encoded : encodeSnapshot sampleConfig.codec
      ((servedAfter smallTree).idx.snapshot smallTreeOrder) =
        some (sampleConfig.codec.marshal ws) := by
    rw [encodeSnapshot, converted, Option.map_some]
  refine ⟨_, encoded, ?_⟩
  exact (unmarshal_accepts_iff (servedAfter_served smallTree) lists encoded 4096).1.mpr
    ((Index.decodable_iff lists converted).mp (of_decide_eq_true decodable))

/-- A file whose name is one byte that is not UTF-8. -/
def rawName : List (Event Call Oracle) := (Call.make .regular 1 [255] 0o644 0 0 1).alone 3

/-- `Marshal` writes it, and `Unmarshal` rejects what it wrote. -/
theorem raw_name_not_accepted :
    Served sampleConfig (servedAfter rawName).idx ∧
      (servedAfter rawName).idx.Lists [⟨1, [255], 2⟩] ∧
      ∃ data, encodeSnapshot sampleConfig.codec
          ((servedAfter rawName).idx.snapshot [⟨1, [255], 2⟩]) = some data ∧
        ∀ blockSize, decodeIndex sampleConfig.codec blockSize data = none := by
  refine ⟨servedAfter_served rawName, by decide +kernel, ?_⟩
  have converts : ((toWireSnapshot ((servedAfter rawName).idx.snapshot [⟨1, [255], 2⟩])).map
      fun ws => decide ws.Decodable) = some false := by decide +kernel
  obtain ⟨ws, converted, refused⟩ := Option.map_eq_some_iff.mp converts
  refine ⟨sampleConfig.codec.marshal ws, ?_, fun blockSize => ?_⟩
  · rw [encodeSnapshot, converted, Option.map_some]
  · rw [decodeIndex, sampleConfig.codec.unmarshal_marshal, if_neg (of_decide_eq_false refused)]
    rfl

end Fusey
