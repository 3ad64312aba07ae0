import Mathlib.Data.Rat.Floor
import Fusey.Index.Layout
import Fusey.Fuse.NamespaceRuns

/-!
Contract: the attributes that `Getattr` and `Setattr` report (`fillAttr`,
`internal/fuse/fs.go`).

Owns:
- the attribute record and how an inode fills it, with Go's truncating division
  and its conversions to unsigned words;
- what every mutator does to the type, the size, the blocks and the times of one
  inode;
- that sizes and block counts are exact in every run whose requests set sizes that
  can be rounded up, and a `Setattr` that sets none such;
- when a time that `Setattr` sets is the time that is reported, in every run that
  does not set it again.
-/

set_option autoImplicit false

namespace Fusey

open GoInt Interleaving

/-! ### The attribute record -/

/-- `fuse.Attr`. -/
structure Attr where
  ino : Ino
  size : Nat
  blocks : Nat
  atime : Nat
  atimensec : Nat
  mtime : Nat
  mtimensec : Nat
  ctime : Nat
  ctimensec : Nat
  mode : UInt32
  nlink : Nat
  uid : UInt32
  gid : UInt32
  rdev : UInt32
  blksize : Nat
deriving DecidableEq, Repr

/-- `uint64(t / 1e9)`. -/
def seconds (t : Int) : Nat := toUint64 (t.tdiv 1000000000)

/-- `uint32(t % 1e9)`: the remainder has the sign of `t`. -/
def nanoseconds (t : Int) : Nat := toUint32 (t.tmod 1000000000)

/-- `fillAttr`. -/
def fillAttr (inode : Inode) : Attr :=
  { ino := inode.ino
    size := toUint64 inode.size
    blocks := toUint64 inode.blocks
    atime := seconds inode.atime
    atimensec := nanoseconds inode.atime
    mtime := seconds inode.mtime
    mtimensec := nanoseconds inode.mtime
    ctime := seconds inode.ctime
    ctimensec := nanoseconds inode.ctime
    mode := inode.fullMode
    nlink := inode.nlink
    uid := inode.uid
    gid := inode.gid
    rdev := inode.rdev
    blksize := toUint32 inode.blksize }

/-- `fuse.AttrOut`; `attrValid` is `attrTTL` in seconds. -/
structure AttrOut where
  attr : Attr
  attrValid : Nat
deriving DecidableEq, Repr

/-- `Getattr`. -/
def getattr (idx : Index) (ino : Ino) : Except Errno AttrOut :=
  match idx.getInode ino with
  | none => .error .enoent
  | some inode => .ok ⟨fillAttr inode, 5⟩

theorem getattr_ok {idx : Index} {ino : Ino} {out : AttrOut}
    (answered : getattr idx ino = .ok out) :
    ∃ inode, idx.inodes.get ino = some inode ∧ out.attr = fillAttr inode := by
  unfold getattr Index.getInode at answered
  split at answered
  next => cases answered
  next inode known =>
    cases answered
    exact ⟨inode, known, rfl⟩

/-! ### What a mutator does to one inode -/

namespace Mutation

/-- The mutator sets the access time of `ino`. -/
def SetsAtime (ino : Ino) : Mutation → Prop
  | .setAttr target change _ => target = ino ∧ change.atime ≠ none
  | .touchAtime target _ => target = ino
  | _ => False

/-- The mutator sets the modification time of `ino`. -/
def SetsMtime (ino : Ino) : Mutation → Prop
  | .addDirEntry parent _ _ _ => parent = ino
  | .removeDirEntry parent _ _ => parent = ino
  | .rename srcParent _ dstParent _ _ => srcParent = ino ∨ dstParent = ino
  | .setAttr target change _ => target = ino ∧ (change.mtime ≠ none ∨ change.size ≠ none)
  | .writeExtent target _ _ => target = ino
  | _ => False

/-- The mutator gives `ino` a size that it rounds up to blocks. -/
def SetsSize (ino : Ino) (size : Int) : Mutation → Prop
  | .setAttr target change _ => target = ino ∧ change.size = some size
  | .writeExtent target ext _ => target = ino ∧ size = ext.fileEnd
  | _ => False

/-- What `m` may do to the inode `ino`. -/
structure Alters (m : Mutation) (ino : Ino) (inode inode' : Inode) : Prop where
  fileType : inode'.fileType = inode.fileType
  size : inode.fileType = .regular →
    inode'.size = inode.size ∧ inode'.blocks = inode.blocks ∨
      m.SetsSize ino inode'.size ∧ inode'.blocks = blocks512 inode'.size
  atime : inode'.atime = inode.atime ∨ m.SetsAtime ino
  mtime : inode'.mtime = inode.mtime ∨ m.SetsMtime ino

variable {m : Mutation} {idx idx' : Index}

theorem Stamps.setsMtime {ino : Ino} (stamps : m.Stamps ino) : m.SetsMtime ino := by
  cases m <;> first | exact stamps | exact stamps.elim

/-- The mutators of links alter link counts, change times and the times of the
parents. -/
theorem Relinks.alters (relinks : m.Relinks idx idx') {ino : Ino} {inode' : Inode}
    (stored : idx'.inodes.get ino = some inode') :
    ∃ inode, idx.inodes.get ino = some inode ∧ m.Alters ino inode inode' := by
  by_cases takes : m.TakesLast idx ino
  · cases (relinks.frees takes).inode.symm.trans stored
  · obtain ⟨inode, known, same⟩ := (relinks.keeps takes).exists_inode stored
    refine ⟨inode, known, (congrArg Inode.fileType same).symm, fun _ => Or.inl
      ⟨(congrArg Inode.size same).symm, (congrArg Inode.blocks same).symm⟩,
      Or.inl (congrArg Inode.atime same).symm, ?_⟩
    by_cases stamps : m.Stamps ino
    · exact Or.inr stamps.setsMtime
    · rw [decide_eq_false stamps] at same
      exact Or.inl (congrArg Inode.mtime same).symm

theorem Alters.refl (m : Mutation) (ino : Ino) (inode : Inode) : m.Alters ino inode inode :=
  ⟨rfl, fun _ => Or.inl ⟨rfl, rfl⟩, Or.inl rfl, Or.inl rfl⟩

theorem Alters.stamp (m : Mutation) (ino : Ino) (inode : Inode) (now : Int) :
    m.Alters ino inode { inode with ctime := now } :=
  ⟨rfl, fun _ => Or.inl ⟨rfl, rfl⟩, Or.inl rfl, Or.inl rfl⟩

/-- A mutator that replaces one inode. -/
theorem Alters.of_set {target : Ino} {old new : Inode} (alters : m.Alters target old new)
    (known : idx.inodes.get target = some old) (changed : idx'.inodes = idx.inodes.set target new)
    {ino : Ino} {inode' : Inode} (stored : idx'.inodes.get ino = some inode') :
    ∃ inode, idx.inodes.get ino = some inode ∧ m.Alters ino inode inode' := by
  rw [changed, GoMap.get_set] at stored
  split_ifs at stored with isIt
  · subst isIt
    cases stored
    exact ⟨old, known, alters⟩
  · exact ⟨inode', stored, .refl m ino inode'⟩

/-- The times that `SetAttr` leaves. -/
theorem atime_apply (change : Index.AttrChange) (now : Int) (inode : Inode) :
    (change.apply now inode).atime = change.atime.getD inode.atime := by
  unfold Index.AttrChange.apply
  split
  · rfl
  · split_ifs <;> rfl

theorem mtime_apply {change : Index.AttrChange} {inode : Inode}
    (sameSize : ∀ size ∈ change.size, size = inode.size) (now : Int) :
    (change.apply now inode).mtime = change.mtime.getD inode.mtime := by
  unfold Index.AttrChange.apply
  split
  · rfl
  next size given =>
    split_ifs with resized
    · exact absurd (sameSize size given) resized
    · rfl

theorem blocks_apply (change : Index.AttrChange) (now : Int) (inode : Inode) :
    (∀ size ∈ change.size, size = inode.size) ∧
        (change.apply now inode).blocks = inode.blocks ∨
      ∃ size, change.size = some size ∧ (change.apply now inode).blocks = blocks512 size := by
  unfold Index.AttrChange.apply
  cases change.size with
  | none => exact Or.inl ⟨nofun, rfl⟩
  | some size =>
      dsimp only
      split_ifs with resized
      · exact Or.inr ⟨size, rfl, rfl⟩
      · refine Or.inl ⟨fun given isIt => ?_, rfl⟩
        cases isIt
        exact not_not.mp resized

theorem alters_setAttr (target : Ino) (change : Index.AttrChange) (now : Int) (inode : Inode) :
    (Mutation.setAttr target change now).Alters target inode (change.apply now inode) := by
  obtain ⟨size, type⟩ := Index.AttrChange.size_apply change now inode
  have atime := atime_apply change now inode
  refine ⟨type, fun _ => ?_, ?_, ?_⟩
  · rcases blocks_apply change now inode with ⟨sameSize, blocks⟩ | ⟨newSize, given, blocks⟩
    · refine Or.inl ⟨size.trans ?_, blocks⟩
      cases given : change.size with
      | none => rfl
      | some newSize => exact sameSize newSize given
    · rw [given] at size
      exact Or.inr ⟨⟨rfl, given.trans (congrArg some size.symm)⟩, size ▸ blocks⟩
  · cases set : change.atime with
    | none =>
        rw [set] at atime
        exact Or.inl atime
    | some t => exact Or.inr ⟨rfl, by rw [set]; exact Option.some_ne_none t⟩
  · by_cases sets : change.mtime ≠ none ∨ change.size ≠ none
    · exact Or.inr ⟨rfl, sets⟩
    · obtain ⟨noTime, noSize⟩ := not_or.mp sets
      have sameSize : ∀ size ∈ change.size, size = inode.size := by
        rw [not_not.mp noSize]
        nofun
      have kept := mtime_apply sameSize now
      rw [not_not.mp noTime] at kept
      exact Or.inl kept

theorem alters_writeExtent (target : Ino) (ext : Extent) (now : Int) (inode : Inode) :
    (Mutation.writeExtent target ext now).Alters target inode
      (Index.recordWrite ext now inode) := by
  unfold Index.recordWrite
  split_ifs
  · exact ⟨rfl, fun _ => Or.inr ⟨⟨rfl, rfl⟩, rfl⟩, Or.inl rfl, Or.inr rfl⟩
  · exact ⟨rfl, fun _ => Or.inl ⟨rfl, rfl⟩, Or.inl rfl, Or.inr rfl⟩

/-- Every inode that a mutator leaves is an old one that it may have altered, or
the new and empty one under the next number. -/
theorem alters (applied : m.apply idx = .ok idx') {ino : Ino} {inode' : Inode}
    (stored : idx'.inodes.get ino = some inode') :
    (∃ inode, idx.inodes.get ino = some inode ∧ m.Alters ino inode inode') ∨
      ino = idx.nextIno ∧ inode'.size = 0 ∧ inode'.blocks = 0 := by
  cases m with
  | createInode fileType mode uid gid rdev now =>
      cases applied
      simp only [Index.createInode, Index.touched, GoMap.get_set] at stored
      by_cases isNew : ino = idx.nextIno
      · rw [if_pos isNew] at stored
        cases stored
        exact Or.inr ⟨isNew, rfl, rfl⟩
      · rw [if_neg isNew] at stored
        exact Or.inl ⟨inode', stored, .refl _ ino inode'⟩
  | addDirEntry => exact Or.inl ((relinks_addDirEntry applied).alters stored)
  | removeDirEntry => exact Or.inl ((relinks_removeDirEntry applied).alters stored)
  | rename => exact Or.inl ((relinks_rename applied).alters stored)
  | setAttr target change now =>
      obtain ⟨inode, known, rfl⟩ := Index.setAttr_ok applied
      exact Or.inl ((alters_setAttr target change now inode).of_set known rfl stored)
  | writeExtent target ext now =>
      obtain ⟨inode, known, -, rfl⟩ := Index.writeExtent_ok applied
      exact Or.inl ((alters_writeExtent target ext now inode).of_set known rfl stored)
  | setSymlink target text now =>
      obtain ⟨inode, known, symlink, rfl⟩ := Index.setSymlink_ok applied
      have alters : (Mutation.setSymlink target text now).Alters target inode
          { inode with size := text.length, ctime := now } :=
        ⟨rfl, fun regular => absurd (symlink.symm.trans regular) FileType.symlink_ne_regular,
          Or.inl rfl, Or.inl rfl⟩
      exact Or.inl (alters.of_set known rfl stored)
  | setXattr target name value now =>
      obtain ⟨inode, known, rfl⟩ := Index.setXattr_ok applied
      exact Or.inl ((Alters.stamp _ target inode now).of_set known rfl stored)
  | removeXattr target name now =>
      obtain ⟨inode, known, rfl⟩ := Index.removeXattr_ok applied
      exact Or.inl ((Alters.stamp _ target inode now).of_set known rfl stored)
  | touchAtime target now =>
      cases applied
      have alters (inode : Inode) :
          (Mutation.touchAtime target now).Alters target inode { inode with atime := now } :=
        ⟨rfl, fun _ => Or.inl ⟨rfl, rfl⟩, Or.inr rfl, Or.inl rfl⟩
      rcases Index.touchAtime_cases idx target now with ⟨-, same⟩ | ⟨inode, known, same⟩ <;>
        rw [same] at stored
      · exact Or.inl ⟨inode', stored, .refl _ ino inode'⟩
      · exact Or.inl ((alters inode).of_set known rfl stored)

end Mutation

/-! ### Exact sizes -/

/-- The largest size that `blocks512` rounds up without wrapping. -/
def maxExactSize : Int := 9223372036854775296

/-- The size of a regular file is one that can be rounded up, and its blocks are
the size rounded up. -/
def Inode.Exact (inode : Inode) : Prop :=
  inode.fileType = .regular → 0 ≤ inode.size ∧ inode.size ≤ maxExactSize ∧
    inode.blocks = (inode.size + 511) / 512

def Index.Exact (idx : Index) : Prop :=
  ∀ ino inode, idx.inodes.get ino = some inode → inode.Exact

theorem blocks512_of_le {size : Int} (nonneg : 0 ≤ size) (low : size ≤ maxExactSize) :
    blocks512 size = (size + 511) / 512 := by
  unfold maxExactSize at low
  unfold blocks512
  rw [wrap64_of_nonneg (by omega) (by omega), Int.tdiv_eq_ediv_of_nonneg (by omega)]

/-- An exact inode is reported as it is. -/
theorem Inode.Exact.reported {inode : Inode} (exactly : inode.Exact)
    (regular : inode.fileType = .regular) :
    0 ≤ inode.size ∧ inode.blocks = ⌈(inode.size : ℚ) / 512⌉ ∧
      ((fillAttr inode).size : Int) = inode.size ∧
      ((fillAttr inode).blocks : Int) = inode.blocks := by
  obtain ⟨nonneg, low, blocks⟩ := exactly regular
  unfold maxExactSize at low
  have ceiling := Rat.ceil_intCast_div_natCast inode.size 512
  push_cast at ceiling
  refine ⟨nonneg, ?_, toUint64_of_nonneg nonneg (by omega), toUint64_of_nonneg ?_ ?_⟩
  · rw [ceiling, blocks]
    omega
  · omega
  · omega

/-- The sizes a mutator sets can be rounded up. -/
def Mutation.SetsExactly (m : Mutation) : Prop :=
  ∀ ino size, m.SetsSize ino size → 0 ≤ size ∧ size ≤ maxExactSize

theorem Index.Exact.apply {m : Mutation} {idx idx' : Index} (exactly : idx.Exact)
    (sets : m.SetsExactly) (applied : m.apply idx = .ok idx') : idx'.Exact := by
  intro ino inode' stored regular
  rcases Mutation.alters applied stored with ⟨inode, known, alters⟩ | ⟨-, size, blocks⟩
  · have wasRegular := alters.fileType.symm.trans regular
    rcases alters.size wasRegular with ⟨size, blocks⟩ | ⟨given, rounded⟩
    · rw [size, blocks]
      exact exactly ino inode known wasRegular
    · obtain ⟨nonneg, low⟩ := sets ino inode'.size given
      exact ⟨nonneg, low, rounded.trans (blocks512_of_le nonneg low)⟩
  · rw [size, blocks]
    decide

/-- The sizes that a call is about to set can be rounded up. -/
def Call.SizesExactly : Call → Prop
  | .setattr _ input _ => input.has 8 = true → (input.size : Int) ≤ maxExactSize
  | .write _ data off _ | .writeSpace _ data off _ _ | .writeAppend _ data off _ =>
      0 ≤ off ∧ off + data.length ≤ maxExactSize
  | .writeRecord _ _ ext _ =>
      0 ≤ ext.fileOffset ∧ 0 ≤ ext.length ∧ ext.fileOffset + ext.length ≤ maxExactSize
  | .mutate _ => False
  | _ => True

instance (c : Call) : Decidable c.SizesExactly := by
  induction c using Call.casesOn <;> dsimp only [Call.SizesExactly] <;> infer_instance

theorem Call.SizesExactly.sets {c : Call} (sizes : c.SizesExactly) {m : Mutation}
    (asks : c.effect = .mutate m) : m.SetsExactly := by
  intro ino size given
  cases c <;> cases asks <;> try exact given.elim
  case setattr target input now =>
    obtain ⟨-, given⟩ := given
    simp only [SetAttrIn.change] at given
    split_ifs at given with flagged
    have low := sizes flagged
    unfold maxExactSize at low ⊢
    rw [wrap64_of_nonneg (by omega) (by omega)] at given
    cases given
    exact ⟨by omega, low⟩
  case writeRecord target data ext now =>
    obtain ⟨-, rfl⟩ := given
    obtain ⟨start, nonneg, low⟩ := sizes
    unfold maxExactSize at low ⊢
    unfold Extent.fileEnd
    rw [wrap64_of_nonneg (by omega) (by omega)]
    exact ⟨by omega, low⟩
  case mutate => exact sizes.elim

theorem Call.SizesExactly.of_follows {cfg : Config} {d d' : Daemon} {c c' : Call} {o : Oracle}
    {a : Answer} (sizes : c.SizesExactly) (applied : d.apply c.effect o = some (d', a))
    (follows : c.Follows cfg a c') : c'.SizesExactly := by
  cases follows
  case writeSpace => exact sizes
  case writeInside => exact sizes
  case writeAppend => exact sizes
  case writeRecord ino data off now ext =>
    obtain ⟨start, -, -, rfl, -⟩ := Daemon.apply_append applied
    exact ⟨sizes.1, Int.natCast_nonneg _, sizes.2⟩
  case readFirst | readNext =>
    unfold nextRead
    split <;> trivial
  all_goals trivial

theorem Index.Exact.of_apply {d d' : Daemon} {c : Call} {o : Oracle} {a : Answer}
    (exactly : d.idx.Exact) (sizes : c.SizesExactly)
    (applied : d.apply c.effect o = some (d', a)) : d'.idx.Exact := by
  refine Daemon.idx_rule (P := Index.Exact) applied exactly exactly exactly ?_
  intro m idx' asks done
  exact exactly.apply (sizes.sets asks) done

/-- Requests whose sizes can be rounded up: a `Setattr` of at most
`maxExactSize`, a `Write` that ends there at the latest. -/
def exactRequests {M : Type} (_ : Pool Daemon Call M) : Event Call Oracle → Prop
  | .spawn c => c.IsRequest ∧ c.SizesExactly
  | .run _ _ => True

instance {M : Type} (pool : Pool Daemon Call M) (event : Event Call Oracle) :
    Decidable (exactRequests pool event) := by
  induction event using Event.casesOn <;> dsimp only [exactRequests] <;> infer_instance

/-- No call is under way and the sizes are exact, as in an empty filesystem. -/
def ExactStart (pool : Pool Daemon Call Unit) : Prop :=
  pool.threads = [] ∧ pool.shared.idx.Exact

theorem freshDaemon_exact (maxChunkSize blockSize now : Int) (cached : Bool) :
    ExactStart ⟨freshDaemon maxChunkSize blockSize now cached, [], ()⟩ := by
  refine ⟨rfl, fun ino inode stored regular => ?_⟩
  simp only [freshDaemon, Index.new, GoMap.get_set, GoMap.get_empty] at stored
  split_ifs at stored
  cases stored
  cases regular

/-- In every run of such requests every regular file has a size that is not
negative, its blocks are the size divided by 512 and rounded up, and both are
reported as they are. -/
theorem sizes_reported_exactly {cfg : Config} {pool : Pool Daemon Call Unit}
    (reached : Reachable (daemonSys cfg) noRecord ExactStart exactRequests pool) :
    ∀ ino inode, pool.shared.idx.inodes.get ino = some inode → inode.fileType = .regular →
      0 ≤ inode.size ∧ inode.blocks = ⌈(inode.size : ℚ) / 512⌉ ∧
        ((fillAttr inode).size : Int) = inode.size ∧
        ((fillAttr inode).blocks : Int) = inode.blocks := by
  have invariant : pool.shared.idx.Exact ∧ ∀ c ∈ pool.threads, c.SizesExactly := by
    refine Reachable.local_invariant (fun d _ => d.idx.Exact) (fun _ _ c => c.SizesExactly)
      ?_ ?_ ?_ reached
    · rintro pool ⟨idle, exactly⟩
      refine ⟨exactly, fun c member => ?_⟩
      rw [idle] at member
      cases member
    · rintro pool c - ⟨-, sizes⟩
      exact sizes
    · rintro d m before c after o d' a exactly each - applied
      have sizes := each c (by simp)
      refine ⟨exactly.of_apply sizes applied, fun c' continues => ?_, fun u member => ?_⟩
      · exact sizes.of_follows applied (Call.follows_of_resume continues)
      · exact each u (mem_of_mem_others c member)
  exact fun ino inode stored regular => (invariant.1 ino inode stored).reported regular

/-- A file of three bytes is cut to the largest size, and a byte is written. -/
def resized : List (Event Call Oracle) :=
  (Call.make .regular 1 [97] 0o644 0 0 1).alone 3 ++ (Call.write 2 [7, 8, 9] 0 2).alone 4 ++
    (Call.setattr 2 { valid := 8, size := 9223372036854775296 } 3).alone 2

theorem sizes_reported_exactly_resized :
    ∃ pool : Pool Daemon Call Unit,
      (pool.shared.idx.inodes.get 2).map (fun inode => (inode.size, inode.blocks)) =
        some (9223372036854775296, 18014398509481983) ∧
      ∀ ino inode, pool.shared.idx.inodes.get ino = some inode → inode.fileType = .regular →
        0 ≤ inode.size ∧ inode.blocks = ⌈(inode.size : ℚ) / 512⌉ ∧
          ((fillAttr inode).size : Int) = inode.size ∧
          ((fillAttr inode).blocks : Int) = inode.blocks := by
  have ends : ((daemonSys sampleConfig).run noRecord exactRequests
      ⟨freshDaemon 8 4096 0 false, [], ()⟩ resized).map (fun pool =>
        (pool.shared.idx.inodes.get 2).map fun inode => (inode.size, inode.blocks)) =
      some (some (9223372036854775296, 18014398509481983)) := by decide +kernel
  obtain ⟨pool, finished, sizes⟩ := Option.map_eq_some_iff.mp ends
  exact ⟨pool, sizes, sizes_reported_exactly
    (.of_run (.start (freshDaemon_exact 8 4096 0 false)) finished)⟩

/-- A new file is given a size, as the kernel passes it. -/
def resizedTo (size : Nat) : List (Event Call Oracle) :=
  (Call.make .regular 1 [97] 0o644 0 0 1).alone 3 ++
    (Call.setattr 2 { valid := 8, size := size } 2).alone 2

/-- The largest `int64` is rounded up to a negative number of blocks, and a larger
size is stored as a negative one. -/
theorem set_sizes_wrap :
    (∃ pool : Pool Daemon Call Unit,
      Reachable (daemonSys sampleConfig) noRecord ExactStart requestsOnly pool ∧
      (pool.shared.idx.inodes.get 2).map (fun inode =>
        (inode.fileType, inode.size, inode.blocks)) =
          some (.regular, 9223372036854775807, -18014398509481983)) ∧
    ∃ pool : Pool Daemon Call Unit,
      Reachable (daemonSys sampleConfig) noRecord ExactStart requestsOnly pool ∧
      (pool.shared.idx.inodes.get 2).map (fun inode => (inode.fileType, inode.size)) =
        some (.regular, -1) := by
  have largest : ((daemonSys sampleConfig).run noRecord requestsOnly
      ⟨freshDaemon 8 4096 0 false, [], ()⟩ (resizedTo 9223372036854775807)).map (fun pool =>
        (pool.shared.idx.inodes.get 2).map fun inode =>
          (inode.fileType, inode.size, inode.blocks)) =
      some (some (.regular, 9223372036854775807, -18014398509481983)) := by decide +kernel
  have larger : ((daemonSys sampleConfig).run noRecord requestsOnly
      ⟨freshDaemon 8 4096 0 false, [], ()⟩ (resizedTo 18446744073709551615)).map (fun pool =>
        (pool.shared.idx.inodes.get 2).map fun inode => (inode.fileType, inode.size)) =
      some (some (.regular, -1)) := by decide +kernel
  obtain ⟨first, finished, sizes⟩ := Option.map_eq_some_iff.mp largest
  obtain ⟨second, finished', size⟩ := Option.map_eq_some_iff.mp larger
  exact ⟨⟨first, .of_run (.start (freshDaemon_exact 8 4096 0 false)) finished, sizes⟩,
    second, .of_run (.start (freshDaemon_exact 8 4096 0 false)) finished', size⟩

/-! ### Times -/

/-- The times that `Setattr` can set. -/
inductive TimeField where
  | atime
  | mtime
deriving DecidableEq, Repr

namespace TimeField

/-- `FATTR_ATIME`, `FATTR_MTIME`. -/
def flag : TimeField → UInt32
  | .atime => 16
  | .mtime => 32

/-- The seconds and nanoseconds that the kernel passes. -/
def passed (input : SetAttrIn) : TimeField → Nat × Nat
  | .atime => (input.atime, input.atimensec)
  | .mtime => (input.mtime, input.mtimensec)

/-- The time kept in the inode. -/
def kept (inode : Inode) : TimeField → Int
  | .atime => inode.atime
  | .mtime => inode.mtime

/-- The seconds and nanoseconds that are reported. -/
def reported (attr : Attr) : TimeField → Nat × Nat
  | .atime => (attr.atime, attr.atimensec)
  | .mtime => (attr.mtime, attr.mtimensec)

/-- The step sets the time of `ino`. -/
def SetBy (ino : Ino) : TimeField → Effect → Prop
  | .atime, .mutate m => m.SetsAtime ino
  | .mtime, .mutate m => m.SetsMtime ino
  | _, _ => False

theorem reported_fillAttr (field : TimeField) (inode : Inode) :
    field.reported (fillAttr inode) =
      (seconds (field.kept inode), nanoseconds (field.kept inode)) := by
  cases field <;> rfl

/-- What `SetAttr` stores for a flagged time, unless it also changes the size. -/
theorem kept_apply {field : TimeField} {input : SetAttrIn} (flagged : input.has field.flag = true)
    {inode : Inode} (sameSize : ∀ size ∈ input.change.size, size = inode.size) (now : Int) :
    field.kept (input.change.apply now inode) =
      SetAttrIn.nanos (field.passed input).1 (field.passed input).2 := by
  cases field with
  | atime =>
      have given : input.change.atime = some (SetAttrIn.nanos input.atime input.atimensec) := by
        unfold SetAttrIn.change
        exact if_pos flagged
      have stored := Mutation.atime_apply input.change now inode
      rw [given, Option.getD_some] at stored
      exact stored
  | mtime =>
      have given : input.change.mtime = some (SetAttrIn.nanos input.mtime input.mtimensec) := by
        unfold SetAttrIn.change
        exact if_pos flagged
      have stored := Mutation.mtime_apply sameSize now
      rw [given, Option.getD_some] at stored
      exact stored

/-- A step that does not set the time leaves it, or the inode is gone. -/
theorem kept_of_apply {field : TimeField} {d d' : Daemon} {e : Effect} {o : Oracle} {a : Answer}
    {ino : Ino} {t : Int} (applied : d.apply e o = some (d', a)) (leaves : ¬ field.SetBy ino e)
    (old : ino < d.idx.nextIno)
    (holds : ∀ inode, d.idx.inodes.get ino = some inode → field.kept inode = t) :
    ∀ inode, d'.idx.inodes.get ino = some inode → field.kept inode = t := by
  refine Daemon.idx_rule (P := fun idx => ∀ inode, idx.inodes.get ino = some inode →
    field.kept inode = t) applied holds holds holds ?_
  rintro m idx' rfl done inode' stored
  rcases Mutation.alters done stored with ⟨inode, known, alters⟩ | ⟨isNew, -⟩
  · rw [← holds inode known]
    cases field with
    | atime => exact alters.atime.resolve_right leaves
    | mtime => exact alters.mtime.resolve_right leaves
  · exact absurd isNew (Nat.ne_of_lt old)

end TimeField

/-- The nanoseconds since the epoch that `Setattr` computes from what the kernel
passes: a negative number of seconds as its two's complement. -/
theorem nanos_toUint64 {s : Int} {ns : Nat} (range : IsInt64 s)
    (fits : IsInt64 (s * 1000000000 + ns)) :
    SetAttrIn.nanos (toUint64 s) ns = s * 1000000000 + ns := by
  unfold SetAttrIn.nanos
  rw [wrap64_toUint64 range]
  unfold IsInt64 at fits
  unfold wrap64
  omega

/-- Truncating division takes the time apart again for times since the epoch and
for whole seconds before it, and for no others. -/
theorem split_time_iff {s : Int} {ns : Nat} (below : ns < 1000000000) :
    (seconds (s * 1000000000 + ns), nanoseconds (s * 1000000000 + ns)) = (toUint64 s, ns) ↔
      0 ≤ s ∨ ns = 0 := by
  constructor
  · intro same
    by_contra before
    obtain ⟨negative, positive⟩ := not_or.mp before
    have remainder : (s * 1000000000 + ns).tmod 1000000000 = ns - 1000000000 := by
      rw [Int.tmod_eq_emod, if_neg (by omega)]
      omega
    have wrong : nanoseconds (s * 1000000000 + ns) = ns := congrArg Prod.snd same
    unfold nanoseconds toUint32 at wrong
    rw [remainder] at wrong
    omega
  · intro whole
    have quotient : (s * 1000000000 + ns).tdiv 1000000000 = s := by
      rw [Int.tdiv_eq_ediv, if_pos (by omega)]
      omega
    have remainder : (s * 1000000000 + ns).tmod 1000000000 = ns := by
      rw [Int.tmod_eq_emod, if_pos (by omega)]
      omega
    unfold seconds nanoseconds
    rw [quotient, remainder]
    unfold toUint32
    rw [Prod.mk.injEq]
    exact ⟨rfl, by omega⟩

/-- The replies of `Setattr`, each with its inode number. -/
def noteReplies (replies : List (Ino × Attr)) : Call → Answer → List (Ino × Attr)
  | .setattrAttr ino, .inode (some inode) => replies ++ [(ino, fillAttr inode)]
  | _, _ => replies

/-- A moment when no reply has been noted yet. -/
def AtMoment (d : Daemon) (pool : Pool Daemon Call (List (Ino × Attr))) : Prop :=
  pool.shared = d ∧ pool.record = []

/-- No step sets the time. -/
def leavesTime {M : Type} (field : TimeField) (ino : Ino) (pool : Pool Daemon Call M) :
    Event Call Oracle → Prop
  | .spawn _ => True
  | .run i _ => ∀ c ∈ pool.threads[i]?, ¬ field.SetBy ino c.effect

/-- Every attribute record that shows the file until the time is set again, of
`Getattr` at any moment and of every `Setattr`, is filled from an inode with that
time. -/
theorem reports_kept_time {cfg : Config} {field : TimeField} {d : Daemon} {ino : Ino} {t : Int}
    (old : ino < d.idx.nextIno)
    (holds : ∀ inode, d.idx.inodes.get ino = some inode → field.kept inode = t)
    {pool : Pool Daemon Call (List (Ino × Attr))}
    (reached : Reachable (daemonSys cfg) noteReplies (AtMoment d) (leavesTime field ino) pool) :
    (∀ inode, pool.shared.idx.inodes.get ino = some inode → field.kept inode = t) ∧
      ∀ reply ∈ pool.record, reply.1 = ino →
        field.reported reply.2 = (seconds t, nanoseconds t) := by
  have invariant : (ino < pool.shared.idx.nextIno ∧
      (∀ inode, pool.shared.idx.inodes.get ino = some inode → field.kept inode = t) ∧
      ∀ reply ∈ pool.record, reply.1 = ino → field.reported reply.2 = (seconds t, nanoseconds t)) ∧
      ∀ c ∈ pool.threads, True := by
    refine Reachable.local_invariant (fun d replies => ino < d.idx.nextIno ∧
      (∀ inode, d.idx.inodes.get ino = some inode → field.kept inode = t) ∧
      ∀ reply ∈ replies, reply.1 = ino → field.reported reply.2 = (seconds t, nanoseconds t))
      (fun _ _ _ => True) ?_ (fun _ _ _ _ => trivial) ?_ reached
    · rintro pool ⟨rfl, empty⟩
      rw [empty]
      exact ⟨⟨old, holds, nofun⟩, fun _ _ => trivial⟩
    · rintro d replies before c after o d' a ⟨known, holds, noted⟩ - admitted applied
      have leaves := admitted c (by
        rw [List.getElem?_append_right le_rfl, Nat.sub_self]
        rfl)
      refine ⟨⟨known.trans_le (Daemon.nextIno_le applied),
        TimeField.kept_of_apply applied leaves known holds, ?_⟩, fun _ _ => trivial,
        fun _ _ => trivial⟩
      unfold noteReplies
      split
      next target inode =>
        obtain ⟨-, found⟩ := Daemon.apply_getInode (o := o) applied
        intro reply member isIt
        rcases List.mem_append.mp member with early | last
        · exact noted reply early isIt
        · cases List.mem_singleton.mp last
          cases isIt
          rw [TimeField.reported_fillAttr, holds inode found]
      next => exact noted
  exact invariant.1.2

/-- After a `Setattr` that sets a time to `s` seconds and `ns` nanoseconds and does
not change the size, its reply and every `Getattr` until the time is set again
report exactly these if and only if the time is not before the epoch or has no
nanoseconds. -/
theorem set_time_reported_iff {cfg : Config} {field : TimeField} {d d' : Daemon} {ino : Ino}
    {input : SetAttrIn} {now : Int} {o : Oracle} {inode : Inode} {s : Int} {ns : Nat}
    (known : d.idx.inodes.get ino = some inode) (old : ino < d.idx.nextIno)
    (flagged : input.has field.flag = true) (passed : field.passed input = (toUint64 s, ns))
    (range : IsInt64 s) (below : ns < 1000000000) (fits : IsInt64 (s * 1000000000 + ns))
    (sameSize : ∀ size ∈ input.change.size, size = inode.size)
    (applied : d.apply (Call.setattr ino input now).effect o = some (d', .done)) :
    (∀ pool : Pool Daemon Call (List (Ino × Attr)),
      Reachable (daemonSys cfg) noteReplies (AtMoment d') (leavesTime field ino) pool →
        (∀ out, getattr pool.shared.idx ino = .ok out →
          field.reported out.attr = (toUint64 s, ns)) ∧
        ∀ reply ∈ pool.record, reply.1 = ino → field.reported reply.2 = (toUint64 s, ns)) ↔
      0 ≤ s ∨ ns = 0 := by
  obtain ⟨idx', done, rfl⟩ : ∃ idx', d.idx.setAttr ino input.change now = .ok idx' ∧
      d' = { d with idx := idx' } := by
    rcases Daemon.apply_mutate applied with ⟨idx', done, same, -⟩ | ⟨-, ⟨_, failed⟩ | failed⟩
    · exact ⟨idx', done, same⟩
    · cases failed
    · cases failed
  obtain ⟨found, isIt, rfl⟩ := Index.setAttr_ok done
  cases known.symm.trans isIt
  have stored := GoMap.get_set_self d.idx.inodes ino (input.change.apply now inode)
  have time : field.kept (input.change.apply now inode) = s * 1000000000 + ns := by
    rw [TimeField.kept_apply flagged sameSize, passed, nanos_toUint64 range fits]
  rw [← split_time_iff below]
  constructor
  · intro exactly
    -- The moment right after the step is one of the run.
    have first := (exactly ⟨_, [], []⟩ (.start ⟨rfl, rfl⟩)).1
      ⟨fillAttr (input.change.apply now inode), 5⟩ (by
        unfold getattr Index.getInode
        simp only [Index.touched]
        rw [stored])
    rw [TimeField.reported_fillAttr, time] at first
    exact first
  · intro whole pool reached
    have kept : ∀ shown,
        (d.idx.inodes.set ino (input.change.apply now inode)).get ino = some shown →
        field.kept shown = s * 1000000000 + ns := by
      intro shown isIt
      cases stored.symm.trans isIt
      exact time
    obtain ⟨holds, noted⟩ := reports_kept_time (by exact old) (by exact kept) reached
    refine ⟨fun out answered => ?_, fun reply member isIt => ?_⟩
    · obtain ⟨inode', shown, filled⟩ := getattr_ok answered
      rw [filled, TimeField.reported_fillAttr, holds inode' shown]
      exact whole
    · rw [noted reply member isIt]
      exact whole

/-- An empty filesystem after `SetAttr` on its root. -/
def rootChanged (input : SetAttrIn) : Daemon :=
  ((freshDaemon 8 4096 0 false).mutate (.setAttr 1 input.change 1)).1

/-- Two seconds before the epoch, as a whole number of seconds. -/
def twoSecondsBefore : SetAttrIn := { valid := 32, mtime := 18446744073709551614 }

theorem set_time_reported_iff_before :
    TimeField.mtime.passed twoSecondsBefore = (toUint64 (-2), 0) ∧
      ∀ pool : Pool Daemon Call (List (Ino × Attr)),
        Reachable (daemonSys sampleConfig) noteReplies (AtMoment (rootChanged twoSecondsBefore))
          (leavesTime .mtime 1) pool →
          (∀ out, getattr pool.shared.idx 1 = .ok out →
            TimeField.mtime.reported out.attr = (toUint64 (-2), 0)) ∧
          ∀ reply ∈ pool.record, reply.1 = 1 →
            TimeField.mtime.reported reply.2 = (toUint64 (-2), 0) := by
  have passed : TimeField.mtime.passed twoSecondsBefore = (toUint64 (-2), 0) := by decide
  have applied : (freshDaemon 8 4096 0 false).apply (Call.setattr 1 twoSecondsBefore 1).effect {} =
      some (rootChanged twoSecondsBefore, .done) := rfl
  have noSize : twoSecondsBefore.change.size = none := rfl
  exact ⟨passed, (set_time_reported_iff rfl (by decide) (by decide) passed (by decide) (by decide)
    (by decide) (by rw [noSize]; nofun) applied).mpr (Or.inr rfl)⟩

/-- Half a second before the epoch: minus one second and half a second. -/
def halfSecondBefore : SetAttrIn :=
  { valid := 16, atime := 18446744073709551615, atimensec := 500000000 }

/-- It is reported as zero seconds and more than three seconds of nanoseconds. -/
theorem half_second_before_reported :
    TimeField.atime.passed halfSecondBefore = (toUint64 (-1), 500000000) ∧
      (getattr (rootChanged halfSecondBefore).idx 1).toOption.map
        (fun out => TimeField.atime.reported out.attr) = some (0, 3794967296) := by
  decide +kernel

end Fusey
