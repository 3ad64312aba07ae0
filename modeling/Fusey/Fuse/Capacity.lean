import Mathlib.Algebra.BigOperators.Ring.Finset
import Fusey.Fuse.Attributes

/-!
Contract: the capacity limit `maxFSSize` over whole runs.

Owns:
- the exact total of the sizes of the regular files, of which `UsedBytes` is the
  wrapped value, and what every mutator does to it;
- what a `Write` knows about the total between its check and its record;
- that the limit holds in every run in which no size changes under a write that
  has passed its check, and in which every `Setattr` sets a size that fits;
- a `Setattr` on an empty filesystem that passes the limit.
-/

set_option autoImplicit false

namespace Fusey

open GoInt Interleaving

namespace Index

variable {idx idx' : Index}

/-! ### The total -/

/-- What an inode counts: the size of a regular file. -/
def weight (_ : Ino) (inode : Inode) : Nat :=
  if inode.fileType = .regular then inode.size.toNat else 0

/-- The sum of the sizes of the regular files. -/
def total (idx : Index) : Nat := idx.inodes.sum weight

/-- No regular file has a negative size. -/
def NonnegSizes (idx : Index) : Prop :=
  ∀ ino inode, idx.inodes.get ino = some inode → inode.fileType = .regular → 0 ≤ inode.size

/-- The exact sum that `UsedBytes` wraps. -/
def sizeSum (idx : Index) : Int :=
  (idx.inodes.entries.map fun entry =>
    if entry.2.fileType = .regular then entry.2.size else 0).sum

theorem sizeSum_eq (nonneg : idx.NonnegSizes) : idx.sizeSum = idx.total := by
  unfold sizeSum total GoMap.sum
  rw [Nat.cast_multiset_sum, Multiset.map_map]
  congr 1
  refine Multiset.map_congr rfl fun entry member => ?_
  have stored := GoMap.mem_entries.mp member
  simp only [Function.comp_apply, weight]
  split_ifs with regular
  · have := nonneg entry.1 entry.2 stored regular
    omega
  · rfl

theorem usedBytes_eq (nonneg : idx.NonnegSizes) : idx.usedBytes = wrap64 idx.total := by
  rw [← sizeSum_eq nonneg]
  rfl

/-! ### What the mutators do to it -/

/-- No file has changed its size: every inode is an old one of the same type and
size, or a new empty one; the total has not grown. -/
structure SizesKept (idx idx' : Index) : Prop where
  inodes : ∀ ino inode', idx'.inodes.get ino = some inode' →
    (∃ inode, idx.inodes.get ino = some inode ∧ inode'.fileType = inode.fileType ∧
      (inode.fileType = .regular → inode'.size = inode.size)) ∨
    idx.nextIno ≤ ino ∧ (inode'.fileType = .regular → inode'.size = 0)
  total : idx'.total ≤ idx.total
  nextIno : idx.nextIno ≤ idx'.nextIno

/-- What holds of every inode gives the total. -/
theorem SizesKept.of_inodes (nextIno : idx.nextIno ≤ idx'.nextIno)
    (inodes : ∀ ino inode', idx'.inodes.get ino = some inode' →
      (∃ inode, idx.inodes.get ino = some inode ∧ inode'.fileType = inode.fileType ∧
        (inode.fileType = .regular → inode'.size = inode.size)) ∨
      idx.nextIno ≤ ino ∧ (inode'.fileType = .regular → inode'.size = 0)) :
    SizesKept idx idx' where
  inodes := inodes
  total := by
    refine GoMap.sum_le_sum fun ino inode' stored => ?_
    rcases inodes ino inode' stored with ⟨inode, known, type, size⟩ | ⟨-, empty⟩
    · rw [known, Option.elim_some, weight, weight, type]
      split_ifs with regular
      · rw [size regular]
      · exact le_rfl
    · rw [weight]
      split_ifs with regular
      · rw [empty regular]
        exact Nat.zero_le _
      · exact Nat.zero_le _
  nextIno := nextIno

theorem SizesKept.of_same (same : idx'.inodes = idx.inodes) (counter : idx'.nextIno = idx.nextIno) :
    SizesKept idx idx' :=
  .of_inodes counter.ge fun _ inode' stored => Or.inl ⟨inode', same ▸ stored, rfl, fun _ => rfl⟩

/-- The total after one inode is replaced. -/
theorem total_set {ino : Ino} {old new : Inode} (stored : idx.inodes.get ino = some old)
    (changed : idx'.inodes = idx.inodes.set ino new) :
    weight ino old + idx'.total = weight ino new + idx.total := by
  unfold Index.total
  rw [changed]
  exact GoMap.sum_set_of_some stored new weight

end Index

open Index in
/-- A mutator that changes the size of no regular file. -/
theorem Mutation.sizesKept {m : Mutation} {idx idx' : Index} (applied : m.apply idx = .ok idx')
    (same : ∀ ino inode inode', idx.inodes.get ino = some inode →
      idx'.inodes.get ino = some inode' → inode.fileType = .regular →
        m.SetsSize ino inode'.size → inode'.size = inode.size) : SizesKept idx idx' := by
  refine .of_inodes (Mutation.nextIno_le applied) fun ino inode' stored => ?_
  rcases Mutation.alters applied stored with ⟨inode, known, alters⟩ | ⟨isNew, empty, -⟩
  · refine Or.inl ⟨inode, known, alters.fileType, fun regular => ?_⟩
    rcases alters.size regular with ⟨size, -⟩ | ⟨sets, -⟩
    · exact size
    · exact same ino inode inode' known stored regular sets
  · exact Or.inr ⟨isNew.ge, fun _ => empty⟩

open Index in
/-- What a mutator does to the sizes: it keeps them, or it is a `SetAttr` or a
`WriteExtent` that replaces one regular inode by one of another size. -/
theorem Mutation.sizes {m : Mutation} {idx idx' : Index} (applied : m.apply idx = .ok idx') :
    SizesKept idx idx' ∨
      ∃ ino old new, idx.inodes.get ino = some old ∧ old.fileType = .regular ∧
        new.fileType = .regular ∧ idx'.inodes = idx.inodes.set ino new ∧
        new.size ≠ old.size ∧
        ((∃ change now, m = .setAttr ino change now ∧ change.size = some new.size) ∨
          ∃ ext now, m = .writeExtent ino ext now ∧ old.size < ext.fileEnd ∧
            new.size = ext.fileEnd) := by
  cases m with
  | setAttr ino change now =>
      obtain ⟨inode, stored, rfl⟩ := setAttr_ok applied
      have alters := Mutation.alters_setAttr ino change now inode
      by_cases changes : inode.fileType = .regular ∧ (change.apply now inode).size ≠ inode.size
      · obtain ⟨regular, differs⟩ := changes
        refine Or.inr ⟨ino, inode, _, stored, regular, alters.fileType.trans regular, rfl, differs,
          Or.inl ⟨change, now, rfl, ?_⟩⟩
        rcases alters.size regular with ⟨size, -⟩ | ⟨sets, -⟩
        · exact absurd size differs
        · exact sets.2
      · refine Or.inl (Mutation.sizesKept applied fun other old new known found regular sets => ?_)
        obtain ⟨rfl, -⟩ := sets
        cases stored.symm.trans known
        cases (GoMap.get_set_self _ _ _).symm.trans found
        exact not_not.mp fun differs => changes ⟨regular, differs⟩
  | writeExtent ino ext now =>
      obtain ⟨inode, stored, regular, rfl⟩ := writeExtent_ok applied
      by_cases beyond : ext.fileEnd > inode.size
      · refine Or.inr ⟨ino, inode, _, stored, regular, ?_, rfl, ?_,
          Or.inr ⟨ext, now, rfl, beyond, ?_⟩⟩
        · simp only [recordWrite, if_pos beyond, regular]
        · simp only [recordWrite, if_pos beyond]
          omega
        · simp only [recordWrite, if_pos beyond]
      · refine Or.inl (Mutation.sizesKept applied fun other old new known found _ sets => ?_)
        obtain ⟨rfl, -⟩ := sets
        cases stored.symm.trans known
        cases (GoMap.get_set_self _ _ _).symm.trans found
        simp only [recordWrite, if_neg beyond]
  | _ => exact Or.inl (Mutation.sizesKept applied fun _ _ _ _ _ _ sets => sets.elim)

/-! ### What a write knows -/

/-- The limit is kept: no negative sizes, and the total within it. -/
structure Index.Capped (maxFSSize : Int) (idx : Index) : Prop where
  nonneg : idx.NonnegSizes
  total : (idx.total : Int) ≤ maxFSSize
  numbered : ∀ ino inode, idx.inodes.get ino = some inode → ino < idx.nextIno

/-- If the file is still there, growing it to end at `fin` keeps the limit. -/
def Index.HasRoom (maxFSSize : Int) (idx : Index) (ino : Ino) (fin : Int) : Prop :=
  ino < idx.nextIno ∧ ∀ inode, idx.inodes.get ino = some inode → inode.fileType = .regular →
    idx.total + max 0 (fin - inode.size) ≤ maxFSSize

/-- What a write knows: before `UsedBytes`, by how much the file grows; then,
that there is room for it. -/
def Call.Fits (maxFSSize : Int) (idx : Index) : Call → Prop
  | .write _ data off _ => off + data.length + maxFSSize < 9223372036854775808
  | .writeSpace ino data off delta _ =>
      off + data.length + maxFSSize < 9223372036854775808 ∧ ino < idx.nextIno ∧
        ∀ inode, idx.inodes.get ino = some inode → inode.fileType = .regular →
          0 < delta ∧ delta = off + data.length - inode.size
  | .writeAppend ino data off _ => off + data.length < 9223372036854775808 ∧
      idx.HasRoom maxFSSize ino (off + data.length)
  | .writeRecord ino _ ext _ => idx.HasRoom maxFSSize ino ext.fileEnd
  | .mutate _ => False
  | _ => True

/-- A write that has read the size of its file and not yet recorded its extent. -/
def Call.IsWriting : Call → Prop
  | .writeSpace .. | .writeAppend .. | .writeRecord .. => True
  | _ => False

instance (c : Call) : Decidable c.IsWriting := by
  induction c using Call.casesOn <;> dsimp only [Call.IsWriting] <;> infer_instance

/-- The next step changes the size of a regular file. -/
def Call.Resizes (idx : Index) : Call → Prop
  | .setattr ino input _ => ∃ inode ∈ idx.inodes.get ino, inode.fileType = .regular ∧
      ∃ size ∈ input.change.size, size ≠ inode.size
  | .writeRecord ino _ ext _ => ∃ inode ∈ idx.inodes.get ino, inode.fileType = .regular ∧
      inode.size < ext.fileEnd
  | _ => False

instance (idx : Index) (c : Call) : Decidable (c.Resizes idx) := by
  induction c using Call.casesOn <;> dsimp only [Call.Resizes] <;> infer_instance

/-- A size that `Setattr` sets is one that fits. -/
def Call.SetsFitting (maxFSSize : Int) (idx : Index) : Call → Prop
  | .setattr ino input _ => ∀ inode ∈ idx.inodes.get ino, inode.fileType = .regular →
      ∀ size ∈ input.change.size, 0 ≤ size ∧ idx.total - inode.size + size ≤ maxFSSize
  | _ => True

instance (maxFSSize : Int) (idx : Index) (c : Call) : Decidable (c.SetsFitting maxFSSize idx) := by
  induction c using Call.casesOn <;> dsimp only [Call.SetsFitting] <;> infer_instance

section Steps

variable {cfg : Config} {d d' : Daemon} {o : Oracle} {a : Answer} {c : Call}

open Index

/-- What a step does to the sizes. -/
theorem Daemon.sizes_of_apply (scripted : ∀ m, c ≠ .mutate m)
    (applied : d.apply c.effect o = some (d', a)) :
    SizesKept d.idx d'.idx ∨
      c.Resizes d.idx ∧ ∃ ino old new, d.idx.inodes.get ino = some old ∧
        old.fileType = .regular ∧ new.fileType = .regular ∧
        d'.idx.inodes = d.idx.inodes.set ino new ∧
        ((∃ input now, c = .setattr ino input now ∧ input.change.size = some new.size) ∨
          ∃ data ext now, c = .writeRecord ino data ext now ∧ old.size < ext.fileEnd ∧
            new.size = ext.fileEnd) := by
  rcases Daemon.apply_idx applied with same | ⟨m, asks, done, -⟩ | ⟨-, same⟩ | ⟨-, same⟩
  · rw [same]
    exact Or.inl (.of_same rfl rfl)
  · rcases Mutation.sizes done with kept |
      ⟨ino, old, new, stored, regular, type, changed, differs,
        ⟨change, now, rfl, given⟩ | ⟨ext, now, rfl, beyond, size⟩⟩
    · exact Or.inl kept
    · cases c <;> cases asks
      · exact Or.inr ⟨⟨old, stored, regular, new.size, given, differs⟩, ino, old, new, stored,
          regular, type, changed, Or.inl ⟨_, _, rfl, given⟩⟩
      · exact absurd rfl (scripted _)
    · cases c <;> cases asks
      · exact Or.inr ⟨⟨old, stored, regular, beyond⟩, ino, old, new, stored, regular, type,
          changed, Or.inr ⟨_, _, _, rfl, beyond, size⟩⟩
      · exact absurd rfl (scripted _)
  · rw [same]
    exact Or.inl (.of_same rfl rfl)
  · rw [same]
    exact Or.inl (.of_same rfl rfl)

theorem Call.Fits.scripted (fits : c.Fits cfg.maxFSSize d.idx) (m : Mutation) : c ≠ .mutate m := by
  rintro rfl
  exact fits

theorem Index.SizesKept.nonneg {idx idx' : Index} (kept : SizesKept idx idx')
    (nonneg : idx.NonnegSizes) : idx'.NonnegSizes := by
  intro ino inode' stored regular
  rcases kept.inodes ino inode' stored with ⟨inode, known, type, size⟩ | ⟨-, empty⟩
  · rw [size (type.symm.trans regular)]
    exact nonneg ino inode known (type.symm.trans regular)
  · rw [empty regular]

/-- The weight of a regular file is its size. -/
theorem Index.weight_regular (ino : Ino) {inode : Inode} (regular : inode.fileType = .regular)
    (nonneg : 0 ≤ inode.size) : (weight ino inode : Int) = inode.size := by
  unfold weight
  rw [if_pos regular]
  omega

theorem Index.Capped.of_kept {idx idx' : Index} {maxFSSize : Int} (capped : idx.Capped maxFSSize)
    (kept : SizesKept idx idx')
    (numbered : ∀ ino inode, idx'.inodes.get ino = some inode → ino < idx'.nextIno) :
    idx'.Capped maxFSSize := by
  refine ⟨kept.nonneg capped.nonneg, ?_, numbered⟩
  have := kept.total
  have := capped.total
  omega

/-- One file has got a size that fits. -/
theorem Index.Capped.of_resized {idx idx' : Index} {maxFSSize : Int} {ino : Ino} {old new : Inode}
    (capped : idx.Capped maxFSSize) (stored : idx.inodes.get ino = some old)
    (changed : idx'.inodes = idx.inodes.set ino new) (regular : old.fileType = .regular)
    (type : new.fileType = .regular) (nonneg : 0 ≤ new.size)
    (room : idx.total - old.size + new.size ≤ maxFSSize)
    (numbered : ∀ ino inode, idx'.inodes.get ino = some inode → ino < idx'.nextIno) :
    idx'.Capped maxFSSize := by
  have moved := total_set stored changed
  have before := weight_regular ino regular (capped.nonneg ino old stored regular)
  have after := weight_regular ino type nonneg
  refine ⟨fun other inode' found isRegular => ?_, by omega, numbered⟩
  rw [changed, GoMap.get_set] at found
  split_ifs at found
  · cases found
    exact nonneg
  · exact capped.nonneg other inode' found isRegular

/-- A step that finds room keeps the limit. -/
theorem Index.Capped.of_apply (capped : d.idx.Capped cfg.maxFSSize)
    (fits : c.Fits cfg.maxFSSize d.idx) (setsFitting : c.SetsFitting cfg.maxFSSize d.idx)
    (applied : d.apply c.effect o = some (d', a))
    (numbered : ∀ ino inode, d'.idx.inodes.get ino = some inode → ino < d'.idx.nextIno) :
    d'.idx.Capped cfg.maxFSSize := by
  rcases Daemon.sizes_of_apply fits.scripted applied with
    kept | ⟨-, ino, old, new, stored, regular, type, changed, how⟩
  · exact capped.of_kept kept numbered
  · have oldSize := capped.nonneg ino old stored regular
    -- The new size is one that fits, set by `Setattr` or reached by a write.
    have room : 0 ≤ new.size ∧ d.idx.total - old.size + new.size ≤ cfg.maxFSSize := by
      rcases how with ⟨input, now, rfl, given⟩ | ⟨data, ext, now, rfl, beyond, size⟩
      · exact setsFitting old stored regular new.size given
      · have := fits.2 old stored regular
        exact ⟨by omega, by omega⟩
    exact capped.of_resized stored changed regular type room.1 room.2 numbered

theorem Index.HasRoom.of_kept {idx idx' : Index} {maxFSSize fin : Int} {ino : Ino}
    (room : idx.HasRoom maxFSSize ino fin) (kept : SizesKept idx idx') :
    idx'.HasRoom maxFSSize ino fin := by
  obtain ⟨known, room⟩ := room
  refine ⟨Nat.lt_of_lt_of_le known kept.nextIno, fun inode' stored regular => ?_⟩
  rcases kept.inodes ino inode' stored with ⟨inode, old, type, size⟩ | ⟨isNew, -⟩
  · have := room inode old (type.symm.trans regular)
    have := size (type.symm.trans regular)
    have := kept.total
    omega
  · exact absurd known (Nat.not_lt_of_le isNew)

/-- What a write knows survives a step that keeps the sizes. -/
theorem Call.Fits.of_kept {idx idx' : Index} {maxFSSize : Int} {u : Call}
    (fits : u.Fits maxFSSize idx) (kept : SizesKept idx idx') : u.Fits maxFSSize idx' := by
  cases u
  case writeSpace ino data off delta now =>
    obtain ⟨small, known, growth⟩ := fits
    refine ⟨small, Nat.lt_of_lt_of_le known kept.nextIno, fun inode' stored regular => ?_⟩
    rcases kept.inodes ino inode' stored with ⟨inode, old, type, size⟩ | ⟨isNew, -⟩
    · rw [size (type.symm.trans regular)]
      exact growth inode old (type.symm.trans regular)
    · exact absurd known (Nat.not_lt_of_le isNew)
  case writeAppend ino data off now => exact ⟨fits.1, fits.2.of_kept kept⟩
  case writeRecord ino data ext now => exact Index.HasRoom.of_kept fits kept
  all_goals exact fits

/-- Calls that are not between the size and the record know nothing of the
index. -/
theorem Call.Fits.of_not_writing {idx : Index} {maxFSSize : Int} {u : Call}
    (fits : u.Fits maxFSSize idx) (idle : ¬ u.IsWriting) (idx' : Index) :
    u.Fits maxFSSize idx' := by
  cases u <;> first | exact fits | exact absurd trivial idle

/-- The end of a write does not wrap. -/
theorem plainEnd {off : Int} (range : IsInt64 off) {data : Bytes}
    (small : off + data.length < 9223372036854775808) :
    wrap64 (off + data.length) = off + data.length := by
  apply wrap64_of_range
  unfold IsInt64 at range ⊢
  omega

/-- What a write knows when it goes on. -/
theorem Call.Fits.of_follows (limit : IsInt64 cfg.maxFSSize) (capped : d.idx.Capped cfg.maxFSSize)
    (callSound : c.Sound) (fits : c.Fits cfg.maxFSSize d.idx)
    (applied : d.apply c.effect o = some (d', a)) {c' : Call} (follows : c.Follows cfg a c') :
    c'.Fits cfg.maxFSSize d'.idx := by
  have total := capped.total
  unfold IsInt64 at limit
  cases follows
  case writeSpace ino data off now inode beyond =>
    obtain ⟨rfl, stored⟩ := Daemon.apply_getInode applied
    have small : off + data.length + cfg.maxFSSize < 9223372036854775808 := fits
    rw [plainEnd callSound (by omega)] at beyond ⊢
    refine ⟨small, capped.numbered ino inode stored, fun found known regular => ?_⟩
    rw [stored] at known
    cases known
    have nonneg := capped.nonneg ino inode stored regular
    rw [wrap64_of_nonneg (by omega) (by omega)]
    exact ⟨by omega, rfl⟩
  case writeInside ino data off now inode inside =>
    obtain ⟨rfl, stored⟩ := Daemon.apply_getInode applied
    have small : off + data.length + cfg.maxFSSize < 9223372036854775808 := fits
    rw [plainEnd callSound (by omega)] at inside
    refine ⟨by omega, capped.numbered ino inode stored, fun found known _ => ?_⟩
    rw [stored] at known
    cases known
    omega
  case writeAppend ino data off delta now used within =>
    obtain ⟨small, known, growth⟩ := fits
    cases applied
    have used : d.idx.usedBytes = d.idx.total :=
      (usedBytes_eq capped.nonneg).trans (wrap64_of_nonneg (by omega) (by omega))
    rw [used] at within
    refine ⟨by omega, known, fun inode stored regular => ?_⟩
    obtain ⟨positive, rfl⟩ := growth inode stored regular
    have nonneg := capped.nonneg ino inode stored regular
    rw [wrap64_of_nonneg (by omega) (by omega)] at within
    omega
  case writeRecord ino data off now ext =>
    have same : d'.idx = d.idx := by
      rcases Daemon.apply_idx applied with same | ⟨_, asks, -⟩ | ⟨asks, -⟩ | ⟨asks, -⟩
      · exact same
      all_goals cases asks
    obtain ⟨start, -, -, rfl, -⟩ := Daemon.apply_append applied
    have ending : Extent.fileEnd ⟨d'.cs.activeID, start.length, data.length, off⟩ =
        off + data.length := plainEnd callSound fits.1
    change d'.idx.HasRoom cfg.maxFSSize ino (Extent.fileEnd _)
    rw [ending, same]
    exact fits.2
  case readFirst | readNext =>
    unfold nextRead
    split <;> trivial
  all_goals trivial

end Steps

/-! ### Every run -/

/-- A write ends so low that no sum with a total wraps. -/
def Call.EndsLow (maxFSSize : Int) : Call → Prop
  | .write _ data off _ => off + data.length + maxFSSize < 9223372036854775808
  | _ => True

instance (maxFSSize : Int) (c : Call) : Decidable (c.EndsLow maxFSSize) := by
  induction c using Call.casesOn <;> dsimp only [Call.EndsLow] <;> infer_instance

/-- Requests start at any time, with writes that end low; a `Setattr` sets only sizes
that fit, and no step changes the size of a file while another call is between
reading a size and recording its write. -/
def sizesGuarded (cfg : Config) (pool : Pool Daemon Call Unit) : Event Call Oracle → Prop
  | .spawn c => c.IsRequest ∧ c.EndsLow cfg.maxFSSize
  | .run i _ => ∀ c ∈ pool.threads[i]?, c.SetsFitting cfg.maxFSSize pool.shared.idx ∧
      (c.Resizes pool.shared.idx → ∀ u ∈ pool.threads.eraseIdx i, ¬ u.IsWriting)

instance (cfg : Config) (pool : Pool Daemon Call Unit) (event : Event Call Oracle) :
    Decidable (sizesGuarded cfg pool event) := by
  induction event using Event.casesOn <;> dsimp only [sizesGuarded] <;> infer_instance

/-- No call is under way and the limit is kept, as in an empty filesystem. -/
def Roomy (cfg : Config) (pool : Pool Daemon Call Unit) : Prop :=
  pool.threads = [] ∧ IsInt64 cfg.maxFSSize ∧ pool.shared.Sound ∧
    pool.shared.idx.Capped cfg.maxFSSize

theorem Index.new_capped {maxFSSize : Int} (positive : 0 ≤ maxFSSize) (blockSize now : Int) :
    (Index.new blockSize now).Capped maxFSSize where
  nonneg := by
    intro ino inode stored regular
    simp only [Index.new, GoMap.get_set, GoMap.get_empty] at stored
    split_ifs at stored
    cases stored
    cases regular
  total := positive
  numbered := (Index.new_restorable blockSize now).numbered

theorem freshDaemon_roomy {cfg : Config} (positive : 0 ≤ cfg.maxFSSize)
    (limit : cfg.maxFSSize < 9223372036854775808) {maxChunkSize : Int}
    (small : maxChunkSize < 9223372036854775808) (blockSize now : Int) (cached : Bool) :
    Roomy cfg ⟨freshDaemon maxChunkSize blockSize now cached, [], ()⟩ :=
  ⟨rfl, ⟨by omega, limit⟩, freshDaemon_sound small blockSize now cached,
    Index.new_capped positive blockSize now⟩

/-- In every run in which every `Setattr` sets a size that fits and no size
changes under a write that is past its `GetInode`, the used bytes stay within
the limit. -/
theorem usedBytes_le_maxFSSize {cfg : Config} {pool : Pool Daemon Call Unit}
    (reached : Reachable (daemonSys cfg) noRecord (Roomy cfg) (sizesGuarded cfg) pool) :
    pool.shared.idx.usedBytes ≤ cfg.maxFSSize := by
  have invariant : (IsInt64 cfg.maxFSSize ∧ pool.shared.Sound ∧
      pool.shared.idx.Capped cfg.maxFSSize) ∧
      ∀ c ∈ pool.threads, c.Sound ∧ c.Fits cfg.maxFSSize pool.shared.idx := by
    refine Reachable.local_invariant
      (fun d _ => IsInt64 cfg.maxFSSize ∧ d.Sound ∧ d.idx.Capped cfg.maxFSSize)
      (fun d _ c => c.Sound ∧ c.Fits cfg.maxFSSize d.idx) ?_ ?_ ?_ reached
    · rintro pool ⟨idle, rest⟩
      refine ⟨rest, fun c member => ?_⟩
      rw [idle] at member
      cases member
    · rintro pool c - ⟨request, low⟩
      refine ⟨request.sound, ?_⟩
      cases c <;> first | exact low | exact request.elim
    · rintro d m before c after o d' a ⟨limit, sound, capped⟩ each admitted applied
      obtain ⟨callSound, fits⟩ := each c (by simp)
      obtain ⟨setsFitting, alone⟩ := admitted c (by
        rw [List.getElem?_append_right le_rfl, Nat.sub_self]
        rfl)
      have after' := sound.of_apply callSound applied
      refine ⟨⟨limit, after', capped.of_apply fits setsFitting applied after'.restorable.numbered⟩,
        fun c' continues => ?_, fun u member => ?_⟩
      · have follows := Call.follows_of_resume continues
        exact ⟨callSound.of_follows sound applied follows,
          fits.of_follows limit capped callSound applied follows⟩
      · have inPool : u ∈ before ++ c :: after := by
          simp only [List.mem_append, List.mem_cons] at member ⊢
          tauto
        obtain ⟨otherSound, knows⟩ := each u inPool
        refine ⟨otherSound, ?_⟩
        rcases Daemon.sizes_of_apply fits.scripted applied with kept | ⟨resizes, -⟩
        · exact knows.of_kept kept
        · refine knows.of_not_writing (alone resizes u ?_) _
          rw [List.eraseIdx_append_of_length_le le_rfl, Nat.sub_self]
          exact member
  obtain ⟨⟨limit, -, capped⟩, -⟩ := invariant
  have total := capped.total
  unfold IsInt64 at limit
  rw [Index.usedBytes_eq capped.nonneg, wrap64_of_nonneg (by omega) (by omega)]
  exact total

/-! ### Two runs -/

/-- A configuration with room for four bytes. -/
noncomputable def tightConfig : Config := ⟨4, false, .unary []⟩

/-- A file of three bytes, to which one byte is written while its mode changes
and another file is made. -/
def filledUp : List (Event Call Oracle) :=
  (Call.make .regular 1 [97] 0o644 0 0 1).alone 3 ++ (Call.write 2 [7, 8, 9] 0 2).alone 4 ++
    (Call.write 2 [5] 3 3).alone 3 ++
    [.spawn (.setattr 2 { valid := 1, mode := 0o600 } 4), .run 1 {},
      .spawn (.make .regular 1 [98] 0o644 0 0 5), .run 2 {}, .run 0 {}]

/-- The file fills the filesystem and no more. -/
theorem usedBytes_le_maxFSSize_filledUp :
    ∃ pool : Pool Daemon Call Unit, pool.shared.idx.usedBytes = 4 ∧
      pool.shared.idx.usedBytes ≤ tightConfig.maxFSSize := by
  have ends : ((daemonSys tightConfig).run noRecord (sizesGuarded tightConfig)
      ⟨freshDaemon 8 4096 0 false, [], ()⟩ filledUp).map (fun pool => pool.shared.idx.usedBytes) =
      some 4 := by decide +kernel
  obtain ⟨pool, finished, used⟩ := Option.map_eq_some_iff.mp ends
  exact ⟨pool, used, usedBytes_le_maxFSSize
    (.of_run (.start (freshDaemon_roomy (by decide) (by decide) (by decide) 4096 0 false))
      finished)⟩

/-- A file is made and its size set. -/
def extended : List (Event Call Oracle) :=
  (Call.make .regular 1 [97] 0o644 0 0 1).alone 3 ++
    (Call.setattr 2 { valid := 8, size := 5 } 2).alone 2

/-- `Setattr` does not look at the limit. -/
theorem setattr_exceeds_limit :
    ∃ pool : Pool Daemon Call Unit,
      Reachable (daemonSys tightConfig) noRecord (Roomy tightConfig) requestsOnly pool ∧
        ¬ pool.shared.idx.usedBytes ≤ tightConfig.maxFSSize := by
  have ends : ((daemonSys tightConfig).run noRecord requestsOnly
      ⟨freshDaemon 8 4096 0 false, [], ()⟩ extended).map (fun pool => pool.shared.idx.usedBytes) =
      some 5 := by decide +kernel
  obtain ⟨pool, finished, used⟩ := Option.map_eq_some_iff.mp ends
  refine ⟨pool, .of_run (.start
    (freshDaemon_roomy (by decide) (by decide) (by decide) 4096 0 false)) finished, ?_⟩
  rw [used]
  decide

end Fusey
