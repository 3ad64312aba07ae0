import Fusey.Fuse.Calls

/-!
Contract: what `index.Save` leaves in the cache directory, one call among others.

Owns:
- that the temporary file and the snapshot are never the same file;
- what a suspended `Save` has brought about so far: the bytes it is to write, the
  temporary file it has opened, filled or renamed;
- that its steps, and those of calls that leave its temporary file alone, keep
  this, whatever is known about the bytes.

Does not own when two `Save`s overlap.
-/

set_option autoImplicit false

namespace Fusey

/-! ### The two files -/

/-- The temporary file and the snapshot are different files that have been
created. -/
structure SnapshotDir.Neat (dir : SnapshotDir) : Prop where
  tmp : ∀ file, dir.tmp = some file → file < dir.nextFile
  current : ∀ file, dir.current = some file → file < dir.nextFile
  apart : ∀ file, dir.tmp = some file → dir.current ≠ some file

namespace SnapshotDir

variable {dir dir' : SnapshotDir} {file : Nat} {data : Bytes}

theorem empty_neat : empty.Neat := ⟨nofun, nofun, nofun⟩

theorem Neat.openTmp (neat : dir.Neat) : dir.openTmp.1.Neat := by
  unfold SnapshotDir.openTmp
  split
  next file known => exact ⟨neat.tmp, neat.current, neat.apart⟩
  next =>
    refine ⟨?_, fun file isCurrent => Nat.lt_succ_of_lt (neat.current file isCurrent), ?_⟩
    · rintro file ⟨⟩
      exact Nat.lt_succ_self _
    · rintro file ⟨⟩ isCurrent
      exact absurd (neat.current _ isCurrent) (Nat.lt_irrefl _)

theorem Neat.write (neat : dir.Neat) (file : Nat) (data : Bytes) : (dir.write file data).Neat :=
  ⟨neat.tmp, neat.current, neat.apart⟩

theorem Neat.rename (neat : dir.Neat) (renamed : dir.rename = some dir') : dir'.Neat := by
  obtain ⟨file, isTmp, rfl⟩ := Option.map_eq_some_iff.mp renamed
  refine ⟨nofun, ?_, nofun⟩
  rintro file ⟨⟩
  exact neat.tmp file isTmp

/-- Writing into another file leaves the snapshot. -/
theorem snapshot_set (other : dir.current ≠ some file) (data : Bytes) :
    ({ dir with contents := dir.contents.set file data } : SnapshotDir).snapshot =
      dir.snapshot := by
  unfold snapshot
  cases current : dir.current with
  | none => rfl
  | some kept =>
      have apart : kept ≠ file := fun same => other (same ▸ current)
      exact GoMap.get_set_ne _ _ apart

theorem Neat.openTmp_snapshot (neat : dir.Neat) : dir.openTmp.1.snapshot = dir.snapshot := by
  unfold SnapshotDir.openTmp
  split
  next file known => exact snapshot_set (neat.apart file known) []
  next =>
    exact snapshot_set (fun isCurrent => absurd (neat.current _ isCurrent) (Nat.lt_irrefl _)) []

theorem Neat.write_snapshot (neat : dir.Neat) (isTmp : dir.tmp = some file) (data : Bytes) :
    (dir.write file data).snapshot = dir.snapshot := snapshot_set (neat.apart file isTmp) _

end SnapshotDir

theorem Daemon.neat_of_apply {d d' : Daemon} {e : Effect} {o : Oracle} {a : Answer}
    (neat : d.dir.Neat) (applied : d.apply e o = some (d', a)) : d'.dir.Neat := by
  rcases Daemon.apply_dir applied with same | rfl | ⟨file, data, rfl⟩ | rfl
  · rw [same]
    exact neat
  · simp only [Daemon.apply] at applied
    split_ifs at applied <;> cases applied
    · exact neat.openTmp
    · exact neat
  · simp only [Daemon.apply] at applied
    split_ifs at applied <;> cases applied
    · exact neat.write file data
    · exact neat.write file (data.take o.cut)
  · simp only [Daemon.apply] at applied
    split_ifs at applied
    · split at applied <;> cases applied
      next dir renamed => exact neat.rename renamed
      next => exact neat
    · cases applied
      exact neat

/-! ### A suspended `Save` -/

/-- What a `Save` has brought about, when the bytes it writes have property `P`:
it has them, has an empty temporary file for them, has filled that file, or has
renamed it. -/
def Call.Saving (P : Bytes → Prop) (d : Daemon) : Call → Prop
  | .saveOpen _ data => P data
  | .saveWrite _ file data =>
      P data ∧ d.dir.tmp = some file ∧ d.dir.contents.get file = some []
  | .saveRename _ =>
      ∃ file data, P data ∧ d.dir.tmp = some file ∧ d.dir.contents.get file = some data
  | .saveMark _ => ∃ data, P data ∧ d.dir.snapshot = some data
  | _ => True

/-- The temporary file is the call's. -/
def Call.IsWritingTmp : Call → Prop
  | .saveWrite .. | .saveRename _ => True
  | _ => False

instance (c : Call) : Decidable c.IsWritingTmp := by
  induction c using Call.casesOn <;> dsimp only [Call.IsWritingTmp] <;> infer_instance

/-- The next step of the call is on the temporary file. -/
def Call.TouchesTmp : Call → Prop
  | .saveOpen .. | .saveWrite .. | .saveRename _ => True
  | _ => False

instance (c : Call) : Decidable c.TouchesTmp := by
  induction c using Call.casesOn <;> dsimp only [Call.TouchesTmp] <;> infer_instance

section Saving

variable {P Q : Bytes → Prop} {cfg : Config} {d d' : Daemon} {c c' u : Call} {o : Oracle}
  {a : Answer}

theorem Call.Saving.mono (saving : c.Saving P d) (weaker : ∀ data, P data → Q data) :
    c.Saving Q d := by
  cases c <;> try trivial
  case saveOpen saver data => exact weaker data saving
  case saveWrite saver file data => exact ⟨weaker data saving.1, saving.2⟩
  case saveRename saver =>
    obtain ⟨file, data, holds, rest⟩ := saving
    exact ⟨file, data, weaker data holds, rest⟩
  case saveMark saver =>
    obtain ⟨data, holds, rest⟩ := saving
    exact ⟨data, weaker data holds, rest⟩

/-- Only the directory matters. -/
theorem Call.Saving.of_dir (saving : c.Saving P d) (same : d'.dir = d.dir) : c.Saving P d' := by
  cases c <;> try trivial
  case saveWrite saver file data =>
    simp only [Saving, same]
    exact saving
  case saveRename saver =>
    simp only [Saving, same]
    exact saving
  case saveMark saver =>
    simp only [Saving, same]
    exact saving

/-- A call whose next step is not on the temporary file leaves the directory. -/
theorem Call.dir_of_apply (elsewhere : ¬ c.TouchesTmp)
    (applied : d.apply c.effect o = some (d', a)) :
    d'.dir = d.dir := by
  rcases Daemon.apply_dir applied with same | isOpen | ⟨file, data, isWrite⟩ | isRename
  · exact same
  · cases c <;> first | exact absurd trivial elsewhere | cases isOpen
  · cases c <;> first | exact absurd trivial elsewhere | cases isWrite
  · cases c <;> first | exact absurd trivial elsewhere | cases isRename

/-- The snapshot changes when a `Save` renames, and then it has its bytes. -/
theorem Call.Saving.snapshot (neat : d.dir.Neat) (saving : c.Saving P d)
    (applied : d.apply c.effect o = some (d', a)) :
    d'.dir.snapshot = d.dir.snapshot ∨
      ∃ saver data, c = .saveRename saver ∧ a = .done ∧ P data ∧ d'.dir.snapshot = some data := by
  by_cases touches : c.TouchesTmp
  · cases c <;> try exact touches.elim
    case saveOpen saver data =>
      simp only [Call.effect, Daemon.apply] at applied
      split_ifs at applied <;> cases applied
      · exact Or.inl neat.openTmp_snapshot
      · exact Or.inl rfl
    case saveWrite saver file data =>
      obtain ⟨-, isTmp, -⟩ := saving
      simp only [Call.effect, Daemon.apply] at applied
      split_ifs at applied <;> cases applied
      · exact Or.inl (neat.write_snapshot isTmp data)
      · exact Or.inl (neat.write_snapshot isTmp (data.take o.cut))
    case saveRename saver =>
      obtain ⟨file, data, holds, isTmp, filled⟩ := saving
      simp only [Call.effect, Daemon.apply] at applied
      split_ifs at applied
      · split at applied <;> cases applied
        next dir renamed =>
          exact Or.inr ⟨saver, data, rfl, rfl, holds,
            SnapshotDir.rename_snapshot isTmp filled renamed⟩
        next => exact Or.inl rfl
      · cases applied
        exact Or.inl rfl
  · rw [Call.dir_of_apply touches applied]
    exact Or.inl rfl

/-- What a `Save` has brought about after one of its steps. -/
theorem Call.Saving.of_follows (saving : c.Saving P d)
    (applied : d.apply c.effect o = some (d', a)) (follows : c.Follows cfg a c')
    (taken : ∀ saver data, c = .save saver → d.idx.Lists o.order →
      encodeSnapshot cfg.codec (d.idx.snapshot o.order) = some data → P data) :
    c'.Saving P d' := by
  cases follows
  case saveOpen saver snap data encoded =>
    obtain ⟨-, lists, rfl⟩ := Daemon.apply_snapshot applied
    exact taken saver data rfl lists encoded
  case saveWrite saver data file =>
    obtain ⟨rfl, rfl⟩ := Daemon.apply_openTmp applied
    exact ⟨saving, SnapshotDir.openTmp_tmp d.dir, SnapshotDir.openTmp_empty d.dir⟩
  case saveRename saver file data =>
    obtain ⟨holds, isTmp, empty⟩ := saving
    have := Daemon.apply_writeTmp applied
    subst this
    exact ⟨file, data, holds, isTmp, SnapshotDir.write_empty empty data⟩
  case saveMark saver =>
    obtain ⟨file, data, holds, isTmp, filled⟩ := saving
    obtain ⟨dir, renamed, rfl⟩ := Daemon.apply_renameTmp applied
    exact ⟨data, holds, SnapshotDir.rename_snapshot isTmp filled renamed⟩
  case readFirst | readNext =>
    unfold nextRead
    split <;> trivial
  all_goals trivial

/-- A step of another call keeps it, unless both are at the temporary file. -/
theorem Call.Saving.of_other (other : u.Saving P d) (neat : d.dir.Neat) (saving : c.Saving P d)
    (applied : d.apply c.effect o = some (d', a)) (apart : u.IsWritingTmp → ¬ c.TouchesTmp) :
    u.Saving P d' := by
  by_cases touches : c.TouchesTmp
  · cases u <;> try trivial
    case saveWrite saver file data => exact absurd touches (apart trivial)
    case saveRename saver => exact absurd touches (apart trivial)
    case saveMark saver =>
      obtain ⟨data, holds, stored⟩ := other
      rcases saving.snapshot neat applied with same | ⟨-, data', -, -, holds', stored'⟩
      · exact ⟨data, holds, same.trans stored⟩
      · exact ⟨data', holds', stored'⟩
  · exact other.of_dir (Call.dir_of_apply touches applied)

end Saving

end Fusey
