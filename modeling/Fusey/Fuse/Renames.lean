import Fusey.Fuse.NamespaceRuns
import Fusey.Index.Rename

/-!
Contract: `Index.Rename` against `rename(2)` on the indices that requests reach
(`internal/fuse/fs.go`, `internal/index/index.go`).

Owns the exact condition under which `Rename` does what `rename(2)` does, and
the file that is lost when it is renamed to its own name.
-/

set_option autoImplicit false

namespace Fusey

open Interleaving Relation Index

variable {cfg : Config}

/-- On every index that requests reach, and for any two entries, `Rename` does
what `rename(2)` does exactly if there is no source, or the entries name
different inodes and the destination is a directory with entries or nothing
speaks against the rename. -/
theorem rename_is_posix_iff {pool : Pool Daemon Call NodeLog}
    (reached : Reachable (daemonSys cfg) NodeLog.note Mounted fromKernel pool) (srcParent : Ino)
    (srcName : Name) (dstParent : Ino) (dstName : Name) (now : Int) :
    pool.shared.idx.PosixRename srcParent srcName dstParent dstName
        (pool.shared.idx.rename srcParent srcName dstParent dstName now) ↔
      pool.shared.idx.RenamesSafely srcParent srcName dstParent dstName := by
  have ns := (Mounted.inTree reached).1.wellFormed
  exact ⟨ns.renamesSafely, ns.posixRename⟩

/-- One file `a`. -/
def oneFile : List (Event Call Oracle) := Call.alone (.make .regular rootIno [97] 420 0 0 1) 3

/-- Renaming `a` to `b` is done as it should be. -/
theorem rename_is_posix_iff_free_name :
    ∃ pool, Reachable (daemonSys sampleConfig) NodeLog.note Mounted fromKernel pool ∧
      pool.shared.idx.entry rootIno [97] = some 2 ∧
      pool.shared.idx.PosixRename rootIno [97] rootIno [98]
        (pool.shared.idx.rename rootIno [97] rootIno [98] 2) := by
  have plays : ((daemonSys sampleConfig).run NodeLog.note plainRenames freshTree oneFile).map
      (fun pool => (pool.shared.idx.entry rootIno [97], pool.shared.idx.entry rootIno [98],
        pool.shared.idx.typeOf 2)) = some (some 2, none, some .regular) := by decide +kernel
  obtain ⟨pool, ran, shown⟩ := Option.map_eq_some_iff.mp plays
  obtain ⟨source, rest⟩ := Prod.mk.inj shown
  obtain ⟨isFree, isFile⟩ := Prod.mk.inj rest
  have reached : Reachable (daemonSys sampleConfig) NodeLog.note Mounted fromKernel pool :=
    Reachable.mono fromKernel_of_plainRenames (.of_run (.start freshTree_mounted) ran)
  have ns := (Mounted.inTree reached).1.wellFormed
  refine ⟨pool, reached, source, (rename_is_posix_iff reached _ _ _ _ _).mpr
    (Or.inr ⟨?_, Or.inr ?_⟩)⟩
  · rintro ⟨ino, -, there⟩
    cases isFree.symm.trans there
  · rintro (missing | notDirectory | ⟨dst, there, -⟩ | ⟨-, dst, -, there, -⟩ | ⟨src, named, reach⟩)
    · cases missing.symm.trans source
    · exact notDirectory (typeOf_eq_some.mpr ns.root)
    · cases isFree.symm.trans there
    · cases isFree.symm.trans there
    · cases source.symm.trans named
      have same := ns.eq_of_reach reach (by rw [isFile]; decide)
      cases same

/-- `a` renamed to `a`: the inode is freed and its entry stays behind. -/
theorem rename_to_own_name_frees :
    ∃ pool idx', Reachable (daemonSys sampleConfig) NodeLog.note Mounted fromKernel pool ∧
      pool.shared.idx.rename rootIno [97] rootIno [97] 2 = .ok idx' ∧
      idx'.entry rootIno [97] = some 2 ∧ idx'.inodes.get 2 = none ∧
      ¬ pool.shared.idx.PosixRename rootIno [97] rootIno [97]
        (pool.shared.idx.rename rootIno [97] rootIno [97] 2) := by
  have plays : ((daemonSys sampleConfig).run NodeLog.note plainRenames freshTree oneFile).map
      (fun pool => (pool.shared.idx.entry rootIno [97], (pool.shared.idx.inodes.get 2).isSome,
        (pool.shared.idx.rename rootIno [97] rootIno [97] 2).toOption.map fun idx' =>
          (idx'.entry rootIno [97], idx'.inodes.get 2))) =
      some (some 2, true, some (some 2, none)) := by decide +kernel
  obtain ⟨pool, ran, shown⟩ := Option.map_eq_some_iff.mp plays
  obtain ⟨source, rest⟩ := Prod.mk.inj shown
  obtain ⟨present, renamed⟩ := Prod.mk.inj rest
  obtain ⟨idx', returned, after⟩ := Option.map_eq_some_iff.mp renamed
  obtain ⟨entry, gone⟩ := Prod.mk.inj after
  have applied : pool.shared.idx.rename rootIno [97] rootIno [97] 2 = .ok idx' := by
    cases outcome : pool.shared.idx.rename rootIno [97] rootIno [97] 2 with
    | error failure =>
        rw [outcome] at returned
        cases returned
    | ok other =>
        rw [outcome] at returned
        rw [Option.some.inj returned]
  refine ⟨pool, idx', Reachable.mono fromKernel_of_plainRenames
    (.of_run (.start freshTree_mounted) ran), applied, entry, gone, fun posix => ?_⟩
  obtain ⟨same, isSame, -, inodes⟩ := posix.same ⟨2, source, source⟩
  cases applied.symm.trans isSame
  rw [inodes] at gone
  rw [gone] at present
  cases present

end Fusey
