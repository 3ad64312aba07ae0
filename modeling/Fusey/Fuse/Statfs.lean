import Fusey.Config.Load
import Fusey.Fuse.Capacity

/-!
Contract: the capacity that `Statfs` reports (`internal/fuse/fs.go`) under a
configuration that `config.Load` accepts.

Owns:
- the report, with its signed subtraction, its unsigned conversions and its
  division by the block size, which can panic;
- that the report is exact in every run in which the sum of the sizes stays an
  `int64`, under a positive block size;
- an accepted block size of zero, and a size that makes more blocks free than
  there are.
-/

set_option autoImplicit false

namespace Fusey

open GoInt Interleaving

/-- `fuse.StatfsOut`. -/
structure StatfsOut where
  bsize : Nat
  frsize : Nat
  blocks : Nat
  bfree : Nat
  bavail : Nat
  files : Nat
  ffree : Nat
  nameLen : Nat
deriving DecidableEq, Repr

/-- `free` as `Statfs` computes it: `total - used`, at least zero. -/
def freeBytes (total used : Int) : Int :=
  let free := wrap64 (total - used)
  if free < 0 then 0 else free

/-- `Statfs`; `none` is the panic of a division by zero. -/
def statfs (idx : Index) (maxFSSize : Int) : Option StatfsOut :=
  let bsize := toUint64 idx.blockSize
  if bsize = 0 then none
  else
    some
      { bsize := toUint32 bsize
        frsize := toUint32 bsize
        blocks := toUint64 maxFSSize / bsize
        bfree := toUint64 (freeBytes maxFSSize idx.usedBytes) / bsize
        bavail := toUint64 (freeBytes maxFSSize idx.usedBytes) / bsize
        files := toUint64 maxFSSize / 4096
        ffree := toUint64 maxFSSize / 4096
        nameLen := 255 }

/-- The largest `int64`. -/
def maxInt64 : Int := 9223372036854775807

/-- Exact free space: with sizes that add up to an `int64`, nothing wraps. -/
theorem freeBytes_eq {idx : Index} (capped : idx.Capped maxInt64) {maxFSSize : Int}
    (nonneg : 0 ≤ maxFSSize) (limit : maxFSSize < 9223372036854775808) :
    freeBytes maxFSSize idx.usedBytes = max 0 (maxFSSize - idx.sizeSum) := by
  have total := capped.total
  unfold maxInt64 at total
  rw [Index.usedBytes_eq capped.nonneg, Index.sizeSum_eq capped.nonneg,
    wrap64_of_nonneg (by omega) (by omega)]
  simp only [freeBytes]
  rw [wrap64_of_range ⟨by omega, by omega⟩]
  split_ifs <;> omega

/-- The report for a positive block size. -/
theorem statfs_of_capped {idx : Index} (capped : idx.Capped maxInt64) {maxFSSize : Int}
    (nonneg : 0 ≤ maxFSSize) (limit : maxFSSize < 9223372036854775808)
    (positive : 0 < idx.blockSize) (small : idx.blockSize < 2147483648) :
    ∃ out, statfs idx maxFSSize = some out ∧ out.bfree = out.bavail ∧ out.bavail ≤ out.blocks ∧
      (out.bfree : Int) = max 0 (maxFSSize - idx.sizeSum) / idx.blockSize := by
  have block : (toUint64 idx.blockSize : Int) = idx.blockSize :=
    toUint64_of_nonneg (by omega) (by omega)
  have sum : 0 ≤ idx.sizeSum := by
    rw [Index.sizeSum_eq capped.nonneg]
    omega
  have free : (toUint64 (freeBytes maxFSSize idx.usedBytes) : Int) =
      max 0 (maxFSSize - idx.sizeSum) := by
    rw [freeBytes_eq capped nonneg limit, toUint64_of_nonneg (by omega) (by omega)]
  have total : (toUint64 maxFSSize : Int) = maxFSSize := toUint64_of_nonneg nonneg (by omega)
  refine ⟨_, if_neg (by omega), rfl, ?_, ?_⟩
  · exact Nat.div_le_div_right (by omega)
  · rw [Int.natCast_ediv, free, block]

/-- A step that changes the size of a regular file sets a size that is not
negative and with which the sum of the sizes stays an `int64`. -/
def Call.KeepsSum (idx : Index) : Call → Prop
  | .setattr ino input _ => ∀ inode ∈ idx.inodes.get ino, inode.fileType = .regular →
      ∀ size ∈ input.change.size, 0 ≤ size ∧ idx.sizeSum - inode.size + size ≤ maxInt64
  | .writeRecord ino _ ext _ => ∀ inode ∈ idx.inodes.get ino, inode.fileType = .regular →
      inode.size < ext.fileEnd → idx.sizeSum - inode.size + ext.fileEnd ≤ maxInt64
  | _ => True

instance (idx : Index) (c : Call) : Decidable (c.KeepsSum idx) := by
  induction c using Call.casesOn <;> dsimp only [Call.KeepsSum] <;> infer_instance

/-- Requests start at any time, and their steps keep the sum in range. -/
def sumsGuarded {M : Type} (pool : Pool Daemon Call M) : Event Call Oracle → Prop
  | .spawn c => c.IsRequest
  | .run i _ => ∀ c ∈ pool.threads[i]?, c.KeepsSum pool.shared.idx

instance {M : Type} (pool : Pool Daemon Call M) (event : Event Call Oracle) :
    Decidable (sumsGuarded pool event) := by
  induction event using Event.casesOn <;> dsimp only [sumsGuarded] <;> infer_instance

/-- A filesystem mounted with a block size, in which no call is under way and the
sum of the sizes is an `int64`, as in an empty one. -/
def MountedWith (blockSize : Int) (pool : Pool Daemon Call Unit) : Prop :=
  pool.threads = [] ∧ pool.shared.Sound ∧ pool.shared.idx.blockSize = blockSize ∧
    pool.shared.idx.Capped maxInt64

theorem freshDaemon_mountedWith {maxChunkSize : Int} (small : maxChunkSize < 9223372036854775808)
    (blockSize now : Int) (cached : Bool) :
    MountedWith blockSize ⟨freshDaemon maxChunkSize blockSize now cached, [], ()⟩ :=
  ⟨rfl, freshDaemon_sound small blockSize now cached, rfl,
    Index.new_capped (by decide) blockSize now⟩

/-- A step that keeps the sum keeps the sizes in range. -/
theorem Index.Capped.of_keepsSum {d d' : Daemon} {c : Call} {o : Oracle} {a : Answer}
    (capped : d.idx.Capped maxInt64) (scripted : ∀ m, c ≠ .mutate m) (keeps : c.KeepsSum d.idx)
    (applied : d.apply c.effect o = some (d', a))
    (numbered : ∀ ino inode, d'.idx.inodes.get ino = some inode → ino < d'.idx.nextIno) :
    d'.idx.Capped maxInt64 := by
  have sum := Index.sizeSum_eq capped.nonneg
  rcases Daemon.sizes_of_apply scripted applied with
    kept | ⟨-, ino, old, new, stored, regular, type, changed, how⟩
  · exact capped.of_kept kept numbered
  · have oldSize := capped.nonneg ino old stored regular
    have room : 0 ≤ new.size ∧ d.idx.total - old.size + new.size ≤ maxInt64 := by
      rw [← sum]
      rcases how with ⟨input, now, rfl, given⟩ | ⟨data, ext, now, rfl, beyond, size⟩
      · exact keeps old stored regular new.size given
      · rw [size]
        exact ⟨by omega, keeps old stored regular beyond⟩
    exact capped.of_resized stored changed regular type room.1 room.2 numbered

/-- Under an accepted configuration with a positive block size, in every run in
which no size is negative and the sum of the sizes stays an `int64`, `Statfs`
does not divide by zero, reports no more free blocks than there are, and what it
reports as free is the exact rest of the capacity. -/
theorem statfs_exact {parsers : TextParsers} {env : Environment} {settings : Settings parsers}
    (loaded : load parsers env = .ok settings) (positive : 0 < settings.blockSize) {cfg : Config}
    (limit : cfg.maxFSSize = settings.maxFSSize) {pool : Pool Daemon Call Unit}
    (reached : Reachable (daemonSys cfg) noRecord (MountedWith settings.blockSize) sumsGuarded
      pool) :
    ∃ out, statfs pool.shared.idx cfg.maxFSSize = some out ∧ out.bfree = out.bavail ∧
      out.bavail ≤ out.blocks ∧
      (out.bfree : Int) =
        max 0 (settings.maxFSSize - pool.shared.idx.sizeSum) / settings.blockSize := by
  have invariant : (pool.shared.Sound ∧ pool.shared.idx.blockSize = settings.blockSize ∧
      pool.shared.idx.Capped maxInt64) ∧ ∀ c ∈ pool.threads, c.Sound ∧ ∀ m, c ≠ .mutate m := by
    refine Reachable.local_invariant (fun d _ => d.Sound ∧ d.idx.blockSize = settings.blockSize ∧
      d.idx.Capped maxInt64) (fun _ _ c => c.Sound ∧ ∀ m, c ≠ .mutate m) ?_ ?_ ?_ reached
    · rintro pool ⟨idle, rest⟩
      refine ⟨rest, fun c member => ?_⟩
      rw [idle] at member
      cases member
    · rintro pool c - request
      refine ⟨Call.IsRequest.sound request, ?_⟩
      rintro m rfl
      exact request
    · rintro d m before c after o d' a ⟨sound, block, capped⟩ each admitted applied
      obtain ⟨callSound, scripted⟩ := each c (by simp)
      have keeps := admitted c (by
        rw [List.getElem?_append_right le_rfl, Nat.sub_self]
        rfl)
      have after' := sound.of_apply callSound applied
      refine ⟨⟨after', (Daemon.blockSize_of_apply applied).trans block,
        capped.of_keepsSum scripted keeps applied after'.restorable.numbered⟩,
        fun c' continues => ?_, fun u member => each u (mem_of_mem_others c member)⟩
      have follows := Call.follows_of_resume continues
      exact ⟨callSound.of_follows sound applied follows, follows.ne_mutate⟩
  obtain ⟨⟨-, block, capped⟩, -⟩ := invariant
  obtain ⟨-, ⟨-, small⟩, low, high⟩ := load_ranges loaded
  rw [← block] at positive small ⊢
  rw [limit]
  exact statfs_of_capped capped (Int.le_of_lt low) high positive small

/-! ### Three environments -/

/-- Parsers that accept nothing. -/
def noParsers : TextParsers where
  Threshold := Unit
  parseFloat text := .error ⟨"ParseFloat", text, .badSyntax⟩
  parseDuration text := .error text
  defaultCompactionThreshold := ()

/-- An environment with a block size and a capacity, as they are written there. -/
def sizesEnv (blockSize maxSize : String) : Environment := fun key =>
  if key = "FUSEY_BLOCK_SIZE" then blockSize.toList
  else if key = "FUSEY_MAX_SIZE" then maxSize.toList
  else []

/-- The block size and the capacity that such an environment gives. -/
def loadedSizes (blockSize maxSize : String) : Option (Int × Int) :=
  (load noParsers (sizesEnv blockSize maxSize)).toOption.map fun settings =>
    (settings.blockSize, settings.maxFSSize)

theorem load_of_loadedSizes {blockSize maxSize : String} {block limit : Int}
    (sizes : loadedSizes blockSize maxSize = some (block, limit)) :
    ∃ settings, load noParsers (sizesEnv blockSize maxSize) = .ok settings ∧
      settings.blockSize = block ∧ settings.maxFSSize = limit := by
  obtain ⟨settings, found, same⟩ := Option.map_eq_some_iff.mp sizes
  obtain ⟨rfl, rfl⟩ := Prod.mk.inj same
  refine ⟨settings, ?_, rfl, rfl⟩
  cases read : load noParsers (sizesEnv blockSize maxSize) with
  | error reason =>
      rw [read] at found
      cases found
  | ok other =>
      rw [read] at found
      cases found
      rfl

/-- A file of three bytes. -/
def smallFile : List (Event Call Oracle) :=
  (Call.make .regular 1 [97] 0o644 0 0 1).alone 3 ++ (Call.write 2 [7, 8, 9] 0 2).alone 4

/-- A capacity of 100 bytes in blocks of 8. -/
theorem statfs_exact_smallFile :
    ∃ pool : Pool Daemon Call Unit, pool.shared.idx.sizeSum = 3 ∧
      ∃ out, statfs pool.shared.idx 100 = some out ∧ out.bfree = out.bavail ∧
        out.bavail ≤ out.blocks ∧
        (out.bfree : Int) = max 0 (100 - pool.shared.idx.sizeSum) / 8 := by
  have ends : ((daemonSys sampleConfig).run noRecord sumsGuarded
      ⟨freshDaemon 8 8 0 false, [], ()⟩ smallFile).map (fun pool => pool.shared.idx.sizeSum) =
      some 3 := by decide +kernel
  obtain ⟨pool, finished, sum⟩ := Option.map_eq_some_iff.mp ends
  obtain ⟨settings, loaded, block, limit⟩ := load_of_loadedSizes
    (by decide +kernel : loadedSizes "8" "100" = some (8, 100))
  have mounted : MountedWith settings.blockSize ⟨freshDaemon 8 8 0 false, [], ()⟩ := by
    rw [block]
    exact freshDaemon_mountedWith (by decide) 8 0 false
  have report := statfs_exact loaded (by rw [block]; decide) limit.symm
    (.of_run (.start mounted) finished)
  rw [block, limit] at report
  exact ⟨pool, sum, report⟩

/-- The size of a new file is set to the largest `uint64`. -/
def wrappedSize : List (Event Call Oracle) :=
  (Call.make .regular 1 [97] 0o644 0 0 1).alone 3 ++
    (Call.setattr 2 { valid := 8, size := 18446744073709551615 } 2).alone 2

/-- A block size of zero is accepted and makes `Statfs` panic; a size that is
stored as minus one makes more blocks free than there are. -/
theorem statfs_goes_wrong :
    (loadedSizes "0" "100" = some (0, 100) ∧ ∃ pool : Pool Daemon Call Unit,
      Reachable (daemonSys sampleConfig) noRecord (MountedWith 0) requestsOnly pool ∧
        statfs pool.shared.idx 100 = none) ∧
    loadedSizes "1" "100" = some (1, 100) ∧ ∃ pool : Pool Daemon Call Unit,
      Reachable (daemonSys sampleConfig) noRecord (MountedWith 1) requestsOnly pool ∧
        (statfs pool.shared.idx 100).map (fun out => (out.bfree, out.blocks)) =
          some (101, 100) := by
  refine ⟨⟨by decide +kernel, ⟨freshDaemon 8 0 0 false, [], ()⟩,
    .start (freshDaemon_mountedWith (by decide) 0 0 false), rfl⟩, by decide +kernel, ?_⟩
  have ends : ((daemonSys sampleConfig).run noRecord requestsOnly
      ⟨freshDaemon 8 1 0 false, [], ()⟩ wrappedSize).map (fun pool =>
        (statfs pool.shared.idx 100).map fun out => (out.bfree, out.blocks)) =
      some (some (101, 100)) := by decide +kernel
  obtain ⟨pool, finished, report⟩ := Option.map_eq_some_iff.mp ends
  exact ⟨pool, .of_run (.start (freshDaemon_mountedWith (by decide) 1 0 false)) finished, report⟩

end Fusey
