import Mathlib.Data.List.Sort
import Fusey.GoLib.Fmt
import Fusey.Index.Types

/-!
Contract: how `fusey unmount` finds the daemon of a mountpoint
(`cmd/fusey/main.go`).

Owns:
- the daemons over one `FUSEY_CACHE_DIR`: their directories, their `daemon.pid`
  files and the processes of the host, with every step from `runMount` to the
  end of `runDaemon`, and abrupt deaths;
- `runUnmount`, which takes the first matching `daemon.pid` in name order;
- that it signals the serving daemon and no other process where mountpoints are
  absolute UTF-8 texts and no `daemon.pid` of another daemon names them, and a run
  in which a `daemon.pid` that was left behind sends the signal to another process.

Paths are byte strings, and `daemon.pid` keeps them as JSON does; a mountpoint is
what its text resolves to, without symbolic links. What a daemon does between its
mount and its end is elsewhere.
-/

set_option autoImplicit false

namespace Fusey

/-! ### Paths -/

/-- One element of a path in `filepath.Clean`, on the elements before it, the last
one first. -/
def cleanStep (before : List Name) (part : Name) : List Name :=
  if part = [] ∨ part = [0x2e] then before
  else if part = [0x2e, 0x2e] then before.tail
  else part :: before

/-- `filepath.Clean` of a rooted path, as its elements. -/
def cleanPath (parts : List Name) : List Name := (parts.foldl cleanStep []).reverse

/-- `os.PathSeparator`. -/
def slash : UInt8 := 0x2f

def IsAbsolute (path : Name) : Prop := path.head? = some slash

instance (path : Name) : Decidable (IsAbsolute path) := by
  unfold IsAbsolute
  infer_instance

/-- `filepath.Abs` in a working directory. -/
def absPath (cwd path : Name) : List Name :=
  if IsAbsolute path then cleanPath (path.splitOn slash)
  else cleanPath (cwd.splitOn slash ++ path.splitOn slash)

/-- An absolute path means the same everywhere. -/
theorem absPath_of_isAbsolute {path : Name} (isAbsolute : IsAbsolute path) (cwd other : Name) :
    absPath cwd path = absPath other path := by
  rw [absPath, absPath, if_pos isAbsolute, if_pos isAbsolute]

/-! ### The host -/

/-- `daemonInfo`. -/
structure DaemonInfo where
  pid : Nat
  mountpoint : Name
deriving DecidableEq

/-- A `daemonInfo` as `json.Unmarshal` reads it back from what `json.Marshal` wrote. -/
def DaemonInfo.reread (info : DaemonInfo) : DaemonInfo :=
  { info with mountpoint := GoFmt.coerceUTF8 info.mountpoint }

/-- Where `runDaemon` is: before `gofs.Mount`; before and after the write of
`daemon.pid`; after `server.Unmount`, which may have failed; and after the removal
of `daemon.pid`. -/
inductive DaemonPhase where
  | starting
  | mounted
  | ready
  | stopping (unmounted : Bool)
  | removed (unmounted : Bool)
deriving DecidableEq

structure DaemonProcess where
  id : Key
  cwd : Name
  mountpoint : Name
  phase : DaemonPhase
deriving DecidableEq

/-- What the daemon mounts on. -/
def DaemonProcess.path (d : DaemonProcess) : List Name := absPath d.cwd d.mountpoint

/-- The filesystem is mounted and the process serves it. -/
def DaemonProcess.Serves (d : DaemonProcess) : Prop :=
  d.phase ≠ .starting ∧ d.phase ≠ .stopping true ∧ d.phase ≠ .removed true

/-- `daemon.pid` has been written and not yet removed. -/
def DaemonProcess.Announced (d : DaemonProcess) : Prop :=
  d.phase = .ready ∨ ∃ unmounted, d.phase = .stopping unmounted

instance (d : DaemonProcess) : Decidable d.Serves := by
  unfold DaemonProcess.Serves
  infer_instance

/-- The daemon directories, the `daemon.pid` files by directory, as `json.Unmarshal`
reads them (`none` is a text that it rejects), and the processes by PID (`none` is one that is not
a daemon). -/
structure MountHost where
  dirs : List Key
  pidFiles : GoMap Key (Option DaemonInfo)
  procs : GoMap Nat (Option DaemonProcess)

/-- An empty `FUSEY_CACHE_DIR`, and no process. -/
def MountHost.empty : MountHost := { dirs := [], pidFiles := ∅, procs := ∅ }

/-- How `os.WriteFile` of `daemon.pid` ends. The daemon ignores its error. -/
inductive PidWrite where
  | whole
  | torn
  | nothing
deriving DecidableEq

inductive HostEvent where
  | start (cwd mountpoint : Name) (id : Key) (pid : Nat)
  | mount (pid : Nat) (ok : Bool)
  | announce (pid : Nat) (write : PidWrite)
  | unmount (pid : Nat) (ok : Bool)
  | remove (pid : Nat) (ok : Bool)
  | exit (pid : Nat)
  | die (pid : Nat)
  | other (pid : Nat)

namespace MountHost

/-- The daemon with a PID. -/
def daemon (s : MountHost) (pid : Nat) : Option DaemonProcess := (s.procs.get pid).join

/-- The daemon goes on to its next phase. -/
def advance (s : MountHost) (pid : Nat) (d : DaemonProcess) (phase : DaemonPhase) : MountHost :=
  { s with procs := s.procs.set pid (some { d with phase := phase }) }

/-- The process ends. -/
def vanish (s : MountHost) (pid : Nat) : MountHost := { s with procs := s.procs.delete pid }

/-- One step of a process of the host. -/
def step (s : MountHost) : HostEvent → Option MountHost
  | .start cwd mountpoint id pid =>
      -- `runMount` creates the directory and starts `fusey daemon` in its own
      -- working directory.
      match s.procs.get pid with
      | some _ => none
      | none =>
          some { s with
            dirs := if id ∈ s.dirs then s.dirs else id :: s.dirs
            procs := s.procs.set pid (some ⟨id, cwd, mountpoint, .starting⟩) }
  | .mount pid ok =>
      match s.daemon pid with
      | some d =>
          if d.phase = .starting then
            if ok then some (s.advance pid d .mounted) else some (s.vanish pid)
          else none
      | none => none
  | .announce pid write =>
      match s.daemon pid with
      | some d =>
          if d.phase = .mounted then
            let next := s.advance pid d .ready
            match write with
            | .whole =>
                let info : DaemonInfo := ⟨pid, d.mountpoint⟩
                some { next with pidFiles := s.pidFiles.set d.id (some info.reread) }
            | .torn => some { next with pidFiles := s.pidFiles.set d.id none }
            | .nothing => some next
          else none
      | none => none
  | .unmount pid ok =>
      match s.daemon pid with
      | some d => if d.phase = .ready then some (s.advance pid d (.stopping ok)) else none
      | none => none
  | .remove pid ok =>
      match s.daemon pid with
      | some d =>
          match d.phase with
          | .stopping unmounted =>
              let next := s.advance pid d (.removed unmounted)
              if ok then some { next with pidFiles := s.pidFiles.delete d.id } else some next
          | _ => none
      | none => none
  | .exit pid =>
      match s.daemon pid with
      | some d =>
          match d.phase with
          | .removed _ => some (s.vanish pid)
          | _ => none
      | none => none
  | .die pid => some (s.vanish pid)
  | .other pid =>
      match s.procs.get pid with
      | some _ => none
      | none => some { s with procs := s.procs.set pid none }

/-- A whole run of the host. -/
def run (s : MountHost) : List HostEvent → Option MountHost
  | [] => some s
  | event :: rest => (s.step event).bind fun next => next.run rest

end MountHost

/-- How `runUnmount` ends: the signal has been sent, the PID has no process, or no
`daemon.pid` matches. -/
inductive UnmountResult where
  | signalled (pid : Nat)
  | signalFailed (pid : Nat)
  | noDaemon
deriving DecidableEq

namespace MountHost

/-- The PID in the `daemon.pid` of a directory, if its mountpoint resolves to the
given path. -/
def matching (s : MountHost) (cwd : Name) (path : List Name) (dir : Key) : Option Nat :=
  match s.pidFiles.get dir with
  | some (some info) => if absPath cwd info.mountpoint = path then some info.pid else none
  | _ => none

/-- `os.ReadDir` of the cache directory, which sorts by name. -/
def readDir (s : MountHost) : List Key := s.dirs.insertionSort (@LE.le Key List.instLE)

/-- `runUnmount`. -/
def runUnmount (s : MountHost) (cwd mountpoint : Name) : UnmountResult :=
  match s.readDir.findSome? (s.matching cwd (absPath cwd mountpoint)) with
  | none => .noDaemon
  | some pid => if (s.procs.get pid).isSome then .signalled pid else .signalFailed pid

end MountHost

/-! ### Runs -/

/-- The states that admitted steps lead to from an empty cache directory. -/
inductive HostReaches (admits : MountHost → HostEvent → Prop) : MountHost → Prop where
  | start : HostReaches admits .empty
  | step {s next : MountHost} (event : HostEvent) (before : HostReaches admits s)
      (admitted : admits s event) (taken : s.step event = some next) : HostReaches admits next

/-- Anything may happen. -/
def anyHistory (_ : MountHost) (_ : HostEvent) : Prop := True

/-- A path that `daemon.pid` can hold for an unmount elsewhere: absolute, and in UTF-8. -/
def Recordable (path : Name) : Prop := IsAbsolute path ∧ GoFmt.validUTF8 path = true

instance (path : Name) : Decidable (Recordable path) := by
  unfold Recordable
  infer_instance

/-- A `daemonInfo` with such a path is read back as it was written. -/
theorem DaemonInfo.reread_of_recordable {pid : Nat} {path : Name} (recordable : Recordable path) :
    DaemonInfo.reread ⟨pid, path⟩ = ⟨pid, path⟩ :=
  congrArg (DaemonInfo.mk pid) (GoFmt.coerceUTF8_of_validUTF8 path recordable.2)

/-- A daemon directory stands for a path: by its `daemon.pid`, or by a live daemon. -/
def MountHost.Claims (s : MountHost) (id : Key) (path : List Name) : Prop :=
  (∃ info cwd, s.pidFiles.get id = some (some info) ∧ absPath cwd info.mountpoint = path) ∨
    ∃ pid d, s.daemon pid = some d ∧ d.id = id ∧ d.path = path

/-- A daemon is started on an absolute path in UTF-8 that no other directory stands
for, in a directory of its own, and its `daemon.pid` is written. -/
def carefulHistory (s : MountHost) : HostEvent → Prop
  | .start cwd mountpoint id _ =>
      Recordable mountpoint ∧ (∀ other, ¬ s.Claims other (absPath cwd mountpoint)) ∧
        ∀ path, ¬ s.Claims id path
  | .announce _ write => write = .whole
  | _ => True

/-! ### One careful step -/

namespace MountHost

variable {s next : MountHost} {event : HostEvent} {pid : Nat} {d : DaemonProcess}

theorem daemon_advance (s : MountHost) (pid : Nat) (d : DaemonProcess) (phase : DaemonPhase)
    (other : Nat) :
    (s.advance pid d phase).daemon other =
      if other = pid then some { d with phase := phase } else s.daemon other := by
  unfold daemon advance
  rw [GoMap.get_set]
  split_ifs <;> rfl

theorem daemon_vanish (s : MountHost) (pid other : Nat) :
    (s.vanish pid).daemon other = if other = pid then none else s.daemon other := by
  unfold daemon vanish
  rw [GoMap.get_delete]
  split_ifs <;> rfl

/-- Everything a careful step can do. -/
inductive CarefulStep (s : MountHost) : MountHost → Prop where
  | start {cwd mountpoint : Name} {id : Key} {pid : Nat} {dirs : List Key}
      (free : s.procs.get pid = none) (recordable : Recordable mountpoint)
      (path : ∀ other, ¬ s.Claims other (absPath cwd mountpoint))
      (own : ∀ path, ¬ s.Claims id path) (known : ∀ dir, dir ∈ dirs ↔ dir = id ∨ dir ∈ s.dirs) :
      CarefulStep s { s with
        dirs := dirs
        procs := s.procs.set pid (some ⟨id, cwd, mountpoint, .starting⟩) }
  | phase {pid : Nat} {d : DaemonProcess} (phase : DaemonPhase) (live : s.daemon pid = some d)
      (quiet : DaemonProcess.Announced { d with phase := phase } → d.Announced) :
      CarefulStep s (s.advance pid d phase)
  | write {pid : Nat} {d : DaemonProcess} (live : s.daemon pid = some d) :
      CarefulStep s { s.advance pid d .ready with
        pidFiles := s.pidFiles.set d.id (some (DaemonInfo.reread ⟨pid, d.mountpoint⟩)) }
  | erase {pid : Nat} {d : DaemonProcess} (unmounted : Bool) (live : s.daemon pid = some d) :
      CarefulStep s { s.advance pid d (.removed unmounted) with
        pidFiles := s.pidFiles.delete d.id }
  | vanish (pid : Nat) : CarefulStep s (s.vanish pid)
  | other {pid : Nat} (free : s.procs.get pid = none) :
      CarefulStep s { s with procs := s.procs.set pid none }

theorem CarefulStep.of_step (careful : carefulHistory s event)
    (taken : s.step event = some next) : CarefulStep s next := by
  cases event with
  | start cwd mountpoint id pid =>
      obtain ⟨recordable, path, own⟩ := careful
      simp only [step] at taken
      split at taken <;> cases taken
      next free =>
        refine .start free recordable path own fun dir => ?_
        split_ifs with old
        · refine ⟨Or.inr, ?_⟩
          rintro (rfl | member)
          · exact old
          · exact member
        · exact List.mem_cons
  | mount pid ok =>
      simp only [step] at taken
      split at taken
      next d live =>
        split_ifs at taken <;> cases taken
        · exact .phase _ live fun announced => by rcases announced with h | ⟨_, h⟩ <;> cases h
        · exact .vanish pid
      next => cases taken
  | announce pid write =>
      cases careful
      simp only [step] at taken
      split at taken
      next d live =>
        split_ifs at taken
        cases taken
        exact .write live
      next => cases taken
  | unmount pid ok =>
      simp only [step] at taken
      split at taken
      next d live =>
        split_ifs at taken with ready
        cases taken
        exact .phase _ live fun _ => Or.inl ready
      next => cases taken
  | remove pid ok =>
      simp only [step] at taken
      split at taken
      next d live =>
        split at taken
        next unmounted _ =>
          split_ifs at taken <;> cases taken
          · exact .erase unmounted live
          · exact .phase _ live fun announced => by rcases announced with h | ⟨_, h⟩ <;> cases h
        next => cases taken
      next => cases taken
  | exit pid =>
      simp only [step] at taken
      split at taken
      next d live =>
        split at taken <;> cases taken
        exact .vanish pid
      next => cases taken
  | die pid =>
      cases taken
      exact .vanish pid
  | other pid =>
      simp only [step] at taken
      split at taken <;> cases taken
      next free => exact .other free

/-! ### What holds after careful steps -/

/-- Mountpoints are recordable, directories and paths belong to each other, and the
`daemon.pid` of a daemon that has announced itself names it. -/
structure Orderly (s : MountHost) : Prop where
  files : ∀ dir info, s.pidFiles.get dir = some (some info) → IsAbsolute info.mountpoint
  daemons : ∀ pid d, s.daemon pid = some d → Recordable d.mountpoint ∧ d.id ∈ s.dirs
  unique : ∀ id id' path, s.Claims id path → s.Claims id' path → id = id'
  own : ∀ pid pid' d d', s.daemon pid = some d → s.daemon pid' = some d' → d.id = d'.id →
    pid = pid'
  filed : ∀ pid d, s.daemon pid = some d → d.Announced →
    s.pidFiles.get d.id = some (some ⟨pid, d.mountpoint⟩)

theorem orderly_empty : MountHost.empty.Orderly where
  files := fun dir info stored => by cases stored
  daemons := fun pid d live => by cases live
  unique := by
    rintro id id' path (⟨info, cwd, stored, -⟩ | ⟨pid, d, live, -⟩) _
    · cases stored
    · cases live
  own := fun pid pid' d d' live => by cases live
  filed := fun pid d live => by cases live

theorem Claims.of_daemon (live : s.daemon pid = some d) : s.Claims d.id d.path :=
  Or.inr ⟨pid, d, live, rfl, rfl⟩

/-- What a directory stands for after a step it stood for before, if the step
writes no other `daemon.pid` than that of a live daemon and starts none. -/
theorem Claims.mono
    (files : ∀ dir info, next.pidFiles.get dir = some (some info) →
      s.pidFiles.get dir = some (some info) ∨
        ∃ pid d, s.daemon pid = some d ∧ d.id = dir ∧ d.mountpoint = info.mountpoint ∧
          IsAbsolute d.mountpoint)
    (daemons : ∀ pid d, next.daemon pid = some d → ∃ phase, s.daemon pid =
      some { d with phase := phase })
    {id : Key} {path : List Name} (claims : next.Claims id path) : s.Claims id path := by
  rcases claims with ⟨info, cwd, stored, rfl⟩ | ⟨pid, d, live, rfl, rfl⟩
  · rcases files id info stored with old | ⟨pid, d, live, rfl, same, isAbsolute⟩
    · exact Or.inl ⟨info, cwd, old, rfl⟩
    · rw [← same, absPath_of_isAbsolute isAbsolute cwd d.cwd]
      exact .of_daemon live
  · obtain ⟨phase, before⟩ := daemons pid d live
    exact Or.inr ⟨pid, _, before, rfl, rfl⟩

/-- A step that starts no daemon and writes at most the `daemon.pid` of a live one
leaves the host orderly if it leaves the files of announced daemons right. -/
theorem Orderly.of_frame (orderly : s.Orderly) (dirs : next.dirs = s.dirs)
    (files : ∀ dir info, next.pidFiles.get dir = some (some info) →
      s.pidFiles.get dir = some (some info) ∨
        ∃ pid d, s.daemon pid = some d ∧ d.id = dir ∧ d.mountpoint = info.mountpoint ∧
          IsAbsolute d.mountpoint)
    (daemons : ∀ pid d, next.daemon pid = some d → ∃ phase, s.daemon pid =
      some { d with phase := phase })
    (filed : ∀ pid d, next.daemon pid = some d → d.Announced →
      next.pidFiles.get d.id = some (some ⟨pid, d.mountpoint⟩)) : next.Orderly where
  files := by
    intro dir info stored
    rcases files dir info stored with old | ⟨pid, d, live, -, same, isAbsolute⟩
    · exact orderly.files dir info old
    · exact same ▸ isAbsolute
  daemons := by
    intro pid d live
    obtain ⟨phase, before⟩ := daemons pid d live
    have kept := orderly.daemons pid { d with phase := phase } before
    exact ⟨kept.1, dirs ▸ kept.2⟩
  unique := fun id id' path one other =>
    orderly.unique id id' path (one.mono files daemons) (other.mono files daemons)
  own := by
    intro pid pid' d d' live live' same
    obtain ⟨phase, before⟩ := daemons pid d live
    obtain ⟨phase', before'⟩ := daemons pid' d' live'
    exact orderly.own pid pid' _ _ before before' same
  filed := filed

/-- Some daemons are gone. -/
theorem Orderly.of_fewer (orderly : s.Orderly) (dirs : next.dirs = s.dirs)
    (files : next.pidFiles = s.pidFiles)
    (before : ∀ pid d, next.daemon pid = some d → s.daemon pid = some d) : next.Orderly :=
  orderly.of_frame dirs (fun _ _ stored => Or.inl (files ▸ stored))
    (fun pid d found => ⟨d.phase, before pid d found⟩)
    fun pid d found announced => files ▸ orderly.filed pid d (before pid d found) announced

/-- The daemons after one of them has gone on. -/
theorem daemons_of_advance (phase : DaemonPhase) (other : Nat)
    (d' : DaemonProcess) (found : (s.advance pid d phase).daemon other = some d') :
    (other = pid ∧ d' = { d with phase := phase }) ∨ other ≠ pid ∧ s.daemon other = some d' := by
  rw [daemon_advance] at found
  split_ifs at found with same
  · exact Or.inl ⟨same, (Option.some.inj found).symm⟩
  · exact Or.inr ⟨same, found⟩

theorem before_advance (live : s.daemon pid = some d) (phase : DaemonPhase) (other : Nat)
    (d' : DaemonProcess) (found : (s.advance pid d phase).daemon other = some d') :
    ∃ phase, s.daemon other = some { d' with phase := phase } := by
  rcases daemons_of_advance phase other d' found with ⟨rfl, rfl⟩ | ⟨-, before⟩
  · exact ⟨d.phase, live⟩
  · exact ⟨d'.phase, before⟩

/-- A new daemon, on a path and in a directory of its own. -/
theorem Orderly.of_start (orderly : s.Orderly) {cwd mountpoint : Name} {id : Key}
    {dirs : List Key} (free : s.procs.get pid = none) (recordable : Recordable mountpoint)
    (path : ∀ other, ¬ s.Claims other (absPath cwd mountpoint))
    (own : ∀ path, ¬ s.Claims id path) (known : ∀ dir, dir ∈ dirs ↔ dir = id ∨ dir ∈ s.dirs) :
    Orderly { s with
      dirs := dirs
      procs := s.procs.set pid (some ⟨id, cwd, mountpoint, .starting⟩) } := by
  have daemons : ∀ other d, MountHost.daemon { s with
        dirs := dirs
        procs := s.procs.set pid (some ⟨id, cwd, mountpoint, .starting⟩) } other = some d →
      (other = pid ∧ d = ⟨id, cwd, mountpoint, .starting⟩) ∨ s.daemon other = some d := by
    intro other d found
    unfold MountHost.daemon at found ⊢
    rw [GoMap.get_set] at found
    split_ifs at found with same
    · exact Or.inl ⟨same, (Option.some.inj found).symm⟩
    · exact Or.inr found
  have claims : ∀ dir claimed, MountHost.Claims { s with
        dirs := dirs
        procs := s.procs.set pid (some ⟨id, cwd, mountpoint, .starting⟩) } dir claimed →
      (dir = id ∧ claimed = absPath cwd mountpoint) ∨ s.Claims dir claimed := by
    rintro dir claimed (stored | ⟨other, d, live, rfl, rfl⟩)
    · exact Or.inr (Or.inl stored)
    · rcases daemons other d live with ⟨-, rfl⟩ | old
      · exact Or.inl ⟨rfl, rfl⟩
      · exact Or.inr (.of_daemon old)
  refine ⟨orderly.files, ?_, ?_, ?_, ?_⟩
  · intro other d live
    rcases daemons other d live with ⟨-, rfl⟩ | old
    · exact ⟨recordable, (known id).mpr (Or.inl rfl)⟩
    · obtain ⟨kept, member⟩ := orderly.daemons other d old
      exact ⟨kept, (known d.id).mpr (Or.inr member)⟩
  · intro dir dir' claimed one other
    rcases claims dir claimed one with ⟨rfl, rfl⟩ | old
    · rcases claims dir' _ other with ⟨rfl, -⟩ | old
      · rfl
      · exact absurd old (path dir')
    · rcases claims dir' claimed other with ⟨-, rfl⟩ | old'
      · exact absurd old (path dir)
      · exact orderly.unique dir dir' claimed old old'
  · intro other other' d d' live live' same
    rcases daemons other d live with ⟨rfl, rfl⟩ | old
    · rcases daemons other' d' live' with ⟨rfl, -⟩ | old'
      · rfl
      · have claimed := Claims.of_daemon old'
        rw [← same] at claimed
        exact absurd claimed (own d'.path)
    · rcases daemons other' d' live' with ⟨rfl, rfl⟩ | old'
      · have claimed := Claims.of_daemon old
        rw [same] at claimed
        exact absurd claimed (own d.path)
      · exact orderly.own other other' d d' old old' same
  · intro other d live announced
    rcases daemons other d live with ⟨-, rfl⟩ | old
    · rcases announced with h | ⟨_, h⟩ <;> cases h
    · exact orderly.filed other d old announced

theorem CarefulStep.orderly (change : CarefulStep s next) (orderly : s.Orderly) :
    next.Orderly := by
  cases change with
  | start free recordable path own known => exact orderly.of_start free recordable path own known
  | @phase pid d phase live quiet =>
      refine orderly.of_frame rfl (fun _ _ => Or.inl) (before_advance live phase) ?_
      intro other d' found announced
      rcases daemons_of_advance phase other d' found with ⟨rfl, rfl⟩ | ⟨-, before⟩
      · exact orderly.filed other d live (quiet announced)
      · exact orderly.filed other d' before announced
  | @write pid d live =>
      have recordable := (orderly.daemons pid d live).1
      rw [DaemonInfo.reread_of_recordable recordable]
      refine orderly.of_frame rfl ?_ (before_advance live .ready) ?_
      · intro dir info stored
        rw [GoMap.get_set] at stored
        split_ifs at stored with same
        · cases stored
          exact Or.inr ⟨pid, d, live, same.symm, rfl, recordable.1⟩
        · exact Or.inl stored
      · intro other d' found announced
        rcases daemons_of_advance .ready other d' found with ⟨rfl, rfl⟩ | ⟨different, before⟩
        · exact GoMap.get_set_self _ _ _
        · have elsewhere : d'.id ≠ d.id := fun same =>
            different (orderly.own other pid d' d before live same)
          exact (GoMap.get_set_ne _ _ elsewhere).trans (orderly.filed other d' before announced)
  | @erase pid d unmounted live =>
      refine orderly.of_frame rfl ?_ (before_advance live (.removed unmounted)) ?_
      · intro dir info stored
        rw [GoMap.get_delete] at stored
        split_ifs at stored
        exact Or.inl stored
      · intro other d' found announced
        rcases daemons_of_advance (.removed unmounted) other d' found with
          ⟨rfl, rfl⟩ | ⟨different, before⟩
        · rcases announced with h | ⟨_, h⟩ <;> cases h
        · have elsewhere : d'.id ≠ d.id := fun same =>
            different (orderly.own other pid d' d before live same)
          exact (GoMap.get_delete_ne _ elsewhere).trans (orderly.filed other d' before announced)
  | vanish pid =>
      refine orderly.of_fewer rfl rfl fun other d found => ?_
      rw [daemon_vanish] at found
      split_ifs at found
      exact found
  | @other pid free =>
      refine orderly.of_fewer rfl rfl fun other d found => ?_
      unfold MountHost.daemon at found ⊢
      rw [GoMap.get_set] at found
      split_ifs at found
      · cases found
      · exact found

theorem Orderly.of_reaches (reached : HostReaches carefulHistory s) : s.Orderly := by
  induction reached with
  | start => exact orderly_empty
  | step _ _ careful taken inductionHypothesis =>
      exact (CarefulStep.of_step careful taken).orderly inductionHypothesis

/-- In an orderly host the `daemon.pid` files that name the path of an announced
daemon are its own. -/
theorem Orderly.matching_eq (orderly : s.Orderly) (live : s.daemon pid = some d)
    (announced : d.Announced) (cwd : Name) (dir : Key) :
    s.matching cwd d.path dir = if dir = d.id then some pid else none := by
  have isAbsolute := (orderly.daemons pid d live).1.1
  have filed := orderly.filed pid d live announced
  unfold matching
  split_ifs with isOwn
  · subst isOwn
    rw [filed]
    exact if_pos (absPath_of_isAbsolute isAbsolute cwd d.cwd)
  · split
    next info stored =>
      refine if_neg fun same => isOwn ?_
      exact orderly.unique dir d.id d.path (Or.inl ⟨info, cwd, stored, same⟩) (.of_daemon live)
    next => rfl

end MountHost

/-- `fusey unmount` signals the serving daemon: in every run in which daemons are
started on absolute paths in UTF-8 that no other daemon directory stands for, in
directories of their own, and write their `daemon.pid`, it signals the daemon of
the mountpoint, from the moment it has announced itself and while it shuts down,
and no other process. -/
theorem unmount_signals_serving_daemon {s : MountHost} (reached : HostReaches carefulHistory s)
    {pid : Nat} {d : DaemonProcess} (live : s.daemon pid = some d) (announced : d.Announced)
    (cwd mountpoint : Name) (same : absPath cwd mountpoint = d.path) :
    s.runUnmount cwd mountpoint = .signalled pid := by
  have orderly := MountHost.Orderly.of_reaches reached
  have inDirs := (orderly.daemons pid d live).2
  have only : s.matching cwd d.path = fun dir => if dir = d.id then some pid else none :=
    funext fun dir => orderly.matching_eq live announced cwd dir
  have found : s.readDir.findSome? (s.matching cwd d.path) = some pid := by
    rw [only]
    cases result : s.readDir.findSome? (fun dir => if dir = d.id then some pid else none) with
    | none =>
        have missed := List.findSome?_eq_none_iff.mp result d.id
          ((List.mem_insertionSort _).mpr inDirs)
        rw [if_pos rfl] at missed
        cases missed
    | some other =>
        obtain ⟨dir, -, hit⟩ := List.exists_of_findSome?_eq_some result
        split_ifs at hit
        exact hit.symm
  have alive : (s.procs.get pid).isSome = true := by
    unfold MountHost.daemon at live
    cases stored : s.procs.get pid with
    | none =>
        rw [stored] at live
        cases live
    | some process => rfl
  rw [MountHost.runUnmount, same, found]
  exact if_pos alive

/-- A daemon on `/a`, and an unmount of `a` from the root directory. -/
theorem unmount_signals_serving_daemon_first :
    ∃ s d, HostReaches carefulHistory s ∧ s.daemon 1 = some d ∧ d.Serves ∧
      s.runUnmount [0x2f] [0x61] = .signalled 1 := by
  have free : ∀ id path, ¬ MountHost.empty.Claims id path := by
    rintro id path (⟨info, cwd, stored, -⟩ | ⟨pid, d, live, -⟩)
    · cases stored
    · cases live
  have started : HostReaches carefulHistory _ :=
    .step (.start [0x2f] [0x2f, 0x61] ['x'] 1) .start
      ⟨by decide, fun other => free other _, free ['x']⟩ rfl
  have mounted : HostReaches carefulHistory _ := .step (.mount 1 true) started trivial rfl
  have announced : HostReaches carefulHistory _ := .step (.announce 1 .whole) mounted rfl rfl
  obtain ⟨s, reached, live⟩ : ∃ s, HostReaches carefulHistory s ∧
      s.daemon 1 = some ⟨['x'], [0x2f], [0x2f, 0x61], .ready⟩ := ⟨_, announced, rfl⟩
  exact ⟨s, _, reached, live, by decide,
    unmount_signals_serving_daemon reached live (Or.inl rfl) [0x2f] [0x61] (by decide)⟩

/-- A daemon that is mounted and announces itself. -/
def HostEvent.mounted (cwd mountpoint : Name) (id : Key) (pid : Nat) : List HostEvent :=
  [.start cwd mountpoint id pid, .mount pid true, .announce pid .whole]

theorem HostReaches.of_run {s : MountHost} :
    ∀ {events : List HostEvent} {origin : MountHost}, HostReaches anyHistory origin →
      origin.run events = some s → HostReaches anyHistory s
  | [], _, reached, ran => by
      cases ran
      exact reached
  | event :: rest, origin, reached, ran => by
      obtain ⟨next, taken, others⟩ := Option.bind_eq_some_iff.mp ran
      exact .of_run (.step event reached trivial taken) others

/-- The daemon `x` of `/m` dies and leaves its `daemon.pid`; its PID goes to another
process, and `/m` is mounted again. -/
def diedAndRemounted : List HostEvent :=
  HostEvent.mounted [0x2f] [0x2f, 0x6d] ['x'] 1 ++ [.die 1, .other 1] ++
    HostEvent.mounted [0x2f] [0x2f, 0x6d] ['y'] 2

/-- `fusey unmount /m` then sends its signal to that process, not to the daemon that
serves `/m`. -/
theorem unmount_signals_other_process :
    ∃ s d, HostReaches anyHistory s ∧ s.daemon 2 = some d ∧ d.Serves ∧
      d.path = absPath [0x2f] [0x2f, 0x6d] ∧ s.procs.get 1 = some none ∧
      s.runUnmount [0x2f] [0x2f, 0x6d] = .signalled 1 := by
  have plays : (MountHost.empty.run diedAndRemounted).map (fun s =>
      (s.daemon 2, decide (s.procs.get 1 = some none ∧
        s.runUnmount [0x2f] [0x2f, 0x6d] = .signalled 1))) =
      some (some ⟨['y'], [0x2f], [0x2f, 0x6d], .ready⟩, true) := by decide +kernel
  obtain ⟨s, ran, result⟩ := Option.map_eq_some_iff.mp plays
  obtain ⟨taken, signalled⟩ := of_decide_eq_true (congrArg Prod.snd result)
  exact ⟨s, _, .of_run .start ran, congrArg Prod.fst result, by decide, rfl, taken, signalled⟩

-- `fusey mount m` in `/a` records the text `m`, which means `/m` to an unmount in `/`.
example : (MountHost.empty.run (HostEvent.mounted [0x2f, 0x61] [0x6d] ['x'] 1)).map (fun s =>
    s.runUnmount [0x2f] [0x2f, 0x61, 0x2f, 0x6d]) = some .noDaemon := by decide +kernel

-- The text `/` and a byte `0xff` is not what `daemon.pid` says.
example : (MountHost.empty.run (HostEvent.mounted [0x2f] [0x2f, 0xff] ['x'] 1)).map (fun s =>
    s.runUnmount [0x2f] [0x2f, 0xff]) = some .noDaemon := by decide +kernel

end Fusey
