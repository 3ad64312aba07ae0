import Fusey.Cmd.Readiness

/-!
Contract: `fusey mount` and its daemon against the state machine of their life cycle
(`specs/mount.qnt`, `cmd/fusey/main.go`).

Owns:
- the state machine, with its actions and invariants, and the two of its invariants
  that its own actions break;
- that every run of the two processes that it covers is a run of the state machine.

The specification has no action for a parent that is killed, for a daemon that is
killed once it has written `daemon.pid`, for a call of `runMount` that fails, its
`io.ReadAll` included, and for a failing `os.WriteFile`, `server.Unmount`, final
persist or `os.Remove`, whose errors the daemon ignores.
-/

set_option autoImplicit false

namespace Fusey

/-! ### The specification -/

namespace MountSpec

inductive ParentState where
  | forking
  | waiting
  | done
  | failed
deriving DecidableEq, Repr

inductive DaemonState where
  | starting
  | ready
  | stopping
  | flushing
  | stopped
deriving DecidableEq, Repr

structure State where
  parentState : ParentState := .forking
  daemonState : DaemonState := .starting
  pipeSignalled : Bool := false
  pidFileExists : Bool := false
  fsAccessible : Bool := false
  indexFlushed : Bool := false
  mountLogExists : Bool := false
deriving DecidableEq, Repr

/-- The actions; `unmountCommandSendsSignal` has the effect of
`daemonReceivesSignal`. -/
inductive Action where
  | parentStartsWaiting
  | daemonMountsSuccessfully
  | daemonMountFails
  | parentSucceeds
  | parentFails
  | daemonReceivesSignal
  | daemonUnmounts
  | daemonFlushes
deriving DecidableEq, Repr

/-- An action, where its requirements are met. -/
def act (s : State) : Action → Option State
  | .parentStartsWaiting =>
      if s.parentState = .forking then
        some { s with parentState := .waiting, mountLogExists := true }
      else none
  | .daemonMountsSuccessfully =>
      if s.daemonState = .starting then
        some { s with
          daemonState := .ready, fsAccessible := true, pidFileExists := true,
          pipeSignalled := true }
      else none
  | .daemonMountFails =>
      if s.daemonState = .starting then
        some { s with
          daemonState := .stopped, fsAccessible := false, pidFileExists := false,
          pipeSignalled := false }
      else none
  | .parentSucceeds =>
      if s.parentState = .waiting ∧ s.pipeSignalled = true then some { s with parentState := .done }
      else none
  | .parentFails =>
      if s.parentState = .waiting ∧ s.pipeSignalled = false ∧ s.daemonState = .stopped then
        some { s with parentState := .failed }
      else none
  | .daemonReceivesSignal =>
      if s.daemonState = .ready then some { s with daemonState := .stopping } else none
  | .daemonUnmounts =>
      if s.daemonState = .stopping then
        some { s with daemonState := .flushing, fsAccessible := false }
      else none
  | .daemonFlushes =>
      if s.daemonState = .flushing then
        some { s with daemonState := .stopped, indexFlushed := true, pidFileExists := false }
      else none

/-- The filesystem is accessible only while the daemon serves, for the
specification. Its action `daemonReceivesSignal` breaks this. -/
def fsAccessibleIffDaemonReady (s : State) : Prop :=
  s.fsAccessible = true ↔ s.daemonState = .ready

/-- The index is flushed before the daemon stops, for the specification. Its action
`daemonMountFails` breaks this. -/
def indexFlushedOnStop (s : State) : Prop :=
  s.daemonState = .stopped → s.indexFlushed = true

/-- The other invariants of the specification. -/
structure Invariant (s : State) : Prop where
  parentDoneImpliesSignalled : s.parentState = .done → s.pipeSignalled = true
  parentFailedImpliesMountLog : s.parentState = .failed → s.mountLogExists = true
  mountLogExistsWhileParentWaiting : s.parentState = .waiting → s.mountLogExists = true
  pidFileExistsWhileReachable : s.pidFileExists = true →
    s.daemonState = .ready ∨ s.daemonState = .stopping ∨ s.daemonState = .flushing
  pidFileGoneWhenStopped : s.daemonState = .stopped → s.pidFileExists = false
  fsInaccessibleWhenStopped : s.daemonState = .stopped → s.fsAccessible = false
  fsInaccessibleWhileFlushing : s.daemonState = .flushing → s.fsAccessible = false

/-- What the actions keep. -/
structure Inductive (s : State) : Prop where
  done : s.parentState = .done → s.pipeSignalled = true
  logged : s.parentState ≠ .forking → s.mountLogExists = true
  accessible : s.fsAccessible = true ↔ s.daemonState = .ready ∨ s.daemonState = .stopping
  pidFile : s.pidFileExists = true ↔
    s.daemonState = .ready ∨ s.daemonState = .stopping ∨ s.daemonState = .flushing
  signalled : s.pipeSignalled = true ↔
    s.daemonState ≠ .starting ∧ (s.daemonState = .stopped → s.indexFlushed = true)
  flushed : s.indexFlushed = true → s.daemonState = .stopped

theorem inductive_act {s next : State} (holds : Inductive s) {action : Action}
    (acted : act s action = some next) : Inductive next := by
  obtain ⟨done, logged, accessible, pidFile, signalled, flushed⟩ := holds
  cases action <;> simp only [act, Option.ite_none_right_eq_some, Option.some.injEq] at acted <;>
    obtain ⟨required, rfl⟩ := acted
  case parentStartsWaiting =>
    exact ⟨fun isDone => (by cases isDone), fun _ => rfl, accessible, pidFile, signalled, flushed⟩
  case daemonMountsSuccessfully =>
    refine ⟨fun _ => rfl, logged, by simp, by simp, by simp, fun isTrue => ?_⟩
    cases required.symm.trans (flushed isTrue)
  case daemonMountFails =>
    refine ⟨fun isDone => ?_, logged, by simp, by simp, ?_, fun _ => rfl⟩
    · exact absurd required (signalled.mp (done isDone)).1
    · have unflushed : s.indexFlushed ≠ true := fun isTrue => by
        cases required.symm.trans (flushed isTrue)
      simpa using unflushed
  case parentSucceeds =>
    exact ⟨fun _ => required.2, fun _ => logged (by simp [required.1]), accessible, pidFile,
      signalled, flushed⟩
  case parentFails =>
    exact ⟨fun isDone => (by cases isDone), fun _ => logged (by simp [required.1]), accessible,
      pidFile, signalled, flushed⟩
  case daemonReceivesSignal =>
    refine ⟨done, logged, ?_, ?_, ?_, fun isTrue => ?_⟩
    · simp [accessible, required]
    · simp [pidFile, required]
    · simp [signalled, required]
    · cases required.symm.trans (flushed isTrue)
  case daemonUnmounts =>
    refine ⟨done, logged, by simp, ?_, ?_, fun isTrue => ?_⟩
    · simp [pidFile, required]
    · simp [signalled, required]
    · cases required.symm.trans (flushed isTrue)
  case daemonFlushes =>
    refine ⟨done, logged, ?_, by simp, ?_, fun _ => rfl⟩
    · simp [accessible, required]
    · simp [signalled, required]

namespace Inductive

variable {s : State}

theorem invariant (holds : Inductive s) : Invariant s := by
  obtain ⟨done, logged, accessible, pidFile, -, -⟩ := holds
  refine ⟨done, fun isFailed => logged (by simp [isFailed]),
    fun isWaiting => logged (by simp [isWaiting]), pidFile.mp, fun isStopped => ?_,
    fun isStopped => ?_, fun isFlushing => ?_⟩
  · simpa [isStopped] using pidFile
  · simpa [isStopped] using accessible
  · simpa [isFlushing] using accessible

/-- The filesystem stays accessible until a daemon that is stopping has unmounted. -/
theorem fsAccessibleIffDaemonReady_iff (holds : Inductive s) :
    fsAccessibleIffDaemonReady s ↔ s.daemonState ≠ .stopping := by
  rw [fsAccessibleIffDaemonReady, holds.accessible]
  cases s.daemonState <;> simp

/-- A daemon that failed to mount has stopped and flushed nothing. -/
theorem indexFlushedOnStop_iff (holds : Inductive s) :
    indexFlushedOnStop s ↔ (s.daemonState = .stopped → s.pipeSignalled = true) := by
  rw [indexFlushedOnStop, holds.signalled]
  exact ⟨fun onStop isStopped => ⟨by simp [isStopped], onStop⟩,
    fun signals isStopped => (signals isStopped).2 isStopped⟩

end Inductive

end MountSpec

/-! ### The refinement -/

/-- The state of the specification that the parent is in. -/
def ParentPhase.spec : ParentPhase → MountSpec.ParentState
  | .closeWrite | .readAll => .waiting
  | .mounted => .done
  | .fatal _ | .killed => .failed
  | _ => .forking

/-- The state of the specification that the daemon is in. The mount, the PID file and
the signal are one action there, which is the signal here. -/
def DaemonStage.spec : DaemonStage → MountSpec.DaemonState
  | .closePipe | .register | .serve => .ready
  | .unmount => .stopping
  | .flush | .removePid => .flushing
  | .giveUp | .exited => .stopped
  | _ => .starting

/-- The parent has not been killed, and has ended on the pipe alone. -/
def ParentPhase.orderly : ParentPhase → Bool
  | .killed => false
  | .fatal failure => failure = .notReady false
  | _ => true

/-- The daemon is up, and has not written `daemon.pid`. -/
def DaemonStage.unannounced : DaemonStage → Bool
  | .setUp | .build | .mount | .abandon | .giveUp | .writePid => true
  | _ => false

/-- The daemon has called `signal.Notify`. -/
def DaemonStage.notified : DaemonStage → Bool
  | .serve | .unmount | .flush | .removePid => true
  | _ => false

namespace Mounting

/-- Events that the specification covers: the calls of the parent and the daemon's
file operations succeed, nobody kills the parent, and no signal ends the daemon
between its `daemon.pid` and `signal.Notify`. -/
def Covered (s : Mounting) : MountEvent → Prop
  | .parent ok => s.parent ≠ .closeWrite → ok = true
  | .daemon ok =>
      s.daemon = .writePid ∨ s.daemon = .unmount ∨ s.daemon = .flush ∨ s.daemon = .removePid →
        ok = true
  | .signal => s.daemon.unannounced = true ∨ s.daemon.notified = true
  | .killParent => False
  | .killDaemon => s.daemon.unannounced = true

instance (s : Mounting) (event : MountEvent) : Decidable (s.Covered event) := by
  induction event using MountEvent.casesOn <;> dsimp only [Mounting.Covered] <;> infer_instance

/-- A step that the specification covers. -/
def coveredStep (s : Mounting) (event : MountEvent) : Option Mounting :=
  if s.Covered event then s.step event else none

/-- The actions that the end of a daemon amounts to that has not called
`signal.Notify`. -/
def endings (s : Mounting) : List MountSpec.Action :=
  if s.daemon = .giveUp then [] else [.daemonMountFails]

/-- The actions that a step amounts to. -/
def actions (s : Mounting) : MountEvent → List MountSpec.Action
  | .parent _ =>
      match s.parent with
      | .start => [.parentStartsWaiting]
      | .readAll => if s.pipe = readyLine then [.parentSucceeds] else [.parentFails]
      | _ => []
  | .daemon ok =>
      match s.daemon with
      | .setUp | .build => if ok then [] else [.daemonMountFails]
      | .abandon => [.daemonMountFails]
      | .sendReady => [.daemonMountsSuccessfully]
      | .unmount => [.daemonUnmounts]
      | .removePid => [.daemonFlushes]
      | _ => []
  | .signal =>
      match s.daemon with
      | .serve => [.daemonReceivesSignal]
      -- A second signal waits in the channel.
      | .unmount | .flush | .removePid => []
      | _ => s.endings
  | .killDaemon => s.endings
  | .killParent => []

/-- The system represents a state of the specification. Where the specification does
at once what takes several calls, the files and the mount are ahead of it: the mount
and `daemon.pid` until the signal is sent, the flush until `daemon.pid` is removed,
and `mount.log` until the daemon is started. -/
structure Mirrors (s : Mounting) (a : MountSpec.State) : Prop where
  parent : a.parentState = s.parent.spec
  daemon : a.daemonState = s.daemon.spec
  pipe : a.pipeSignalled = true ↔ s.pipe = readyLine
  pidFile : s.pidFile = (a.pidFileExists || decide (s.daemon = .sendReady))
  accessible : s.accessible =
    (a.fsAccessible || decide (s.daemon = .writePid ∨ s.daemon = .sendReady))
  flushed : s.flushed = (a.indexFlushed || decide (s.daemon = .removePid))
  mountLog : s.mountLog = (a.mountLogExists ||
    decide (s.parent = .makePipe ∨ s.parent = .findExe ∨ s.parent = .start))

/-- The relation that every covered step keeps. -/
structure Tracks (s : Mounting) (a : MountSpec.State) : Prop where
  mirrors : s.Mirrors a
  settled : s.parent.orderly = true
  daemonTrue : s.DaemonTrue
  parentTrue : s.ParentTrue
  kept : MountSpec.Inductive a

namespace Tracks

variable {s next : Mounting} {a : MountSpec.State}

/-- Actions that lead to what represents the next state. -/
theorem of_step (tracks : s.Tracks a) {event : MountEvent} (taken : s.step event = some next)
    (a' : MountSpec.State) (acted : Simulation.run MountSpec.act a (s.actions event) = some a')
    (mirrors : next.Mirrors a') (settled : next.parent.orderly = true) :
    ∃ a', Simulation.run MountSpec.act a (s.actions event) = some a' ∧ next.Tracks a' := by
  obtain ⟨daemonTrue, parentTrue⟩ := true_step ⟨tracks.daemonTrue, tracks.parentTrue⟩ taken
  refine ⟨a', acted, mirrors, settled, daemonTrue, parentTrue, ?_⟩
  exact Simulation.run_invariant (fun _ _ _ holds acted => MountSpec.inductive_act holds acted)
    acted tracks.kept

/-- A step that is none for the specification. -/
theorem of_quiet (tracks : s.Tracks a) {event : MountEvent} (taken : s.step event = some next)
    (quiet : s.actions event = []) (mirrors : next.Mirrors a)
    (settled : next.parent.orderly = true) :
    ∃ a', Simulation.run MountSpec.act a (s.actions event) = some a' ∧ next.Tracks a' := by
  refine tracks.of_step taken a ?_ mirrors settled
  rw [quiet]
  rfl

theorem parentStep (tracks : s.Tracks a) {ok : Bool} (covered : s.Covered (.parent ok))
    (taken : s.step (.parent ok) = some next) :
    ∃ a', Simulation.run MountSpec.act a (s.actions (.parent ok)) = some a' ∧ next.Tracks a' := by
  obtain ⟨parent, daemon, pipe, pidFile, accessible, flushed, mountLog⟩ := tracks.mirrors
  have stepped := taken
  by_cases closes : s.parent = .closeWrite
  · rw [closes] at parent mountLog
    simp only [Mounting.step, Mounting.parentStep, closes] at taken
    cases taken
    exact tracks.of_quiet stepped (by simp only [actions, closes])
      ⟨parent, daemon, pipe, pidFile, accessible, flushed, mountLog⟩ rfl
  cases covered closes
  cases at_ : s.parent <;> rw [at_] at parent mountLog <;>
    simp only [Mounting.step, Mounting.parentStep, at_, if_true, reduceCtorEq] at taken
  case closeWrite => exact absurd at_ closes
  case start =>
    cases taken
    have isAbsent : s.daemon = .absent :=
      (tracks.parentTrue.began (by rw [at_]; rfl)).mpr (by rw [at_]; decide)
    rw [isAbsent] at daemon pidFile accessible flushed
    refine tracks.of_step stepped { a with parentState := .waiting, mountLogExists := true } ?_
      ⟨rfl, daemon, pipe, pidFile, accessible, flushed, ?_⟩ rfl
    · simp only [actions, at_, Simulation.run, MountSpec.act, parent, ParentPhase.spec, if_true,
        Option.bind_some]
    · exact tracks.parentTrue.mountLog (by rw [at_]; rfl)
  case readAll =>
    split_ifs at taken with blocked isReady <;> cases taken
    · refine tracks.of_step stepped { a with parentState := .done } ?_
        ⟨rfl, daemon, pipe, pidFile, accessible, flushed, mountLog⟩ rfl
      simp only [actions, at_, if_pos isReady, Simulation.run, MountSpec.act, parent,
        ParentPhase.spec, pipe.mpr isReady, and_self, if_true, Option.bind_some]
    · -- The pipe has ended, so the daemon has.
      have closed : s.daemon.holdsPipe = false :=
        (Bool.or_eq_false_iff.mp ((Bool.not_eq_true _).mp blocked)).2
      have unsent : (.sendReady, true) ∉ s.steps := fun isSent =>
        isReady (tracks.daemonTrue.pipe.resolve_right fun silent => silent.1 isSent).2
      obtain ⟨ended, -⟩ := ended_of_silence tracks.daemonTrue tracks.parentTrue at_ closed unsent
      have isStopped : a.daemonState = .stopped := by
        rw [daemon]
        rcases ended with isIt | isIt <;> rw [isIt] <;> rfl
      have silent : a.pipeSignalled = false := (Bool.not_eq_true _).mp fun isTrue =>
        isReady (pipe.mp isTrue)
      refine tracks.of_step stepped { a with parentState := .failed } ?_
        ⟨rfl, daemon, pipe, pidFile, accessible, flushed, mountLog⟩ rfl
      simp only [actions, at_, if_neg isReady, Simulation.run, MountSpec.act, parent,
        ParentPhase.spec, silent, isStopped, and_self, if_true, Option.bind_some]
  case openLog =>
    cases taken
    refine tracks.of_quiet stepped (by simp only [actions, at_])
      ⟨parent, daemon, pipe, pidFile, accessible, flushed, ?_⟩ rfl
    exact (Bool.or_true _).symm
  -- The other calls leave `mount.log` as it is.
  all_goals
    cases taken
    exact tracks.of_quiet stepped (by simp only [actions, at_])
      ⟨parent, daemon, pipe, pidFile, accessible, flushed, mountLog⟩ rfl

/-- The daemon has sent nothing and written no `daemon.pid`, and ends. -/
theorem of_mountFails (tracks : s.Tracks a) {event : MountEvent}
    (taken : s.step event = some next) (fails : s.actions event = [.daemonMountFails])
    (starting : s.daemon.spec = .starting) (unannounced : s.daemon.unannounced = true)
    (same : next = { s with
      daemon := next.daemon, accessible := next.accessible, steps := next.steps })
    (dark : next.accessible = false) (ends : next.daemon = .giveUp ∨ next.daemon = .exited) :
    ∃ a', Simulation.run MountSpec.act a (s.actions event) = some a' ∧ next.Tracks a' := by
  obtain ⟨parent, daemon, pipe, pidFile, -, flushed, mountLog⟩ := tracks.mirrors
  have isStarting : a.daemonState = .starting := daemon.trans starting
  have unsignalled : a.pipeSignalled ≠ true := fun isTrue =>
    (tracks.kept.signalled.mp isTrue).1 isStarting
  have noFile : a.pidFileExists = false := by simpa [isStarting] using tracks.kept.pidFile
  have notSending : s.daemon ≠ .sendReady := fun isIt => by
    rw [isIt] at unannounced
    cases unannounced
  have notRemoving : s.daemon ≠ .removePid := fun isIt => by
    rw [isIt] at starting
    cases starting
  have later : next.daemon ≠ .sendReady ∧ next.daemon ≠ .writePid ∧ next.daemon ≠ .removePid ∧
      next.daemon.spec = .stopped := by
    rcases ends with isIt | isIt <;> rw [isIt] <;> decide
  obtain ⟨laterSending, laterWriting, laterRemoving, isStopped⟩ := later
  simp only [noFile, notSending, decide_false, Bool.or_false] at pidFile
  simp only [notRemoving, decide_false, Bool.or_false] at flushed
  refine tracks.of_step taken { a with
    daemonState := .stopped, fsAccessible := false, pidFileExists := false,
    pipeSignalled := false } ?_ ⟨?_, isStopped.symm, ?_, ?_, ?_, ?_, ?_⟩ ?_
  · rw [fails]
    simp only [Simulation.run, MountSpec.act, isStarting, if_true, Option.bind_some]
  · rw [same]
    exact parent
  · rw [same]
    exact iff_of_false (fun isTrue => by cases isTrue) fun isReady => unsignalled (pipe.mpr isReady)
  · simp only [laterSending, decide_false, Bool.or_false]
    rw [same]
    exact pidFile
  · simp only [laterSending, laterWriting, or_self, decide_false, Bool.or_false]
    exact dark
  · simp only [laterRemoving, decide_false, Bool.or_false]
    rw [same]
    exact flushed
  · rw [same]
    exact mountLog
  · rw [same]
    exact tracks.settled

/-- A process that is ended before it has written `daemon.pid`. -/
theorem ended (tracks : s.Tracks a) {event : MountEvent} (taken : s.step event = some s.exit)
    (ends : s.actions event = s.endings) (unannounced : s.daemon.unannounced = true) :
    ∃ a', Simulation.run MountSpec.act a (s.actions event) = some a' ∧ s.exit.Tracks a' := by
  by_cases givesUp : s.daemon = .giveUp
  · obtain ⟨parent, daemon, pipe, pidFile, accessible, flushed, mountLog⟩ := tracks.mirrors
    rw [givesUp] at daemon pidFile flushed
    have dark := tracks.kept.invariant.fsInaccessibleWhenStopped daemon
    exact tracks.of_quiet taken (ends.trans (if_pos givesUp))
      ⟨parent, daemon, pipe, pidFile, by rw [dark]; rfl, flushed, mountLog⟩ tracks.settled
  · refine tracks.of_mountFails taken (ends.trans (if_neg givesUp)) ?_ unannounced rfl rfl
      (Or.inr rfl)
    cases at_ : s.daemon <;> rw [at_] at unannounced givesUp
    case giveUp => exact absurd rfl givesUp
    all_goals first
      | rfl
      | cases unannounced

/-- When the ready line is sent the parent still reads: it has started the daemon and
has not ended. -/
theorem parent_reads (tracks : s.Tracks a) (at_ : s.daemon = .sendReady)
    (unsent : ∀ sent, (.sendReady, sent) ∉ s.steps) : s.parent.reads = true := by
  have settled := tracks.settled
  have began := tracks.parentTrue.began
  cases isAt : s.parent <;> rw [isAt] at began settled
  case closeWrite => rfl
  case readAll => rfl
  case findExe => rfl
  case start => rfl
  case mounted => exact absurd (tracks.parentTrue.mounted isAt) (unsent true)
  case killed => cases settled
  case fatal failure =>
    cases of_decide_eq_true settled
    rcases (tracks.parentTrue.failed isAt).1 with h | h <;> cases at_.symm.trans h
  all_goals cases at_.symm.trans ((began rfl).mpr (by decide))

theorem daemonStep (tracks : s.Tracks a) {ok : Bool} (covered : s.Covered (.daemon ok))
    (taken : s.step (.daemon ok) = some next) :
    ∃ a', Simulation.run MountSpec.act a (s.actions (.daemon ok)) = some a' ∧ next.Tracks a' := by
  obtain ⟨parent, daemon, pipe, pidFile, accessible, flushed, mountLog⟩ := tracks.mirrors
  have settled := tracks.settled
  have stepped := taken
  cases at_ : s.daemon <;> rw [at_] at daemon pidFile accessible flushed <;>
    simp only [Mounting.step, Mounting.daemonStep, at_, reduceCtorEq] at taken
  case setUp =>
    split_ifs at taken with success <;> cases taken
    · exact tracks.of_quiet stepped (by simp only [actions, at_, success, if_true])
        ⟨parent, daemon, pipe, pidFile, accessible, flushed, mountLog⟩ settled
    · exact tracks.of_mountFails stepped (by simp only [actions, at_, if_neg success])
        (by rw [at_]; rfl) (by rw [at_]; rfl) rfl rfl (Or.inr rfl)
  case build =>
    split_ifs at taken with success <;> cases taken
    · exact tracks.of_quiet stepped (by simp only [actions, at_, success, if_true])
        ⟨parent, daemon, pipe, pidFile, accessible, flushed, mountLog⟩ settled
    · exact tracks.of_mountFails stepped (by simp only [actions, at_, if_neg success])
        (by rw [at_]; rfl) (by rw [at_]; rfl) rfl rfl (Or.inr rfl)
  case mount =>
    split_ifs at taken <;> cases taken
    · exact tracks.of_quiet stepped (by simp only [actions, at_])
        ⟨parent, daemon, pipe, pidFile, (Bool.or_true _).symm, flushed, mountLog⟩ settled
    · exact tracks.of_quiet stepped (by simp only [actions, at_])
        ⟨parent, daemon, pipe, pidFile, accessible, flushed, mountLog⟩ settled
  case abandon =>
    cases taken
    have dark : a.fsAccessible = false := by simpa [daemon, DaemonStage.spec] using
      tracks.kept.accessible
    refine tracks.of_mountFails stepped (by simp only [actions, at_]) (by rw [at_]; rfl)
      (by rw [at_]; rfl) rfl ?_ (Or.inl rfl)
    exact accessible.trans (by rw [dark]; rfl)
  case giveUp =>
    cases taken
    have dark := tracks.kept.invariant.fsInaccessibleWhenStopped daemon
    exact tracks.of_quiet stepped (by simp only [actions, at_])
      ⟨parent, daemon, pipe, pidFile, by rw [dark]; rfl, flushed, mountLog⟩ settled
  case writePid =>
    cases taken
    cases covered (Or.inl at_)
    exact tracks.of_quiet stepped (by simp only [actions, at_])
      ⟨parent, daemon, pipe, (Bool.or_true _).symm, accessible, flushed, mountLog⟩ settled
  case sendReady =>
    have unsent := tracks.daemonTrue.unsent (Or.inr (Or.inr (Or.inr (Or.inr (Or.inr at_)))))
    have empty : s.pipe = [] :=
      (tracks.daemonTrue.pipe.resolve_left fun isSent => unsent true isSent.1).2
    rw [if_pos (tracks.parent_reads at_ unsent)] at taken
    cases taken
    refine tracks.of_step stepped { a with
      daemonState := .ready, fsAccessible := true, pidFileExists := true, pipeSignalled := true } ?_
      ⟨parent, rfl, iff_of_true rfl ?_, pidFile.trans (Bool.or_true _),
        accessible.trans (Bool.or_true _), flushed, mountLog⟩ settled
    · simp only [actions, at_, Simulation.run, MountSpec.act, daemon, DaemonStage.spec, if_true,
        Option.bind_some]
    · dsimp only
      rw [empty]
      rfl
  case closePipe =>
    cases taken
    exact tracks.of_quiet stepped (by simp only [actions, at_])
      ⟨parent, daemon, pipe, pidFile, accessible, flushed, mountLog⟩ settled
  case register =>
    cases taken
    exact tracks.of_quiet stepped (by simp only [actions, at_])
      ⟨parent, daemon, pipe, pidFile, accessible, flushed, mountLog⟩ settled
  case unmount =>
    cases taken
    cases covered (Or.inr (Or.inl at_))
    refine tracks.of_step stepped { a with daemonState := .flushing, fsAccessible := false } ?_
      ⟨parent, rfl, pipe, pidFile, rfl, flushed, mountLog⟩ settled
    simp only [actions, at_, Simulation.run, MountSpec.act, daemon, DaemonStage.spec, if_true,
      Option.bind_some]
  case flush =>
    cases taken
    cases covered (Or.inr (Or.inr (Or.inl at_)))
    exact tracks.of_quiet stepped (by simp only [actions, at_])
      ⟨parent, daemon, pipe, pidFile, accessible, (Bool.or_true _).symm, mountLog⟩ settled
  case removePid =>
    cases taken
    cases covered (Or.inr (Or.inr (Or.inr at_)))
    have dark := tracks.kept.invariant.fsInaccessibleWhileFlushing daemon
    refine tracks.of_step stepped { a with
      daemonState := .stopped, indexFlushed := true, pidFileExists := false } ?_
      ⟨parent, rfl, pipe, rfl, by rw [dark]; rfl, flushed.trans (Bool.or_true _), mountLog⟩ settled
    simp only [actions, at_, Simulation.run, MountSpec.act, daemon, DaemonStage.spec, if_true,
      Option.bind_some]

theorem signalStep (tracks : s.Tracks a) (covered : s.Covered .signal)
    (taken : s.step .signal = some next) :
    ∃ a', Simulation.run MountSpec.act a (s.actions .signal) = some a' ∧ next.Tracks a' := by
  have mirrors := tracks.mirrors
  have stepped := taken
  cases at_ : s.daemon <;>
    simp only [Mounting.step, Mounting.signalStep, at_, reduceCtorEq] at taken
  case serve =>
    obtain ⟨parent, daemon, pipe, pidFile, accessible, flushed, mountLog⟩ := mirrors
    rw [at_] at daemon pidFile accessible flushed
    cases taken
    refine tracks.of_step stepped { a with daemonState := .stopping } ?_
      ⟨parent, rfl, pipe, pidFile, accessible, flushed, mountLog⟩ tracks.settled
    simp only [actions, at_, Simulation.run, MountSpec.act, daemon, DaemonStage.spec, if_true,
      Option.bind_some]
  case unmount =>
    cases taken
    exact tracks.of_quiet stepped (by simp only [actions, at_]) mirrors tracks.settled
  case flush =>
    cases taken
    exact tracks.of_quiet stepped (by simp only [actions, at_]) mirrors tracks.settled
  case removePid =>
    cases taken
    exact tracks.of_quiet stepped (by simp only [actions, at_]) mirrors tracks.settled
  all_goals
    cases taken
    have unannounced : s.daemon.unannounced = true :=
      covered.resolve_right fun isNotified => by rw [at_] at isNotified; cases isNotified
    exact tracks.ended stepped (by simp only [actions, at_]) unannounced

/-- One covered step is its actions. -/
theorem step (tracks : s.Tracks a) {event : MountEvent}
    (taken : s.coveredStep event = some next) :
    ∃ a', Simulation.run MountSpec.act a (s.actions event) = some a' ∧ next.Tracks a' := by
  unfold Mounting.coveredStep at taken
  split_ifs at taken with covered
  cases event with
  | parent ok => exact tracks.parentStep covered taken
  | daemon ok => exact tracks.daemonStep covered taken
  | signal => exact tracks.signalStep covered taken
  | killParent => exact covered.elim
  | killDaemon =>
      have stepped := taken
      dsimp only [Mounting.step] at taken
      split_ifs at taken
      cases taken
      exact tracks.ended stepped rfl covered

end Tracks

/-- Every run of `fusey mount` and its daemon that the specification covers is a run
of the specification: its steps are the actions `actions` says, in their order, and
the state that they lead to is the one the two processes are in. It has the
specification's invariants but for two, which fail just where the actions of the
specification break them: while the daemon is stopping and still mounted, and once
it has stopped without a mount. -/
theorem mount_refines_specification {s : Mounting} {events : List MountEvent}
    (ran : Simulation.run coveredStep {} events = some s) :
    ∃ a, Simulation.run MountSpec.act {} (Simulation.trace coveredStep actions {} events) = some a ∧
      s.Mirrors a ∧ MountSpec.Invariant a ∧
      (MountSpec.fsAccessibleIffDaemonReady a ↔ a.daemonState ≠ .stopping) ∧
      (MountSpec.indexFlushedOnStop a ↔ (a.daemonState = .stopped → a.pipeSignalled = true)) := by
  have initial : ({} : Mounting).Tracks {} := by
    obtain ⟨daemonTrue, parentTrue⟩ := true_initial
    refine ⟨⟨rfl, rfl, by decide, rfl, rfl, rfl, rfl⟩, rfl, daemonTrue, parentTrue, ?_⟩
    exact ⟨by decide, by decide, by decide, by decide, by decide, by decide⟩
  have stepwise : ∀ (s : Mounting) event next (a : MountSpec.State), True → s.Tracks a →
      s.coveredStep event = some next →
      ∃ a', Simulation.run MountSpec.act a (s.actions event) = some a' ∧ next.Tracks a' :=
    fun _ _ _ _ _ tracks taken => tracks.step taken
  obtain ⟨a, acted, tracks⟩ := Simulation.run_trace stepwise (fun _ _ => trivial) initial ran
  have holds := tracks.kept
  exact ⟨a, acted, tracks.mirrors, holds.invariant, holds.fsAccessibleIffDaemonReady_iff,
    holds.indexFlushedOnStop_iff⟩

/-- A daemon that serves, gets two signals and ends; one in between, which breaks
`fsAccessibleIffDaemonReady`; and one that fails to mount, which breaks
`indexFlushedOnStop`. -/
theorem mount_refines_specification_stopped :
    (∃ s a, Simulation.run coveredStep {} (plainMount ++ [.daemon true, .signal, .signal] ++
        List.replicate 3 (.daemon true)) = some s ∧
      Simulation.run MountSpec.act {} [.parentStartsWaiting, .daemonMountsSuccessfully,
        .parentSucceeds, .daemonReceivesSignal, .daemonUnmounts, .daemonFlushes] = some a ∧
      s.daemon = .exited ∧ s.parent = .mounted ∧ s.Mirrors a ∧ MountSpec.Invariant a) ∧
    (∃ s a, Simulation.run coveredStep {} (plainMount ++ [.daemon true, .signal]) = some s ∧
      Simulation.run MountSpec.act {} [.parentStartsWaiting, .daemonMountsSuccessfully,
        .parentSucceeds, .daemonReceivesSignal] = some a ∧
      s.Mirrors a ∧ ¬ MountSpec.fsAccessibleIffDaemonReady a) ∧
    ∃ s a, Simulation.run coveredStep {} (List.replicate 7 (.parent true) ++
        [.daemon true, .daemon false, .parent true]) = some s ∧
      Simulation.run MountSpec.act {} [.parentStartsWaiting, .daemonMountFails, .parentFails] =
        some a ∧
      s.Mirrors a ∧ ¬ MountSpec.indexFlushedOnStop a := by
  have ends : (Simulation.run coveredStep {} (plainMount ++ [.daemon true, .signal, .signal] ++
      List.replicate 3 (.daemon true))).map (fun s => (s.daemon, s.parent)) =
      some (.exited, .mounted) := by
    decide +kernel
  have stops : (Simulation.run coveredStep {} (plainMount ++ [.daemon true, .signal])).map
      (fun s => s.daemon) = some .unmount := by
    decide +kernel
  have fails : (Simulation.run coveredStep {} (List.replicate 7 (.parent true) ++
      [.daemon true, .daemon false, .parent true])).map (fun s => (s.daemon, s.pipe)) =
      some (.exited, []) := by
    decide +kernel
  obtain ⟨s, ran, shown⟩ := Option.map_eq_some_iff.mp ends
  obtain ⟨s', ran', shown'⟩ := Option.map_eq_some_iff.mp stops
  obtain ⟨s'', ran'', shown''⟩ := Option.map_eq_some_iff.mp fails
  obtain ⟨ended, isMounted⟩ := Prod.mk.inj shown
  obtain ⟨ended'', empty⟩ := Prod.mk.inj shown''
  obtain ⟨a, acted, mirrors, invariant, -, -⟩ := mount_refines_specification ran
  obtain ⟨a', acted', mirrors', -, accessible, -⟩ := mount_refines_specification ran'
  obtain ⟨a'', acted'', mirrors'', -, -, flushed⟩ := mount_refines_specification ran''
  refine ⟨⟨s, a, ran, ?_, ended, isMounted, mirrors, invariant⟩, ⟨s', a', ran', ?_, mirrors', ?_⟩,
    s'', a'', ran'', ?_, mirrors'', ?_⟩
  · rw [← acted]
    exact congrArg _ (by decide +kernel)
  · rw [← acted']
    exact congrArg _ (by decide +kernel)
  · rw [accessible, mirrors'.daemon, shown']
    exact fun isNot => isNot rfl
  · rw [← acted'']
    exact congrArg _ (by decide +kernel)
  · rw [flushed, mirrors''.daemon, mirrors''.pipe, ended'', empty]
    exact fun signals => by cases signals rfl

end Mounting

end Fusey
