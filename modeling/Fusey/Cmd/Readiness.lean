import Fusey.GoLib.Simulation
import Fusey.Chunks.Store

/-!
Contract: how `fusey mount` learns whether its daemon came up
(`cmd/fusey/main.go`).

Owns:
- `runMount` and `runDaemon` as two processes with a pipe between them, each at the
  call it is about to make, with every failure the two handle and with processes
  that are killed;
- what the exit status of `fusey mount` says about the daemon, and that it always
  gets to say it.

What the daemon serves, and how `fusey unmount` finds it, is elsewhere.
-/

set_option autoImplicit false

namespace Fusey

/-! ### The two processes -/

/-- What `runMount` gives up on, in the order of its calls. `notReady` is the end of
the pipe without the signal, or an error while reading it. -/
inductive MountFailure where
  | config
  | daemonDir
  | mountLog
  | pipe
  | executable
  | startDaemon
  | notReady (readError : Bool)
deriving DecidableEq, Repr

/-- The call that `runMount` is about to make, or how it has ended. -/
inductive ParentPhase where
  | loadConfig
  | makeDir
  | openLog
  | makePipe
  | findExe
  | start
  | closeWrite
  | readAll
  | mounted
  | fatal (failure : MountFailure)
  | killed
deriving DecidableEq, Repr

/-- The call that `runDaemon` is about to make. `absent` is before `cmd.Start`;
`setUp` is its configuration, directory and log; `build` the store and the index;
`abandon` the close of the pipe after a failed mount, and `giveUp` the
`log.Fatalf` behind it; `register` is `signal.Notify`, and `serve` the wait for a
signal. -/
inductive DaemonStage where
  | absent
  | setUp
  | build
  | mount
  | abandon
  | giveUp
  | writePid
  | sendReady
  | closePipe
  | register
  | serve
  | unmount
  | flush
  | removePid
  | exited
deriving DecidableEq, Repr

/-- The process has not ended. -/
def ParentPhase.runs : ParentPhase → Bool
  | .mounted | .fatal _ | .killed => false
  | _ => true

/-- The read end of the pipe is open. -/
def ParentPhase.reads : ParentPhase → Bool
  | .findExe | .start | .closeWrite | .readAll => true
  | _ => false

/-- `mount.log` has been opened, as it is before the daemon starts. -/
def ParentPhase.logged : ParentPhase → Bool
  | .makePipe | .findExe | .start | .closeWrite | .readAll | .mounted | .fatal (.notReady _) => true
  | _ => false

/-- The write end of the pipe, fd 3, is open in the daemon. -/
def DaemonStage.holdsPipe : DaemonStage → Bool
  | .setUp | .build | .mount | .abandon | .writePid | .sendReady | .closePipe => true
  | _ => false

/-- The line that says the filesystem is mounted. -/
def readyLine : Key := "ready\n".toList

/-- The two processes, the pipe, the files of the daemon's directory and the mount.
`steps` are the calls the daemon has made, the latest first, with how they ended. -/
structure Mounting where
  parent : ParentPhase := .loadConfig
  daemon : DaemonStage := .absent
  parentHolds : Bool := false
  pipe : Key := []
  mountLog : Bool := false
  pidFile : Bool := false
  accessible : Bool := false
  flushed : Bool := false
  steps : List (DaemonStage × Bool) := []
deriving DecidableEq

/-- A call of one of the processes, with whether it succeeds; a `SIGTERM` for the
daemon; or the abrupt end of a process. -/
inductive MountEvent where
  | parent (ok : Bool)
  | daemon (ok : Bool)
  | signal
  | killParent
  | killDaemon
deriving DecidableEq, Repr

namespace Mounting

/-- The daemon makes the call it is at. -/
def advance (s : Mounting) (ok : Bool) (next : DaemonStage) : Mounting :=
  { s with daemon := next, steps := (s.daemon, ok) :: s.steps }

/-- The daemon ends, and with it the filesystem. -/
def exit (s : Mounting) : Mounting := { s with daemon := .exited, accessible := false }

/-- The next call of `runMount`. -/
def parentStep (s : Mounting) (ok : Bool) : Option Mounting :=
  match s.parent with
  | .loadConfig => some { s with parent := if ok then .makeDir else .fatal .config }
  | .makeDir => some { s with parent := if ok then .openLog else .fatal .daemonDir }
  | .openLog =>
      if ok then some { s with parent := .makePipe, mountLog := true }
      else some { s with parent := .fatal .mountLog }
  | .makePipe =>
      if ok then some { s with parent := .findExe, parentHolds := true }
      else some { s with parent := .fatal .pipe }
  | .findExe =>
      if ok then some { s with parent := .start }
      else some { s with parent := .fatal .executable, parentHolds := false }
  | .start =>
      if ok then some { s with parent := .closeWrite, daemon := .setUp }
      else some { s with parent := .fatal .startDaemon, parentHolds := false }
  | .closeWrite => some { s with parent := .readAll, parentHolds := false }
  | .readAll =>
      -- `io.ReadAll` returns at the end of the pipe, or with an error.
      if ok then
        if s.parentHolds || s.daemon.holdsPipe then none
        else some { s with
          parent := if s.pipe = readyLine then .mounted else .fatal (.notReady false) }
      else some { s with parent := .fatal (.notReady true) }
  | .mounted | .fatal _ | .killed => none

/-- The next call of `runDaemon`. -/
def daemonStep (s : Mounting) (ok : Bool) : Option Mounting :=
  match s.daemon with
  | .setUp => if ok then some (s.advance ok .build) else some (s.advance ok .exited).exit
  | .build => if ok then some (s.advance ok .mount) else some (s.advance ok .exited).exit
  | .mount =>
      if ok then some { s.advance ok .writePid with accessible := true }
      else some (s.advance ok .abandon)
  | .abandon => some (s.advance ok .giveUp)
  | .giveUp => some (s.advance ok .exited).exit
  | .writePid => some { s.advance ok .sendReady with pidFile := ok }
  | .sendReady =>
      -- The write fails if nobody reads; its error is ignored.
      if s.parent.reads then some { s.advance true .closePipe with pipe := s.pipe ++ readyLine }
      else some (s.advance false .closePipe)
  | .closePipe => some (s.advance ok .register)
  | .register => some (s.advance true .serve)
  | .unmount =>
      -- A failed unmount is logged, and the daemon goes on.
      some { s.advance ok .flush with accessible := if ok then false else s.accessible }
  | .flush => some { s.advance ok .removePid with flushed := ok }
  | .removePid =>
      some { (s.advance ok .exited).exit with pidFile := if ok then false else s.pidFile }
  | .absent | .serve | .exited => none

/-- A signal ends the wait of a daemon that serves, waits in the channel of one that
is stopping, and ends one that has not called `signal.Notify`. -/
def signalStep (s : Mounting) : Option Mounting :=
  match s.daemon with
  | .absent | .exited => none
  | .serve => some (s.advance true .unmount)
  | .unmount | .flush | .removePid => some s
  | _ => some s.exit

/-- One step of the system. -/
def step (s : Mounting) : MountEvent → Option Mounting
  | .parent ok => s.parentStep ok
  | .daemon ok => s.daemonStep ok
  | .signal => s.signalStep
  | .killParent =>
      if s.parent.runs then some { s with parent := .killed, parentHolds := false } else none
  | .killDaemon => if s.daemon = .absent ∨ s.daemon = .exited then none else some s.exit

end Mounting

/-! ### What the parent knows -/

/-- The calls of a daemon that has mounted, the latest first. -/
def cameUp : List (DaemonStage × Bool) := [(.mount, true), (.build, true), (.setUp, true)]

/-- The calls that a daemon has made before it gets to a stage, as far as they matter
here. -/
def DaemonStage.After (steps : List (DaemonStage × Bool)) : DaemonStage → Prop
  | .absent | .setUp => steps = []
  | .build => steps = [(.setUp, true)]
  | .mount => steps = [(.build, true), (.setUp, true)]
  | .writePid => steps = cameUp
  | .sendReady => ∃ ok, steps = (.writePid, ok) :: cameUp
  | .abandon | .giveUp => ∀ sent, (.sendReady, sent) ∉ steps
  | .closePipe | .register | .serve | .unmount | .flush | .removePid =>
      ∃ sent, (.sendReady, sent) ∈ steps
  | .exited => True

/-- The daemon has mounted the filesystem and not ended. -/
def DaemonStage.afterMount : DaemonStage → Bool
  | .writePid | .sendReady | .closePipe | .register => true
  | .serve | .unmount | .flush | .removePid => true
  | _ => false

/-- What holds of the daemon, whatever the parent does. -/
structure Mounting.DaemonTrue (s : Mounting) : Prop where
  after : s.daemon.After s.steps
  order : ∀ sent, (.sendReady, sent) ∈ s.steps →
    ∃ ok, (.sendReady, sent) :: (.writePid, ok) :: cameUp <:+ s.steps
  pipe : (.sendReady, true) ∈ s.steps ∧ s.pipe = readyLine ∨
    (.sendReady, true) ∉ s.steps ∧ s.pipe = []
  access : s.accessible = true → s.daemon.afterMount = true

/-- What holds of the parent, whatever the daemon does. -/
structure Mounting.ParentTrue (s : Mounting) : Prop where
  began : s.parent.runs = true → (s.daemon = .absent ↔ s.parent ≠ .closeWrite ∧ s.parent ≠ .readAll)
  /-- While somebody reads, the signal is not lost. -/
  heard : s.parent.reads = true → (.sendReady, false) ∉ s.steps
  mounted : s.parent = .mounted → (.sendReady, true) ∈ s.steps
  failed : s.parent = .fatal (.notReady false) →
    (s.daemon = .giveUp ∨ s.daemon = .exited) ∧ ∀ sent, (.sendReady, sent) ∉ s.steps
  mountLog : s.parent.logged = true → s.mountLog = true

namespace Mounting

variable {s next : Mounting}

/-- The first calls of a daemon do not include the signal. -/
theorem DaemonTrue.unsent (holds : s.DaemonTrue) (early : s.daemon = .absent ∨ s.daemon = .setUp ∨
    s.daemon = .build ∨ s.daemon = .mount ∨ s.daemon = .writePid ∨ s.daemon = .sendReady)
    (sent : Bool) : (.sendReady, sent) ∉ s.steps := by
  have after := holds.after
  rcases early with at_ | at_ | at_ | at_ | at_ | at_ <;> rw [at_] at after
  case inr.inr.inr.inr.inr =>
    obtain ⟨ok, same⟩ := after
    rw [same]
    simp [cameUp]
  all_goals
    simp only [DaemonStage.After] at after
    rw [after]
    simp [cameUp]

/-- A call that is not the signal, to a stage that has the same calls behind it. -/
theorem DaemonTrue.advance (holds : s.DaemonTrue) {ok : Bool} {stage later : DaemonStage}
    (at_ : s.daemon = stage) (other : stage ≠ .sendReady)
    (after : later.After ((stage, ok) :: s.steps))
    (access : s.accessible = true → later.afterMount = true) : (s.advance ok later).DaemonTrue := by
  subst at_
  have same : ∀ sent,
      (.sendReady, sent) ∈ (s.daemon, ok) :: s.steps ↔ (.sendReady, sent) ∈ s.steps := by
    intro sent
    rw [List.mem_cons, or_iff_right]
    exact fun isIt => other (congrArg Prod.fst isIt).symm
  refine ⟨after, fun sent member => ?_, ?_, access⟩
  · obtain ⟨result, isPart⟩ := holds.order sent ((same sent).mp member)
    exact ⟨result, isPart.trans (List.suffix_cons _ _)⟩
  · exact holds.pipe.imp (And.imp_left (same true).mpr) (And.imp_left (mt (same true).mp))

theorem DaemonTrue.exit (holds : s.DaemonTrue) : s.exit.DaemonTrue :=
  ⟨trivial, holds.order, holds.pipe, fun isTrue => by cases isTrue⟩

theorem DaemonTrue.leave (holds : s.DaemonTrue) {stage : DaemonStage} (at_ : s.daemon = stage)
    (other : stage ≠ .sendReady) (ok : Bool) : (s.advance ok .exited).exit.DaemonTrue := by
  have closed : ({ s with accessible := false } : Mounting).DaemonTrue :=
    ⟨holds.after, holds.order, holds.pipe, fun isTrue => by cases isTrue⟩
  exact closed.advance at_ other trivial fun isTrue => by cases isTrue

/-- The signal is written once, if somebody reads. -/
theorem DaemonTrue.send (holds : s.DaemonTrue) (at_ : s.daemon = .sendReady) (sent : Bool) :
    ({ s.advance sent .closePipe with pipe := if sent then s.pipe ++ readyLine else s.pipe } :
      Mounting).DaemonTrue := by
  have unsent := holds.unsent (Or.inr (Or.inr (Or.inr (Or.inr (Or.inr at_)))))
  have empty : s.pipe = [] := (holds.pipe.resolve_left fun isSent => unsent true isSent.1).2
  have after := holds.after
  rw [at_] at after
  obtain ⟨ok, same⟩ := after
  refine ⟨⟨sent, ?_⟩, fun sent' member => ?_, ?_, fun _ => rfl⟩
  · rw [← at_]
    exact List.mem_cons_self
  · rcases List.mem_cons.mp member with isIt | old
    · refine ⟨ok, ?_⟩
      rw [isIt]
      dsimp only [Mounting.advance]
      rw [same]
    · exact absurd old (unsent sent')
  · dsimp only [Mounting.advance]
    rw [at_, empty]
    cases sent with
    | true => exact Or.inl ⟨List.mem_cons_self, rfl⟩
    | false =>
        refine Or.inr ⟨?_, rfl⟩
        rw [List.mem_cons, not_or]
        exact ⟨by decide, unsent true⟩

theorem DaemonTrue.daemonStep {ok : Bool} (holds : s.DaemonTrue)
    (taken : s.daemonStep ok = some next) : next.DaemonTrue := by
  have after := holds.after
  have access := holds.access
  cases at_ : s.daemon <;> rw [at_] at after access <;>
    simp only [Mounting.daemonStep, at_, reduceCtorEq] at taken
  case setUp =>
    split_ifs at taken with success <;> cases taken
    · cases success
      exact holds.advance at_ (by decide) (congrArg _ after) fun isTrue =>
        absurd (access isTrue) (by decide)
    · exact holds.leave at_ (by decide) ok
  case build =>
    split_ifs at taken with success <;> cases taken
    · cases success
      exact holds.advance at_ (by decide) (congrArg _ after) fun isTrue =>
        absurd (access isTrue) (by decide)
    · exact holds.leave at_ (by decide) ok
  case mount =>
    have unsent := holds.unsent (Or.inr (Or.inr (Or.inr (Or.inl at_))))
    split_ifs at taken with success <;> cases taken
    · cases success
      have moved : (s.advance true .writePid).DaemonTrue :=
        holds.advance at_ (by decide) (congrArg _ after) fun _ => rfl
      exact ⟨moved.after, moved.order, moved.pipe, fun _ => rfl⟩
    · refine holds.advance at_ (by decide) (fun sent member => ?_) fun isTrue =>
        absurd (access isTrue) (by decide)
      rcases List.mem_cons.mp member with isIt | old
      · cases isIt
      · exact unsent sent old
  case abandon =>
    cases taken
    refine holds.advance at_ (by decide) (fun sent member => ?_) fun isTrue =>
      absurd (access isTrue) (by decide)
    rcases List.mem_cons.mp member with isIt | old
    · cases isIt
    · exact after sent old
  case giveUp =>
    cases taken
    exact holds.leave at_ (by decide) ok
  case writePid =>
    cases taken
    have moved : (s.advance ok .sendReady).DaemonTrue :=
      holds.advance at_ (by decide) ⟨ok, congrArg _ after⟩ fun _ => rfl
    exact ⟨moved.after, moved.order, moved.pipe, fun _ => rfl⟩
  case sendReady =>
    split_ifs at taken <;> cases taken
    · exact holds.send at_ true
    · exact holds.send at_ false
  case closePipe =>
    cases taken
    exact holds.advance at_ (by decide) (after.imp fun _ => List.mem_cons_of_mem _) fun _ => rfl
  case register =>
    cases taken
    exact holds.advance at_ (by decide) (after.imp fun _ => List.mem_cons_of_mem _) fun _ => rfl
  case unmount =>
    cases taken
    have moved : (s.advance ok .flush).DaemonTrue :=
      holds.advance at_ (by decide) (after.imp fun _ => List.mem_cons_of_mem _) fun _ => rfl
    exact ⟨moved.after, moved.order, moved.pipe, fun _ => rfl⟩
  case flush =>
    cases taken
    have moved : (s.advance ok .removePid).DaemonTrue :=
      holds.advance at_ (by decide) (after.imp fun _ => List.mem_cons_of_mem _) fun _ => rfl
    exact ⟨moved.after, moved.order, moved.pipe, fun _ => rfl⟩
  case removePid =>
    cases taken
    have left := holds.leave at_ (by decide) ok
    exact ⟨left.after, left.order, left.pipe, left.access⟩

theorem DaemonTrue.signalStep (holds : s.DaemonTrue) (taken : s.signalStep = some next) :
    next.DaemonTrue := by
  have after := holds.after
  cases at_ : s.daemon <;> rw [at_] at after <;>
    simp only [Mounting.signalStep, at_, reduceCtorEq] at taken <;> cases taken
  case serve =>
    exact holds.advance at_ (by decide) (after.imp fun _ => List.mem_cons_of_mem _) fun _ => rfl
  case unmount => exact holds
  case flush => exact holds
  case removePid => exact holds
  all_goals exact holds.exit

theorem ParentTrue.exit (holds : s.ParentTrue) (started : s.daemon ≠ .absent) :
    s.exit.ParentTrue := by
  refine ⟨fun runs => ⟨fun isAbsent => (by cases isAbsent), fun early => ?_⟩, holds.heard,
    holds.mounted, fun isFailed => ⟨Or.inr rfl, (holds.failed isFailed).2⟩, holds.mountLog⟩
  exact absurd ((holds.began runs).mpr early) started

/-- A call of the daemon, by which the parent learns nothing that it can lose. -/
theorem ParentTrue.advance (holds : s.ParentTrue) {ok : Bool} {stage later : DaemonStage}
    (at_ : s.daemon = stage) (started : stage ≠ .absent) (isLater : later ≠ .absent)
    (quiet : stage = .sendReady → ok = false → s.parent.reads = false)
    (settled : stage = .giveUp → later = .exited) (running : stage ≠ .exited) :
    (s.advance ok later).ParentTrue := by
  subst at_
  refine ⟨fun runs => ⟨fun isAbsent => absurd isAbsent isLater, fun early => ?_⟩,
    fun reads member => ?_, fun isMounted => List.mem_cons_of_mem _ (holds.mounted isMounted),
    fun isFailed => ?_, holds.mountLog⟩
  · exact absurd ((holds.began runs).mpr early) started
  · rcases List.mem_cons.mp member with isIt | old
    · obtain ⟨isSend, isLost⟩ := Prod.mk.inj isIt
      cases (quiet isSend.symm isLost.symm).symm.trans reads
    · exact holds.heard reads old
  · obtain ⟨ended, unsent⟩ := holds.failed isFailed
    have givesUp : s.daemon = .giveUp := ended.resolve_right running
    refine ⟨Or.inr (settled givesUp), fun sent member => ?_⟩
    rcases List.mem_cons.mp member with isIt | old
    · rw [givesUp] at isIt
      cases isIt
    · exact unsent sent old

/-- The calls that are neither the signal nor the last one. -/
theorem ParentTrue.call (holds : s.ParentTrue) {stage : DaemonStage} (at_ : s.daemon = stage)
    (later : DaemonStage) (plain : stage ≠ .absent ∧ stage ≠ .exited ∧ stage ≠ .sendReady ∧
      stage ≠ .giveUp ∧ later ≠ .absent) (ok : Bool) : (s.advance ok later).ParentTrue := by
  obtain ⟨started, running, notSend, notLast, isLater⟩ := plain
  exact holds.advance at_ started isLater (fun isSend => absurd isSend notSend)
    (fun isLast => absurd isLast notLast) running

theorem ParentTrue.leave (holds : s.ParentTrue) {stage : DaemonStage} (at_ : s.daemon = stage)
    (plain : stage ≠ .absent ∧ stage ≠ .exited ∧ stage ≠ .sendReady) (ok : Bool) :
    (s.advance ok .exited).exit.ParentTrue := by
  obtain ⟨started, running, notSend⟩ := plain
  refine (holds.advance at_ started ?_ (fun isSend => absurd isSend notSend) (fun _ => rfl)
    running).exit ?_
  · decide
  · exact fun isAbsent => by cases isAbsent

theorem ParentTrue.daemonStep {ok : Bool} (holds : s.ParentTrue)
    (taken : s.daemonStep ok = some next) : next.ParentTrue := by
  cases at_ : s.daemon <;> simp only [Mounting.daemonStep, at_, reduceCtorEq] at taken
  case setUp =>
    split_ifs at taken <;> cases taken
    · exact holds.call at_ .build (by decide) ok
    · exact holds.leave at_ (by decide) ok
  case build =>
    split_ifs at taken <;> cases taken
    · exact holds.call at_ .mount (by decide) ok
    · exact holds.leave at_ (by decide) ok
  case mount =>
    split_ifs at taken <;> cases taken
    · have moved := holds.call at_ .writePid (by decide) ok
      exact ⟨moved.began, moved.heard, moved.mounted, moved.failed, moved.mountLog⟩
    · exact holds.call at_ .abandon (by decide) ok
  case abandon =>
    cases taken
    exact holds.call at_ .giveUp (by decide) ok
  case giveUp =>
    cases taken
    exact holds.leave at_ (by decide) ok
  case writePid =>
    cases taken
    have moved := holds.call at_ .sendReady (by decide) ok
    exact ⟨moved.began, moved.heard, moved.mounted, moved.failed, moved.mountLog⟩
  case sendReady =>
    split_ifs at taken with reads <;> cases taken
    · have moved : (s.advance true .closePipe).ParentTrue :=
        holds.advance at_ (by decide) (by decide) (fun _ isLost => by cases isLost)
          (fun isLast => by cases isLast) (by decide)
      exact ⟨moved.began, moved.heard, moved.mounted, moved.failed, moved.mountLog⟩
    · exact holds.advance at_ (by decide) (by decide)
        (fun _ _ => (Bool.not_eq_true _).mp reads) (fun isLast => by cases isLast) (by decide)
  case closePipe =>
    cases taken
    exact holds.call at_ .register (by decide) ok
  case register =>
    cases taken
    exact holds.call at_ .serve (by decide) true
  case unmount =>
    cases taken
    have moved := holds.call at_ .flush (by decide) ok
    exact ⟨moved.began, moved.heard, moved.mounted, moved.failed, moved.mountLog⟩
  case flush =>
    cases taken
    have moved := holds.call at_ .removePid (by decide) ok
    exact ⟨moved.began, moved.heard, moved.mounted, moved.failed, moved.mountLog⟩
  case removePid =>
    cases taken
    have left := holds.leave at_ (by decide) ok
    exact ⟨left.began, left.heard, left.mounted, left.failed, left.mountLog⟩

theorem ParentTrue.signalStep (holds : s.ParentTrue) (taken : s.signalStep = some next) :
    next.ParentTrue := by
  have started : s.daemon ≠ .absent := by
    intro isAbsent
    rw [Mounting.signalStep, isAbsent] at taken
    cases taken
  cases at_ : s.daemon <;> simp only [Mounting.signalStep, at_, reduceCtorEq] at taken <;>
    cases taken
  case serve => exact holds.call at_ .unmount (by decide) true
  case unmount => exact holds
  case flush => exact holds
  case removePid => exact holds
  all_goals exact holds.exit started

/-- A parent that has ended, or has not started the daemon, knows nothing of it. -/
theorem ParentTrue.of_silent {parent : ParentPhase}
    (absent : parent.runs = true → s.daemon = .absent)
    (early : parent ≠ .closeWrite ∧ parent ≠ .readAll) (unknowing : parent ≠ .mounted ∧
      parent ≠ .fatal (.notReady false)) (mountLog : Bool) (parentHolds : Bool)
    (logged : parent.logged = true → mountLog = true)
    (unsent : parent.reads = true → s.steps = []) :
    ({ s with parent := parent, mountLog := mountLog, parentHolds := parentHolds } :
      Mounting).ParentTrue := by
  refine ⟨fun runs => iff_of_true (absent runs) early, fun reads => ?_,
    fun isMounted => absurd isMounted unknowing.1, fun isFailed => absurd isFailed unknowing.2,
    logged⟩
  dsimp only
  rw [unsent reads]
  exact List.not_mem_nil

/-- Where the daemon is once the pipe has ended without the signal. -/
theorem ended_of_silence (daemonTrue : s.DaemonTrue) (parentTrue : s.ParentTrue)
    (waits : s.parent = .readAll) (closed : s.daemon.holdsPipe = false)
    (unsent : (.sendReady, true) ∉ s.steps) :
    (s.daemon = .giveUp ∨ s.daemon = .exited) ∧ ∀ sent, (.sendReady, sent) ∉ s.steps := by
  have none : ∀ sent, (.sendReady, sent) ∉ s.steps := by
    intro sent
    cases sent with
    | true => exact unsent
    | false => exact parentTrue.heard (by rw [waits]; rfl)
  refine ⟨?_, none⟩
  have started : s.daemon ≠ .absent := by
    intro isAbsent
    exact ((parentTrue.began (by rw [waits]; rfl)).mp isAbsent).2 waits
  have after := daemonTrue.after
  cases at_ : s.daemon <;> rw [at_] at after closed started
  case giveUp => exact Or.inl rfl
  case exited => exact Or.inr rfl
  case absent => exact absurd rfl started
  case closePipe => cases closed
  case register => exact absurd after.choose_spec (none _)
  case serve => exact absurd after.choose_spec (none _)
  case unmount => exact absurd after.choose_spec (none _)
  case flush => exact absurd after.choose_spec (none _)
  case removePid => exact absurd after.choose_spec (none _)
  all_goals cases closed

/-- A call of the parent keeps both. -/
theorem true_parentStep {ok : Bool} (daemonTrue : s.DaemonTrue) (parentTrue : s.ParentTrue)
    (taken : s.parentStep ok = some next) : next.DaemonTrue ∧ next.ParentTrue := by
  have early : s.parent.runs = true → s.parent ≠ .closeWrite → s.parent ≠ .readAll →
      s.daemon = .absent ∧ s.steps = [] := by
    intro runs notClose notRead
    have isAbsent := (parentTrue.began runs).mpr ⟨notClose, notRead⟩
    have after := daemonTrue.after
    rw [isAbsent] at after
    exact ⟨isAbsent, after⟩
  have same : ∀ parent mountLog parentHolds, ({ s with
      parent := parent, mountLog := mountLog, parentHolds := parentHolds } : Mounting).DaemonTrue :=
    fun _ _ _ => ⟨daemonTrue.after, daemonTrue.order, daemonTrue.pipe, daemonTrue.access⟩
  have logged := parentTrue.mountLog
  cases at_ : s.parent <;> rw [at_] at early logged <;>
    simp only [Mounting.parentStep, at_, reduceCtorEq] at taken
  case loadConfig =>
    obtain ⟨isAbsent, empty⟩ := early rfl (by decide) (by decide)
    cases taken
    cases ok <;>
      exact ⟨same _ _ _, .of_silent (fun _ => isAbsent) (by decide) (by decide) _ _
        (fun isLogged => by cases isLogged) fun _ => empty⟩
  case makeDir =>
    obtain ⟨isAbsent, empty⟩ := early rfl (by decide) (by decide)
    cases taken
    cases ok <;>
      exact ⟨same _ _ _, .of_silent (fun _ => isAbsent) (by decide) (by decide) _ _
        (fun isLogged => by cases isLogged) fun _ => empty⟩
  case openLog =>
    obtain ⟨isAbsent, empty⟩ := early rfl (by decide) (by decide)
    split_ifs at taken <;> cases taken
    · exact ⟨same _ _ _, .of_silent (fun _ => isAbsent) (by decide) (by decide) _ _ (fun _ => rfl)
        fun _ => empty⟩
    · exact ⟨same _ _ _, .of_silent (fun _ => isAbsent) (by decide) (by decide) _ _
        (fun isLogged => by cases isLogged) fun _ => empty⟩
  case makePipe =>
    obtain ⟨isAbsent, empty⟩ := early rfl (by decide) (by decide)
    split_ifs at taken <;> cases taken
    · exact ⟨same _ _ _, .of_silent (fun _ => isAbsent) (by decide) (by decide) _ _
        (fun _ => logged rfl) fun _ => empty⟩
    · exact ⟨same _ _ _, .of_silent (fun _ => isAbsent) (by decide) (by decide) _ _
        (fun isLogged => by cases isLogged) fun _ => empty⟩
  case findExe =>
    obtain ⟨isAbsent, empty⟩ := early rfl (by decide) (by decide)
    split_ifs at taken <;> cases taken
    · exact ⟨same _ _ _, .of_silent (fun _ => isAbsent) (by decide) (by decide) _ _
        (fun _ => logged rfl) fun _ => empty⟩
    · exact ⟨same _ _ _, .of_silent (fun _ => isAbsent) (by decide) (by decide) _ _
        (fun isLogged => by cases isLogged) fun _ => empty⟩
  case start =>
    obtain ⟨isAbsent, empty⟩ := early rfl (by decide) (by decide)
    have dark : s.accessible ≠ true := fun isTrue => by
      have mounted := daemonTrue.access isTrue
      rw [isAbsent] at mounted
      cases mounted
    split_ifs at taken <;> cases taken
    · refine ⟨⟨empty, daemonTrue.order, daemonTrue.pipe, fun isTrue => absurd isTrue dark⟩, ?_⟩
      refine ⟨fun _ => iff_of_false (fun isNone => (by cases isNone)) fun isEarly => isEarly.1 rfl,
        fun _ => ?_,
        fun isMounted => (by cases isMounted), fun isFailed => (by cases isFailed),
        fun _ => logged rfl⟩
      dsimp only
      rw [empty]
      exact List.not_mem_nil
    · exact ⟨same _ _ _, .of_silent (fun _ => isAbsent) (by decide) (by decide) _ _
        (fun isLogged => by cases isLogged) fun _ => empty⟩
  case closeWrite =>
    cases taken
    have started : s.daemon ≠ .absent := fun isAbsent =>
      ((parentTrue.began (by rw [at_]; rfl)).mp isAbsent).1 at_
    refine ⟨same _ _ _, ⟨fun _ => iff_of_false started fun isEarly => isEarly.2 rfl,
      fun _ => parentTrue.heard (by rw [at_]; rfl), fun isMounted => (by cases isMounted),
      fun isFailed => (by cases isFailed), fun _ => logged rfl⟩⟩
  case readAll =>
    split_ifs at taken with success blocked isReady <;> cases taken
    · refine ⟨same _ _ _, ⟨fun runs => (by cases runs), fun reads => (by cases reads), fun _ => ?_,
        fun isFailed => (by cases isFailed), fun _ => logged rfl⟩⟩
      rcases daemonTrue.pipe with ⟨isSent, -⟩ | ⟨-, empty⟩
      · exact isSent
      · rw [empty] at isReady
        cases isReady
    · refine ⟨same _ _ _, ⟨fun runs => (by cases runs), fun reads => (by cases reads),
        fun isMounted => (by cases isMounted), fun _ => ?_, fun _ => logged rfl⟩⟩
      have closed : s.daemon.holdsPipe = false :=
        (Bool.or_eq_false_iff.mp ((Bool.not_eq_true _).mp blocked)).2
      have unsent : (.sendReady, true) ∉ s.steps := fun isSent =>
        isReady (daemonTrue.pipe.resolve_right fun silent => silent.1 isSent).2
      have ended := ended_of_silence daemonTrue parentTrue at_ closed unsent
      exact ended
    · exact ⟨same _ _ _, ⟨fun runs => (by cases runs), fun reads => (by cases reads),
        fun isMounted => (by cases isMounted), fun isFailed => (by cases isFailed),
        fun _ => logged rfl⟩⟩

/-- The rule for both, over any step. -/
theorem true_step {event : MountEvent} (holds : s.DaemonTrue ∧ s.ParentTrue)
    (taken : s.step event = some next) : next.DaemonTrue ∧ next.ParentTrue := by
  obtain ⟨daemonTrue, parentTrue⟩ := holds
  cases event with
  | parent ok => exact true_parentStep daemonTrue parentTrue taken
  | daemon ok => exact ⟨daemonTrue.daemonStep taken, parentTrue.daemonStep taken⟩
  | signal => exact ⟨daemonTrue.signalStep taken, parentTrue.signalStep taken⟩
  | killParent =>
      simp only [Mounting.step] at taken
      split_ifs at taken
      cases taken
      refine ⟨⟨daemonTrue.after, daemonTrue.order, daemonTrue.pipe, daemonTrue.access⟩, ?_⟩
      exact .of_silent (fun runs => by cases runs) (by decide) (by decide) _ _
        (fun isLogged => by cases isLogged) fun reads => by cases reads
  | killDaemon =>
      simp only [Mounting.step] at taken
      split_ifs at taken with notRunning
      cases taken
      rw [not_or] at notRunning
      exact ⟨daemonTrue.exit, parentTrue.exit notRunning.1⟩

theorem true_initial : (({} : Mounting).DaemonTrue) ∧ ({} : Mounting).ParentTrue := by
  refine ⟨⟨rfl, fun _ member => (by cases member), Or.inr ⟨fun member => (by cases member), rfl⟩,
    fun isTrue => (by cases isTrue)⟩, ?_⟩
  exact ⟨fun _ => iff_of_true rfl (by decide), fun reads => (by cases reads),
    fun isMounted => (by cases isMounted), fun isFailed => (by cases isFailed),
    fun isLogged => (by cases isLogged)⟩

theorem true_run {events : List MountEvent} (ran : Simulation.run step {} events = some s) :
    s.DaemonTrue ∧ s.ParentTrue :=
  Simulation.run_invariant (fun _ _ _ holds taken => true_step holds taken) ran true_initial

end Mounting

/-! ### The exit status -/

/-- What the exit status of `fusey mount` says, whichever calls fail and whichever
process is killed at any point. It reports a mount only after the daemon has mounted
the filesystem, written `daemon.pid` or failed to, and sent the signal, in this
order. If it reports at the end of the pipe that the daemon failed, the daemon has
ended or is about to, without ever having sent the signal, and no process serves the
filesystem. The report of a failed read says less: only that `mount.log` is there to
look into, as it is in both cases. -/
theorem mount_exit_status_is_true {s : Mounting} {events : List MountEvent}
    (ran : Simulation.run Mounting.step {} events = some s) :
    (s.parent = .mounted →
      ∃ pidWritten, (.sendReady, true) :: (.writePid, pidWritten) :: cameUp <:+ s.steps) ∧
    (s.parent = .fatal (.notReady false) →
      (s.daemon = .giveUp ∨ s.daemon = .exited) ∧ (∀ sent, (.sendReady, sent) ∉ s.steps) ∧
        s.accessible = false) ∧
    ∀ readError, s.parent = .fatal (.notReady readError) → s.mountLog = true := by
  obtain ⟨daemonTrue, parentTrue⟩ := Mounting.true_run ran
  refine ⟨fun isMounted => daemonTrue.order true (parentTrue.mounted isMounted), fun isFailed => ?_,
    fun readError isFailed => parentTrue.mountLog (by rw [isFailed]; rfl)⟩
  obtain ⟨ended, unsent⟩ := parentTrue.failed isFailed
  refine ⟨ended, unsent, (Bool.not_eq_true _).mp fun isTrue => ?_⟩
  have mounted := daemonTrue.access isTrue
  rcases ended with at_ | at_ <;> rw [at_] at mounted <;> cases mounted

/-- A whole `fusey mount`: the parent's six calls, the daemon's six, and the read. -/
def plainMount : List MountEvent :=
  List.replicate 7 (.parent true) ++ List.replicate 6 (.daemon true) ++ [.parent true]

/-- One mount that works; one whose daemon is killed after it has mounted; and one
whose read fails while the daemon serves. -/
theorem mount_exit_status_is_true_killed :
    (∃ s : Mounting, Simulation.run Mounting.step {} plainMount = some s ∧ s.parent = .mounted ∧
      ∃ pidWritten, (.sendReady, true) :: (.writePid, pidWritten) :: cameUp <:+ s.steps) ∧
    (∃ s : Mounting, Simulation.run Mounting.step {} (List.replicate 7 (.parent true) ++
        List.replicate 4 (.daemon true) ++ [.killDaemon, .parent true]) = some s ∧
      s.parent = .fatal (.notReady false) ∧ s.accessible = false) ∧
    ∃ s : Mounting, Simulation.run Mounting.step {} (List.replicate 7 (.parent true) ++
        [.parent false] ++ List.replicate 7 (.daemon true)) = some s ∧
      s.parent = .fatal (.notReady true) ∧ s.daemon = .serve ∧ s.accessible = true ∧
      s.mountLog = true := by
  have works : (Simulation.run Mounting.step {} plainMount).map Mounting.parent =
      some .mounted := by
    decide +kernel
  have dies : (Simulation.run Mounting.step {} (List.replicate 7 (.parent true) ++
      List.replicate 4 (.daemon true) ++ [.killDaemon, .parent true])).map Mounting.parent =
      some (.fatal (.notReady false)) := by
    decide +kernel
  have misread : (Simulation.run Mounting.step {} (List.replicate 7 (.parent true) ++
      [.parent false] ++ List.replicate 7 (.daemon true))).map
        (fun s => (s.parent, s.daemon, s.accessible)) =
      some (.fatal (.notReady true), .serve, true) := by
    decide +kernel
  obtain ⟨s, ran, isMounted⟩ := Option.map_eq_some_iff.mp works
  obtain ⟨s', ran', isFailed⟩ := Option.map_eq_some_iff.mp dies
  obtain ⟨s'', ran'', shown⟩ := Option.map_eq_some_iff.mp misread
  obtain ⟨isMisread, shown⟩ := Prod.mk.inj shown
  obtain ⟨serves, isAccessible⟩ := Prod.mk.inj shown
  exact ⟨⟨s, ran, isMounted, (mount_exit_status_is_true ran).1 isMounted⟩,
    ⟨s', ran', isFailed, ((mount_exit_status_is_true ran').2.1 isFailed).2.2⟩,
    s'', ran'', isMisread, serves, isAccessible,
    (mount_exit_status_is_true ran'').2.2 true isMisread⟩

/-- What the daemon does, it does not do to the parent. -/
theorem Mounting.daemonStep_parent {s next : Mounting} {ok : Bool}
    (taken : s.daemonStep ok = some next) :
    next.parent = s.parent ∧ next.parentHolds = s.parentHolds := by
  unfold Mounting.daemonStep at taken
  split at taken <;> (try split_ifs at taken) <;> cases taken <;> exact ⟨rfl, rfl⟩

theorem Mounting.signalStep_parent {s next : Mounting} (taken : s.signalStep = some next) :
    next.parent = s.parent ∧ next.parentHolds = s.parentHolds := by
  unfold Mounting.signalStep at taken
  split at taken <;> cases taken <;> exact ⟨rfl, rfl⟩

/-- While the parent reads, its own write end is closed. -/
theorem Mounting.readAll_run {s : Mounting} {events : List MountEvent}
    (ran : Simulation.run Mounting.step {} events = some s) :
    s.parent = .readAll → s.parentHolds = false := by
  have kept : ∀ (s : Mounting) event next, (s.parent = .readAll → s.parentHolds = false) →
      s.step event = some next → next.parent = .readAll → next.parentHolds = false := by
    intro s event next holds taken waits
    cases event with
    | parent ok =>
        simp only [Mounting.step, Mounting.parentStep] at taken
        cases ok <;> split at taken <;> (try split_ifs at taken) <;> cases taken <;>
          first | rfl | cases waits
    | daemon ok =>
        obtain ⟨parent, open_⟩ := Mounting.daemonStep_parent taken
        rw [open_]
        exact holds (parent.symm.trans waits)
    | signal =>
        obtain ⟨parent, open_⟩ := Mounting.signalStep_parent taken
        rw [open_]
        exact holds (parent.symm.trans waits)
    | killParent =>
        simp only [Mounting.step] at taken
        split_ifs at taken
        cases taken
        cases waits
    | killDaemon =>
        simp only [Mounting.step] at taken
        split_ifs at taken
        cases taken
        exact holds waits
  exact Simulation.run_invariant kept ran fun waits => by cases waits

/-- The calls that the daemon makes at most before the pipe is closed. -/
def DaemonStage.left : DaemonStage → Nat
  | .setUp => 6
  | .build => 5
  | .mount => 4
  | .writePid => 3
  | .sendReady => 2
  | .closePipe | .abandon => 1
  | _ => 0

/-- Every call of a daemon that holds the pipe brings its end nearer. -/
theorem Mounting.daemonStep_left {s : Mounting} (holds : 0 < s.daemon.left) (ok : Bool) :
    ∃ next, s.daemonStep ok = some next ∧ next.daemon.left < s.daemon.left := by
  cases at_ : s.daemon <;> rw [at_] at holds <;> simp only [Mounting.daemonStep, at_]
  case setUp =>
    cases ok with
    | true => exact ⟨_, rfl, show 5 < 6 by decide⟩
    | false => exact ⟨_, rfl, show 0 < 6 by decide⟩
  case build =>
    cases ok with
    | true => exact ⟨_, rfl, show 4 < 5 by decide⟩
    | false => exact ⟨_, rfl, show 0 < 5 by decide⟩
  case mount =>
    cases ok with
    | true => exact ⟨_, rfl, show 3 < 4 by decide⟩
    | false => exact ⟨_, rfl, show 1 < 4 by decide⟩
  case writePid => exact ⟨_, rfl, show 2 < 3 by decide⟩
  case sendReady =>
    cases s.parent.reads with
    | true => exact ⟨_, rfl, show 1 < 2 by decide⟩
    | false => exact ⟨_, rfl, show 1 < 2 by decide⟩
  case closePipe => exact ⟨_, rfl, show 0 < 1 by decide⟩
  case abandon => exact ⟨_, rfl, show 0 < 1 by decide⟩
  all_goals exact absurd holds (by decide)

/-- `fusey mount` always gets to report: while it reads, the daemon's next call
brings the end of the pipe nearer, however it ends, and once the daemon has closed
the pipe or ended, the read returns. -/
theorem mount_always_reports {s : Mounting} {events : List MountEvent}
    (ran : Simulation.run Mounting.step {} events = some s) (waits : s.parent = .readAll) :
    (s.daemon.left = 0 → ∃ next, s.step (.parent true) = some next ∧ next.parent.runs = false) ∧
      (0 < s.daemon.left → ∀ ok, ∃ next, s.step (.daemon ok) = some next ∧
        next.parent = .readAll ∧ next.daemon.left < s.daemon.left) := by
  have open_ : s.parentHolds = false := Mounting.readAll_run ran waits
  constructor
  · intro none
    have closed : (s.parentHolds || s.daemon.holdsPipe) = false := by
      rw [open_, Bool.false_or]
      revert none
      cases s.daemon <;> decide
    simp only [Mounting.step, Mounting.parentStep, waits, if_true, closed]
    refine ⟨_, rfl, ?_⟩
    dsimp only
    split_ifs <;> rfl
  · intro holds ok
    obtain ⟨next, taken, nearer⟩ := Mounting.daemonStep_left holds ok
    exact ⟨next, taken, (Mounting.daemonStep_parent taken).1.trans waits, nearer⟩

/-- The parent waits for a daemon that is about to mount, and for one that has been
killed. -/
theorem mount_always_reports_waiting :
    (∃ s : Mounting, Simulation.run Mounting.step {} (List.replicate 7 (.parent true) ++
        List.replicate 2 (.daemon true)) = some s ∧ s.daemon = .mount ∧
      ∀ ok, ∃ next, s.step (.daemon ok) = some next ∧ next.daemon.left < 4) ∧
    ∃ s : Mounting, Simulation.run Mounting.step {} (List.replicate 7 (.parent true) ++
        [.killDaemon]) = some s ∧
      ∃ next, s.step (.parent true) = some next ∧ next.parent.runs = false := by
  have mounting : (Simulation.run Mounting.step {} (List.replicate 7 (.parent true) ++
      List.replicate 2 (.daemon true))).map (fun s => (s.parent, s.daemon)) =
      some (.readAll, .mount) := by
    decide +kernel
  have killed : (Simulation.run Mounting.step {} (List.replicate 7 (.parent true) ++
      [.killDaemon])).map (fun s => (s.parent, s.daemon)) = some (.readAll, .exited) := by
    decide +kernel
  obtain ⟨s, ran, shown⟩ := Option.map_eq_some_iff.mp mounting
  obtain ⟨waits, at_⟩ := Prod.mk.inj shown
  obtain ⟨s', ran', shown'⟩ := Option.map_eq_some_iff.mp killed
  obtain ⟨waits', at'⟩ := Prod.mk.inj shown'
  refine ⟨⟨s, ran, at_, fun ok => ?_⟩, ⟨s', ran', ?_⟩⟩
  · obtain ⟨next, taken, -, nearer⟩ :=
      (mount_always_reports ran waits).2 (by rw [at_]; decide) ok
    rw [at_] at nearer
    exact ⟨next, taken, nearer⟩
  · exact (mount_always_reports ran' waits').1 (by rw [at']; rfl)

end Fusey
