import Mathlib.Data.List.Nodup

/-!
Contract: systems of threads that take atomic steps on one shared state, alone
or in any interleaving.

Owns:
- a thread as its next atomic effect and what it becomes with the answer;
- a call run to its end with nobody else active, and every point on its way;
- the pool of suspended threads, the events that start and advance them, and
  executable runs of events;
- reachability under a condition on events, the rules by which an invariant
  kept by every admitted step holds in every reachable pool, the rules of mutual
  exclusion, of the lock and of tokens;
- annotated threads, which carry notes about their own past that no step reads.

A pool carries a record of what has happened, which steps extend and never
read. Does not own any particular shared state. What the scheduler decides
(faults, clocks, iteration orders) is the oracle that an event carries.
-/

set_option autoImplicit false

namespace Interleaving

/-- Shared state `S`, effects `E` with answers `A`, oracles `O`, suspended
threads `T`, results `R`. An effect that cannot happen as the oracle says is
`none`. -/
structure Sys (S E A O T R : Type) where
  apply : S → E → O → Option (S × A)
  effect : T → E
  resume : T → A → T ⊕ R

variable {S E A O T R M : Type}

/-! ### One call at a time -/

/-- Thread `t`, alone on state `s`, runs to its end. -/
inductive Completes (sys : Sys S E A O T R) : S → T → S → R → Prop where
  | last {s s' : S} {t : T} {o : O} {a : A} {r : R}
      (applied : sys.apply s (sys.effect t) o = some (s', a))
      (returns : sys.resume t a = .inr r) : Completes sys s t s' r
  | more {s s' s'' : S} {t t' : T} {o : O} {a : A} {r : R}
      (applied : sys.apply s (sys.effect t) o = some (s', a))
      (continues : sys.resume t a = .inl t') (rest : Completes sys s' t' s'' r) :
      Completes sys s t s'' r

/-- The same run, executed with a list of oracles. -/
def Sys.finish (sys : Sys S E A O T R) : S → T → List O → Option (S × R)
  | _, _, [] => none
  | s, t, o :: rest =>
      match sys.apply s (sys.effect t) o with
      | none => none
      | some (s', a) =>
          match sys.resume t a with
          | .inr r => some (s', r)
          | .inl t' => sys.finish s' t' rest

theorem Completes.of_finish {sys : Sys S E A O T R} {s s' : S} {t : T} {r : R} {oracles : List O}
    (finished : sys.finish s t oracles = some (s', r)) : Completes sys s t s' r := by
  induction oracles generalizing s t with
  | nil => cases finished
  | cons o rest inductionHypothesis =>
      simp only [Sys.finish] at finished
      split at finished
      next => cases finished
      next middle a applied =>
        split at finished
        next returns =>
          cases finished
          exact .last applied returns
        next t' continues => exact .more applied continues (inductionHypothesis finished)

/-- The first step of a completed call. -/
theorem Completes.first {sys : Sys S E A O T R} {s s'' : S} {t : T} {r : R}
    (completes : Completes sys s t s'' r) :
    ∃ o s' a, sys.apply s (sys.effect t) o = some (s', a) ∧
      ((sys.resume t a = .inr r ∧ s' = s'') ∨
        ∃ t', sys.resume t a = .inl t' ∧ Completes sys s' t' s'' r) := by
  cases completes with
  | last applied returns => exact ⟨_, _, _, applied, Or.inl ⟨returns, rfl⟩⟩
  | more applied continues rest => exact ⟨_, _, _, applied, Or.inr ⟨_, continues, rest⟩⟩

/-- Where no effect depends on the oracle, a call ends in one way. -/
theorem Completes.unique {sys : Sys S E A O T R}
    (determined : ∀ s e o o', sys.apply s e o = sys.apply s e o') {s left right : S} {t : T}
    {r r' : R} (one : Completes sys s t left r) (other : Completes sys s t right r') :
    left = right ∧ r = r' := by
  induction one with
  | last applied returns =>
      obtain ⟨o, s', a, again, finish⟩ := other.first
      cases applied.symm.trans ((determined _ _ _ o).trans again)
      rcases finish with ⟨same, rfl⟩ | ⟨t', continues, -⟩
      · exact ⟨rfl, Sum.inr.inj (returns.symm.trans same)⟩
      · cases returns.symm.trans continues
  | more applied continues _ inductionHypothesis =>
      obtain ⟨o, s', a, again, finish⟩ := other.first
      cases applied.symm.trans ((determined _ _ _ o).trans again)
      rcases finish with ⟨returns, -⟩ | ⟨t', same, rest⟩
      · cases continues.symm.trans returns
      · cases continues.symm.trans same
        exact inductionHypothesis rest

/-- The points that thread `start`, alone from state `initial`, passes through. -/
inductive Progress (sys : Sys S E A O T R) (initial : S) (start : T) : S → T ⊕ R → Prop where
  | start : Progress sys initial start initial (.inl start)
  | step {s s' : S} {t : T} {o : O} {a : A} (before : Progress sys initial start s (.inl t))
      (applied : sys.apply s (sys.effect t) o = some (s', a)) :
      Progress sys initial start s' (sys.resume t a)

/-- What holds at the start and is kept by every step holds at every point. -/
theorem Progress.invariant {sys : Sys S E A O T R} {initial : S} {start : T}
    (inv : S → T ⊕ R → Prop) (initially : inv initial (.inl start))
    (preserved : ∀ s t o s' a, inv s (.inl t) → sys.apply s (sys.effect t) o = some (s', a) →
      inv s' (sys.resume t a))
    {s : S} {point : T ⊕ R} (progress : Progress sys initial start s point) : inv s point := by
  induction progress with
  | start => exact initially
  | step _ applied inductionHypothesis =>
      exact preserved _ _ _ _ _ inductionHypothesis applied

/-- The system whose environment keeps to a condition. -/
def Sys.under (sys : Sys S E A O T R) (allowed : O → Prop) [DecidablePred allowed] :
    Sys S E A O T R :=
  { sys with apply := fun s e o => if allowed o then sys.apply s e o else none }

theorem Sys.under_apply {sys : Sys S E A O T R} {allowed : O → Prop} [DecidablePred allowed]
    {s : S} {e : E} {o : O} {next : S × A} (applied : (sys.under allowed).apply s e o = some next) :
    allowed o ∧ sys.apply s e o = some next := by
  simp only [Sys.under] at applied
  split_ifs at applied with isAllowed
  exact ⟨isAllowed, applied⟩

theorem Progress.of_under {sys : Sys S E A O T R} {allowed : O → Prop} [DecidablePred allowed]
    {initial : S} {start : T} {s : S} {point : T ⊕ R}
    (progress : Progress (sys.under allowed) initial start s point) :
    Progress sys initial start s point := by
  induction progress with
  | start => exact .start
  | step _ applied inductionHypothesis => exact inductionHypothesis.step (Sys.under_apply applied).2

/-- The rule for a thread in an environment that keeps to a condition, with the
points reached so far at hand. -/
theorem Progress.under_invariant {sys : Sys S E A O T R} {allowed : O → Prop}
    [DecidablePred allowed] {initial : S} {start : T} (inv : S → T ⊕ R → Prop)
    (initially : inv initial (.inl start))
    (preserved : ∀ s t o s' a, Progress sys initial start s (.inl t) → inv s (.inl t) → allowed o →
      sys.apply s (sys.effect t) o = some (s', a) → inv s' (sys.resume t a))
    {s : S} {point : T ⊕ R} (progress : Progress (sys.under allowed) initial start s point) :
    inv s point := by
  induction progress with
  | start => exact initially
  | step before applied inductionHypothesis =>
      obtain ⟨isAllowed, applied⟩ := Sys.under_apply applied
      exact preserved _ _ _ _ _ before.of_under inductionHypothesis isAllowed applied

/-- The point after as many steps as there are oracles. -/
def Sys.advance (sys : Sys S E A O T R) : S → T → List O → Option (S × (T ⊕ R))
  | s, t, [] => some (s, .inl t)
  | s, t, o :: rest =>
      match sys.apply s (sys.effect t) o with
      | none => none
      | some (s', a) =>
          match sys.resume t a with
          | .inr r => if rest.isEmpty then some (s', .inr r) else none
          | .inl t' => sys.advance s' t' rest

theorem Progress.of_advance {sys : Sys S E A O T R} {initial : S} {start : T} {s : S} {t : T}
    {oracles : List O} {s' : S} {point : T ⊕ R} (before : Progress sys initial start s (.inl t))
    (advanced : sys.advance s t oracles = some (s', point)) :
    Progress sys initial start s' point := by
  induction oracles generalizing s t with
  | nil =>
      cases advanced
      exact before
  | cons o rest inductionHypothesis =>
      simp only [Sys.advance] at advanced
      split at advanced
      next => cases advanced
      next middle a applied =>
        have next := before.step applied
        split at advanced
        next r returns =>
          split_ifs at advanced
          cases advanced
          rw [← returns]
          exact next
        next t' continues =>
          rw [continues] at next
          exact inductionHypothesis next advanced

/-! ### Any interleaving -/

/-- The shared state, the suspended threads and the record. -/
structure Pool (S T M : Type) where
  shared : S
  threads : List T
  record : M

/-- Start a thread, or let thread `i` take its next step. -/
inductive Event (T O : Type) where
  | spawn (thread : T)
  | run (i : Nat) (oracle : O)

/-- What stays suspended of a thread after one of its steps. -/
def remaining : T ⊕ R → List T
  | .inl thread => [thread]
  | .inr _ => []

namespace Sys

variable (sys : Sys S E A O T R) (note : M → T → A → M)

/-- One event. `note` extends the record with the thread that moved and the
answer it got. -/
def step (pool : Pool S T M) : Event T O → Option (Pool S T M)
  | .spawn thread => some ⟨pool.shared, pool.threads ++ [thread], pool.record⟩
  | .run i oracle =>
      match pool.threads[i]? with
      | none => none
      | some thread =>
          match sys.apply pool.shared (sys.effect thread) oracle with
          | none => none
          | some (shared, answer) =>
              some ⟨shared, pool.threads.take i ++ remaining (sys.resume thread answer) ++
                pool.threads.drop (i + 1), note pool.record thread answer⟩

/-- A whole run of events, each of which `admits` must allow. -/
def run (admits : Pool S T M → Event T O → Prop) [∀ pool event, Decidable (admits pool event)]
    (pool : Pool S T M) : List (Event T O) → Option (Pool S T M)
  | [] => some pool
  | event :: rest =>
      if admits pool event then (sys.step note pool event).bind fun next => run admits next rest
      else none

variable {sys note}

/-- Everything one event can do. -/
theorem step_cases {pool next : Pool S T M} {event : Event T O}
    (taken : sys.step note pool event = some next) :
    (∃ thread, event = .spawn thread ∧
        next = ⟨pool.shared, pool.threads ++ [thread], pool.record⟩) ∨
      ∃ before thread after oracle shared answer,
        event = .run before.length oracle ∧ pool.threads = before ++ thread :: after ∧
        sys.apply pool.shared (sys.effect thread) oracle = some (shared, answer) ∧
        next = ⟨shared, before ++ remaining (sys.resume thread answer) ++ after,
          note pool.record thread answer⟩ := by
  cases event with
  | spawn thread => exact Or.inl ⟨thread, rfl, (Option.some.inj taken).symm⟩
  | run i oracle =>
      right
      simp only [step] at taken
      split at taken
      next => cases taken
      next thread found =>
          split at taken
          next => cases taken
          next shared answer applied =>
              have below : i < pool.threads.length := (List.getElem?_eq_some_iff.mp found).1
              have split : pool.threads =
                  pool.threads.take i ++ thread :: pool.threads.drop (i + 1) := by
                have value := (List.getElem?_eq_some_iff.mp found).2
                rw [← value, List.getElem_cons_drop, List.take_append_drop]
              refine ⟨pool.threads.take i, thread, pool.threads.drop (i + 1), oracle, shared,
                answer, ?_, split, applied, (Option.some.inj taken).symm⟩
              rw [List.length_take, Nat.min_eq_left (Nat.le_of_lt below)]

/-- What is recorded of an event does not matter to it. -/
theorem step_of_record {N : Type} {note' : N → T → A → N} {rel : M → N → Prop}
    (notes : ∀ m n t a, rel m n → rel (note m t a) (note' n t a)) {pool next : Pool S T M}
    {event : Event T O} (taken : sys.step note pool event = some next) {n : N}
    (related : rel pool.record n) :
    ∃ n', sys.step note' ⟨pool.shared, pool.threads, n⟩ event =
      some ⟨next.shared, next.threads, n'⟩ ∧ rel next.record n' := by
  cases event with
  | spawn thread =>
      cases taken
      exact ⟨n, rfl, related⟩
  | run i oracle =>
      simp only [step] at taken ⊢
      split at taken
      next => cases taken
      next thread found =>
          split at taken
          next => cases taken
          next shared answer applied =>
              cases taken
              exact ⟨note' n thread answer, rfl, notes _ _ _ _ related⟩

end Sys

/-- The pools that admitted events reach from a start. -/
inductive Reachable (sys : Sys S E A O T R) (note : M → T → A → M) (start : Pool S T M → Prop)
    (admits : Pool S T M → Event T O → Prop) : Pool S T M → Prop where
  | start {pool : Pool S T M} (initial : start pool) : Reachable sys note start admits pool
  | step {pool next : Pool S T M} {event : Event T O}
      (reached : Reachable sys note start admits pool) (admitted : admits pool event)
      (taken : sys.step note pool event = some next) : Reachable sys note start admits next

section Reachable

variable {sys : Sys S E A O T R} {note : M → T → A → M} {start : Pool S T M → Prop}
  {admits : Pool S T M → Event T O → Prop}

/-- An invariant of the start that every admitted step keeps holds in every
reachable pool. -/
theorem Reachable.invariant {inv : Pool S T M → Prop} (initially : ∀ pool, start pool → inv pool)
    (preserved : ∀ pool next event, inv pool → admits pool event →
      sys.step note pool event = some next → inv next)
    {pool : Pool S T M} (reached : Reachable sys note start admits pool) : inv pool := by
  induction reached with
  | start initial => exact initially _ initial
  | step _ admitted taken inductionHypothesis =>
      exact preserved _ _ _ inductionHypothesis admitted taken

/-- Events may be taken to happen in pools with a property that all reachable
pools have. -/
theorem Reachable.knowing {inv : Pool S T M → Prop}
    (holds : ∀ pool, Reachable sys note start admits pool → inv pool) {pool : Pool S T M}
    (reached : Reachable sys note start admits pool) :
    Reachable sys note start (fun pool event => inv pool ∧ admits pool event) pool := by
  induction reached with
  | start initial => exact .start initial
  | step reached admitted taken inductionHypothesis =>
      exact .step inductionHypothesis ⟨holds _ reached, admitted⟩ taken

/-- Events may be taken to happen in pools that meet an invariant. -/
theorem Reachable.assuming {inv : Pool S T M → Prop} (initially : ∀ pool, start pool → inv pool)
    (preserved : ∀ pool next event, inv pool → admits pool event →
      sys.step note pool event = some next → inv next)
    {pool : Pool S T M} (reached : Reachable sys note start admits pool) :
    Reachable sys note start (fun pool event => inv pool ∧ admits pool event) pool :=
  reached.knowing fun _ reached => reached.invariant initially preserved

/-- The rule for an invariant of the shared state and the record together with
a condition on every suspended thread: a start meets it, an admitted thread
brings its condition, and a step keeps the invariant, establishes the condition
of what remains of the thread, and keeps that of the others. -/
theorem Reachable.local_invariant (inv : S → M → Prop) (cond : S → M → T → Prop)
    (initially : ∀ pool, start pool →
      inv pool.shared pool.record ∧ ∀ t ∈ pool.threads, cond pool.shared pool.record t)
    (spawned : ∀ pool t, inv pool.shared pool.record → admits pool (.spawn t) →
      cond pool.shared pool.record t)
    (stepped : ∀ s m before t after o s' a, inv s m → (∀ u ∈ before ++ t :: after, cond s m u) →
      admits ⟨s, before ++ t :: after, m⟩ (.run before.length o) →
      sys.apply s (sys.effect t) o = some (s', a) →
      inv s' (note m t a) ∧ (∀ t', sys.resume t a = .inl t' → cond s' (note m t a) t') ∧
        ∀ u ∈ before ++ after, cond s' (note m t a) u)
    {pool : Pool S T M} (reached : Reachable sys note start admits pool) :
    inv pool.shared pool.record ∧ ∀ t ∈ pool.threads, cond pool.shared pool.record t := by
  refine Reachable.invariant initially ?_ reached
  rintro ⟨s, threads, m⟩ next event ⟨holds, each⟩ admitted taken
  rcases Sys.step_cases taken with
    ⟨t, rfl, rfl⟩ | ⟨before, t, after, o, s', a, rfl, split, applied, rfl⟩
  · refine ⟨holds, fun u member => ?_⟩
    rcases List.mem_append.mp member with old | new
    · exact each u old
    · rw [List.mem_singleton.mp new]
      exact spawned ⟨s, threads, m⟩ t holds admitted
  · subst split
    obtain ⟨kept, own, others⟩ := stepped s m before t after o s' a holds each admitted applied
    refine ⟨kept, fun u member => ?_⟩
    rcases List.mem_append.mp member with early | late
    · rcases List.mem_append.mp early with first | mine
      · exact others u (List.mem_append_left _ first)
      · cases continues : sys.resume t a with
        | inl t' =>
            rw [continues] at mine
            rw [List.mem_singleton.mp mine]
            exact own t' continues
        | inr r =>
            rw [continues] at mine
            cases mine
    · exact others u (List.mem_append_right _ late)

/-- A looser condition on events reaches no less. -/
theorem Reachable.mono {admits' : Pool S T M → Event T O → Prop}
    (looser : ∀ pool event, admits pool event → admits' pool event) {pool : Pool S T M}
    (reached : Reachable sys note start admits pool) : Reachable sys note start admits' pool := by
  induction reached with
  | start initial => exact .start initial
  | step _ admitted taken inductionHypothesis =>
      exact .step inductionHypothesis (looser _ _ admitted) taken

/-- More starts reach no less. -/
theorem Reachable.of_start {start' : Pool S T M → Prop}
    (weaker : ∀ pool, start pool → start' pool) {pool : Pool S T M}
    (reached : Reachable sys note start admits pool) : Reachable sys note start' admits pool := by
  induction reached with
  | start initial => exact .start (weaker _ initial)
  | step _ admitted taken inductionHypothesis => exact .step inductionHypothesis admitted taken

/-- What is reached with one record is reached with another that follows it. -/
theorem Reachable.of_record {N : Type} {note' : N → T → A → N} (rel : M → N → Prop)
    (notes : ∀ m n t a, rel m n → rel (note m t a) (note' n t a)) {start' : Pool S T N → Prop}
    (starts : ∀ pool, start pool → ∃ n, start' ⟨pool.shared, pool.threads, n⟩ ∧ rel pool.record n)
    {admits' : Pool S T N → Event T O → Prop}
    (allowed : ∀ pool n event, rel pool.record n → admits pool event →
      admits' ⟨pool.shared, pool.threads, n⟩ event)
    {pool : Pool S T M} (reached : Reachable sys note start admits pool) :
    ∃ n, Reachable sys note' start' admits' ⟨pool.shared, pool.threads, n⟩ ∧
      rel pool.record n := by
  induction reached with
  | start initial =>
      obtain ⟨n, begun, related⟩ := starts _ initial
      exact ⟨n, .start begun, related⟩
  | step _ admitted taken inductionHypothesis =>
      obtain ⟨n, before, related⟩ := inductionHypothesis
      obtain ⟨n', next, after⟩ := Sys.step_of_record notes taken related
      exact ⟨n', .step before (allowed _ _ _ related admitted) next, after⟩

/-- What an admitted run reaches is reachable. -/
theorem Reachable.of_run [∀ pool event, Decidable (admits pool event)] {next : Pool S T M} :
    ∀ {events : List (Event T O)} {pool : Pool S T M}, Reachable sys note start admits pool →
      sys.run note admits pool events = some next → Reachable sys note start admits next
  | [], _, reached, finished => by
      cases finished
      exact reached
  | event :: rest, pool, reached, finished => by
      simp only [Sys.run] at finished
      split at finished
      next admitted =>
          obtain ⟨middle, first, others⟩ := Option.bind_eq_some_iff.mp finished
          exact Reachable.of_run (.step reached admitted first) others
      next => cases finished

end Reachable

/-- States that answer every effect alike, and stay so, run alike: the same
threads remain and the same record is kept. -/
theorem Sys.run_of_simulates {sys : Sys S E A O T R} {note : M → T → A → M} {rel : S → S → Prop}
    (simulates : ∀ s s' e o next a, rel s s' → sys.apply s e o = some (next, a) →
      ∃ next', sys.apply s' e o = some (next', a) ∧ rel next next') {events : List (Event T O)} :
    ∀ {s s' : S} {threads : List T} {m : M} {pool : Pool S T M}, rel s s' →
      sys.run note (fun _ _ => True) ⟨s, threads, m⟩ events = some pool →
      ∃ shared, sys.run note (fun _ _ => True) ⟨s', threads, m⟩ events =
        some ⟨shared, pool.threads, pool.record⟩ ∧ rel pool.shared shared := by
  induction events with
  | nil =>
      intro s s' threads m pool related finished
      cases finished
      exact ⟨s', rfl, related⟩
  | cons event rest inductionHypothesis =>
      intro s s' threads m pool related finished
      rw [Sys.run, if_pos trivial] at finished
      obtain ⟨next, taken, others⟩ := Option.bind_eq_some_iff.mp finished
      rw [Sys.run, if_pos trivial]
      cases event with
      | spawn thread =>
          cases taken
          exact inductionHypothesis related others
      | run i oracle =>
          simp only [Sys.step] at taken ⊢
          split at taken
          next => cases taken
          next thread found =>
            split at taken
            next => cases taken
            next shared answer applied =>
              cases taken
              obtain ⟨shared', applied', related'⟩ := simulates _ _ _ _ _ _ related applied
              rw [applied']
              exact inductionHypothesis related' others

/-! ### The thread that moves and the others -/

theorem getElem?_moving (before : List T) (t : T) (after : List T) :
    (before ++ t :: after)[before.length]? = some t := by
  rw [List.getElem?_append_right (Nat.le_refl _), Nat.sub_self]
  rfl

theorem mem_of_mem_others {before after : List T} (t : T) {u : T} (member : u ∈ before ++ after) :
    u ∈ before ++ t :: after := by
  simp only [List.mem_append, List.mem_cons] at member ⊢
  tauto

section Exclusive

variable {critical : T → Bool}

/-- A thread that is alone in the critical states. -/
theorem not_critical_of_count {before after : List T} {t : T}
    (one : (before ++ t :: after).countP critical ≤ 1) (inside : critical t = true) {u : T}
    (member : u ∈ before ++ after) : critical u = false := by
  rw [← Bool.not_eq_true]
  intro other
  have counted : 0 < (before ++ after).countP critical :=
    List.countP_pos_iff.mpr ⟨u, member, other⟩
  rw [List.countP_append, List.countP_cons_of_pos inside] at one
  rw [List.countP_append] at counted
  omega

/-- The rule of mutual exclusion: there is never more than one thread in the
critical states if a thread enters them only while the others are outside. -/
theorem Reachable.exclusive (critical : T → Bool) {sys : Sys S E A O T R} {note : M → T → A → M}
    {start : Pool S T M → Prop} {admits : Pool S T M → Event T O → Prop}
    (initially : ∀ pool, start pool → pool.threads.countP critical ≤ 1)
    (spawned : ∀ pool t, admits pool (.spawn t) →
      critical t = false ∨ ∀ u ∈ pool.threads, critical u = false)
    (entered : ∀ s m before t after o a t',
      admits ⟨s, before ++ t :: after, m⟩ (.run before.length o) → sys.resume t a = .inl t' →
      critical t' = true → critical t = true ∨ ∀ u ∈ before ++ after, critical u = false)
    {pool : Pool S T M} (reached : Reachable sys note start admits pool) :
    Reachable sys note start
      (fun pool event => pool.threads.countP critical ≤ 1 ∧ admits pool event) pool := by
  have none : ∀ threads : List T, (∀ u ∈ threads, critical u = false) →
      threads.countP critical = 0 :=
    fun threads outside => List.countP_eq_zero.mpr fun u member => by simp [outside u member]
  refine reached.assuming initially ?_
  rintro ⟨s, threads, m⟩ next event one admitted taken
  rcases Sys.step_cases taken with ⟨t, rfl, rfl⟩ | ⟨before, t, after, o, s', a, rfl, split, -, rfl⟩
  · dsimp only at one ⊢
    rw [List.countP_append]
    rcases spawned _ t admitted with outside | others
    · rw [none [t] (by simpa using outside)]
      exact one
    · rw [none threads others, Nat.zero_add]
      exact List.countP_le_length
  · dsimp only at one split ⊢
    subst split
    rw [List.countP_append, List.countP_cons] at one
    rw [List.countP_append, List.countP_append]
    cases continues : sys.resume t a with
    | inr r =>
        simp only [remaining, List.countP_nil]
        omega
    | inl t' =>
        simp only [remaining, List.countP_singleton]
        by_cases inside : critical t' = true
        · rw [if_pos inside]
          rcases entered s m before t after o a t' admitted continues inside with already | others
          · rw [if_pos already] at one
            omega
          · have outside := none (before ++ after) others
            rw [List.countP_append] at outside
            omega
        · rw [if_neg inside]
          omega

/-- The rule of the lock: the thread in the critical states is the one that holds
it, if a step that enters them takes the lock and one that leaves them gives it
back. -/
theorem Reachable.mutex (critical : T → Bool) (held : S → Bool) {sys : Sys S E A O T R}
    {note : M → T → A → M} {start : Pool S T M → Prop}
    {admits : Pool S T M → Event T O → Prop}
    (initially : ∀ pool, start pool → pool.threads.countP critical = (held pool.shared).toNat)
    (spawned : ∀ pool t, admits pool (.spawn t) → critical t = false)
    (balanced : ∀ s t o s' a, (critical t = true → held s = true) →
      sys.apply s (sys.effect t) o = some (s', a) →
      (remaining (sys.resume t a)).countP critical + (held s).toNat =
        (critical t).toNat + (held s').toNat)
    {pool : Pool S T M} (reached : Reachable sys note start admits pool) :
    pool.threads.countP critical = (held pool.shared).toNat := by
  refine reached.invariant initially ?_
  rintro ⟨s, threads, m⟩ next event count admitted taken
  rcases Sys.step_cases taken with
    ⟨t, rfl, rfl⟩ | ⟨before, t, after, o, s', a, rfl, split, applied, rfl⟩
  · have outside := spawned _ t admitted
    simpa only [List.countP_append, List.countP_singleton, outside, Bool.false_eq_true, if_false,
      Nat.add_zero] using count
  · dsimp only at split count ⊢
    subst split
    rw [List.countP_append, List.countP_cons] at count
    have counted : (if critical t = true then 1 else 0) = (critical t).toNat := by
      cases critical t <;> rfl
    have holds : critical t = true → held s = true := by
      intro inside
      rw [if_pos inside] at count
      cases isHeld : held s with
      | true => rfl
      | false =>
          rw [isHeld, Bool.toNat_false] at count
          omega
    have step := balanced s t o s' a holds applied
    rw [List.countP_append, List.countP_append]
    omega

end Exclusive

/-! ### Tokens -/

section Tokens

variable {K : Type} {token : T → Option K}

/-- The tokens of the others are apart from that of the thread that moves. -/
theorem apart_of_pairwise_filterMap {apart : K → K → Prop}
    (symm : ∀ {k k'}, apart k k' → apart k' k) {before after : List T} {t : T} {k : K}
    (separate : ((before ++ t :: after).filterMap token).Pairwise apart)
    (holds : token t = some k) {u : T} (member : u ∈ before ++ after) {k' : K}
    (other : token u = some k') : apart k k' := by
  rw [List.filterMap_append, List.filterMap_cons_some holds, List.pairwise_middle symm,
    ← List.filterMap_append, List.pairwise_cons] at separate
  exact separate.1 k' (List.mem_filterMap.mpr ⟨u, member, other⟩)

/-- The others do not hold the token of the thread that moves. -/
theorem ne_of_nodup_filterMap {before after : List T} {t : T} {k : K}
    (distinct : ((before ++ t :: after).filterMap token).Nodup) (holds : token t = some k) {u : T}
    (member : u ∈ before ++ after) : token u ≠ some k :=
  fun same => apart_of_pairwise_filterMap Ne.symm distinct holds member same rfl

/-- The rule of tokens: if a thread gets only tokens that are apart from all that
have been issued, the tokens that threads hold are apart from each other. -/
theorem Reachable.pairwise (token : T → Option K) (issued : S → K → Prop) {apart : K → K → Prop}
    (symm : ∀ {k k'}, apart k k' → apart k' k) {sys : Sys S E A O T R} {note : M → T → A → M}
    {start : Pool S T M → Prop} {admits : Pool S T M → Event T O → Prop}
    (initially : ∀ pool, start pool → pool.threads.filterMap token = [])
    (spawned : ∀ pool t, admits pool (.spawn t) → token t = none)
    (kept : ∀ s m before t after o s' a k,
      admits ⟨s, before ++ t :: after, m⟩ (.run before.length o) →
      sys.apply s (sys.effect t) o = some (s', a) → issued s k → issued s' k)
    (passed : ∀ s m before t after o s' a t' k,
      admits ⟨s, before ++ t :: after, m⟩ (.run before.length o) →
      sys.apply s (sys.effect t) o = some (s', a) → sys.resume t a = .inl t' → token t' = some k →
      token t = some k ∨ (∀ k', issued s k' → apart k k') ∧ issued s' k)
    {pool : Pool S T M} (reached : Reachable sys note start admits pool) :
    (pool.threads.filterMap token).Pairwise apart ∧
      ∀ k ∈ pool.threads.filterMap token, issued pool.shared k := by
  have none : ∀ pool, start pool → (pool.threads.filterMap token).Pairwise apart ∧
      ∀ k ∈ pool.threads.filterMap token, issued pool.shared k := by
    intro pool initial
    rw [initially pool initial]
    exact ⟨List.Pairwise.nil, fun k member => by cases member⟩
  refine reached.invariant none ?_
  rintro ⟨s, threads, m⟩ next event ⟨separate, known⟩ admitted taken
  rcases Sys.step_cases taken with
    ⟨t, rfl, rfl⟩ | ⟨before, t, after, o, s', a, rfl, split, applied, rfl⟩
  · have none : [t].filterMap token = [] := List.filterMap_cons_none (spawned _ t admitted)
    rw [List.filterMap_append, none, List.append_nil]
    exact ⟨separate, known⟩
  · dsimp only at split separate known ⊢
    subst split
    have fewer : ((before ++ after).filterMap token).Sublist
        ((before ++ t :: after).filterMap token) :=
      ((List.sublist_cons_self t after).append_left before).filterMap token
    have others : ((before ++ after).filterMap token).Pairwise apart := separate.sublist fewer
    have keeps : ∀ k ∈ (before ++ after).filterMap token, issued s' k :=
      fun k member => kept s m before t after o s' a k admitted applied
        (known k (fewer.subset member))
    cases continues : sys.resume t a with
    | inr r =>
        simp only [remaining, List.append_nil]
        exact ⟨others, keeps⟩
    | inl t' =>
        simp only [remaining, List.append_assoc, List.singleton_append]
        cases holds : token t' with
        | none =>
            rw [List.filterMap_append, List.filterMap_cons_none holds, ← List.filterMap_append]
            exact ⟨others, keeps⟩
        | some k =>
            have mine : (∀ k' ∈ (before ++ after).filterMap token, apart k k') ∧ issued s' k := by
              rcases passed s m before t after o s' a t' k admitted applied continues holds with
                already | ⟨new, now⟩
              · refine ⟨fun k' member => ?_,
                  kept s m before t after o s' a k admitted applied (known k ?_)⟩
                · obtain ⟨u, inPool, other⟩ := List.mem_filterMap.mp member
                  exact apart_of_pairwise_filterMap symm separate already inPool other
                · exact List.mem_filterMap.mpr
                    ⟨t, List.mem_append_right _ List.mem_cons_self, already⟩
              · exact ⟨fun k' member => new k' (known k' (fewer.subset member)), now⟩
            rw [List.filterMap_append, List.filterMap_cons_some holds, List.pairwise_middle symm,
              ← List.filterMap_append, List.pairwise_cons]
            refine ⟨⟨mine.1, others⟩, fun other member => ?_⟩
            rw [List.filterMap_append] at keeps
            rcases List.mem_append.mp member with early | late
            · exact keeps other (List.mem_append_left _ early)
            · rcases List.mem_cons.mp late with rfl | late
              · exact mine.2
              · exact keeps other (List.mem_append_right _ late)

/-- The rule of unique tokens: if every token is issued to one thread and never
issued again, no two threads hold the same. -/
theorem Reachable.distinct (token : T → Option K) (issued : S → K → Prop)
    {sys : Sys S E A O T R} {note : M → T → A → M} {start : Pool S T M → Prop}
    {admits : Pool S T M → Event T O → Prop}
    (initially : ∀ pool, start pool → pool.threads.filterMap token = [])
    (spawned : ∀ pool t, admits pool (.spawn t) → token t = none)
    (kept : ∀ s t o s' a k, sys.apply s (sys.effect t) o = some (s', a) → issued s k → issued s' k)
    (passed : ∀ s t o s' a t' k, sys.apply s (sys.effect t) o = some (s', a) →
      sys.resume t a = .inl t' → token t' = some k →
      token t = some k ∨ ¬ issued s k ∧ issued s' k)
    {pool : Pool S T M} (reached : Reachable sys note start admits pool) :
    (pool.threads.filterMap token).Nodup ∧
      ∀ k ∈ pool.threads.filterMap token, issued pool.shared k := by
  refine Reachable.pairwise token issued Ne.symm initially spawned
    (fun s _ _ t _ o s' a k _ => kept s t o s' a k) ?_ reached
  intro s m before t after o s' a t' k _ applied continues holds
  rcases passed s t o s' a t' k applied continues holds with already | ⟨fresh, now⟩
  · exact Or.inl already
  · exact Or.inr ⟨fun k' known same => fresh (same ▸ known), now⟩

end Tokens

/-! ### Annotated threads -/

section Annotated

variable {G : Type}

/-- The system in which every thread carries a note. The note sees each answer
of its thread and the state that the step leaves; the thread never reads it. -/
def Sys.annotated (sys : Sys S E A O T R) (annotate : G → T → A → S → G) :
    Sys S E (A × S) O (T × G) R where
  apply s e o := (sys.apply s e o).map fun result => (result.1, result.2, result.1)
  effect t := sys.effect t.1
  resume t answer :=
    match sys.resume t.1 answer.1 with
    | .inl next => .inl (next, annotate t.2 t.1 answer.1 answer.2)
    | .inr r => .inr r

variable {sys : Sys S E A O T R} {annotate : G → T → A → S → G}
  {note : M → T × G → A × S → M} {start : Pool S (T × G) M → Prop}
  {admits : Pool S (T × G) M → Event (T × G) O → Prop}

/-- An annotated thread goes on as its thread does. -/
theorem Sys.resume_of_annotated {thread next : T × G} {answer : A × S}
    (continues : (sys.annotated annotate).resume thread answer = .inl next) :
    sys.resume thread.1 answer.1 = .inl next.1 ∧
      next.2 = annotate thread.2 thread.1 answer.1 answer.2 := by
  simp only [Sys.annotated] at continues
  split at continues
  next t' continued =>
    cases continues
    exact ⟨continued, rfl⟩
  next => cases continues

/-- The rule for an invariant and a condition on every thread and its note, in
terms of the steps of the plain system. -/
theorem Reachable.annotated_invariant (inv : S → M → Prop) (cond : S → M → T → G → Prop)
    (initially : ∀ pool, start pool →
      inv pool.shared pool.record ∧ ∀ t ∈ pool.threads, cond pool.shared pool.record t.1 t.2)
    (spawned : ∀ pool t g, inv pool.shared pool.record → admits pool (.spawn (t, g)) →
      cond pool.shared pool.record t g)
    (stepped : ∀ s m before t g after o s' a, inv s m →
      (∀ u ∈ before ++ (t, g) :: after, cond s m u.1 u.2) →
      admits ⟨s, before ++ (t, g) :: after, m⟩ (.run before.length o) →
      sys.apply s (sys.effect t) o = some (s', a) →
      inv s' (note m (t, g) (a, s')) ∧
        (∀ t', sys.resume t a = .inl t' →
          cond s' (note m (t, g) (a, s')) t' (annotate g t a s')) ∧
        ∀ u ∈ before ++ after, cond s' (note m (t, g) (a, s')) u.1 u.2)
    {pool : Pool S (T × G) M}
    (reached : Reachable (sys.annotated annotate) note start admits pool) :
    inv pool.shared pool.record ∧ ∀ t ∈ pool.threads, cond pool.shared pool.record t.1 t.2 := by
  refine Reachable.local_invariant inv (fun s m t => cond s m t.1 t.2) initially
    (fun pool t => spawned pool t.1 t.2) ?_ reached
  rintro s m before ⟨t, g⟩ after o s' ⟨a, seen⟩ holds each admitted applied
  obtain ⟨⟨left, answer⟩, plain, same⟩ := Option.map_eq_some_iff.mp applied
  cases same
  obtain ⟨kept, own, others⟩ := stepped s m before t g after o _ _ holds each admitted plain
  refine ⟨kept, fun next continues => ?_, others⟩
  obtain ⟨continued, noted⟩ := Sys.resume_of_annotated continues
  rw [noted]
  exact own next.1 continued

end Annotated

end Interleaving
