import Mathlib.Data.List.Basic

/-!
Contract: runs of labelled steps, and simulations between two levels of a design
in which one step of the lower level is some number of actions of the upper one,
often none.

Owns runs, the rule for invariants, the actions that a run amounts to, and the rule
that a step-by-step simulation is a simulation of whole runs.
-/

set_option autoImplicit false

universe u v w x

namespace Simulation

variable {C : Type u} {A : Type v} {M : Type w} {L : Type x}

/-- Steps taken one after the other; a step may not be possible. -/
def run (step : C → M → Option C) : C → List M → Option C
  | c, [] => some c
  | c, m :: rest => (step c m).bind fun next => run step next rest

/-- The upper-level actions that a run amounts to. -/
def trace (step : C → M → Option C) (actions : C → M → List L) : C → List M → List L
  | _, [] => []
  | c, m :: rest =>
      match step c m with
      | none => actions c m
      | some next => actions c m ++ trace step actions next rest

theorem run_append (step : C → M → Option C) (c : C) (first second : List M) :
    run step c (first ++ second) = (run step c first).bind fun next => run step next second := by
  induction first generalizing c with
  | nil => rfl
  | cons m rest inductionHypothesis =>
      simp only [List.cons_append, run, Option.bind_assoc, inductionHypothesis]

/-- What every step keeps is kept by a run. -/
theorem run_invariant {step : C → M → Option C} {inv : C → Prop}
    (preserved : ∀ c m next, inv c → step c m = some next → inv next) {c last : C} {ms : List M}
    (ran : run step c ms = some last) (holds : inv c) : inv last := by
  induction ms generalizing c with
  | nil =>
      cases ran
      exact holds
  | cons m rest inductionHypothesis =>
      obtain ⟨next, taken, ran'⟩ := Option.bind_eq_some_iff.mp ran
      exact inductionHypothesis ran' (preserved c m next holds taken)

/-- If the actions of a step lead from what represents the state before it to what
represents the state after it, the actions of a run do. -/
theorem run_trace {step : C → M → Option C} {act : A → L → Option A} {actions : C → M → List L}
    {rel : C → A → Prop} {admits : M → Prop}
    (simulates : ∀ c m next a, admits m → rel c a → step c m = some next →
      ∃ a', run act a (actions c m) = some a' ∧ rel next a')
    {c last : C} {ms : List M} {a : A} (admitted : ∀ m ∈ ms, admits m) (related : rel c a)
    (ran : run step c ms = some last) :
    ∃ a', run act a (trace step actions c ms) = some a' ∧ rel last a' := by
  induction ms generalizing c a with
  | nil =>
      cases ran
      exact ⟨a, rfl, related⟩
  | cons m rest inductionHypothesis =>
      obtain ⟨next, taken, ran'⟩ := Option.bind_eq_some_iff.mp ran
      obtain ⟨first, others⟩ := List.forall_mem_cons.mp admitted
      obtain ⟨middle, acted, related'⟩ := simulates c m next a first related taken
      obtain ⟨a', acted', isLast⟩ := inductionHypothesis others related' ran'
      refine ⟨a', ?_, isLast⟩
      simp only [trace, taken, run_append, acted, Option.bind_some]
      exact acted'

end Simulation
