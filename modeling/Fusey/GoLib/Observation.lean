import Mathlib.Data.List.Pairwise

/-!
Contract: a reader that looks at a state, step by step, while others change it
between its looks.

Owns:
- the points a reader passes through, with the moments since its start: the
  states it could have seen, the latest first;
- the rules by which facts about one change hold of all moments, and of any two
  of them;
- executable readers.

Does not own what the others do: that is an arbitrary step relation. A reader
changes nothing, so any number of readers beside each other is each of them
alone.
-/

set_option autoImplicit false

namespace Observation

variable {S Q B O : Type}

/-- The reader `q` has come to a point, and `moments` are the states since its
start. A look may end the reader with a result, which it keeps. -/
inductive Observed (start : S → Prop) (step : S → S → Prop) (look : Q → S → O → Option (Q ⊕ B))
    (q : Q) : List S → Q ⊕ B → Prop where
  | start {s : S} (initial : start s) : Observed start step look q [s] (.inl q)
  | others {s s' : S} {past : List S} {q' : Q}
      (before : Observed start step look q (s :: past) (.inl q')) (stepped : step s s') :
      Observed start step look q (s' :: s :: past) (.inl q')
  | look {s : S} {past : List S} {q' : Q} {o : O} {point : Q ⊕ B}
      (before : Observed start step look q (s :: past) (.inl q'))
      (looked : look q' s o = some point) : Observed start step look q (s :: past) point

variable {start : S → Prop} {step : S → S → Prop} {look : Q → S → O → Option (Q ⊕ B)} {q : Q}
  {moments : List S} {point : Q ⊕ B}

/-- What every start has and every change keeps holds at every moment. -/
theorem Observed.always {inv : S → Prop} (initially : ∀ s, start s → inv s)
    (kept : ∀ s s', inv s → step s s' → inv s')
    (observed : Observed start step look q moments point) : ∀ s ∈ moments, inv s := by
  induction observed with
  | start initial =>
      intro s member
      rw [List.mem_singleton.mp member]
      exact initially _ initial
  | others _ stepped inductionHypothesis =>
      intro s member
      rcases List.mem_cons.mp member with rfl | earlier
      · exact kept _ _ (inductionHypothesis _ List.mem_cons_self) stepped
      · exact inductionHypothesis s earlier
  | look _ _ inductionHypothesis => exact inductionHypothesis

/-- A transitive relation between the two sides of every change holds between any
two moments. -/
theorem Observed.pairwise (inv : S → Prop) (rel : S → S → Prop)
    (initially : ∀ s, start s → inv s) (kept : ∀ s s', inv s → step s s' → inv s')
    (related : ∀ s s', inv s → step s s' → rel s s')
    (trans : ∀ {s s' s''}, rel s s' → rel s' s'' → rel s s'')
    (observed : Observed start step look q moments point) :
    moments.Pairwise fun later earlier => rel earlier later := by
  induction observed with
  | start _ => exact List.pairwise_singleton _ _
  | @others s s' past q' before stepped inductionHypothesis =>
      have now : rel s s' := related s s' (before.always initially kept s List.mem_cons_self)
        stepped
      refine List.pairwise_cons.mpr ⟨fun earlier member => ?_, inductionHypothesis⟩
      rcases List.mem_cons.mp member with rfl | older
      · exact now
      · exact trans ((List.pairwise_cons.mp inductionHypothesis).1 earlier older) now
  | look _ _ inductionHypothesis => exact inductionHypothesis

/-- The rule for a reader: a start establishes the condition, more moments keep
it, and a look, at the latest moment, establishes it for the next point. -/
theorem Observed.rule (inv : List S → Q ⊕ B → Prop)
    (initially : ∀ s, start s → inv [s] (.inl q))
    (grows : ∀ s s' past q', inv (s :: past) (.inl q') → inv (s' :: s :: past) (.inl q'))
    (looked : ∀ s past q' o next, inv (s :: past) (.inl q') → look q' s o = some next →
      inv (s :: past) next)
    (observed : Observed start step look q moments point) : inv moments point := by
  induction observed with
  | start initial => exact initially _ initial
  | others _ _ inductionHypothesis => exact grows _ _ _ _ inductionHypothesis
  | look _ seen inductionHypothesis => exact looked _ _ _ _ _ inductionHypothesis seen

/-- A reader beside events of the others, executed. -/
def watch {V : Type} (advance : S → V → Option S) (look : Q → S → O → Option (Q ⊕ B)) :
    S → List S → Q → List (V ⊕ O) → Option (List S × (Q ⊕ B))
  | s, past, q, [] => some (s :: past, .inl q)
  | s, past, q, .inl event :: rest =>
      (advance s event).bind fun s' => watch advance look s' (s :: past) q rest
  | s, past, q, .inr o :: rest =>
      (look q s o).bind fun
        | .inl q' => watch advance look s past q' rest
        | .inr b => if rest.isEmpty then some (s :: past, .inr b) else none

theorem Observed.of_watch {V : Type} {advance : S → V → Option S}
    (steps : ∀ s event s', advance s event = some s' → step s s') {events : List (V ⊕ O)} :
    ∀ {s : S} {past : List S} {q' : Q}, Observed start step look q (s :: past) (.inl q') →
      watch advance look s past q' events = some (moments, point) →
      Observed start step look q moments point := by
  induction events with
  | nil =>
      intro s past q' before finished
      cases finished
      exact before
  | cons event rest inductionHypothesis =>
      intro s past q' before finished
      cases event with
      | inl event =>
          obtain ⟨s', stepped, others⟩ := Option.bind_eq_some_iff.mp finished
          exact inductionHypothesis (.others before (steps _ _ _ stepped)) others
      | inr o =>
          obtain ⟨next, looked, others⟩ := Option.bind_eq_some_iff.mp finished
          cases next with
          | inl q'' => exact inductionHypothesis (.look before looked) others
          | inr b =>
              dsimp only at others
              split at others <;> cases others
              exact .look before looked

end Observation
