import Mathlib.Logic.Relation

/-!
Contract: relations without cycles, and when an added edge closes none.

Owns the notion for an arbitrary relation, that it passes to smaller relations,
and the rule for one more edge: it is safe if its end does not lead back to its
start.
-/

set_option autoImplicit false

universe u

open Relation

variable {α : Type u} {r r' : α → α → Prop}

/-- No element leads back to itself. -/
def Acyclic (r : α → α → Prop) : Prop := ∀ x, ¬ TransGen r x x

theorem Acyclic.mono (acyclic : Acyclic r) (smaller : ∀ x y, r' x y → r x y) : Acyclic r' :=
  fun x cycle => acyclic x (TransGen.mono smaller x x cycle)

theorem Acyclic.irrefl (acyclic : Acyclic r) (x : α) : ¬ r x x :=
  fun loop => acyclic x (.single loop)

/-- A path along the old edges and the edge from `a` to `b` that is not an old
path reaches `a` and goes on from `b`. -/
theorem transGen_insert {a b : α} (edge : ∀ x y, r' x y → r x y ∨ x = a ∧ y = b) {x y : α}
    (path : TransGen r' x y) :
    TransGen r x y ∨ ReflTransGen r x a ∧ ReflTransGen r b y := by
  induction path with
  | single first =>
      rcases edge _ _ first with old | ⟨rfl, rfl⟩
      · exact Or.inl (.single old)
      · exact Or.inr ⟨.refl, .refl⟩
  | tail _ last inductionHypothesis =>
      rcases edge _ _ last with old | ⟨rfl, rfl⟩
      · rcases inductionHypothesis with before | ⟨reaches, behind⟩
        · exact Or.inl (before.tail old)
        · exact Or.inr ⟨reaches, behind.tail old⟩
      · rcases inductionHypothesis with before | ⟨reaches, -⟩
        · exact Or.inr ⟨before.to_reflTransGen, .refl⟩
        · exact Or.inr ⟨reaches, .refl⟩

/-- An edge whose end does not lead to its start closes no cycle. -/
theorem Acyclic.insert (acyclic : Acyclic r) {a b : α}
    (edge : ∀ x y, r' x y → r x y ∨ x = a ∧ y = b) (apart : ¬ ReflTransGen r b a) : Acyclic r' := by
  intro x cycle
  rcases transGen_insert edge cycle with old | ⟨reaches, behind⟩
  · exact acyclic x old
  · exact apart (behind.trans reaches)
