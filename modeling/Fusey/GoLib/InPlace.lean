import Mathlib.Data.List.Basic

/-!
Contract: the Go idiom that rewrites a slice into its own backing array.

`kept := s[:0]; for _, e := range s { kept = append(kept, pieces(e)...) }`
reads element `i` from the array that `append` is writing to. While `kept` is
no longer than the number of elements already read this is a plain filter;
once one element is replaced by two, `append` overwrites elements that the
range has not reached yet.

Owns: that loop for any element type and any replacement, the condition under
which it is `List.flatMap`, and the facts that survive the overwriting.

The capacity plays no part: a position below the length is always below the
capacity, so every write that the range can still observe is a write to the
shared array.
-/

set_option autoImplicit false

universe u

namespace GoSlice

variable {α : Type u}

/-- The array the range reads, and the slice that grows over it. -/
structure Rewrite (α : Type u) where
  backing : List α
  kept : List α

/-- `kept = append(kept, x)`: the element lands in the shared array. -/
def Rewrite.append (state : Rewrite α) (x : α) : Rewrite α :=
  ⟨state.backing.set state.kept.length x, state.kept ++ [x]⟩

/-- One iteration: read element `i` as the array holds it now, then append its
replacement. -/
def Rewrite.visit (pieces : α → List α) (state : Rewrite α) (i : Nat) : Rewrite α :=
  match state.backing[i]? with
  | none => state
  | some e => (pieces e).foldl Rewrite.append state

/-- The state after the first `count` iterations. -/
def Rewrite.after (pieces : α → List α) (items : List α) (count : Nat) : Rewrite α :=
  (List.range count).foldl (Rewrite.visit pieces) ⟨items, []⟩

/-- The slice the whole loop leaves. -/
def rewriteInPlace (pieces : α → List α) (items : List α) : List α :=
  (Rewrite.after pieces items items.length).kept

/-! ### One append, several appends -/

theorem appendAll_kept (xs : List α) (state : Rewrite α) :
    (xs.foldl Rewrite.append state).kept = state.kept ++ xs := by
  induction xs generalizing state with
  | nil => simp
  | cons x rest inductionHypothesis =>
      rw [List.foldl_cons, inductionHypothesis]
      simp [Rewrite.append]

/-- Appending leaves the array unchanged from the new end of `kept` on. -/
theorem appendAll_backing_above (xs : List α) (state : Rewrite α) {j : Nat}
    (above : state.kept.length + xs.length ≤ j) :
    (xs.foldl Rewrite.append state).backing[j]? = state.backing[j]? := by
  induction xs generalizing state with
  | nil => rfl
  | cons x rest inductionHypothesis =>
      simp only [List.length_cons] at above
      rw [List.foldl_cons, inductionHypothesis _ (by simp [Rewrite.append]; omega)]
      have different : state.kept.length ≠ j := by omega
      simp [Rewrite.append, List.getElem?_set_ne different]

theorem appendAll_backing_mem {xs : List α} {state : Rewrite α} {e : α}
    (member : e ∈ (xs.foldl Rewrite.append state).backing) : e ∈ state.backing ∨ e ∈ xs := by
  induction xs generalizing state with
  | nil => exact Or.inl member
  | cons x rest inductionHypothesis =>
      rw [List.foldl_cons] at member
      rcases inductionHypothesis member with old | new
      · rcases List.mem_or_eq_of_mem_set old with kept | rfl
        · exact Or.inl kept
        · exact Or.inr (by simp)
      · exact Or.inr (by simp [new])

theorem after_succ (pieces : α → List α) (items : List α) (count : Nat) :
    Rewrite.after pieces items (count + 1) =
      (Rewrite.after pieces items count).visit pieces count := by
  simp [Rewrite.after, List.range_succ]

/-! ### When the loop is a plain rewrite -/

/-- As long as the slice never outgrows the elements already read, the loop
reads the original elements and builds their replacements in order. -/
theorem after_eq {pieces : α → List α} {items : List α}
    (slow : ∀ i < items.length, ((items.take i).flatMap pieces).length ≤ i) :
    ∀ count ≤ items.length,
      (Rewrite.after pieces items count).kept = (items.take count).flatMap pieces ∧
        ∀ j, ((items.take count).flatMap pieces).length ≤ j →
          (Rewrite.after pieces items count).backing[j]? = items[j]?
  | 0, _ => by simp [Rewrite.after]
  | count + 1, bound => by
      obtain ⟨kept, unread⟩ := after_eq slow count (by omega)
      have current : (Rewrite.after pieces items count).backing[count]? = items[count]? :=
        unread count (slow count (by omega))
      have element : items[count]? = some items[count] := List.getElem?_eq_getElem (by omega)
      have taken : (items.take (count + 1)).flatMap pieces =
          (items.take count).flatMap pieces ++ pieces items[count] := by
        rw [List.take_add_one, element, List.flatMap_append]
        simp
      rw [after_succ, Rewrite.visit, current, element, taken]
      refine ⟨by rw [appendAll_kept, kept], fun j above => ?_⟩
      rw [List.length_append] at above
      rw [appendAll_backing_above _ _ (by rw [kept]; exact above)]
      exact unread j (by omega)

theorem rewriteInPlace_eq_flatMap {pieces : α → List α} {items : List α}
    (slow : ∀ i < items.length, ((items.take i).flatMap pieces).length ≤ i) :
    rewriteInPlace pieces items = items.flatMap pieces := by
  rw [rewriteInPlace, (after_eq slow items.length (Nat.le_refl _)).1, List.take_length]

theorem flatMap_length_le {pieces : α → List α} :
    ∀ {items : List α}, (∀ e ∈ items, (pieces e).length ≤ 1) →
      (items.flatMap pieces).length ≤ items.length
  | [], _ => by simp
  | head :: tail, short => by
      have rest : (tail.flatMap pieces).length ≤ tail.length :=
        flatMap_length_le fun e member => short e (by simp [member])
      have first := short head (by simp)
      simp only [List.flatMap_cons, List.length_append, List.length_cons]
      omega

/-- Only the last element may be replaced by more than one: nothing is left
to overwrite behind it. -/
theorem rewriteInPlace_of_last {pieces : α → List α} {items : List α}
    (short : ∀ e ∈ items.dropLast, (pieces e).length ≤ 1) :
    rewriteInPlace pieces items = items.flatMap pieces := by
  apply rewriteInPlace_eq_flatMap
  intro i below
  have inner : ∀ e ∈ items.take i, (pieces e).length ≤ 1 := by
    intro e member
    apply short e
    rw [List.dropLast_eq_take]
    exact List.take_subset_take_left items (by omega) member
  calc ((items.take i).flatMap pieces).length ≤ (items.take i).length := flatMap_length_le inner
    _ ≤ i := List.length_take_le i items

/-! ### What holds whatever is overwritten -/

/-- Overwritten elements are replacements themselves, so a property that
replacements inherit holds of everything the loop reads and leaves. -/
theorem after_all {pieces : α → List α} {items : List α} {P Q : α → Prop}
    (start : ∀ e ∈ items, P e) (inherit : ∀ e, P e → ∀ x ∈ pieces e, P x ∧ Q x) :
    ∀ count, (∀ e ∈ (Rewrite.after pieces items count).backing, P e) ∧
      ∀ e ∈ (Rewrite.after pieces items count).kept, P e ∧ Q e
  | 0 => by simpa [Rewrite.after] using start
  | count + 1 => by
      obtain ⟨backing, kept⟩ := after_all start inherit count
      rw [after_succ, Rewrite.visit]
      split
      next => exact ⟨backing, kept⟩
      next e found =>
          have parent : P e := backing e (List.mem_of_getElem? found)
          refine ⟨fun x member => ?_, fun x member => ?_⟩
          · rcases appendAll_backing_mem member with old | new
            · exact backing x old
            · exact (inherit e parent x new).1
          · rw [appendAll_kept] at member
            rcases List.mem_append.mp member with old | new
            · exact kept x old
            · exact inherit e parent x new

theorem rewriteInPlace_all {pieces : α → List α} {items : List α} {P Q : α → Prop}
    (start : ∀ e ∈ items, P e) (inherit : ∀ e, P e → ∀ x ∈ pieces e, P x ∧ Q x) :
    ∀ x ∈ rewriteInPlace pieces items, P x ∧ Q x :=
  (after_all start inherit items.length).2

end GoSlice
