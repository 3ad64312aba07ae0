import Mathlib.Data.List.Basic
import Mathlib.Data.Option.Basic

/-!
Contract: stacks of partial functions in which the last layer that is defined
at a point wins.

Owns the overlay of a list of layers, how it splits over concatenation, and
what replacing every layer by smaller ones does to it. It is the meaning of any
list of patches applied from left to right; it does not own what a layer is.
-/

set_option autoImplicit false

universe u v w

namespace Overlay

variable {ι : Type u} {β : Type v} {α : Type w}

/-- The value at `x` of the layers, the last defined one winning. -/
def overlay (layers : List (ι → Option β)) (x : ι) : Option β :=
  layers.foldl (fun below layer => (layer x).or below) none

private theorem foldl_or (layers : List (ι → Option β)) (x : ι) (below : Option β) :
    layers.foldl (fun below layer => (layer x).or below) below =
      (overlay layers x).or below := by
  unfold overlay
  induction layers generalizing below with
  | nil => simp
  | cons layer rest inductionHypothesis =>
      simp only [List.foldl_cons]
      rw [inductionHypothesis, inductionHypothesis ((layer x).or none), Option.or_none,
        Option.or_assoc]

@[simp] theorem overlay_nil (x : ι) : overlay ([] : List (ι → Option β)) x = none := rfl

theorem overlay_append (left right : List (ι → Option β)) (x : ι) :
    overlay (left ++ right) x = (overlay right x).or (overlay left x) := by
  rw [← foldl_or right x (overlay left x)]
  unfold overlay
  rw [List.foldl_append]

@[simp] theorem overlay_singleton (layer : ι → Option β) (x : ι) :
    overlay [layer] x = layer x := by
  simp [overlay]

theorem overlay_cons (layer : ι → Option β) (rest : List (ι → Option β)) (x : ι) :
    overlay (layer :: rest) x = (overlay rest x).or (layer x) := by
  rw [← List.singleton_append, overlay_append, overlay_singleton]

theorem overlay_concat (layers : List (ι → Option β)) (layer : ι → Option β) (x : ι) :
    overlay (layers ++ [layer]) x = (layer x).or (overlay layers x) := by
  rw [overlay_append, overlay_singleton]

/-- A value of the overlay is the value of one of its layers. -/
theorem exists_of_overlay {layers : List (ι → Option β)} {x : ι} {value : β}
    (found : overlay layers x = some value) : ∃ layer ∈ layers, layer x = some value := by
  induction layers with
  | nil => cases found
  | cons layer rest inductionHypothesis =>
      rw [overlay_cons] at found
      rcases Option.or_eq_some_iff.mp found with inRest | ⟨-, here⟩
      · obtain ⟨other, member, value⟩ := inductionHypothesis inRest
        exact ⟨other, by simp [member], value⟩
      · exact ⟨layer, by simp, here⟩

theorem overlay_eq_none {layers : List (ι → Option β)} {x : ι} :
    overlay layers x = none ↔ ∀ layer ∈ layers, layer x = none := by
  induction layers with
  | nil => simp
  | cons layer rest inductionHypothesis =>
      rw [overlay_cons, Option.or_eq_none_iff, inductionHypothesis]
      constructor
      · rintro ⟨others, here⟩ other member
        rcases List.mem_cons.mp member with rfl | inRest
        · exact here
        · exact others other inRest
      · intro all
        exact ⟨fun other member => all other (by simp [member]), all layer (by simp)⟩

/-- Replacing each layer by pieces that agree with it at `x` changes nothing
at `x`. -/
theorem overlay_flatMap_of_agree {items : List α} {pieces : α → List α}
    {layer : α → ι → Option β} {x : ι}
    (agree : ∀ e ∈ items, overlay ((pieces e).map layer) x = layer e x) :
    overlay ((items.flatMap pieces).map layer) x = overlay (items.map layer) x := by
  induction items with
  | nil => rfl
  | cons head tail inductionHypothesis =>
      rw [List.flatMap_cons, List.map_append, overlay_append, List.map_cons, overlay_cons,
        agree head (by simp), inductionHypothesis fun e member => agree e (by simp [member])]

/-- Changing no layer's value at `x` changes nothing at `x`. -/
theorem overlay_congr {items : List α} {left right : α → ι → Option β} {x : ι}
    (agree : ∀ e ∈ items, left e x = right e x) :
    overlay (items.map left) x = overlay (items.map right) x := by
  induction items with
  | nil => rfl
  | cons head tail inductionHypothesis =>
      rw [List.map_cons, List.map_cons, overlay_cons, overlay_cons, agree head (by simp),
        inductionHypothesis fun e member => agree e (by simp [member])]

/-- Dropping or shortening layers so that each is cut to the points of `keep` cuts
the overlay to them. -/
theorem overlay_filterMap {items : List α} {cut : α → Option α} {layer : α → ι → Option β}
    {keep : Prop} [Decidable keep] {x : ι}
    (each : ∀ e ∈ items, overlay ((cut e).toList.map layer) x = if keep then layer e x else none) :
    overlay ((items.filterMap cut).map layer) x =
      if keep then overlay (items.map layer) x else none := by
  induction items with
  | nil => exact (ite_self none).symm
  | cons head tail inductionHypothesis =>
      have rest := inductionHypothesis fun e member => each e (by simp [member])
      have split : (head :: tail).filterMap cut =
          (cut head).toList ++ tail.filterMap cut := by
        cases kept : cut head <;> simp [kept]
      rw [split, List.map_append, overlay_append, rest, each head (by simp), List.map_cons,
        overlay_cons]
      split_ifs <;> simp

end Overlay
