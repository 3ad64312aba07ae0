import Mathlib.Tactic.Common

/-!
Contract: what the Go machine does that mathematics does not: `int64` results
wrap, and a function can panic instead of returning.

Owns the reduction `wrap64` that every sum or difference of two `int64` values
passes through and the range in which it changes nothing, the conversions to
unsigned words, and the two ways a call fails. Values themselves are plain
integers; a model states where its own stay in range.
-/

set_option autoImplicit false

/-- Why a call did not complete: a returned error, or a run-time panic. -/
inductive GoFault (ε : Type) where
  | error (e : ε)
  | panic
deriving DecidableEq, Repr

namespace GoInt

/-- Reduce an exact result to the `int64` the machine stores. -/
def wrap64 (x : Int) : Int :=
  (x + 9223372036854775808) % 18446744073709551616 - 9223372036854775808

/-- `x` is representable as an `int64`. -/
def IsInt64 (x : Int) : Prop := -9223372036854775808 ≤ x ∧ x < 9223372036854775808

instance (x : Int) : Decidable (IsInt64 x) := by
  unfold IsInt64
  infer_instance

/-- Wrapping changes nothing in range. -/
theorem wrap64_of_range {x : Int} (range : IsInt64 x) : wrap64 x = x := by
  unfold IsInt64 at range
  unfold wrap64
  omega

theorem wrap64_range (x : Int) : IsInt64 (wrap64 x) := by
  unfold IsInt64 wrap64
  omega

/-- The usual way to discharge a sum of non-negative values. -/
theorem wrap64_of_nonneg {x : Int} (nonneg : 0 ≤ x) (below : x < 9223372036854775808) :
    wrap64 x = x := by
  apply wrap64_of_range
  unfold IsInt64
  omega

/-- Wrapping a summand early changes nothing. -/
theorem wrap64_wrap64_add (x y : Int) : wrap64 (wrap64 x + y) = wrap64 (x + y) := by
  unfold wrap64
  omega

/-- Adding back a difference gives the number it was taken from, wrapped or not. -/
theorem wrap64_add_wrap64_sub {x : Int} (start : Int) (range : IsInt64 x) :
    wrap64 (start + wrap64 (x - start)) = x := by
  unfold IsInt64 at range
  unfold wrap64
  omega

/-- `uint64(x)`. -/
def toUint64 (x : Int) : Nat := (x % 18446744073709551616).toNat

/-- `uint32(x)`. -/
def toUint32 (x : Int) : Nat := (x % 4294967296).toNat

theorem toUint64_of_nonneg {x : Int} (nonneg : 0 ≤ x) (below : x < 18446744073709551616) :
    (toUint64 x : Int) = x := by
  unfold toUint64
  omega

/-- An `int64` survives the way to `uint64` and back. -/
theorem wrap64_toUint64 {x : Int} (range : IsInt64 x) : wrap64 (toUint64 x) = x := by
  unfold IsInt64 at range
  unfold wrap64 toUint64
  omega

end GoInt
