import Mathlib.Data.Finmap
import Mathlib.Algebra.BigOperators.Group.Multiset.Basic
import Mathlib.Algebra.Order.BigOperators.Group.Finset

/-!
Contract: finite maps with Go's map operations, over arbitrary key and value
types.

Owns:
- reads, assignment, deletion and in-place update of one entry;
- the unordered entries, and sums over them;
- mapping every value, for all-or-nothing conversions of a whole map.

Does not own: an iteration order. A caller that ranges over a map names the
order it visits and shows that it lists exactly the entries.
-/

set_option autoImplicit false

universe u v w

/-- A Go `map[K]V`. -/
def GoMap (K : Type u) (V : Type v) : Type (max u v) := Finmap fun _ : K => V

namespace GoMap

variable {K : Type u} {V : Type v} {W : Type w} [DecidableEq K]

instance : EmptyCollection (GoMap K V) := ⟨(∅ : Finmap fun _ : K => V)⟩

instance : Inhabited (GoMap K V) := ⟨∅⟩

instance [DecidableEq V] : DecidableEq (GoMap K V) :=
  inferInstanceAs (DecidableEq (Finmap fun _ : K => V))

/-- `v, ok := m[k]`. -/
def get (m : GoMap K V) (k : K) : Option V := Finmap.lookup k m

/-- `m[k] = v`. -/
def set (m : GoMap K V) (k : K) (v : V) : GoMap K V := Finmap.insert k v m

/-- `delete(m, k)`. -/
def delete (m : GoMap K V) (k : K) : GoMap K V := Finmap.erase k m

/-- Update through a pointer held in the map: nothing happens when `k` is
absent. -/
def modify (m : GoMap K V) (k : K) (f : V → V) : GoMap K V :=
  match m.get k with
  | some v => m.set k (f v)
  | none => m

/-- The keys present. -/
def keys (m : GoMap K V) : Finset K := Finmap.keys m

/-- The entries, in no order. -/
def entries (m : GoMap K V) : Multiset (K × V) :=
  (Finmap.entries m).map fun entry => (entry.1, entry.2)

/-- The map that holds `f k` for the keys `k` of a finite set at which `f` is
defined. -/
def build (domain : Finset K) (f : K → Option V) : GoMap K V :=
  Finmap.keysLookupEquiv.symm
    ⟨(domain.filter fun k => (f k).isSome, fun k => if k ∈ domain then f k else none), by
      intro k
      by_cases inside : k ∈ domain <;> simp [inside]⟩

/-- Apply `f` to every value. -/
def map (f : V → W) (m : GoMap K V) : GoMap K W := build m.keys fun k => (m.get k).map f

/-- The entries of `m`, completed by those of `other` at the keys `m` lacks. -/
def orElse (m other : GoMap K V) : GoMap K V :=
  build (m.keys ∪ other.keys) fun k => (m.get k).or (other.get k)

/-- The map built by assigning the pairs of a list from left to right. -/
def ofList (pairs : List (K × V)) : GoMap K V :=
  pairs.foldl (fun m pair => m.set pair.1 pair.2) ∅

/-! ### Reads after updates -/

@[simp] theorem get_empty (k : K) : (∅ : GoMap K V).get k = none := rfl

theorem get_set (m : GoMap K V) (k : K) (v : V) (other : K) :
    (m.set k v).get other = if other = k then some v else m.get other := by
  unfold get set
  split_ifs with same
  · subst same
    exact Finmap.lookup_insert m
  · exact Finmap.lookup_insert_of_ne m same

@[simp] theorem get_set_self (m : GoMap K V) (k : K) (v : V) : (m.set k v).get k = some v := by
  rw [get_set, if_pos rfl]

theorem get_set_ne (m : GoMap K V) {k other : K} (v : V) (different : other ≠ k) :
    (m.set k v).get other = m.get other := by
  rw [get_set, if_neg different]

theorem get_delete (m : GoMap K V) (k other : K) :
    (m.delete k).get other = if other = k then none else m.get other := by
  unfold get delete
  split_ifs with same
  · subst same
    exact Finmap.lookup_erase other m
  · exact Finmap.lookup_erase_ne same

@[simp] theorem get_delete_self (m : GoMap K V) (k : K) : (m.delete k).get k = none := by
  rw [get_delete, if_pos rfl]

theorem get_delete_ne (m : GoMap K V) {k other : K} (different : other ≠ k) :
    (m.delete k).get other = m.get other := by
  rw [get_delete, if_neg different]

theorem get_modify (m : GoMap K V) (k : K) (f : V → V) (other : K) :
    (m.modify k f).get other = if other = k then (m.get k).map f else m.get other := by
  unfold modify
  split
  next v found =>
    rw [get_set, found]
    rfl
  next absent =>
    split_ifs with same
    · rw [same, absent]
      rfl
    · rfl

@[simp] theorem get_modify_self (m : GoMap K V) (k : K) (f : V → V) :
    (m.modify k f).get k = (m.get k).map f := by
  rw [get_modify, if_pos rfl]

theorem get_modify_ne (m : GoMap K V) {k other : K} (f : V → V) (different : other ≠ k) :
    (m.modify k f).get other = m.get other := by
  rw [get_modify, if_neg different]

/-- What an update in place does not show. -/
theorem map_get_modify (m : GoMap K V) (k : K) {f : V → V} {g : V → W} {other : K}
    (keeps : other = k → ∀ v, g (f v) = g v) :
    ((m.modify k f).get other).map g = (m.get other).map g := by
  rw [get_modify]
  split_ifs with isIt
  · subst isIt
    cases m.get other with
    | none => rfl
    | some v => exact congrArg some (keeps rfl v)
  · rfl

/-- What a new value for a stored key does not show. -/
theorem map_get_set {m : GoMap K V} {k : K} {old new : V} {g : V → W} (stored : m.get k = some old)
    (keeps : g new = g old) (other : K) :
    ((m.set k new).get other).map g = (m.get other).map g := by
  rw [get_set]
  split_ifs with isIt
  · rw [isIt, stored]
    exact congrArg some keeps
  · rfl

/-- Two maps with the same reads are the same map. -/
theorem ext {left right : GoMap K V} (same : ∀ k, left.get k = right.get k) : left = right :=
  Finmap.ext_lookup same

theorem mem_keys {m : GoMap K V} {k : K} : k ∈ m.keys ↔ ∃ v, m.get k = some v :=
  Finmap.mem_keys.trans Finmap.mem_iff

theorem mem_entries {m : GoMap K V} {k : K} {v : V} : (k, v) ∈ m.entries ↔ m.get k = some v := by
  have found : Sigma.mk k v ∈ Finmap.entries m ↔ m.get k = some v :=
    (Finmap.lookup_eq_some_iff (s := m)).symm
  rw [← found]
  unfold entries
  rw [Multiset.mem_map]
  constructor
  · rintro ⟨entry, member, same⟩
    obtain ⟨rfl, rfl⟩ := Prod.mk.inj same
    exact member
  · intro member
    exact ⟨_, member, rfl⟩

theorem get_eq_none_of_not_mem {m : GoMap K V} {k : K} (absent : k ∉ m.keys) :
    m.get k = none := by
  cases stored : m.get k with
  | none => rfl
  | some v => exact absurd (mem_keys.mpr ⟨v, stored⟩) absent

theorem get_build (domain : Finset K) (f : K → Option V) (k : K) :
    (build domain f).get k = if k ∈ domain then f k else none := by
  unfold get build
  rw [Finmap.keysLookupEquiv_symm_apply_lookup]

@[simp] theorem get_map (f : V → W) (m : GoMap K V) (k : K) :
    (m.map f).get k = (m.get k).map f := by
  unfold map
  rw [get_build]
  split_ifs with member
  · rfl
  · rw [get_eq_none_of_not_mem member]
    rfl

theorem keys_map (f : V → W) (m : GoMap K V) : (m.map f).keys = m.keys := by
  ext k
  simp only [mem_keys, get_map, Option.map_eq_some_iff]
  constructor
  · rintro ⟨-, v, stored, -⟩
    exact ⟨v, stored⟩
  · rintro ⟨v, stored⟩
    exact ⟨f v, v, stored, rfl⟩

/-- A conversion of every value that another one undoes is undone. -/
theorem map_map_eq_self {m : GoMap K V} {f : V → W} {g : W → V}
    (undone : ∀ k v, m.get k = some v → g (f v) = v) : (m.map f).map g = m := by
  apply ext
  intro k
  rw [get_map, get_map]
  cases stored : m.get k with
  | none => rfl
  | some v => exact congrArg some (undone k v stored)

theorem get_orElse (m other : GoMap K V) (k : K) :
    (m.orElse other).get k = (m.get k).or (other.get k) := by
  unfold orElse
  rw [get_build]
  split_ifs with member
  · rfl
  · rw [Finset.mem_union, not_or] at member
    rw [get_eq_none_of_not_mem member.1, get_eq_none_of_not_mem member.2]
    rfl

/-! ### Entries after updates -/

omit [DecidableEq K] in
omit [DecidableEq K] in
theorem nodup_entries (m : GoMap K V) : (entries m).Nodup := by
  have nodup : (Finmap.entries m).Nodup := m.nodupKeys.nodup
  refine nodup.map ?_
  rintro ⟨k, v⟩ ⟨k', v'⟩ same
  cases same
  rfl

/-- No key has two entries. -/
theorem nodup_fst_entries (m : GoMap K V) : ((entries m).map Prod.fst).Nodup := by
  refine (nodup_entries m).map_on ?_
  rintro ⟨k, v⟩ stored ⟨k', v'⟩ stored' same
  cases same
  rw [mem_entries] at stored stored'
  rw [Option.some.inj (stored.symm.trans stored')]

/-- Mapping the values maps the entries. -/
theorem entries_map (f : V → W) (m : GoMap K V) :
    entries (map f m) = (entries m).map fun entry => (entry.1, f entry.2) := by
  have mapped : ((entries m).map fun entry => (entry.1, f entry.2)).Nodup := by
    refine (nodup_entries m).map_on ?_
    rintro ⟨k, v⟩ stored ⟨k', v'⟩ stored' same
    cases congrArg Prod.fst same
    rw [mem_entries] at stored stored'
    rw [Option.some.inj (stored.symm.trans stored')]
  refine ((nodup_entries (map f m)).ext mapped).mpr ?_
  rintro ⟨k, w⟩
  rw [mem_entries, get_map, Option.map_eq_some_iff, Multiset.mem_map]
  constructor
  · rintro ⟨v, stored, rfl⟩
    exact ⟨(k, v), mem_entries.mpr stored, rfl⟩
  · rintro ⟨⟨k', v⟩, stored, same⟩
    cases same
    exact ⟨v, mem_entries.mp stored, rfl⟩

/-- Assigning a fresh key adds one entry. -/
theorem entries_set_of_none {m : GoMap K V} {k : K} (absent : m.get k = none) (v : V) :
    (m.set k v).entries = (k, v) ::ₘ m.entries := by
  have notMember : k ∉ (show Finmap fun _ : K => V from m) := Finmap.lookup_eq_none.mp absent
  have grown : Finmap.entries (Finmap.insert k v m) = ⟨k, v⟩ ::ₘ Finmap.entries m :=
    Finmap.entries_insert_of_notMem notMember
  unfold entries set
  rw [grown, Multiset.map_cons]

theorem set_delete (m : GoMap K V) (k : K) (v : V) : (m.delete k).set k v = m.set k v := by
  apply ext
  intro other
  rw [get_set, get_set, get_delete]
  split_ifs <;> rfl

theorem set_get {m : GoMap K V} {k : K} {v : V} (stored : m.get k = some v) : m.set k v = m := by
  apply ext
  intro other
  rw [get_set]
  split_ifs with same
  · rw [same, stored]
  · rfl

/-- Deleting a present key removes one entry. -/
theorem entries_delete {m : GoMap K V} {k : K} {v : V} (stored : m.get k = some v) :
    m.entries = (k, v) ::ₘ (m.delete k).entries := by
  have absent : (m.delete k).get k = none := get_delete_self m k
  rw [← entries_set_of_none absent v, set_delete, set_get stored]

theorem delete_of_none {m : GoMap K V} {k : K} (absent : m.get k = none) : m.delete k = m := by
  apply ext
  intro other
  rw [get_delete]
  split_ifs with same
  · rw [same, absent]
  · rfl

/-- Replacing a present key swaps one entry. -/
theorem entries_set_of_some {m : GoMap K V} {k : K} {old : V} (stored : m.get k = some old)
    (new : V) : (k, old) ::ₘ (m.set k new).entries = (k, new) ::ₘ m.entries := by
  have absent : (m.delete k).get k = none := get_delete_self m k
  rw [← set_delete, entries_set_of_none absent, Multiset.cons_swap, ← entries_delete stored]

/-! ### Sums over the entries -/

/-- The sum of a weight over all entries. -/
def sum (m : GoMap K V) (weight : K → V → Nat) : Nat :=
  (m.entries.map fun entry => weight entry.1 entry.2).sum

omit [DecidableEq K] in
@[simp] theorem sum_empty (weight : K → V → Nat) : (∅ : GoMap K V).sum weight = 0 := rfl

theorem sum_set_of_none {m : GoMap K V} {k : K} (absent : m.get k = none) (v : V)
    (weight : K → V → Nat) : (m.set k v).sum weight = weight k v + m.sum weight := by
  unfold sum
  rw [entries_set_of_none absent, Multiset.map_cons, Multiset.sum_cons]

theorem sum_set_of_some {m : GoMap K V} {k : K} {old : V} (stored : m.get k = some old) (new : V)
    (weight : K → V → Nat) : weight k old + (m.set k new).sum weight =
      weight k new + m.sum weight := by
  have swapped := congrArg (fun all => (all.map fun entry => weight entry.1 entry.2).sum)
    (entries_set_of_some stored new)
  simp only [Multiset.map_cons, Multiset.sum_cons] at swapped
  exact swapped

theorem sum_delete {m : GoMap K V} {k : K} {v : V} (stored : m.get k = some v)
    (weight : K → V → Nat) : m.sum weight = weight k v + (m.delete k).sum weight := by
  unfold sum
  rw [entries_delete stored, Multiset.map_cons, Multiset.sum_cons]

/-- One entry weighs no more than all of them. -/
theorem weight_le_sum {m : GoMap K V} {k : K} {v : V} (stored : m.get k = some v)
    (weight : K → V → Nat) : weight k v ≤ m.sum weight := by
  rw [sum_delete stored]
  exact Nat.le_add_right _ _

theorem sum_eq_zero {m : GoMap K V} {weight : K → V → Nat}
    (zero : ∀ k v, m.get k = some v → weight k v = 0) : m.sum weight = 0 := by
  apply Multiset.sum_eq_zero
  intro value member
  obtain ⟨entry, entryMember, rfl⟩ := Multiset.mem_map.mp member
  exact zero entry.1 entry.2 (mem_entries.mp entryMember)

/-- The sum, key by key. -/
theorem sum_eq_sum_keys (m : GoMap K V) (weight : K → V → Nat) :
    m.sum weight = ∑ k ∈ m.keys, (m.get k).elim 0 (weight k) := by
  change _ = (((Finmap.entries m).map Sigma.fst).map fun k => (m.get k).elim 0 (weight k)).sum
  rw [sum, entries, Multiset.map_map, Multiset.map_map]
  refine congrArg Multiset.sum (Multiset.map_congr rfl fun entry member => ?_)
  have stored : m.get entry.1 = some entry.2 := Finmap.lookup_eq_some_iff.mpr member
  simp only [Function.comp_apply, stored, Option.elim_some]

/-- A map weighs no more than another that weighs as much at each of its keys. -/
theorem sum_le_sum {m m' : GoMap K V} {weight : K → V → Nat}
    (lighter : ∀ k v, m'.get k = some v → weight k v ≤ (m.get k).elim 0 (weight k)) :
    m'.sum weight ≤ m.sum weight := by
  rw [sum_eq_sum_keys, sum_eq_sum_keys]
  refine (Finset.sum_le_sum fun k member => ?_).trans
    (Finset.sum_le_sum_of_ne_zero fun k _ counts => ?_)
  · obtain ⟨v, stored⟩ := mem_keys.mp member
    rw [stored, Option.elim_some]
    exact lighter k v stored
  · rw [mem_keys]
    cases stored : m.get k with
    | none =>
        rw [stored] at counts
        exact absurd rfl counts
    | some v => exact ⟨v, rfl⟩

end GoMap
