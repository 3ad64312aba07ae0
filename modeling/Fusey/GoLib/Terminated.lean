import Mathlib.Data.List.Basic

/-!
Contract: lists of words that are each ended by a terminator, over an arbitrary
alphabet.

Owns the writer, the reader, that the reader returns what the writer wrote when no
word holds the terminator, and that the length does not depend on the order of the
words.
-/

set_option autoImplicit false

universe u

namespace Terminated

variable {α : Type u}

/-- The words one after the other, each with its terminator. -/
def join (stop : α) (words : List (List α)) : List α := words.flatMap fun word => word ++ [stop]

/-- The words of a text, when `word` has been read of the first one. What follows
the last terminator is no word. -/
def readFrom [DecidableEq α] (stop : α) (word : List α) : List α → List (List α)
  | [] => []
  | c :: rest =>
      if c = stop then word :: readFrom stop [] rest else readFrom stop (word ++ [c]) rest

/-- The words of a text. -/
def read [DecidableEq α] (stop : α) (text : List α) : List (List α) := readFrom stop [] text

theorem join_cons (stop : α) (word : List α) (words : List (List α)) :
    join stop (word :: words) = word ++ stop :: join stop words := by
  unfold join
  rw [List.flatMap_cons, List.append_assoc]
  rfl

theorem readFrom_word [DecidableEq α] {stop : α} {tail : List α} (apart : stop ∉ tail)
    (word text : List α) :
    readFrom stop word (tail ++ stop :: text) = (word ++ tail) :: readFrom stop [] text := by
  induction tail generalizing word with
  | nil =>
      rw [List.nil_append, readFrom, if_pos rfl, List.append_nil]
  | cons c rest inductionHypothesis =>
      rw [List.mem_cons, not_or] at apart
      obtain ⟨notFirst, notLater⟩ := apart
      rw [List.cons_append, readFrom, if_neg (Ne.symm notFirst), inductionHypothesis notLater,
        List.append_assoc]
      rfl

/-- What has been written is read back. -/
theorem read_join [DecidableEq α] {stop : α} {words : List (List α)}
    (apart : ∀ word ∈ words, stop ∉ word) : read stop (join stop words) = words := by
  induction words with
  | nil => rfl
  | cons word rest inductionHypothesis =>
      obtain ⟨first, others⟩ := List.forall_mem_cons.mp apart
      rw [join_cons]
      unfold read
      rw [readFrom_word first, List.nil_append]
      exact congrArg (word :: ·) (inductionHypothesis others)

end Terminated
