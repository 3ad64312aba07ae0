import Fusey.GoLib.Fmt

/-!
Contract: the parts of Python's text handling that a server reads a header with,
on strings given as their lists of characters.

Owns `str.removeprefix`, `str.split` at the first occurrence of a character, and
`int` on strings of Latin-1 characters, as HTTP headers are, with the fact that
`int` reads back what `%d` writes.
-/

set_option autoImplicit false

namespace PyText

/-- `text.removeprefix(head)`. -/
def removeHead (head text : List Char) : List Char :=
  if head <+: text then text.drop head.length else text

/-- `text.split(c, 1)` as a pair; `none` is a single part. -/
def splitOnce (c : Char) (text : List Char) : Option (List Char × List Char) :=
  if c ∈ text then some (text.takeWhile (· ≠ c), (text.dropWhile (· ≠ c)).tail) else none

/-- A blank at the ends of what `int` reads. A text of ASCII characters is read by the
rule of C, and has fewer. -/
def isSpace (ascii : Bool) (c : Char) : Bool :=
  let point := c.toNat
  (0x09 ≤ point && point ≤ 0x0d) || point == 0x20 ||
    (!ascii && ((0x1c ≤ point && point ≤ 0x1f) || point == 0x85 || point == 0xa0))

/-- The text without the blanks at its ends. -/
def strip (text : List Char) : List Char :=
  let blank := isSpace (text.all (·.toNat < 0x80))
  ((text.dropWhile blank).reverse.dropWhile blank).reverse

/-- Digits, with single underscores between them. -/
def digits : List Char → Option (List Char)
  | [] => none
  | [c] => if c.isDigit then some [c] else none
  | c :: '_' :: rest => if c.isDigit then (digits rest).map (c :: ·) else none
  | c :: rest => if c.isDigit then (digits rest).map (c :: ·) else none

/-- `int(text)`; `none` is a `ValueError`. -/
def int (text : List Char) : Option Int :=
  match strip text with
  | '-' :: rest => (digits rest).map fun found => -(GoFmt.valueOf found : Int)
  | '+' :: rest => (digits rest).map fun found => (GoFmt.valueOf found : Int)
  | rest => (digits rest).map fun found => (GoFmt.valueOf found : Int)

/-! ### Reading back numbers -/

theorem digits_of_all {found : List Char} (nonempty : found ≠ [])
    (each : ∀ c ∈ found, c.isDigit = true) : digits found = some found := by
  induction found with
  | nil => exact absurd rfl nonempty
  | cons c rest inductionHypothesis =>
      have digit := each c List.mem_cons_self
      cases rest with
      | nil => simp [digits, digit]
      | cons d others =>
          have next := each d (List.mem_cons_of_mem _ List.mem_cons_self)
          have tail := inductionHypothesis (List.cons_ne_nil _ _)
            fun x member => each x (List.mem_cons_of_mem _ member)
          have notUnderscore : d ≠ '_' := by
            rintro rfl
            cases next
          unfold digits
          split
          next same => cases same
          next same => cases same
          next same =>
            cases same
            exact absurd rfl notUnderscore
          next same =>
            cases same
            rw [if_pos digit, tail]
            rfl

theorem not_isSpace_of_isDigit {c : Char} (digit : c.isDigit = true) (ascii : Bool) :
    isSpace ascii c = false := by
  have range : 48 ≤ c.toNat ∧ c.toNat ≤ 57 := by
    simp only [Char.isDigit, Bool.and_eq_true, decide_eq_true_eq] at digit
    exact digit
  unfold isSpace
  simp only [Bool.or_eq_false_iff, Bool.and_eq_false_iff, decide_eq_false_iff_not,
    beq_eq_false_iff_ne]
  refine ⟨⟨?_, ?_⟩, Or.inr ⟨⟨?_, ?_⟩, ?_⟩⟩ <;> omega

theorem strip_eq_self {text : List Char}
    (first : ∀ ascii, ∀ c ∈ text.head?, isSpace ascii c = false)
    (last : ∀ ascii, ∀ c ∈ text.getLast?, isSpace ascii c = false) : strip text = text := by
  have front : ∀ ascii, text.dropWhile (isSpace ascii) = text := by
    intro ascii
    cases text with
    | nil => rfl
    | cons c rest => exact List.dropWhile_cons_of_neg (by simp [first ascii c rfl])
  have back : ∀ ascii, text.reverse.dropWhile (isSpace ascii) = text.reverse := by
    intro ascii
    cases reversed : text.reverse with
    | nil => rfl
    | cons c rest =>
        refine List.dropWhile_cons_of_neg ?_
        have isLast : c ∈ text.getLast? := by
          rw [← List.head?_reverse, reversed]
          rfl
        simp [last ascii c isLast]
  rw [strip, front, back, List.reverse_reverse]

/-- `int` reads what `%d` has written. -/
theorem int_signedDecimal (n : Int) : int (GoFmt.signedDecimal n) = some n := by
  have digit : ∀ (k : Nat), ∀ c ∈ GoFmt.decimal k, c.isDigit = true :=
    fun k c => GoFmt.isDigit_of_mem_decimal
  have last : ∀ (k : Nat) (ascii : Bool), ∀ c ∈ (GoFmt.decimal k).getLast?,
      isSpace ascii c = false :=
    fun k ascii c member => not_isSpace_of_isDigit (digit k c (List.mem_of_getLast? member)) ascii
  cases n with
  | ofNat k =>
      have first : ∀ ascii, ∀ c ∈ (GoFmt.decimal k).head?, isSpace ascii c = false :=
        fun ascii c member => not_isSpace_of_isDigit (digit k c (List.mem_of_head? member)) ascii
      simp only [GoFmt.signedDecimal, int]
      rw [strip_eq_self first (last k)]
      split
      next rest same =>
        have := digit k '-' (by rw [same]; exact List.mem_cons_self)
        cases this
      next rest same =>
        have := digit k '+' (by rw [same]; exact List.mem_cons_self)
        cases this
      next =>
        rw [digits_of_all (GoFmt.decimal_ne_nil k) (digit k), Option.map_some,
          GoFmt.valueOf_decimal]
        rfl
  | negSucc k =>
      have stripped : strip ('-' :: GoFmt.decimal (k + 1)) = '-' :: GoFmt.decimal (k + 1) := by
        refine strip_eq_self (fun ascii c member => ?_) fun ascii c member => ?_
        · cases member
          cases ascii <;> decide
        · rw [List.getLast?_cons_of_ne_nil (GoFmt.decimal_ne_nil _)] at member
          exact last _ ascii c member
      simp only [GoFmt.signedDecimal, int]
      rw [stripped]
      simp only [digits_of_all (GoFmt.decimal_ne_nil (k + 1)) (digit _), Option.map_some,
        GoFmt.valueOf_decimal]
      rfl

/-- The parts around the first occurrence of a character. -/
theorem splitOnce_append {c : Char} {front : List Char} (rest : List Char) (absent : c ∉ front) :
    splitOnce c (front ++ c :: rest) = some (front, rest) := by
  have all : ∀ x ∈ front, decide (x ≠ c) = true := by
    intro x member
    exact decide_eq_true fun same => absent (same ▸ member)
  rw [splitOnce, if_pos (List.mem_append_right _ List.mem_cons_self),
    List.takeWhile_append_of_pos all, List.dropWhile_append_of_pos all,
    List.takeWhile_cons_of_neg (by simp), List.dropWhile_cons_of_neg (by simp), List.append_nil,
    List.tail_cons]

theorem removeHead_append (head text : List Char) : removeHead head (head ++ text) = text := by
  rw [removeHead, if_pos (List.prefix_append head text), List.drop_left]

end PyText
