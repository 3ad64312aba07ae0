import Mathlib.Algebra.Order.Ring.Int
import Mathlib.Data.List.Induction
import Mathlib.Data.List.TakeWhile
import Mathlib.Tactic.NormNum.Basic

/-!
Contract: the parts of Go's text handling that a program reads numbers and
names with: decimal formatting and scanning of `fmt` and the parsers of
`strconv`, on strings given as their lists of characters, and, on bytes,
`utf8.Valid` and what `encoding/json` makes of a string.

Owns `%d`, signed or not, and zero-padded `%0wd` output, the blanks a scan skips,
the integer scans `%d` into `uint32` and `%wd` into `int`, `ParseInt` in base ten,
`ParseBool`, UTF-8 validity, and the coercion of a text to UTF-8. A scan reads a
prefix of its input: what follows the digits is ignored, as `Sscanf` ignores it. A
parser reads all of it.
-/

set_option autoImplicit false

namespace GoFmt

/-- `fmt.Sprintf("%d", n)`. -/
def decimal (n : Nat) : List Char := Nat.toDigits 10 n

/-- `fmt.Sprintf("%d", n)` of a signed integer. -/
def signedDecimal : Int → List Char
  | .ofNat n => decimal n
  | .negSucc n => '-' :: decimal (n + 1)

/-- `fmt.Sprintf("%0wd", n)`: padding stops once the number is `w` digits wide. -/
def padded (width n : Nat) : List Char :=
  List.replicate (width - (decimal n).length) '0' ++ decimal n

/-- The value of a string of decimal digits. -/
def valueOf (digits : List Char) : Nat := Nat.ofDigitChars 10 digits 0

/-- The code points that `fmt` scanning treats as blanks. -/
def isSpace (c : Char) : Bool :=
  let point := c.toNat
  (0x0009 ≤ point && point ≤ 0x000d) || point == 0x0020 || point == 0x0085 || point == 0x00a0 ||
    point == 0x1680 || (0x2000 ≤ point && point ≤ 0x200a) ||
    (0x2028 ≤ point && point ≤ 0x2029) || point == 0x202f || point == 0x205f || point == 0x3000

/-- Skip leading blanks. A newline among them is the error "unexpected
newline", here `none`. -/
def skipSpace : List Char → Option (List Char)
  | [] => some []
  | c :: rest => if c = '\n' then none else if isSpace c then skipSpace rest else some (c :: rest)

/-- `fmt.Sscanf(s, "%d", &seq)` into a `uint32`: no digit, or a value past
`uint32`, is an error. -/
def scanUint32 (input : List Char) : Option Nat :=
  match skipSpace input with
  | none => none
  | some rest =>
      let digits := rest.takeWhile Char.isDigit
      if digits = [] then none
      else if valueOf digits < 4294967296 then some (valueOf digits) else none

/-- `%wd` into an `int`: an optional sign and digits, `width` characters of
input in all. -/
def scanInt (width : Nat) (input : List Char) : Option Int :=
  match skipSpace input with
  | none => none
  | some rest =>
      match rest.take width with
      | '-' :: field =>
          let digits := field.takeWhile Char.isDigit
          if digits = [] then none else some (-(valueOf digits : Int))
      | '+' :: field =>
          let digits := field.takeWhile Char.isDigit
          if digits = [] then none else some (valueOf digits : Int)
      | field =>
          let digits := field.takeWhile Char.isDigit
          if digits = [] then none else some (valueOf digits : Int)

/-! ### Formatted numbers -/

theorem isDigit_of_mem_decimal {n : Nat} {c : Char} (member : c ∈ decimal n) :
    c.isDigit = true :=
  Nat.isDigit_of_mem_toDigits (by decide) (by decide) member

theorem isDigit_of_mem_padded {width n : Nat} {c : Char} (member : c ∈ padded width n) :
    c.isDigit = true := by
  rcases List.mem_append.mp member with zero | digit
  · rw [List.eq_of_mem_replicate zero]
    decide
  · exact isDigit_of_mem_decimal digit

theorem decimal_ne_nil (n : Nat) : decimal n ≠ [] := by
  simp [decimal]

theorem padded_ne_nil (width n : Nat) : padded width n ≠ [] := by
  simp [padded, decimal]

@[simp] theorem valueOf_decimal (n : Nat) : valueOf (decimal n) = n :=
  Nat.ofDigitChars_ten_toDigits

@[simp] theorem valueOf_padded (width n : Nat) : valueOf (padded width n) = n := by
  unfold valueOf padded
  rw [Nat.ofDigitChars_append, Nat.ofDigitChars_replicate_zero, Nat.mul_zero]
  exact Nat.ofDigitChars_ten_toDigits

theorem decimal_injective : Function.Injective decimal := by
  intro left right same
  rw [← valueOf_decimal left, same, valueOf_decimal]

theorem padded_injective (width : Nat) : Function.Injective (padded width) := by
  intro left right same
  rw [← valueOf_padded width left, same, valueOf_padded]

/-- A number that fits the width is printed at exactly that width. -/
theorem length_padded {width n : Nat} (positive : 0 < width) (fits : n < 10 ^ width) :
    (padded width n).length = width := by
  have short : (decimal n).length ≤ width :=
    (Nat.length_toDigits_le_iff (by decide) positive).mpr fits
  simp only [padded, List.length_append, List.length_replicate]
  omega

/-! ### Scanning what was formatted -/

/-- A digit is neither a blank nor a newline nor a sign. -/
theorem skipSpace_of_digit {c : Char} (digit : c.isDigit = true) (rest : List Char) :
    skipSpace (c :: rest) = some (c :: rest) := by
  have range : 48 ≤ c.toNat ∧ c.toNat ≤ 57 := by
    simp only [Char.isDigit, ge_iff_le, Bool.and_eq_true, decide_eq_true_eq] at digit
    exact ⟨UInt32.le_iff_toNat_le.mp digit.1, UInt32.le_iff_toNat_le.mp digit.2⟩
  have notNewline : c ≠ '\n' := by
    rintro rfl
    exact absurd digit (by decide)
  have notBlank : isSpace c = false := by
    simp only [isSpace, Bool.or_eq_false_iff, Bool.and_eq_false_iff, decide_eq_false_iff_not,
      beq_eq_false_iff_ne]
    omega
  simp [skipSpace, notNewline, notBlank]

theorem skipSpace_of_digits {digits : List Char} (nonempty : digits ≠ [])
    (all : ∀ c ∈ digits, c.isDigit = true) : skipSpace digits = some digits := by
  cases digits with
  | nil => exact absurd rfl nonempty
  | cons head tail => exact skipSpace_of_digit (all head (by simp)) tail

/-- Scanning a padded number gives it back while it fits a `uint32`. -/
theorem scanUint32_padded (width n : Nat) :
    scanUint32 (padded width n) = if n < 4294967296 then some n else none := by
  have digits : (padded width n).takeWhile Char.isDigit = padded width n :=
    List.takeWhile_eq_self_iff.mpr fun _ member => isDigit_of_mem_padded member
  unfold scanUint32
  rw [skipSpace_of_digits (padded_ne_nil width n) fun _ => isDigit_of_mem_padded]
  simp only [digits, if_neg (padded_ne_nil width n), valueOf_padded]

/-- A field of digits at least `width` long reads as its first `width` digits. -/
theorem scanInt_of_digits {width : Nat} {digits : List Char} (positive : 0 < width)
    (nonempty : digits ≠ []) (all : ∀ c ∈ digits, c.isDigit = true) :
    scanInt width digits = some (valueOf (digits.take width) : Int) := by
  have field : (digits.take width).takeWhile Char.isDigit = digits.take width :=
    List.takeWhile_eq_self_iff.mpr fun c member => all c (List.mem_of_mem_take member)
  unfold scanInt
  rw [skipSpace_of_digits nonempty all]
  obtain ⟨head, tail, split⟩ : ∃ head tail, digits.take width = head :: tail := by
    cases digits with
    | nil => exact absurd rfl nonempty
    | cons head tail =>
        cases width with
        | zero => exact absurd positive (by decide)
        | succ width => exact ⟨head, tail.take width, rfl⟩
  have digit : head.isDigit = true :=
    all head (List.mem_of_mem_take (i := width) (by rw [split]; simp))
  rw [split] at field
  simp only [split]
  -- The field starts with a digit, so neither sign branch is taken.
  split
  next same => exact absurd digit (by rw [(List.cons.inj same).1]; decide)
  next same => exact absurd digit (by rw [(List.cons.inj same).1]; decide)
  next => rw [field, if_neg (List.cons_ne_nil _ _)]

/-- A number of at most `width` digits scans back exactly. -/
theorem scanInt_padded {width n : Nat} (positive : 0 < width) (fits : n < 10 ^ width) :
    scanInt width (padded width n) = some (n : Int) := by
  rw [scanInt_of_digits positive (padded_ne_nil width n) fun _ => isDigit_of_mem_padded,
    List.take_of_length_le (length_padded positive fits).le, valueOf_padded]

theorem valueOf_lt {digits : List Char} (all : ∀ c ∈ digits, c.isDigit = true) :
    valueOf digits < 10 ^ digits.length := by
  induction digits using List.reverseRecOn with
  | nil => decide
  | append_singleton front last inductionHypothesis =>
      have digit : last.toNat - '0'.toNat ≤ 9 := by
        have isDigit := all last (by simp)
        simp only [Char.isDigit, ge_iff_le, Bool.and_eq_true, decide_eq_true_eq] at isDigit
        have high : last.toNat ≤ 57 := UInt32.le_iff_toNat_le.mp isDigit.2
        have zero : '0'.toNat = 48 := rfl
        omega
      have before := inductionHypothesis fun c member => all c (by simp [member])
      have split : valueOf (front ++ [last]) = 10 * valueOf front + (last.toNat - '0'.toNat) := by
        rw [valueOf, Nat.ofDigitChars_append]
        rfl
      rw [split, List.length_append, List.length_singleton, Nat.pow_succ]
      omega

/-- A scan of `width` characters stays below `10 ^ width`. -/
theorem scanInt_lt {width : Nat} {input : List Char} {value : Int}
    (scanned : scanInt width input = some value) : value < 10 ^ width := by
  have bound : ∀ field : List Char, field.length ≤ width →
      (valueOf (field.takeWhile Char.isDigit) : Int) < 10 ^ width := by
    intro field short
    have digits : ∀ c ∈ field.takeWhile Char.isDigit, c.isDigit = true := fun c member =>
      List.mem_takeWhile_imp member
    have length : (field.takeWhile Char.isDigit).length ≤ width :=
      (List.takeWhile_prefix _).length_le.trans short
    have below := (valueOf_lt digits).trans_le (Nat.pow_le_pow_right (by decide) length)
    exact_mod_cast below
  have short : ∀ (rest : List Char) (head : Char) (tail : List Char),
      rest.take width = head :: tail → tail.length ≤ width := by
    intro rest head tail same
    have length : (rest.take width).length ≤ width := List.length_take_le _ _
    rw [same, List.length_cons] at length
    omega
  unfold scanInt at scanned
  split at scanned
  next => cases scanned
  next rest _ =>
    split at scanned
    next field same =>
      dsimp only at scanned
      split_ifs at scanned
      cases scanned
      have positive : (0 : Int) < 10 ^ width := Int.pow_pos (by decide)
      omega
    next field same =>
      dsimp only at scanned
      split_ifs at scanned
      cases scanned
      exact bound field (short rest '+' field same)
    next =>
      dsimp only at scanned
      split_ifs at scanned
      cases scanned
      exact bound _ (List.length_take_le _ _)

/-! ### strconv -/

/-- `ErrSyntax` and `ErrRange`. -/
inductive NumReason where
  | badSyntax
  | outOfRange
deriving DecidableEq, Repr

/-- `NumError`: the function, its input and the reason. -/
structure NumError where
  func : String
  num : List Char
  err : NumReason
deriving DecidableEq, Repr

/-- The loop of `ParseUint` in base ten: it stops at the first character that is
no digit, or at the first digit that takes the value past `maxVal`. -/
def parseDigits (maxVal : Nat) : Nat → List Char → Except NumReason Nat
  | n, [] => .ok n
  | n, c :: rest =>
      if c.isDigit then
        let next := n * 10 + (c.toNat - '0'.toNat)
        if next > maxVal then .error .outOfRange else parseDigits maxVal next rest
      else .error .badSyntax

/-- The magnitude of a number of `bits` bits after its sign. -/
def parseMagnitude (bits : Nat) (negative : Bool) (digits : List Char) : Except NumReason Int :=
  if digits = [] then .error .badSyntax
  else
    match parseDigits (2 ^ bits - 1) 0 digits with
    | .error reason => .error reason
    | .ok n =>
        if negative then if n > 2 ^ (bits - 1) then .error .outOfRange else .ok (-(n : Int))
        else if n ≥ 2 ^ (bits - 1) then .error .outOfRange else .ok n

/-- `strconv.ParseInt(text, 10, bits)`. -/
def parseInt (bits : Nat) (text : List Char) : Except NumError Int :=
  let parsed :=
    match text with
    | '+' :: digits => parseMagnitude bits false digits
    | '-' :: digits => parseMagnitude bits true digits
    | digits => parseMagnitude bits false digits
  parsed.mapError fun reason => ⟨"ParseInt", text, reason⟩

/-- `strconv.ParseBool`. -/
def parseBool (text : List Char) : Except NumError Bool :=
  if text ∈ ["1", "t", "T", "true", "TRUE", "True"].map String.toList then .ok true
  else if text ∈ ["0", "f", "F", "false", "FALSE", "False"].map String.toList then .ok false
  else .error ⟨"ParseBool", text, .badSyntax⟩

theorem parseMagnitude_range {bits : Nat} {negative : Bool} {digits : List Char} {n : Int}
    (parsed : parseMagnitude bits negative digits = .ok n) :
    -2 ^ (bits - 1) ≤ n ∧ n < 2 ^ (bits - 1) := by
  have positive : (0 : Int) < 2 ^ (bits - 1) := Int.pow_pos (by decide)
  have cast : ((2 ^ (bits - 1) : Nat) : Int) = 2 ^ (bits - 1) := by
    push_cast
    rfl
  unfold parseMagnitude at parsed
  by_cases empty : digits = []
  · rw [if_pos empty] at parsed
    cases parsed
  · rw [if_neg empty] at parsed
    split at parsed
    next => cases parsed
    next => split_ifs at parsed <;> cases parsed <;> omega

/-- `ParseInt` returns numbers of the given width only. -/
theorem parseInt_range {bits : Nat} {text : List Char} {n : Int}
    (parsed : parseInt bits text = .ok n) : -2 ^ (bits - 1) ≤ n ∧ n < 2 ^ (bits - 1) := by
  have inner : ∀ {result : Except NumReason Int} {f : NumReason → NumError},
      result.mapError f = .ok n → result = .ok n := by
    intro result f same
    cases result with
    | error reason => cases same
    | ok value =>
        cases same
        rfl
  unfold parseInt at parsed
  have magnitude := inner parsed
  split at magnitude <;> exact parseMagnitude_range magnitude

/-! ### UTF-8 -/

/-- A continuation byte. -/
def isContinuation (b : UInt8) : Bool := 0x80 ≤ b && b ≤ 0xbf

/-- `utf8.Valid`: no overlong form, no surrogate, nothing past U+10FFFF. -/
def validUTF8 : List UInt8 → Bool
  | [] => true
  | a :: rest =>
      if a < 0x80 then validUTF8 rest
      else
        match rest with
        | [] => false
        | b :: rest₂ =>
            if 0xc2 ≤ a && a ≤ 0xdf then isContinuation b && validUTF8 rest₂
            else
              match rest₂ with
              | [] => false
              | c :: rest₃ =>
                  if 0xe0 ≤ a && a ≤ 0xef then
                    (if a = 0xe0 then 0xa0 else 0x80) ≤ b &&
                      b ≤ (if a = 0xed then 0x9f else 0xbf) &&
                      isContinuation c && validUTF8 rest₃
                  else
                    match rest₃ with
                    | [] => false
                    | d :: rest₄ =>
                        0xf0 ≤ a && a ≤ 0xf4 && (if a = 0xf0 then 0x90 else 0x80) ≤ b &&
                          b ≤ (if a = 0xf4 then 0x8f else 0xbf) && isContinuation c &&
                          isContinuation d && validUTF8 rest₄

/-- `utf8.DecodeRune`, as the number of bytes of the rune that a text begins with; 0 if
the text is empty or begins with no encoding of a rune. -/
def runeSize : List UInt8 → Nat
  | [] => 0
  | a :: rest =>
      if a < 0x80 then 1
      else
        match rest with
        | [] => 0
        | b :: rest₂ =>
            if 0xc2 ≤ a && a ≤ 0xdf then if isContinuation b then 2 else 0
            else
              match rest₂ with
              | [] => 0
              | c :: rest₃ =>
                  if 0xe0 ≤ a && a ≤ 0xef then
                    if (if a = 0xe0 then 0xa0 else 0x80) ≤ b &&
                        b ≤ (if a = 0xed then 0x9f else 0xbf) && isContinuation c then 3
                    else 0
                  else
                    match rest₃ with
                    | [] => 0
                    | d :: _ =>
                        if 0xf0 ≤ a && a ≤ 0xf4 && (if a = 0xf0 then 0x90 else 0x80) ≤ b &&
                            b ≤ (if a = 0xf4 then 0x8f else 0xbf) && isContinuation c &&
                            isContinuation d then 4
                        else 0

/-- A text in which each byte that belongs to no rune is replaced by U+FFFD, where the
first `inRune` bytes are the rest of a rune that has been read. -/
def coerceFrom : Nat → List UInt8 → List UInt8
  | _, [] => []
  | inRune + 1, a :: rest => a :: coerceFrom inRune rest
  | 0, a :: rest =>
      match runeSize (a :: rest) with
      | 0 => [0xef, 0xbf, 0xbd] ++ coerceFrom 0 rest
      | inRune + 1 => a :: coerceFrom inRune rest

/-- What a string is after `json.Marshal` and `json.Unmarshal`. -/
def coerceUTF8 (text : List UInt8) : List UInt8 := coerceFrom 0 text

theorem coerceFrom_of_runeSize {a : UInt8} {rest : List UInt8} {inRune : Nat}
    (size : runeSize (a :: rest) = inRune + 1) :
    coerceFrom 0 (a :: rest) = a :: coerceFrom inRune rest := by
  simp only [coerceFrom, size]

/-- Nothing is replaced in a valid text. -/
theorem coerceUTF8_of_validUTF8 (text : List UInt8) (valid : validUTF8 text = true) :
    coerceUTF8 text = text := by
  unfold coerceUTF8
  fun_induction validUTF8 text with
  | case1 => rfl
  | case2 a rest ascii inductionHypothesis =>
      have size : runeSize (a :: rest) = 1 := by simp only [runeSize, if_pos ascii]
      rw [coerceFrom_of_runeSize size, inductionHypothesis valid]
  | case4 a long b rest two inductionHypothesis =>
      obtain ⟨second, valid⟩ := Bool.and_eq_true_iff.mp valid
      have size : runeSize (a :: b :: rest) = 2 := by
        simp only [runeSize, if_neg long, if_pos two, if_pos second]
      rw [coerceFrom_of_runeSize size, coerceFrom, inductionHypothesis valid]
  | case6 a long b notTwo c rest three inductionHypothesis =>
      obtain ⟨others, valid⟩ := Bool.and_eq_true_iff.mp valid
      have size : runeSize (a :: b :: c :: rest) = 3 := by
        simp only [runeSize, if_neg long, if_neg notTwo, if_pos three, if_pos others]
      rw [coerceFrom_of_runeSize size, coerceFrom, coerceFrom, inductionHypothesis valid]
  | case8 a long b notTwo c notThree d rest inductionHypothesis =>
      obtain ⟨others, valid⟩ := Bool.and_eq_true_iff.mp valid
      have size : runeSize (a :: b :: c :: d :: rest) = 4 := by
        simp only [runeSize, if_neg long, if_neg notTwo, if_neg notThree, if_pos others]
      rw [coerceFrom_of_runeSize size, coerceFrom, coerceFrom, coerceFrom,
        inductionHypothesis valid]
  | case3 | case5 | case7 => cases valid

example : coerceUTF8 [0x2f, 0x6d, 0xff] = [0x2f, 0x6d, 0xef, 0xbf, 0xbd] := by decide

end GoFmt
