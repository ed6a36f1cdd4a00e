import Mathlib.Algebra.Group.Nat.Defs
import Mathlib.Data.List.Basic
import Mathlib.Tactic.Common

/-!
# Formatted input

`sscanf` as the C standard has it: a format is a list of directives, each of which takes a prefix of
what is left of the text, and the first one that fails ends the scan. Numbers are converted as
`strtoul` does it. The lemmas say what a directive makes of text that was printed for it.
-/

namespace Scanf

/-! ### Digits -/

def isSpace (c : Char) : Bool := c = ' ' ∨ c = '\t' ∨ c = '\n' ∨ c = '\x0b' ∨ c = '\x0c' ∨ c = '\r'

/-- The value of a character as a digit, of any base up to 16. -/
def digitValue (c : Char) : Nat :=
  if '0' ≤ c ∧ c ≤ '9' then c.toNat - 48
  else if 'a' ≤ c ∧ c ≤ 'f' then c.toNat - 87
  else if 'A' ≤ c ∧ c ≤ 'F' then c.toNat - 55
  else 16

def isDigit (base : Nat) (c : Char) : Bool := digitValue c < base

/-- The number that digits stand for. -/
def ofDigits (base : Nat) (digits : List Char) :
    Nat := digits.foldl (fun n c => base * n + digitValue c) 0

theorem digitValue_digitChar {n : Nat} (h : n < 16) : digitValue n.digitChar = n := by
  have hall : ∀ m ∈ List.range 16, digitValue m.digitChar = m := by decide
  exact hall n (List.mem_range.mpr h)

section Print

variable {base : Nat} (hbase : 1 < base) (hle : base ≤ 16)
include hbase hle

theorem ofDigits_toDigits (n : Nat) : ofDigits base (Nat.toDigits base n) = n := by
  induction n using Nat.strongRecOn with
  | ind n ih =>
    rw [Nat.toDigits_eq_if hbase]
    split
    case isTrue hlt =>
      rw [ofDigits, List.foldl_cons, List.foldl_nil, digitValue_digitChar (by omega), Nat.mul_zero,
        Nat.zero_add]
    case isFalse hge =>
      have hmod := Nat.mod_lt n (Nat.lt_trans Nat.zero_lt_one hbase)
      rw [ofDigits, List.foldl_append, List.foldl_cons, List.foldl_nil, ← ofDigits,
        ih (n / base) (Nat.div_lt_self (by omega) hbase),
        digitValue_digitChar (by omega), Nat.div_add_mod]

theorem isDigit_toDigits {n : Nat} {c : Char} (hc : c ∈ Nat.toDigits base n) :
    isDigit base c = true := by
  induction n using Nat.strongRecOn with
  | ind n ih =>
    have hdigit : ∀ m, m < base → isDigit base m.digitChar = true := fun m hm => by
      rw [isDigit, digitValue_digitChar (by omega), decide_eq_true_iff]
      exact hm
    rw [Nat.toDigits_eq_if hbase] at hc
    split at hc
    case isTrue hlt =>
      rw [List.mem_singleton.mp hc]
      exact hdigit n hlt
    case isFalse hge =>
      rcases List.mem_append.mp hc with hc | hc
      · exact ih (n / base) (Nat.div_lt_self (by omega) hbase) hc
      · rw [List.mem_singleton.mp hc]
        exact hdigit _ (Nat.mod_lt n (by omega))

end Print

/-- A number with at least `width` digits, as `%0*x` and `%0*u` print it. -/
def padded (base width n : Nat) : List Char := List.leftpad width '0' (Nat.toDigits base n)

theorem padded_ne_nil (base width n : Nat) : padded base width n ≠ [] := by
  rw [padded, List.leftpad]
  exact List.append_ne_nil_of_right_ne_nil _ Nat.toDigits_ne_nil

theorem isDigit_padded {base : Nat} (hbase : 1 < base) (hle : base ≤ 16) {width n : Nat} {c : Char}
    (hc : c ∈ padded base width n) :
    isDigit base c = true := by
  rcases List.mem_append.mp hc with hc | hc
  · rw [List.eq_of_mem_replicate hc, isDigit, decide_eq_true_iff]
    exact Nat.lt_trans Nat.zero_lt_one hbase
  · exact isDigit_toDigits hbase hle hc

theorem ofDigits_padded {base : Nat} (hbase : 1 < base) (hle : base ≤ 16) (width n : Nat) :
    ofDigits base (padded base width n) = n := by
  have hzeros : ∀ k, ofDigits base (List.replicate k '0') = 0 := by
    intro k
    induction k with
    | zero => rfl
    | succ k ih =>
      rw [List.replicate_succ', ofDigits, List.foldl_append, ← ofDigits, ih]
      rfl
  rw [padded, List.leftpad, ofDigits, List.foldl_append, ← ofDigits, hzeros, ← ofDigits,
    ofDigits_toDigits hbase hle]

/-! ### Directives -/

inductive Directive where
  /-- White space in a format, which stands for any amount of it. -/
  | space
  | literal (c : Char)
  /-- `%x` and `%u`, for a variable of so many bits. -/
  | number (base bits : Nat)
  /-- `%c` with a width. -/
  | chars (n : Nat)
  /-- `%n`. -/
  | position
deriving DecidableEq, Repr

/-- What is stored for a directive; the text that is left stands for a position. -/
inductive Value where
  | number (n : Nat)
  | chars (text : List Char)
  | position (rest : List Char)
deriving DecidableEq, Repr

/-- The number that `strtoul` makes of a number, and what of it fits into the variable. -/
def convert (bits : Nat) (negative : Bool) (n : Nat) : Nat :=
  (if 2 ^ 64 ≤ n then 2 ^ 64 - 1 else if negative then (2 ^ 64 - n) % 2 ^ 64 else n) % 2 ^ bits

theorem convert_eq {bits n : Nat} (hbits : bits ≤ 64) (h : n < 2 ^ bits) :
    convert bits false n = n := by
  have hlt : n < 2 ^ 64 := Nat.lt_of_lt_of_le h (Nat.pow_le_pow_right (by decide) hbits)
  rw [convert, if_neg (Nat.not_le.mpr hlt), if_neg Bool.false_ne_true, Nat.mod_eq_of_lt h]

/-- A sign, and whether it is a minus. -/
def takeSign : List Char → Bool × List Char
  | '-' :: rest => (true, rest)
  | '+' :: rest => (false, rest)
  | input => (false, input)

/-- The `0x` that a hexadecimal number may start with. -/
def dropHexMark (base : Nat) : List Char → List Char
  | '0' :: x :: rest => if base = 16 ∧ (x = 'x' ∨ x = 'X') then rest else '0' :: x :: rest
  | input => input

def readNumber (base bits : Nat) (input : List Char) : Option (Nat × List Char) :=
  let (negative, input) := takeSign (input.dropWhile isSpace)
  let input := dropHexMark base input
  let digits := input.takeWhile (isDigit base)
  if digits = [] then none else some (convert bits negative (ofDigits base digits),
    input.dropWhile (isDigit base))

/-- What a directive stores and leaves of the text, if it does not fail. -/
def step : Directive → List Char → Option (Option Value × List Char)
  | .space, input => some (none, input.dropWhile isSpace)
  | .literal c, input =>
    match input with
    | [] => none
    | d :: rest => if c = d then some (none, rest) else none
  | .number base bits, input =>
    (readNumber base bits input).map fun (n, rest) => (some (.number n), rest)
  | .chars n, input =>
    if input = [] then none else some (some (.chars (input.take n)), input.drop n)
  | .position, input => some (some (.position input), input)

/-- The values that are stored before a directive fails. -/
def scan : List Directive → List Char → List Value
  | [], _ => []
  | directive :: format, input =>
    match step directive input with
    | none => []
    | some (value, rest) => value.toList ++ scan format rest

/-- What `sscanf` returns: a position does not count. -/
def matched (values : List Value) : Nat := values.countP fun value => match value with
  | .position _ => false
  | _ => true

/-- The text ends at its first null character. -/
def sscanf (format : List Directive) (text : List Char) : List Value :=
  scan format (text.takeWhile (· ≠ '\x00'))

theorem scan_of_step {directive : Directive} {input rest : List Char} {value : Option Value}
    (h : step directive input = some (value, rest)) (format : List Directive) :
    scan (directive :: format) input = value.toList ++ scan format rest := by
  rw [scan, h]

theorem scan_literal (c : Char) (rest : List Char) (format : List Directive) :
    scan (.literal c :: format) (c :: rest) = scan format rest := by
  have hstep : step (.literal c) (c :: rest) = some (none, rest) := if_pos rfl
  exact scan_of_step hstep format

theorem scan_space {rest : List Char} (hrest : rest.dropWhile isSpace = rest)
    (format : List Directive) :
    scan (.space :: format) (' ' :: rest) = scan format rest := by
  have hskip : (' ' :: rest).dropWhile isSpace = rest :=
    (List.dropWhile_cons_of_pos (by decide)).trans hrest
  exact scan_of_step (by rw [step, hskip]) format

theorem scan_chars {text : List Char} (htext : text ≠ []) (rest : List Char)
    (format : List Directive) :
    scan (.chars text.length :: format) (text ++ rest) = .chars text :: scan format rest := by
  have hstep : step (.chars text.length) (text ++ rest) = some (some (.chars text), rest) := by
    rw [step, if_neg (List.append_ne_nil_of_left_ne_nil htext _), List.take_left, List.drop_left]
  exact scan_of_step hstep format

theorem plain_of_isDigit {base : Nat} (hle : base ≤ 16) {c : Char} (h : isDigit base c = true) :
    isSpace c = false ∧ c ≠ '-' ∧ c ≠ '+' ∧ c ≠ 'x' ∧ c ≠ 'X' := by
  have hne : ∀ d : Char, digitValue d = 16 → c ≠ d := by
    rintro d hd rfl
    rw [isDigit, hd, decide_eq_true_iff] at h
    omega
  refine ⟨?_, hne _ rfl, hne _ rfl, hne _ rfl, hne _ rfl⟩
  simp [isSpace, hne ' ' rfl, hne '\t' rfl, hne '\n' rfl, hne '\x0b' rfl, hne '\x0c' rfl,
    hne '\r' rfl]

theorem dropHexMark_eq (base : Nat) (d : Char) {input : List Char}
    (h : ∀ x ∈ input.head?, x ≠ 'x' ∧ x ≠ 'X') :
    dropHexMark base (d :: input) = d :: input := by
  unfold dropHexMark
  split
  case h_1 x rest heq =>
    obtain ⟨rfl, rfl⟩ := List.cons_eq_cons.mp heq
    have hx := h x rfl
    rw [if_neg (by simp [hx.1, hx.2])]
  case h_2 => rfl

theorem readNumber_digits {base : Nat} (hle : base ≤ 16) (bits : Nat) {digits : List Char}
    (hne : digits ≠ []) (hdigits : ∀ d ∈ digits, isDigit base d = true) {c : Char}
    (hc : isDigit base c = false) (hmark : c ≠ 'x' ∧ c ≠ 'X') (rest : List Char) :
    readNumber base bits (digits ++ c :: rest) =
      some (convert bits false (ofDigits base digits), c :: rest) := by
  obtain ⟨d, tail, rfl⟩ := List.exists_cons_of_ne_nil hne
  obtain ⟨hspace, hminus, hplus, -⟩ := plain_of_isDigit hle (hdigits d List.mem_cons_self)
  have hskip : (d :: tail ++ c :: rest).dropWhile isSpace = d :: tail ++ c :: rest :=
    List.dropWhile_cons_of_neg (Bool.eq_false_iff.mp hspace)
  have hsign : takeSign (d :: tail ++ c :: rest) = (false, d :: tail ++ c :: rest) := by
    rw [List.cons_append, takeSign] <;> simp [hminus, hplus]
  have hbase : dropHexMark base (d :: tail ++ c :: rest) = d :: tail ++ c :: rest := by
    refine dropHexMark_eq base d fun x hx => ?_
    cases tail with
    | nil => exact Option.some.inj hx ▸ hmark
    | cons e tail =>
      obtain ⟨-, -, -, hplain⟩ := plain_of_isDigit hle (hdigits e (by simp))
      exact Option.some.inj hx ▸ hplain
  have htake : (d :: tail ++ c :: rest).takeWhile (isDigit base) = d :: tail := by
    rw [List.takeWhile_append_of_pos hdigits, List.takeWhile_cons_of_neg (Bool.eq_false_iff.mp hc),
      List.append_nil]
  have hdrop : (d :: tail ++ c :: rest).dropWhile (isDigit base) = c :: rest := by
    rw [List.dropWhile_append_of_pos hdigits, List.dropWhile_cons_of_neg (Bool.eq_false_iff.mp hc)]
  rw [readNumber, hskip, hsign]
  dsimp only
  rw [hbase, htake, hdrop, if_neg (List.cons_ne_nil _ _)]

theorem dropWhile_padded {base : Nat} (hbase : 1 < base) (hle : base ≤ 16) (width n : Nat)
    (rest : List Char) :
    (padded base width n ++ rest).dropWhile isSpace = padded base width n ++ rest := by
  obtain ⟨d, tail, heq⟩ := List.exists_cons_of_ne_nil (padded_ne_nil base width n)
  have hdigit : isDigit base d = true := isDigit_padded hbase hle (heq ▸ List.mem_cons_self)
  rw [heq]
  exact List.dropWhile_cons_of_neg (Bool.eq_false_iff.mp (plain_of_isDigit hle hdigit).1)

theorem scan_padded {base bits : Nat} (hbase : 1 < base) (hle : base ≤ 16) (width n : Nat)
    {c : Char} (hc : isDigit base c = false) (hmark : c ≠ 'x' ∧ c ≠ 'X') (rest : List Char)
    (format : List Directive) :
    scan (.number base bits :: format) (padded base width n ++ c :: rest) =
      .number (convert bits false n) :: scan format (c :: rest) := by
  have hread := readNumber_digits hle bits (padded_ne_nil base width n)
    (fun d => isDigit_padded hbase hle) hc hmark rest
  have hstep : step (.number base bits) (padded base width n ++ c :: rest) =
      some (some (.number (convert bits false n)), c :: rest) := by
    rw [step, hread, ofDigits_padded hbase hle]
    rfl
  exact scan_of_step hstep format

end Scanf
