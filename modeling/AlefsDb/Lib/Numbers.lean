import Mathlib.Algebra.Order.Ring.Int

/-!
# Numbers in text

`i64::from_str`, and `f64::from_str` for texts without an exponent. A float is its IEEE-754 bits: the double nearest to the decimal
that is written, with ties to the even one, and infinity where the decimal is too large.
-/

namespace AlefsDb

/-- The digits behind a minus sign, or a plus sign when those are let pass. -/
def splitSign : List Char → Bool × List Char
  | '-' :: digits => (true, digits)
  | '+' :: digits => (false, digits)
  | digits => (false, digits)

/-- `text.parse::<i64>().ok()`. -/
def parseI64 (text : List Char) : Option Int64 :=
  let (negative, digits) := splitSign text
  if digits = [] ∨ ¬digits.all Char.isDigit then
    none
  else
    let magnitude : Int := Nat.ofDigitChars 10 digits 0
    let n := if negative then -magnitude else magnitude
    if -2 ^ 63 ≤ n ∧ n < 2 ^ 63 then some (Int64.ofInt n) else none

/-- The digits behind a plus sign, the only sign that an unsigned integer may have. -/
def skipPlus : List Char → List Char
  | '+' :: digits => digits
  | digits => digits

/-- `text.parse::<usize>().ok()` of a 64-bit target. -/
def parseUsize (text : List Char) : Option Nat :=
  let digits := skipPlus text
  if digits = [] ∨ ¬digits.all Char.isDigit then
    none
  else
    let n := Nat.ofDigitChars 10 digits 0
    if n < 2 ^ 64 then some n else none

/-- `n.to_string()` of an unsigned integer. -/
def natText (n : Nat) : List Char := Nat.toDigits 10 n

/-- `n.to_string()` of an `i64`. -/
def i64Text (n : Int64) : List Char := if n.toInt < 0 then '-' :: natText n.toInt.natAbs else natText n.toInt.natAbs

theorem isDigit_of_mem_natText {n : Nat} {c : Char} (h : c ∈ natText n) : c.isDigit = true :=
  Nat.isDigit_of_mem_toDigits (by decide) (by decide) h

theorem natText_ne_nil (n : Nat) : natText n ≠ [] := Nat.toDigits_ne_nil

theorem all_isDigit_natText (n : Nat) : (natText n).all Char.isDigit = true :=
  List.all_eq_true.mpr (fun _ h => isDigit_of_mem_natText h)

/-- Numbers with one text are one number. -/
theorem natText_injective : Function.Injective natText := by
  intro a b h
  have ha : Nat.ofDigitChars 10 (natText a) 0 = a := Nat.ofDigitChars_ten_toDigits
  have hb : Nat.ofDigitChars 10 (natText b) 0 = b := Nat.ofDigitChars_ten_toDigits
  rw [← ha, ← hb, h]

/-- A number is read back from its text when it fits. -/
theorem parseUsize_natText (n : Nat) : parseUsize (natText n) = if n < 2 ^ 64 then some n else none := by
  have hdigits : ¬(natText n = [] ∨ ¬(natText n).all Char.isDigit) := by
    rw [all_isDigit_natText]
    simp [natText_ne_nil]
  have hn : Nat.ofDigitChars 10 (natText n) 0 = n := Nat.ofDigitChars_ten_toDigits
  have hskip : skipPlus (natText n) = natText n := by
    unfold skipPlus
    split
    · rename_i rest heq
      have hplus : '+' ∈ natText n := heq ▸ List.mem_cons_self
      exact absurd (isDigit_of_mem_natText hplus) (by decide)
    · rfl
  unfold parseUsize
  rw [hskip]
  dsimp only
  rw [if_neg hdigits, hn]

/-- Text of digits has no sign. -/
theorem splitSign_of_isDigit {text : List Char} (h : ∀ c ∈ text, c.isDigit = true) : splitSign text = (false, text) := by
  unfold splitSign
  split
  · exact absurd (h '-' List.mem_cons_self) (by decide)
  · exact absurd (h '+' List.mem_cons_self) (by decide)
  · rfl

/-- An integer is read back from its text. -/
theorem parseI64_i64Text (n : Int64) : parseI64 (i64Text n) = some n := by
  have hmin := n.le_toInt
  have hmax := n.toInt_lt
  have hdigits : ¬(natText n.toInt.natAbs = [] ∨ ¬(natText n.toInt.natAbs).all Char.isDigit) := by
    rw [all_isDigit_natText]
    simp [natText_ne_nil]
  have hmagnitude : Nat.ofDigitChars 10 (natText n.toInt.natAbs) 0 = n.toInt.natAbs := Nat.ofDigitChars_ten_toDigits
  by_cases hneg : n.toInt < 0
  · have htext : splitSign (i64Text n) = (true, natText n.toInt.natAbs) := by rw [i64Text, if_pos hneg, splitSign]
    have habs : -(n.toInt.natAbs : Int) = n.toInt := by omega
    rw [parseI64, htext]
    dsimp only
    rw [if_neg hdigits, hmagnitude, if_pos rfl, habs, if_pos ⟨hmin, hmax⟩, Int64.ofInt_toInt]
  · have htext : splitSign (i64Text n) = (false, natText n.toInt.natAbs) := by
      rw [i64Text, if_neg hneg]
      exact splitSign_of_isDigit (fun _ h => isDigit_of_mem_natText h)
    have habs : (n.toInt.natAbs : Int) = n.toInt := by omega
    rw [parseI64, htext]
    dsimp only
    rw [if_neg hdigits, hmagnitude, if_neg Bool.false_ne_true, habs, if_pos ⟨hmin, hmax⟩, Int64.ofInt_toInt]

/-- The text of an integer begins with a digit or a minus sign. -/
theorem i64Text_eq_cons (n : Int64) : ∃ c rest, i64Text n = c :: rest ∧ (c = '-' ∨ c.isDigit = true) := by
  unfold i64Text
  split
  · exact ⟨_, _, rfl, Or.inl rfl⟩
  · obtain ⟨c, rest, htext⟩ := List.exists_cons_of_ne_nil (natText_ne_nil n.toInt.natAbs)
    exact ⟨c, rest, htext, Or.inr (isDigit_of_mem_natText (htext ▸ List.mem_cons_self))⟩

/-- The integer nearest to `a / b`; of two that are as near, the even one. -/
def roundDiv (a b : Nat) : Nat :=
  let q := a / b
  let r := a % b
  if 2 * r < b ∨ 2 * r = b ∧ q % 2 = 0 then q else q + 1

/-- The bits of positive infinity. -/
def f64Infinity : Nat := 0x7ff0000000000000

/-- The bits of the double nearest to `n / 10 ^ places`. -/
def f64Magnitude (n places : Nat) : Nat :=
  let den := 10 ^ places
  if n = 0 then
    0
  else
    -- the exponent of the leading bit, and that of the last bit that a double has room for
    let lead : Int := if den ≤ n then (n / den).log2 else -(((den - 1) / n).log2 + 1 : Nat)
    let last := max (lead - 52) (-1074)
    let significand := if 0 ≤ last then roundDiv n (den * 2 ^ last.toNat) else roundDiv (n * 2 ^ (-last).toNat) den
    -- a significand that is rounded up to the next power of two carries into the exponent
    min ((last + 1074).toNat * 2 ^ 52 + significand) f64Infinity

/-- `text.parse::<f64>().ok()`, as bits. -/
def parseF64 (text : List Char) : Option UInt64 :=
  let (negative, digits) := splitSign text
  let whole := digits.takeWhile Char.isDigit
  let places := (digits.dropWhile Char.isDigit).drop 1
  if whole ++ places = [] ∨ ¬places.all Char.isDigit ∨ ¬(digits = whole ∨ digits = whole ++ '.' :: places) then
    none
  else
    let magnitude := f64Magnitude (Nat.ofDigitChars 10 (whole ++ places) 0) places.length
    some (UInt64.ofNat (if negative then 2 ^ 63 + magnitude else magnitude))

example : parseF64 "-0.1".toList = some 0xbfb999999999999a := by decide +kernel

end AlefsDb
