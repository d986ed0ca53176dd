import AlefsDb.Lib.Numbers
import AlefsDb.Types.Value

/-!
# Scalars as the content of files

`parse_scalar_text`: what is written into the file of a scalar is read as a scalar of the same type.
-/

namespace AlefsDb
namespace Fuse

/-- `char::is_whitespace`. -/
def isWhitespace (c : Char) : Bool :=
  let n := c.toNat
  9 ≤ n && n ≤ 13 || n = 0x20 || n = 0x85 || n = 0xa0 || n = 0x1680 || 0x2000 ≤ n && n ≤ 0x200a || n = 0x2028 || n = 0x2029 ||
    n = 0x202f || n = 0x205f || n = 0x3000

/-- `str::trim`. -/
def trim (text : List Char) : List Char := ((text.dropWhile isWhitespace).reverse.dropWhile isWhitespace).reverse

/-- The number behind the `e` of a decimal. -/
def parseExponent (text : List Char) : Option Int :=
  let (negative, digits) := splitSign text
  if digits = [] ∨ ¬digits.all Char.isDigit then
    none
  else
    let n : Int := Nat.ofDigitChars 10 digits 0
    some (if negative then -n else n)

/-- The bits of a decimal without a sign, with or without an exponent. -/
def decimalBits (text : List Char) : Option Nat := do
  let beforeExponent := fun c => decide (c ≠ 'e' ∧ c ≠ 'E')
  let mantissa := text.takeWhile beforeExponent
  let exponent ← match text.dropWhile beforeExponent with
    | [] => some 0
    | _ :: exponent => parseExponent exponent
  let whole := mantissa.takeWhile Char.isDigit
  let places := (mantissa.dropWhile Char.isDigit).drop 1
  if whole ++ places = [] ∨ ¬places.all Char.isDigit ∨ ¬(mantissa = whole ∨ mantissa = whole ++ '.' :: places) then
    none
  else
    let n := Nat.ofDigitChars 10 (whole ++ places) 0
    some (f64Magnitude (n * 10 ^ exponent.toNat) (places.length + (-exponent).toNat))

/-- `text.parse::<f64>().ok()`, as bits, with the names of infinity and of what is no number. -/
def parseFloat (text : List Char) : Option UInt64 := do
  let (negative, rest) := splitSign text
  let lower := rest.map Char.toLower
  let magnitude ←
    if lower = "inf".toList ∨ lower = "infinity".toList then some f64Infinity
    else if lower = "nan".toList then some 0x7ff8000000000000
    else decimalBits rest
  return UInt64.ofNat (if negative then 2 ^ 63 + magnitude else magnitude)

/-- `parse_scalar_text`, whose error says nothing. -/
def parseScalarText (existing : Scalar) (data : Bytes) : Option Scalar :=
  match existing with
  | .bytes _ => some (.bytes data)
  | .string _ => (fromUtf8 data).map .string
  | .int _ => do
    let s ← fromUtf8 data
    let n ← parseI64 (trim s.toList)
    return .int n
  | .float _ => do
    let s ← fromUtf8 data
    let bits ← parseFloat (trim s.toList)
    return .float bits
  | .bool _ => do
    let s ← fromUtf8 data
    let text := trim s.toList
    if text = "true".toList ∨ text = "1".toList then some (.bool true)
    else if text = "false".toList ∨ text = "0".toList then some (.bool false)
    else none
  | .null => do
    let s ← fromUtf8 data
    let text := trim s.toList
    if text = "null".toList ∨ text = [] then some .null else none

/-- What is written keeps its type. -/
theorem typename_of_parseScalarText {existing s : Scalar} {data : Bytes} (h : parseScalarText existing data = some s) :
    (Value.scalar s).typename = (Value.scalar existing).typename := by
  cases existing with
  | bytes b =>
    cases h
    rfl
  | string t =>
    obtain ⟨_, -, rfl⟩ := Option.map_eq_some_iff.mp h
    rfl
  | int n =>
    obtain ⟨_, -, h⟩ := Option.bind_eq_some_iff.mp h
    obtain ⟨_, -, h⟩ := Option.bind_eq_some_iff.mp h
    cases h
    rfl
  | float bits =>
    obtain ⟨_, -, h⟩ := Option.bind_eq_some_iff.mp h
    obtain ⟨_, -, h⟩ := Option.bind_eq_some_iff.mp h
    cases h
    rfl
  | bool b =>
    obtain ⟨_, -, h⟩ := Option.bind_eq_some_iff.mp h
    dsimp only at h
    split at h
    · cases h
      rfl
    · split at h
      · cases h
        rfl
      · cases h
  | null =>
    obtain ⟨_, -, h⟩ := Option.bind_eq_some_iff.mp h
    dsimp only at h
    split at h
    · cases h
      rfl
    · cases h

end Fuse
end AlefsDb
