import Mathlib.Algebra.Order.Field.Power
import Mathlib.Data.Rat.Defs
import Mathlib.Tactic.Positivity
import Mathlib.Tactic.NormNum
import Mathlib.Tactic.Linarith
import Mathlib.Tactic.Ring

/-!
# Binary floating-point numbers

A bit pattern without its sign, read as a number, is an exponent field above `p` bits of fraction. It denotes the fraction with an
implicit bit in front of it, scaled by the exponent; with the exponent field zero there is no implicit bit and the scale is that of
the exponent one. The value grows strictly with the pattern (`magnitude_strictMono`), so that patterns of the same sign compare as
their values do or the other way round. Everything is exact in the rationals.
-/

namespace AlefsDb
namespace BinaryFloat

/-- The fraction, with the implicit bit in front of it unless the exponent field is zero. -/
def significand (p m : Nat) : Nat := if m / 2 ^ p = 0 then m % 2 ^ p else 2 ^ p + m % 2 ^ p

/-- The value of a pattern without sign, as a multiple of the least positive value. -/
def units (p m : Nat) : Nat := significand p m * 2 ^ (m / 2 ^ p - 1)

/-- The value of a pattern without sign, where `2 ^ scale` is the least positive value. -/
def magnitude (p : Nat) (scale : ℤ) (m : Nat) : ℚ := significand p m * 2 ^ (scale + (m / 2 ^ p - 1 : Nat))

/-- The value of a pattern by its fields. -/
theorem units_fields {p f : Nat} (e : Nat) (hf : f < 2 ^ p) :
    units p (2 ^ p * e + f) = (if e = 0 then f else 2 ^ p + f) * 2 ^ (e - 1) := by
  have hdiv : (2 ^ p * e + f) / 2 ^ p = e := by
    rw [Nat.mul_add_div (Nat.two_pow_pos p), Nat.div_eq_of_lt hf, Nat.add_zero]
  have hmod : (2 ^ p * e + f) % 2 ^ p = f := by rw [Nat.mul_add_mod, Nat.mod_eq_of_lt hf]
  rw [units, significand, hdiv, hmod]

theorem units_zero (p : Nat) : units p 0 = 0 := by simp [units, significand]

/-- The next pattern has a greater value: its fraction is one more, or the exponent is and the fraction starts again. -/
theorem units_lt_succ (p m : Nat) : units p m < units p (m + 1) := by
  obtain ⟨e, f, hf, rfl⟩ : ∃ e f, f < 2 ^ p ∧ m = 2 ^ p * e + f :=
    ⟨m / 2 ^ p, m % 2 ^ p, Nat.mod_lt m (Nat.two_pow_pos p), (Nat.div_add_mod m _).symm⟩
  by_cases hcarry : f + 1 < 2 ^ p
  · rw [Nat.add_assoc, units_fields e hf, units_fields e hcarry]
    refine Nat.mul_lt_mul_of_pos_right ?_ (Nat.two_pow_pos _)
    split <;> omega
  · have hnext : 2 ^ p * e + f + 1 = 2 ^ p * (e + 1) + 0 := by
      rw [Nat.mul_add]
      omega
    rw [hnext, units_fields e hf, units_fields (e + 1) (Nat.two_pow_pos p)]
    cases e with
    | zero => simpa using hf
    | succ e =>
      have hscaled : (2 ^ p + f) * 2 ^ e < 2 * 2 ^ p * 2 ^ e :=
        Nat.mul_lt_mul_of_pos_right (by omega) (Nat.two_pow_pos e)
      simpa [Nat.pow_succ, Nat.mul_comm, Nat.mul_left_comm, Nat.mul_assoc] using hscaled

/-- A larger pattern has a larger value. -/
theorem units_strictMono (p : Nat) : StrictMono (units p) := strictMono_nat_of_lt_succ (units_lt_succ p)

/-- The value of a pattern is that multiple of the least positive value. -/
theorem magnitude_eq (p : Nat) (scale : ℤ) (m : Nat) : magnitude p scale m = units p m * 2 ^ scale := by
  rw [magnitude, units, zpow_add₀ (by norm_num), zpow_natCast]
  push_cast
  ring

/-- A larger pattern has a larger value. -/
theorem magnitude_strictMono (p : Nat) (scale : ℤ) : StrictMono (magnitude p scale) := by
  intro m n h
  rw [magnitude_eq, magnitude_eq]
  exact mul_lt_mul_of_pos_right (Nat.cast_lt.mpr (units_strictMono p h)) (by positivity)

@[simp] theorem magnitude_zero (p : Nat) (scale : ℤ) : magnitude p scale 0 = 0 := by
  rw [magnitude_eq, units_zero, Nat.cast_zero, zero_mul]

theorem magnitude_nonneg (p : Nat) (scale : ℤ) (m : Nat) : 0 ≤ magnitude p scale m := by
  rw [← magnitude_zero p scale]
  exact (magnitude_strictMono p scale).monotone (Nat.zero_le m)

/-! ## Patterns of 64 bits -/

/-- The bits below the sign. -/
def unsigned (bits : UInt64) : Nat := bits.toNat % 2 ^ 63

/-- The sign bit is set. -/
def Negative (bits : UInt64) : Prop := 2 ^ 63 ≤ bits.toNat

instance (bits : UInt64) : Decidable (Negative bits) := inferInstanceAs (Decidable (_ ≤ _))

/-- What a pattern with fields for eleven bits of exponent and 52 of fraction denotes: nothing, for an infinity and what is not a
number, and a rational otherwise. -/
def value (bits : UInt64) : Option ℚ :=
  if unsigned bits / 2 ^ 52 = 2047 then none
  else if Negative bits then some (-magnitude 52 (-1074) (unsigned bits))
  else some (magnitude 52 (-1074) (unsigned bits))

variable {x y : UInt64} {u v : ℚ}

theorem toNat_of_not_negative (h : ¬Negative x) : x.toNat = unsigned x := by
  unfold Negative at h
  unfold unsigned
  omega

theorem toNat_of_negative (h : Negative x) : x.toNat = 2 ^ 63 + unsigned x := by
  have hlt := x.toNat_lt
  unfold Negative at h
  unfold unsigned
  omega

/-- The value of a float that is not negative is that of its pattern. -/
theorem value_of_not_negative (hx : value x = some u) (h : ¬Negative x) : u = magnitude 52 (-1074) (unsigned x) := by
  rw [value, if_neg h] at hx
  split at hx
  · cases hx
  · exact (Option.some.inj hx).symm

/-- The value of a negative float is that of its pattern, with the sign. -/
theorem value_of_negative (hx : value x = some u) (h : Negative x) : u = -magnitude 52 (-1074) (unsigned x) := by
  rw [value, if_pos h] at hx
  split at hx
  · cases hx
  · exact (Option.some.inj hx).symm

theorem not_negative_zero : ¬Negative 0 := by decide

theorem negative_minus_zero : Negative 0x8000000000000000 := by decide

theorem value_zero : value 0 = some 0 := by simp [value, not_negative_zero, unsigned]

theorem value_minus_zero : value 0x8000000000000000 = some 0 := by simp [value, negative_minus_zero, unsigned]

/-- Without signs, values compare as the patterns do. -/
theorem value_lt_iff (hx : value x = some u) (hy : value y = some v) (hnx : ¬Negative x) (hny : ¬Negative y) :
    u < v ↔ x < y := by
  rw [value_of_not_negative hx hnx, value_of_not_negative hy hny, (magnitude_strictMono 52 (-1074)).lt_iff_lt,
    UInt64.lt_iff_toNat_lt, toNat_of_not_negative hnx, toNat_of_not_negative hny]

/-- With both signs, values compare the other way round. -/
theorem value_lt_iff_of_negative (hx : value x = some u) (hy : value y = some v) (hnx : Negative x) (hny : Negative y) :
    u < v ↔ y < x := by
  rw [value_of_negative hx hnx, value_of_negative hy hny, neg_lt_neg_iff, (magnitude_strictMono 52 (-1074)).lt_iff_lt,
    UInt64.lt_iff_toNat_lt, toNat_of_negative hnx, toNat_of_negative hny, Nat.add_lt_add_iff_left]

/-- With a sign on one, its value is less, except that the two zeros have the same value. -/
theorem value_lt_or_zero (hx : value x = some u) (hy : value y = some v) (hnx : Negative x) (hny : ¬Negative y) :
    y < x ∧ (u < v ∨ u = v ∧ x = 0x8000000000000000 ∧ y = 0) := by
  have hxy : y.toNat < x.toNat := lt_of_lt_of_le (Nat.lt_of_not_le hny) hnx
  refine ⟨UInt64.lt_iff_toNat_lt.mpr hxy, ?_⟩
  rw [value_of_negative hx hnx, value_of_not_negative hy hny]
  have hmx := magnitude_nonneg 52 (-1074) (unsigned x)
  have hmy := magnitude_nonneg 52 (-1074) (unsigned y)
  by_cases hzero : unsigned x = 0 ∧ unsigned y = 0
  · refine Or.inr ⟨by rw [hzero.1, hzero.2]; simp, ?_, ?_⟩
    · rw [← UInt64.toNat_inj, toNat_of_negative hnx, hzero.1]
      rfl
    · rw [← UInt64.toNat_inj, toNat_of_not_negative hny, hzero.2]
      rfl
  · left
    have hpos : 0 < magnitude 52 (-1074) (unsigned x) ∨ 0 < magnitude 52 (-1074) (unsigned y) := by
      rw [← magnitude_zero 52 (-1074), (magnitude_strictMono 52 (-1074)).lt_iff_lt, (magnitude_strictMono 52 (-1074)).lt_iff_lt]
      omega
    rcases hpos with hpos | hpos <;> linarith

end BinaryFloat
end AlefsDb
