import AlefsDb.Lib.Bytes

/-!
# Cyclic redundancy checks

A reflected register of `w` bits: a byte is xored into its low end, and eight times the register is shifted down by one and, when
a one falls out, xored with the polynomial. One step is linear over xor, and injective when the polynomial has its top bit.
A step on a register whose low bit is clear only shifts, so a step back from a register with clear bits at its top shifts them in:
two byte strings no longer than the register that lead to one register are the same (`foldl_stepByte_burst`).
-/

namespace AlefsDb
namespace Crc

variable {w : Nat}

/-- One bit of the division by `poly`. -/
def stepBit (poly c : BitVec w) : BitVec w := (c >>> 1) ^^^ (if c.getLsbD 0 then poly else 0)

/-- One byte of the division. -/
def stepByte (poly c : BitVec w) (b : UInt8) : BitVec w := Nat.iterate (stepBit poly) 8 (c ^^^ b.toBitVec.setWidth w)

theorem xor_xor_xor_comm (a b x y : BitVec w) : a ^^^ b ^^^ (x ^^^ y) = a ^^^ x ^^^ (b ^^^ y) := by
  ac_rfl

/-- A step for a bit is linear. -/
theorem stepBit_xor (poly a b : BitVec w) : stepBit poly (a ^^^ b) = stepBit poly a ^^^ stepBit poly b := by
  unfold stepBit
  rw [BitVec.ushiftRight_xor_distrib, BitVec.getLsbD_xor]
  ext i hi
  cases a.getLsbD 0 <;> cases b.getLsbD 0 <;> simp [Bool.xor_comm, Bool.xor_left_comm]

theorem iterate_stepBit_xor (poly a b : BitVec w) (n : Nat) :
    Nat.iterate (stepBit poly) n (a ^^^ b) = Nat.iterate (stepBit poly) n a ^^^ Nat.iterate (stepBit poly) n b := by
  induction n generalizing a b with
  | zero => rfl
  | succ n ih => rw [Function.iterate_succ_apply, stepBit_xor, ih, Function.iterate_succ_apply, Function.iterate_succ_apply]

/-- The top bit after a step is the bit that fell out. -/
theorem msb_stepBit {poly : BitVec w} (hpoly : poly.msb = true) (c : BitVec w) : (stepBit poly c).msb = c.getLsbD 0 := by
  unfold stepBit
  cases h : c.getLsbD 0 <;> simp [hpoly]

/-- A step for a bit loses nothing, as long as the polynomial has its highest bit. -/
theorem stepBit_injective {poly : BitVec w} (hpoly : poly.msb = true) : Function.Injective (stepBit poly) := by
  intro a b h
  have hlow : a.getLsbD 0 = b.getLsbD 0 := by rw [← msb_stepBit hpoly a, h, msb_stepBit hpoly b]
  unfold stepBit at h
  rw [hlow, BitVec.xor_left_inj] at h
  apply BitVec.eq_of_getLsbD_eq
  intro i _
  cases i with
  | zero => exact hlow
  | succ i =>
    have hi := congrArg (fun c : BitVec w => c.getLsbD i) h
    simpa [Nat.add_comm] using hi

theorem iterate_stepBit_injective {poly : BitVec w} (hpoly : poly.msb = true) (n : Nat) :
    Function.Injective (Nat.iterate (stepBit poly) n) :=
  (stepBit_injective hpoly).iterate n

/-- A step for a byte loses nothing of the remainder. -/
theorem stepByte_injective {poly : BitVec w} (hpoly : poly.msb = true) (b : UInt8) :
    Function.Injective (fun c => stepByte poly c b) := by
  intro a c h
  exact (BitVec.xor_left_inj _).mp (iterate_stepBit_injective hpoly 8 h)

/-- The same bytes take different remainders to different ones. -/
theorem foldl_stepByte_injective {poly : BitVec w} (hpoly : poly.msb = true) (bs : Bytes) :
    Function.Injective (bs.foldl (stepByte poly)) := by
  induction bs with
  | nil => exact Function.injective_id
  | cons b bs ih =>
    intro a c h
    exact stepByte_injective hpoly b (ih h)

/-- Steps on a register whose low bits are clear only shift it. -/
theorem iterate_stepBit_ofNat (poly : BitVec w) {m n : Nat} (h : 2 ^ n * m < 2 ^ w) :
    Nat.iterate (stepBit poly) n (BitVec.ofNat w (2 ^ n * m)) = BitVec.ofNat w m := by
  induction n generalizing m with
  | zero => simp
  | succ n ih =>
    have hmul : 2 ^ (n + 1) * m = 2 * (2 ^ n * m) := by rw [Nat.pow_succ, Nat.mul_comm (2 ^ n) 2, Nat.mul_assoc]
    rw [hmul] at h ⊢
    have hlow : (BitVec.ofNat w (2 * (2 ^ n * m))).getLsbD 0 = false := by simp [BitVec.getLsbD_ofNat]
    have hshift : BitVec.ofNat w (2 * (2 ^ n * m)) >>> 1 = BitVec.ofNat w (2 ^ n * m) := by
      apply BitVec.eq_of_toNat_eq
      rw [BitVec.toNat_ushiftRight, BitVec.toNat_ofNat, BitVec.toNat_ofNat, Nat.mod_eq_of_lt h, Nat.mod_eq_of_lt (by omega),
        Nat.shiftRight_eq_div_pow]
      omega
    rw [Function.iterate_succ_apply, stepBit, hlow, hshift, if_neg Bool.false_ne_true]
    rw [BitVec.ofNat_eq_ofNat, BitVec.xor_zero]
    exact ih (by omega)

/-- The register that holds a byte below others. -/
theorem ofNat_fromLe_cons (b : UInt8) (bs : Bytes) :
    BitVec.ofNat w (fromLe (b :: bs)) = BitVec.ofNat w (2 ^ 8 * fromLe bs) ^^^ b.toBitVec.setWidth w := by
  apply BitVec.eq_of_getLsbD_eq
  intro i hi
  have hb : b.toNat < 2 ^ 8 := b.toNat_lt
  rw [BitVec.getLsbD_xor, BitVec.getLsbD_setWidth, BitVec.getLsbD_ofNat, BitVec.getLsbD_ofNat, fromLe,
    show b.toNat + 256 * fromLe bs = 2 ^ 8 * fromLe bs + b.toNat by omega, Nat.testBit_two_pow_mul_add _ hb,
    Nat.testBit_two_pow_mul]
  by_cases h8 : i < 8
  · have hge : ¬8 ≤ i := Nat.not_le_of_lt h8
    simp [h8, hi, hge, BitVec.getLsbD]
  · simp [h8, hi, Nat.le_of_not_lt h8, BitVec.getLsbD_of_ge]

/-- Two registers that strings no longer than the register lead to one differ by these strings. -/
theorem xor_of_foldl_eq {poly : BitVec w} (hpoly : poly.msb = true) {c d : BitVec w} {xs ys : Bytes}
    (hlen : xs.length = ys.length) (hw : 8 * xs.length ≤ w)
    (h : xs.foldl (stepByte poly) c = ys.foldl (stepByte poly) d) :
    c ^^^ d = BitVec.ofNat w (fromLe xs) ^^^ BitVec.ofNat w (fromLe ys) := by
  induction xs generalizing ys c d with
  | nil =>
    obtain rfl := List.eq_nil_of_length_eq_zero hlen.symm
    have h : c = d := h
    rw [h, BitVec.xor_self, BitVec.xor_self]
  | cons x xs ih =>
    obtain ⟨y, ys, rfl⟩ := List.exists_cons_of_length_eq_add_one hlen.symm
    simp only [List.length_cons, Nat.add_right_cancel_iff] at hlen hw
    have hih := ih hlen (by omega) h
    -- the strings behind the first bytes leave the top byte of the register clear, so eight steps back only shift them
    have hfits : ∀ bs : Bytes, bs.length = xs.length → 2 ^ 8 * fromLe bs < 2 ^ w := by
      intro bs hbs
      have hlt := fromLe_lt bs
      have hpow : 2 ^ 8 * 256 ^ bs.length = 2 ^ (8 * (bs.length + 1)) := by
        rw [Nat.mul_add, Nat.pow_add, Nat.pow_mul, Nat.mul_comm]
      calc 2 ^ 8 * fromLe bs < 2 ^ 8 * 256 ^ bs.length := by omega
        _ = 2 ^ (8 * (bs.length + 1)) := hpow
        _ ≤ 2 ^ w := Nat.pow_le_pow_right (by decide) (by omega)
    have hback := iterate_stepBit_xor poly (BitVec.ofNat w (2 ^ 8 * fromLe xs)) (BitVec.ofNat w (2 ^ 8 * fromLe ys)) 8
    rw [iterate_stepBit_ofNat poly (hfits xs rfl), iterate_stepBit_ofNat poly (hfits ys hlen.symm), ← hih] at hback
    unfold stepByte at hback
    rw [← iterate_stepBit_xor] at hback
    have hfirst := iterate_stepBit_injective hpoly 8 hback
    rw [ofNat_fromLe_cons, ofNat_fromLe_cons]
    generalize x.toBitVec.setWidth w = x' at hfirst ⊢
    generalize y.toBitVec.setWidth w = y' at hfirst ⊢
    calc c ^^^ d = c ^^^ d ^^^ (x' ^^^ y') ^^^ (x' ^^^ y') := by rw [BitVec.xor_assoc (c ^^^ d), BitVec.xor_self, BitVec.xor_zero]
      _ = c ^^^ x' ^^^ (d ^^^ y') ^^^ (x' ^^^ y') := by rw [xor_xor_xor_comm c d]
      _ = _ := by rw [← hfirst, xor_xor_xor_comm]

/-- Bytes that fit the width are told apart by their number. -/
theorem ofNat_fromLe_inj {xs ys : Bytes} (hlen : xs.length = ys.length) (hw : 8 * xs.length ≤ w)
    (h : BitVec.ofNat w (fromLe xs) = BitVec.ofNat w (fromLe ys)) : xs = ys := by
  have hfits : ∀ bs : Bytes, bs.length = xs.length → fromLe bs < 2 ^ w := by
    intro bs hbs
    calc fromLe bs < 256 ^ bs.length := fromLe_lt bs
      _ = 2 ^ (8 * bs.length) := (Nat.pow_mul 2 8 _).symm
      _ ≤ 2 ^ w := Nat.pow_le_pow_right (by decide) (by omega)
  have hnat := congrArg BitVec.toNat h
  rw [BitVec.toNat_ofNat, BitVec.toNat_ofNat, Nat.mod_eq_of_lt (hfits xs rfl), Nat.mod_eq_of_lt (hfits ys hlen.symm)] at hnat
  rw [← leBytes_fromLe xs, ← leBytes_fromLe ys, hnat, hlen]

/-- A change of no more bytes than the register has, anywhere in a string, changes the register at its end. -/
theorem foldl_stepByte_burst {poly : BitVec w} (hpoly : poly.msb = true) (c : BitVec w) (before after : Bytes) {xs ys : Bytes}
    (hlen : xs.length = ys.length) (hw : 8 * xs.length ≤ w)
    (h : (before ++ xs ++ after).foldl (stepByte poly) c = (before ++ ys ++ after).foldl (stepByte poly) c) : xs = ys := by
  simp only [List.foldl_append] at h
  have hmid := xor_of_foldl_eq hpoly hlen hw (foldl_stepByte_injective hpoly after h)
  rw [BitVec.xor_self] at hmid
  exact ofNat_fromLe_inj hlen hw (BitVec.xor_eq_zero_iff.mp hmid.symm)

end Crc
end AlefsDb
