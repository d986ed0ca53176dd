import Mathlib.Data.String.Basic
import AlefsDb.Lib.Bytes

/-!
# The order of UTF-8

Strings are ordered by their characters, byte strings by their bytes. UTF-8 keeps the order: the bytes of a smaller character come
before those of a larger one at the first place where they differ.
-/

namespace AlefsDb

/-- A first byte decides, or it is the same and the rest decides. -/
theorem ofNat_cons_lt {m n : Nat} {a b : Bytes} (hm : m < 256) (hn : n < 256) :
    UInt8.ofNat m :: a < UInt8.ofNat n :: b ↔ m < n ∨ m = n ∧ a < b := by
  rw [List.cons_lt_cons_iff, UInt8.lt_iff_toNat_lt, ← UInt8.toNat_inj, UInt8.toNat_ofNat', UInt8.toNat_ofNat',
    Nat.mod_eq_of_lt hm, Nat.mod_eq_of_lt hn]

/-- The digits of a code point that UTF-8 distributes over four bytes. -/
theorem digits_of_lt {v : Nat} (h : v < 2 ^ 21) :
    v = 262144 * (v / 262144 % 8) + (4096 * (v / 4096 % 64) + (64 * (v / 64 % 64) + v % 64)) := by
  omega

/-- A smaller character has smaller bytes, whatever follows them. -/
theorem utf8EncodeChar_append_lt {c d : Char} (h : c < d) (a b : Bytes) :
    String.utf8EncodeChar c ++ a < String.utf8EncodeChar d ++ b := by
  have hlt : c.val.toNat < d.val.toNat := h
  have hmax : d.val.toNat < 2 ^ 21 := by
    have hvalid : d.val.toNat < 55296 ∨ 57343 < d.val.toNat ∧ d.val.toNat < 1114112 := d.valid
    omega
  unfold String.utf8EncodeChar
  generalize c.val.toNat = v at *
  generalize d.val.toNat = w at *
  have hv := digits_of_lt (lt_trans hlt hmax)
  have hw := digits_of_lt hmax
  dsimp only
  -- the lengths of the two encodings
  split_ifs <;> simp (disch := omega) only [List.cons_append, List.nil_append, ofNat_cons_lt] <;> omega

/-- The encodings of texts are in the order of the texts. -/
theorem flatMap_utf8EncodeChar_lt {l m : List Char} (h : l < m) :
    l.flatMap String.utf8EncodeChar < m.flatMap String.utf8EncodeChar := by
  induction l generalizing m with
  | nil =>
    cases m with
    | nil => exact absurd h (List.not_lt_nil _)
    | cons d m =>
      obtain ⟨x, r, hx⟩ := List.exists_cons_of_ne_nil (String.utf8EncodeChar_ne_nil (c := d))
      rw [List.flatMap_nil, List.flatMap_cons, hx]
      exact List.nil_lt_cons _ _
  | cons c l ih =>
    cases m with
    | nil => exact absurd h (List.not_lt_nil _)
    | cons d m =>
      rw [List.flatMap_cons, List.flatMap_cons]
      rcases List.cons_lt_cons_iff.mp h with hcd | ⟨rfl, hrest⟩
      · exact utf8EncodeChar_append_lt hcd _ _
      · exact List.append_left_lt (ih hrest)

/-- Strings are ordered as their bytes are. -/
theorem utf8_lt_iff {s t : String} : utf8 s < utf8 t ↔ s < t := by
  have hmono : StrictMono utf8 := by
    intro s t h
    rw [← String.ofList_toList (s := s), ← String.ofList_toList (s := t), utf8_ofList, utf8_ofList]
    exact flatMap_utf8EncodeChar_lt (String.lt_iff_toList_lt.mp h)
  exact hmono.lt_iff_lt

/-- A character takes four bytes at most. -/
theorem length_utf8_le (s : String) : (utf8 s).length ≤ 4 * s.toList.length := by
  have hbytes : utf8 s = s.toList.flatMap String.utf8EncodeChar := by rw [← utf8_ofList, String.ofList_toList]
  rw [hbytes]
  induction s.toList with
  | nil => simp
  | cons c l ih =>
    have hc := Char.utf8Size_le_four c
    simp only [List.flatMap_cons, List.length_append, String.length_utf8EncodeChar, List.length_cons]
    omega

end AlefsDb
