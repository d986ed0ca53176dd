import AlefsDb.Lemmas.CodecFormat

/-!
# The codec is canonical

Decoding gives back the canonical form, and two values are encoded to the same bytes exactly when their canonical forms are equal.
-/

namespace AlefsDb
namespace Codec

/-- A value and its canonical form are encoded to the same bytes. -/
theorem encode_canon_eq (v : Value) : encode v.canon = encode v := by
  rw [encode, Value.encodeValue_canon, encode]

/-- The codec round-trips and is canonical: for values whose maps are ordered and whose lengths are below `2 ^ 32`, `decode` gives
back the canonical form of what was encoded, the canonical form is encoded as the value is, and encodings are equal exactly where
canonical forms are. -/
theorem codec_canonical {v w : Value} (hv : v.Ordered) (hvs : v.Small) (hw : w.Ordered) (hws : w.Small) :
    decode (encode v) = .ok v.canon ∧ encode v.canon = encode v ∧ (encode v = encode w ↔ v.canon = w.canon) := by
  refine ⟨decode_encode hv hvs, encode_canon_eq v, ?_, ?_⟩
  · intro h
    have hvw : decode (encode v) = decode (encode w) := by rw [h]
    rw [decode_encode hv hvs, decode_encode hw hws] at hvw
    exact Except.ok.inj hvw
  · intro h
    rw [← encode_canon_eq v, h, encode_canon_eq w]

/-- A set with a member twice, in a list, and the set of its distinct members in another order. -/
theorem codec_canonical_sets :
    decode (encode (.list [.set [.scalar (.int 2), .scalar (.string "a"), .scalar (.int 1), .scalar (.int 2)]])) =
      .ok (.list [.set [.scalar (.int 1), .scalar (.int 2), .scalar (.string "a")]]) ∧
    encode (.list [.set [.scalar (.int 2), .scalar (.string "a"), .scalar (.int 1), .scalar (.int 2)]]) =
      encode (.list [.set [.scalar (.string "a"), .scalar (.int 2), .scalar (.int 1)]]) := by
  have hordered : ∀ members : List Scalar, (Value.list [.set (members.map .scalar)]).Ordered := by
    intro members
    refine .intro _ trivial (fun v hv => ?_)
    obtain rfl := List.mem_singleton.mp hv
    refine .intro _ trivial (fun w hw => ?_)
    obtain ⟨s, -, rfl⟩ := List.mem_map.mp hw
    exact Value.everywhere_scalar trivial
  have hsmall : ∀ members : List Scalar, members.length < 2 ^ 32 → (∀ s ∈ members, s.LengthFits) →
      (Value.list [.set (members.map .scalar)]).Small := by
    intro members hn hfits
    refine .intro _ (show 1 < 2 ^ 32 by decide) (fun v hv => ?_)
    obtain rfl := List.mem_singleton.mp hv
    refine .intro _ (by simpa [Value.LengthsFit] using hn) (fun w hw => ?_)
    obtain ⟨s, hs, rfl⟩ := List.mem_map.mp hw
    exact Value.everywhere_scalar (hfits s hs)
  have h := codec_canonical (hordered [.int 2, .string "a", .int 1, .int 2])
    (hsmall _ (by decide) (by simp [Scalar.LengthFits]; decide)) (hordered [.string "a", .int 2, .int 1])
    (hsmall _ (by decide) (by simp [Scalar.LengthFits]; decide))
  exact ⟨h.1, h.2.2.mpr rfl⟩

end Codec
end AlefsDb
