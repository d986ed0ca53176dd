import AlefsDb.Lemmas.Layout

/-!
# Bytes that are canonical

`decode` checks the order of set members, but it puts the entries of a hash and of a tree into a map, where a later one replaces
one of the same key. So the bytes it accepts are the encoding of what it returns exactly where the entries they lay out are in
strictly ascending key order, at every depth (`decode_canonical_iff`).
-/

namespace AlefsDb
namespace Codec

/-- The bytes lay out a value, and the entries of each of its hashes and trees stand in strictly ascending key order. -/
def EntriesAscending (b : Bytes) : Prop := ∃ v : Value, v.Ordered ∧ v.Small ∧ b = codecVersion :: layout v

/-- Bytes that are decoded to a value are its encoding exactly where they lay out the entries of maps in ascending key order. -/
theorem decode_canonical_iff {b : Bytes} {v : Value} (h : decode b = .ok v) : encode v = b ↔ EntriesAscending b := by
  have hread := decode_wellRead h
  refine ⟨?_, ?_⟩
  · intro hb
    refine ⟨v, hread.ordered, hread.small, ?_⟩
    rw [layout_eq_encodeValue hread.members, ← hb, encode]
  · intro hb
    obtain ⟨w, ho, hs, rfl⟩ := hb
    obtain rfl := decode_layout ho hs h
    rw [encode, layout_eq_encodeValue hread.members]

/-- A hash of two entries in order, one of them a set of two members. -/
theorem decode_canonical_hash :
    EntriesAscending [1, 0x10, 2, 0, 0, 0, 1, 0, 0, 0, 97, 0, 1, 0, 0, 0, 98, 0x11, 2, 0, 0, 0, 1, 0, 1, 1] := by
  have h : decode [1, 0x10, 2, 0, 0, 0, 1, 0, 0, 0, 97, 0, 1, 0, 0, 0, 98, 0x11, 2, 0, 0, 0, 1, 0, 1, 1] =
      .ok (.hash [("a", .scalar .null), ("b", .set [.scalar (.bool false), .scalar (.bool true)])]) := by
    decide +kernel
  exact (decode_canonical_iff h).mp (by decide +kernel)

/-- A hash whose entry is given twice, a hash whose entries are the wrong way round, and a tree with a key given twice inside a list:
each is accepted, and encoded to other bytes; and the hash with the entry given once is decoded to the same value. -/
theorem decode_accepts_duplicates :
    (decode [1, 0x10, 2, 0, 0, 0, 1, 0, 0, 0, 97, 0, 1, 0, 0, 0, 97, 0] = .ok (.hash [("a", .scalar .null)]) ∧
      decode [1, 0x10, 1, 0, 0, 0, 1, 0, 0, 0, 97, 0] = .ok (.hash [("a", .scalar .null)]) ∧
      encode (.hash [("a", .scalar .null)]) ≠ [1, 0x10, 2, 0, 0, 0, 1, 0, 0, 0, 97, 0, 1, 0, 0, 0, 97, 0]) ∧
    (decode [1, 0x10, 2, 0, 0, 0, 1, 0, 0, 0, 98, 0, 1, 0, 0, 0, 97, 0] =
        .ok (.hash [("a", .scalar .null), ("b", .scalar .null)]) ∧
      encode (.hash [("a", .scalar .null), ("b", .scalar .null)]) ≠
        [1, 0x10, 2, 0, 0, 0, 1, 0, 0, 0, 98, 0, 1, 0, 0, 0, 97, 0]) ∧
    (decode [1, 0x12, 1, 0, 0, 0, 0x13, 2, 0, 0, 0, 0, 0, 0, 0] = .ok (.list [.tree [(.null, .scalar .null)]]) ∧
      encode (.list [.tree [(.null, .scalar .null)]]) ≠ [1, 0x12, 1, 0, 0, 0, 0x13, 2, 0, 0, 0, 0, 0, 0, 0]) := by
  decide +kernel

end Codec
end AlefsDb
