import AlefsDb.Lemmas.CodecFormat
import AlefsDb.Lemmas.Walk

/-!
# Values of great length

The length of a string, of bytes and of a collection is written in four bytes. A value with a length of `2 ^ 32` is stored like any
other, and what is stored is not decoded.
-/

namespace AlefsDb

open Database

/-- Bytes of the length `2 ^ 32` are written with the length `0`, so they are not read back. -/
theorem decode_great {b : Bytes} (hb : b.length = 2 ^ 32) :
    Codec.decode (Codec.encode (.scalar (.bytes b))) = Rust.err .trailingBytes := by
  have hlength : Codec.writeU32 b.length = Codec.writeU32 0 := by rw [hb]; decide
  have hread : Codec.decodeValue (Codec.writeU32 0 ++ b).length.succ (Codec.tagBytes :: (Codec.writeU32 0 ++ b)) =
      .ok (.scalar (.bytes []), b) := by
    rw [Codec.decodeValue_bytes, Codec.readU32_append b (by decide), Rust.ok_bind]
    simp [Codec.readSlice]
  have hne : b ≠ [] := by
    rintro rfl
    cases hb
  rw [Codec.encode, Codec.encodeValue, Codec.encodeScalar, hlength, Codec.decode, if_neg (by simp), List.length_cons, hread]
  simp [hne]

/-- Any value can be set at `/a` in the empty database. -/
theorem reached_set_pathA (v : Value) : ∃ G next, Reached Command.Parsed (left (call (.set pathA v) opened)) ∧
    Stores (left (call (.set pathA v) opened)).store.map G next ∧ G pathA.segments = some (2, .value v) := by
  have hplan : Graph.initial.plan 2 (.set pathA v) = .ok (.create [] "a" rootId (.value v)) := rfl
  rcases call_cases opened_stores (.set pathA v) with ⟨e, -, hplan'⟩ | ⟨c, hcall, hplan', -, hstores⟩
  · rw [hplan] at hplan'
    cases hplan'
  rw [hplan] at hplan'
  cases hplan'
  refine ⟨_, _, ⟨[.call (.set pathA v)], Run.cons ?_ rfl Run.nil⟩, by rw [hcall]; exact hstores, rfl⟩
  intro op hop
  obtain rfl := List.mem_singleton.mp hop
  exact ⟨"/a", (show DbPath.parse "/a" = .ok pathA by decide +kernel)⟩

/-- A database that is reached with a value that cannot be decoded. -/
theorem reached_great : ∃ db, Reached Command.Parsed db ∧ ¬Query.ValuesDecode db := by
  obtain ⟨b, hb⟩ : ∃ b : Bytes, b.length = 2 ^ 32 := ⟨List.replicate (2 ^ 32) 0, List.length_replicate⟩
  obtain ⟨G, next, hreached, hstores, hp⟩ := reached_set_pathA (.scalar (.bytes b))
  refine ⟨_, hreached, fun hdecode => ?_⟩
  obtain ⟨v, hv⟩ := hdecode 2 _ (hstores.get_node hp)
  rw [decode_great hb] at hv
  cases hv

end AlefsDb
