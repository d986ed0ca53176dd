import AlefsDb.Types.Canon

/-!
# Reading values back

What the readers of the codec do on the bytes that the writers produce. A payload says where it ends, so `decode_value` stops
behind it whatever follows; it returns the canonical form of the value (`decodeValue_encodeValue`).
-/

namespace AlefsDb
namespace Codec

/-! ## Readers of a cursor -/

@[simp] theorem readU8_cons (b : UInt8) (cur : Bytes) : readU8 (b :: cur) = .ok (b, cur) := rfl

/-- As many bytes as are asked for are read back. -/
theorem readSlice_append {a : Bytes} {len : Nat} (cur : Bytes) (h : a.length = len) : readSlice (a ++ cur) len = .ok (a, cur) := by
  subst h
  rw [readSlice, if_neg (by rw [List.length_append]; omega), List.take_left, List.drop_left]

/-- A number that fits its bytes is read back. -/
theorem readLe_append {w n : Nat} (cur : Bytes) (h : n < 256 ^ w) : readLe w (leBytes w n ++ cur) = .ok (n, cur) := by
  simp [readLe, readSlice_append cur (length_leBytes w n), fromLe_leBytes_of_lt h]

/-- A number of 32 bits is read back. -/
theorem readU32_append {n : Nat} (cur : Bytes) (h : n < 2 ^ 32) : readU32 (writeU32 n ++ cur) = .ok (n, cur) :=
  readLe_append cur (show n < 256 ^ 4 from h)

/-- A string whose length fits its field is read back. -/
theorem readStr_append {s : String} (cur : Bytes) (h : (utf8 s).length < 2 ^ 32) : readStr (writeStr s ++ cur) = .ok (s, cur) := by
  rw [writeStr, List.append_assoc]
  simp [readStr, readU32_append _ h, readSlice_append cur rfl]

/-! ## Scalars -/

/-- A scalar whose lengths fit is read back. -/
theorem decodeValue_scalar {s : Scalar} (fuel : Nat) (cur : Bytes) (h : s.LengthFits) :
    decodeValue (fuel + 1) (encodeScalar s ++ cur) = .ok (.scalar s, cur) := by
  unfold decodeValue
  cases s with
  | null => rfl
  | bool b => cases b <;> rfl
  | int n =>
    have hn : n.toUInt64.toNat < 256 ^ 8 := n.toUInt64.toNat_lt
    rw [encodeScalar, List.cons_append, readU8_cons, Rust.ok_bind]
    have hback : Int64.ofNat n.toUInt64.toNat = n := congrArg UInt64.toInt64 UInt64.ofNat_toNat
    simp [tagInt, tagNull, tagBool, readLe_append cur hn, hback]
  | float bits =>
    have hn : bits.toNat < 256 ^ 8 := bits.toNat_lt
    rw [encodeScalar, List.cons_append, readU8_cons, Rust.ok_bind]
    simp [tagFloat, tagInt, tagNull, tagBool, readLe_append cur hn]
  | string s =>
    rw [encodeScalar, List.cons_append, readU8_cons, Rust.ok_bind]
    simp [tagString, tagFloat, tagInt, tagNull, tagBool, readStr_append cur h]
  | bytes b =>
    rw [encodeScalar, List.cons_append, List.append_assoc, readU8_cons, Rust.ok_bind]
    simp [tagBytes, tagString, tagFloat, tagInt, tagNull, tagBool, readU32_append _ h, readSlice_append cur rfl]

theorem encodeScalar_ne_nil (s : Scalar) : encodeScalar s ≠ [] := by
  cases s <;> simp [encodeScalar]

/-- `decode_scalar_value` reads a key of a tree back. -/
theorem decodeScalarValue_append {s : Scalar} {fuel : Nat} (cur : Bytes) (h : s.LengthFits)
    (hfuel : (encodeScalar s ++ cur).length ≤ fuel) :
    decodeScalarValue (decodeValue fuel) (encodeScalar s ++ cur) = .ok (s, cur) := by
  cases fuel with
  | zero =>
    have := List.length_pos_iff.mpr (encodeScalar_ne_nil s)
    rw [List.length_append] at hfuel
    omega
  | succ fuel => simp [decodeScalarValue, decodeValue_scalar fuel cur h]

/-! ## The loops -/

/-- `decode_value` with this bound reads the payload of a value back as its canonical form. -/
def ReadsBack (fuel : Nat) (v : Value) : Prop :=
  ∀ cur, (encodeValue v ++ cur).length ≤ fuel → decodeValue fuel (encodeValue v ++ cur) = .ok (v.canon, cur)

/-- A list is read back where its items are. -/
theorem readList_append {fuel : Nat} {items : List Value} (cur : Bytes) (h : ∀ v ∈ items, ReadsBack fuel v)
    (hfuel : (items.flatMap encodeValue ++ cur).length ≤ fuel) :
    readList (decodeValue fuel) items.length (items.flatMap encodeValue ++ cur) = .ok (items.map Value.canon, cur) := by
  induction items with
  | nil => rfl
  | cons v items ih =>
    rw [List.flatMap_cons, List.append_assoc] at hfuel ⊢
    have hrest : (items.flatMap encodeValue ++ cur).length ≤ fuel := by
      rw [List.length_append] at hfuel
      omega
    rw [List.length_cons, readList, h v List.mem_cons_self _ hfuel]
    simp [ih (fun w hw => h w (List.mem_cons_of_mem _ hw)) hrest]

/-- The loop of a set, on members that are strictly ascending in their payloads and above the last one read. -/
theorem readSet_append {fuel : Nat} {members : List Value} {lastPayload : Option Bytes} (cur : Bytes)
    (h : ∀ v ∈ members, ReadsBack fuel v) (hasc : members.Pairwise (fun a b => encodePayload a < encodePayload b))
    (hlast : ∀ prev ∈ lastPayload, ∀ v ∈ members, prev < encodePayload v)
    (hfuel : (members.flatMap encodeValue ++ cur).length ≤ fuel) :
    readSet (decodeValue fuel) members.length (members.flatMap encodeValue ++ cur) lastPayload =
      .ok (members.map Value.canon, cur) := by
  induction members generalizing lastPayload with
  | nil => rfl
  | cons v members ih =>
    rw [List.flatMap_cons, List.append_assoc] at hfuel ⊢
    have hrest : (members.flatMap encodeValue ++ cur).length ≤ fuel := by
      rw [List.length_append] at hfuel
      omega
    have hpayload : encodePayload v.canon = encodePayload v := Value.encodeValue_canon v
    have habove : lastPayload.any (fun prev => decide (encodePayload v ≤ prev)) = false := by
      cases lastPayload with
      | none => rfl
      | some prev => simpa using hlast prev rfl v List.mem_cons_self
    have hlast' : ∀ prev ∈ some (encodePayload v), ∀ w ∈ members, prev < encodePayload w := by
      intro prev hprev w hw
      cases hprev
      exact List.rel_of_pairwise_cons hasc hw
    have ih := ih (fun w hw => h w (List.mem_cons_of_mem _ hw)) hasc.of_cons hlast' hrest
    rw [List.length_cons, readSet, h v List.mem_cons_self _ hfuel]
    simp [hpayload, habove, ih]

section Maps

variable {κ : Type} [LinearOrder κ] {readKey : Bytes → Rust CodecError (κ × Bytes)} {encodeKey : κ → Bytes}

/-- The loop of a hash and of a tree, on entries whose keys ascend and are above those read before. -/
theorem readMap_append {fuel : Nat} {map : List (κ × Value)} {read : List (κ × Value)} (cur : Bytes)
    (hkey : ∀ e ∈ map, ∀ cur, (encodeKey e.1 ++ cur).length ≤ fuel → readKey (encodeKey e.1 ++ cur) = .ok (e.1, cur))
    (h : ∀ e ∈ map, ReadsBack fuel e.2) (hasc : OrdMap.Ascending map) (hread : ∀ e ∈ map, ∀ e' ∈ read, e'.1 < e.1)
    (hfuel : (map.flatMap (fun e => encodeKey e.1 ++ encodeValue e.2) ++ cur).length ≤ fuel) :
    readMap readKey (decodeValue fuel) map.length (map.flatMap (fun e => encodeKey e.1 ++ encodeValue e.2) ++ cur) read =
      .ok (read ++ map.map (fun e => (e.1, e.2.canon)), cur) := by
  induction map generalizing read with
  | nil => simp [readMap]
  | cons e map ih =>
    obtain ⟨k, v⟩ := e
    rw [List.flatMap_cons, List.append_assoc, List.append_assoc] at hfuel ⊢
    dsimp only at hfuel ⊢
    have hvalue : (encodeValue v ++ (map.flatMap (fun e => encodeKey e.1 ++ encodeValue e.2) ++ cur)).length ≤ fuel := by
      rw [List.length_append] at hfuel
      omega
    have hrest : (map.flatMap (fun e => encodeKey e.1 ++ encodeValue e.2) ++ cur).length ≤ fuel := by
      rw [List.length_append] at hvalue
      omega
    have hinsert : OrdMap.insertEntry k v.canon read = read ++ [(k, v.canon)] :=
      OrdMap.insertEntry_of_lt (fun e' he' => hread (k, v) List.mem_cons_self e' he')
    have hread' : ∀ e ∈ map, ∀ e' ∈ read ++ [(k, v.canon)], e'.1 < e.1 := by
      intro e he e' he'
      rcases List.mem_append.mp he' with he' | he'
      · exact hread e (List.mem_cons_of_mem _ he) e' he'
      · rw [List.mem_singleton.mp he']
        exact List.rel_of_pairwise_cons hasc he
    have ih := ih (fun e he => hkey e (List.mem_cons_of_mem _ he)) (fun e he => h e (List.mem_cons_of_mem _ he)) hasc.of_cons
      hread' hrest
    rw [List.length_cons, readMap, hkey (k, v) List.mem_cons_self _ hfuel, Rust.ok_bind]
    dsimp only
    rw [h (k, v) List.mem_cons_self _ hvalue, Rust.ok_bind]
    simp [hinsert, ih]

end Maps

/-! ## Nested values -/

theorem decodeValue_hash (fuel : Nat) (cur : Bytes) : decodeValue (fuel + 1) (tagHash :: cur) = (do
    let (n, cur) ← readU32 cur
    let (map, cur) ← readMap readStr (decodeValue fuel) n cur []
    return (.hash map, cur)) := by
  rw [decodeValue, readU8_cons, Rust.ok_bind]
  simp [tagHash, tagBytes, tagString, tagFloat, tagInt, tagNull, tagBool]

theorem decodeValue_set (fuel : Nat) (cur : Bytes) : decodeValue (fuel + 1) (tagSet :: cur) = (do
    let (n, cur) ← readU32 cur
    let (members, cur) ← readSet (decodeValue fuel) n cur none
    return (.set members, cur)) := by
  rw [decodeValue, readU8_cons, Rust.ok_bind]
  simp [tagSet, tagHash, tagBytes, tagString, tagFloat, tagInt, tagNull, tagBool]

theorem decodeValue_list (fuel : Nat) (cur : Bytes) : decodeValue (fuel + 1) (tagList :: cur) = (do
    let (n, cur) ← readU32 cur
    let (items, cur) ← readList (decodeValue fuel) n cur
    return (.list items, cur)) := by
  rw [decodeValue, readU8_cons, Rust.ok_bind]
  simp [tagList, tagSet, tagHash, tagBytes, tagString, tagFloat, tagInt, tagNull, tagBool]

theorem decodeValue_tree (fuel : Nat) (cur : Bytes) : decodeValue (fuel + 1) (tagTree :: cur) = (do
    let (n, cur) ← readU32 cur
    let (map, cur) ← readMap (decodeScalarValue (decodeValue fuel)) (decodeValue fuel) n cur []
    return (.tree map, cur)) := by
  rw [decodeValue, readU8_cons, Rust.ok_bind]
  simp [tagTree, tagList, tagSet, tagHash, tagBytes, tagString, tagFloat, tagInt, tagNull, tagBool]

theorem encodeValue_ne_nil (v : Value) : encodeValue v ≠ [] := by
  cases v <;> simp [encodeValue, encodeScalar_ne_nil]

/-- What is left behind a tag and a number of nested payloads. -/
theorem length_inside {tag : UInt8} {n fuel : Nat} {inside cur : Bytes}
    (h : (tag :: (writeU32 n ++ inside) ++ cur).length ≤ fuel + 1) : (inside ++ cur).length ≤ fuel := by
  simp only [List.cons_append, List.length_cons, List.length_append] at h ⊢
  omega

/-- The payload of a value, in front of any bytes, is read back as the canonical form of the value. -/
theorem decodeValue_encodeValue {v : Value} (ho : v.Ordered) (hs : v.Small) (fuel : Nat) : ReadsBack fuel v := by
  induction v using Value.nestedInduction generalizing fuel with
  | h v ih =>
    intro cur hfuel
    have ih : ∀ w ∈ v.children, ∀ fuel, ReadsBack fuel w := fun w hw => ih w hw (ho.inside hw) (hs.inside hw)
    cases fuel with
    | zero =>
      have := List.length_pos_iff.mpr (encodeValue_ne_nil v)
      rw [List.length_append] at hfuel
      omega
    | succ fuel =>
      have hlengths := hs.here
      cases v with
      | scalar s => exact decodeValue_scalar fuel cur hlengths
      | hash map =>
        obtain ⟨hn, hkeys⟩ := hlengths
        rw [encodeValue, encodeHash_eq] at hfuel ⊢
        have hloop : readMap readStr (decodeValue fuel) map.length (map.flatMap hashEntry ++ cur) [] =
            .ok (map.map (fun e => (e.1, e.2.canon)), cur) :=
          readMap_append cur (fun e he cur _ => readStr_append cur (hkeys e he))
            (fun e he => ih e.2 (List.mem_map_of_mem he) fuel) ho.here (fun _ _ _ h => absurd h List.not_mem_nil)
            (length_inside hfuel)
        rw [List.cons_append, List.append_assoc, decodeValue_hash, readU32_append _ hn]
        simp [hloop, Value.canon, Value.canonHash_eq]
      | set members =>
        have hsorted : sortDedup id (encodePayloads members) = (sortDedup encodePayload members).map encodeValue :=
          sortDedup_encodePayloads members
        have hn : (sortDedup encodePayload members).length < 2 ^ 32 :=
          lt_of_le_of_lt (length_sortDedup_le _ _) hlengths
        have hcanon : (sortDedup encodePayload members).map Value.canon =
            sortDedup encodePayload (Value.canonList members) := by
          rw [Value.canonList_eq]
          exact map_sortDedup (fun v _ => Value.encodeValue_canon v)
        simp only [encodeValue, hsorted, List.length_map, ← List.flatMap_def] at hfuel ⊢
        have hloop : readSet (decodeValue fuel) (sortDedup encodePayload members).length
            ((sortDedup encodePayload members).flatMap encodeValue ++ cur) none =
            .ok ((sortDedup encodePayload members).map Value.canon, cur) :=
          readSet_append cur (fun w hw => ih w (mem_of_mem_sortDedup hw) fuel) (sortDedup_ascending _ _)
            (fun _ h => absurd h (Option.not_mem_none _)) (length_inside hfuel)
        rw [List.cons_append, List.append_assoc, decodeValue_set, readU32_append _ hn]
        simp [hloop, Value.canon, hcanon]
      | list items =>
        rw [encodeValue, encodePayloads_eq, ← List.flatMap_def] at hfuel ⊢
        have hloop : readList (decodeValue fuel) items.length (items.flatMap encodeValue ++ cur) =
            .ok (items.map Value.canon, cur) :=
          readList_append cur (fun w hw => ih w hw fuel) (length_inside hfuel)
        rw [List.cons_append, List.append_assoc, decodeValue_list, readU32_append _ hlengths]
        simp [hloop, Value.canon, Value.canonList_eq]
      | tree map =>
        obtain ⟨hn, hkeys⟩ := hlengths
        rw [encodeValue, encodeTree_eq] at hfuel ⊢
        have hloop : readMap (decodeScalarValue (decodeValue fuel)) (decodeValue fuel) map.length
            (map.flatMap treeEntry ++ cur) [] = .ok (map.map (fun e => (e.1, e.2.canon)), cur) :=
          readMap_append cur (fun e he cur hle => decodeScalarValue_append cur (hkeys e he) hle)
            (fun e he => ih e.2 (List.mem_map_of_mem he) fuel) ho.here (fun _ _ _ h => absurd h List.not_mem_nil)
            (length_inside hfuel)
        rw [List.cons_append, List.append_assoc, decodeValue_tree, readU32_append _ hn]
        simp [hloop, Value.canon, Value.canonTree_eq]

/-- Decoding what a value is encoded to gives its canonical form. -/
theorem decode_encode {v : Value} (ho : v.Ordered) (hs : v.Small) : decode (encode v) = .ok v.canon := by
  have h := decodeValue_encodeValue ho hs (encodeValue v).length [] (by rw [List.append_nil])
  rw [List.append_nil] at h
  simp [decode, encode, h]

/-- Decoding what a value is encoded to gives its canonical form, when the lengths in that are small. -/
theorem decode_encode_of_canon {v : Value} (ho : v.Ordered) (hs : v.canon.Small) : decode (encode v) = .ok v.canon := by
  have h : encode v = encode v.canon := by rw [encode, encode, Value.encodeValue_canon]
  rw [h, decode_encode ho.canon hs, Value.canon_canon]

/-! ## Type names -/

theorem decodeValue_string (fuel : Nat) (cur : Bytes) : decodeValue (fuel + 1) (tagString :: cur) = (do
    let (s, cur) ← readStr cur
    return (.scalar (.string s), cur)) := by
  rw [decodeValue, readU8_cons, Rust.ok_bind]
  simp [tagString, tagFloat, tagInt, tagNull, tagBool]

theorem decodeValue_bytes (fuel : Nat) (cur : Bytes) : decodeValue (fuel + 1) (tagBytes :: cur) = (do
    let (len, cur) ← readU32 cur
    let (data, cur) ← readSlice cur len
    return (.scalar (.bytes data), cur)) := by
  rw [decodeValue, readU8_cons, Rust.ok_bind]
  simp [tagBytes, tagString, tagFloat, tagInt, tagNull, tagBool]

/-- The type name of what is read is that of what was written: the tag tells it. -/
theorem typename_of_decodeValue {v w : Value} {fuel : Nat} {cur rest : Bytes}
    (h : decodeValue fuel (encodeValue v ++ cur) = .ok (w, rest)) : w.typename = v.typename := by
  cases fuel with
  | zero => cases h
  | succ fuel =>
    cases v with
    | scalar s =>
      have hfits : s.LengthFits → w.typename = (Value.scalar s).typename := by
        intro hs
        rw [encodeValue, decodeValue_scalar fuel cur hs] at h
        cases h
        rfl
      cases s with
      | string s =>
        rw [encodeValue, encodeScalar, List.cons_append, decodeValue_string] at h
        obtain ⟨x, -, h⟩ := Rust.bind_eq_ok.mp h
        cases h
        rfl
      | bytes b =>
        rw [encodeValue, encodeScalar, List.cons_append, decodeValue_bytes] at h
        obtain ⟨x, -, h⟩ := Rust.bind_eq_ok.mp h
        obtain ⟨y, -, h⟩ := Rust.bind_eq_ok.mp h
        cases h
        rfl
      | null | bool b | int n | float bits => exact hfits trivial
    | hash map =>
      rw [encodeValue, List.cons_append, decodeValue_hash] at h
      obtain ⟨x, -, h⟩ := Rust.bind_eq_ok.mp h
      obtain ⟨y, -, h⟩ := Rust.bind_eq_ok.mp h
      cases h
      rfl
    | set members =>
      rw [encodeValue, List.cons_append, decodeValue_set] at h
      obtain ⟨x, -, h⟩ := Rust.bind_eq_ok.mp h
      obtain ⟨y, -, h⟩ := Rust.bind_eq_ok.mp h
      cases h
      rfl
    | list items =>
      rw [encodeValue, List.cons_append, decodeValue_list] at h
      obtain ⟨x, -, h⟩ := Rust.bind_eq_ok.mp h
      obtain ⟨y, -, h⟩ := Rust.bind_eq_ok.mp h
      cases h
      rfl
    | tree map =>
      rw [encodeValue, List.cons_append, decodeValue_tree] at h
      obtain ⟨x, -, h⟩ := Rust.bind_eq_ok.mp h
      obtain ⟨y, -, h⟩ := Rust.bind_eq_ok.mp h
      cases h
      rfl

/-- A value that is read back has its type. -/
theorem typename_of_decode {v w : Value} (h : decode (encode v) = .ok w) : w.typename = v.typename := by
  have hversion : ¬codecVersion ≠ codecVersion := fun h => h rfl
  rw [encode, decode, if_neg hversion] at h
  obtain ⟨⟨w', rest⟩, hw, h⟩ := Rust.bind_eq_ok.mp h
  dsimp only at h
  split at h
  · cases h
  · cases h
    rw [← List.append_nil (encodeValue v)] at hw
    exact typename_of_decodeValue hw

end Codec
end AlefsDb
