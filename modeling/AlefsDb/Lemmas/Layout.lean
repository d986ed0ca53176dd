import AlefsDb.Lemmas.CodecFormat

/-!
# What decode accepts

The layout of a value is its payload with the entries of maps and the members of sets in the order in which they stand. What
`decode_value` returns is well-formed whatever the bytes (`decodeValue_wellRead`): maps in key order, sets strictly ascending in
their payloads. On the layout of a value whose maps are in key order it returns that value, or fails (`decodeValue_layout`).
-/

namespace AlefsDb
namespace Codec

/-! ## Layouts -/

mutual

/-- The payload of a value with everything in the order in which it stands. -/
def layout : Value → Bytes
  | .scalar s => encodeScalar s
  | .hash map => tagHash :: (writeU32 map.length ++ layoutHash map)
  | .set members => tagSet :: (writeU32 members.length ++ layoutList members)
  | .list items => tagList :: (writeU32 items.length ++ layoutList items)
  | .tree map => tagTree :: (writeU32 map.length ++ layoutTree map)

def layoutList : List Value → Bytes
  | [] => []
  | v :: vs => layout v ++ layoutList vs

def layoutHash : List (String × Value) → Bytes
  | [] => []
  | (k, v) :: map => writeStr k ++ layout v ++ layoutHash map

def layoutTree : List (Scalar × Value) → Bytes
  | [] => []
  | (k, v) :: map => encodeScalar k ++ layout v ++ layoutTree map

end

theorem layoutList_eq (vs : List Value) : layoutList vs = vs.flatMap layout := by
  induction vs with
  | nil => rfl
  | cons v vs ih => rw [layoutList, ih, List.flatMap_cons]

theorem layoutHash_eq (map : List (String × Value)) : layoutHash map = map.flatMap (fun e => writeStr e.1 ++ layout e.2) := by
  induction map with
  | nil => rfl
  | cons e map ih => rw [layoutHash, ih, List.flatMap_cons]

theorem layoutTree_eq (map : List (Scalar × Value)) : layoutTree map = map.flatMap (fun e => encodeScalar e.1 ++ layout e.2) := by
  induction map with
  | nil => rfl
  | cons e map ih => rw [layoutTree, ih, List.flatMap_cons]

theorem layout_ne_nil (v : Value) : layout v ≠ [] := by
  cases v <;> simp [layout, encodeScalar_ne_nil]

/-- The members of an outermost set are strictly ascending in their payloads. -/
def MembersAscending : Value → Prop
  | .set members => members.Pairwise (fun a b => encodePayload a < encodePayload b)
  | _ => True

/-- Where all sets are ascending, the layout is the encoding. -/
theorem layout_eq_encodeValue {v : Value} (h : Value.Everywhere MembersAscending v) : layout v = encodeValue v := by
  induction v using Value.nestedInduction with
  | h v ih =>
    have ih : ∀ w ∈ v.children, layout w = encodeValue w := fun w hw => ih w hw (h.inside hw)
    cases v with
    | scalar s => rfl
    | hash map =>
      rw [layout, encodeValue, layoutHash_eq, encodeHash_eq]
      congr 2
      exact List.flatMap_congr (fun e he => by rw [ih e.2 (List.mem_map_of_mem he), hashEntry])
    | set members =>
      have hsorted : sortDedup id (encodePayloads members) = members.map encodeValue := by
        rw [sortDedup_encodePayloads, sortDedup_eq_self h.here]
      rw [layout, encodeValue, hsorted, layoutList_eq, List.length_map, ← List.flatMap_def]
      congr 2
      exact List.flatMap_congr ih
    | list items =>
      rw [layout, encodeValue, layoutList_eq, encodePayloads_eq, ← List.flatMap_def]
      congr 2
      exact List.flatMap_congr ih
    | tree map =>
      rw [layout, encodeValue, layoutTree_eq, encodeTree_eq]
      congr 2
      exact List.flatMap_congr (fun e he => by rw [ih e.2 (List.mem_map_of_mem he), treeEntry])

/-- In a canonical value all sets are ascending. -/
theorem membersAscending_canon (v : Value) : Value.Everywhere MembersAscending v.canon := by
  induction v using Value.nestedInduction with
  | h v ih =>
    refine .intro _ ?_ (fun w hw => ?_)
    · cases v with
      | scalar | hash | list | tree => trivial
      | set members => exact sortDedup_ascending _ _
    · obtain ⟨u, hu, rfl⟩ := Value.exists_of_mem_children_canon hw
      exact ih u hu

/-! ## Short payloads -/

/-- The lengths in a scalar fit where that of its encoding does. -/
theorem lengthFits_of_encodeScalar {s : Scalar} (h : (encodeScalar s).length < 2 ^ 32) : s.LengthFits := by
  cases s with
  | string s =>
    rw [encodeScalar, writeStr, List.length_cons, List.length_append] at h
    exact (by omega : (utf8 s).length < 2 ^ 32)
  | bytes b =>
    rw [encodeScalar, List.length_cons, List.length_append] at h
    exact (by omega : b.length < 2 ^ 32)
  | null | bool | int | float => trivial

/-- What is put one after the other has at least the length of each, and one byte for each that is not empty. -/
theorem length_flatMap_bounds {α : Type} (f : α → Bytes) (hf : ∀ a, f a ≠ []) (l : List α) :
    l.length ≤ (l.flatMap f).length ∧ ∀ a ∈ l, (f a).length ≤ (l.flatMap f).length := by
  induction l with
  | nil => simp
  | cons a l ih =>
    have hpos : 0 < (f a).length := List.length_pos_iff.mpr (hf a)
    rw [List.flatMap_cons, List.length_cons, List.length_append]
    refine ⟨by omega, fun b hb => ?_⟩
    rcases List.mem_cons.mp hb with rfl | hb
    · omega
    · have := ih.2 b hb
      omega

/-- A value with a layout below `2 ^ 32` has no length from there on. -/
theorem small_of_layout {v : Value} (h : (layout v).length < 2 ^ 32) : v.Small := by
  induction v using Value.nestedInduction with
  | h v ih =>
    cases v with
    | scalar s => exact Value.everywhere_scalar (lengthFits_of_encodeScalar h)
    | hash map =>
      have hbounds := length_flatMap_bounds (fun e : String × Value => writeStr e.1 ++ layout e.2)
        (fun e => by simp [layout_ne_nil]) map
      rw [layout, layoutHash_eq, List.length_cons, List.length_append] at h
      have hentry : ∀ e ∈ map, (utf8 e.1).length < 2 ^ 32 ∧ (layout e.2).length < 2 ^ 32 := by
        intro e he
        have := hbounds.2 e he
        rw [writeStr, List.length_append, List.length_append] at this
        omega
      refine .intro _ ⟨by omega, fun e he => (hentry e he).1⟩ (fun w hw => ?_)
      obtain ⟨e, he, rfl⟩ := List.mem_map.mp hw
      exact ih _ hw (hentry e he).2
    | set members =>
      have hbounds := length_flatMap_bounds layout layout_ne_nil members
      rw [layout, layoutList_eq, List.length_cons, List.length_append] at h
      exact .intro _ (by show members.length < 2 ^ 32; omega) (fun w hw => ih w hw (by have := hbounds.2 w hw; omega))
    | list items =>
      have hbounds := length_flatMap_bounds layout layout_ne_nil items
      rw [layout, layoutList_eq, List.length_cons, List.length_append] at h
      exact .intro _ (by show items.length < 2 ^ 32; omega) (fun w hw => ih w hw (by have := hbounds.2 w hw; omega))
    | tree map =>
      have hbounds := length_flatMap_bounds (fun e : Scalar × Value => encodeScalar e.1 ++ layout e.2)
        (fun e => by simp [layout_ne_nil]) map
      rw [layout, layoutTree_eq, List.length_cons, List.length_append] at h
      have hentry : ∀ e ∈ map, (encodeScalar e.1).length < 2 ^ 32 ∧ (layout e.2).length < 2 ^ 32 := by
        intro e he
        have := hbounds.2 e he
        rw [List.length_append] at this
        omega
      refine .intro _ ⟨by omega, fun e he => lengthFits_of_encodeScalar (hentry e he).1⟩ (fun w hw => ?_)
      obtain ⟨e, he, rfl⟩ := List.mem_map.mp hw
      exact ih _ hw (hentry e he).2

/-- A value with a payload below `2 ^ 32` has a canonical form with no length from there on. -/
theorem small_canon_of_payload {v : Value} (h : (encodePayload v).length < 2 ^ 32) : v.canon.Small := by
  refine small_of_layout ?_
  rwa [layout_eq_encodeValue (membersAscending_canon v), Value.encodeValue_canon]

/-! ## What is read is well-formed -/

/-- The maps of a value are in key order, its lengths fit and its sets are strictly ascending. -/
structure WellRead (v : Value) : Prop where
  ordered : v.Ordered
  small : v.Small
  members : Value.Everywhere MembersAscending v

theorem wellRead_scalar {s : Scalar} (h : s.LengthFits) : WellRead (.scalar s) where
  ordered := Value.everywhere_scalar trivial
  small := Value.everywhere_scalar h
  members := Value.everywhere_scalar trivial

/-- A value is well-formed when it is so outermost and the values directly inside are. -/
theorem WellRead.intro {v : Value} (hkeys : v.KeysAscending) (hlengths : v.LengthsFit) (hmembers : MembersAscending v)
    (h : ∀ w ∈ v.children, WellRead w) : WellRead v where
  ordered := .intro v hkeys (fun w hw => (h w hw).ordered)
  small := .intro v hlengths (fun w hw => (h w hw).small)
  members := .intro v hmembers (fun w hw => (h w hw).members)

/-- As many bytes are read as are asked for. -/
theorem readSlice_eq_ok {cur : Bytes} {len : Nat} {r : Bytes × Bytes} (h : readSlice cur len = .ok r) : r.1.length = len := by
  unfold readSlice at h
  split at h
  · exact absurd h (Rust.err_ne_ok _ _)
  · cases h
    rw [List.length_take]
    omega

theorem readU32_lt {cur : Bytes} {r : Nat × Bytes} (h : readU32 cur = .ok r) : r.1 < 2 ^ 32 := by
  obtain ⟨⟨a, cur'⟩, ha, h⟩ := Rust.bind_eq_ok.mp h
  cases h
  have hlt := fromLe_lt a
  rwa [show a.length = 4 from readSlice_eq_ok ha] at hlt

/-- Every result of a reader has the property. -/
def Gives {α : Type} (read : Bytes → Rust CodecError (α × Bytes)) (P : α → Prop) : Prop := ∀ cur r, read cur = .ok r → P r.1

/-- A string that is read has a length that fits its field. -/
theorem readStr_gives : Gives readStr (fun s => (utf8 s).length < 2 ^ 32) := by
  intro cur r h
  obtain ⟨⟨len, c₁⟩, hlen, h⟩ := Rust.bind_eq_ok.mp h
  obtain ⟨⟨bytes, c₂⟩, hbytes, h⟩ := Rust.bind_eq_ok.mp h
  obtain ⟨s, hs, h⟩ := Rust.bind_eq_ok.mp h
  cases h
  have hutf8 := utf8_of_fromUtf8 (Rust.okOr_eq_ok.mp hs)
  rw [← hutf8]
  exact lt_of_eq_of_lt (readSlice_eq_ok hbytes) (readU32_lt hlen)

section Loops

variable {readValue : Bytes → Rust CodecError (Value × Bytes)} {P : Value → Prop}

/-- As many items are read as are asked for, each as the reader of items gives them. -/
theorem readList_gives (hv : Gives readValue P) {n : Nat} {cur : Bytes} {r : List Value × Bytes}
    (h : readList readValue n cur = .ok r) : r.1.length = n ∧ ∀ v ∈ r.1, P v := by
  induction n generalizing cur r with
  | zero =>
    cases h
    exact ⟨rfl, by simp⟩
  | succ n ih =>
    obtain ⟨⟨v, c₁⟩, hread, h⟩ := Rust.bind_eq_ok.mp h
    obtain ⟨⟨items, c₂⟩, hitems, h⟩ := Rust.bind_eq_ok.mp h
    cases h
    obtain ⟨hlen, hall⟩ := ih hitems
    refine ⟨by simp [hlen], ?_⟩
    intro w hw
    rcases List.mem_cons.mp hw with rfl | hw
    · exact hv _ _ hread
    · exact hall w hw

/-- As many members are read as are asked for, in the ascending order of their encodings. -/
theorem readSet_gives (hv : Gives readValue P) {n : Nat} {cur : Bytes} {last : Option Bytes} {r : List Value × Bytes}
    (h : readSet readValue n cur last = .ok r) :
    r.1.length = n ∧ (∀ v ∈ r.1, P v) ∧ MembersAscending (.set r.1) ∧ ∀ prev ∈ last, ∀ v ∈ r.1, prev < encodePayload v := by
  induction n generalizing cur last r with
  | zero =>
    cases h
    exact ⟨rfl, by simp, List.Pairwise.nil, by simp⟩
  | succ n ih =>
    obtain ⟨⟨v, c₁⟩, hread, h⟩ := Rust.bind_eq_ok.mp h
    dsimp only at h
    split at h
    · exact absurd h (Rust.err_ne_ok _ _)
    · rename_i hbelow
      obtain ⟨⟨members, c₂⟩, hmembers, h⟩ := Rust.bind_eq_ok.mp h
      cases h
      obtain ⟨hlen, hall, hasc, habove⟩ := ih hmembers
      have hprev : ∀ prev ∈ last, prev < encodePayload v := by
        intro prev hprev
        rw [Option.mem_def.mp hprev] at hbelow
        simpa using hbelow
      refine ⟨by simp [hlen], ?_, List.Pairwise.cons (habove _ rfl) hasc, ?_⟩
      · intro w hw
        rcases List.mem_cons.mp hw with rfl | hw
        · exact hv _ _ hread
        · exact hall w hw
      · intro prev hp w hw
        rcases List.mem_cons.mp hw with rfl | hw
        · exact hprev prev hp
        · exact (hprev prev hp).trans (habove _ rfl w hw)

/-- As many entries are read as are asked for, in the ascending order of their keys. -/
theorem readMap_gives {κ : Type} [LinearOrder κ] {readKey : Bytes → Rust CodecError (κ × Bytes)} {K : κ → Prop}
    (hk : Gives readKey K) (hv : Gives readValue P) {n : Nat} {cur : Bytes} {map : List (κ × Value)}
    {r : List (κ × Value) × Bytes} (hasc : OrdMap.Ascending map) (hmap : ∀ e ∈ map, K e.1 ∧ P e.2)
    (h : readMap readKey readValue n cur map = .ok r) :
    r.1.length ≤ map.length + n ∧ OrdMap.Ascending r.1 ∧ ∀ e ∈ r.1, K e.1 ∧ P e.2 := by
  induction n generalizing cur map with
  | zero =>
    cases h
    exact ⟨Nat.le_refl _, hasc, hmap⟩
  | succ n ih =>
    obtain ⟨⟨k, c₁⟩, hkey, h⟩ := Rust.bind_eq_ok.mp h
    obtain ⟨⟨v, c₂⟩, hread, h⟩ := Rust.bind_eq_ok.mp h
    have hmap' : ∀ e ∈ OrdMap.insertEntry k v map, K e.1 ∧ P e.2 := by
      intro e he
      rcases OrdMap.mem_insertEntry he with rfl | he
      · exact ⟨hk _ _ hkey, hv _ _ hread⟩
      · exact hmap e he
    obtain ⟨hlen, hasc', hall⟩ := ih (hasc.insertEntry k v) hmap' h
    have := OrdMap.length_insertEntry_le k v map
    exact ⟨by omega, hasc', hall⟩

/-- A key that is read is a scalar. -/
theorem decodeScalarValue_gives {K : Scalar → Prop} (hv : Gives readValue P) (hP : ∀ s, P (.scalar s) → K s) :
    Gives (decodeScalarValue readValue) K := by
  intro cur r h
  obtain ⟨⟨v, c₁⟩, hread, h⟩ := Rust.bind_eq_ok.mp h
  dsimp only at h
  split at h
  · cases h
    exact hP _ (hv _ _ hread)
  · exact absurd h (Rust.err_ne_ok _ _)

end Loops

/-- A map that is read, with its keys and values, is well-formed. -/
theorem map_wellRead {κ : Type} [LinearOrder κ] {readKey : Bytes → Rust CodecError (κ × Bytes)} {K : κ → Prop} {fuel n : Nat}
    {c c₁ : Bytes} {r : List (κ × Value) × Bytes} (hn : readU32 c = .ok (n, c₁)) (hk : Gives readKey K)
    (hv : Gives (decodeValue fuel) WellRead) (h : readMap readKey (decodeValue fuel) n c₁ [] = .ok r) :
    OrdMap.Ascending r.1 ∧ (r.1.length < 2 ^ 32 ∧ ∀ e ∈ r.1, K e.1) ∧ ∀ w ∈ r.1.map Prod.snd, WellRead w := by
  obtain ⟨hlen, hasc, hall⟩ := readMap_gives hk hv List.Pairwise.nil (by simp) h
  refine ⟨hasc, ⟨lt_of_le_of_lt (by simpa using hlen) (readU32_lt hn), fun e he => (hall e he).1⟩, ?_⟩
  intro w hw
  obtain ⟨e, he, rfl⟩ := List.mem_map.mp hw
  exact (hall e he).2

/-- What `decode_value` returns is well-formed. -/
theorem decodeValue_wellRead (fuel : Nat) : Gives (decodeValue fuel) WellRead := by
  induction fuel with
  | zero =>
    intro cur r h
    exact absurd h (Rust.err_ne_ok _ _)
  | succ fuel ih =>
    intro cur r h
    -- one case for each tag, in the order of the source
    obtain ⟨⟨tag, c⟩, -, h⟩ := Rust.bind_eq_ok.mp h
    rcases Rust.ite_eq_ok h with ⟨-, h⟩ | ⟨-, h⟩
    · cases h
      exact wellRead_scalar trivial
    rcases Rust.ite_eq_ok h with ⟨-, h⟩ | ⟨-, h⟩
    · obtain ⟨⟨b, c₁⟩, -, h⟩ := Rust.bind_eq_ok.mp h
      rcases Rust.ite_eq_ok h with ⟨-, h⟩ | ⟨-, h⟩
      · cases h
        exact wellRead_scalar trivial
      rcases Rust.ite_eq_ok h with ⟨-, h⟩ | ⟨-, h⟩
      · cases h
        exact wellRead_scalar trivial
      · exact absurd h (Rust.err_ne_ok _ _)
    rcases Rust.ite_eq_ok h with ⟨-, h⟩ | ⟨-, h⟩
    · obtain ⟨⟨n, c₁⟩, -, h⟩ := Rust.bind_eq_ok.mp h
      cases h
      exact wellRead_scalar trivial
    rcases Rust.ite_eq_ok h with ⟨-, h⟩ | ⟨-, h⟩
    · obtain ⟨⟨bits, c₁⟩, -, h⟩ := Rust.bind_eq_ok.mp h
      cases h
      exact wellRead_scalar trivial
    rcases Rust.ite_eq_ok h with ⟨-, h⟩ | ⟨-, h⟩
    · obtain ⟨⟨s, c₁⟩, hs, h⟩ := Rust.bind_eq_ok.mp h
      cases h
      exact wellRead_scalar (readStr_gives _ _ hs)
    rcases Rust.ite_eq_ok h with ⟨-, h⟩ | ⟨-, h⟩
    · obtain ⟨⟨len, c₁⟩, hlen, h⟩ := Rust.bind_eq_ok.mp h
      obtain ⟨⟨data, c₂⟩, hdata, h⟩ := Rust.bind_eq_ok.mp h
      cases h
      exact wellRead_scalar (lt_of_eq_of_lt (readSlice_eq_ok hdata) (readU32_lt hlen))
    rcases Rust.ite_eq_ok h with ⟨-, h⟩ | ⟨-, h⟩
    · obtain ⟨⟨n, c₁⟩, hn, h⟩ := Rust.bind_eq_ok.mp h
      obtain ⟨⟨map, c₂⟩, hmap, h⟩ := Rust.bind_eq_ok.mp h
      cases h
      obtain ⟨hasc, hlengths, hinside⟩ := map_wellRead hn readStr_gives ih hmap
      exact .intro hasc hlengths trivial hinside
    rcases Rust.ite_eq_ok h with ⟨-, h⟩ | ⟨-, h⟩
    · obtain ⟨⟨n, c₁⟩, hn, h⟩ := Rust.bind_eq_ok.mp h
      obtain ⟨⟨members, c₂⟩, hmembers, h⟩ := Rust.bind_eq_ok.mp h
      cases h
      obtain ⟨hlen, hall, hasc, -⟩ := readSet_gives ih hmembers
      exact .intro trivial (lt_of_eq_of_lt hlen (readU32_lt hn)) hasc hall
    rcases Rust.ite_eq_ok h with ⟨-, h⟩ | ⟨-, h⟩
    · obtain ⟨⟨n, c₁⟩, hn, h⟩ := Rust.bind_eq_ok.mp h
      obtain ⟨⟨items, c₂⟩, hitems, h⟩ := Rust.bind_eq_ok.mp h
      cases h
      obtain ⟨hlen, hall⟩ := readList_gives ih hitems
      exact .intro trivial (lt_of_eq_of_lt hlen (readU32_lt hn)) trivial hall
    rcases Rust.ite_eq_ok h with ⟨-, h⟩ | ⟨-, h⟩
    · obtain ⟨⟨n, c₁⟩, hn, h⟩ := Rust.bind_eq_ok.mp h
      obtain ⟨⟨map, c₂⟩, hmap, h⟩ := Rust.bind_eq_ok.mp h
      cases h
      obtain ⟨hasc, hlengths, hinside⟩ := map_wellRead hn (decodeScalarValue_gives ih (fun s h => h.small.here)) ih hmap
      exact .intro hasc hlengths trivial hinside
    · exact absurd h (Rust.err_ne_ok _ _)

/-! ## What layouts are read as -/

/-- `decode_value` with this bound reads the layout of a value as that value, or fails. -/
def LaidOut (fuel : Nat) (v : Value) : Prop :=
  ∀ cur, (layout v ++ cur).length ≤ fuel → ∀ r, decodeValue fuel (layout v ++ cur) = .ok r → r = (v, cur)

/-- A list that is read is laid out in the bytes that it has been read from. -/
theorem readList_layout {fuel : Nat} {items : List Value} {cur : Bytes} {r : List Value × Bytes}
    (hv : ∀ v ∈ items, LaidOut fuel v) (hfuel : (items.flatMap layout ++ cur).length ≤ fuel)
    (h : readList (decodeValue fuel) items.length (items.flatMap layout ++ cur) = .ok r) : r = (items, cur) := by
  induction items generalizing r with
  | nil =>
    cases h
    rfl
  | cons v items ih =>
    rw [List.flatMap_cons, List.append_assoc] at hfuel h
    have hrest : (items.flatMap layout ++ cur).length ≤ fuel := by
      rw [List.length_append] at hfuel
      omega
    obtain ⟨⟨w, c₁⟩, hread, h⟩ := Rust.bind_eq_ok.mp h
    cases hv v List.mem_cons_self _ hfuel _ hread
    obtain ⟨⟨ws, c₂⟩, hitems, h⟩ := Rust.bind_eq_ok.mp h
    cases ih (fun w hw => hv w (List.mem_cons_of_mem _ hw)) hrest hitems
    cases h
    rfl

/-- A set that is read is laid out in the bytes that it has been read from. -/
theorem readSet_layout {fuel : Nat} {members : List Value} {cur : Bytes} {last : Option Bytes} {r : List Value × Bytes}
    (hv : ∀ v ∈ members, LaidOut fuel v) (hfuel : (members.flatMap layout ++ cur).length ≤ fuel)
    (h : readSet (decodeValue fuel) members.length (members.flatMap layout ++ cur) last = .ok r) : r = (members, cur) := by
  induction members generalizing last r with
  | nil =>
    cases h
    rfl
  | cons v members ih =>
    rw [List.flatMap_cons, List.append_assoc] at hfuel h
    have hrest : (members.flatMap layout ++ cur).length ≤ fuel := by
      rw [List.length_append] at hfuel
      omega
    obtain ⟨⟨w, c₁⟩, hread, h⟩ := Rust.bind_eq_ok.mp h
    cases hv v List.mem_cons_self _ hfuel _ hread
    rcases Rust.ite_eq_ok h with ⟨-, h⟩ | ⟨-, h⟩
    · exact absurd h (Rust.err_ne_ok _ _)
    · obtain ⟨⟨ws, c₂⟩, hmembers, h⟩ := Rust.bind_eq_ok.mp h
      cases ih (fun w hw => hv w (List.mem_cons_of_mem _ hw)) hrest hmembers
      cases h
      rfl

/-- A map that is read is laid out in the bytes that it has been read from. -/
theorem readMap_layout {κ : Type} [LinearOrder κ] {readKey : Bytes → Rust CodecError (κ × Bytes)} {encodeKey : κ → Bytes}
    {fuel : Nat} {map read : List (κ × Value)} {cur : Bytes} {r : List (κ × Value) × Bytes}
    (hkey : ∀ e ∈ map, ∀ cur, (encodeKey e.1 ++ cur).length ≤ fuel → readKey (encodeKey e.1 ++ cur) = .ok (e.1, cur))
    (hv : ∀ e ∈ map, LaidOut fuel e.2) (hasc : OrdMap.Ascending map) (hread : ∀ e ∈ map, ∀ e' ∈ read, e'.1 < e.1)
    (hfuel : (map.flatMap (fun e => encodeKey e.1 ++ layout e.2) ++ cur).length ≤ fuel)
    (h : readMap readKey (decodeValue fuel) map.length (map.flatMap (fun e => encodeKey e.1 ++ layout e.2) ++ cur) read = .ok r) :
    r = (read ++ map, cur) := by
  induction map generalizing read with
  | nil =>
    cases h
    simp
  | cons e map ih =>
    obtain ⟨k, v⟩ := e
    rw [List.flatMap_cons, List.append_assoc, List.append_assoc] at hfuel h
    dsimp only at hfuel h
    have hvalue : (layout v ++ (map.flatMap (fun e => encodeKey e.1 ++ layout e.2) ++ cur)).length ≤ fuel := by
      rw [List.length_append] at hfuel
      omega
    have hrest : (map.flatMap (fun e => encodeKey e.1 ++ layout e.2) ++ cur).length ≤ fuel := by
      rw [List.length_append] at hvalue
      omega
    have hinsert : OrdMap.insertEntry k v read = read ++ [(k, v)] :=
      OrdMap.insertEntry_of_lt (fun e' he' => hread (k, v) List.mem_cons_self e' he')
    have hread' : ∀ e ∈ map, ∀ e' ∈ read ++ [(k, v)], e'.1 < e.1 := by
      intro e he e' he'
      rcases List.mem_append.mp he' with he' | he'
      · exact hread e (List.mem_cons_of_mem _ he) e' he'
      · rw [List.mem_singleton.mp he']
        exact List.rel_of_pairwise_cons hasc he
    rw [List.length_cons, readMap, hkey (k, v) List.mem_cons_self _ hfuel, Rust.ok_bind] at h
    obtain ⟨⟨w, c₂⟩, hw, h⟩ := Rust.bind_eq_ok.mp h
    cases hv (k, v) List.mem_cons_self _ hvalue _ hw
    dsimp only at h
    rw [hinsert] at h
    rw [ih (fun e he => hkey e (List.mem_cons_of_mem _ he)) (fun e he => hv e (List.mem_cons_of_mem _ he)) hasc.of_cons hread'
      hrest h, List.append_assoc, List.singleton_append]

/-- The layout of a value whose maps are in key order is read as that value, or not at all. -/
theorem decodeValue_layout {v : Value} (ho : v.Ordered) (hs : v.Small) (fuel : Nat) : LaidOut fuel v := by
  induction v using Value.nestedInduction generalizing fuel with
  | h v ih =>
    intro cur hfuel r h
    have ih : ∀ w ∈ v.children, ∀ fuel, LaidOut fuel w := fun w hw => ih w hw (ho.inside hw) (hs.inside hw)
    cases fuel with
    | zero =>
      have := List.length_pos_iff.mpr (layout_ne_nil v)
      rw [List.length_append] at hfuel
      omega
    | succ fuel =>
      have hlengths := hs.here
      cases v with
      | scalar s =>
        rw [layout, decodeValue_scalar fuel cur hlengths] at h
        exact (Except.ok.inj h).symm
      | hash map =>
        obtain ⟨hn, hkeys⟩ := hlengths
        rw [layout, layoutHash_eq] at hfuel h
        rw [List.cons_append, List.append_assoc, decodeValue_hash, readU32_append _ hn, Rust.ok_bind] at h
        obtain ⟨⟨map', c₁⟩, hmap, h⟩ := Rust.bind_eq_ok.mp h
        cases readMap_layout (fun e he cur _ => readStr_append cur (hkeys e he))
          (fun e he => ih e.2 (List.mem_map_of_mem he) fuel) ho.here (fun _ _ _ h => absurd h List.not_mem_nil)
          (length_inside hfuel) hmap
        exact (Except.ok.inj h).symm
      | set members =>
        rw [layout, layoutList_eq] at hfuel h
        rw [List.cons_append, List.append_assoc, decodeValue_set, readU32_append _ hlengths, Rust.ok_bind] at h
        obtain ⟨⟨members', c₁⟩, hmembers, h⟩ := Rust.bind_eq_ok.mp h
        cases readSet_layout (fun w hw => ih w hw fuel) (length_inside hfuel) hmembers
        exact (Except.ok.inj h).symm
      | list items =>
        rw [layout, layoutList_eq] at hfuel h
        rw [List.cons_append, List.append_assoc, decodeValue_list, readU32_append _ hlengths, Rust.ok_bind] at h
        obtain ⟨⟨items', c₁⟩, hitems, h⟩ := Rust.bind_eq_ok.mp h
        cases readList_layout (fun w hw => ih w hw fuel) (length_inside hfuel) hitems
        exact (Except.ok.inj h).symm
      | tree map =>
        obtain ⟨hn, hkeys⟩ := hlengths
        rw [layout, layoutTree_eq] at hfuel h
        rw [List.cons_append, List.append_assoc, decodeValue_tree, readU32_append _ hn, Rust.ok_bind] at h
        obtain ⟨⟨map', c₁⟩, hmap, h⟩ := Rust.bind_eq_ok.mp h
        cases readMap_layout (fun e he cur hle => decodeScalarValue_append cur (hkeys e he) hle)
          (fun e he => ih e.2 (List.mem_map_of_mem he) fuel) ho.here (fun _ _ _ h => absurd h List.not_mem_nil)
          (length_inside hfuel) hmap
        exact (Except.ok.inj h).symm

/-- A value that is decoded is one that can be read. -/
theorem decode_wellRead {b : Bytes} {v : Value} (h : decode b = .ok v) : WellRead v := by
  cases b with
  | nil => exact absurd h (Rust.err_ne_ok _ _)
  | cons version cur =>
    rcases Rust.ite_eq_ok h with ⟨-, h⟩ | ⟨-, h⟩
    · exact absurd h (Rust.err_ne_ok _ _)
    · obtain ⟨⟨w, rest⟩, hread, h⟩ := Rust.bind_eq_ok.mp h
      rcases Rust.ite_eq_ok h with ⟨-, h⟩ | ⟨-, h⟩
      · exact absurd h (Rust.err_ne_ok _ _)
      · cases h
        exact decodeValue_wellRead _ _ _ hread

/-- A layout with its entries in order is decoded to the value it lays out, or not at all. -/
theorem decode_layout {v w : Value} (ho : v.Ordered) (hs : v.Small) (h : decode (codecVersion :: layout v) = .ok w) : w = v := by
  have hversion : ¬codecVersion ≠ codecVersion := not_not_intro rfl
  rw [decode, if_neg hversion] at h
  obtain ⟨⟨w', rest⟩, hread, h⟩ := Rust.bind_eq_ok.mp h
  rw [← List.append_nil (layout v)] at hread
  cases decodeValue_layout ho hs _ [] (Nat.le_refl _) _ hread
  rcases Rust.ite_eq_ok h with ⟨-, h⟩ | ⟨-, h⟩
  · exact absurd h (Rust.err_ne_ok _ _)
  · exact (Except.ok.inj h).symm

/-- What is read is read back. -/
theorem WellRead.decode_encode {v : Value} (h : WellRead v) : decode (encode v) = .ok v := by
  have hdecode := Codec.decode_encode h.ordered h.small
  have hlayout := hdecode
  rw [encode, ← layout_eq_encodeValue h.members] at hlayout
  rw [hdecode, decode_layout h.ordered h.small hlayout]

end Codec
end AlefsDb
