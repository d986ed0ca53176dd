import AlefsDb.Lemmas.JsonText
import AlefsDb.Lemmas.Layout

/-!
# Parsed values are converted back

What `json_to_value` makes of the parsed text of a value. Bytes are written as hexadecimal digits and read back. The key of a tree is
written as plain text, and what it is read as depends on what it looks like; a string that looks like another scalar is read as that
one. Where no string key does, the value comes back.
-/

namespace AlefsDb
namespace Json

/-! ## Hexadecimal digits -/

/-- The byte of a hexadecimal digit. -/
def hexByte (n : Nat) : UInt8 := (hexDigit n).toNat.toUInt8

/-- A hexadecimal digit is one byte of text. -/
theorem utf8EncodeChar_hexDigit {n : Nat} (h : n < 16) : String.utf8EncodeChar (hexDigit n) = [hexByte n] := by
  have hall : ∀ n ∈ List.range 16, String.utf8EncodeChar (hexDigit n) = [hexByte n] := by decide
  exact hall n (List.mem_range.mpr h)

/-- A digit that has been written is read back. -/
theorem fromHex_hexByte {x : UInt8} (h : x.toNat < 16) : fromHex (hexByte x.toNat) = .ok x := by
  have hall : ∀ n ∈ List.range 16, fromHex (hexByte n) = .ok (UInt8.ofNat n) := by decide
  rw [hall _ (List.mem_range.mpr h), UInt8.ofNat_toNat]

theorem toNat_high (x : UInt8) : (x >>> 4).toNat = x.toNat / 16 := by
  simp [UInt8.toNat_shiftRight, Nat.shiftRight_eq_div_pow]

theorem toNat_low (x : UInt8) : (x &&& 0xf).toNat = x.toNat % 16 := by
  rw [UInt8.toNat_and]
  exact Nat.and_two_pow_sub_one_eq_mod _ 4

/-- A byte is put together from its halves. -/
theorem halves (x : UInt8) : (x >>> 4) <<< 4 ||| (x &&& 0xf) = x := by
  have hx := x.toNat_lt
  have hfits : (x.toNat / 16) <<< 4 < 2 ^ 8 := by
    rw [Nat.shiftLeft_eq]
    omega
  apply UInt8.toNat_inj.mp
  calc ((x >>> 4) <<< 4 ||| (x &&& 0xf)).toNat
      = (x.toNat / 16) <<< 4 % 2 ^ 8 ||| x.toNat % 16 := by
        rw [UInt8.toNat_or, UInt8.toNat_shiftLeft, toNat_high, toNat_low]
        rfl
    _ = (x.toNat / 16) <<< 4 ||| x.toNat % 16 := by rw [Nat.mod_eq_of_lt hfits]
    _ = (x.toNat / 16) <<< 4 + x.toNat % 16 := (Nat.shiftLeft_add_eq_or_of_lt (Nat.mod_lt _ (by decide)) _).symm
    _ = x.toNat := by
      rw [Nat.shiftLeft_eq]
      omega

/-- Bytes are read back from their digits. -/
theorem decodeBytes_encodeBytes (b : Bytes) : decodeBytes (String.ofList (encodeBytes b)) = .ok b := by
  have hhigh : ∀ x : UInt8, (x >>> 4).toNat < 16 := by
    intro x
    have := x.toNat_lt
    rw [toNat_high]
    omega
  have hlow : ∀ x : UInt8, (x &&& 0xf).toNat < 16 := by
    intro x
    rw [toNat_low]
    exact Nat.mod_lt _ (by decide)
  have hbytes : utf8 (String.ofList (encodeBytes b)) =
      b.flatMap (fun x : UInt8 => [hexByte (x >>> 4).toNat, hexByte (x &&& 0xf).toNat]) := by
    rw [utf8_ofList, encodeBytes, List.flatMap_assoc]
    refine List.flatMap_congr (fun x _ => ?_)
    rw [List.flatMap_cons, List.flatMap_singleton, utf8EncodeChar_hexDigit (hhigh x), utf8EncodeChar_hexDigit (hlow x)]
    rfl
  have hdigits : decodeDigits (b.flatMap (fun x : UInt8 => [hexByte (x >>> 4).toNat, hexByte (x &&& 0xf).toNat])) = .ok b := by
    clear hbytes
    induction b with
    | nil => rfl
    | cons x b ih =>
      rw [List.flatMap_cons, List.cons_append, List.cons_append, List.nil_append, decodeDigits, fromHex_hexByte (hhigh x),
        fromHex_hexByte (hlow x), ih, Rust.ok_bind, Rust.ok_bind, Rust.ok_bind, halves, Rust.pure_eq_ok]
  have heven : ¬(utf8 (String.ofList (encodeBytes b))).length % 2 ≠ 0 := by
    rw [hbytes]
    simp
  rw [decodeBytes, if_neg heven, hbytes, hdigits]

/-- Two digits make a byte. -/
theorem length_of_decodeDigits {s b : Bytes} (h : decodeDigits s = .ok b) : b.length ≤ s.length := by
  induction s using decodeDigits.induct generalizing b with
  | case1 hi lo rest ih =>
    rw [decodeDigits] at h
    obtain ⟨hi', -, h⟩ := Rust.bind_eq_ok.mp h
    obtain ⟨lo', -, h⟩ := Rust.bind_eq_ok.mp h
    obtain ⟨out, hout, h⟩ := Rust.bind_eq_ok.mp h
    cases h
    have := ih hout
    rw [List.length_cons, List.length_cons, List.length_cons]
    omega
  | case2 s hs =>
    rw [decodeDigits.eq_2 s hs] at h
    cases h
    exact Nat.zero_le _

/-! ## The keys of a tree -/

/-- The text of a key that looks like no other scalar than a string. -/
structure PlainText (s : String) : Prop where
  null : s ≠ "null"
  true : s ≠ "true"
  false : s ≠ "false"
  float : ¬"f:".toList <+: s.toList
  bytes : ¬"b:".toList <+: s.toList
  int : parseI64 s.toList = none

/-- A key that looks like no other scalar, when it is a string. -/
def PlainKey : Scalar → Prop
  | .string s => PlainText s
  | _ => True

/-- A plain text is a key that is a string. -/
theorem parseScalarKey_plain {s : String} (h : PlainText s) : parseScalarKey s = .ok (.string s) := by
  rw [parseScalarKey, if_neg h.null, if_neg h.true, if_neg h.false]
  split
  · rename_i rest heq
    exact absurd ⟨rest, heq.symm⟩ h.float
  · rename_i rest heq
    exact absurd ⟨rest, heq.symm⟩ h.bytes
  · rw [h.int]

/-- What a text is read as: bytes in digits, the string itself, or another scalar. -/
theorem parseScalarKey_cases {s : String} {k : Scalar} (h : parseScalarKey s = .ok k) :
    (∃ rest b, s = String.ofList ('b' :: ':' :: rest) ∧ decodeBytes (String.ofList rest) = .ok b ∧ k = .bytes b) ∨
      (PlainText s ∧ k = .string s) ∨ PlainKey k ∧ k.LengthFits := by
  rcases Rust.ite_eq_ok h with ⟨-, h⟩ | ⟨hnull, h⟩
  · cases h
    exact Or.inr (Or.inr ⟨trivial, trivial⟩)
  rcases Rust.ite_eq_ok h with ⟨-, h⟩ | ⟨htrue, h⟩
  · cases h
    exact Or.inr (Or.inr ⟨trivial, trivial⟩)
  rcases Rust.ite_eq_ok h with ⟨-, h⟩ | ⟨hfalse, h⟩
  · cases h
    exact Or.inr (Or.inr ⟨trivial, trivial⟩)
  split at h
  · obtain ⟨bits, -, h⟩ := Rust.bind_eq_ok.mp h
    cases h
    exact Or.inr (Or.inr ⟨trivial, trivial⟩)
  · rename_i rest heq
    obtain ⟨b, hb, h⟩ := Rust.bind_eq_ok.mp h
    cases h
    refine Or.inl ⟨rest, b, ?_, Rust.mapErr_eq_ok.mp hb, rfl⟩
    rw [← heq, String.ofList_toList]
  · rename_i hfloat hbytes
    split at h
    · cases h
      exact Or.inr (Or.inr ⟨trivial, trivial⟩)
    · rename_i hint
      cases h
      refine Or.inr (Or.inl ⟨⟨hnull, htrue, hfalse, ?_, ?_, hint⟩, rfl⟩)
      · rintro ⟨rest, hrest⟩
        exact hfloat rest hrest.symm
      · rintro ⟨rest, hrest⟩
        exact hbytes rest hrest.symm

/-- A key that is read is plain. -/
theorem plainKey_of_parseScalarKey {s : String} {k : Scalar} (h : parseScalarKey s = .ok k) : PlainKey k := by
  rcases parseScalarKey_cases h with ⟨rest, b, -, -, rfl⟩ | ⟨hplain, rfl⟩ | ⟨hplain, -⟩
  · trivial
  · exact hplain
  · exact hplain

/-- A key that is read is no longer than its text. -/
theorem lengthFits_of_parseScalarKey {s : String} {k : Scalar} (hs : (utf8 s).length < 2 ^ 32) (h : parseScalarKey s = .ok k) :
    k.LengthFits := by
  rcases parseScalarKey_cases h with ⟨rest, b, rfl, hb, rfl⟩ | ⟨-, rfl⟩ | ⟨-, hfits⟩
  · rcases Rust.ite_eq_ok hb with ⟨-, hb⟩ | ⟨-, hb⟩
    · exact absurd hb (Rust.err_ne_ok _ _)
    · have hlength := length_of_decodeDigits hb
      have hmore : (utf8 (String.ofList rest)).length ≤ (utf8 (String.ofList ('b' :: ':' :: rest))).length := by
        rw [utf8_ofList, utf8_ofList, List.flatMap_cons, List.flatMap_cons, List.length_append, List.length_append]
        omega
      change b.length < 2 ^ 32
      omega
  · exact hs
  · exact hfits

/-- A text with another first character is none of the words that are keys. -/
theorem ne_words {c : Char} (hn : c ≠ 'n') (ht : c ≠ 't') (hf : c ≠ 'f') (rest : List Char) :
    String.ofList (c :: rest) ≠ "null" ∧ String.ofList (c :: rest) ≠ "true" ∧ String.ofList (c :: rest) ≠ "false" := by
  have hword : ∀ (d : Char) (word : List Char), c ≠ d → String.ofList (c :: rest) ≠ String.ofList (d :: word) := by
    intro d word hd he
    exact hd (List.cons.inj (String.ofList_injective he)).1
  exact ⟨hword 'n' "ull".toList hn, hword 't' "rue".toList ht, hword 'f' "alse".toList hf⟩

/-- The text of an integer is read as the integer. -/
theorem parseScalarKey_int (n : Int64) : parseScalarKey (String.ofList (i64Text n)) = .ok (.int n) := by
  obtain ⟨c, rest, htext, hc⟩ := i64Text_eq_cons n
  have hparse := parseI64_i64Text n
  rw [htext] at hparse ⊢
  have hne : ∀ d : Char, d ≠ '-' → d.isDigit = false → c ≠ d := by
    intro d hminus hd he
    rcases hc with rfl | hc
    · exact hminus he.symm
    · rw [he, hd] at hc
      cases hc
  have hf := hne 'f' (by decide) (by decide)
  obtain ⟨hnull, htrue, hfalse⟩ := ne_words (hne 'n' (by decide) (by decide)) (hne 't' (by decide) (by decide)) hf rest
  rw [parseScalarKey, if_neg hnull, if_neg htrue, if_neg hfalse, String.toList_ofList]
  split
  · rename_i heq
    exact absurd (List.cons.inj heq).1 hf
  · rename_i heq
    exact absurd (List.cons.inj heq).1 (hne 'b' (by decide) (by decide))
  · rw [hparse]

/-- The text of bytes is read as the bytes. -/
theorem parseScalarKey_bytes (b : Bytes) : parseScalarKey (String.ofList ('b' :: ':' :: encodeBytes b)) = .ok (.bytes b) := by
  obtain ⟨hnull, htrue, hfalse⟩ := ne_words (c := 'b') (by decide) (by decide) (by decide) (':' :: encodeBytes b)
  rw [parseScalarKey, if_neg hnull, if_neg htrue, if_neg hfalse, String.toList_ofList]
  change (Rust.mapErr NsError.invalid (decodeBytes (String.ofList (encodeBytes b))) >>= _) = _
  rw [decodeBytes_encodeBytes]
  rfl

section

variable {floatText : UInt64 → List Char}

/-- A key that is plain is read back from its text. -/
theorem parseScalarKey_scalarKeyStr {k : Scalar} (hfloat : NotFloat k) (hk : PlainKey k) :
    parseScalarKey (String.ofList (scalarKeyStr floatText k)) = .ok k := by
  cases k with
  | null => rfl
  | bool b => cases b <;> rfl
  | int n => exact parseScalarKey_int n
  | float bits => exact absurd hfloat id
  | string s =>
    rw [scalarKeyStr, String.ofList_toList]
    exact parseScalarKey_plain hk
  | bytes b => exact parseScalarKey_bytes b

/-- A key that is read from the text of one whose length fits is one whose length fits. -/
theorem lengthFits_of_scalarKeyStr {k k' : Scalar} (hfloat : NotFloat k) (hk : k.LengthFits)
    (h : parseScalarKey (String.ofList (scalarKeyStr floatText k)) = .ok k') : k'.LengthFits := by
  cases k with
  | string s =>
    rw [scalarKeyStr, String.ofList_toList] at h
    exact lengthFits_of_parseScalarKey hk h
  | null | bool | int | bytes =>
    rw [parseScalarKey_scalarKeyStr hfloat trivial] at h
    cases h
    exact hk
  | float bits => exact absurd hfloat id

/-! ## Values -/

/-- The keys of an outermost tree are plain. -/
def PlainKeysHere : Value → Prop
  | .tree map => ∀ e ∈ map, PlainKey e.1
  | _ => True

/-- No string that is a key of a tree looks like another scalar. -/
def PlainKeys : Value → Prop := Value.Everywhere PlainKeysHere

/-- The keys of a canonical form are those of the value. -/
theorem PlainKeys.canon {v : Value} (h : PlainKeys v) : PlainKeys v.canon := by
  refine Value.Everywhere.canon (fun v hv => ?_) h
  cases v with
  | scalar | hash | set | list => trivial
  | tree map =>
    rw [Value.canon, Value.canonTree_eq]
    intro e he
    obtain ⟨e', he', rfl⟩ := List.mem_map.mp he
    exact hv e' he'

/-- The items of an array are converted one by one. -/
theorem jsonToValues_eq_ok {items : List JsonVal} {us : List Value} :
    jsonToValues items = .ok us ↔ List.Forall₂ (fun j u => jsonToValue j = .ok u) items us := by
  induction items generalizing us with
  | nil => simp [jsonToValues, eq_comm]
  | cons j items ih =>
    rw [jsonToValues, Rust.bind_eq_ok]
    constructor
    · rintro ⟨u, hu, h⟩
      obtain ⟨rest, hrest, h⟩ := Rust.bind_eq_ok.mp h
      cases h
      exact .cons hu (ih.mp hrest)
    · intro h
      cases h with
      | cons hu hrest => exact ⟨_, hu, Rust.bind_eq_ok.mpr ⟨_, ih.mpr hrest, rfl⟩⟩

/-- The entries of an object are converted and put into the map. -/
theorem jsonToHash_eq_ok {map : List (String × JsonVal)} {read out : List (String × Value)} :
    jsonToHash map read = .ok out ↔
      ∃ es, List.Forall₂ (fun m e => m.1 = e.1 ∧ jsonToValue m.2 = .ok e.2) map es ∧ out = OrdMap.insertAll es read := by
  induction map generalizing read with
  | nil => simp [jsonToHash, OrdMap.insertAll, eq_comm]
  | cons m map ih =>
    rw [jsonToHash, Rust.bind_eq_ok]
    constructor
    · rintro ⟨u, hu, h⟩
      obtain ⟨es, hes, rfl⟩ := ih.mp h
      exact ⟨(m.1, u) :: es, .cons ⟨rfl, hu⟩ hes, rfl⟩
    · rintro ⟨es, hes, rfl⟩
      cases hes with
      | cons he hes =>
        rename_i e es
        exact ⟨e.2, he.2, ih.mpr ⟨es, hes, by rw [he.1]; rfl⟩⟩

/-- The entries of a tree are converted one by one, and put in one after the other. -/
theorem jsonToTree_eq_ok {map : List (String × JsonVal)} {read out : List (Scalar × Value)} :
    jsonToTree map read = .ok out ↔
      ∃ es, List.Forall₂ (fun m e => parseScalarKey m.1 = .ok e.1 ∧ jsonToValue m.2 = .ok e.2) map es ∧
        out = OrdMap.insertAll es read := by
  induction map generalizing read with
  | nil => simp [jsonToTree, OrdMap.insertAll, eq_comm]
  | cons m map ih =>
    rw [jsonToTree, Rust.bind_eq_ok]
    constructor
    · rintro ⟨k, hk, h⟩
      obtain ⟨u, hu, h⟩ := Rust.bind_eq_ok.mp h
      obtain ⟨es, hes, rfl⟩ := ih.mp h
      exact ⟨(k, u) :: es, .cons ⟨hk, hu⟩ hes, rfl⟩
    · rintro ⟨es, hes, rfl⟩
      cases hes with
      | cons he hes =>
        rename_i e es
        exact ⟨e.1, he.1, Rust.bind_eq_ok.mpr ⟨e.2, he.2, ih.mpr ⟨es, hes, rfl⟩⟩⟩

theorem jsonOfList_eq (items : List Value) : jsonOfList floatText items = items.map (jsonOf floatText) := by
  induction items with
  | nil => rfl
  | cons v items ih => rw [jsonOfList, ih, List.map_cons]

theorem jsonOfHash_eq (map : List (String × Value)) :
    jsonOfHash floatText map = map.map (fun e => (e.1, jsonOf floatText e.2)) := by
  induction map with
  | nil => rfl
  | cons e map ih => rw [jsonOfHash, ih, List.map_cons]

theorem jsonOfTree_eq (map : List (Scalar × Value)) :
    jsonOfTree floatText map = map.map (fun e => (String.ofList (scalarKeyStr floatText e.1), jsonOf floatText e.2)) := by
  induction map with
  | nil => rfl
  | cons e map ih => rw [jsonOfTree, ih, List.map_cons]

/-- A value without floats is converted back where no string key of a tree looks like another scalar. -/
theorem jsonToValue_jsonOf {v : Value} (hordered : v.Ordered) (hfloat : NoFloat v) (hkeys : PlainKeys v) :
    jsonToValue (jsonOf floatText v) = .ok v := by
  induction v using Value.nestedInduction with
  | h v ih =>
    have hinside : ∀ w ∈ v.children, jsonToValue (jsonOf floatText w) = .ok w :=
      fun w hw => ih w hw (hordered.inside hw) (hfloat.inside hw) (hkeys.inside hw)
    have hlist : ∀ items, (∀ w ∈ items, jsonToValue (jsonOf floatText w) = .ok w) →
        jsonToValues (jsonOfList floatText items) = .ok items := by
      intro items hitems
      rw [jsonToValues_eq_ok, jsonOfList_eq, List.forall₂_map_left_iff, List.forall₂_same]
      exact hitems
    cases v with
    | scalar s =>
      cases s with
      | null | bool | int | string => rfl
      | float bits => exact absurd hfloat.here id
      | bytes b =>
        rw [jsonOf, jsonOfScalar, jsonToValue, decodeBytes_encodeBytes]
        rfl
    | hash map =>
      have hmap : jsonToHash (jsonOfHash floatText map) [] = .ok map := by
        refine jsonToHash_eq_ok.mpr ⟨map, ?_, (OrdMap.insertAll_nil hordered.here).symm⟩
        rw [jsonOfHash_eq, List.forall₂_map_left_iff, List.forall₂_same]
        exact fun e he => ⟨rfl, hinside e.2 (List.mem_map_of_mem he)⟩
      rw [jsonOf, jsonToValue, hmap]
      rfl
    | set items =>
      rw [jsonOf, jsonToValue, hlist items hinside]
      rfl
    | list items =>
      rw [jsonOf, jsonToValue, hlist items hinside]
      rfl
    | tree map =>
      have hmap : jsonToTree (jsonOfTree floatText map) [] = .ok map := by
        refine jsonToTree_eq_ok.mpr ⟨map, ?_, (OrdMap.insertAll_nil hordered.here).symm⟩
        rw [jsonOfTree_eq, List.forall₂_map_left_iff, List.forall₂_same]
        exact fun e he => ⟨parseScalarKey_scalarKeyStr (hfloat.here e he) (hkeys.here e he), hinside e.2 (List.mem_map_of_mem he)⟩
      rw [jsonOf, jsonToValue, hmap]
      rfl

/-! ## What any value is converted to -/

/-- The maps of a value are in key order, its lengths fit and the keys of its trees are plain. -/
structure Converted (v : Value) : Prop where
  ordered : v.Ordered
  small : v.Small
  plain : PlainKeys v

/-- A value converts back where its children do and its own keys allow it. -/
theorem Converted.intro {v : Value} (hkeys : v.KeysAscending) (hlengths : v.LengthsFit) (hplain : PlainKeysHere v)
    (h : ∀ w ∈ v.children, Converted w) : Converted v where
  ordered := .intro v hkeys (fun w hw => (h w hw).ordered)
  small := .intro v hlengths (fun w hw => (h w hw).small)
  plain := .intro v hplain (fun w hw => (h w hw).plain)

theorem converted_scalar {s : Scalar} (h : s.LengthFits) : Converted (.scalar s) :=
  .intro trivial h trivial (fun _ hw => absurd hw List.not_mem_nil)

/-- A map that is filled with what is made of the elements of a list. -/
theorem insertAll_of_forall₂ {κ ν α : Type} [LinearOrder κ] {R : α → κ × ν → Prop} {l : List α} {es : List (κ × ν)}
    (h : List.Forall₂ R l es) :
    OrdMap.Ascending (OrdMap.insertAll es []) ∧ (OrdMap.insertAll es []).length ≤ l.length ∧
      ∀ e ∈ OrdMap.insertAll es [], ∃ a ∈ l, R a e := by
  refine ⟨OrdMap.Ascending.insertAll List.Pairwise.nil es, ?_, fun e he => ?_⟩
  · rw [h.length_eq]
    simpa using OrdMap.length_insertAll_le es []
  · rcases OrdMap.mem_insertAll he with he | he
    · exact forall₂_exists_left h he
    · exact absurd he List.not_mem_nil

/-- The items of a list are converted one by one. -/
theorem converted_of_jsonToValues {items us : List Value} (h : jsonToValues (jsonOfList floatText items) = .ok us)
    (hitems : ∀ w ∈ items, ∀ u, jsonToValue (jsonOf floatText w) = .ok u → Converted u) :
    us.length = items.length ∧ ∀ u ∈ us, Converted u := by
  rw [jsonToValues_eq_ok, jsonOfList_eq, List.forall₂_map_left_iff] at h
  refine ⟨h.length_eq.symm, fun u hu => ?_⟩
  obtain ⟨w, hw, hwu⟩ := forall₂_exists_left h hu
  exact hitems w hw u hwu

/-- Whatever the text of a value without floats is converted to has plain keys only. -/
theorem converted_of_jsonToValue {v u : Value} (hfloat : NoFloat v) (hsmall : v.Small)
    (h : jsonToValue (jsonOf floatText v) = .ok u) : Converted u := by
  induction v using Value.nestedInduction generalizing u with
  | h v ih =>
    have hinside : ∀ w ∈ v.children, ∀ u, jsonToValue (jsonOf floatText w) = .ok u → Converted u :=
      fun w hw u hu => ih w hw (hfloat.inside hw) (hsmall.inside hw) hu
    cases v with
    | scalar s =>
      cases s with
      | null | bool | int =>
        cases h
        exact converted_scalar trivial
      | string s =>
        cases h
        exact converted_scalar hsmall.here
      | float bits => exact absurd hfloat.here id
      | bytes b =>
        rw [jsonOf, jsonOfScalar, jsonToValue, decodeBytes_encodeBytes] at h
        cases h
        exact converted_scalar hsmall.here
    | hash map =>
      rw [jsonOf, jsonToValue] at h
      obtain ⟨out, hout, h⟩ := Rust.bind_eq_ok.mp h
      cases h
      obtain ⟨es, hes, rfl⟩ := jsonToHash_eq_ok.mp hout
      rw [jsonOfHash_eq, List.forall₂_map_left_iff] at hes
      obtain ⟨hlength, hkeys⟩ := hsmall.here
      obtain ⟨hasc, hle, hfrom⟩ := insertAll_of_forall₂ hes
      refine .intro hasc ⟨Nat.lt_of_le_of_lt hle hlength, fun e he => ?_⟩ trivial (fun w hw => ?_)
      · obtain ⟨e', he', hkey, -⟩ := hfrom e he
        exact hkey ▸ hkeys e' he'
      · obtain ⟨e, he, rfl⟩ := List.mem_map.mp hw
        obtain ⟨e', he', -, hvalue⟩ := hfrom e he
        exact hinside e'.2 (List.mem_map_of_mem he') e.2 hvalue
    | set items =>
      rw [jsonOf, jsonToValue] at h
      obtain ⟨us, hus, h⟩ := Rust.bind_eq_ok.mp h
      cases h
      obtain ⟨hlength, hus⟩ := converted_of_jsonToValues hus hinside
      exact .intro trivial (Nat.lt_of_le_of_lt hlength.le hsmall.here) trivial hus
    | list items =>
      rw [jsonOf, jsonToValue] at h
      obtain ⟨us, hus, h⟩ := Rust.bind_eq_ok.mp h
      cases h
      obtain ⟨hlength, hus⟩ := converted_of_jsonToValues hus hinside
      exact .intro trivial (Nat.lt_of_le_of_lt hlength.le hsmall.here) trivial hus
    | tree map =>
      rw [jsonOf, jsonToValue] at h
      obtain ⟨out, hout, h⟩ := Rust.bind_eq_ok.mp h
      cases h
      obtain ⟨es, hes, rfl⟩ := jsonToTree_eq_ok.mp hout
      rw [jsonOfTree_eq, List.forall₂_map_left_iff] at hes
      obtain ⟨hlength, hkeys⟩ := hsmall.here
      obtain ⟨hasc, hle, hfrom⟩ := insertAll_of_forall₂ hes
      refine .intro hasc ⟨Nat.lt_of_le_of_lt hle hlength, fun e he => ?_⟩ (fun e he => ?_) (fun w hw => ?_)
      · obtain ⟨e', he', hkey, -⟩ := hfrom e he
        exact lengthFits_of_scalarKeyStr (hfloat.here e' he') (hkeys e' he') hkey
      · obtain ⟨e', -, hkey, -⟩ := hfrom e he
        exact plainKey_of_parseScalarKey hkey
      · obtain ⟨e, he, rfl⟩ := List.mem_map.mp hw
        obtain ⟨e', he', -, hvalue⟩ := hfrom e he
        exact hinside e'.2 (List.mem_map_of_mem he') e.2 hvalue

end

end Json
end AlefsDb
