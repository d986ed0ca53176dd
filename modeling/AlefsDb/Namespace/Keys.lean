import AlefsDb.Lib.Rust

/-!
# The layout of storage keys

The key of every kind of row, and what the rows of nodes and children hold. `Key` names the rows by what their keys are made from;
different names have different bytes (`Key.bytes_injective`).
-/

namespace AlefsDb

/-- `ROOT_ID`. -/
def rootId : UInt64 := 1

/-- `meta_next_id`. -/
def metaNextId : Bytes := utf8 "meta/next_id"

/-- The key of the version of the type index. -/
def metaTypeIndexVersion : Bytes := utf8 "meta/type_index_version"

/-- `u64::to_be_bytes`, which is `encode_id`. -/
def encodeId (id : UInt64) : Bytes := beBytes 8 id.toNat

/-- `decode_id`. -/
def decodeId (bytes : Bytes) : Option UInt64 :=
  if bytes.length ≠ 8 then none else some (UInt64.ofNat (fromBe bytes))

/-- `node_key`. -/
def nodeKey (id : UInt64) : Bytes := utf8 "node/" ++ encodeId id

/-- `child_prefix`. -/
def childPrefix (parent : UInt64) : Bytes := utf8 "child/" ++ encodeId parent ++ utf8 "/"

/-- `child_key`. -/
def childKey (parent : UInt64) (name : String) : Bytes := utf8 "child/" ++ encodeId parent ++ utf8 "/" ++ utf8 name

/-- The prefix of every row of the type index. -/
def indexPrefix : Bytes := utf8 "idx/t/"

/-- `type_index_prefix`. -/
def typeIndexPrefix (typeName : String) : Bytes := utf8 "idx/t/" ++ utf8 typeName ++ utf8 "/"

/-- `type_index_key`. -/
def typeIndexKey (typeName : String) (id : UInt64) : Bytes := utf8 "idx/t/" ++ utf8 typeName ++ utf8 "/" ++ encodeId id

/-- `NodeRecord`: a directory, or a value in its encoding. -/
inductive NodeRecord where
  | dir
  | value (encoded : Bytes)
  deriving DecidableEq, Repr

/-- `encode_dir_node`. -/
def encodeDirNode : Bytes := [0]

/-- `encode_value_node`. -/
def encodeValueNode (encoded : Bytes) : Bytes := 1 :: encoded

/-- `parse_node`, with the text of its error. -/
def parseNode : Bytes → Rust String NodeRecord
  | [] => Rust.err "empty node"
  | tag :: encoded =>
    if tag = 0 then .ok .dir
    else if tag = 1 then .ok (.value encoded)
    else Rust.err s!"unknown node tag {tag}"

/-! ## Ids and nodes read back -/

@[simp] theorem length_encodeId (id : UInt64) : (encodeId id).length = 8 := length_beBytes 8 _

/-- An id is decoded back. -/
@[simp] theorem decodeId_encodeId (id : UInt64) : decodeId (encodeId id) = some id := by
  have h : id.toNat < 256 ^ 8 := id.toNat_lt
  simp [decodeId, encodeId, fromBe_beBytes_of_lt h]

/-- Ids are told apart by their bytes. -/
theorem encodeId_injective {i j : UInt64} (h : encodeId i = encodeId j) : i = j := by
  have h := congrArg decodeId h
  rw [decodeId_encodeId, decodeId_encodeId] at h
  exact Option.some.inj h

/-- The bytes behind the prefix of a child row are the name. -/
theorem name_of_childKey (parent : UInt64) (name : String) :
    fromUtf8 ((childKey parent name).drop (childPrefix parent).length) = some name := by
  rw [childKey, ← childPrefix, List.drop_left, fromUtf8_utf8]

@[simp] theorem parseNode_dir : parseNode encodeDirNode = .ok .dir := rfl

@[simp] theorem parseNode_value (encoded : Bytes) : parseNode (encodeValueNode encoded) = .ok (.value encoded) := rfl

/-! ## Keys by name -/

/-- The kinds of rows, with what their keys are made from. -/
inductive Key where
  | nextId
  | indexVersion
  | node (id : UInt64)
  | child (parent : UInt64) (name : String)
  | typeIndex (typeName : String) (id : UInt64)
  deriving DecidableEq

namespace Key

def bytes : Key → Bytes
  | nextId => metaNextId
  | indexVersion => metaTypeIndexVersion
  | node id => nodeKey id
  | child parent name => childKey parent name
  | typeIndex typeName id => typeIndexKey typeName id

/-- The first byte of a key, which tells the kinds of rows apart but for the two of the metadata. -/
def initial : Key → UInt8
  | nextId => 109
  | indexVersion => 109
  | node _ => 110
  | child _ _ => 99
  | typeIndex _ _ => 105

/-- A key begins with the letter of its kind. -/
theorem head?_bytes (k : Key) : k.bytes.head? = some k.initial := by
  cases k <;> rfl

/-- Rows of different names have different keys. -/
theorem bytes_injective {k k' : Key} (h : k.bytes = k'.bytes) : k = k' := by
  have hinitial : k.initial = k'.initial := by
    have hhead := congrArg List.head? h
    rw [head?_bytes, head?_bytes] at hhead
    exact Option.some.inj hhead
  cases k <;> cases k' <;> simp [initial] at hinitial ⊢
  case nextId.indexVersion => exact absurd h (by decide)
  case indexVersion.nextId => exact absurd h (by decide)
  case node.node i j => exact encodeId_injective (List.append_cancel_left h)
  case child.child p name p' name' =>
    simp only [bytes, childKey, List.append_assoc] at h
    obtain ⟨hp, hname⟩ := List.append_inj (List.append_cancel_left h) (by simp)
    exact ⟨encodeId_injective hp, utf8_injective (List.append_cancel_left hname)⟩
  case typeIndex.typeIndex t i t' i' =>
    simp only [bytes, typeIndexKey, List.append_assoc] at h
    have h := List.append_cancel_left h
    obtain ⟨ht, hi⟩ := List.append_inj' h (by simp)
    exact ⟨utf8_injective ht, encodeId_injective (List.append_cancel_left hi)⟩

/-- The keys under a child prefix are those of the children. -/
theorem childPrefix_iff {parent : UInt64} {k : Key} : childPrefix parent <+: k.bytes ↔ ∃ name, k = child parent name := by
  constructor
  · rintro ⟨rest, h⟩
    have hinitial : k.initial = 99 := by
      have hhead := congrArg List.head? h
      rw [head?_bytes] at hhead
      exact (Option.some.inj hhead).symm
    cases k <;> simp [initial] at hinitial
    case child p name =>
      refine ⟨name, ?_⟩
      simp only [bytes, childPrefix, childKey, List.append_assoc] at h
      rw [encodeId_injective (List.append_inj (List.append_cancel_left h) (by simp)).1]
  · rintro ⟨name, rfl⟩
    exact ⟨utf8 name, rfl⟩

/-- The keys under the index prefix are those of the type index. -/
theorem indexPrefix_iff {k : Key} : indexPrefix <+: k.bytes ↔ ∃ typeName id, k = typeIndex typeName id := by
  constructor
  · rintro ⟨rest, h⟩
    have hinitial : k.initial = 105 := by
      have hhead := congrArg List.head? h
      rw [head?_bytes] at hhead
      exact (Option.some.inj hhead).symm
    cases k <;> simp [initial] at hinitial
    case typeIndex t i => exact ⟨t, i, rfl⟩
  · rintro ⟨t, i, rfl⟩
    exact ⟨utf8 t ++ utf8 "/" ++ encodeId i, by simp [bytes, typeIndexKey, indexPrefix]⟩

/-- The rows of one type are rows of the index. -/
theorem indexPrefix_of_typeIndexPrefix {typeName : String} {k : Bytes} (h : typeIndexPrefix typeName <+: k) : indexPrefix <+: k :=
  List.IsPrefix.trans ⟨utf8 typeName ++ utf8 "/", by simp [typeIndexPrefix, indexPrefix]⟩ h

/-- Where type names have no slash, the slash behind one ends it, whatever the bytes of the id are. -/
theorem typeIndexPrefix_iff {typeName : String} {k : Key} (h : 47 ∉ utf8 typeName)
    (hk : ∀ t id, k = typeIndex t id → 47 ∉ utf8 t) : typeIndexPrefix typeName <+: k.bytes ↔ ∃ id, k = typeIndex typeName id := by
  constructor
  · intro hprefix
    obtain ⟨t, id, rfl⟩ := indexPrefix_iff.mp (indexPrefix_of_typeIndexPrefix hprefix)
    have hslash : utf8 "/" = [47] := rfl
    simp only [bytes, typeIndexPrefix, typeIndexKey, hslash, List.append_assoc, List.prefix_append_right_inj, List.cons_append,
      List.nil_append] at hprefix
    obtain ⟨hname, -⟩ := (prefix_separated_iff h (hk t id rfl)).mp hprefix
    exact ⟨id, by rw [utf8_injective hname]⟩
  · rintro ⟨id, rfl⟩
    exact ⟨encodeId id, rfl⟩

end Key
end AlefsDb
