import AlefsDb.Fuse.Projection

/-!
# When a projected structure agrees with itself

A listing, a lookup and an unlink turn members into names and names into members. They agree for every hash and every list. For a
tree they agree exactly when its values are scalars and each key is the one that its name stands for when it is unlinked: then a name
that reads as an integer is taken for the integer, and any other name for a string.
-/

namespace AlefsDb
namespace Fuse

/-- A value that is itself a directory. -/
def IsStructure (v : Value) : Prop := ∀ s, v ≠ .scalar s

/-- The members of a structure: the value of each one, and the structure without it. -/
def members : Value → List (Value × Value)
  | .hash map => map.map (fun e => (e.2, .hash (OrdMap.eraseKey e.1 map)))
  | .list items => items.zipIdx.map (fun item => (item.1, .list (items.eraseIdx item.2)))
  | .set members => members.zipIdx.map (fun m => (m.1, .set (members.eraseIdx m.2)))
  | .tree map => map.map (fun e => (e.2, .tree (OrdMap.eraseKey e.1 map)))
  | .scalar _ => []

/-- What a listed name and its file type say about a member is so. -/
structure Shows (hasher : Bytes → UInt64) (v : Value) (listed : String × FileType) (member : Value × Value) : Prop where
  value : projectChildValue hasher v listed.1 = some member.1
  type : listed.2 = .directory ↔ IsStructure member.1
  unlinked : projectUnlink hasher v listed.1 = some member.2

/-- Listing, lookup and unlink agree: names without a duplicate, one for each member, that stand for the member. -/
structure Agrees (hasher : Bytes → UInt64) (v : Value) : Prop where
  nodup : ((projectListing hasher v).map Prod.fst).Nodup
  shows : List.Forall₂ (Shows hasher v) (projectListing hasher v) (members v)

/-- The name of the key does not read as another key: an integer, or a string that is not the text of one. -/
def NamesItself : Scalar → Prop
  | .int _ => True
  | .string s => parseI64 s.toList = none
  | _ => False

/-- The structures whose projection agrees with itself. Every list that fits the memory has at most `2 ^ 64` items. -/
def Projects : Value → Prop
  | .list items => items.length ≤ 2 ^ 64
  | .tree map => ∀ e ∈ map, NamesItself e.1 ∧ ¬IsStructure e.2
  | _ => True

/-! ## Names -/

theorem memberType_eq (v : Value) : memberType v = .directory ↔ IsStructure v := by
  cases v <;> simp [memberType, IsStructure]

/-- The key that an unlink takes a name for. -/
def unlinkKey (name : String) : Scalar :=
  match parseI64 name.toList with
  | some n => .int n
  | none => .string name

/-- The key that `unlink` removes from a tree. -/
theorem projectUnlink_tree (hasher : Bytes → UInt64) (map : List (Scalar × Value)) (name : String) :
    projectUnlink hasher (.tree map) name = (removeKey (unlinkKey name) map).map .tree := by
  unfold projectUnlink unlinkKey
  cases parseI64 name.toList <;> rfl

/-- The keys that `unlink` finds by the names that listings give them. -/
theorem unlinkKey_treeKeyName (key : Scalar) : unlinkKey (treeKeyName key) = key ↔ NamesItself key := by
  cases key with
  | int n => simp [unlinkKey, treeKeyName, NamesItself, parseI64_i64Text]
  | string s =>
    unfold unlinkKey treeKeyName NamesItself
    cases hs : parseI64 s.toList <;> simp [hs]
  | _ =>
    unfold unlinkKey NamesItself
    split <;> simp

/-- A lookup that finds the key which an unlink takes the name for finds what the unlink removes. -/
theorem projectChildValue_tree {map : List (Scalar × Value)} {name : String} {v : Value}
    (h : OrdMap.lookup (unlinkKey name) map = some v) (hasher : Bytes → UInt64) :
    projectChildValue hasher (.tree map) name = some v := by
  unfold projectChildValue
  unfold unlinkKey at h
  cases hn : parseI64 name.toList with
  | some n =>
    rw [hn] at h
    simp [h]
  | none =>
    rw [hn] at h
    simp [h]

/-- Names of keys that name themselves are distinct. -/
theorem nodup_treeKeyName {map : List (Scalar × Value)} (hasc : OrdMap.Ascending map) (h : ∀ e ∈ map, NamesItself e.1) :
    (map.map (fun e => treeKeyName e.1)).Nodup := by
  refine List.Nodup.of_map unlinkKey ?_
  have hkeys : (map.map (fun e => treeKeyName e.1)).map unlinkKey = map.map Prod.fst := by
    rw [List.map_map]
    exact List.map_congr_left (fun e he => (unlinkKey_treeKeyName e.1).mpr (h e he))
  rw [hkeys]
  exact List.pairwise_map.mpr (hasc.imp (fun hlt => hlt.ne))

/-! ## Removal -/

section Removal

variable {κ : Type} [LinearOrder κ] {map : List (κ × Value)}

theorem removeKey_of_mem (hasc : OrdMap.Ascending map) {e : κ × Value} (he : e ∈ map) :
    removeKey e.1 map = some (OrdMap.eraseKey e.1 map) := by
  rw [removeKey, OrdMap.lookup_of_mem hasc he, Option.map_some]

/-- What is left when a key is removed tells which key it was. -/
theorem eq_of_removeKey (hasc : OrdMap.Ascending map) {e : κ × Value} (he : e ∈ map) {key : κ}
    (h : removeKey key map = some (OrdMap.eraseKey e.1 map)) : key = e.1 := by
  obtain ⟨v, hv, herase⟩ := Option.map_eq_some_iff.mp h
  by_contra hne
  have hkept : OrdMap.lookup e.1 (OrdMap.eraseKey key map) = some e.2 := by
    rw [OrdMap.lookup_eraseKey, if_neg (Ne.symm hne), OrdMap.lookup_of_mem hasc he]
  rw [herase, OrdMap.lookup_eraseKey, if_pos rfl] at hkept
  exact absurd hkept (by simp)

end Removal

/-! ## Each kind of structure -/

/-- A hash agrees with its listing. -/
theorem hash_agrees {map : List (String × Value)} (hasc : OrdMap.Ascending map) (hasher : Bytes → UInt64) :
    Agrees hasher (.hash map) where
  nodup := by
    have hkeys : (projectListing hasher (.hash map)).map Prod.fst = map.map Prod.fst := List.map_map
    rw [hkeys]
    exact List.pairwise_map.mpr (hasc.imp (fun hlt => hlt.ne))
  shows := by
    refine List.forall₂_map_left_iff.mpr (List.forall₂_map_right_iff.mpr (List.forall₂_same.mpr (fun e he => ?_)))
    exact {
      value := OrdMap.lookup_of_mem hasc he
      type := memberType_eq e.2
      unlinked := by
        unfold projectUnlink
        dsimp only
        rw [removeKey_of_mem hasc he, Option.map_some] }

/-- The name of a list item stands for its index as long as the index fits a `usize`. -/
theorem shows_item_iff {items : List Value} {item : Value × Nat} (h : item ∈ items.zipIdx) (hasher : Bytes → UInt64) :
    Shows hasher (.list items) (String.ofList (natText item.2), memberType item.1) (item.1, .list (items.eraseIdx item.2)) ↔
      item.2 < 2 ^ 64 := by
  have hitem : items[item.2]? = some item.1 := List.mem_zipIdx_iff_getElem?.mp h
  have hlen : item.2 < items.length := (List.getElem?_eq_some_iff.mp hitem).1
  have hparse : parseUsize (String.ofList (natText item.2)).toList = if item.2 < 2 ^ 64 then some item.2 else none := by
    rw [String.toList_ofList, parseUsize_natText]
  constructor
  · intro hshows
    have hvalue := hshows.value
    unfold projectChildValue at hvalue
    dsimp only at hvalue
    rw [hparse] at hvalue
    by_contra hbig
    rw [if_neg hbig] at hvalue
    exact absurd hvalue (by simp)
  · intro hfits
    rw [if_pos hfits] at hparse
    exact {
      value := by
        unfold projectChildValue
        dsimp only
        rw [hparse]
        exact hitem
      type := memberType_eq item.1
      unlinked := by
        unfold projectUnlink
        dsimp only
        rw [hparse, Option.bind_eq_bind, Option.bind_some, if_pos hlen] }

/-- A list agrees with its listing as far as its positions fit 64 bits. -/
theorem list_agrees_iff (items : List Value) (hasher : Bytes → UInt64) :
    Agrees hasher (.list items) ↔ items.length ≤ 2 ^ 64 := by
  have hshows : List.Forall₂ (Shows hasher (.list items)) (projectListing hasher (.list items)) (members (.list items)) ↔
      ∀ item ∈ items.zipIdx, item.2 < 2 ^ 64 := by
    refine List.forall₂_map_left_iff.trans (List.forall₂_map_right_iff.trans (List.forall₂_same.trans ?_))
    exact forall₂_congr (fun item h => shows_item_iff h hasher)
  constructor
  · intro h
    by_contra hlong
    have hlast : 2 ^ 64 < items.length := Nat.lt_of_not_le hlong
    have hmem : (items.get ⟨2 ^ 64, hlast⟩, 2 ^ 64) ∈ items.zipIdx :=
      List.mem_zipIdx_iff_getElem?.mpr (List.getElem?_eq_getElem hlast)
    exact absurd (hshows.mp h.shows _ hmem) (by simp)
  · intro h
    refine ⟨?_, hshows.mpr (fun item hitem => ?_)⟩
    · have hnames : (projectListing hasher (.list items)).map Prod.fst =
          (items.zipIdx.map Prod.snd).map (fun i => String.ofList (natText i)) := by
        rw [projectListing, List.map_map, List.map_map]
        rfl
      have hindices : (items.zipIdx.map Prod.snd).Nodup := by
        rw [List.zipIdx_map_snd]
        exact List.nodup_range'
      rw [hnames]
      exact hindices.map (fun a b hab => natText_injective (String.ofList_injective hab))
    · have := (List.getElem?_eq_some_iff.mp (List.mem_zipIdx_iff_getElem?.mp hitem)).1
      omega

/-- The name of a tree entry stands for it exactly when the key names itself and the value is a file. -/
theorem shows_entry_iff {map : List (Scalar × Value)} (hasc : OrdMap.Ascending map) {e : Scalar × Value} (he : e ∈ map)
    (hasher : Bytes → UInt64) :
    Shows hasher (.tree map) (treeKeyName e.1, .regularFile) (e.2, .tree (OrdMap.eraseKey e.1 map)) ↔
      NamesItself e.1 ∧ ¬IsStructure e.2 := by
  constructor
  · intro h
    have hunlinked := h.unlinked
    rw [projectUnlink_tree] at hunlinked
    obtain ⟨rest, hrest, heq⟩ := Option.map_eq_some_iff.mp hunlinked
    cases heq
    refine ⟨(unlinkKey_treeKeyName e.1).mp (eq_of_removeKey hasc he hrest), fun hstructure => ?_⟩
    exact FileType.noConfusion (h.type.mpr hstructure)
  · intro h
    have hkey := (unlinkKey_treeKeyName e.1).mpr h.1
    exact {
      value := projectChildValue_tree (by rw [hkey, OrdMap.lookup_of_mem hasc he]) hasher
      type := iff_of_false (fun heq => FileType.noConfusion heq) h.2
      unlinked := by rw [projectUnlink_tree, hkey, removeKey_of_mem hasc he, Option.map_some] }

/-- A tree agrees with its listing where its keys name themselves and its values are no structures. -/
theorem tree_agrees_iff {map : List (Scalar × Value)} (hasc : OrdMap.Ascending map) (hasher : Bytes → UInt64) :
    Agrees hasher (.tree map) ↔ ∀ e ∈ map, NamesItself e.1 ∧ ¬IsStructure e.2 := by
  have hshows : List.Forall₂ (Shows hasher (.tree map)) (projectListing hasher (.tree map)) (members (.tree map)) ↔
      ∀ e ∈ map, NamesItself e.1 ∧ ¬IsStructure e.2 := by
    refine List.forall₂_map_left_iff.trans (List.forall₂_map_right_iff.trans (List.forall₂_same.trans ?_))
    exact forall₂_congr (fun e he => shows_entry_iff hasc he hasher)
  constructor
  · exact fun h => hshows.mp h.shows
  · intro h
    refine ⟨?_, hshows.mpr h⟩
    rw [projectListing, List.map_map]
    exact nodup_treeKeyName hasc (fun e he => (h e he).1)

/-- Listing, lookup and unlink agree for every hash, every list, and exactly those trees that hold scalars under integers and under
strings that are not the text of an integer. -/
theorem projection_agrees_iff (hasher : Bytes → UInt64) (v : Value) (hv : v.KeysAscending) (hset : v.asSet = none) :
    Agrees hasher v ↔ Projects v := by
  cases v with
  | scalar s => exact iff_of_true ⟨List.nodup_nil, .nil⟩ trivial
  | hash map => exact iff_of_true (hash_agrees hv hasher) trivial
  | set members => exact absurd hset (by simp [Value.asSet])
  | list items => exact list_agrees_iff items hasher
  | tree map => exact tree_agrees_iff hv hasher

/-- A tree with an integer and a string as keys. -/
theorem projection_agrees_file : Agrees (fun _ => 0) (.tree [(.int 1, .scalar .null), (.string "a", .scalar .null)]) := by
  refine (projection_agrees_iff _ _ (by decide) rfl).mpr (fun e he => ?_)
  rcases List.mem_cons.mp he with rfl | he
  · exact ⟨trivial, fun h => h .null rfl⟩
  · obtain rfl := List.mem_singleton.mp he
    exact ⟨rfl, fun h => h .null rfl⟩

/-- Two entries of one tree are listed under one name. -/
theorem tree_lists_name_twice :
    (Value.tree [(.int 1, .scalar .null), (.string "1", .scalar .null)]).KeysAscending ∧
      ¬∃ hasher, Agrees hasher (.tree [(.int 1, .scalar .null), (.string "1", .scalar .null)]) := by
  refine ⟨by decide, fun ⟨hasher, h⟩ => ?_⟩
  have hlisted : (projectListing hasher (.tree [(.int 1, .scalar .null), (.string "1", .scalar .null)])).map Prod.fst = ["1", "1"] :=
    rfl
  exact absurd (hlisted ▸ h.nodup) (by decide)

end Fuse
end AlefsDb
