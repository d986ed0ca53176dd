import AlefsDb.Lemmas.Methods
import AlefsDb.Theorems.CanonicalBytes

/-!
# Types inside values

The type name of what stands at a path, or inside the value there under keys and indices, and when one value can take the place of
another without a type changing.
-/

namespace AlefsDb

/-- How a member is named in a structure. A set does not name its members. -/
inductive Member where
  | key (k : String)
  | item (i : Nat)
  | entry (k : Scalar)

namespace Value

/-- The member of a name. -/
def member : Value → Member → Option Value
  | hash map, .key k => OrdMap.lookup k map
  | list items, .item i => items[i]?
  | tree map, .entry k => OrdMap.lookup k map
  | _, _ => none

/-- What stands inside a value, under one name after the other. -/
def inside (v : Value) : List Member → Option Value
  | [] => some v
  | m :: ms => (v.member m).bind (fun w => w.inside ms)

@[simp] theorem inside_nil (v : Value) : v.inside [] = some v := rfl

theorem inside_scalar_cons (s : Scalar) (m : Member) (ms : List Member) : (scalar s).inside (m :: ms) = none := by
  cases m <;> rfl

theorem lookup_map_canon {κ : Type} [LinearOrder κ] (k : κ) (map : List (κ × Value)) :
    OrdMap.lookup k (map.map (fun e => (e.1, e.2.canon))) = (OrdMap.lookup k map).map canon := by
  induction map with
  | nil => rfl
  | cons e map ih =>
    rw [List.map_cons, OrdMap.lookup_cons, OrdMap.lookup_cons, ih]
    split <;> rfl

/-- The members of a canonical form are the canonical forms of the members. -/
theorem member_canon (v : Value) (m : Member) : v.canon.member m = (v.member m).map canon := by
  cases v with
  | scalar s => cases m <;> rfl
  | set members => cases m <;> rfl
  | hash map =>
    rw [canon, canonHash_eq]
    cases m with
    | key k => exact lookup_map_canon k map
    | item i | entry k => rfl
  | list items =>
    rw [canon, canonList_eq]
    cases m with
    | item i => exact List.getElem?_map
    | key k | entry k => rfl
  | tree map =>
    rw [canon, canonTree_eq]
    cases m with
    | entry k => exact lookup_map_canon k map
    | key k | item i => rfl

theorem typename_canon (v : Value) : v.canon.typename = v.typename := by
  cases v <;> rfl

/-- Inside the canonical form stand the canonical forms. -/
theorem inside_canon (v : Value) (ms : List Member) : v.canon.inside ms = (v.inside ms).map canon := by
  induction ms generalizing v with
  | nil => rfl
  | cons m ms ih =>
    rw [inside, inside, member_canon]
    cases v.member m with
    | none => rfl
    | some w => exact ih w

/-! ## Values that may take each other's place -/

/-- What stands under the same names in both values has the same type. -/
def TypesAgree (v w : Value) : Prop :=
  ∀ ms a b, v.inside ms = some a → w.inside ms = some b → b.typename = a.typename

/-- Types that agree with those of a value agree with those of its canonical form. -/
theorem TypesAgree.canon {v w : Value} (h : TypesAgree v w) : TypesAgree v w.canon := by
  intro ms a b ha hb
  rw [inside_canon] at hb
  obtain ⟨b', hb', rfl⟩ := Option.map_eq_some_iff.mp hb
  rw [typename_canon, h ms a b' ha hb']

/-- A scalar of the type of a value agrees with it. -/
theorem typesAgree_scalar {v : Value} {s : Scalar} (h : v.typename = (scalar s).typename) : TypesAgree v (scalar s) := by
  intro ms a b ha hb
  cases ms with
  | nil =>
    cases ha
    cases hb
    exact h.symm
  | cons m ms =>
    rw [inside_scalar_cons] at hb
    cases hb

/-- A hash with a member put in agrees with the hash, where the member has the type of the one it replaces. -/
theorem typesAgree_insert {map : List (String × Value)} {name : String} {s : Scalar}
    (h : ∀ w, OrdMap.lookup name map = some w → w.typename = (scalar s).typename) :
    TypesAgree (hash map) (hash (OrdMap.insertEntry name (scalar s) map)) := by
  intro ms a b ha hb
  cases ms with
  | nil =>
    cases ha
    cases hb
    rfl
  | cons m ms =>
    cases m with
    | key k =>
      obtain ⟨v, hv, ha⟩ := Option.bind_eq_some_iff.mp ha
      obtain ⟨w, hw, hb⟩ := Option.bind_eq_some_iff.mp hb
      rw [member, OrdMap.lookup_insertEntry] at hw
      split at hw
      · rename_i hk
        cases hw
        exact typesAgree_scalar (h v (hk ▸ hv)) ms a b ha hb
      · have hvw : some v = some w := hv.symm.trans hw
        cases hvw
        rw [ha] at hb
        cases hb
        rfl
    | item i => cases ha
    | entry k => cases ha

end Value

/-! ## Databases -/

namespace Database

/-- The value at a path, as it is read. -/
def HoldsValue (db : Database) (path : DbPath) (v : Value) : Prop := ∃ e, db.get path = .ok e ∧ e.value = some v

/-- The type of what stands at a path, or inside the value there. -/
def typeAt (db : Database) (path : DbPath) (ms : List Member) : Option String :=
  match db.get path with
  | .ok e => (e.value.bind (fun v => v.inside ms)).map Value.typename
  | .error _ => none

/-- What there is before and after has the same type. -/
def KeepsTypes (db db' : Database) : Prop :=
  ∀ path ms t t', db.typeAt path ms = some t → db'.typeAt path ms = some t' → t' = t

/-- A type that is found is that of a value inside the one that the path holds. -/
theorem typeAt_eq_some {db : Database} {path : DbPath} {ms : List Member} {t : String} (h : db.typeAt path ms = some t) :
    ∃ v a, db.HoldsValue path v ∧ v.inside ms = some a ∧ a.typename = t := by
  unfold typeAt at h
  split at h
  · rename_i e he
    obtain ⟨a, ha, rfl⟩ := Option.map_eq_some_iff.mp h
    obtain ⟨v, hv, ha⟩ := Option.bind_eq_some_iff.mp ha
    exact ⟨v, a, ⟨e, he, hv⟩, ha, rfl⟩
  · cases h

/-- A path holds one value. -/
theorem HoldsValue.unique {db : Database} {path : DbPath} {v w : Value} (hv : db.HoldsValue path v) (hw : db.HoldsValue path w) :
    v = w := by
  obtain ⟨e, he, hv⟩ := hv
  obtain ⟨e', he', hw⟩ := hw
  rw [he] at he'
  cases he'
  exact Option.some.inj (hv.symm.trans hw)

theorem keepsTypes_refl (db : Database) : KeepsTypes db db := by
  intro path ms t t' ht ht'
  rw [ht] at ht'
  exact (Option.some.inj ht').symm

variable {db db' : Database} {G : Graph} {next : UInt64} {path : DbPath} {v : Value}

/-- A value that is read is the one of a node. -/
theorem holdsValue_iff (h : Stores db.store.map G next) :
    db.HoldsValue path v ↔ ∃ id w, G path.segments = some (id, .value w) ∧ decodeNode (Codec.encode w) = .ok v := by
  unfold HoldsValue
  rw [get_eq h]
  constructor
  · intro ⟨e, he, hv⟩
    cases hG : G path.segments with
    | none =>
      rw [hG] at he
      exact absurd he (Rust.err_ne_ok _ _)
    | some x =>
      obtain ⟨id, a⟩ := x
      rw [hG] at he
      cases a with
      | dir =>
        cases he
        cases hv
      | value w =>
        obtain ⟨u, hu, hentry⟩ := Rust.bind_eq_ok.mp he
        cases hentry
        cases hv
        exact ⟨id, w, rfl, hu⟩
  · intro ⟨id, w, hG, hw⟩
    refine ⟨{ path := path, kind := .value, value := some v }, ?_, rfl⟩
    rw [hG]
    exact Rust.bind_eq_ok.mpr ⟨v, hw, rfl⟩

/-- What is read is ordered, and its lengths fit. -/
theorem HoldsValue.wellRead (h : Stores db.store.map G next) (hv : db.HoldsValue path v) : v.Ordered ∧ v.Small := by
  obtain ⟨id, w, -, hw⟩ := (holdsValue_iff h).mp hv
  have hread := Codec.decode_wellRead (decodeNode_eq_ok hw)
  exact ⟨hread.ordered, hread.small⟩

/-- The change of `set` is at its path alone, and leaves the value there. -/
theorem planSet_graph {c : Change} (h : G.planSet next path v = .ok c) :
    (∀ p, p ≠ path.segments → c.graph G next p = G p) ∧ ∃ id, c.graph G next path.segments = some (id, .value v) := by
  unfold Graph.planSet at h
  split at h
  · rename_i parent name hparent hname
    have hsegments := DbPath.segments_eq hparent hname
    obtain ⟨i, -, h⟩ := Rust.bind_eq_ok.mp h
    split at h
    · cases h
    · rename_i j old hold
      obtain ⟨_, -, h⟩ := Rust.bind_eq_ok.mp h
      cases h
      exact ⟨fun p hp => Function.update_of_ne hp _ _, j, Function.update_self _ _ _⟩
    · obtain ⟨_, -, h⟩ := Rust.bind_eq_ok.mp h
      cases h
      rw [hsegments]
      exact ⟨fun p hp => Function.update_of_ne hp _ _, next, Function.update_self _ _ _⟩
  · cases h

/-- `set` that succeeds leaves the rows of the graph with its value. -/
theorem set_ok_cases (h : Stores db.store.map G next) (hset : set path v db = .ok () db') :
    ∃ G' next', Stores db'.store.map G' next' ∧ (∀ p, p ≠ path.segments → G' p = G p) ∧
      ∃ id, G' path.segments = some (id, .value v) := by
  rw [set_eq h] at hset
  cases hplan : G.planSet next path v with
  | error e =>
    rw [hplan] at hset
    cases hset
  | ok c =>
    rw [hplan] at hset
    cases hset
    exact ⟨c.graph G next, c.nextId next, h.change (Graph.planSet_fits hplan), planSet_graph hplan⟩

/-- `set` keeps the types where what is then read at its path may take the place of what was read there. -/
theorem keepsTypes_of_set (h : Stores db.store.map G next) (hset : set path v db = .ok () db')
    (hv : ∀ a b, db.HoldsValue path a → decodeNode (Codec.encode v) = .ok b → a.TypesAgree b) : KeepsTypes db db' := by
  obtain ⟨G', next', h', hother, id, hG'⟩ := set_ok_cases h hset
  intro q ms t t' ht ht'
  obtain ⟨a, x, ha, hx, rfl⟩ := typeAt_eq_some ht
  obtain ⟨b, y, hb, hy, rfl⟩ := typeAt_eq_some ht'
  by_cases hq : q.segments = path.segments
  · have hqpath : q = path := DbPath.ext hq
    subst hqpath
    obtain ⟨id', w, hw, hread⟩ := (holdsValue_iff h').mp hb
    rw [hG'] at hw
    cases hw
    exact hv a b ha hread ms x y hx hy
  · obtain ⟨_, w, hw, hread⟩ := (holdsValue_iff h).mp ha
    have hsame : db'.HoldsValue q a := (holdsValue_iff h').mpr ⟨_, w, (hother _ hq).trans hw, hread⟩
    cases hsame.unique hb
    rw [hx] at hy
    cases hy
    rfl

end Database
end AlefsDb
