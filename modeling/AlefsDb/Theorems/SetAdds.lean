import AlefsDb.Lemmas.Great
import AlefsDb.Lemmas.Layout
import AlefsDb.Lemmas.SameRows

/-!
# Adding to a set

`set_add` of several values leaves the set of the distinct payloads, whatever the order and the repetitions. Members are compared as
they are in memory, stored in canonical form, and read back as stored: it rests on a canonical form being read back, which takes
lengths below `2 ^ 32`.
-/

namespace AlefsDb

open Codec

/-! ## Canonical sets -/

/-- Values whose canonical forms are read back, with no more payloads than a set can have. -/
structure MembersFit (all : List Value) : Prop where
  ordered : ∀ m ∈ all, m.Ordered
  small : ∀ m ∈ all, m.canon.Small
  distinct : (sortDedup id (all.map encodePayload)).length < 2 ^ 32

/-- Ordered values with the canonical forms of some of the values. -/
def Among (all xs : List Value) : Prop := ∀ x ∈ xs, x.Ordered ∧ x.canon ∈ all.map Value.canon

theorem encodePayload_canon (v : Value) : encodePayload v.canon = encodePayload v := Value.encodeValue_canon v

/-- Where canonical forms are read back, payloads tell them apart. -/
theorem canon_eq_of_payload {v w : Value} (hv : v.Ordered) (hvs : v.canon.Small) (hw : w.Ordered) (hws : w.canon.Small)
    (h : encodePayload v = encodePayload w) : v.canon = w.canon := by
  have hdecode : decode (encode v) = decode (encode w) := congrArg (fun payload => decode (codecVersion :: payload)) h
  rw [decode_encode_of_canon hv hvs, decode_encode_of_canon hw hws] at hdecode
  exact Except.ok.inj hdecode

namespace MembersFit

variable {all xs ys : List Value}

/-- Members of a set that fits are small. -/
theorem small_of_among (h : MembersFit all) (hxs : Among all xs) {x : Value} (hx : x ∈ xs) : x.canon.Small := by
  obtain ⟨m, hm, hcanon⟩ := List.mem_map.mp (hxs x hx).2
  exact hcanon ▸ h.small m hm

/-- Canonical members are told apart by their encodings. -/
theorem payload_inj (h : MembersFit all) (hxs : Among all xs) :
    ∀ a ∈ xs.map Value.canon, ∀ b ∈ xs.map Value.canon, encodePayload a = encodePayload b → a = b := by
  intro a ha b hb hab
  obtain ⟨x, hx, rfl⟩ := List.mem_map.mp ha
  obtain ⟨y, hy, rfl⟩ := List.mem_map.mp hb
  rw [encodePayload_canon, encodePayload_canon] at hab
  exact canon_eq_of_payload (hxs x hx).1 (h.small_of_among hxs hx) (hxs y hy).1 (h.small_of_among hxs hy) hab

theorem among_self (h : MembersFit all) : Among all all := fun x hx => ⟨h.ordered x hx, List.mem_map_of_mem hx⟩

/-- The members of the canonical set are the canonical forms. -/
theorem mem_canon (h : MembersFit all) (hxs : Among all xs) {c : Value} :
    c ∈ sortDedup encodePayload (Value.canonList xs) ↔ c ∈ xs.map Value.canon := by
  rw [Value.canonList_eq]
  exact mem_sortDedup_iff (h.payload_inj hxs)

/-- Sets with the same canonical members have one canonical form. -/
theorem canon_eq (h : MembersFit all) (hxs : Among all xs) (hys : Among all ys)
    (hmem : ∀ c, c ∈ xs.map Value.canon ↔ c ∈ ys.map Value.canon) : (Value.set xs).canon = (Value.set ys).canon := by
  rw [Value.canon, Value.canon, sortDedup_ext (fun c => (h.mem_canon hxs).trans ((hmem c).trans (h.mem_canon hys).symm))]

theorem length_canon (xs : List Value) :
    (sortDedup encodePayload (Value.canonList xs)).length = (sortDedup id (xs.map encodePayload)).length := by
  have hpayloads : encodePayloads (Value.canonList xs) = xs.map encodePayload := by
    rw [encodePayloads_eq, Value.canonList_eq, List.map_map]
    exact List.map_congr_left (fun x _ => encodePayload_canon x)
  rw [← hpayloads, sortDedup_encodePayloads, List.length_map]

/-- A set of some of the values is read back. -/
theorem read_back (h : MembersFit all) (hxs : Among all xs) :
    Database.decodeNode (encode (.set xs)) = .ok (Value.set xs).canon := by
  have hordered : (Value.set xs).Ordered := .intro _ trivial (fun x hx => (hxs x hx).1)
  have hsub : sortDedup encodePayload (Value.canonList xs) ⊆ sortDedup encodePayload (Value.canonList all) := by
    intro c hc
    obtain ⟨x, hx, rfl⟩ := List.mem_map.mp ((h.mem_canon hxs).mp hc)
    exact (h.mem_canon h.among_self).mpr (hxs x hx).2
  have hlength := (List.subperm_of_subset (nodup_sortDedup _ _) hsub).length_le
  have hsmall : (Value.set xs).canon.Small := by
    refine .intro _ ?_ (fun c hc => ?_)
    · show (sortDedup encodePayload (Value.canonList xs)).length < 2 ^ 32
      have := h.distinct
      rw [← length_canon] at this
      omega
    · obtain ⟨x, hx, rfl⟩ := List.mem_map.mp ((h.mem_canon hxs).mp hc)
      exact h.small_of_among hxs hx
  rw [Database.decodeNode, decode_encode_of_canon hordered hsmall]
  rfl

/-- The members read back, with one of the values added. -/
theorem addMember_canon (h : MembersFit all) (hxs : Among all xs) {w : Value} (hw : w ∈ all) :
    Among all (Database.addMember xs w) ∧
      ∀ c, c ∈ (Database.addMember xs w).map Value.canon ↔ c ∈ xs.map Value.canon ∨ c = w.canon := by
  unfold Database.addMember
  split
  · rename_i hany
    obtain ⟨m, hm, hpayload⟩ := List.any_eq_true.mp hany
    have hcanon : m.canon = w.canon :=
      canon_eq_of_payload (hxs m hm).1 (h.small_of_among hxs hm) (h.ordered w hw) (h.small w hw) (by simpa using hpayload)
    refine ⟨hxs, fun c => ⟨Or.inl, ?_⟩⟩
    rintro (hc | rfl)
    · exact hc
    · exact hcanon ▸ List.mem_map_of_mem hm
  · refine ⟨?_, fun c => by simp⟩
    intro x hx
    rcases List.mem_append.mp hx with hx | hx
    · exact hxs x hx
    · obtain rfl := List.mem_singleton.mp hx
      exact h.among_self x hw

/-- The canonical members of some of the values are among them, and are canonical. -/
theorem among_canon (h : MembersFit all) (hxs : Among all xs) :
    Among all (sortDedup encodePayload (Value.canonList xs)) ∧
      ∀ c, c ∈ (sortDedup encodePayload (Value.canonList xs)).map Value.canon ↔ c ∈ xs.map Value.canon := by
  have hcanon : ∀ c ∈ sortDedup encodePayload (Value.canonList xs), c.canon = c := by
    intro c hc
    obtain ⟨x, -, rfl⟩ := List.mem_map.mp ((h.mem_canon hxs).mp hc)
    exact x.canon_canon
  refine ⟨fun c hc => ?_, fun c => ?_⟩
  · rw [hcanon c hc]
    obtain ⟨x, hx, rfl⟩ := List.mem_map.mp ((h.mem_canon hxs).mp hc)
    exact ⟨(hxs x hx).1.canon, (hxs x hx).2⟩
  · rw [List.map_congr_left hcanon, List.map_id', h.mem_canon hxs]

end MembersFit

namespace Database

/-! ## Adding values -/

/-- `set_add` of values, one after the other. -/
def setAddAll (path : DbPath) (values : List Value) : DbM Unit := values.forM (setAdd path)

/-- There is nothing at the path, in a directory that exists, or a set that was stored with the members. -/
def TakesMembers (db : Database) (path : DbPath) (members : List Value) : Prop :=
  (members = [] ∧ db.exists path = .ok false ∧ ∃ parent id, path.parent = some parent ∧ db.resolve parent = .ok (id, .dir)) ∨
  ((Value.set members).Ordered ∧ ∃ id, db.resolve path = .ok (id, .value (encode (.set members))))

/-- Values are added to the members at a path: the database that is left does not depend on their order and repetitions, its members
are in the order of their payloads, and the canonical forms among them are those of the payloads that were there or were added. -/
structure AddsExactly (db : Database) (path : DbPath) (members values : List Value) (db' : Database) : Prop where
  anyOrder : ∀ values', (∀ v, v ∈ values' ↔ v ∈ values) → setAddAll path values' db = .ok () db'
  stored : ∃ stored, db'.get path = .ok { path := path, kind := .value, value := some (.set stored) } ∧
    stored.Pairwise (fun a b => encodePayload a < encodePayload b) ∧
    ∀ w : Value, w.Ordered → (w.canon ∈ stored ↔ ∃ m ∈ members ++ values, encodePayload w = encodePayload m)

/-- The members can be counted in four bytes, no value with a length from `2 ^ 32` on has the payload of one of them, and an id is
left for a new set. -/
structure AddsFit (db : Database) (path : DbPath) (members values : List Value) : Prop where
  distinct : (sortDedup id ((members ++ values).map encodePayload)).length < 2 ^ 32
  lengths : ∀ m ∈ members ++ values, ∀ w : Value, w.Ordered → encodePayload w = encodePayload m → w.canon.Small
  idLeft : db.exists path = .ok false → ∀ id, db.nextId = .ok id → id.toNat + 1 < 2 ^ 64

variable {db : Database} {G : Graph} {next : UInt64} {path : DbPath}

/-- `set_add` to a set. -/
theorem setAdd_present (h : Stores db.store.map G next) {i : UInt64} {v : Value} {members : List Value}
    (hp : G path.segments = some (i, .value v)) (hv : decodeNode (encode v) = .ok (.set members)) (w : Value) :
    ∃ db', setAdd path w db = .ok () db' ∧
      Stores db'.store.map (G.replace path.segments i (.set (addMember members w))) next := by
  have hroot : path.segments ≠ [] := by
    intro hnil
    rw [hnil, h.wf.root] at hp
    cases hp
  obtain ⟨parent, name, hparent, hname, hsegments⟩ := DbPath.split hroot
  obtain ⟨j, hj⟩ := h.wf.parent (hsegments ▸ hp)
  have hplan : G.plan next (.setAdd path w) = .ok (.replace path.segments i v (.set (addMember members w))) := by
    simp [Graph.plan, Graph.contentOr, hp, hv, Value.asSet, Graph.planSet, hparent, hname, Graph.parentId, hj]
  rcases call_cases h (.setAdd path w) with ⟨e, -, hplan'⟩ | ⟨c, hcall, hplan', -, hstores⟩
  · rw [hplan] at hplan'
    cases hplan'
  · rw [hplan] at hplan'
    cases hplan'
    exact ⟨_, hcall, hstores⟩

/-- `set_add` where nothing is. -/
theorem setAdd_absent (h : Stores db.store.map G next) (hp : G path.segments = none) {parent : DbPath} {j : UInt64}
    (hparent : path.parent = some parent) (hj : G parent.segments = some (j, .dir)) (w : Value) :
    (next.toNat + 1 < 2 ^ 64 ∧ ∃ db', setAdd path w db = .ok () db' ∧
      Stores db'.store.map (G.replace path.segments next (.set [w])) (next + 1)) ∨
    (¬next.toNat + 1 < 2 ^ 64 ∧ ∃ e, setAdd path w db = .error e db) := by
  have hroot : path.segments ≠ [] := by
    intro hnil
    rw [hnil, h.wf.root] at hp
    cases hp
  obtain ⟨parent', name, hparent', hname, hsegments⟩ := DbPath.split hroot
  obtain rfl : parent' = parent := Option.some.inj (hparent'.symm.trans hparent)
  have hplan : G.plan next (.setAdd path w) = (do
      let _ ← succId next
      return .create parent'.segments name j (.value (.set [w]))) := by
    simp [Graph.plan, Graph.contentOr, hp, Graph.planSet, hparent, hname, Graph.parentId, hj, addMember]
  by_cases hnext : next.toNat + 1 < 2 ^ 64
  · rw [succId, if_pos hnext] at hplan
    rcases call_cases h (.setAdd path w) with ⟨e, -, hplan'⟩ | ⟨c, hcall, hplan', -, hstores⟩
    · rw [hplan] at hplan'
      cases hplan'
    · rw [hplan] at hplan'
      cases hplan'
      exact Or.inl ⟨hnext, _, hcall, by rw [Graph.replace, hsegments]; exact hstores⟩
  · rw [succId, if_neg hnext] at hplan
    rcases call_cases h (.setAdd path w) with ⟨e, hcall, -⟩ | ⟨c, -, hplan', -⟩
    · exact Or.inr ⟨hnext, e, hcall⟩
    · rw [hplan] at hplan'
      cases hplan'

/-- Values are added to a set. -/
theorem setAddAll_present {all : List Value} (hall : MembersFit all) {values : List Value} (hvalues : ∀ w ∈ values, w ∈ all)
    {db : Database} {G : Graph} (h : Stores db.store.map G next) {i : UInt64} {v : Value}
    (hp : G path.segments = some (i, .value v)) {xs : List Value} (hv : encode v = encode (.set xs)) (hxs : Among all xs) :
    ∃ db' v' ys, setAddAll path values db = .ok () db' ∧ Stores db'.store.map (G.replace path.segments i v') next ∧
      encode v' = encode (.set ys) ∧ Among all ys ∧
      ∀ c, c ∈ ys.map Value.canon ↔ c ∈ xs.map Value.canon ∨ c ∈ values.map Value.canon := by
  induction values generalizing db G v xs with
  | nil =>
    refine ⟨db, v, xs, rfl, ?_, hv, hxs, fun c => by simp⟩
    rwa [Graph.replace, ← hp, Function.update_eq_self]
  | cons w values ih =>
    have hread : decodeNode (encode v) = .ok (.set (sortDedup encodePayload (Value.canonList xs))) := by
      rw [hv]
      exact hall.read_back hxs
    obtain ⟨db₁, hcall, h₁⟩ := setAdd_present h hp hread w
    obtain ⟨hcanon, hmem⟩ := hall.among_canon hxs
    obtain ⟨hadd, hmem'⟩ := hall.addMember_canon hcanon (hvalues w List.mem_cons_self)
    obtain ⟨db', v', ys, hrest, h', hv', hys, hmem''⟩ := ih (fun w hw => hvalues w (List.mem_cons_of_mem _ hw)) h₁
      (Function.update_self _ _ _) rfl hadd
    refine ⟨db', v', ys, ?_, ?_, hv', hys, fun c => ?_⟩
    · exact (bind_of_ok hcall _).trans hrest
    · rwa [Graph.replace, Graph.replace, Function.update_idem] at h'
    · rw [hmem'', hmem', hmem, List.map_cons, List.mem_cons]
      tauto

/-- Members that have been taken are ordered. -/
theorem TakesMembers.ordered {members : List Value} (hpath : TakesMembers db path members) : (Value.set members).Ordered := by
  rcases hpath with ⟨rfl, -⟩ | ⟨hordered, -⟩
  · exact .intro _ trivial (fun m hm => absurd hm List.not_mem_nil)
  · exact hordered

/-- A set that was stored, or nothing in a directory, as the graph has it. -/
theorem TakesMembers.cases (h : Stores db.store.map G next) {members : List Value} (hpath : TakesMembers db path members) :
    (members = [] ∧ G path.segments = none ∧ ∃ parent j, path.parent = some parent ∧ G parent.segments = some (j, .dir)) ∨
    ((Value.set members).Ordered ∧ ∃ i v, G path.segments = some (i, .value v) ∧ encode v = encode (.set members)) := by
  rcases hpath with ⟨hnil, habsent, parent, j, hparent, hresolve⟩ | ⟨hordered, i, hresolve⟩
  · refine Or.inl ⟨hnil, ?_, parent, j, hparent, ?_⟩
    · rw [exists_eq h] at habsent
      simpa using habsent
    · rw [resolve_eq h] at hresolve
      split at hresolve
      · rename_i x hx
        obtain ⟨j', a⟩ := x
        simp only [Except.ok.injEq, Prod.mk.injEq, Node.record_eq_dir] at hresolve
        rw [hx, hresolve.1, hresolve.2]
      · cases hresolve
  · refine Or.inr ⟨hordered, ?_⟩
    rw [resolve_eq h] at hresolve
    split at hresolve
    · rename_i x hx
      obtain ⟨j, a⟩ := x
      cases a with
      | dir => cases hresolve
      | value v =>
        simp only [Node.record, Except.ok.injEq, Prod.mk.injEq, NodeRecord.value.injEq] at hresolve
        exact ⟨j, v, hx, hresolve.2⟩
    · cases hresolve

/-- Values that fit are added, in whatever order and however often, to the same place. -/
theorem setAddAll_fits (h : Stores db.store.map G next) {members values : List Value} (hpath : TakesMembers db path members)
    (hne : values ≠ []) (hall : MembersFit (members ++ values))
    (hid : G path.segments = none → next.toNat + 1 < 2 ^ 64) :
    ∃ i next', ∀ values', (∀ v, v ∈ values' ↔ v ∈ values) → ∃ db' v' ys, setAddAll path values' db = .ok () db' ∧
      Stores db'.store.map (G.replace path.segments i v') next' ∧ encode v' = encode (.set ys) ∧ Among (members ++ values) ys ∧
      ∀ c, c ∈ ys.map Value.canon ↔ c ∈ (members ++ values).map Value.canon := by
  have hcanon : ∀ {values' : List Value}, (∀ v, v ∈ values' ↔ v ∈ values) →
      ∀ c, c ∈ values'.map Value.canon ↔ c ∈ values.map Value.canon := by
    intro values' hsame c
    simp only [List.mem_map, hsame]
  rcases hpath.cases h with ⟨rfl, hp, parent, j, hparent, hj⟩ | ⟨hordered, i, v, hp, hv⟩
  · refine ⟨next, next + 1, fun values' hsame => ?_⟩
    cases values' with
    | nil => exact absurd (List.eq_nil_iff_forall_not_mem.mpr (fun v hv => List.not_mem_nil ((hsame v).mpr hv))) hne
    | cons w values' =>
      have hmem : ∀ u ∈ w :: values', u ∈ [] ++ values := fun u hu => (hsame u).mp hu
      rcases setAdd_absent h hp hparent hj w with ⟨-, db₁, hcall, h₁⟩ | ⟨hnot, -⟩
      · obtain ⟨db', v', ys, hrest, h', hv', hys, hmem'⟩ := setAddAll_present hall
          (fun u hu => hmem u (List.mem_cons_of_mem _ hu)) h₁ (Function.update_self _ _ _) rfl
          (fun u hu => hall.among_self u (hmem u (List.mem_singleton.mp hu ▸ List.mem_cons_self)))
        refine ⟨db', v', ys, (bind_of_ok hcall _).trans hrest, ?_, hv', hys, fun c => ?_⟩
        · rwa [Graph.replace, Graph.replace, Function.update_idem] at h'
        · rw [hmem', List.nil_append, ← hcanon hsame c, List.map_cons, List.map_cons, List.mem_cons, List.mem_cons]
          simp
      · exact absurd (hid hp) hnot
  · refine ⟨i, next, fun values' hsame => ?_⟩
    obtain ⟨db', v', ys, hrest, h', hv', hys, hmem'⟩ := setAddAll_present hall
      (fun u hu => List.mem_append_right _ ((hsame u).mp hu)) h hp hv
      (fun m hm => hall.among_self m (List.mem_append_left _ hm))
    refine ⟨db', v', ys, hrest, h', hv', hys, fun c => ?_⟩
    rw [hmem', hcanon hsame, List.map_append, List.mem_append]

/-- Values that fit are added exactly. -/
theorem addsExactly_of_fits (h : Stores db.store.map G next) {members values : List Value} (hpath : TakesMembers db path members)
    (hne : values ≠ []) (hordered : ∀ v ∈ values, v.Ordered) (hfit : AddsFit db path members values) :
    ∃ db', AddsExactly db path members values db' := by
  have hall : MembersFit (members ++ values) := by
    have hordered' : ∀ m ∈ members ++ values, m.Ordered := by
      intro m hm
      rcases List.mem_append.mp hm with hm | hm
      · exact hpath.ordered.inside hm
      · exact hordered m hm
    exact ⟨hordered', fun m hm => hfit.lengths m hm m (hordered' m hm) rfl, hfit.distinct⟩
  have hid : G path.segments = none → next.toNat + 1 < 2 ^ 64 :=
    fun hp => hfit.idLeft (by rw [exists_eq h, hp]; rfl) next (nextId_eq h)
  obtain ⟨i, next', hadd⟩ := setAddAll_fits h hpath hne hall hid
  obtain ⟨db', v', ys, -, h', hv', hys, hmem⟩ := hadd values (fun v => Iff.rfl)
  have hread : decodeNode (encode v') = .ok (Value.set ys).canon := by rw [hv', hall.read_back hys]
  refine ⟨db', ?_, sortDedup encodePayload (Value.canonList ys), ?_, sortDedup_ascending _ _, fun w hw => ?_⟩
  · intro values' hsame
    obtain ⟨db₁, v₁, ys₁, hcall, h₁, hv₁, hys₁, hmem₁⟩ := hadd values' hsame
    have hread₁ : decodeNode (encode v₁) = .ok (Value.set ys₁).canon := by rw [hv₁, hall.read_back hys₁]
    have hcanon : (Value.set ys₁).canon = (Value.set ys).canon :=
      hall.canon_eq hys₁ hys (fun c => (hmem₁ c).trans (hmem c).symm)
    have hencode : encode v₁ = encode v' := by
      calc encode v₁ = encode (Value.set ys₁).canon := by rw [hv₁, encode, encode, Value.encodeValue_canon]
        _ = encode (Value.set ys).canon := by rw [hcanon]
        _ = encode v' := by rw [hv', encode, encode, Value.encodeValue_canon]
    have htype : v₁.typename = v'.typename := by rw [← typename_of_decodeNode hread₁, ← typename_of_decodeNode hread, hcanon]
    have hsame := Node.same_value hencode htype
    rw [hcall, eq_of_stores h₁ h' (G.same_replace _ i hsame) (G.same_replace _ i hsame.symm)]
  · rw [get_eq h', Graph.replace, Function.update_self]
    dsimp only
    rw [entryOf, hread]
    rfl
  · rw [hall.mem_canon hys, hmem, List.mem_map]
    refine exists_congr (fun m => and_congr_right (fun hm => ⟨fun hcanon => ?_, fun hpayload => ?_⟩))
    · rw [← encodePayload_canon w, ← hcanon, encodePayload_canon]
    · exact canon_eq_of_payload (hall.ordered m hm) (hall.small m hm) hw (hfit.lengths m hm w hw hpayload) hpayload.symm

/-- Where values are added exactly, they fit. -/
theorem fits_of_addsExactly (h : Stores db.store.map G next) {members values : List Value} (hpath : TakesMembers db path members)
    (hne : values ≠ []) (hordered : ∀ v ∈ values, v.Ordered) {db' : Database} (hadds : AddsExactly db path members values db') :
    AddsFit db path members values := by
  obtain ⟨stored, hget, -, hmem⟩ := hadds.stored
  have hsmall : (Value.set stored).Small := by
    obtain ⟨⟨id, record⟩, -, hrecord⟩ := Rust.bind_eq_ok.mp hget
    cases record with
    | dir => cases hrecord
    | value encoded =>
      obtain ⟨v, hv, hentry⟩ := Rust.bind_eq_ok.mp hrecord
      cases hentry
      exact (decode_wellRead (decodeNode_eq_ok hv)).small
  refine ⟨?_, ?_, ?_⟩
  · have hmembers : ∀ m ∈ members ++ values, m.Ordered := by
      intro m hm
      rcases List.mem_append.mp hm with hm | hm
      · exact hpath.ordered.inside hm
      · exact hordered m hm
    have hsub : sortDedup encodePayload (Value.canonList (members ++ values)) ⊆ stored := by
      intro c hc
      have hc := mem_of_mem_sortDedup hc
      rw [Value.canonList_eq] at hc
      obtain ⟨m, hm, rfl⟩ := List.mem_map.mp hc
      exact (hmem m (hmembers m hm)).mpr ⟨m, hm, rfl⟩
    have hlength := (List.subperm_of_subset (nodup_sortDedup _ _) hsub).length_le
    rw [MembersFit.length_canon] at hlength
    exact lt_of_le_of_lt hlength hsmall.here
  · intro m hm w hw hpayload
    exact hsmall.inside ((hmem w hw).mpr ⟨m, hm, hpayload⟩)
  · intro habsent id hid
    obtain rfl : next = id := Except.ok.inj ((nextId_eq h).symm.trans hid)
    rcases hpath.cases h with ⟨rfl, hp, parent, j, hparent, hj⟩ | ⟨-, i, v, hp, -⟩
    · by_contra hnext
      obtain ⟨w, rest, rfl⟩ := List.exists_cons_of_ne_nil hne
      have hcall := hadds.anyOrder (w :: rest) (fun v => Iff.rfl)
      rcases setAdd_absent h hp hparent hj w with ⟨hleft, -⟩ | ⟨-, e, herror⟩
      · exact hnext hleft
      · rw [show setAddAll path (w :: rest) db = .error e db from bind_of_error herror _] at hcall
        cases hcall
    · rw [exists_eq h, hp] at habsent
      cases habsent

/-- Set insertion is order-independent, idempotent and exact. In every state of a run, values are added exactly, to a set or where
nothing is in a directory, if and only if they fit. -/
theorem setAdd_exact_iff (hreached : Reached (fun _ => True) db) {members values : List Value} (hpath : TakesMembers db path members)
    (hne : values ≠ []) (hordered : ∀ v ∈ values, v.Ordered) :
    (∃ db', AddsExactly db path members values db') ↔ AddsFit db path members values := by
  obtain ⟨G, next, h⟩ := hreached.stores
  constructor
  · rintro ⟨db', hadds⟩
    exact fits_of_addsExactly h hpath hne hordered hadds
  · exact addsExactly_of_fits h hpath hne hordered

/-- A set of two integers, in both orders. -/
def pairOnce : Value := .set [.scalar (.int 2), .scalar (.int 1)]
def pairAgain : Value := .set [.scalar (.int 1), .scalar (.int 2)]

/-- A pair is added, an integer, and the pair again. -/
theorem setAdd_exact_pairs : ∃ db', AddsExactly opened pathA [] [pairOnce, .scalar (.int 5), pairAgain] db' := by
  have hreached : Reached (fun _ => True) opened := ⟨[], Run.nil⟩
  have hpath : TakesMembers opened pathA [] :=
    Or.inl ⟨rfl, by decide +kernel, DbPath.root, rootId, by decide, by decide +kernel⟩
  have hints : ∀ ints : List Int64, (Value.set (ints.map (fun n => .scalar (.int n)))).Ordered := by
    intro ints
    refine .intro _ trivial (fun m hm => ?_)
    obtain ⟨n, -, rfl⟩ := List.mem_map.mp hm
    exact Value.everywhere_scalar trivial
  have hordered : ∀ v ∈ [pairOnce, .scalar (.int 5), pairAgain], v.Ordered := by
    intro v hv
    simp only [List.mem_cons, List.not_mem_nil, or_false] at hv
    rcases hv with rfl | rfl | rfl
    · exact hints [2, 1]
    · exact Value.everywhere_scalar trivial
    · exact hints [1, 2]
  refine (setAdd_exact_iff hreached hpath (by simp) hordered).mpr ⟨by decide +kernel, ?_, ?_⟩
  · have hshort : ∀ m ∈ [] ++ [pairOnce, .scalar (.int 5), pairAgain], (encodePayload m).length < 2 ^ 32 := by decide +kernel
    exact fun m hm w _ hpayload => small_canon_of_payload (hpayload ▸ hshort m hm)
  · intro _ id hid
    have hnext : opened.nextId = .ok 2 := by decide +kernel
    rw [hnext] at hid
    cases hid
    decide

/-- Bytes of the length `2 ^ 32` are not added exactly. -/
theorem setAdd_not_exact : ∃ db path v, Reached (fun _ => True) db ∧ TakesMembers db path [] ∧ v.Ordered ∧
    ¬∃ db', AddsExactly db path [] [v] db' := by
  obtain ⟨b, hb⟩ : ∃ b : Bytes, b.length = 2 ^ 32 := ⟨List.replicate (2 ^ 32) 0, List.length_replicate⟩
  have hpath : TakesMembers opened pathA [] :=
    Or.inl ⟨rfl, by decide +kernel, DbPath.root, rootId, by decide, by decide +kernel⟩
  have hordered : (Value.scalar (.bytes b)).Ordered := Value.everywhere_scalar trivial
  refine ⟨opened, pathA, .scalar (.bytes b), ⟨[], Run.nil⟩, hpath, hordered, ?_⟩
  rintro ⟨db', hadds⟩
  have hfit := fits_of_addsExactly opened_stores hpath (by simp) (by simpa using hordered) hadds
  have hsmall : b.length < 2 ^ 32 := (hfit.lengths (.scalar (.bytes b)) (by simp) _ hordered rfl).here
  omega

end Database
end AlefsDb
