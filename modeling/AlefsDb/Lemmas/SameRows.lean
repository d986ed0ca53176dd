import AlefsDb.Lemmas.Methods

/-!
# Graphs with the same rows

The rows of a graph show of a value only its encoding and its type, so graphs that differ in nothing else are stored in the same rows.
-/

namespace AlefsDb

/-- The rows of the nodes are the same. -/
structure Node.Same (a b : Node) : Prop where
  bytes : a.bytes = b.bytes
  typeName : a.typeName = b.typeName

theorem Node.Same.refl (a : Node) : a.Same a := ⟨rfl, rfl⟩

theorem Node.Same.symm {a b : Node} (h : a.Same b) : b.Same a := ⟨h.bytes.symm, h.typeName.symm⟩

/-- The record of a node is parsed from its row, so a directory is the same as directories alone. -/
theorem Node.Same.dir {b : Node} (h : Node.dir.Same b) : b = .dir := by
  have hparse := congrArg parseNode h.bytes
  rw [Node.parseNode_bytes, Node.parseNode_bytes] at hparse
  exact Node.record_eq_dir.mp (Except.ok.inj hparse).symm

/-- Values of one encoding and one type have the same rows. -/
theorem Node.same_value {v w : Value} (h : Codec.encode v = Codec.encode w) (htype : v.typename = w.typename) :
    (Node.value v).Same (.value w) := ⟨congrArg encodeValueNode h, htype⟩

/-- The same paths are there, with the same ids and the same rows of their nodes. -/
def Graph.Same (G G' : Graph) : Prop := ∀ p i a, G p = some (i, a) → ∃ b, G' p = some (i, b) ∧ a.Same b

namespace Graph

variable {G G' : Graph} {next : UInt64}

theorem Same.refl (G : Graph) : G.Same G := fun _ _ a hp => ⟨a, hp, Node.Same.refl a⟩

/-- One value in place of another. -/
theorem same_replace (G : Graph) (p : List String) (i : UInt64) {v w : Value} (h : (Node.value v).Same (.value w)) :
    (G.replace p i v).Same (G.replace p i w) := by
  intro q j a hq
  rcases replace_eq_some.mp hq with ⟨rfl, hx⟩ | ⟨hne, hq⟩
  · cases hx
    exact ⟨.value w, replace_eq_some.mpr (Or.inl ⟨rfl, rfl⟩), h⟩
  · exact ⟨a, replace_eq_some.mpr (Or.inr ⟨hne, hq⟩), Node.Same.refl a⟩

/-- What a row holds for a graph it holds for the other. -/
theorem Same.row (h : G.Same G') {key : Key} {v : Bytes} (hrow : Row G next key v) : Row G' next key v := by
  cases key with
  | nextId | indexVersion => exact hrow
  | node id =>
    obtain ⟨p, a, hp, rfl⟩ := hrow
    obtain ⟨b, hb, hsame⟩ := h p id a hp
    exact ⟨p, b, hb, hsame.bytes⟩
  | child parent name =>
    obtain ⟨p, id, a, hp, hname, rfl⟩ := hrow
    obtain ⟨d, hd, hdir⟩ := h p parent _ hp
    obtain rfl := hdir.dir
    obtain ⟨b, hb, -⟩ := h _ id a hname
    exact ⟨p, id, b, hd, hb, rfl⟩
  | typeIndex typeName id =>
    obtain ⟨p, a, hp, rfl, rfl⟩ := hrow
    obtain ⟨b, hb, hsame⟩ := h p id a hp
    exact ⟨p, b, hb, hsame.typeName, rfl⟩

end Graph

/-- The graph and the next id determine the rows. -/
theorem Stores.rows_eq {rows rows' : Rows} {G G' : Graph} {next : UInt64} (h : Stores rows G next) (h' : Stores rows' G' next)
    (hsame : G.Same G') (hsame' : G'.Same G) : rows = rows' := by
  have hsub : ∀ {rows rows' : Rows} {G G' : Graph}, Stores rows G next → Stores rows' G' next → G.Same G' →
      ∀ {k v}, rows.get k = some v → rows'.get k = some v := by
    intro rows rows' G G' h h' hsame k v hget
    obtain ⟨key, rfl⟩ := h.named hget
    exact (h'.row key).mpr (hsame.row ((h.row key).mp hget))
  ext k v
  exact ⟨hsub h h' hsame, hsub h' h hsame'⟩

/-- Databases whose rows are those of one graph are equal. -/
theorem Database.eq_of_stores {db db' : Database} {G G' : Graph} {next : UInt64} (h : Stores db.store.map G next)
    (h' : Stores db'.store.map G' next) (hsame : G.Same G') (hsame' : G'.Same G) : db = db' :=
  Database.ext (congrArg MemoryStorage.mk (h.rows_eq h' hsame hsame'))

end AlefsDb
