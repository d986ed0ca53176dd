import AlefsDb.Lemmas.Reached

/-!
# The structure of the stored graph

In every state of a run the rows form a tree under the root: a child row goes from a directory to a node, every node but the root
is the child of one directory under one name, and the parents of a node lead to the root. Ids are below the next one and never
given again, and a command that fails leaves the rows as they were.
-/

namespace AlefsDb

/-- The parents of a node lead to the root. -/
inductive ReachesRoot (store : MemoryStorage) : UInt64 → Prop where
  | root : ReachesRoot store rootId
  | up {parent id : UInt64} {name : String} :
      store.get (childKey parent name) = some (encodeId id) → ReachesRoot store parent → ReachesRoot store id

/-- The rows form a tree under the root, with ids below the next one. -/
structure TreeRows (store : MemoryStorage) (next : UInt64) : Prop where
  named : ∀ {k v}, store.get k = some v → ∃ key : Key, k = key.bytes
  nextId : store.get metaNextId = some (encodeId next)
  root : store.get (nodeKey rootId) = some encodeDirNode
  child : ∀ {parent name v}, store.get (childKey parent name) = some v →
    store.get (nodeKey parent) = some encodeDirNode ∧ ∃ id row, v = encodeId id ∧ store.get (nodeKey id) = some row
  parent : ∀ {id row}, store.get (nodeKey id) = some row → id ≠ rootId →
    ∃! x : UInt64 × String, store.get (childKey x.1 x.2) = some (encodeId id)
  rootHasNone : ∀ {parent name}, store.get (childKey parent name) ≠ some (encodeId rootId)
  below : ∀ {id row}, store.get (nodeKey id) = some row → id.toNat < next.toNat
  reaches : ∀ {id row}, store.get (nodeKey id) = some row → ReachesRoot store id

/-- From one store to a later one, the ids below the next id of the first are not given again: the nodes that have them now had
them then, as children of the same directory under the same name. -/
structure IdsKept (store later : MemoryStorage) (next : UInt64) : Prop where
  node : ∀ {id row}, later.get (nodeKey id) = some row → id.toNat < next.toNat → ∃ row', store.get (nodeKey id) = some row'
  child : ∀ {parent name id}, later.get (childKey parent name) = some (encodeId id) → id.toNat < next.toNat →
    store.get (childKey parent name) = some (encodeId id)

namespace Stores

variable {store : MemoryStorage} {G : Graph} {next : UInt64}

/-- The row of a child is there where the graph has the child. -/
theorem get_child_eq_some (h : Stores store.map G next) {parent : UInt64} {name : String} {v : Bytes} :
    store.get (childKey parent name) = some v ↔
      ∃ p id a, G p = some (parent, .dir) ∧ G (p ++ [name]) = some (id, a) ∧ v = encodeId id :=
  h.row (.child parent name)

/-- The row of a node is there where the graph has the node. -/
theorem get_node_eq_some (h : Stores store.map G next) {id : UInt64} {v : Bytes} :
    store.get (nodeKey id) = some v ↔ ∃ p a, G p = some (id, a) ∧ v = a.bytes :=
  h.row (.node id)

/-- The parents of a node lead to the root, by induction on its path from the end. -/
theorem reachesRoot (h : Stores store.map G next) (p : List String) : ∀ i a, G p = some (i, a) → ReachesRoot store i := by
  induction p using List.reverseRecOn with
  | nil =>
    intro i a hi
    rw [h.wf.root] at hi
    cases hi
    exact .root
  | append_singleton p s ih =>
    intro i a hi
    obtain ⟨j, hj⟩ := h.wf.parent hi
    exact .up (h.get_child_eq_some.mpr ⟨p, i, a, hj, hi, rfl⟩) (ih j .dir hj)

/-- The rows of a graph form a tree. -/
theorem treeRows (h : Stores store.map G next) : TreeRows store next := by
  refine ⟨h.named, h.get_nextId, h.get_node h.wf.root, ?_, ?_, ?_, ?_, ?_⟩
  · intro parent name v hv
    obtain ⟨p, id, a, hp, hs, rfl⟩ := h.get_child_eq_some.mp hv
    exact ⟨h.get_node hp, id, a.bytes, rfl, h.get_node hs⟩
  · intro id row hrow hroot
    obtain ⟨p, a, hp, -⟩ := h.get_node_eq_some.mp hrow
    obtain ⟨q, s, rfl⟩ : ∃ q s, p = q ++ [s] := by
      rcases List.eq_nil_or_concat p with rfl | ⟨q, s, rfl⟩
      · rw [h.wf.root] at hp
        cases hp
        exact absurd rfl hroot
      · exact ⟨q, s, List.concat_eq_append⟩
    obtain ⟨j, hj⟩ := h.wf.parent hp
    refine ⟨(j, s), h.get_child_eq_some.mpr ⟨q, id, a, hj, hp, rfl⟩, ?_⟩
    rintro ⟨parent, name⟩ hx
    obtain ⟨q', id', a', hq', hs', hid⟩ := h.get_child_eq_some.mp hx
    cases encodeId_injective hid
    obtain ⟨rfl, hname⟩ := List.append_inj' (h.wf.unique hs' hp) rfl
    rw [hj] at hq'
    cases hq'
    cases hname
    rfl
  · intro parent name hroot
    obtain ⟨p, id, a, -, hs, hid⟩ := h.get_child_eq_some.mp hroot
    cases encodeId_injective hid
    exact absurd (h.wf.unique hs h.wf.root) (by simp)
  · intro id row hrow
    obtain ⟨p, a, hp, -⟩ := h.get_node_eq_some.mp hrow
    exact h.wf.below hp
  · intro id row hrow
    obtain ⟨p, a, hp, -⟩ := h.get_node_eq_some.mp hrow
    exact h.reachesRoot p id a hp

end Stores

namespace Graph

/-- Children have greater ids than their parents. -/
def Increasing (G : Graph) : Prop :=
  ∀ p s i j a b, G p = some (i, a) → G (p ++ [s]) = some (j, b) → i.toNat < j.toNat

/-- What an earlier graph with the given next id has become: the ids below that next id that are there now were there then, at the
same paths. -/
structure Since (G : Graph) (next : UInt64) (G' : Graph) (next' : UInt64) : Prop where
  increasing : G'.Increasing
  next_le : next.toNat ≤ next'.toNat
  kept : ∀ {p i a}, G' p = some (i, a) → i.toNat < next.toNat → ∃ b, G p = some (i, b)

variable {G G' : Graph} {next next' : UInt64} {c : Change}

/-- A change keeps ids increasing downwards. -/
theorem Increasing.change (hG : G.WellFormed next) (h : G.Increasing) (hc : c.Fits G next) : (c.graph G next).Increasing := by
  intro p s i j a b hp hs
  cases c with
  | nothing => exact h p s i j a b hp hs
  | create parent name parentId new =>
    obtain ⟨-, hnew, -⟩ := hc
    rcases (create_eq_some hnew).mp hp with ⟨rfl, -⟩ | hold
    · -- below the new node there is nothing
      rcases (create_eq_some hnew).mp hs with ⟨hself, -⟩ | hbelow
      · exact absurd hself (append_singleton_ne_self _ s)
      · rw [hG.none_below hnew] at hbelow
        cases hbelow
    · rcases (create_eq_some hnew).mp hs with ⟨-, hx⟩ | hbelow
      · cases hx
        exact hG.below hold
      · exact h p s i j a b hold hbelow
  | replace q id old v =>
    -- every path keeps its id
    have hid : ∀ {r k d}, G.replace q id v r = some (k, d) → ∃ d', G r = some (k, d') := by
      intro r k d hr
      rcases replace_eq_some.mp hr with ⟨rfl, hx⟩ | ⟨-, hx⟩
      · cases hx
        exact ⟨_, hc⟩
      · exact ⟨_, hx⟩
    obtain ⟨a', hp⟩ := hid hp
    obtain ⟨b', hs⟩ := hid hs
    exact h p s i j a' b' hp hs
  | remove parent name parentId id node =>
    exact h p s i j a b (remove_eq_some.mp hp).2 (remove_eq_some.mp hs).2

/-- A change keeps what has been there since. -/
theorem Since.change (hG : G'.WellFormed next') (h : G.Since next G' next') (hc : c.Fits G' next') :
    G.Since next (c.graph G' next') (c.nextId next') := by
  refine ⟨h.increasing.change hG hc, ?_, ?_⟩
  · cases c with
    | create parent name parentId new =>
      have := h.next_le
      rw [Change.nextId, toNat_succ hc.2.2]
      omega
    | nothing | replace q id old v | remove parent name parentId id node => exact h.next_le
  · intro p i a hp hlt
    cases c with
    | nothing => exact h.kept hp hlt
    | create parent name parentId new =>
      rcases (create_eq_some hc.2.1).mp hp with ⟨-, hp⟩ | hp
      · cases hp
        exact absurd h.next_le (Nat.not_le.mpr hlt)
      · exact h.kept hp hlt
    | replace q id old v =>
      rcases replace_eq_some.mp hp with ⟨rfl, hx⟩ | ⟨-, hx⟩
      · cases hx
        exact h.kept hc hlt
      · exact h.kept hx hlt
    | remove parent name parentId id node => exact h.kept (remove_eq_some.mp hp).2 hlt

/-- What an earlier graph has become does not give its ids again. -/
theorem Since.idsKept {store later : MemoryStorage} (h : G.Since next G' next') (hstore : Stores store.map G next)
    (hlater : Stores later.map G' next') : IdsKept store later next := by
  refine ⟨?_, ?_⟩
  · intro id row hrow hlt
    obtain ⟨p, a, hp, -⟩ := hlater.get_node_eq_some.mp hrow
    obtain ⟨b, hb⟩ := h.kept hp hlt
    exact ⟨b.bytes, hstore.get_node_eq_some.mpr ⟨p, b, hb, rfl⟩⟩
  · intro parent name id hrow hlt
    obtain ⟨p, id', a, hp, hs, hid⟩ := hlater.get_child_eq_some.mp hrow
    cases encodeId_injective hid
    -- the parent has a smaller id, so it has been there too
    obtain ⟨b, hb⟩ := h.kept hs hlt
    obtain ⟨b', hb'⟩ := h.kept hp (lt_trans (h.increasing p name parent id .dir a hp hs) hlt)
    obtain ⟨j, hj⟩ := hstore.wf.parent hb
    rw [hb'] at hj
    cases hj
    exact hstore.get_child_eq_some.mpr ⟨p, id, b, hb', hb, rfl⟩

end Graph

namespace Database

/-- The structure of the stored graph. In every state of a run the rows form a tree under the root, a command that fails leaves
them as they were, and whatever further commands lead to, the ids below the next one are not given again. -/
theorem structure_invariant {db : Database} (h : Reached (fun _ => True) db) :
    ∃ next, TreeRows db.store next ∧
      (∀ c e db', Command.run c db = .error e db' → db' = db) ∧
      ∀ cmds later, Run step (fun _ _ => True) db cmds later →
        ∃ next', TreeRows later.store next' ∧ next.toNat ≤ next'.toNat ∧ IdsKept db.store later.store next := by
  have hincreasing : Graph.initial.Increasing := by
    intro p s i j a b _ hs
    simp [Graph.initial_eq_some] at hs
  obtain ⟨G, next, hstores, hG⟩ := h.holds (I := fun G _ => G.Increasing) hincreasing
    (fun _ _ _ _ _ _ _ hwf hI _ hfits => hI.change hwf hfits)
  refine ⟨next, hstores.treeRows, ?_, ?_⟩
  · intro c e db' hrun
    rcases run_cases hstores c with ⟨e', herror⟩ | ⟨db₁, hok, -⟩
    · rw [herror] at hrun
      cases hrun
      rfl
    · rw [hok] at hrun
      cases hrun
  · intro cmds later hrun
    have hsince : Holds (G.Since next) db := ⟨G, next, hstores, hG, Nat.le_refl _, fun hp _ => ⟨_, hp⟩⟩
    obtain ⟨G', next', hlater, hI⟩ := hsince.after_run
      (fun _ _ _ _ _ _ _ hwf hI _ hfits => hI.change hwf hfits) hrun
    exact ⟨next', hlater.treeRows, hI.next_le, hI.idsKept hstores hlater⟩

/-- A directory with a value in it, written by one transaction. -/
def smallTree : Database :=
  left ((Command.applyTxn [.mkdir pathA, .set ⟨["a", "b"], by decide⟩ (.scalar (.int 7))]).run opened)

/-- The rows of the small tree, and its ids: none of them was there when the database was opened but that of the root. -/
theorem structure_of_smallTree : (∃ next, TreeRows smallTree.store next) ∧ IdsKept opened.store smallTree.store 2 := by
  have hreached : Reached (fun _ => True) opened := ⟨[], Run.nil⟩
  obtain ⟨next, hrows, -, hlater⟩ := structure_invariant hreached
  have hnext : next = 2 := by
    have hopened : opened.store.get metaNextId = some (encodeId 2) := (opened_get .nextId).trans rfl
    rw [hrows.nextId] at hopened
    exact encodeId_injective (Option.some.inj hopened)
  subst hnext
  obtain ⟨next', hrows', -, hids⟩ := hlater _ smallTree (Run.cons trivial rfl Run.nil)
  exact ⟨⟨next', hrows'⟩, hids⟩

end Database
end AlefsDb
