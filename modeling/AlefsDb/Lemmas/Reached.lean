import AlefsDb.Lemmas.Merged
import AlefsDb.Namespace.Commands

/-!
# The graph along a run

In every state of a run the rows are those of a graph. A property of the graph that every change keeps holds along the run.
-/

namespace AlefsDb
namespace Graph

/-- The root alone. -/
def initial : Graph := fun p => if p = [] then some (rootId, .dir) else none

theorem initial_eq_some {p : List String} {x : UInt64 × Node} : initial p = some x ↔ p = [] ∧ x = (rootId, .dir) := by
  unfold initial
  split <;> simp_all [eq_comm]

/-- All segments of the paths that exist have a property. -/
def Segments (Q : String → Prop) (G : Graph) : Prop := ∀ p x, G p = some x → ∀ s ∈ p, Q s

/-- A change keeps what all segments have in common where the segments of its path have it. -/
theorem Segments.change {Q : String → Prop} {G : Graph} {next : UInt64} {c : Change} (h : G.Segments Q) (hc : c.Fits G next)
    (hpath : ∀ p, c.path = some p → ∀ s ∈ p, Q s) : (c.graph G next).Segments Q := by
  intro p x hp
  cases c with
  | nothing => exact h p x hp
  | create parent name parentId a =>
    rcases (create_eq_some hc.2.1).mp hp with ⟨rfl, -⟩ | hold
    · exact hpath _ rfl
    · exact h p x hold
  | replace q id old v =>
    rcases replace_eq_some.mp hp with ⟨rfl, -⟩ | ⟨-, hold⟩
    · exact hpath _ rfl
    · exact h p x hold
  | remove parent name parentId id a => exact h p x (remove_eq_some.mp hp).2

theorem initial_wellFormed : initial.WellFormed 2 := by
  refine ⟨rfl, ?_, ?_, ?_⟩
  · intro p s x h
    simp [initial_eq_some] at h
  · intro p q i a b hp hq
    rw [(initial_eq_some.mp hp).1, (initial_eq_some.mp hq).1]
  · intro p i a hp
    cases (initial_eq_some.mp hp).2
    decide

end Graph

namespace Database

/-- The rows of the database that is opened on an empty store. -/
theorem opened_entries : opened.store.map.entries =
    [(Key.bytes (.typeIndex "directory" 1), utf8 "/"), (Key.bytes .nextId, encodeId 2), (Key.bytes .indexVersion, indexVersion),
      (Key.bytes (.node 1), [0])] := by
  decide +kernel

/-- The rows of a new database. -/
theorem opened_get (key : Key) : opened.store.map.get key.bytes =
    if key = .typeIndex "directory" rootId then some (utf8 "/")
    else if key = .nextId then some (encodeId 2)
    else if key = .indexVersion then some indexVersion
    else if key = .node rootId then some encodeDirNode
    else none := by
  rw [OrdMap.get, opened_entries]
  simp only [OrdMap.lookup_cons, Key.bytes_inj, OrdMap.lookup_nil]
  rfl

theorem opened_stores : Stores opened.store.map Graph.initial 2 := by
  refine ⟨Graph.initial_wellFormed, ?_, ?_⟩
  · intro k v h
    have hmem := (opened.store.map.mem_entries_iff k v).mpr h
    rw [opened_entries] at hmem
    simp only [List.mem_cons, Prod.mk.injEq, List.not_mem_nil, or_false] at hmem
    rcases hmem with h | h | h | h <;> exact ⟨_, h.1⟩
  · intro key v
    rw [opened_get]
    cases key with
    | nextId => simp [Row, eq_comm]
    | indexVersion => simp [Row, eq_comm]
    | node id =>
      simp only [reduceCtorEq, if_false, Key.node.injEq, Row, Graph.initial_eq_some]
      constructor
      · intro h
        split at h
        · rename_i hid
          cases h
          exact ⟨[], .dir, ⟨rfl, by rw [hid]⟩, rfl⟩
        · cases h
      · rintro ⟨p, a, ⟨-, ha⟩, rfl⟩
        cases ha
        rfl
    | child parent name => simp [Row, Graph.initial_eq_some]
    | typeIndex t id =>
      simp only [reduceCtorEq, if_false, Key.typeIndex.injEq, Row, Graph.initial_eq_some]
      constructor
      · intro h
        split at h
        · rename_i hid
          cases h
          exact ⟨[], .dir, ⟨rfl, by rw [hid.2]⟩, hid.1, rfl⟩
        · cases h
      · rintro ⟨p, a, ⟨rfl, ha⟩, rfl, rfl⟩
        cases ha
        rfl

/-- Opening a database again changes nothing. -/
theorem openStore_eq {db : Database} {G : Graph} {next : UInt64} (h : Stores db.store.map G next) :
    openStore db = .ok () db := by
  have hroot : db.store.get (nodeKey rootId) ≠ none := by
    rw [MemoryStorage.get, h.get_node h.wf.root]
    simp
  have hnext : db.store.get metaNextId ≠ none := by
    rw [MemoryStorage.get, h.get_nextId]
    simp
  have hversion : db.store.get metaTypeIndexVersion = some indexVersion := (h.row .indexVersion).mpr rfl
  have hget : (MonadState.get : DbM Database) db = .ok db db := rfl
  have hensure : ensureRoot db = .ok () db := by
    unfold ensureRoot
    refine (bind_of_ok hget _).trans ?_
    rw [if_neg hroot, if_neg hnext]
    rfl
  unfold openStore
  refine (bind_of_ok hensure _).trans ((bind_of_ok hget _).trans ?_)
  rw [if_pos hversion]
  rfl

/-! ## Properties of the graph along a run -/

/-- The rows are those of a graph with a property. -/
def Holds (I : Graph → UInt64 → Prop) (db : Database) : Prop := ∃ G next, Stores db.store.map G next ∧ I G next

/-- What every change that an operation makes keeps. -/
def Kept (I : Graph → UInt64 → Prop) (op : TxnOp) : Prop :=
  ∀ {G : Graph} {next : UInt64} {c : Change}, G.WellFormed next → I G next → G.plan next op = .ok c → c.Fits G next →
    I (c.graph G next) (c.nextId next)

variable {I : Graph → UInt64 → Prop}

/-- Methods keep what each of them keeps. -/
theorem Holds.callAll {db : Database} (h : Holds I db) {ops : List TxnOp} (hops : ∀ op ∈ ops, Kept I op) {db' : Database}
    (hall : callAll ops db = .ok () db') : Holds I db' := by
  induction ops generalizing db with
  | nil =>
    cases hall
    exact h
  | cons op ops ih =>
    obtain ⟨G, next, hstores, hI⟩ := h
    rcases call_cases hstores op with ⟨e, hcall, -⟩ | ⟨c, hcall, hplan, hfits, hstores'⟩
    · have herror : Database.callAll (op :: ops) db = .error e db := bind_of_error hcall _
      rw [herror] at hall
      cases hall
    · have hnext : Database.callAll (op :: ops) db = Database.callAll ops (db.after next c) := bind_of_ok hcall _
      rw [hnext] at hall
      refine ih ⟨_, _, hstores', ?_⟩ (fun op' hop' => hops op' (List.mem_cons_of_mem _ hop')) hall
      exact hops op List.mem_cons_self hstores.wf hI hplan hfits

/-- What a command leads to: on success the calls of its operations one after the other, on failure the database as it was. -/
theorem run_cases {db : Database} {G : Graph} {next : UInt64} (h : Stores db.store.map G next) (c : Command) :
    (∃ e, c.run db = .error e db) ∨ (∃ db', c.run db = .ok () db' ∧ callAll c.ops db = .ok () db') := by
  cases c with
  | call op =>
    rcases call_cases h op with ⟨e, hcall, -⟩ | ⟨c, hcall, -⟩
    · exact Or.inl ⟨e, hcall⟩
    · exact Or.inr ⟨_, hcall, bind_of_ok hcall _⟩
  | applyTxn ops =>
    have htxn := applyTxn_eq h ops
    cases hall : Database.callAll ops db with
    | ok a db' =>
      rw [hall] at htxn
      exact Or.inr ⟨db', htxn, hall⟩
    | error e db' =>
      rw [hall] at htxn
      exact Or.inl ⟨e, htxn⟩
  | reopen => exact Or.inr ⟨db, openStore_eq h, rfl⟩

/-- A command keeps what the methods in it keep. -/
theorem Holds.after_step {db db' : Database} (h : Holds I db) {c : Command} (hc : ∀ op ∈ c.ops, Kept I op)
    (hstep : step db c = some db') : Holds I db' := by
  obtain ⟨G, next, hstores, hI⟩ := h
  cases hstep
  rcases run_cases hstores c with ⟨e, hrun⟩ | ⟨db', hrun, hall⟩
  · rw [hrun]
    exact ⟨G, next, hstores, hI⟩
  · rw [hrun]
    exact Holds.callAll ⟨G, next, hstores, hI⟩ hc hall

/-- A property of the graph that the operations keep holds along every run of commands made of them. -/
theorem Holds.after_run {guard : Command → Prop} (hguard : ∀ c, guard c → ∀ op ∈ c.ops, Kept I op) {db db' : Database} (h : Holds I db)
    {cmds : List Command} (hrun : Run step (fun _ c => guard c) db cmds db') : Holds I db' :=
  hrun.invariant h (fun _ c _ hs hc hstep => hs.after_step (hguard c hc) hstep)

/-- What holds of a new database and is kept by the commands holds of every database that is reached. -/
theorem Reached.holds {guard : Command → Prop} {db : Database} (h : Reached guard db) (hI : I Graph.initial 2)
    (hguard : ∀ c, guard c → ∀ op ∈ c.ops, Kept I op) : Holds I db := by
  obtain ⟨cmds, hrun⟩ := h
  exact Holds.after_run hguard ⟨Graph.initial, 2, opened_stores, hI⟩ hrun

/-- In every state of a run the rows are those of a graph. -/
theorem Reached.stores {guard : Command → Prop} {db : Database} (h : Reached guard db) :
    ∃ G next, Stores db.store.map G next := by
  have hkept : ∀ op, Kept (fun _ _ => True) op := fun _ _ _ _ _ _ _ _ => trivial
  obtain ⟨G, next, hstores, -⟩ := h.holds trivial (fun _ _ op _ => hkept op)
  exact ⟨G, next, hstores⟩

/-- The segments of the paths that exist have what those of the paths of the commands have. -/
theorem Reached.segments {guard : Command → Prop} {Q : String → Prop} {db : Database} (h : Reached guard db)
    (hguard : ∀ c, guard c → ∀ op ∈ c.ops, ∀ s ∈ op.path.segments, Q s) :
    ∃ G next, Stores db.store.map G next ∧ G.Segments Q := by
  refine h.holds (I := fun G _ => G.Segments Q) ?_ ?_
  · intro p x hp s hs
    rw [(Graph.initial_eq_some.mp hp).1] at hs
    cases hs
  · intro c hc op hop G next change _ hI hplan hfits
    refine hI.change hfits (fun p hp s hs => ?_)
    rw [Graph.plan_path hplan hp] at hs
    exact hguard c hc op hop s hs

end Database
end AlefsDb
