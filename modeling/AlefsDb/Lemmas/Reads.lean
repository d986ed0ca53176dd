import AlefsDb.Lemmas.Listing
import AlefsDb.Lemmas.Returns
import AlefsDb.Query.Eval

/-!
# Reads that come back

On the rows of a graph every method that reads returns what it reads, or an error: none of them panics, and no walk runs into the bound
on its depth.
-/

namespace AlefsDb
namespace Database

open Rust

variable {db : Database} {G : Graph} {next : UInt64} {path : DbPath}

/-- `get` returns. -/
theorem get_returns (h : Stores db.store.map G next) (path : DbPath) : Returns (db.get path) := by
  rw [get_eq h]
  rcases G.cases_at path.segments with hp | ⟨i, hp⟩ | ⟨i, v, hp⟩
  · rw [hp]
    exact returns_err _
  · rw [hp]
    exact returns_ok _
  · rw [hp]
    exact (decodeNode_returns _).bind (fun _ _ => returns_ok _)

/-- An entry that is read is that of a directory, without a value, or has a value. -/
theorem kind_of_get (h : Stores db.store.map G next) {e : Entry} (hget : db.get path = .ok e) :
    (e.kind = .directory ∧ e.value = none ∧ ∃ i, G path.segments = some (i, .dir)) ∨ e.kind = .value ∧ ∃ v, e.value = some v := by
  rw [get_eq h] at hget
  rcases G.cases_at path.segments with hp | ⟨i, hp⟩ | ⟨i, v, hp⟩
  · rw [hp] at hget
    cases hget
  · rw [hp] at hget
    cases hget
    exact Or.inl ⟨rfl, rfl, i, hp⟩
  · rw [hp] at hget
    obtain ⟨w, -, hget⟩ := Rust.bind_eq_ok.mp hget
    cases hget
    exact Or.inr ⟨rfl, w, rfl⟩

theorem list_returns (h : Stores db.store.map G next) (path : DbPath) : Returns (db.list path) := by
  rcases G.cases_at path.segments with hp | ⟨i, hp⟩ | ⟨i, v, hp⟩
  · rw [list_none h hp]
    exact returns_err _
  · obtain ⟨children, hlist, -⟩ := list_eq h hp
    rw [hlist]
    exact returns_ok _
  · rw [list_value h hp]
    exact returns_err _

theorem pathsWithType_returns (db : Database) (typeName : String) : Returns (db.pathsWithType typeName) := by
  have hrow : ∀ row : Bytes × Bytes, Returns (indexedPath row) :=
    fun row => (returns_okOr _ _).bind (fun s _ => (DbPath.parse_returns s).mapErr _)
  exact (mapM_returns (fun row _ => hrow row)).bind (fun _ _ => returns_ok _)

/-- A child of a directory exists, and is one step further down. -/
theorem child_of_join {children : List (String × EntryKind)} (hlists : Lists G path.segments children) {child : String × EntryKind}
    (hc : child ∈ children) {childPath : DbPath} (hjoin : mapErr NsError.path (path.join child.1) = .ok childPath) :
    G.Live childPath.segments ∧ childPath.segments.length = path.segments.length + 1 := by
  obtain ⟨-, hsegments⟩ := DbPath.join_ok (mapErr_eq_ok.mp hjoin)
  rw [hsegments, List.length_append]
  exact ⟨(hlists.mem_names child.1).mp (List.mem_map_of_mem hc), rfl⟩

/-! ## Walks -/

/-- A walk returns, with fuel for the paths that can be below. -/
theorem walk_returns (h : Stores db.store.map G next) {fuel : Nat} (hlive : G.Live path.segments)
    (hfuel : db.store.map.size ≤ path.segments.length + fuel) (out : List Query.Candidate) : Returns (Query.walk db fuel path out) := by
  induction fuel generalizing path out with
  | zero =>
    have := h.atMost.length_lt h.wf.prefixClosed hlive
    omega
  | succ fuel ih =>
    refine (get_returns h path).bind (fun entry hget => ?_)
    rcases kind_of_get h hget with ⟨hkind, -, i, hp⟩ | ⟨hkind, -⟩
    · obtain ⟨children, hlist, hlists⟩ := list_eq h hp
      dsimp only
      rw [if_pos hkind, hlist, ok_bind]
      refine foldlM_returns (fun child hc out => ((DbPath.join_returns path child.1).mapErr _).bind (fun childPath hjoin => ?_)) _
      obtain ⟨hchild, hlength⟩ := child_of_join hlists hc hjoin
      exact ih hchild (by omega) out
    · dsimp only
      rw [if_neg (by rw [hkind]; decide)]
      exact returns_ok _

/-- All entries are listed, or a value is refused. -/
theorem allEntries_returns (h : Stores db.store.map G next) : Returns (Query.allEntries db) :=
  walk_returns h ⟨_, h.wf.root⟩ (Nat.le_add_left _ _) []

/-- An export returns, with fuel for the paths that can be below. -/
theorem exportNode_returns (floatText : UInt64 → List Char) (h : Stores db.store.map G next) {fuel : Nat} (hlive : G.Live path.segments)
    (hfuel : db.store.map.size ≤ path.segments.length + fuel) : Returns (Json.exportNode floatText db fuel path) := by
  induction fuel generalizing path with
  | zero =>
    have := h.atMost.length_lt h.wf.prefixClosed hlive
    omega
  | succ fuel ih =>
    refine (get_returns h path).bind (fun entry hget => ?_)
    rcases kind_of_get h hget with ⟨hkind, -, i, hp⟩ | ⟨hkind, v, hv⟩
    · obtain ⟨children, hlist, hlists⟩ := list_eq h hp
      rw [hkind, hlist]
      refine (mapM_returns (fun child hc => ?_)).bind (fun _ _ => returns_ok _)
      refine ((DbPath.join_returns path child.1).mapErr _).bind (fun childPath hjoin => ?_)
      obtain ⟨hchild, hlength⟩ := child_of_join hlists hc hjoin
      exact (ih hchild (by omega)).bind (fun _ _ => returns_ok _)
    · rw [hkind, hv]
      exact returns_ok _

theorem exportJson_returns (floatText : UInt64 → List Char) (h : Stores db.store.map G next) : Returns (Json.exportJson floatText db) :=
  (exportNode_returns floatText h ⟨_, h.wf.root⟩ (Nat.le_add_left _ _)).bind (fun _ _ => returns_ok _)

/-! ## Queries -/

theorem candidatesFor_returns (h : Stores db.store.map G next) (expr : Expr) : Returns (Query.candidatesFor db expr) := by
  unfold Query.candidatesFor
  split
  · refine (pathsWithType_returns db _).bind (fun paths _ => mapM_returns (fun path _ => ?_))
    exact (get_returns h path).bind (fun _ _ => returns_ok _)
  · exact allEntries_returns h

theorem execute_returns (h : Stores db.store.map G next) (query : String) : Returns (Query.execute db query) := by
  refine ((Query.parseQuery_returns query).mapErr _).bind (fun expr _ => ?_)
  exact ((candidatesFor_returns h expr).mapErr _).bind (fun _ _ => returns_ok _)

end Database
end AlefsDb
