import AlefsDb.Lemmas.Reached

/-!
# The text of a path

Four functions make paths. `parse` refuses a segment with a NUL, `join` does not, so that a path that was joined may have a text that
is not parsed. Such a path is stored like any other, and then `paths_with_type` fails on every call for its type.
-/

namespace AlefsDb
namespace DbPath

/-- The paths that `root`, `parse`, `join` and `parent` make. -/
inductive Made : DbPath → Prop
  | root : Made root
  | parse {text : String} {p : DbPath} (h : parse text = .ok p) : Made p
  | join {p q : DbPath} {name : String} (hp : Made p) (h : p.join name = .ok q) : Made q
  | parent {p q : DbPath} (hp : Made p) (h : p.parent = some q) : Made q

/-- A path is the root, or a segment that is valid joined to a path. -/
theorem root_or_join (p : DbPath) : p = root ∨ ∃ (q : DbPath) (s : String), q.join s = .ok p ∧ q.segments.length < p.segments.length := by
  obtain ⟨segments, hvalid⟩ := p
  rcases List.eq_nil_or_concat segments with rfl | ⟨start, s, hconcat⟩
  · exact Or.inl rfl
  · right
    rw [List.concat_eq_append] at hconcat
    subst hconcat
    obtain ⟨child, hjoin, hchild⟩ := join_eq ⟨start, fun t ht => hvalid t (List.mem_append_left _ ht)⟩
      (hvalid s (List.mem_append_right _ List.mem_cons_self))
    exact ⟨_, s, hjoin.trans (congrArg _ (DbPath.ext hchild)), by simp⟩

/-- Every path is made. -/
theorem made (p : DbPath) : Made p := by
  rcases root_or_join p with rfl | ⟨q, s, hjoin, hlt⟩
  · exact .root
  · exact .join (made q) hjoin
termination_by p.segments.length

/-- A path is read back from its text, and is the only one with that text, exactly when no segment of it holds a NUL. -/
theorem text_faithful_iff {p : DbPath} (_ : Made p) :
    (parse p.asStr = .ok p ∧ ∀ q, Made q → q.asStr = p.asStr → q = p) ↔ p.NoNul :=
  ⟨fun h => noNul_of_parse h.1, fun h => ⟨parse_asStr h, fun _ _ htext => asStr_injective htext⟩⟩

/-- A path of one segment. -/
theorem text_faithful_child :
    let p : DbPath := ⟨["a", "b c"], by decide⟩
    parse p.asStr = .ok p ∧ ∀ q, Made q → q.asStr = p.asStr → q = p :=
  (text_faithful_iff (made ⟨["a", "b c"], by decide⟩)).mpr (by unfold NoNul; decide)

end DbPath

namespace Database

variable {db : Database} {G : Graph} {next : UInt64}

/-- A path with a NUL that is stored makes every query for its type fail. -/
theorem pathsWithType_of_nul (h : Stores db.store.map G next) {path : DbPath} {i : UInt64} {a : Node}
    (hpath : G path.segments = some (i, a)) (hnul : ¬path.NoNul) (paths : List DbPath) :
    db.pathsWithType a.typeName ≠ .ok paths := by
  intro hok
  obtain ⟨out, hout, -⟩ := Rust.bind_eq_ok.mp hok
  have hget : db.store.map.get (typeIndexKey a.typeName i) = some (utf8 path.asStr) :=
    (h.row (.typeIndex a.typeName i)).mpr ⟨path.segments, a, hpath, rfl, rfl⟩
  have hmem : (typeIndexKey a.typeName i, utf8 path.asStr) ∈ db.store.scanPrefix (typeIndexPrefix a.typeName) :=
    (db.store.map.mem_scanPrefix _ _ _).mpr ⟨hget, encodeId i, rfl⟩
  obtain ⟨p, -, hp⟩ := Rust.mapM_eq_ok_of_mem hout hmem
  rw [indexedPath, fromUtf8_utf8, Rust.okOr_some, Rust.ok_bind, Rust.mapErr_eq_ok] at hp
  exact hnul (DbPath.eq_of_parse_asStr hp ▸ DbPath.noNul_of_parse hp)

/-- A segment with a NUL is joined to the root and made a directory; its path is not read back, and the directories are not found. -/
theorem join_nul_unreadable : ∃ p, DbPath.root.join "a\x00" = .ok p ∧ DbPath.Made p ∧
    DbPath.parse p.asStr = Rust.err .invalidUtf8 ∧
    ∃ db, mkdir p opened = .ok () db ∧ db.exists p = .ok true ∧ db.pathsWithType "directory" = Rust.err (.path .invalidUtf8) :=
  ⟨⟨["a\x00"], by decide⟩, by decide +kernel, DbPath.made _, by decide +kernel, left (mkdir ⟨["a\x00"], by decide⟩ opened), rfl,
    by decide +kernel, by decide +kernel⟩

end Database
end AlefsDb
