import AlefsDb.Lemmas.Ids

/-!
# Databases that show the same

Two graphs are alike when the same paths are there, with directories at the same paths and values that are read alike; their ids may be
others. What a call does is the same on both: it stops at the same error, or makes the same change.
-/

namespace AlefsDb

open Rust

/-- Values that are read alike: they have one type name, and their encodings are decoded to one value, or refused with one error. -/
structure Value.Alike (v w : Value) : Prop where
  typeName : v.typename = w.typename
  decoded : Database.decodeNode (Codec.encode v) = Database.decodeNode (Codec.encode w)

/-- What two graphs have at a path. -/
inductive Graph.AlikeAt : Option (UInt64 × Node) → Option (UInt64 × Node) → Prop where
  | nothing : AlikeAt none none
  | dir (i j : UInt64) : AlikeAt (some (i, .dir)) (some (j, .dir))
  | value (i j : UInt64) {v w : Value} : v.Alike w → AlikeAt (some (i, .value v)) (some (j, .value w))

namespace Graph

/-- The same is there at every path, but for the ids. -/
def Alike (G G' : Graph) : Prop := ∀ p, AlikeAt (G p) (G' p)

variable {G G' : Graph} {next next' : UInt64}

theorem AlikeAt.symm {x y : Option (UInt64 × Node)} (h : AlikeAt x y) : AlikeAt y x := by
  cases h with
  | nothing => exact .nothing
  | dir i j => exact .dir j i
  | value i j h => exact .value j i ⟨h.typeName.symm, h.decoded.symm⟩

theorem Alike.symm (h : G.Alike G') : G'.Alike G := fun p => (h p).symm

/-- At a path there is nothing in both, a directory in both, or a value in both. -/
theorem Alike.cases_at (h : G.Alike G') (p : List String) :
    (G p = none ∧ G' p = none) ∨ (∃ i j, G p = some (i, .dir) ∧ G' p = some (j, .dir)) ∨
      ∃ i j v w, G p = some (i, .value v) ∧ G' p = some (j, .value w) ∧ v.Alike w := by
  have hp := h p
  generalize G p = x at hp ⊢
  generalize G' p = y at hp ⊢
  cases hp with
  | nothing => exact Or.inl ⟨rfl, rfl⟩
  | dir i j => exact Or.inr (Or.inl ⟨i, j, rfl, rfl⟩)
  | value i j hv => exact Or.inr (Or.inr ⟨i, j, _, _, rfl, rfl, hv⟩)

theorem Alike.isSome (h : G.Alike G') (p : List String) : (G p).isSome = (G' p).isSome := by
  rcases h.cases_at p with ⟨hp, hp'⟩ | ⟨i, j, hp, hp'⟩ | ⟨i, j, v, w, hp, hp', -⟩ <;> rw [hp, hp'] <;> rfl

theorem Alike.segments (h : G.Alike G') {Q : String → Prop} (hG : G.Segments Q) : G'.Segments Q := by
  intro p x hp s hs
  have hsome := h.isSome p
  rw [hp] at hsome
  obtain ⟨y, hy⟩ := Option.isSome_iff_exists.mp hsome
  exact hG p y hy s hs

/-! ## Changes -/

/-- The same change, with ids of its own. -/
inductive AlikeChange : Change → Change → Prop where
  | nothing : AlikeChange .nothing .nothing
  | create (parent : List String) (name : String) (i j : UInt64) (a : Node) :
      AlikeChange (.create parent name i a) (.create parent name j a)
  | replace (p : List String) (i j : UInt64) {old old' : Value} (v : Value) :
      AlikeChange (.replace p i old v) (.replace p j old' v)
  | remove (parent : List String) (name : String) (i j k l : UInt64) {a b : Node} :
      AlikeChange (.remove parent name i j a) (.remove parent name k l b)

/-- Changes that are alike lead from graphs that are alike to graphs that are alike. -/
theorem Alike.change (h : G.Alike G') {c c' : Change} (hc : AlikeChange c c') :
    (c.graph G next).Alike (c'.graph G' next') := by
  have hupdate : ∀ {p x y}, AlikeAt x y → Alike (Function.update G p x) (Function.update G' p y) := by
    intro p x y hxy q
    by_cases hq : q = p
    · subst hq
      rw [Function.update_self, Function.update_self]
      exact hxy
    · rw [Function.update_of_ne hq, Function.update_of_ne hq]
      exact h q
  cases hc with
  | nothing => exact h
  | create parent name i j a =>
    cases a with
    | dir => exact hupdate (.dir next next')
    | value v => exact hupdate (.value next next' ⟨rfl, rfl⟩)
  | replace p i j v => exact hupdate (.value i j ⟨rfl, rfl⟩)
  | remove parent name i j k l => exact hupdate .nothing

/-! ## Plans -/

/-- A parent is found in both graphs, or in neither with the same error. -/
theorem Alike.parentId (h : G.Alike G') (parent : DbPath) : Related (fun _ _ => True) (G.parentId parent) (G'.parentId parent) := by
  unfold Graph.parentId
  rcases h.cases_at parent.segments with ⟨hp, hp'⟩ | ⟨i, j, hp, hp'⟩ | ⟨i, j, v, w, hp, hp', -⟩
  · rw [hp, hp']
    exact .error _
  · rw [hp, hp']
    exact .ok trivial
  · rw [hp, hp']
    exact .error _

/-- While there are ids left. -/
theorem succId_related (hnext : next.toNat + 1 < 2 ^ 64) (hnext' : next'.toNat + 1 < 2 ^ 64) :
    Related (fun _ _ => True) (Database.succId next) (Database.succId next') := by
  rw [Database.succId, Database.succId, if_pos hnext, if_pos hnext']
  exact .ok trivial

/-- `mkdir` plans alike on graphs that are alike. -/
theorem Alike.planMkdir (h : G.Alike G') (hnext : next.toNat + 1 < 2 ^ 64) (hnext' : next'.toNat + 1 < 2 ^ 64) (path : DbPath) :
    Related AlikeChange (G.planMkdir next path) (G'.planMkdir next' path) := by
  unfold Graph.planMkdir
  cases path.parent with
  | none => exact .ok .nothing
  | some parent =>
    cases path.segments.getLast? with
    | none => exact .ok .nothing
    | some name =>
      dsimp only
      rw [h.isSome]
      split
      · exact .error _
      · exact (h.parentId parent).bind fun i j _ => (succId_related hnext hnext').bind fun _ _ _ => .ok (.create _ _ i j _)

/-- `set` plans alike on graphs that are alike. -/
theorem Alike.planSet (h : G.Alike G') (hnext : next.toNat + 1 < 2 ^ 64) (hnext' : next'.toNat + 1 < 2 ^ 64) (path : DbPath)
    (v : Value) : Related AlikeChange (G.planSet next path v) (G'.planSet next' path v) := by
  unfold Graph.planSet
  cases path.parent with
  | none => exact .error _
  | some parent =>
    cases path.segments.getLast? with
    | none => exact .error _
    | some name =>
      refine (h.parentId parent).bind fun i j _ => ?_
      rcases h.cases_at path.segments with ⟨hp, hp'⟩ | ⟨k, l, hp, hp'⟩ | ⟨k, l, old, old', hp, hp', hold⟩
      · rw [hp, hp']
        exact (succId_related hnext hnext').bind fun _ _ _ => .ok (.create _ _ i j _)
      · rw [hp, hp']
        exact .error _
      · rw [hp, hp']
        exact (Related.of_eq hold.decoded).bind fun _ _ _ => .ok (.replace _ k l v)

/-- `delete` plans alike on graphs that are alike. -/
theorem Alike.planDelete (h : G.Alike G') (path : DbPath) : Related AlikeChange (G.planDelete path) (G'.planDelete path) := by
  have hchildren : (∃ t, G (path.segments ++ [t]) ≠ none) ↔ ∃ t, G' (path.segments ++ [t]) ≠ none := by
    refine exists_congr fun t => ?_
    rw [← Option.isSome_iff_ne_none, ← Option.isSome_iff_ne_none, h.isSome]
  unfold Graph.planDelete
  cases path.parent with
  | none => exact .error _
  | some parent =>
    cases path.segments.getLast? with
    | none => exact .error _
    | some name =>
      dsimp only
      rcases h.cases_at path.segments with ⟨hp, hp'⟩ | ⟨k, l, hp, hp'⟩ | ⟨k, l, v, w, hp, hp', hv⟩
      · rcases h.cases_at parent.segments with ⟨hq, hq'⟩ | ⟨i, j, hq, hq'⟩ | ⟨i, j, u, u', hq, hq', -⟩ <;> rw [hp, hp', hq, hq']
        all_goals exact .error _
      · rcases h.cases_at parent.segments with ⟨hq, hq'⟩ | ⟨i, j, hq, hq'⟩ | ⟨i, j, u, u', hq, hq', -⟩ <;> rw [hp, hp', hq, hq']
        · exact .error _
        all_goals
          dsimp only
          by_cases hfull : ∃ t, G (path.segments ++ [t]) ≠ none
          · rw [if_pos hfull, if_pos (hchildren.mp hfull)]
            exact .error _
          · rw [if_neg hfull, if_neg (fun hf => hfull (hchildren.mpr hf))]
            exact .ok (.remove _ _ i k j l)
      · rcases h.cases_at parent.segments with ⟨hq, hq'⟩ | ⟨i, j, hq, hq'⟩ | ⟨i, j, u, u', hq, hq', -⟩ <;> rw [hp, hp', hq, hq']
        · exact .error _
        all_goals exact (Related.of_eq hv.decoded).bind fun _ _ _ => .ok (.remove _ _ i k j l)

/-- The content that a method goes on from is the same in graphs that are alike. -/
theorem Alike.contentOr (h : G.Alike G') {α : Type} (path : DbPath) (kind : String) (content : Value → Option α) (nothing : α) :
    G.contentOr path kind content nothing = G'.contentOr path kind content nothing := by
  unfold Graph.contentOr
  rcases h.cases_at path.segments with ⟨hp, hp'⟩ | ⟨i, j, hp, hp'⟩ | ⟨i, j, v, w, hp, hp', hv⟩
  · rw [hp, hp']
  · rw [hp, hp']
  · rw [hp, hp']
    dsimp only
    rw [hv.decoded]

/-- A call does the same on both. -/
theorem Alike.plan (h : G.Alike G') (hnext : next.toNat + 1 < 2 ^ 64) (hnext' : next'.toNat + 1 < 2 ^ 64) (op : TxnOp) :
    Related AlikeChange (G.plan next op) (G'.plan next' op) := by
  cases op with
  | mkdir path => exact h.planMkdir hnext hnext' path
  | set path v => exact h.planSet hnext hnext' path v
  | delete path => exact h.planDelete path
  | hashSet path key v | listPush path v | setAdd path v | treeSet path key v =>
    refine (Related.of_eq (h.contentOr _ _ _ _)).bind fun a c hac => ?_
    subst hac
    exact h.planSet hnext hnext' _ _

end Graph
end AlefsDb
