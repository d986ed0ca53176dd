import AlefsDb.Lib.Splits
import AlefsDb.Query.Eval

/-!
# What a glob matches

A glob stands for the texts that split into pieces, one for each of its characters: any text for `*`, one character for `?`, itself
for any other. A path glob stands in the same way for lists of segments: any for a part `**`, one segment that the part matches for
any other. Both matchers decide this, with the shortcuts that they take.
-/

namespace AlefsDb
namespace Query

/-- The pieces of a text that a character of a glob takes. -/
def CharTakes (c : Char) (piece : List Char) : Prop :=
  if c = '*' then True else if c = '?' then piece.length = 1 else piece = [c]

/-- The texts that a glob stands for. -/
def GlobMatches (pattern text : String) : Prop := Splits CharTakes pattern.toList text.toList

/-- The runs of segments that a part of a path glob takes. -/
def PartTakes (part : String) (run : List String) : Prop :=
  if part = "**" then True else ∃ segment, run = [segment] ∧ GlobMatches part segment

theorem charTakes_star (piece : List Char) : CharTakes '*' piece := by simp [CharTakes]

theorem charTakes_mark (piece : List Char) : CharTakes '?' piece ↔ ∃ c, piece = [c] ∧ True := by
  simp [CharTakes, List.length_eq_one_iff]

theorem charTakes_other {c : Char} (hstar : c ≠ '*') (hmark : c ≠ '?') (piece : List Char) :
    CharTakes c piece ↔ ∃ c', piece = [c'] ∧ c' = c := by
  simp [CharTakes, hstar, hmark]

/-- Two stars take any segments. -/
theorem partTakes_star (run : List String) : PartTakes "**" run := by simp [PartTakes]

/-- Any other part takes one segment that it matches. -/
theorem partTakes_other {part : String} (h : part ≠ "**") (run : List String) :
    PartTakes part run ↔ ∃ segment, run = [segment] ∧ GlobMatches part segment := by
  simp [PartTakes, h]

/-- `glob_rec` decides whether the text splits along the pattern. -/
theorem globRec_iff (pattern text : List Char) : globRec pattern text = true ↔ Splits CharTakes pattern text := by
  induction pattern generalizing text with
  | nil => simp [globRec, splits_nil]
  | cons c pattern ih =>
    by_cases hstar : c = '*'
    · subst hstar
      rw [splits_cons_any charTakes_star, globRec, List.any_eq_true]
      exact exists_congr (fun rest => and_congr_right (fun _ => ih rest))
    by_cases hmark : c = '?'
    · subst hmark
      rw [splits_cons_one charTakes_mark]
      cases text with
      | nil => simp [globRec]
      | cons c' text => simp [globRec, ih]
    · rw [splits_cons_one (charTakes_other hstar hmark)]
      cases text with
      | nil => simp [globRec]
      | cons c' text => simp [globRec, ih]

/-- `glob_match` decides whether a pattern matches. -/
theorem globMatch_iff (pattern text : String) : globMatch pattern text = true ↔ GlobMatches pattern text :=
  globRec_iff pattern.toList text.toList

/-- `match_segments` decides whether the segments split along the parts. -/
theorem matchSegments_iff (pattern path : List String) : matchSegments pattern path = true ↔ Splits PartTakes pattern path := by
  induction pattern generalizing path with
  | nil => simp [matchSegments, splits_nil]
  | cons part pattern ih =>
    by_cases hstar : part = "**"
    · subst hstar
      rw [matchSegments.eq_def]
      dsimp only
      rw [if_pos rfl, Bool.or_eq_true, List.isEmpty_iff, List.any_eq_true]
      constructor
      · rintro (rfl | ⟨rest, hmem, hrest⟩)
        · exact splits_any path partTakes_star
        · exact (splits_cons_any partTakes_star).mpr ⟨rest, hmem, (ih rest).mp hrest⟩
      · intro h
        obtain ⟨rest, hmem, hrest⟩ := (splits_cons_any partTakes_star).mp h
        exact Or.inr ⟨rest, hmem, (ih rest).mpr hrest⟩
    · rw [splits_cons_one (partTakes_other hstar), matchSegments.eq_def]
      dsimp only
      rw [if_neg hstar]
      cases path with
      | nil => simp
      | cons segment path => simp [ih, globMatch_iff]

/-- The parts of the text of a path are its segments. -/
theorem slashParts_asStr (path : DbPath) : slashParts path.asStr = path.segments := by
  by_cases hroot : path.segments = []
  · rw [DbPath.asStr, hroot]
    decide
  · have hkept : (path.segments.map String.toList).filter (fun l => decide (l ≠ [])) = path.segments.map String.toList := by
      rw [List.filter_eq_self]
      intro l hl
      obtain ⟨s, hs, rfl⟩ := List.mem_map.mp hl
      simpa using (path.valid s hs).1
    -- the slash that the text begins with gives an empty part
    have hparts : (pathText path.segments).toList.splitOn '/' = [] :: path.segments.map String.toList := by
      rw [DbPath.toList_pathText hroot, List.splitOn_cons_eq_if_modifyHead, DbPath.splitOn_intercalate path.valid hroot]
      rfl
    rw [slashParts, DbPath.asStr, hparts, List.filter_cons_of_neg (by simp), hkept, List.map_map]
    simp

/-- A path glob matches a path exactly when the segments of the path split along its parts. -/
theorem pathGlobMatch_iff (g : String) (path : DbPath) :
    pathGlobMatch g path.asStr = true ↔ Splits PartTakes (slashParts g) path.segments := by
  have hall : ∀ g, slashParts g = ["**"] → Splits PartTakes (slashParts g) path.segments := by
    intro g hg
    rw [hg]
    exact splits_any _ partTakes_star
  rw [pathGlobMatch, slashParts_asStr, Bool.or_eq_true, Bool.or_eq_true, decide_eq_true_iff, decide_eq_true_iff, matchSegments_iff]
  constructor
  · rintro ((rfl | rfl) | h)
    · exact hall _ (by decide +kernel)
    · exact hall _ (by decide +kernel)
    · exact h
  · exact Or.inr

-- a run of any length in the middle, also the empty one, and pieces of any length in a segment
example : ["/a/c", "/a/b/b/cd", "/a/b"].map (pathGlobMatch "/a/**/c*") = [true, true, false] := by decide +kernel

end Query
end AlefsDb
