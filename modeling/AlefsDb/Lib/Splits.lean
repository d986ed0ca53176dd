import Mathlib.Data.List.Forall2
import Mathlib.Data.List.Infix

/-!
# Lists split into pieces

A list matches a pattern when it is put together from consecutive pieces, one for each element of the pattern, each taken by its
element. Which element takes which pieces is a parameter. A matcher that works from the left decides this: for an element that
takes anything it tries every place to go on from, and for an element that takes single entries it looks at the first.
-/

namespace AlefsDb

variable {α β : Type}

/-- The list is put together from pieces that the elements of the pattern take, in order. -/
def Splits (takes : α → List β → Prop) (pattern : List α) (l : List β) : Prop :=
  ∃ pieces, pieces.flatten = l ∧ List.Forall₂ takes pattern pieces

variable {takes : α → List β → Prop}

theorem splits_nil {l : List β} : Splits takes [] l ↔ l = [] := by
  constructor
  · rintro ⟨pieces, rfl, hpieces⟩
    cases hpieces
    rfl
  · rintro rfl
    exact ⟨[], rfl, .nil⟩

/-- The first element takes a beginning, the others the rest. -/
theorem splits_cons {a : α} {pattern : List α} {l : List β} :
    Splits takes (a :: pattern) l ↔ ∃ piece rest, l = piece ++ rest ∧ takes a piece ∧ Splits takes pattern rest := by
  constructor
  · rintro ⟨pieces, rfl, hpieces⟩
    cases hpieces with
    | cons ha hrest => exact ⟨_, _, rfl, ha, _, rfl, hrest⟩
  · rintro ⟨piece, rest, rfl, ha, pieces, rfl, hpieces⟩
    exact ⟨piece :: pieces, rfl, .cons ha hpieces⟩

/-- An element that takes anything leaves any end of the list to the others. -/
theorem splits_cons_any {a : α} {pattern : List α} {l : List β} (h : ∀ piece, takes a piece) :
    Splits takes (a :: pattern) l ↔ ∃ rest ∈ l.tails, Splits takes pattern rest := by
  rw [splits_cons]
  constructor
  · rintro ⟨piece, rest, rfl, -, hrest⟩
    exact ⟨rest, (List.mem_tails _ _).mpr (List.suffix_append piece rest), hrest⟩
  · rintro ⟨rest, hmem, hrest⟩
    obtain ⟨piece, rfl⟩ := (List.mem_tails _ _).mp hmem
    exact ⟨piece, rest, rfl, h piece, hrest⟩

/-- An element that takes single entries takes the first of the list. -/
theorem splits_cons_one {a : α} {pattern : List α} {l : List β} {P : β → Prop} (h : ∀ piece, takes a piece ↔ ∃ b, piece = [b] ∧ P b) :
    Splits takes (a :: pattern) l ↔ ∃ b rest, l = b :: rest ∧ P b ∧ Splits takes pattern rest := by
  rw [splits_cons]
  constructor
  · rintro ⟨piece, rest, rfl, ha, hrest⟩
    obtain ⟨b, rfl, hb⟩ := (h piece).mp ha
    exact ⟨b, rest, rfl, hb, hrest⟩
  · rintro ⟨b, rest, rfl, hb, hrest⟩
    exact ⟨[b], rest, rfl, (h [b]).mpr ⟨b, rfl, hb⟩, hrest⟩

/-- A pattern of one element that takes anything takes every list. -/
theorem splits_any {a : α} (l : List β) (h : ∀ piece, takes a piece) : Splits takes [a] l :=
  (splits_cons_any h).mpr ⟨[], (List.mem_tails _ _).mpr List.nil_suffix, splits_nil.mpr rfl⟩

end AlefsDb
