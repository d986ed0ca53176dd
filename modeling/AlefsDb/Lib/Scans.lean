import Mathlib.Data.List.Nodup
import Mathlib.Order.Lattice

/-!
# Scans of a list that changes

A scan goes over an ascending list in parts. The list may change between the parts; each part starts at the first element after the
last one that the scan has returned. An element that is in the list at every part is returned once.
-/

namespace AlefsDb

variable {α : Type} [LinearOrder α]

/-- What is still to come in a list: the elements after the last one returned. -/
def toCome (returned l : List α) : List α := l.filter (fun a => ∀ b ∈ returned.getLast?, b < a)

/-- What is returned is ascending, and has an element exactly if it has come to it. -/
structure Scanned (a : α) (returned : List α) : Prop where
  ascending : returned.Pairwise (· < ·)
  mem_iff : a ∈ returned ↔ ∃ b ∈ returned.getLast?, a ≤ b

theorem toCome_nil (l : List α) : toCome [] l = l := by simp [toCome]

/-- Where the elements up to the last one are counted, the rest of the list is still to come. -/
theorem drop_eq_toCome {l returned : List α} {b : α} (hl : l.Pairwise (· < ·)) (hb : returned.getLast? = some b) :
    l.drop (l.filter (fun a => a ≤ b)).length = toCome returned l := by
  have hfilter : toCome returned l = l.filter (fun a => b < a) := by simp [toCome, hb]
  rw [hfilter]
  clear hfilter
  induction l with
  | nil => rfl
  | cons a l ih =>
    have hrest := ih hl.of_cons
    by_cases hab : a ≤ b
    · simp [hab, hrest]
    · have hnone : l.filter (fun a => a ≤ b) = [] := by
        rw [List.filter_eq_nil_iff]
        intro c hc
        have := List.rel_of_pairwise_cons hl hc
        simpa using lt_trans (not_le.mp hab) this
      rw [hnone] at hrest
      rw [List.filter_cons_of_neg (by simpa using hab), List.filter_cons_of_pos (by simpa using hab), hnone, ← hrest]
      rfl

theorem scanned_nil (a : α) : Scanned a [] := ⟨List.Pairwise.nil, by simp⟩

/-- Nothing in an ascending list is after its last element. -/
theorem le_of_mem_getLast? {l : List α} (hl : l.Pairwise (· < ·)) {a b : α} (ha : a ∈ l) (hb : b ∈ l.getLast?) : a ≤ b := by
  obtain ⟨start, rfl⟩ := List.getLast?_eq_some_iff.mp hb
  rcases List.mem_append.mp ha with ha | ha
  · exact ((List.pairwise_append.mp hl).2.2 a ha b List.mem_cons_self).le
  · exact (List.mem_singleton.mp ha).le

/-- A part of what is still to come is returned. -/
theorem Scanned.append {a : α} {returned l part : List α} (h : Scanned a returned) (hl : l.Pairwise (· < ·)) (ha : a ∈ l)
    (hpart : part <+: toCome returned l) : Scanned a (returned ++ part) := by
  obtain ⟨rest, hrest⟩ := hpart
  have hcome : (part ++ rest).Pairwise (· < ·) := by
    rw [hrest]
    exact hl.sublist List.filter_sublist
  have hafter : ∀ b ∈ returned, ∀ c ∈ part, b < c := by
    intro b hb c hc
    have hfilter := (List.mem_filter.mp (hrest ▸ List.mem_append_left rest hc)).2
    obtain ⟨last, hlast⟩ := Option.isSome_iff_exists.mp (List.getLast?_isSome.mpr (List.ne_nil_of_mem hb))
    exact lt_of_le_of_lt (le_of_mem_getLast? h.ascending hb hlast) (of_decide_eq_true hfilter last hlast)
  have hascending : (returned ++ part).Pairwise (· < ·) :=
    List.pairwise_append.mpr ⟨h.ascending, (List.pairwise_append.mp hcome).1, hafter⟩
  refine ⟨hascending, fun hmem => ?_, ?_⟩
  · obtain ⟨last, hlast⟩ := Option.isSome_iff_exists.mp (List.getLast?_isSome.mpr (List.ne_nil_of_mem hmem))
    exact ⟨last, hlast, le_of_mem_getLast? hascending hmem hlast⟩
  · rintro ⟨last, hlast, hle⟩
    by_cases hpassed : ∃ b ∈ returned.getLast?, a ≤ b
    · exact List.mem_append_left part (h.mem_iff.mpr hpassed)
    · have hmem : a ∈ part ++ rest := by
        rw [hrest]
        refine List.mem_filter.mpr ⟨ha, decide_eq_true (fun b hb => ?_)⟩
        exact not_le.mp (fun hab => hpassed ⟨b, hb, hab⟩)
      rcases List.mem_append.mp hmem with hmem | hmem
      · exact List.mem_append_right returned hmem
      · -- what comes after the part is after its last element
        have hpart : part ≠ [] := by
          rintro rfl
          rw [List.append_nil] at hlast
          exact hpassed ⟨last, hlast, hle⟩
        rw [List.getLast?_append_of_ne_nil _ hpart] at hlast
        have hlt := (List.pairwise_append.mp hcome).2.2 last (List.mem_of_mem_getLast? hlast) a hmem
        exact absurd hle hlt.not_ge

/-- When nothing is still to come, the element has been returned, once. -/
theorem Scanned.count {a : α} {returned l : List α} (h : Scanned a returned) (ha : a ∈ l) (hover : toCome returned l = []) :
    returned.count a = 1 := by
  have hmem : a ∈ returned := by
    rw [h.mem_iff]
    by_contra hnot
    have hcome : a ∈ toCome returned l :=
      List.mem_filter.mpr ⟨ha, decide_eq_true (fun b hb => not_le.mp (fun hab => hnot ⟨b, hb, hab⟩))⟩
    rw [hover] at hcome
    cases hcome
  exact List.count_eq_one_of_mem (h.ascending.imp (fun hlt => hlt.ne)) hmem

end AlefsDb
