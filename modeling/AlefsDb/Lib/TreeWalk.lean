import AlefsDb.Lib.Bytes
import Mathlib.Data.List.Infix
import Mathlib.Data.List.Nodup

/-!
# Walking a tree of paths

A tree is a set of paths that has every prefix of a path in it. `Visiting` is the invariant of a walk with a worklist: the paths
that are done and those on the worklist are different, the parent of each is done, and the children of what is done are there. A
walk whose worklist is empty has done every path once. `Enumerates` is about a walk that recurs into the children in their order: it
lists the paths in ascending order, which puts a path before those below it.
-/

namespace AlefsDb

variable {α : Type}

/-- The set has the prefixes of its paths. -/
def PrefixClosed (live : List α → Prop) : Prop := ∀ p s, live (p ++ [s]) → live p

/-- The set has at most so many paths. -/
def AtMost (live : List α → Prop) (n : Nat) : Prop := ∀ l : List (List α), l.Nodup → (∀ p ∈ l, live p) → l.length ≤ n

/-- A prefix of a live path is live. -/
theorem PrefixClosed.of_isPrefix {live : List α → Prop} (hclosed : PrefixClosed live) {p q : List α} (hq : live q)
    (hpq : p <+: q) : live p := by
  obtain ⟨r, rfl⟩ := hpq
  induction r using List.reverseRecOn with
  | nil => rwa [List.append_nil] at hq
  | append_singleton r s ih =>
    rw [← List.append_assoc] at hq
    exact ih (hclosed _ s hq)

/-- A path is shorter than there are paths, for its prefixes are paths too. -/
theorem AtMost.length_lt {live : List α → Prop} {n : Nat} (hn : AtMost live n) (hclosed : PrefixClosed live) {p : List α}
    (hp : live p) : p.length < n := by
  have hnodup : ((List.range (p.length + 1)).map (fun k => p.take k)).Nodup := by
    refine List.Nodup.map_on (fun i hi j hj hij => ?_) List.nodup_range
    rw [List.mem_range] at hi hj
    have hlength := congrArg List.length hij
    rw [List.length_take, List.length_take] at hlength
    omega
  have hle := hn _ hnodup (fun q hq => by
    obtain ⟨k, -, rfl⟩ := List.mem_map.mp hq
    exact hclosed.of_isPrefix hp (List.take_prefix k p))
  rw [List.length_map, List.length_range] at hle
  exact hle

/-- No path follows itself. -/
theorem append_singleton_ne_self (p : List α) (s : α) : p ++ [s] ≠ p := fun h => by
  have := congrArg List.length h
  simp at this

structure Visiting (live : List α → Prop) (done work : List (List α)) : Prop where
  nodup : (done ++ work).Nodup
  alive : ∀ p ∈ done ++ work, live p
  root : [] ∈ done ++ work
  parent : ∀ p s, p ++ [s] ∈ done ++ work → p ∈ done
  children : ∀ p ∈ done, ∀ s, live (p ++ [s]) → p ++ [s] ∈ done ++ work

namespace Visiting

variable {live : List α → Prop} {done work : List (List α)}

/-- At the start the worklist is the root. -/
theorem start (h : live []) : Visiting live [] [[]] := by
  refine ⟨by simp, ?_, by simp, ?_, ?_⟩
  · intro p hp
    obtain rfl := List.mem_singleton.mp hp
    exact h
  · intro p s hp
    simp at hp
  · intro p hp
    cases hp

/-- A path is taken off the worklist, and its children are put on it. -/
theorem visit {p : List α} (h : Visiting live done (p :: work)) {names : List α} (hnodup : names.Nodup)
    (hnames : ∀ s, s ∈ names ↔ live (p ++ [s])) {below : List (List α)} (hbelow : below.Perm (names.map (fun s => p ++ [s]))) :
    Visiting live (p :: done) (below ++ work) := by
  have hmem : ∀ q, q ∈ below ↔ ∃ s, live (p ++ [s]) ∧ q = p ++ [s] := by
    intro q
    rw [hbelow.mem_iff, List.mem_map]
    constructor
    · rintro ⟨s, hs, rfl⟩
      exact ⟨s, (hnames s).mp hs, rfl⟩
    · rintro ⟨s, hs, rfl⟩
      exact ⟨s, (hnames s).mpr hs, rfl⟩
  have hpdone : p ∉ done := fun hp => (List.nodup_append.mp h.nodup).2.2 p hp p List.mem_cons_self rfl
  have hperm : (p :: done ++ (below ++ work)).Perm (below ++ (done ++ p :: work)) :=
    (List.perm_append_comm_assoc _ _ _).trans (List.perm_middle.symm.append_left below)
  have hmem' : ∀ q, q ∈ p :: done ++ (below ++ work) ↔ q ∈ below ∨ q ∈ done ++ p :: work := by
    intro q
    rw [hperm.mem_iff, List.mem_append]
  refine ⟨?_, ?_, ?_, ?_, ?_⟩
  · rw [hperm.nodup_iff, List.nodup_append]
    refine ⟨?_, h.nodup, ?_⟩
    · rw [hbelow.nodup_iff]
      exact hnodup.map (fun s t hst => by simpa using hst)
    · -- a child that had been put on the worklist would have a parent that is done
      rintro a ha b hb rfl
      obtain ⟨s, -, rfl⟩ := (hmem a).mp ha
      exact hpdone (h.parent p s hb)
  · intro q hq
    rcases (hmem' q).mp hq with hq | hq
    · obtain ⟨s, hs, rfl⟩ := (hmem q).mp hq
      exact hs
    · exact h.alive q hq
  · exact (hmem' []).mpr (Or.inr h.root)
  · intro q s hq
    rcases (hmem' _).mp hq with hq | hq
    · obtain ⟨t, -, ht⟩ := (hmem _).mp hq
      obtain ⟨rfl, -⟩ := List.append_inj' ht rfl
      exact List.mem_cons_self
    · exact List.mem_cons_of_mem _ (h.parent q s hq)
  · intro q hq s hs
    rw [hmem']
    rcases List.mem_cons.mp hq with rfl | hq
    · exact Or.inl ((hmem _).mpr ⟨s, hs, rfl⟩)
    · exact Or.inr (h.children q hq s hs)

/-- A walk that is over has done every path. -/
theorem complete (hclosed : PrefixClosed live) (h : Visiting live done []) {p : List α} (hp : live p) : p ∈ done := by
  induction p using List.reverseRecOn with
  | nil => simpa using h.root
  | append_singleton p s ih =>
    have := h.children p (ih (hclosed p s hp)) s hp
    rwa [List.append_nil] at this

/-- A walk that is not over has done less than all paths. -/
theorem length_done_lt {n : Nat} (hn : AtMost live n) {p : List α} (h : Visiting live done (p :: work)) : done.length < n := by
  have := hn _ h.nodup h.alive
  rw [List.length_append, List.length_cons] at this
  omega

end Visiting

/-! ## Walks that recur -/

/-- The paths at and below a path. -/
def Below (live : List α → Prop) (p q : List α) : Prop := p <+: q ∧ live q

section

variable [LinearOrder α] {live : List α → Prop}

/-- The list has the paths of a set, each once, in ascending order. -/
structure Enumerates (S : List α → Prop) (l : List (List α)) : Prop where
  ascending : l.Pairwise (· < ·)
  mem : ∀ q, q ∈ l ↔ S q

/-- An enumeration has each path once. -/
theorem Enumerates.nodup {S : List α → Prop} {l : List (List α)} (h : Enumerates S l) : l.Nodup := h.ascending.imp (fun hlt => hlt.ne)

/-- An enumeration is one of any description of the same paths. -/
theorem Enumerates.congr {S S' : List α → Prop} {l : List (List α)} (h : Enumerates S l) (hS : ∀ q, S q ↔ S' q) : Enumerates S' l :=
  ⟨h.ascending, fun q => (h.mem q).trans (hS q)⟩

/-- Below different children, paths are in the order of the children. -/
theorem lt_of_children {p q r : List α} {s t : α} (hst : s < t) (hq : p ++ [s] <+: q) (hr : p ++ [t] <+: r) : q < r := by
  obtain ⟨q', rfl⟩ := hq
  obtain ⟨r', rfl⟩ := hr
  rw [List.append_assoc, List.append_assoc]
  exact List.append_left_lt (List.Lex.rel hst)

/-- Children are in the order of their paths. -/
theorem lt_of_append_singleton_lt {p : List α} {s t : α} (h : p ++ [s] < p ++ [t]) : s < t := by
  rcases lt_trichotomy s t with hst | rfl | hts
  · exact hst
  · exact absurd h (lt_irrefl _)
  · exact absurd h (lt_of_children hts List.prefix_rfl List.prefix_rfl).asymm

/-- What is below the children of a path, one child after the other. -/
theorem Enumerates.children {p : List α} {s : α} {names : List α} {l rest : List (List α)}
    (h : Enumerates (Below live (p ++ [s])) l) (hrest : Enumerates (fun q => ∃ t ∈ names, Below live (p ++ [t]) q) rest)
    (hnames : ∀ t ∈ names, s < t) : Enumerates (fun q => ∃ t ∈ s :: names, Below live (p ++ [t]) q) (l ++ rest) := by
  refine ⟨List.pairwise_append.mpr ⟨h.ascending, hrest.ascending, ?_⟩, ?_⟩
  · intro q hq r hr
    obtain ⟨t, ht, hbelow, -⟩ := (hrest.mem r).mp hr
    exact lt_of_children (hnames t ht) ((h.mem q).mp hq).1 hbelow
  · intro q
    simp [h.mem, hrest.mem]

/-- A path, and then what is below its children. -/
theorem Enumerates.node (hclosed : PrefixClosed live) {p : List α} (hp : live p) {names : List α}
    (hnames : ∀ s, live (p ++ [s]) → s ∈ names) {l : List (List α)}
    (h : Enumerates (fun q => ∃ s ∈ names, Below live (p ++ [s]) q) l) : Enumerates (Below live p) (p :: l) := by
  have hbelow : ∀ {s q}, p ++ [s] <+: q → p <+: q ∧ p ≠ q := by
    rintro s q ⟨r, rfl⟩
    refine ⟨⟨s :: r, by simp⟩, fun he => ?_⟩
    have := congrArg List.length he
    simp at this
  refine ⟨List.pairwise_cons.mpr ⟨?_, h.ascending⟩, ?_⟩
  · intro q hq
    obtain ⟨s, -, hs, -⟩ := (h.mem q).mp hq
    exact lt_of_le_of_ne (le_of_isPrefix (hbelow hs).1) (hbelow hs).2
  · intro q
    rw [List.mem_cons, h.mem]
    constructor
    · rintro (rfl | ⟨s, -, hs, hq⟩)
      · exact ⟨List.prefix_rfl, hp⟩
      · exact ⟨(hbelow hs).1, hq⟩
    · rintro ⟨⟨r, rfl⟩, hq⟩
      cases r with
      | nil => exact Or.inl (List.append_nil p)
      | cons s r =>
        have hs : p ++ [s] <+: p ++ s :: r := ⟨r, by simp⟩
        exact Or.inr ⟨s, hnames s (hclosed.of_isPrefix hq hs), hs, hq⟩

end

end AlefsDb
