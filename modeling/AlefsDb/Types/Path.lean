import AlefsDb.Lib.Rust
import Mathlib.Data.List.DropRight

/-!
# Paths

`DbPath`: the segments of an absolute path, with its text and its parser. A segment that has gone through `parse` or `join` is not
empty, not `.` or `..`, and has no slash; the type carries that.
-/

namespace AlefsDb

/-- `PathError`. -/
inductive PathError where
  | empty
  | notAbsolute
  | emptySegment
  | forbiddenSegment (segment : String)
  | invalidUtf8
  deriving DecidableEq, Repr

/-- The text of a path error. -/
def PathError.text : PathError → String
  | empty => "empty path"
  | notAbsolute => "path must be absolute (start with /)"
  | emptySegment => "path contains an empty segment"
  | forbiddenSegment segment => s!"path segment '{segment}' is forbidden (. and .. are not stored)"
  | invalidUtf8 => "path is not valid UTF-8"

/-- What `parse` and `join` let pass as a segment. -/
def ValidSegment (s : String) : Prop := s ≠ "" ∧ s ≠ "." ∧ s ≠ ".." ∧ '/' ∉ s.toList

instance (s : String) : Decidable (ValidSegment s) := inferInstanceAs (Decidable (_ ∧ _))

/-- `DbPath`: the segments after the root; none means `/`. -/
@[ext] structure DbPath where
  segments : List String
  valid : ∀ s ∈ segments, ValidSegment s
  deriving DecidableEq

/-- The text of a path with these segments (`/` or `/a/b`). -/
def pathText (segments : List String) : String :=
  if segments = [] then "/" else "/" ++ "/".intercalate segments

/-- The parts that a list is split into at a separator do not hold the separator. -/
theorem not_mem_of_mem_splitOn {α : Type} [BEq α] [LawfulBEq α] {a : α} {xs part : List α} (h : part ∈ xs.splitOn a) :
    a ∉ part := by
  induction xs generalizing part with
  | nil =>
    rw [List.splitOn_nil, List.mem_singleton] at h
    simp [h]
  | cons x xs ih =>
    rw [List.splitOn_cons_eq_if_modifyHead] at h
    split at h
    · rcases List.mem_cons.mp h with rfl | h
      · simp
      · exact ih h
    · rename_i hx
      cases hparts : xs.splitOn a with
      | nil => exact absurd hparts (List.splitOn_ne_nil a xs)
      | cons first parts =>
        rw [hparts, List.modifyHead_cons] at h
        rcases List.mem_cons.mp h with rfl | h
        · have hfirst : a ∉ first := ih (by rw [hparts]; exact List.mem_cons_self)
          have hne : a ≠ x := fun he => hx (by simp [he])
          simp [hne, hfirst]
        · exact ih (by rw [hparts]; exact List.mem_cons_of_mem _ h)

namespace DbPath

/-- The loop of `parse` over the segments of the text. -/
def parseSegments : List (List Char) → Rust PathError (List String)
  | [] => .ok []
  | seg :: rest => do
    if seg = [] then
      Rust.err .emptySegment
    else if seg = ['.'] ∨ seg = ['.', '.'] then
      Rust.err (.forbiddenSegment (String.ofList seg))
    else if '\x00' ∈ seg then
      Rust.err .invalidUtf8
    else
      let segments ← parseSegments rest
      return String.ofList seg :: segments

/-- Segments that have been parsed are valid. -/
theorem parseSegments_valid {l : List (List Char)} {segments : List String} (h : parseSegments l = .ok segments)
    (hslash : ∀ seg ∈ l, '/' ∉ seg) : ∀ s ∈ segments, ValidSegment s := by
  induction l generalizing segments with
  | nil =>
    cases h
    simp
  | cons seg rest ih =>
    rw [parseSegments] at h
    split at h
    · cases h
    · rename_i hempty
      split at h
      · cases h
      · rename_i hdots
        split at h
        · cases h
        · obtain ⟨segments', hrest, h⟩ := Rust.bind_eq_ok.mp h
          cases h
          intro s hs
          rcases List.mem_cons.mp hs with rfl | hs
          · rw [not_or] at hdots
            refine ⟨?_, ?_, ?_, by simpa using hslash seg List.mem_cons_self⟩
            · exact fun he => hempty (by simpa using congrArg String.toList he)
            · exact fun he => hdots.1 (by simpa using congrArg String.toList he)
            · exact fun he => hdots.2 (by simpa using congrArg String.toList he)
          · exact ih hrest (fun seg' h' => hslash seg' (List.mem_cons_of_mem _ h')) s hs

/-- `root`. -/
def root : DbPath := ⟨[], by simp⟩

/-- `parse`. -/
def parse (input : String) : Rust PathError DbPath :=
  match input.toList with
  | [] => Rust.err .empty
  | c :: rest =>
    if c ≠ '/' then
      Rust.err .notAbsolute
    else if rest = [] then
      .ok root
    else
      -- a trailing slash is taken off
      let trimmed := (c :: rest).rdropWhile (· == '/')
      if trimmed = [] then
        .ok root
      else
        match h : parseSegments (trimmed.tail.splitOn '/') with
        | .ok segments => .ok ⟨segments, parseSegments_valid h (fun _ hseg => not_mem_of_mem_splitOn hseg)⟩
        | .error e => .error e

/-- `is_root`. -/
def isRoot (p : DbPath) : Bool := p.segments.isEmpty

/-- `join`. -/
def join (p : DbPath) (segment : String) : Rust PathError DbPath :=
  if h₁ : segment = "" then
    Rust.err .emptySegment
  else if h₂ : segment = "." ∨ segment = ".." ∨ '/' ∈ segment.toList then
    Rust.err (.forbiddenSegment segment)
  else
    .ok ⟨p.segments ++ [segment], by
      simp only [not_or] at h₂
      intro s hs
      rcases List.mem_append.mp hs with hs | hs
      · exact p.valid s hs
      · exact List.mem_singleton.mp hs ▸ ⟨h₁, h₂⟩⟩

/-- A segment that `join` lets pass. -/
theorem join_eq (path : DbPath) {s : String} (hs : ValidSegment s) :
    ∃ child, path.join s = .ok child ∧ child.segments = path.segments ++ [s] := by
  obtain ⟨h₁, h₂, h₃, h₄⟩ := hs
  refine ⟨⟨path.segments ++ [s], ?_⟩, ?_, rfl⟩
  · intro t ht
    rcases List.mem_append.mp ht with ht | ht
    · exact path.valid t ht
    · exact List.mem_singleton.mp ht ▸ ⟨h₁, h₂, h₃, h₄⟩
  · rw [join, dif_neg h₁, dif_neg (by simp [h₂, h₃, h₄])]

/-- `join` puts one valid segment behind a path. -/
theorem join_ok {p q : DbPath} {s : String} (h : p.join s = .ok q) : ValidSegment s ∧ q.segments = p.segments ++ [s] := by
  unfold join at h
  split at h
  · cases h
  split at h
  · cases h
  · rename_i h₁ h₂
    cases h
    simp only [not_or] at h₂
    exact ⟨⟨h₁, h₂⟩, rfl⟩

/-- `parent`. -/
def parent (p : DbPath) : Option DbPath :=
  if p.segments = [] then none
  else some ⟨p.segments.dropLast, fun s hs => p.valid s ((List.dropLast_sublist _).subset hs)⟩

/-- `as_str`. -/
def asStr (p : DbPath) : String := pathText p.segments

/-! ## Paths read back from their text -/

/-- A path that `parse` may return: its segments hold no NUL. -/
def NoNul (p : DbPath) : Prop := ∀ s ∈ p.segments, '\x00' ∉ s.toList

theorem parseSegments_noNul {l : List (List Char)} {segments : List String} (h : parseSegments l = .ok segments) :
    ∀ s ∈ segments, '\x00' ∉ s.toList := by
  induction l generalizing segments with
  | nil =>
    cases h
    simp
  | cons seg rest ih =>
    rw [parseSegments] at h
    split at h
    · cases h
    split at h
    · cases h
    split at h
    · cases h
    · rename_i hnul
      obtain ⟨segments', hrest, h⟩ := Rust.bind_eq_ok.mp h
      cases h
      intro s hs
      rcases List.mem_cons.mp hs with rfl | hs
      · rwa [String.toList_ofList]
      · exact ih hrest s hs

theorem noNul_of_parse {text : String} {p : DbPath} (h : parse text = .ok p) : p.NoNul := by
  have hroot : root.NoNul := fun s hs => absurd hs List.not_mem_nil
  unfold parse at h
  split at h
  · cases h
  split at h
  · cases h
  split at h
  · cases h
    exact hroot
  dsimp only at h
  split at h
  · cases h
    exact hroot
  split at h
  · rename_i hsegments
    cases h
    exact parseSegments_noNul hsegments
  · cases h

/-- Segments that are parsed keep their text. -/
theorem parseSegments_toList {l : List (List Char)} {segments : List String} (h : parseSegments l = .ok segments) :
    segments.map String.toList = l := by
  induction l generalizing segments with
  | nil =>
    cases h
    rfl
  | cons seg rest ih =>
    rw [parseSegments] at h
    split at h
    · cases h
    split at h
    · cases h
    split at h
    · cases h
    · obtain ⟨segments', hrest, h⟩ := Rust.bind_eq_ok.mp h
      cases h
      rw [List.map_cons, ih hrest, String.toList_ofList]

/-- Valid segments without NUL characters are parsed to themselves. -/
theorem parseSegments_eq {segments : List String} (hvalid : ∀ s ∈ segments, ValidSegment s)
    (hnul : ∀ s ∈ segments, '\x00' ∉ s.toList) : parseSegments (segments.map String.toList) = .ok segments := by
  induction segments with
  | nil => rfl
  | cons s segments ih =>
    obtain ⟨hempty, hdot, hdots, -⟩ := hvalid s List.mem_cons_self
    have hrest := ih (fun t ht => hvalid t (List.mem_cons_of_mem _ ht)) (fun t ht => hnul t (List.mem_cons_of_mem _ ht))
    have h₁ : s.toList ≠ [] := fun he => hempty (String.toList_inj.mp he)
    have h₂ : s.toList ≠ ['.'] := fun he => hdot (String.toList_inj.mp he)
    have h₃ : s.toList ≠ ['.', '.'] := fun he => hdots (String.toList_inj.mp he)
    rw [List.map_cons, parseSegments, if_neg h₁, if_neg (not_or.mpr ⟨h₂, h₃⟩), if_neg (hnul s List.mem_cons_self), hrest]
    simp

/-- The text of a path ends with its last segment. -/
theorem pathText_append (segments : List String) (s : String) : ∃ start, pathText (segments ++ [s]) = start ++ s := by
  rw [pathText, if_neg (by simp)]
  cases segments with
  | nil => exact ⟨"/", by simp⟩
  | cons t segments =>
    refine ⟨"/" ++ ("/".intercalate (t :: segments) ++ "/"), ?_⟩
    rw [String.intercalate_append_of_ne_nil (by simp) (by simp), String.intercalate_singleton]
    simp only [String.append_assoc]

/-- The text of a path below the root, as a list of characters. -/
theorem toList_pathText {segments : List String} (h : segments ≠ []) :
    (pathText segments).toList = '/' :: ['/'].intercalate (segments.map String.toList) := by
  rw [pathText, if_neg h, String.toList_append, String.toList_intercalate]
  rfl

/-- Segments put together at slashes are split there. -/
theorem splitOn_intercalate {segments : List String} (hvalid : ∀ s ∈ segments, ValidSegment s) (h : segments ≠ []) :
    (['/'].intercalate (segments.map String.toList)).splitOn '/' = segments.map String.toList := by
  refine List.splitOn_intercalate '/' (fun l hl => ?_) (by simpa using h)
  obtain ⟨t, ht, rfl⟩ := List.mem_map.mp hl
  exact (hvalid t ht).2.2.2

/-- Behind the slash that a text begins with there is something, unless the text is that of the root. -/
theorem intercalate_ne_nil {segments : List String} (hvalid : ∀ s ∈ segments, ValidSegment s) (h : segments ≠ []) :
    ['/'].intercalate (segments.map String.toList) ≠ [] := by
  intro he
  have hsplit := splitOn_intercalate hvalid h
  rw [he] at hsplit
  have hmem : [] ∈ segments.map String.toList := hsplit ▸ by simp
  obtain ⟨t, ht, htoList⟩ := List.mem_map.mp hmem
  exact (hvalid t ht).1 (String.toList_inj.mp htoList)

/-- Paths with the same text are equal. -/
theorem asStr_injective {p q : DbPath} (h : p.asStr = q.asStr) : p = q := by
  have hroot : ∀ segments : List String, (∀ s ∈ segments, ValidSegment s) → pathText segments = pathText [] → segments = [] := by
    intro segments hvalid htext
    by_contra hne
    have htoList := toList_pathText hne
    rw [htext] at htoList
    exact intercalate_ne_nil hvalid hne (List.cons.inj htoList).2.symm
  obtain ⟨segments, hp⟩ := p
  obtain ⟨segments', hq⟩ := q
  suffices segments = segments' by
    subst this
    rfl
  have h : pathText segments = pathText segments' := h
  by_cases hne : segments = []
  · subst hne
    exact (hroot segments' hq h.symm).symm
  by_cases hne' : segments' = []
  · subst hne'
    exact hroot segments hp h
  have htoList := toList_pathText hne
  rw [h, toList_pathText hne'] at htoList
  have hmap : segments'.map String.toList = segments.map String.toList := by
    rw [← splitOn_intercalate hq hne', ← splitOn_intercalate hp hne, (List.cons.inj htoList).2]
  exact (List.map_injective_iff.mpr (fun _ _ => String.toList_inj.mp) hmap).symm

/-- The text of a path below the root does not end with a slash. -/
theorem rdropWhile_pathText {segments : List String} (hvalid : ∀ s ∈ segments, ValidSegment s) (h : segments ≠ []) :
    (pathText segments).toList.rdropWhile (· == '/') = (pathText segments).toList := by
  rcases List.eq_nil_or_concat segments with rfl | ⟨start, s, hconcat⟩
  · exact absurd rfl h
  rw [List.concat_eq_append] at hconcat
  rw [List.rdropWhile_eq_self_iff]
  intro hl
  obtain ⟨pre, hpre⟩ := pathText_append start s
  obtain ⟨hs, -, -, hslash⟩ := hvalid s (by simp [hconcat])
  have hs : s.toList ≠ [] := fun he => hs (String.toList_inj.mp he)
  have hlist : (pathText segments).toList = pre.toList ++ s.toList := by rw [hconcat, hpre, String.toList_append]
  simp only [hlist, List.getLast_append_of_ne_nil _ hs, beq_iff_eq]
  intro he
  exact hslash (he ▸ List.getLast_mem hs)

/-- What the text of a path below the root is parsed to: its segments, when `parse` lets them pass. -/
theorem parse_pathText {segments : List String} (hvalid : ∀ s ∈ segments, ValidSegment s) (h : segments ≠ []) :
    Except.map DbPath.segments (parse (pathText segments)) = parseSegments (segments.map String.toList) := by
  have htrimmed := rdropWhile_pathText hvalid h
  rw [toList_pathText h] at htrimmed
  have hsegments : parseSegments ((('/' :: ['/'].intercalate (segments.map String.toList)).rdropWhile (· == '/')).tail.splitOn '/') =
      parseSegments (segments.map String.toList) := by
    rw [htrimmed, List.tail_cons, splitOn_intercalate hvalid h]
  unfold parse
  rw [toList_pathText h]
  simp only [htrimmed, intercalate_ne_nil hvalid h, if_false, ne_eq, not_true_eq_false, reduceCtorEq]
  split
  · rename_i segments' hok
    rw [← hsegments]
    exact hok.symm
  · rename_i e herror
    rw [← hsegments]
    exact herror.symm

/-- A path without NUL is what its text is parsed to. -/
theorem parse_asStr {p : DbPath} (h : p.NoNul) : parse p.asStr = .ok p := by
  by_cases hroot : p.segments = []
  · rw [show p = root from DbPath.ext hroot]
    exact (show parse "/" = .ok root by decide +kernel)
  · have hparse := parse_pathText p.valid hroot
    rw [parseSegments_eq p.valid h] at hparse
    obtain ⟨q, hq, hsegments⟩ : ∃ q, parse (pathText p.segments) = .ok q ∧ q.segments = p.segments := by
      cases hr : parse (pathText p.segments) with
      | ok q => exact ⟨q, rfl, by rw [hr] at hparse; exact Except.ok.inj hparse⟩
      | error e => rw [hr] at hparse; cases hparse
    rw [asStr, hq, DbPath.ext hsegments]

/-- The text of a path is parsed to no other path. -/
theorem eq_of_parse_asStr {p q : DbPath} (h : parse p.asStr = .ok q) : q = p := by
  by_cases hroot : p.segments = []
  · have hp : p = root := DbPath.ext hroot
    subst hp
    exact Except.ok.inj (h.symm.trans (show parse "/" = .ok root by decide +kernel))
  · have hparse := parse_pathText p.valid hroot
    rw [show parse (pathText p.segments) = .ok q from h] at hparse
    have hmap := parseSegments_toList hparse.symm
    exact DbPath.ext (List.map_injective_iff.mpr (fun _ _ => String.toList_inj.mp) hmap)

end DbPath
end AlefsDb
