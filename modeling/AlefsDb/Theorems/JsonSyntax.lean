import AlefsDb.Lemmas.JsonText

/-!
# The parser on spaced text

A tree is printed as tokens: brackets, commas, colons, strings, numbers and words. However blanks are put before, between and behind
the tokens, the parser reads the tree, and it rejects the text when something that is no blank follows behind a blank.
-/

namespace AlefsDb
namespace Json

namespace JsonVal

/-- What is directly inside an array or an object. -/
def children : JsonVal → List JsonVal
  | array items => items
  | object map => map.map Prod.snd
  | _ => []

theorem sizeOf_lt_of_mem_children {v w : JsonVal} (h : w ∈ v.children) : sizeOf w < sizeOf v := by
  cases v with
  | array items =>
    have := List.sizeOf_lt_of_mem (show w ∈ items from h)
    simp only [array.sizeOf_spec]
    omega
  | object map =>
    obtain ⟨e, he, rfl⟩ := List.mem_map.mp h
    have := List.sizeOf_lt_of_mem he
    have : sizeOf e = 1 + sizeOf e.1 + sizeOf e.2 := by cases e; rfl
    simp only [object.sizeOf_spec]
    omega
  | null | bool | number | float | string => exact absurd h List.not_mem_nil

/-- What holds of a tree when it holds of what is directly inside holds of every tree. -/
theorem nestedInduction {P : JsonVal → Prop} (h : ∀ v, (∀ w ∈ v.children, P w) → P v) (v : JsonVal) : P v :=
  h v (fun w _ => nestedInduction h w)
termination_by sizeOf v
decreasing_by exact sizeOf_lt_of_mem_children ‹_›

/-- There is no float anywhere in a tree. -/
inductive FloatFree : JsonVal → Prop where
  | intro (v : JsonVal) (here : ∀ bits, v ≠ float bits) (inside : ∀ w ∈ v.children, FloatFree w) : FloatFree v

theorem FloatFree.inside {v w : JsonVal} (h : v.FloatFree) (hw : w ∈ v.children) : w.FloatFree := by
  cases h with
  | intro _ _ hinside => exact hinside w hw

theorem not_floatFree_float (bits : UInt64) : ¬(float bits).FloatFree := by
  rintro ⟨-, here, -⟩
  exact here bits rfl

end JsonVal

/-! ## Printing a tree -/

/-- Tokens separated by commas. -/
def separated (parts : List (List (List Char))) : List (List Char) := [[',']].intercalate parts

section

variable (floatText : UInt64 → List Char)

mutual

/-- A tree printed with `json_str` and the separators of `value_to_json` and `export_node`. -/
def jsonText : JsonVal → List Char
  | .null => "null".toList
  | .bool b => boolText b
  | .number n => i64Text n
  | .float bits => floatText bits
  | .string s => jsonStr s.toList
  | .array items => jsonArray (itemTexts items)
  | .object map => jsonObject (entryTexts map)

def itemTexts : List JsonVal → List (List Char)
  | [] => []
  | v :: items => jsonText v :: itemTexts items

def entryTexts : List (String × JsonVal) → List (List Char)
  | [] => []
  | (k, v) :: map => jsonEntry k.toList (jsonText v) :: entryTexts map

end

mutual

/-- The tokens of a tree. -/
def tokens : JsonVal → List (List Char)
  | .null => ["null".toList]
  | .bool b => [boolText b]
  | .number n => [i64Text n]
  | .float bits => [floatText bits]
  | .string s => [jsonStr s.toList]
  | .array items => ['['] :: (separated (itemTokens items) ++ [[']']])
  | .object map => ['\x7b'] :: (separated (entryTokens map) ++ [['\x7d']])

def itemTokens : List JsonVal → List (List (List Char))
  | [] => []
  | v :: items => tokens v :: itemTokens items

def entryTokens : List (String × JsonVal) → List (List (List Char))
  | [] => []
  | (k, v) :: map => (jsonStr k.toList :: [':'] :: tokens v) :: entryTokens map

end

end

/-! ## Blanks between tokens -/

/-- Only blanks. -/
def Blank (gap : List Char) : Prop := ∀ c ∈ gap, Query.isAsciiWhitespace c = true

/-- The text consists of the tokens, each behind any blanks. -/
def Lays : List (List Char) → List Char → Prop
  | [], text => text = []
  | t :: ts, text => ∃ gap rest, Blank gap ∧ text = gap ++ (t ++ rest) ∧ Lays ts rest

/-- The text consists of the tokens, with any blanks before, between and behind them. -/
def Spaced (ts : List (List Char)) (text : List Char) : Prop := ∃ body gap, text = body ++ gap ∧ Lays ts body ∧ Blank gap

theorem blank_nil : Blank [] := by simp [Blank]

theorem blank_space : Blank [' '] := by simp [Blank, Query.isAsciiWhitespace]

/-- A layout of two rows of tokens is one of the first behind one of the second. -/
theorem lays_append {ts us : List (List Char)} {text : List Char} :
    Lays (ts ++ us) text ↔ ∃ a b, text = a ++ b ∧ Lays ts a ∧ Lays us b := by
  induction ts generalizing text with
  | nil =>
    constructor
    · exact fun h => ⟨[], text, rfl, rfl, h⟩
    · rintro ⟨a, b, rfl, rfl, h⟩
      exact h
  | cons t ts ih =>
    constructor
    · rintro ⟨gap, rest, hgap, rfl, hrest⟩
      obtain ⟨a, b, rfl, ha, hb⟩ := ih.mp hrest
      exact ⟨gap ++ (t ++ a), b, by simp, ⟨gap, a, hgap, rfl, ha⟩, hb⟩
    · rintro ⟨_, b, rfl, ⟨gap, a, hgap, rfl, ha⟩, hb⟩
      exact ⟨gap, a ++ b, hgap, by simp, ih.mpr ⟨a, b, rfl, ha, hb⟩⟩

theorem lays_singleton {t text : List Char} : Lays [t] text ↔ ∃ gap, Blank gap ∧ text = gap ++ t := by
  constructor
  · rintro ⟨gap, rest, hgap, rfl, rfl⟩
    exact ⟨gap, hgap, by simp⟩
  · rintro ⟨gap, hgap, rfl⟩
    exact ⟨gap, [], hgap, by simp, rfl⟩

theorem lays_self (t : List Char) : Lays [t] t := lays_singleton.mpr ⟨[], blank_nil, rfl⟩

/-- Blanks are skipped. -/
theorem skipWs_gap {gap : List Char} (h : Blank gap) (chars : List Char) : skipWs (gap ++ chars) = skipWs chars :=
  List.dropWhile_append_of_pos h

/-- Of blanks alone nothing is left. -/
theorem skipWs_blank {gap : List Char} (h : Blank gap) : skipWs gap = [] := by
  rw [← List.append_nil gap, skipWs_gap h]
  rfl

/-- Blanks in front of what ends a number end it too. -/
theorem ends_gap {gap rest : List Char} (h : Blank gap) (hrest : Ends rest) : Ends (gap ++ rest) := by
  cases gap with
  | nil => exact hrest
  | cons c gap => exact Or.inr ⟨c, gap ++ rest, rfl, Or.inr (Or.inr (Or.inr (h c List.mem_cons_self)))⟩

/-- Blanks in front of a text do not matter. -/
theorem ParsesTo.gap {gap text : List Char} {v : JsonVal} (hgap : Blank gap) (h : ParsesTo text v) : ParsesTo (gap ++ text) v := by
  intro fuel rest hfuel hrest
  rw [List.length_append] at hfuel
  rw [← parseValue_skipWs, List.append_assoc, skipWs_gap hgap, parseValue_skipWs]
  exact h fuel rest (by omega) hrest

/-- A text that consists of one token that is parsed. -/
theorem parsesTo_token {t text : List Char} {v : JsonVal} (ht : ParsesTo t v) (h : Lays [t] text) : ParsesTo text v := by
  obtain ⟨gap, hgap, rfl⟩ := lays_singleton.mp h
  exact ht.gap hgap

theorem separated_singleton (part : List (List Char)) : separated [part] = part := by simp [separated, List.intercalate]

theorem separated_cons_cons (a b : List (List Char)) (parts : List (List (List Char))) :
    separated (a :: b :: parts) = a ++ [','] :: separated (b :: parts) := by
  simp [separated, List.intercalate]

/-! ## The printed text is spaced -/

/-- Blanks in front of the first token are before it. -/
theorem Lays.gap {ts : List (List Char)} {gap text : List Char} (h : Lays ts text) (hne : ts ≠ []) (hgap : Blank gap) :
    Lays ts (gap ++ text) := by
  cases ts with
  | nil => exact absurd rfl hne
  | cons t ts =>
    obtain ⟨gap', rest, hgap', rfl, hrest⟩ := h
    refine ⟨gap ++ gap', rest, ?_, by simp, hrest⟩
    intro c hc
    rcases List.mem_append.mp hc with hc | hc
    · exact hgap c hc
    · exact hgap' c hc

/-- Texts of tokens, printed with commas, are the separated tokens. -/
theorem lays_joined {parts : List (List (List Char))} {texts : List (List Char)}
    (h : List.Forall₂ (fun part text => part ≠ [] ∧ Lays part text) parts texts) : Lays (separated parts) (joined texts) := by
  induction h with
  | nil => rfl
  | @cons part text parts texts hpart hparts ih =>
    cases hparts with
    | nil =>
      rw [separated_singleton, joined_singleton]
      exact hpart.2
    | @cons part' text' parts' texts' hpart' hparts' =>
      have hne : separated (part' :: parts') ≠ [] := by
        cases parts' with
        | nil => simpa [separated_singleton] using hpart'.1
        | cons => simp [separated_cons_cons]
      rw [separated_cons_cons, joined_cons_cons]
      -- the space behind the comma stands in front of the next token
      exact lays_append.mpr ⟨_, _, rfl, hpart.2, [], [' '] ++ joined (text' :: texts'), blank_nil, rfl, ih.gap hne blank_space⟩

/-- Tokens in brackets. -/
theorem lays_brackets {left right : Char} {ts : List (List Char)} {text : List Char} (h : Lays ts text) :
    Lays ([left] :: (ts ++ [[right]])) (left :: (text ++ [right])) :=
  ⟨[], text ++ [right], blank_nil, rfl, lays_append.mpr ⟨text, [right], rfl, h, lays_self [right]⟩⟩

section

variable (floatText : UInt64 → List Char)

theorem tokens_ne_nil (v : JsonVal) : tokens floatText v ≠ [] := by
  cases v <;> simp [tokens]

/-- A tree is printed as its tokens, with a space behind each comma and each colon. -/
theorem lays_jsonText (v : JsonVal) : Lays (tokens floatText v) (jsonText floatText v) := by
  induction v using JsonVal.nestedInduction with
  | h v ih =>
    cases v with
    | null | bool | number | float | string => exact lays_self _
    | array items =>
      refine lays_brackets (lays_joined ?_)
      have ih : ∀ v ∈ items, Lays (tokens floatText v) (jsonText floatText v) := ih
      clear * - ih
      induction items with
      | nil => exact .nil
      | cons v items ih' =>
        exact .cons ⟨tokens_ne_nil floatText v, ih v List.mem_cons_self⟩ (ih' (fun w hw => ih w (List.mem_cons_of_mem _ hw)))
    | object map =>
      refine lays_brackets (lays_joined ?_)
      have ih : ∀ e ∈ map, Lays (tokens floatText e.2) (jsonText floatText e.2) := fun e he => ih e.2 (List.mem_map_of_mem he)
      clear * - ih
      induction map with
      | nil => exact .nil
      | cons e map ih' =>
        obtain ⟨k, v⟩ := e
        refine .cons ⟨by simp, ?_⟩ (ih' (fun e' he => ih e' (List.mem_cons_of_mem _ he)))
        have hbody := (ih _ List.mem_cons_self).gap (tokens_ne_nil floatText v) blank_space
        exact ⟨[], ':' :: ([' '] ++ jsonText floatText v), blank_nil, rfl, [], _, blank_nil, rfl, hbody⟩

/-! ## Spaced text is parsed -/

/-- An array without items. -/
theorem parseValue_array_nil (fuel : Nat) {chars rest : List Char} (h : skipWs chars = ']' :: rest) :
    parseValue (fuel + 1) ('[' :: chars) = .ok (.array [], rest) := by
  rw [parseValue, skipWs_of_head (by decide)]
  simp [h]

/-- An object without entries. -/
theorem parseValue_object_nil (fuel : Nat) {chars rest : List Char} (h : skipWs chars = '\x7d' :: rest) :
    parseValue (fuel + 1) ('\x7b' :: chars) = .ok (.object [], rest) := by
  rw [parseValue, skipWs_of_head (by decide)]
  simp [h]

/-- The loop over the items of an array, on items that are parsed however they are laid. -/
theorem parseItems_laid {items : List JsonVal} (hne : items ≠ [])
    (ih : ∀ v ∈ items, ∀ text, Lays (tokens floatText v) text → ParsesTo text v) {text : List Char}
    (h : Lays (separated (itemTokens floatText items) ++ [[']']]) text) {fuel n : Nat} (hfuel : text.length ≤ fuel)
    (hn : text.length ≤ n) (rest : List Char) : parseItems (parseValue fuel) n (text ++ rest) = .ok (items, rest) := by
  induction items generalizing text n with
  | nil => exact absurd rfl hne
  | cons v items ih' =>
    have hv := ih v List.mem_cons_self
    cases items with
    | nil =>
      rw [itemTokens, itemTokens, separated_singleton] at h
      obtain ⟨a, b, rfl, ha, hb⟩ := lays_append.mp h
      obtain ⟨gap, hgap, rfl⟩ := lays_singleton.mp hb
      simp only [List.length_append, List.length_singleton] at hfuel hn
      obtain ⟨n, rfl⟩ : ∃ m, n = m + 1 := ⟨n - 1, by omega⟩
      have hvalue := hv a ha fuel (gap ++ ']' :: rest) (by omega) (ends_gap hgap (ends_cons (by simp) rest))
      have hclose := parseItems_close hvalue (skipWs_gap hgap _) n
      simpa using hclose
    | cons w items =>
      rw [itemTokens, itemTokens, separated_cons_cons, ← itemTokens, List.append_assoc] at h
      obtain ⟨a, b, rfl, ha, gap, b, hgap, rfl, hb⟩ := lays_append.mp h
      simp only [List.length_append, List.length_singleton] at hfuel hn
      obtain ⟨n, rfl⟩ : ∃ m, n = m + 1 := ⟨n - 1, by omega⟩
      have hvalue := hv a ha fuel (gap ++ ',' :: (b ++ rest)) (by omega) (ends_gap hgap (ends_cons (by simp) _))
      have hcomma := parseItems_comma hvalue (skipWs_gap hgap _) n
      have hitems := ih' (by simp) (fun v hv => ih v (List.mem_cons_of_mem _ hv)) hb (by omega) (n := n) (by omega)
      rw [hitems] at hcomma
      simpa using hcomma

/-- The loop over the entries of an object, on entries whose values are parsed however they are laid. -/
theorem parseEntries_laid {map : List (String × JsonVal)} (hne : map ≠ [])
    (ih : ∀ e ∈ map, ∀ text, Lays (tokens floatText e.2) text → ParsesTo text e.2) {text : List Char}
    (h : Lays (separated (entryTokens floatText map) ++ [['\x7d']]) text) {fuel n : Nat} (hfuel : text.length ≤ fuel)
    (hn : text.length ≤ n) (rest : List Char) : parseEntries (parseValue fuel) n (text ++ rest) = .ok (map, rest) := by
  induction map generalizing text n with
  | nil => exact absurd rfl hne
  | cons e map ih' =>
    obtain ⟨k, v⟩ := e
    have hv := ih _ List.mem_cons_self
    cases map with
    | nil =>
      rw [entryTokens, entryTokens, separated_singleton] at h
      obtain ⟨_, b, rfl, ⟨gap₁, _, hgap₁, rfl, gap₂, body, hgap₂, rfl, hbody⟩, hb⟩ := lays_append.mp h
      obtain ⟨gap, hgap, rfl⟩ := lays_singleton.mp hb
      simp only [List.length_append, List.length_singleton] at hfuel hn
      obtain ⟨n, rfl⟩ : ∃ m, n = m + 1 := ⟨n - 1, by omega⟩
      have hvalue := hv body hbody fuel (gap ++ '\x7d' :: rest) (by omega) (ends_gap hgap (ends_cons (by simp) rest))
      have hkey := (skipWs_gap hgap₁ _).trans (skipWs_jsonStr k.toList (gap₂ ++ ':' :: (body ++ (gap ++ '\x7d' :: rest))))
      have hclose := parseEntries_close hkey (skipWs_gap hgap₂ _) hvalue (skipWs_gap hgap _) n
      simpa using hclose
    | cons e' map =>
      obtain ⟨k', v'⟩ := e'
      rw [entryTokens, entryTokens, separated_cons_cons, ← entryTokens, List.append_assoc] at h
      obtain ⟨_, _, rfl, ⟨gap₁, _, hgap₁, rfl, gap₂, body, hgap₂, rfl, hbody⟩, gap, b, hgap, rfl, hb⟩ := lays_append.mp h
      simp only [List.length_append, List.length_singleton] at hfuel hn
      obtain ⟨n, rfl⟩ : ∃ m, n = m + 1 := ⟨n - 1, by omega⟩
      have hvalue := hv body hbody fuel (gap ++ ',' :: (b ++ rest)) (by omega) (ends_gap hgap (ends_cons (by simp) _))
      have hkey := (skipWs_gap hgap₁ _).trans (skipWs_jsonStr k.toList (gap₂ ++ ':' :: (body ++ (gap ++ ',' :: (b ++ rest)))))
      have hcomma := parseEntries_comma hkey (skipWs_gap hgap₂ _) hvalue (skipWs_gap hgap _) n
      have hentries := ih' (by simp) (fun e he => ih e (List.mem_cons_of_mem _ he)) hb (by omega) (n := n) (by omega)
      rw [hentries] at hcomma
      simpa using hcomma

/-- A tree without floats is parsed from its tokens, however they are laid. -/
theorem parsesTo_of_lays {v : JsonVal} (hv : v.FloatFree) {text : List Char} (h : Lays (tokens floatText v) text) :
    ParsesTo text v := by
  induction v using JsonVal.nestedInduction generalizing text with
  | h v ih =>
    have hinside : ∀ w ∈ v.children, ∀ text, Lays (tokens floatText w) text → ParsesTo text w :=
      fun w hw text h => ih w hw (hv.inside hw) h
    cases v with
    | null => exact parsesTo_token parsesTo_null h
    | bool b => exact parsesTo_token (parsesTo_bool b) h
    | number n => exact parsesTo_token (parsesTo_int n) h
    | float bits => exact absurd hv (JsonVal.not_floatFree_float bits)
    | string s =>
      have hstring := parsesTo_string s.toList
      rw [String.ofList_toList] at hstring
      exact parsesTo_token hstring h
    | array items =>
      obtain ⟨gap, body, hgap, rfl, hbody⟩ := h
      refine ParsesTo.gap hgap ?_
      intro fuel rest hfuel _
      simp only [List.length_append, List.length_singleton] at hfuel
      obtain ⟨fuel, rfl⟩ : ∃ m, fuel = m + 1 := ⟨fuel - 1, by omega⟩
      by_cases hne : items = []
      · subst hne
        obtain ⟨gap', hgap', rfl⟩ := lays_singleton.mp hbody
        have hclose : skipWs (gap' ++ ']' :: rest) = ']' :: rest := skipWs_gap hgap' _
        simpa using parseValue_array_nil fuel hclose
      · exact parseValue_array (parseItems_laid floatText hne hinside hbody (by omega) (by omega) rest)
    | object map =>
      obtain ⟨gap, body, hgap, rfl, hbody⟩ := h
      refine ParsesTo.gap hgap ?_
      intro fuel rest hfuel _
      simp only [List.length_append, List.length_singleton] at hfuel
      obtain ⟨fuel, rfl⟩ : ∃ m, fuel = m + 1 := ⟨fuel - 1, by omega⟩
      by_cases hne : map = []
      · subst hne
        obtain ⟨gap', hgap', rfl⟩ := lays_singleton.mp hbody
        have hclose : skipWs (gap' ++ '\x7d' :: rest) = '\x7d' :: rest := skipWs_gap hgap' _
        simpa using parseValue_object_nil fuel hclose
      · have hentries : ∀ e ∈ map, ∀ text, Lays (tokens floatText e.2) text → ParsesTo text e.2 :=
          fun e he => hinside e.2 (List.mem_map_of_mem he)
        exact parseValue_object (parseEntries_laid floatText hne hentries hbody (by omega) (by omega) rest)

/-- A tree without floats is read from every spaced text of its tokens, of which the printed one is one; and the text is rejected when
behind it and at least one blank there is something else. -/
theorem parseJsonValue_spaced {v : JsonVal} (hv : v.FloatFree) :
    Spaced (tokens floatText v) (jsonText floatText v) ∧
      ∀ text, Spaced (tokens floatText v) text → parseJsonValue text = .ok v ∧
        ∀ blanks c junk, Blank blanks → blanks ≠ [] → Query.isAsciiWhitespace c = false →
          parseJsonValue (text ++ blanks ++ c :: junk) = Rust.err "trailing junk in json" := by
  refine ⟨⟨_, [], (List.append_nil _).symm, lays_jsonText floatText v, blank_nil⟩, ?_⟩
  rintro _ ⟨body, gap, rfl, hbody, hgap⟩
  have hparse := parsesTo_of_lays floatText hv hbody
  constructor
  · have hvalue := hparse ((body ++ gap).length + 1) gap (by simp; omega) (by simpa using ends_gap hgap ends_nil)
    rw [parseJsonValue, hvalue, Rust.ok_bind]
    simp [skipWs_blank hgap]
  · intro blanks c junk hblanks hne hc
    have hends : Ends (gap ++ (blanks ++ c :: junk)) := by
      refine ends_gap hgap ?_
      obtain ⟨b, bs, rfl⟩ := List.exists_cons_of_ne_nil hne
      exact Or.inr ⟨b, bs ++ c :: junk, rfl, Or.inr (Or.inr (Or.inr (hblanks b List.mem_cons_self)))⟩
    have hvalue := hparse ((body ++ gap ++ blanks ++ c :: junk).length + 1) _ (by simp; omega) hends
    have hskip : skipWs (gap ++ (blanks ++ c :: junk)) = c :: junk := by
      rw [skipWs_gap hgap, skipWs_gap hblanks, skipWs_of_head hc]
    rw [parseJsonValue, show body ++ gap ++ blanks ++ c :: junk = body ++ (gap ++ (blanks ++ c :: junk)) by simp]
    simp only [List.append_assoc] at hvalue
    rw [hvalue, Rust.ok_bind]
    simp [hskip]

end

/-- An object with blanks in it. -/
theorem parseJsonValue_spaced_pair :
    let v : JsonVal := .object [("a\"\n", .array [.number (-5), .null]), ("", .bool true)]
    Spaced (tokens (fun _ => []) v) (jsonText (fun _ => []) v) ∧
      ∀ text, Spaced (tokens (fun _ => []) v) text → parseJsonValue text = .ok v ∧
        ∀ blanks c junk, Blank blanks → blanks ≠ [] → Query.isAsciiWhitespace c = false →
          parseJsonValue (text ++ blanks ++ c :: junk) = Rust.err "trailing junk in json" := by
  have leaf : ∀ v : JsonVal, v.children = [] → (∀ bits, v ≠ .float bits) → v.FloatFree :=
    fun v hnil hfloat => .intro v hfloat (by simp [hnil])
  refine parseJsonValue_spaced (fun _ => []) (.intro _ (by simp) ?_)
  rintro w hw
  rcases List.mem_cons.mp hw with rfl | hw
  · refine .intro _ (by simp) ?_
    rintro w hw
    rcases List.mem_cons.mp hw with rfl | hw
    · exact leaf _ rfl (by simp)
    · rw [List.mem_singleton.mp hw]
      exact leaf _ rfl (by simp)
  · rw [List.mem_singleton.mp hw]
    exact leaf _ rfl (by simp)

end Json
end AlefsDb
