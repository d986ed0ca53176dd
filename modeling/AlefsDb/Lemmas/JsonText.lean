import AlefsDb.Json.Transfer
import AlefsDb.Query.Print

/-!
# The printed text is parsed

`ParsesTo text v`: the parser reads a text as `v`, whatever stands behind it, if that begins with what may follow a value. It holds of
strings, integers, arrays and objects that are printed, and so of the text of every value that holds no float (`parsesTo_value`).
-/

namespace AlefsDb
namespace Json

/-- What may follow a value: the end, a comma, a closing bracket or a blank. -/
def Ends (rest : List Char) : Prop :=
  rest = [] ∨ ∃ c behind, rest = c :: behind ∧ (c = ',' ∨ c = ']' ∨ c = '\x7d' ∨ Query.isAsciiWhitespace c = true)

theorem ends_nil : Ends [] := Or.inl rfl

/-- A comma or a closing bracket ends a number. -/
theorem ends_cons {c : Char} (h : c = ',' ∨ c = ']' ∨ c = '\x7d') (rest : List Char) : Ends (c :: rest) :=
  Or.inr ⟨c, rest, rfl, by tauto⟩

/-- What ends a value continues no number. -/
theorem Ends.head {c : Char} {behind : List Char} (h : Ends (c :: behind)) : c.isDigit = false ∧ c ≠ '.' := by
  obtain h | ⟨c', behind', h, hc⟩ := h
  · cases h
  · cases h
    rcases hc with rfl | rfl | rfl | hc
    · decide
    · decide
    · decide
    · rw [Query.isAsciiWhitespace, decide_eq_true_eq] at hc
      rcases hc with rfl | rfl | rfl | rfl | rfl <;> decide

/-- A text is parsed to a value, with fuel for each of its characters. -/
def ParsesTo (text : List Char) (v : JsonVal) : Prop :=
  ∀ fuel rest, text.length ≤ fuel → Ends rest → parseValue fuel (text ++ rest) = .ok (v, rest)

theorem skipWs_of_head {c : Char} (h : Query.isAsciiWhitespace c = false) (rest : List Char) : skipWs (c :: rest) = c :: rest := by
  rw [skipWs, List.dropWhile_cons_of_neg (by simp [h])]

/-! ## Strings -/

/-- A string is written with a backslash before each quote and each backslash. -/
theorem jsonStr_eq (text : List Char) : jsonStr text = '"' :: (text.flatMap Query.escape ++ ['"']) := by
  have hchar : ∀ c, replaceChar '"' ['\\', '"'] (if c = '\\' then ['\\', '\\'] else [c]) = Query.escape c := by
    intro c
    by_cases hslash : c = '\\'
    · subst hslash
      rfl
    · by_cases hquote : c = '"'
      · subst hquote
        rfl
      · simp [replaceChar, Query.escape, hslash, hquote]
  have hreplace : replaceChar '"' ['\\', '"'] (replaceChar '\\' ['\\', '\\'] text) = text.flatMap Query.escape := by
    rw [replaceChar, replaceChar, List.flatMap_assoc]
    exact List.flatMap_congr (fun c _ => hchar c)
  rw [jsonStr, hreplace]

/-- An escaped text is scanned back. -/
theorem scanString_escape (text rest : List Char) : scanString (text.flatMap Query.escape ++ '"' :: rest) = .ok (text, rest) := by
  induction text with
  | nil => rfl
  | cons c text ih =>
    rw [List.flatMap_cons, List.append_assoc]
    by_cases hc : c = '"' ∨ c = '\\'
    · -- a quote or a backslash behind a backslash stands for itself
      have hescape : Query.escape c = ['\\', c] := if_pos hc
      have hunescape : unescape c = c := by rcases hc with rfl | rfl <;> rfl
      rw [hescape, List.cons_append, List.cons_append, List.nil_append, scanString, ih, Rust.ok_bind, hunescape]
      rfl
    · have hescape : Query.escape c = [c] := if_neg hc
      rw [not_or] at hc
      rw [hescape, List.cons_append, List.nil_append, scanString.eq_5 _ _ hc.1 (fun h _ => hc.2 h) (fun _ _ h => absurd h hc.2), ih]
      rfl

/-- A string that has been written is parsed back. -/
theorem parseString_jsonStr (text rest : List Char) : parseString (jsonStr text ++ rest) = .ok (String.ofList text, rest) := by
  have hscan := scanString_escape text rest
  rw [jsonStr_eq, List.cons_append, List.append_assoc, List.singleton_append, parseString, hscan]
  rfl

/-- What the parser does behind the blanks, when that begins with a quote. -/
theorem parseValue_quote (fuel : Nat) (chars : List Char) : parseValue (fuel + 1) ('"' :: chars) = (do
    let (s, rest) ← parseString ('"' :: chars)
    return (.string s, rest)) := by
  rw [parseValue, skipWs_of_head (by decide)]
  rfl

/-- The text of a string parses to the string. -/
theorem parsesTo_string (text : List Char) : ParsesTo (jsonStr text) (.string (String.ofList text)) := by
  intro fuel rest hfuel _
  have hstring := parseString_jsonStr text rest
  rw [jsonStr_eq] at hstring hfuel ⊢
  cases fuel with
  | zero => simp at hfuel
  | succ fuel =>
    rw [List.cons_append] at hstring ⊢
    rw [parseValue_quote, hstring]
    rfl

/-! ## Scalars -/

/-- `null` parses to null. -/
theorem parsesTo_null : ParsesTo "null".toList .null := by
  intro fuel rest hfuel _
  cases fuel with
  | zero => simp at hfuel
  | succ fuel => rfl

/-- The text of a boolean parses to the boolean. -/
theorem parsesTo_bool (b : Bool) : ParsesTo (boolText b) (.bool b) := by
  intro fuel rest hfuel _
  cases fuel with
  | zero => cases b <;> simp [boolText] at hfuel
  | succ fuel => cases b <;> rfl

/-- Digits end where a value ends. -/
theorem takeWhile_append_of_ends {digits rest : List Char} (hdigits : ∀ c ∈ digits, c.isDigit = true) (hrest : Ends rest) :
    (digits ++ rest).takeWhile Char.isDigit = digits ∧ (digits ++ rest).dropWhile Char.isDigit = rest := by
  rw [List.takeWhile_append_of_pos hdigits, List.dropWhile_append_of_pos hdigits]
  cases rest with
  | nil => simp
  | cons c behind => simp [hrest.head.1]

/-- A number: digits, perhaps behind a minus sign. -/
theorem parseNumber_int {sign digits rest : List Char} {n : Int64} (hsign : sign = [] ∨ sign = ['-']) (hne : digits ≠ [])
    (hdigits : ∀ c ∈ digits, c.isDigit = true) (hrest : Ends rest) (hn : parseI64 (sign ++ digits) = some n) :
    parseNumber (sign ++ digits ++ rest) = .ok (.number n, rest) := by
  obtain ⟨htake, hdrop⟩ := takeWhile_append_of_ends hdigits hrest
  have hfilter : ((sign ++ digits ++ rest).take 1).filter (· = '-') = sign := by
    rcases hsign with rfl | rfl
    · obtain ⟨d, ds, rfl⟩ := List.exists_cons_of_ne_nil hne
      have hd : d ≠ '-' := by
        intro he
        exact absurd (hdigits d List.mem_cons_self) (by rw [he]; decide)
      simp [hd]
    · rfl
  have hbehind : (sign ++ digits ++ rest).drop sign.length = digits ++ rest := by rw [List.append_assoc, List.drop_left]
  unfold parseNumber
  simp only [hfilter, hbehind, htake, hdrop, hn]
  split
  · exact absurd rfl hrest.head.2
  · rfl

/-- The text of an integer parses to the integer. -/
theorem parsesTo_int (n : Int64) : ParsesTo (i64Text n) (.number n) := by
  intro fuel rest hfuel hrest
  have hdigits : ∀ c ∈ natText n.toInt.natAbs, c.isDigit = true := fun _ h => isDigit_of_mem_natText h
  have hparse := parseI64_i64Text n
  -- the branch of the parser for a character that begins a number
  have hbranch : ∀ (fuel : Nat) (c : Char) (chars : List Char), c = '-' ∨ c.isDigit = true →
      parseValue (fuel + 1) (c :: chars) = parseNumber (c :: chars) := by
    intro fuel c chars hc
    have hne : ∀ d : Char, d ≠ '-' → d.isDigit = false → c ≠ d := by
      intro d hminus hd he
      rcases hc with rfl | hc
      · exact hminus he.symm
      · rw [he, hd] at hc
        cases hc
    have hblank : Query.isAsciiWhitespace c = false := by
      simp [Query.isAsciiWhitespace, hne ' ' (by decide) (by decide), hne '\t' (by decide) (by decide),
        hne '\n' (by decide) (by decide), hne '\x0c' (by decide) (by decide), hne '\r' (by decide) (by decide)]
    rw [parseValue, skipWs_of_head hblank]
    dsimp only
    rw [if_neg (hne 'n' (by decide) (by decide)),
      if_neg (not_or.mpr ⟨hne 't' (by decide) (by decide), hne 'f' (by decide) (by decide)⟩),
      if_neg (hne '"' (by decide) (by decide)), if_neg (hne '[' (by decide) (by decide)),
      if_neg (hne '\x7b' (by decide) (by decide)), if_pos hc]
  cases fuel with
  | zero =>
    have hnonempty : i64Text n ≠ [] := by
      unfold i64Text
      split <;> simp [natText_ne_nil]
    exact absurd (List.length_eq_zero_iff.mp (Nat.le_zero.mp hfuel)) hnonempty
  | succ fuel =>
    unfold i64Text at hparse ⊢
    split
    · rename_i hneg
      rw [if_pos hneg] at hparse
      have hnumber := parseNumber_int (Or.inr rfl) (natText_ne_nil _) hdigits hrest hparse
      rw [List.cons_append, hbranch fuel '-' _ (Or.inl rfl)]
      exact hnumber
    · rename_i hneg
      rw [if_neg hneg] at hparse
      have hnumber := parseNumber_int (Or.inl rfl) (natText_ne_nil _) hdigits hrest hparse
      obtain ⟨d, ds, hd⟩ := List.exists_cons_of_ne_nil (natText_ne_nil n.toInt.natAbs)
      rw [hd] at hdigits hnumber ⊢
      rw [List.cons_append, hbranch fuel d _ (Or.inr (hdigits d List.mem_cons_self))]
      exact hnumber

/-! ## Arrays and objects -/

theorem skipWs_skipWs (chars : List Char) : skipWs (skipWs chars) = skipWs chars := List.dropWhile_idempotent _ _

theorem skipWs_space (chars : List Char) : skipWs (' ' :: chars) = skipWs chars := rfl

/-- A value is parsed behind blanks as without them. -/
theorem parseValue_skipWs (fuel : Nat) (chars : List Char) : parseValue fuel (skipWs chars) = parseValue fuel chars := by
  cases fuel with
  | zero => rfl
  | succ fuel => rw [parseValue, parseValue, skipWs_skipWs]

theorem parseValue_space (fuel : Nat) (chars : List Char) : parseValue fuel (' ' :: chars) = parseValue fuel chars := by
  rw [← parseValue_skipWs fuel (' ' :: chars), ← parseValue_skipWs fuel chars, skipWs_space]

theorem joined_cons_cons (a b : List Char) (l : List (List Char)) : joined (a :: b :: l) = a ++ ',' :: ' ' :: joined (b :: l) := by
  simp [joined, List.intercalate]

theorem joined_singleton (a : List Char) : joined [a] = a := by
  simp [joined, List.intercalate]

theorem length_le_joined {text : List Char} {texts : List (List Char)} (h : text ∈ texts) : text.length ≤ (joined texts).length := by
  induction texts with
  | nil => cases h
  | cons a texts ih =>
    cases texts with
    | nil => rw [List.mem_singleton.mp h, joined_singleton]
    | cons b texts =>
      rw [joined_cons_cons, List.length_append, List.length_cons, List.length_cons]
      rcases List.mem_cons.mp h with rfl | h
      · omega
      · have := ih h
        omega

theorem length_texts_le (texts : List (List Char)) : texts.length ≤ (joined texts).length + 1 := by
  induction texts with
  | nil => simp
  | cons a texts ih =>
    cases texts with
    | nil => simp
    | cons b texts =>
      rw [joined_cons_cons, List.length_append]
      simp only [List.length_cons] at ih ⊢
      omega

section

variable {value : List Char → Rust String (JsonVal × List Char)} {chars behind : List Char} {v : JsonVal}

/-- The loop over an array goes on behind a comma. -/
theorem parseItems_comma {next : List Char} (h : value chars = .ok (v, next)) (hnext : skipWs next = ',' :: behind) (n : Nat) :
    parseItems value (n + 1) chars = (do
      let (items, rest) ← parseItems value n behind
      return (v :: items, rest)) := by
  simp only [parseItems, h, Rust.ok_bind, hnext]

/-- The last item of an array, and the bracket that closes it. -/
theorem parseItems_close {next : List Char} (h : value chars = .ok (v, next)) (hnext : skipWs next = ']' :: behind) (n : Nat) :
    parseItems value (n + 1) chars = .ok ([v], behind) := by
  simp only [parseItems, h, Rust.ok_bind, hnext]
  rfl

variable {key body after next : List Char}

/-- The loop over an object goes on behind a comma. -/
theorem parseEntries_comma (hkey : skipWs chars = jsonStr key ++ after) (hcolon : skipWs after = ':' :: body)
    (h : value body = .ok (v, next)) (hnext : skipWs next = ',' :: behind) (n : Nat) :
    parseEntries value (n + 1) chars = (do
      let (map, rest) ← parseEntries value n behind
      return ((String.ofList key, v) :: map, rest)) := by
  simp only [parseEntries, hkey, parseString_jsonStr, Rust.ok_bind, hcolon, h, hnext]

/-- The last entry of an object, and the brace that closes it. -/
theorem parseEntries_close (hkey : skipWs chars = jsonStr key ++ after) (hcolon : skipWs after = ':' :: body)
    (h : value body = .ok (v, next)) (hnext : skipWs next = '\x7d' :: behind) (n : Nat) :
    parseEntries value (n + 1) chars = .ok ([(String.ofList key, v)], behind) := by
  simp only [parseEntries, hkey, parseString_jsonStr, Rust.ok_bind, hcolon, h, hnext]
  rfl

end

theorem skipWs_jsonStr (key rest : List Char) : skipWs (jsonStr key ++ rest) = jsonStr key ++ rest := by
  rw [jsonStr, List.cons_append]
  exact skipWs_of_head (by decide) _

/-- The text of an entry of an object. -/
def EntryParses (text : List Char) (entry : String × JsonVal) : Prop :=
  ∃ key body, text = jsonStr key ++ ':' :: body ∧ entry.1 = String.ofList key ∧ ParsesTo body entry.2

/-- An entry is parsed back where its value is. -/
theorem entryParses_jsonEntry {body : List Char} {v : JsonVal} (key : List Char) (h : ParsesTo body v) :
    EntryParses (jsonEntry key body) (String.ofList key, v) := by
  refine ⟨key, ' ' :: body, rfl, rfl, ?_⟩
  intro fuel rest hfuel hrest
  rw [List.cons_append, parseValue_space]
  exact h fuel rest (Nat.le_of_succ_le hfuel) hrest

variable {fuel : Nat}

/-- Items are parsed behind blanks as without them. -/
theorem parseItems_skipWs (n : Nat) (chars : List Char) :
    parseItems (parseValue fuel) n (skipWs chars) = parseItems (parseValue fuel) n chars := by
  cases n with
  | zero => rfl
  | succ n => rw [parseItems, parseItems, parseValue_skipWs]

/-- Entries are parsed behind blanks as without them. -/
theorem parseEntries_skipWs (n : Nat) (chars : List Char) :
    parseEntries (parseValue fuel) n (skipWs chars) = parseEntries (parseValue fuel) n chars := by
  cases n with
  | zero => rfl
  | succ n => rw [parseEntries, parseEntries, skipWs_skipWs]

theorem parseItems_space (n : Nat) (chars : List Char) :
    parseItems (parseValue fuel) n (' ' :: chars) = parseItems (parseValue fuel) n chars := by
  rw [← parseItems_skipWs n (' ' :: chars), ← parseItems_skipWs n chars, skipWs_space]

theorem parseEntries_space (n : Nat) (chars : List Char) :
    parseEntries (parseValue fuel) n (' ' :: chars) = parseEntries (parseValue fuel) n chars := by
  rw [← parseEntries_skipWs n (' ' :: chars), ← parseEntries_skipWs n chars, skipWs_space]

/-- The loop over the items of an array. -/
theorem parseItems_joined {texts : List (List Char)} {items : List JsonVal} (h : List.Forall₂ ParsesTo texts items)
    (hlength : ∀ text ∈ texts, text.length ≤ fuel) (hne : texts ≠ []) {n : Nat} (hn : texts.length ≤ n) (rest : List Char) :
    parseItems (parseValue fuel) n (joined texts ++ ']' :: rest) = .ok (items, rest) := by
  induction h generalizing n with
  | nil => exact absurd rfl hne
  | @cons text v texts items hv htexts ih =>
    obtain ⟨n, rfl⟩ : ∃ m, n = m + 1 := ⟨n - 1, by rw [List.length_cons] at hn; omega⟩
    have hv := fun c (hc : c = ',' ∨ c = ']' ∨ c = '\x7d') behind =>
      hv fuel (c :: behind) (hlength text List.mem_cons_self) (ends_cons hc behind)
    cases htexts with
    | nil => rw [joined_singleton, parseItems_close (hv ']' (by simp) rest) rfl]
    | @cons text' v' texts' items' hv' htexts' =>
      have hitems := ih (fun t ht => hlength t (List.mem_cons_of_mem _ ht)) (by simp) (Nat.le_of_succ_le_succ hn)
      rw [joined_cons_cons, List.append_assoc, List.cons_append, List.cons_append, parseItems_comma (hv ',' (by simp) _) rfl,
        parseItems_space, hitems]
      rfl

/-- The loop over the entries of an object. -/
theorem parseEntries_joined {texts : List (List Char)} {map : List (String × JsonVal)} (h : List.Forall₂ EntryParses texts map)
    (hlength : ∀ text ∈ texts, text.length ≤ fuel) (hne : texts ≠ []) {n : Nat} (hn : texts.length ≤ n) (rest : List Char) :
    parseEntries (parseValue fuel) n (joined texts ++ '\x7d' :: rest) = .ok (map, rest) := by
  induction h generalizing n with
  | nil => exact absurd rfl hne
  | @cons text entry texts map hentry htexts ih =>
    obtain ⟨n, rfl⟩ : ∃ m, n = m + 1 := ⟨n - 1, by rw [List.length_cons] at hn; omega⟩
    obtain ⟨key, body, rfl, hkey, hbody⟩ := hentry
    have hbody : ∀ c, (c = ',' ∨ c = ']' ∨ c = '\x7d') → ∀ behind, parseValue fuel (body ++ c :: behind) = .ok (entry.2, c :: behind) := by
      intro c hc behind
      have := hlength _ List.mem_cons_self
      rw [List.length_append, List.length_cons] at this
      exact hbody fuel (c :: behind) (by omega) (ends_cons hc behind)
    have hentry : (String.ofList key, entry.2) = entry := by rw [← hkey]
    cases htexts with
    | nil =>
      rw [joined_singleton, List.append_assoc, List.cons_append,
        parseEntries_close (skipWs_jsonStr _ _) rfl (hbody _ (by simp) rest) rfl, hentry]
    | @cons text' entry' texts' map' hentry' htexts' =>
      have hmap := ih (fun t ht => hlength t (List.mem_cons_of_mem _ ht)) (by simp) (Nat.le_of_succ_le_succ hn)
      rw [joined_cons_cons, List.append_assoc, List.append_assoc, List.cons_append, List.cons_append, List.cons_append,
        parseEntries_comma (skipWs_jsonStr _ _) rfl (hbody ',' (by simp) _) rfl, parseEntries_space, hmap, hentry]
      rfl

/-- Behind an opening bracket items are parsed, where an item stands. -/
theorem parseValue_array {chars rest : List Char} {items : List JsonVal}
    (h : parseItems (parseValue fuel) fuel chars = .ok (items, rest)) :
    parseValue (fuel + 1) ('[' :: chars) = .ok (.array items, rest) := by
  rw [← parseItems_skipWs] at h
  rw [parseValue, skipWs_of_head (by decide)]
  simp only [Char.reduceEq, or_self, if_false, if_true]
  split
  · -- a closing bracket is no item
    rename_i behind hclose
    rw [hclose] at h
    cases fuel with
    | zero => cases h
    | succ fuel => cases h
  · rw [h]
    rfl

/-- Behind an opening brace entries are parsed, where an entry stands. -/
theorem parseValue_object {chars rest : List Char} {map : List (String × JsonVal)}
    (h : parseEntries (parseValue fuel) fuel chars = .ok (map, rest)) :
    parseValue (fuel + 1) ('\x7b' :: chars) = .ok (.object map, rest) := by
  rw [← parseEntries_skipWs] at h
  rw [parseValue, skipWs_of_head (by decide)]
  simp only [Char.reduceEq, or_self, if_false, if_true]
  split
  · -- a closing brace is no entry
    rename_i behind hclose
    rw [hclose] at h
    cases fuel with
    | zero => cases h
    | succ fuel => cases h
  · rw [h]
    rfl

/-- An array of texts that are parsed. -/
theorem parsesTo_array {texts : List (List Char)} {items : List JsonVal} (h : List.Forall₂ ParsesTo texts items) :
    ParsesTo (jsonArray texts) (.array items) := by
  intro fuel rest hfuel _
  have hcount := length_texts_le texts
  rw [jsonArray, List.length_cons, List.length_append, List.length_singleton] at hfuel
  obtain ⟨fuel, rfl⟩ : ∃ m, fuel = m + 1 := ⟨fuel - 1, by omega⟩
  rw [jsonArray, List.cons_append, List.append_assoc, List.singleton_append]
  by_cases hne : texts = []
  · subst hne
    cases h
    rfl
  · have hlength : ∀ text ∈ texts, text.length ≤ fuel := by
      intro text htext
      have := length_le_joined htext
      omega
    exact parseValue_array (parseItems_joined h hlength hne (by omega) rest)

/-- An object whose entries are parsed. -/
theorem parsesTo_object {texts : List (List Char)} {map : List (String × JsonVal)} (h : List.Forall₂ EntryParses texts map) :
    ParsesTo (jsonObject texts) (.object map) := by
  intro fuel rest hfuel _
  have hcount := length_texts_le texts
  rw [jsonObject, List.length_cons, List.length_append, List.length_singleton] at hfuel
  obtain ⟨fuel, rfl⟩ : ∃ m, fuel = m + 1 := ⟨fuel - 1, by omega⟩
  rw [jsonObject, List.cons_append, List.append_assoc, List.singleton_append]
  by_cases hne : texts = []
  · subst hne
    cases h
    rfl
  · have hlength : ∀ text ∈ texts, text.length ≤ fuel := by
      intro text htext
      have := length_le_joined htext
      omega
    exact parseValue_object (parseEntries_joined h hlength hne (by omega) rest)

/-- The text of an object has no blanks around it. -/
theorem trim_jsonObject (texts : List (List Char)) : Fuse.trim (jsonObject texts) = jsonObject texts := by
  have hopen : Fuse.isWhitespace '\x7b' = false := by decide
  have hclose : Fuse.isWhitespace '\x7d' = false := by decide
  rw [Fuse.trim, jsonObject, List.dropWhile_cons_of_neg (by simp [hopen]), List.reverse_cons, List.reverse_append,
    List.reverse_singleton, List.singleton_append, List.cons_append, List.dropWhile_cons_of_neg (by simp [hclose])]
  simp

/-- A text that is parsed as an object is parsed when nothing stands behind it. -/
theorem parseJsonValue_of_parsesTo {text : List Char} {v : JsonVal} (h : ParsesTo text v) : parseJsonValue text = .ok v := by
  have hparse := h (text.length + 1) [] (Nat.le_succ _) ends_nil
  rw [List.append_nil] at hparse
  rw [parseJsonValue, hparse]
  rfl

/-- An object of one entry is parsed back where the value of its entry is. -/
theorem parsesTo_wrapper {key : String} {text : List Char} {v : JsonVal} (h : ParsesTo text v) :
    ParsesTo (wrapper key text) (.object [(key, v)]) := by
  have hentry := entryParses_jsonEntry key.toList h
  rw [String.ofList_toList] at hentry
  exact parsesTo_object (.cons hentry .nil)

/-! ## Values -/

/-- A scalar other than a float. -/
def NotFloat : Scalar → Prop
  | .float _ => False
  | _ => True

/-- Neither the value is a float nor a key of it. -/
def NoFloatHere : Value → Prop
  | .scalar s => NotFloat s
  | .tree map => ∀ e ∈ map, NotFloat e.1
  | _ => True

/-- There is no float anywhere in a value. -/
def NoFloat : Value → Prop := Value.Everywhere NoFloatHere

section

variable (floatText : UInt64 → List Char)

/-- What the text of a scalar is parsed to, unless it is a float. -/
def jsonOfScalar : Scalar → JsonVal
  | .null => .null
  | .bool b => .bool b
  | .int n => .number n
  | .float bits => .float bits
  | .string s => .string s
  | .bytes b => .object [("__bytes", .string (String.ofList (encodeBytes b)))]

mutual

/-- What the text of a value is parsed to, when there is no float in it. -/
def jsonOf : Value → JsonVal
  | .scalar s => jsonOfScalar s
  | .hash map => .object [("__hash", .object (jsonOfHash map))]
  | .list items => .array (jsonOfList items)
  | .set items => .object [("__set", .array (jsonOfList items))]
  | .tree map => .object [("__tree", .object (jsonOfTree map))]

def jsonOfList : List Value → List JsonVal
  | [] => []
  | v :: vs => jsonOf v :: jsonOfList vs

def jsonOfHash : List (String × Value) → List (String × JsonVal)
  | [] => []
  | (k, v) :: map => (k, jsonOf v) :: jsonOfHash map

def jsonOfTree : List (Scalar × Value) → List (String × JsonVal)
  | [] => []
  | (k, v) :: map => (String.ofList (scalarKeyStr floatText k), jsonOf v) :: jsonOfTree map

end

/-- The text of a scalar other than a float parses to it. -/
theorem parsesTo_scalar {s : Scalar} (h : NotFloat s) : ParsesTo (scalarToJson floatText s) (jsonOfScalar s) := by
  cases s with
  | null => exact parsesTo_null
  | bool b => exact parsesTo_bool b
  | int n => exact parsesTo_int n
  | float bits => exact absurd h id
  | string s =>
    have := parsesTo_string s.toList
    rwa [String.ofList_toList] at this
  | bytes b =>
    have hentry : EntryParses (jsonStr "__bytes".toList ++ ':' :: jsonStr (encodeBytes b))
        ("__bytes", .string (String.ofList (encodeBytes b))) := ⟨_, _, rfl, rfl, parsesTo_string _⟩
    have hobject := parsesTo_object (.cons hentry .nil)
    rw [jsonObject, joined_singleton, List.append_assoc, List.cons_append] at hobject
    exact hobject

/-- The parts of a list parse to its items. -/
theorem parsesTo_list {items : List Value} (h : ∀ v ∈ items, ParsesTo (valueToJson floatText v) (jsonOf floatText v)) :
    List.Forall₂ ParsesTo (listParts floatText items) (jsonOfList floatText items) := by
  induction items with
  | nil => exact .nil
  | cons v items ih => exact .cons (h v List.mem_cons_self) (ih (fun w hw => h w (List.mem_cons_of_mem _ hw)))

/-- The parts of a hash parse to its entries. -/
theorem parsesTo_hash {map : List (String × Value)} (h : ∀ e ∈ map, ParsesTo (valueToJson floatText e.2) (jsonOf floatText e.2)) :
    List.Forall₂ EntryParses (hashParts floatText map) (jsonOfHash floatText map) := by
  induction map with
  | nil => exact .nil
  | cons e map ih =>
    have hentry := entryParses_jsonEntry e.1.toList (h e List.mem_cons_self)
    rw [String.ofList_toList] at hentry
    exact .cons hentry (ih (fun e' he => h e' (List.mem_cons_of_mem _ he)))

/-- The parts of a tree parse to its entries. -/
theorem parsesTo_tree {map : List (Scalar × Value)} (h : ∀ e ∈ map, ParsesTo (valueToJson floatText e.2) (jsonOf floatText e.2)) :
    List.Forall₂ EntryParses (treeParts floatText map) (jsonOfTree floatText map) := by
  induction map with
  | nil => exact .nil
  | cons e map ih =>
    have hentry := entryParses_jsonEntry (scalarKeyStr floatText e.1) (h e List.mem_cons_self)
    exact .cons hentry (ih (fun e' he => h e' (List.mem_cons_of_mem _ he)))

/-- The text of a value without floats is parsed. -/
theorem parsesTo_value {v : Value} (h : NoFloat v) : ParsesTo (valueToJson floatText v) (jsonOf floatText v) := by
  induction v using Value.nestedInduction with
  | h v ih =>
    have hinside : ∀ w ∈ v.children, ParsesTo (valueToJson floatText w) (jsonOf floatText w) := fun w hw => ih w hw (h.inside hw)
    cases v with
    | scalar s => exact parsesTo_scalar floatText h.here
    | hash map =>
      exact parsesTo_wrapper (parsesTo_object (parsesTo_hash floatText (fun e he => hinside e.2 (List.mem_map_of_mem he))))
    | set items => exact parsesTo_wrapper (parsesTo_array (parsesTo_list floatText hinside))
    | list items => exact parsesTo_array (parsesTo_list floatText hinside)
    | tree map =>
      exact parsesTo_wrapper (parsesTo_object (parsesTo_tree floatText (fun e he => hinside e.2 (List.mem_map_of_mem he))))

end

end Json
end AlefsDb
