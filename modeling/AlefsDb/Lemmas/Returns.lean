import AlefsDb.Json.Steps
import AlefsDb.Query.Parse

/-!
# Calls that come back

The decoder returns a value or an error for all bytes, and the parsers of paths, of queries and of JSON for all texts: none of them
panics, and the bounds of their recursions are never reached.
-/

namespace AlefsDb

/-! ## Paths -/

namespace DbPath

open Rust

/-- The segments of a path are parsed, or refused. -/
theorem parseSegments_returns (l : List (List Char)) : Returns (parseSegments l) := by
  induction l with
  | nil => exact returns_ok _
  | cons seg rest ih =>
    rw [parseSegments]
    split
    · exact returns_err _
    split
    · exact returns_err _
    split
    · exact returns_err _
    · exact ih.bind (fun _ _ => returns_ok _)

/-- All texts are parsed, or refused. -/
theorem parse_returns (path : String) : Returns (parse path) := by
  unfold parse
  split
  · exact returns_err _
  split
  · exact returns_err _
  split
  · exact returns_ok _
  dsimp only
  split
  · exact returns_ok _
  split
  · exact returns_ok _
  · rename_i e he
    rcases parseSegments_returns (List.splitOn '/' ((_ :: _ : List Char).rdropWhile (· == '/')).tail) with ⟨_, h⟩ | ⟨e', h⟩
    · rw [h] at he
      cases he
    · rw [h] at he
      cases he
      exact returns_err _

/-- `join` returns. -/
theorem join_returns (path : DbPath) (s : String) : Returns (path.join s) := by
  unfold join
  split_ifs
  · exact returns_err _
  · exact returns_err _
  · exact returns_ok _

end DbPath

/-! ## The codec -/

namespace Codec

open Rust

theorem readU8_returns (cur : Bytes) : Returns (readU8 cur) := by
  cases cur with
  | nil => exact returns_err _
  | cons b cur => exact returns_ok _

theorem readSlice_returns (cur : Bytes) (len : Nat) : Returns (readSlice cur len) := by
  unfold readSlice
  split
  · exact returns_err _
  · exact returns_ok _

theorem readLe_returns (n : Nat) (cur : Bytes) : Returns (readLe n cur) :=
  (readSlice_returns cur n).bind (fun _ _ => returns_ok _)

theorem readStr_returns (cur : Bytes) : Returns (readStr cur) := by
  refine (readLe_returns 4 cur).bind (fun r _ => (readSlice_returns r.2 r.1).bind (fun s _ => ?_))
  exact (returns_okOr _ _).bind (fun _ _ => returns_ok _)

section Loops

variable {κ : Type} [LinearOrder κ] {readKey : Bytes → Rust CodecError (κ × Bytes)} {readValue : Bytes → Rust CodecError (Value × Bytes)}

theorem readMap_returns (hkey : ∀ cur, Returns (readKey cur)) (hvalue : ∀ cur, Returns (readValue cur)) (n : Nat) (cur : Bytes)
    (map : List (κ × Value)) : Returns (readMap readKey readValue n cur map) := by
  induction n generalizing cur map with
  | zero => exact returns_ok _
  | succ n ih => exact (hkey cur).bind (fun k _ => (hvalue k.2).bind (fun v _ => ih _ _))

theorem readSet_returns (hvalue : ∀ cur, Returns (readValue cur)) (n : Nat) (cur : Bytes) (last : Option Bytes) :
    Returns (readSet readValue n cur last) := by
  induction n generalizing cur last with
  | zero => exact returns_ok _
  | succ n ih =>
    refine (hvalue cur).bind (fun v _ => ?_)
    dsimp only
    split
    · exact returns_err _
    · exact (ih _ _).bind (fun _ _ => returns_ok _)

theorem readList_returns (hvalue : ∀ cur, Returns (readValue cur)) (n : Nat) (cur : Bytes) : Returns (readList readValue n cur) := by
  induction n generalizing cur with
  | zero => exact returns_ok _
  | succ n ih => exact (hvalue cur).bind (fun v _ => (ih _).bind (fun _ _ => returns_ok _))

/-- A read of a key returns where one of a value does. -/
theorem decodeScalarValue_returns (hvalue : ∀ cur, Returns (readValue cur)) (cur : Bytes) :
    Returns (decodeScalarValue readValue cur) := by
  refine (hvalue cur).bind (fun v _ => ?_)
  obtain ⟨v, cur⟩ := v
  cases v with
  | scalar s => exact returns_ok _
  | hash map | set members | list items | tree map => exact returns_err _

end Loops

/-- A value is decoded, or refused. -/
theorem decodeValue_returns (fuel : Nat) (cur : Bytes) : Returns (decodeValue fuel cur) := by
  induction fuel generalizing cur with
  | zero => exact returns_err _
  | succ fuel ih =>
    refine (readU8_returns cur).bind (fun r _ => ?_)
    obtain ⟨tag, cur⟩ := r
    dsimp only
    apply Returns.ite
    · exact returns_ok _
    apply Returns.ite
    · refine (readU8_returns cur).bind (fun b _ => ?_)
      exact .ite (returns_ok _) (.ite (returns_ok _) (returns_err _))
    apply Returns.ite
    · exact (readLe_returns 8 cur).bind (fun _ _ => returns_ok _)
    apply Returns.ite
    · exact (readLe_returns 8 cur).bind (fun _ _ => returns_ok _)
    apply Returns.ite
    · exact (readStr_returns cur).bind (fun _ _ => returns_ok _)
    apply Returns.ite
    · exact (readLe_returns 4 cur).bind (fun r _ => (readSlice_returns r.2 r.1).bind (fun _ _ => returns_ok _))
    apply Returns.ite
    · exact (readLe_returns 4 cur).bind (fun r _ => (readMap_returns readStr_returns ih r.1 r.2 []).bind (fun _ _ => returns_ok _))
    apply Returns.ite
    · exact (readLe_returns 4 cur).bind (fun r _ => (readSet_returns ih r.1 r.2 none).bind (fun _ _ => returns_ok _))
    apply Returns.ite
    · exact (readLe_returns 4 cur).bind (fun r _ => (readList_returns ih r.1 r.2).bind (fun _ _ => returns_ok _))
    apply Returns.ite
    · refine (readLe_returns 4 cur).bind (fun r _ => ?_)
      exact (readMap_returns (decodeScalarValue_returns ih) ih r.1 r.2 []).bind (fun _ _ => returns_ok _)
    · exact returns_err _

/-- All bytes are decoded, or refused. -/
theorem decode_returns (encoded : Bytes) : Returns (decode encoded) := by
  cases encoded with
  | nil => exact returns_err _
  | cons version cur =>
    by_cases hversion : version ≠ codecVersion
    · rw [decode, if_pos hversion]
      exact returns_err _
    · rw [decode, if_neg hversion]
      refine (decodeValue_returns _ _).bind (fun r _ => ?_)
      dsimp only
      split
      · exact returns_err _
      · exact returns_ok _

end Codec

theorem Database.decodeNode_returns (encoded : Bytes) : Rust.Returns (decodeNode encoded) := (Codec.decode_returns encoded).mapErr _

/-! ## The parser of queries -/

namespace Query

open Rust

theorem scanNumber_returns (chars : List Char) : Returns (scanNumber chars) := by
  unfold scanNumber
  dsimp only
  split
  · exact (returns_okOr _ _).bind (fun _ _ => returns_ok _)
  · exact (returns_okOr _ _).bind (fun _ _ => returns_ok _)

/-- A round of the tokenizer returns. -/
theorem scanToken_returns (c : Char) (rest : List Char) : Returns (scanToken c rest) := by
  unfold scanToken
  split_ifs
  · exact returns_ok _
  · exact returns_ok _
  · exact returns_ok _
  · exact (returns_okOr _ _).bind (fun _ _ => returns_ok _)
  · split <;> exact returns_ok _
  · exact returns_ok _
  · exact (scanNumber_returns _).bind (fun _ _ => returns_ok _)
  · exact returns_ok _
  · exact returns_err _

/-- All texts are tokenized, or refused. -/
theorem tokenize_returns (chars : List Char) : Returns (tokenize chars) := by
  induction hn : chars.length using Nat.strong_induction_on generalizing chars with
  | _ n ih =>
    cases chars with
    | nil =>
      rw [tokenize]
      exact returns_ok _
    | cons c chars =>
      rw [tokenize]
      split
      · rename_i e herror
        rcases scanToken_returns c chars with ⟨r, hr⟩ | ⟨e', he'⟩
        · rw [hr] at herror
          cases herror
        · rw [he'] at herror
          cases herror
          exact returns_err _
      · rename_i tok rest hok
        have hlength := scanToken_length hok
        exact (ih rest.length (by rw [← hn, List.length_cons]; omega) rest rfl).bind (fun _ _ => returns_ok _)

theorem expected_returns {α : Type} (what : String) (tokens : List Tok) : Returns (expected what tokens : Rust ParseError α) :=
  returns_err _

/-- A comparison is read, or refused. -/
theorem expectCmp_returns (tokens : List Tok) : Returns (expectCmp tokens) := by
  unfold expectCmp
  split
  all_goals first | exact returns_ok _ | exact returns_err _

/-- A string or a word is read, or refused. -/
theorem expectStringLike_returns (tokens : List Tok) : Returns (expectStringLike tokens) := by
  unfold expectStringLike
  split
  all_goals first | exact returns_ok _ | exact expected_returns _ _

/-- A path or a string is read, or refused. -/
theorem expectPathOrString_returns (tokens : List Tok) : Returns (expectPathOrString tokens) := by
  unfold expectPathOrString
  split
  · exact returns_ok _
  · exact returns_ok _
  · split
    · exact returns_ok _
    · exact expected_returns _ _
  · exact expected_returns _ _

/-- An integer is read, or refused. -/
theorem expectInt_returns (tokens : List Tok) : Returns (expectInt tokens) := by
  unfold expectInt
  split
  · exact returns_ok _
  · exact expected_returns _ _

/-- A length is read, or refused. -/
theorem expectUint_returns (tokens : List Tok) : Returns (expectUint tokens) := by
  refine (expectInt_returns tokens).bind (fun r _ => ?_)
  dsimp only
  split
  · exact returns_err _
  · exact returns_ok _

/-- A scalar is read, or refused. -/
theorem parseScalarValue_returns (tokens : List Tok) : Returns (parseScalarValue tokens) := by
  unfold parseScalarValue
  split
  all_goals first | exact returns_ok _ | exact expected_returns _ _

/-- A comparison with a scalar is read, or refused. -/
theorem parseCmpScalar_returns (tokens : List Tok) : Returns (parseCmpScalar tokens) :=
  (expectCmp_returns tokens).bind (fun r _ => (parseScalarValue_returns r.2).bind (fun _ _ => returns_ok _))

/-- A predicate is read, or refused. -/
theorem parsePredicate_returns (tokens : List Tok) : Returns (parsePredicate tokens) := by
  unfold parsePredicate
  split
  · exact (expectPathOrString_returns _).bind (fun _ _ => returns_ok _)
  · exact (expectStringLike_returns _).bind (fun _ _ => returns_ok _)
  · exact (expectStringLike_returns _).bind (fun _ _ => returns_ok _)
  · exact (parseCmpScalar_returns _).bind (fun _ _ => returns_ok _)
  · exact (expectStringLike_returns _).bind (fun _ _ => returns_ok _)
  · exact (parseScalarValue_returns _).bind (fun _ _ => returns_ok _)
  · exact (expectUint_returns _).bind (fun r _ => (parseCmpScalar_returns r.2).bind (fun _ _ => returns_ok _))
  · exact (parseCmpScalar_returns _).bind (fun _ _ => returns_ok _)
  · exact (expectCmp_returns _).bind (fun r _ => (expectInt_returns r.2).bind (fun _ _ => returns_ok _))
  · exact returns_err _
  · exact expected_returns _ _

/-- A primary expression: what is in parentheses is shorter. -/
theorem parsePrimary_returns {tokens : List Tok} (ih : ∀ behind : List Tok, behind.length < tokens.length → Returns (parseExpr behind)) :
    Returns (parsePrimary tokens) := by
  rw [parsePrimary.eq_def]
  split
  · refine (ih _ (Nat.lt_succ_self _)).bind (fun r _ => ?_)
    obtain ⟨e, rest, h⟩ := r
    dsimp only
    split
    · exact returns_ok _
    · exact returns_err _
  · split
    · rename_i e herror
      rcases parsePredicate_returns tokens with ⟨r, hr⟩ | ⟨e', he'⟩
      · rw [hr] at herror
        cases herror
      · rw [he'] at herror
        cases herror
        exact returns_err _
    · exact returns_ok _

/-- What a parser of expressions is given returns, where all that is shorter does. -/
structure ParserReturns (tokens : List Tok) : Prop where
  expr : Returns (parseExpr tokens)
  term : Returns (parseTerm tokens)
  operators : ∀ left, Returns (parseOperators left tokens)

/-- The parser returns on all tokens. -/
theorem parser_returns (tokens : List Tok) : ParserReturns tokens := by
  induction hn : tokens.length using Nat.strong_induction_on generalizing tokens with
  | _ n ih =>
    subst hn
    have hprimary := parsePrimary_returns (fun behind hlt => (ih behind.length hlt behind rfl).expr)
    have hterm : Returns (parseTerm tokens) := by
      rw [parseTerm.eq_def]
      split
      · rename_i n behind
        split
        · have hbehind : Returns (parsePrimary behind) :=
            parsePrimary_returns (fun shorter hlt => (ih shorter.length (hlt.trans (Nat.lt_succ_self _)) shorter rfl).expr)
          exact hbehind.bind (fun _ _ => returns_ok _)
        · exact hprimary
      · exact hprimary
    refine ⟨?_, hterm, fun left => ?_⟩
    · rw [parseExpr.eq_def]
      refine hterm.bind (fun r _ => ?_)
      obtain ⟨left, rest, hlt⟩ := r
      exact ((ih rest.length hlt rest rfl).operators left).bind (fun _ _ => returns_ok _)
    · rw [parseOperators.eq_def]
      split
      · rename_i op behind
        split
        · exact returns_ok _
        · refine (ih behind.length (Nat.lt_succ_self _) behind rfl).term.bind (fun r _ => ?_)
          obtain ⟨right, rest, hlt⟩ := r
          exact ((ih rest.length (hlt.trans (Nat.lt_succ_self _)) rest rfl).operators _).bind (fun _ _ => returns_ok _)
      · exact returns_ok _

/-- All texts are parsed, or refused. -/
theorem parseQuery_returns (input : String) : Returns (parseQuery input) := by
  refine (tokenize_returns input.toList).bind (fun tokens _ => (parser_returns tokens).expr.bind (fun r _ => ?_))
  obtain ⟨e, rest, h⟩ := r
  dsimp only
  split
  · exact returns_ok _
  · exact returns_err _

end Query

/-! ## The parser of JSON -/

namespace Json

open Rust

/-- A parser that returns, and then leaves less than it is given. -/
structure Shrinks {α : Type} (chars : List Char) (x : Rust String (α × List Char)) : Prop where
  returns : Returns x
  shorter : ∀ r, x = .ok r → r.2.length < chars.length

namespace Shrinks

variable {α β : Type} {chars chars' : List Char}

theorem ok {r : α × List Char} (h : r.2.length < chars.length) : Shrinks chars (.ok r) := by
  refine ⟨returns_ok r, fun _ hr => ?_⟩
  cases hr
  exact h

theorem err (e : String) : Shrinks chars (Rust.err e : Rust String (α × List Char)) :=
  ⟨returns_err e, fun _ hr => absurd hr (err_ne_ok _ _)⟩

/-- A parser behind one that has left less. -/
theorem bind {x : Rust String (α × List Char)} {f : α × List Char → Rust String (β × List Char)} (hx : Shrinks chars x)
    (hf : ∀ r : α × List Char, r.2.length < chars.length → Shrinks chars (f r)) : Shrinks chars (x >>= f) := by
  refine ⟨hx.returns.bind (fun r hr => (hf r (hx.shorter r hr)).returns), fun r hr => ?_⟩
  obtain ⟨a, ha, hfa⟩ := Rust.bind_eq_ok.mp hr
  exact (hf a (hx.shorter a ha)).shorter r hfa

/-- A parser on less. -/
theorem mono {x : Rust String (α × List Char)} (hx : Shrinks chars x) (h : chars.length ≤ chars'.length) : Shrinks chars' x :=
  ⟨hx.returns, fun r hr => (hx.shorter r hr).trans_le h⟩

/-- A part that takes nothing. -/
theorem of_okOr {o : Option α} {e : String} {f : α → Rust String (β × List Char)} (hf : ∀ a, Shrinks chars (f a)) :
    Shrinks chars (okOr o e >>= f) := by
  cases o with
  | some a => exact hf a
  | none => exact err e

end Shrinks

theorem length_skipWs_le (chars : List Char) : (skipWs chars).length ≤ chars.length := Query.length_dropWhile_le _ _

/-- A string that is scanned takes its quote at least. -/
theorem scanString_shrinks (chars : List Char) : Shrinks chars (scanString chars) := by
  fun_induction scanString chars with
  | case1 => exact .err _
  | case2 rest => exact .ok (Nat.lt_succ_self _)
  | case3 => exact .err _
  | case4 c rest ih =>
    refine (ih.mono (by simp only [List.length_cons]; omega)).bind (fun r hr => .ok hr)
  | case5 c rest hquote hback hescape ih =>
    exact (ih.mono (Nat.le_succ _)).bind (fun r hr => .ok hr)

/-- A string that is parsed takes its quotes at least. -/
theorem parseString_shrinks (chars : List Char) : Shrinks chars (parseString chars) := by
  unfold parseString
  split
  · exact ((scanString_shrinks _).mono (Nat.le_succ _)).bind (fun r hr => .ok hr)
  · exact .err _

theorem length_drop_lt {c : Char} {rest : List Char} {n : Nat} (h : 0 < n) : ((c :: rest).drop n).length < (c :: rest).length := by
  rw [List.length_drop, List.length_cons]
  omega

theorem parseNull_shrinks (c : Char) (rest : List Char) : Shrinks (c :: rest) (parseNull (c :: rest)) := by
  unfold parseNull
  split
  · exact .ok (length_drop_lt (by decide))
  · exact .err _

theorem parseBool_shrinks (c : Char) (rest : List Char) : Shrinks (c :: rest) (parseBool (c :: rest)) := by
  unfold parseBool
  split
  · exact .ok (length_drop_lt (by decide))
  split
  · exact .ok (length_drop_lt (by decide))
  · exact .err _

/-- The digits that a number begins with are taken. -/
theorem parseNumber_shrinks {c : Char} (rest : List Char) (hc : c = '-' ∨ c.isDigit = true) : Shrinks (c :: rest) (parseNumber (c :: rest)) := by
  have hdigits : ((((c :: rest).drop (((c :: rest).take 1).filter (· = '-')).length)).dropWhile Char.isDigit).length <
      (c :: rest).length := by
    by_cases hminus : c = '-'
    · subst hminus
      exact Nat.lt_succ_of_le (Query.length_dropWhile_le _ _)
    · have hdigit := hc.resolve_left hminus
      exact Nat.lt_succ_of_le (by simpa [hminus, hdigit] using Query.length_dropWhile_le Char.isDigit rest)
  unfold parseNumber
  dsimp only
  split
  · rename_i behind hbehind
    rw [hbehind, List.length_cons] at hdigits
    refine .of_okOr (fun bits => .ok ?_)
    have := Query.length_dropWhile_le Char.isDigit behind
    dsimp only
    omega
  · exact .of_okOr (fun n => .ok hdigits)

/-- A parser of values on all texts that are shorter than a bound. -/
def ShrinksBelow (n : Nat) (value : List Char → Rust String (JsonVal × List Char)) : Prop :=
  ∀ chars : List Char, chars.length < n → Shrinks chars (value chars)

/-- The items of an array take characters of the text where a value does. -/
theorem parseItems_shrinks {value : List Char → Rust String (JsonVal × List Char)} {n : Nat} (hvalue : ShrinksBelow n value)
    (fuel : Nat) (chars : List Char) (hn : chars.length < n) (hfuel : chars.length < fuel) : Shrinks chars (parseItems value fuel chars) := by
  induction fuel generalizing chars with
  | zero => omega
  | succ fuel ih =>
    refine (hvalue chars hn).bind (fun r hr => ?_)
    obtain ⟨v, rest⟩ := r
    have hskip := length_skipWs_le rest
    dsimp only at hr ⊢
    split
    · rename_i behind hbehind
      rw [hbehind, List.length_cons] at hskip
      exact ((ih behind (by omega) (by omega)).mono (by omega)).bind (fun r hr => .ok hr)
    · rename_i behind hbehind
      rw [hbehind, List.length_cons] at hskip
      exact .ok (by dsimp only; omega)
    · exact .err _

/-- The entries of an object take characters of the text where a value does. -/
theorem parseEntries_shrinks {value : List Char → Rust String (JsonVal × List Char)} {n : Nat} (hvalue : ShrinksBelow n value)
    (fuel : Nat) (chars : List Char) (hn : chars.length < n) (hfuel : chars.length < fuel) :
    Shrinks chars (parseEntries value fuel chars) := by
  induction fuel generalizing chars with
  | zero => omega
  | succ fuel ih =>
    refine ((parseString_shrinks (skipWs chars)).mono (length_skipWs_le chars)).bind (fun r hr => ?_)
    obtain ⟨key, rest⟩ := r
    have hskip := length_skipWs_le rest
    dsimp only at hr ⊢
    split
    · rename_i behind hbehind
      rw [hbehind, List.length_cons] at hskip
      refine ((hvalue behind (by omega)).mono (by omega)).bind (fun r hr => ?_)
      obtain ⟨v, rest⟩ := r
      have hskip := length_skipWs_le rest
      dsimp only at hr ⊢
      split
      · rename_i behind hbehind
        rw [hbehind, List.length_cons] at hskip
        exact ((ih behind (by omega) (by omega)).mono (by omega)).bind (fun r hr => .ok hr)
      · rename_i behind hbehind
        rw [hbehind, List.length_cons] at hskip
        exact .ok (by dsimp only; omega)
      · exact .err _
    · exact .err _

/-- A value takes characters of the text, with fuel for all of them. -/
theorem parseValue_shrinks (fuel : Nat) : ShrinksBelow fuel (parseValue fuel) := by
  induction fuel with
  | zero => exact fun chars h => absurd h (Nat.not_lt_zero _)
  | succ fuel ih =>
    intro chars hfuel
    have hskip := length_skipWs_le chars
    rw [parseValue]
    split
    · exact .err _
    · rename_i c rest hchars
      rw [hchars] at hskip
      have hrest : rest.length < fuel := by
        rw [List.length_cons] at hskip
        omega
      have hbehind := length_skipWs_le rest
      suffices hshorter : Shrinks (c :: rest) _ from hshorter.mono hskip
      split_ifs
      · exact parseNull_shrinks c rest
      · exact parseBool_shrinks c rest
      · exact (parseString_shrinks (c :: rest)).bind (fun r hr => .ok hr)
      · split
        · rename_i behind hclosed
          rw [hclosed, List.length_cons] at hbehind
          exact .ok (by simp only [List.length_cons]; omega)
        · refine Shrinks.bind ((parseItems_shrinks ih fuel _ ?_ ?_).mono ?_) (fun r hr => .ok hr)
          · omega
          · omega
          · rw [List.length_cons]
            omega
      · split
        · rename_i behind hclosed
          rw [hclosed, List.length_cons] at hbehind
          exact .ok (by simp only [List.length_cons]; omega)
        · refine Shrinks.bind ((parseEntries_shrinks ih fuel _ ?_ ?_).mono ?_) (fun r hr => .ok hr)
          · omega
          · omega
          · rw [List.length_cons]
            omega
      · rename_i hnumber
        exact parseNumber_shrinks rest hnumber
      · exact .err _

/-- All texts are parsed, or refused. -/
theorem parseJsonValue_returns (text : List Char) : Returns (parseJsonValue text) := by
  refine (parseValue_shrinks (text.length + 1) text (Nat.lt_succ_self _)).returns.bind (fun r _ => ?_)
  dsimp only
  split
  · exact returns_err _
  · exact returns_ok _

/-! ## The values of a JSON text -/

/-- A hexadecimal digit is read, or refused. -/
theorem fromHex_returns (c : UInt8) : Returns (fromHex c) := by
  unfold fromHex
  split_ifs
  · exact returns_ok _
  · exact returns_ok _
  · exact returns_ok _
  · exact returns_err _

/-- Hexadecimal digits are read, or refused. -/
theorem decodeDigits_returns (digits : Bytes) : Returns (decodeDigits digits) := by
  fun_induction decodeDigits digits with
  | case1 hi lo rest ih => exact (fromHex_returns hi).bind (fun _ _ => (fromHex_returns lo).bind (fun _ _ => ih.bind (fun _ _ => returns_ok _)))
  | case2 => exact returns_ok _

/-- The text of bytes is read, or refused. -/
theorem decodeBytes_returns (s : String) : Returns (decodeBytes s) := by
  unfold decodeBytes
  split
  · exact returns_err _
  · exact decodeDigits_returns _

/-- The text of a key is read, or refused. -/
theorem parseScalarKey_returns (s : String) : Returns (parseScalarKey s) := by
  unfold parseScalarKey
  split_ifs
  · exact returns_ok _
  · exact returns_ok _
  · exact returns_ok _
  · split
    · exact (returns_okOr _ _).bind (fun _ _ => returns_ok _)
    · exact ((decodeBytes_returns _).mapErr _).bind (fun _ _ => returns_ok _)
    · split <;> exact returns_ok _

/-- A text that is parsed is a value, or refused. -/
theorem json_returns : (∀ j, Returns (jsonToValue j)) ∧ (∀ entries map, Returns (jsonToTree entries map)) ∧
    (∀ entries map, Returns (jsonToHash entries map)) ∧ ∀ items, Returns (jsonToValues items) := by
  refine jsonToValue.mutual_induct (fun j => Returns (jsonToValue j)) (fun entries map => Returns (jsonToTree entries map))
    (fun entries map => Returns (jsonToHash entries map)) (fun items => Returns (jsonToValues items))
    ?_ ?_ ?_ ?_ ?_ ?_ ?_ ?_ ?_ ?_ ?_ ?_ ?_ ?_ ?_ ?_ ?_
  · exact returns_ok _
  · exact fun _ => returns_ok _
  · exact fun _ => returns_ok _
  · exact fun _ => returns_ok _
  · exact fun _ => returns_ok _
  · intro items ih
    exact ih.bind (fun _ _ => returns_ok _)
  · intro h
    exact ((decodeBytes_returns h).mapErr _).bind (fun _ _ => returns_ok _)
  · intro items ih
    exact ih.bind (fun _ _ => returns_ok _)
  · intro inner ih
    exact ih.bind (fun _ _ => returns_ok _)
  · intro inner ih
    exact ih.bind (fun _ _ => returns_ok _)
  · intro map hbytes hset hhash htree ih
    rw [jsonToValue]
    · exact ih.bind (fun _ _ => returns_ok _)
    all_goals assumption
  · exact returns_ok _
  · intro v vs ihv ihvs
    exact ihv.bind (fun _ _ => ihvs.bind (fun _ _ => returns_ok _))
  · exact fun _ => returns_ok _
  · intro k v rest map ihv ihrest
    exact (parseScalarKey_returns k).bind (fun key _ => ihv.bind (fun w _ => ihrest key w))
  · exact fun _ => returns_ok _
  · intro k v rest map ihv ihrest
    exact ihv.bind (fun w _ => ihrest w)

/-- The path of a child is built, or refused. -/
theorem childPath_returns (path : DbPath) (k : String) : Returns (childPath path k) := by
  unfold childPath
  split
  · exact (DbPath.parse_returns _).mapErr _
  · exact (DbPath.join_returns path k).mapErr _

/-- The step is no panic. -/
def ImportStep.Goes : ImportStep → Prop
  | stop e => ∃ e', e = .err e'
  | _ => True

/-- A step that sets a value goes through where the value is computed. -/
theorem setStep_goes (path : DbPath) {r : Rust NsError Value} (h : Returns r) : (setStep path r).Goes := by
  rcases h with ⟨v, rfl⟩ | ⟨e, rfl⟩
  · trivial
  · exact ⟨e, rfl⟩

/-- All steps of an import go through. -/
theorem steps_go : (∀ v path atRoot, ∀ step ∈ nodeSteps v path atRoot, step.Goes) ∧
    ∀ map path, ∀ step ∈ childSteps map path, step.Goes := by
  refine importNode.mutual_induct (fun v path atRoot => ∀ step ∈ nodeSteps v path atRoot, step.Goes)
    (fun map path => ∀ step ∈ childSteps map path, step.Goes) ?_ ?_ ?_ ?_ ?_ ?_ ?_ ?_
  · intro children path atRoot ih step hstep
    rcases List.mem_cons.mp hstep with rfl | hstep
    · trivial
    · exact ih step hstep
  · intro inner path atRoot hinner step hstep
    rw [nodeSteps] at hstep
    · obtain rfl := List.mem_singleton.mp hstep
      exact ⟨_, rfl⟩
    · exact hinner
  · intro map path hdir hother ih step hstep
    rw [nodeSteps, if_pos rfl] at hstep
    · exact ih step hstep
    all_goals assumption
  · intro map path atRoot hdir hother hroot step hstep
    rw [nodeSteps, if_neg hroot] at hstep
    · obtain rfl := List.mem_singleton.mp hstep
      exact setStep_goes path (json_returns.1 _)
    all_goals assumption
  · intro other path hdir hother hobject step hstep
    rw [nodeSteps, if_pos rfl] at hstep
    · obtain rfl := List.mem_singleton.mp hstep
      exact ⟨_, rfl⟩
    all_goals assumption
  · intro other path atRoot hdir hother hobject hroot step hstep
    rw [nodeSteps, if_neg hroot] at hstep
    · obtain rfl := List.mem_singleton.mp hstep
      exact setStep_goes path (json_returns.1 _)
    all_goals assumption
  · intro path step hstep
    cases hstep
  · intro k v rest path ihnode ihrest step hstep
    rw [childSteps] at hstep
    rcases childPath_returns path k with ⟨child, hchild⟩ | ⟨e, he⟩
    · rw [hchild] at hstep
      rcases List.mem_append.mp hstep with hstep | hstep
      · exact ihnode child step hstep
      · exact ihrest step hstep
    · rw [he] at hstep
      obtain rfl := List.mem_singleton.mp hstep
      exact ⟨_, rfl⟩

/-- No text makes an import panic before it comes to the database. -/
theorem importSteps_go (json : String) : ∀ step ∈ importSteps json, step.Goes := by
  intro step hstep
  unfold importSteps at hstep
  rcases (parseJsonValue_returns (Fuse.trim json.toList)).mapErr NsError.invalid with ⟨v, hv⟩ | ⟨e, he⟩
  · rw [hv] at hstep
    exact steps_go.1 v DbPath.root true step hstep
  · rw [he] at hstep
    obtain rfl := List.mem_singleton.mp hstep
    exact ⟨e, rfl⟩

end Json
end AlefsDb
