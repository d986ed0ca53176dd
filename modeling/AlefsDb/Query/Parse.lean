import AlefsDb.Lib.Numbers
import AlefsDb.Query.Ast

/-!
# The query parser

`parse_query`: the tokens of a query, and the recursive descent over them. A parser takes the tokens that are left and returns
those that it leaves; that these are fewer makes the recursion end.
-/

namespace AlefsDb

/-- `Tok`. A float is its bits. -/
inductive Tok where
  | ident (s : String)
  | string (s : String)
  | int (n : Int64)
  | float (bits : UInt64)
  | op (s : String)
  | lparen
  | rparen
  deriving DecidableEq, Repr

/-- `ParseError`: its message, and the token that the message ends with in the messages that end with one. -/
structure ParseError where
  message : String
  token : Option (Option Tok) := none
  deriving DecidableEq, Repr

namespace Query

/-! ## Tokens -/

/-- `is_ascii_whitespace`. -/
def isAsciiWhitespace (c : Char) : Bool := c = ' ' ∨ c = '\t' ∨ c = '\n' ∨ c = '\x0c' ∨ c = '\r'

/-- What a path token goes up to. -/
def endsPath (c : Char) : Bool := isAsciiWhitespace c || c = '(' || c = ')'

/-- The first character of an identifier. -/
def startsIdent (c : Char) : Bool := c.isAlpha || c = '_' || c = '*' || c = '?'

/-- The characters of an identifier. -/
def inIdent (c : Char) : Bool := c.isAlphanum || c = '_' || c = '*' || c = '?' || c = '.' || c = '-'

/-- The loop of a string token, behind its first quote: the string, and what is behind its last quote. -/
def scanString : List Char → Option (List Char × List Char)
  | [] => none
  | '"' :: rest => some ([], rest)
  | '\\' :: c :: rest => (scanString rest).map (fun r => (c :: r.1, r.2))
  | c :: rest => (scanString rest).map (fun r => (c :: r.1, r.2))

/-- A number, and what is behind it. -/
def scanNumber (chars : List Char) : Rust ParseError (Tok × List Char) :=
  let sign := (chars.take 1).filter (· = '-')
  let digits := chars.drop sign.length
  let whole := sign ++ digits.takeWhile Char.isDigit
  match digits.dropWhile Char.isDigit with
  | '.' :: behind => do
    let text := whole ++ '.' :: behind.takeWhile Char.isDigit
    let bits ← Rust.okOr (parseF64 text) { message := s!"bad float {String.ofList text}" }
    return (.float bits, behind.dropWhile Char.isDigit)
  | behind => do
    let n ← Rust.okOr (parseI64 whole) { message := s!"bad int {String.ofList whole}" }
    return (.int n, behind)

/-- One round of the loop of `tokenize`: the token that starts with a character, and what is behind it. A blank is no token. -/
def scanToken (c : Char) (rest : List Char) : Rust ParseError (Option Tok × List Char) :=
  if isAsciiWhitespace c then
    .ok (none, rest)
  else if c = '(' then
    .ok (some .lparen, rest)
  else if c = ')' then
    .ok (some .rparen, rest)
  else if c = '"' then do
    let (s, rest) ← Rust.okOr (scanString rest) { message := "unterminated string" }
    return (some (.string (String.ofList s)), rest)
  else if c = '=' ∨ c = '!' ∨ c = '<' ∨ c = '>' then
    match rest with
    | '=' :: rest => .ok (some (.op (String.ofList [c, '='])), rest)
    | rest => .ok (some (.op (String.ofList [c])), rest)
  else if c = '/' then
    .ok (some (.ident (String.ofList (c :: rest.takeWhile (!endsPath ·)))), rest.dropWhile (!endsPath ·))
  else if c = '-' ∨ c.isDigit then do
    let (tok, rest) ← scanNumber (c :: rest)
    return (some tok, rest)
  else if startsIdent c then
    .ok (some (.ident (String.ofList (c :: rest.takeWhile inIdent))), rest.dropWhile inIdent)
  else
    Rust.err { message := s!"unexpected char {c}" }

/-- A string that is scanned takes its closing quote at least. -/
theorem scanString_length {chars s rest : List Char} (h : scanString chars = some (s, rest)) : rest.length < chars.length := by
  fun_induction scanString chars generalizing s with
  | case1 => cases h
  | case2 behind =>
    cases h
    simp
  | case3 c behind ih | case4 c behind _ _ ih =>
    obtain ⟨⟨s', rest'⟩, hscan, he⟩ := Option.map_eq_some_iff.mp h
    cases he
    have hlt : rest'.length < behind.length := ih hscan
    simp only [List.length_cons]
    omega

theorem length_dropWhile_le {α : Type} (p : α → Bool) (l : List α) : (l.dropWhile p).length ≤ l.length :=
  (List.dropWhile_sublist p).length_le

/-- A number takes its first character at least. -/
theorem scanNumber_length {c : Char} {chars rest : List Char} {tok : Tok} (hc : c = '-' ∨ c.isDigit)
    (h : scanNumber (c :: chars) = .ok (tok, rest)) : rest.length ≤ chars.length := by
  have hdigits : (((c :: chars).drop (([c].filter (· = '-')).length)).dropWhile Char.isDigit).length ≤ chars.length := by
    by_cases hminus : c = '-'
    · subst hminus
      exact length_dropWhile_le _ _
    · have hdigit : c.isDigit = true := hc.resolve_left hminus
      simpa [hminus, hdigit] using length_dropWhile_le Char.isDigit chars
  unfold scanNumber at h
  simp only [List.take_succ_cons, List.take_zero] at h
  split at h
  · rename_i behind hbehind
    rw [hbehind, List.length_cons] at hdigits
    obtain ⟨bits, -, he⟩ := Rust.bind_eq_ok.mp h
    cases he
    have := length_dropWhile_le Char.isDigit behind
    omega
  · obtain ⟨n, -, he⟩ := Rust.bind_eq_ok.mp h
    cases he
    exact hdigits

/-- A round takes its first character at least. -/
theorem scanToken_length {c : Char} {chars rest : List Char} {tok : Option Tok} (h : scanToken c chars = .ok (tok, rest)) :
    rest.length ≤ chars.length := by
  unfold scanToken at h
  split at h
  · cases h
    exact le_rfl
  split at h
  · cases h
    exact le_rfl
  split at h
  · cases h
    exact le_rfl
  split at h
  · obtain ⟨⟨s, behind⟩, hs, he⟩ := Rust.bind_eq_ok.mp h
    cases he
    exact (scanString_length (Rust.okOr_eq_ok.mp hs)).le
  split at h
  · split at h <;> cases h <;> simp
  split at h
  · cases h
    exact length_dropWhile_le _ _
  split at h
  · rename_i hc
    obtain ⟨⟨t, behind⟩, ht, he⟩ := Rust.bind_eq_ok.mp h
    cases he
    exact scanNumber_length hc ht
  split at h
  · cases h
    exact length_dropWhile_le _ _
  · cases h

/-- `tokenize`. -/
def tokenize : List Char → Rust ParseError (List Tok)
  | [] => .ok []
  | c :: chars =>
    match h : scanToken c chars with
    | .error e => .error e
    | .ok (tok, rest) => do
      have := scanToken_length h
      let tokens ← tokenize rest
      return tok.toList ++ tokens
termination_by chars => chars.length
decreasing_by exact Nat.lt_succ_of_le ‹_›

/-! ## Predicates -/

/-- The error of a parser that finds another token than the one it expects, or none. -/
def expected {α : Type} (what : String) (tokens : List Tok) : Rust ParseError α :=
  Rust.err { message := s!"expected {what}, got ", token := some tokens.head? }

/-- `expect_cmp`. -/
def expectCmp : List Tok → Rust ParseError (CmpOp × List Tok)
  | .op "=" :: rest => .ok (.eq, rest)
  | .op "!=" :: rest => .ok (.ne, rest)
  | .op "<" :: rest => .ok (.lt, rest)
  | .op "<=" :: rest => .ok (.le, rest)
  | .op ">" :: rest => .ok (.gt, rest)
  | .op ">=" :: rest => .ok (.ge, rest)
  | .op other :: _ => Rust.err { message := s!"bad cmp {other}" }
  | tokens => expected "comparator" tokens

/-- `expect_string_like`, which is `expect_ident_or_string`. -/
def expectStringLike : List Tok → Rust ParseError (String × List Tok)
  | .string s :: rest => .ok (s, rest)
  | .ident s :: rest => .ok (s, rest)
  | tokens => expected "string" tokens

/-- `expect_path_or_string`. -/
def expectPathOrString : List Tok → Rust ParseError (String × List Tok)
  | .string s :: rest => .ok (s, rest)
  | .ident s :: rest => .ok (s, rest)
  | .op s :: rest => if s.toList.head? = some '/' then .ok (s, rest) else expected "path" (.op s :: rest)
  | tokens => expected "path" tokens

/-- `expect_int`. -/
def expectInt : List Tok → Rust ParseError (Int64 × List Tok)
  | .int n :: rest => .ok (n, rest)
  | tokens => expected "int" tokens

/-- `expect_uint`. -/
def expectUint (tokens : List Tok) : Rust ParseError (UInt64 × List Tok) := do
  let (n, rest) ← expectInt tokens
  if n < 0 then Rust.err { message := "index must be >= 0" } else return (n.toUInt64, rest)

/-- `parse_scalar_value`. -/
def parseScalarValue : List Tok → Rust ParseError (Scalar × List Tok)
  | .string s :: rest => .ok (.string s, rest)
  | .int n :: rest => .ok (.int n, rest)
  | .float bits :: rest => .ok (.float bits, rest)
  | .ident "null" :: rest => .ok (.null, rest)
  | .ident "true" :: rest => .ok (.bool true, rest)
  | .ident "false" :: rest => .ok (.bool false, rest)
  | .ident s :: rest => .ok (.string s, rest)
  | tokens => expected "scalar" tokens

/-- `parse_cmp_scalar`. -/
def parseCmpScalar (tokens : List Tok) : Rust ParseError ((CmpOp × Scalar) × List Tok) := do
  let (op, rest) ← expectCmp tokens
  let (s, rest) ← parseScalarValue rest
  return ((op, s), rest)

/-- `parse_predicate`. -/
def parsePredicate : List Tok → Rust ParseError (Predicate × List Tok)
  | .ident "path" :: rest => do
    let (pattern, rest) ← expectPathOrString rest
    return (.pathGlob pattern, rest)
  | .ident "type" :: rest => do
    let (typeName, rest) ← expectStringLike rest
    return (.typeName typeName, rest)
  | .ident "name" :: rest => do
    let (pattern, rest) ← expectStringLike rest
    return (.nameGlob pattern, rest)
  | .ident "value" :: rest => do
    let ((op, s), rest) ← parseCmpScalar rest
    return (.valueCmp op s, rest)
  | .ident "has" :: rest => do
    let (key, rest) ← expectStringLike rest
    return (.hasKey key, rest)
  | .ident "contains" :: rest => do
    let (s, rest) ← parseScalarValue rest
    return (.contains (.scalar s), rest)
  | .ident "at" :: rest => do
    let (index, rest) ← expectUint rest
    let ((op, s), rest) ← parseCmpScalar rest
    return (.atIndex index op s, rest)
  | .ident "key" :: rest => do
    let ((op, s), rest) ← parseCmpScalar rest
    return (.keyCmp op s, rest)
  | .ident "size" :: rest => do
    let (op, rest) ← expectCmp rest
    let (n, rest) ← expectInt rest
    return (.sizeCmp op n, rest)
  | .ident other :: _ => Rust.err { message := s!"unknown predicate {other}" }
  | tokens => expected "predicate" tokens

/-- A parser that returns leaves fewer tokens than it takes. -/
def Consumes {α : Type} (parser : List Tok → Rust ParseError (α × List Tok)) : Prop :=
  ∀ {tokens a rest}, parser tokens = .ok (a, rest) → rest.length < tokens.length

theorem expectCmp_consumes : Consumes expectCmp := by
  intro tokens op rest h
  unfold expectCmp at h
  split at h <;> cases h <;> simp

theorem expectStringLike_consumes : Consumes expectStringLike := by
  intro tokens s rest h
  unfold expectStringLike at h
  split at h <;> cases h <;> simp

theorem expectPathOrString_consumes : Consumes expectPathOrString := by
  intro tokens s rest h
  unfold expectPathOrString at h
  split at h
  · cases h
    simp
  · cases h
    simp
  · split at h <;> cases h
    simp
  · cases h

theorem expectInt_consumes : Consumes expectInt := by
  intro tokens n rest h
  unfold expectInt at h
  split at h <;> cases h
  simp

/-- A sequence that returns has taken what its first part takes. -/
theorem Consumes.bind {α β : Type} {parser : List Tok → Rust ParseError (α × List Tok)} (hparser : Consumes parser)
    {f : α × List Tok → Rust ParseError β} {tokens : List Tok} {b : β} (h : (parser tokens >>= f) = .ok b) :
    ∃ a rest, rest.length < tokens.length ∧ f (a, rest) = .ok b := by
  obtain ⟨⟨a, rest⟩, ha, hf⟩ := Rust.bind_eq_ok.mp h
  exact ⟨a, rest, hparser ha, hf⟩

theorem expectUint_consumes : Consumes expectUint := by
  intro tokens index rest h
  obtain ⟨n, behind, hlt, h⟩ := expectInt_consumes.bind h
  dsimp only at h
  split at h <;> cases h
  exact hlt

theorem parseScalarValue_consumes : Consumes parseScalarValue := by
  intro tokens s rest h
  unfold parseScalarValue at h
  split at h <;> cases h <;> simp

theorem parseCmpScalar_consumes : Consumes parseCmpScalar := by
  intro tokens a rest h
  obtain ⟨op, behind, hlt, h⟩ := expectCmp_consumes.bind h
  obtain ⟨s, behind', hlt', h⟩ := parseScalarValue_consumes.bind h
  cases h
  exact hlt'.trans hlt

/-- The arguments of a predicate, behind its name. -/
theorem Consumes.arguments {α β : Type} {parser : List Tok → Rust ParseError (α × List Tok)} (hparser : Consumes parser)
    {f : α × List Tok → Rust ParseError (β × List Tok)} {tokens rest : List Tok} {b : β}
    (h : (parser tokens >>= f) = .ok (b, rest)) (hf : ∀ {a behind}, f (a, behind) = .ok (b, rest) → rest = behind) (name : Tok) :
    rest.length < (name :: tokens).length := by
  obtain ⟨a, behind, hlt, h⟩ := hparser.bind h
  rw [hf h]
  exact hlt.trans (Nat.lt_succ_self _)

theorem parsePredicate_consumes : Consumes parsePredicate := by
  intro tokens p rest h
  unfold parsePredicate at h
  split at h
  · exact expectPathOrString_consumes.arguments h (by rintro _ _ ⟨⟩; rfl) _
  · exact expectStringLike_consumes.arguments h (by rintro _ _ ⟨⟩; rfl) _
  · exact expectStringLike_consumes.arguments h (by rintro _ _ ⟨⟩; rfl) _
  · exact parseCmpScalar_consumes.arguments h (by rintro _ _ ⟨⟩; rfl) _
  · exact expectStringLike_consumes.arguments h (by rintro _ _ ⟨⟩; rfl) _
  · exact parseScalarValue_consumes.arguments h (by rintro _ _ ⟨⟩; rfl) _
  · obtain ⟨index, behind, hlt, h⟩ := expectUint_consumes.bind h
    exact (parseCmpScalar_consumes.arguments h (by rintro _ _ ⟨⟩; rfl) .lparen).trans (Nat.succ_lt_succ hlt)
  · exact parseCmpScalar_consumes.arguments h (by rintro _ _ ⟨⟩; rfl) _
  · obtain ⟨op, behind, hlt, h⟩ := expectCmp_consumes.bind h
    exact (expectInt_consumes.arguments h (by rintro _ _ ⟨⟩; rfl) .lparen).trans (Nat.succ_lt_succ hlt)
  · cases h
  · cases h

/-! ## Expressions -/

/-- Tokens that are left, fewer than those that a parser takes. -/
abbrev Fewer (tokens : List Tok) : Type := { rest : List Tok // rest.length < tokens.length }

mutual

/-- `parse_expr`: terms joined by `AND` and `OR`, from the left. -/
def parseExpr (tokens : List Tok) : Rust ParseError (Expr × Fewer tokens) := do
  let (left, ⟨rest, h⟩) ← parseTerm tokens
  let (e, ⟨rest', h'⟩) ← parseOperators left rest
  return (e, ⟨rest', h'.trans_lt h⟩)
termination_by 4 * tokens.length + 3

/-- The loop of `parse_expr`. -/
def parseOperators (left : Expr) (tokens : List Tok) :
    Rust ParseError (Expr × { rest : List Tok // rest.length ≤ tokens.length }) :=
  match tokens with
  | .ident op :: behind =>
    if op ≠ "AND" ∧ op ≠ "OR" then
      return (left, ⟨.ident op :: behind, le_rfl⟩)
    else do
      let (right, ⟨rest, h⟩) ← parseTerm behind
      let (e, ⟨rest', h'⟩) ← parseOperators (if op = "AND" then .and left right else .or left right) rest
      return (e, ⟨rest', (h'.trans_lt h).le.trans (Nat.le_succ _)⟩)
  | tokens => return (left, ⟨tokens, le_rfl⟩)
termination_by 4 * tokens.length

/-- `parse_term`. -/
def parseTerm (tokens : List Tok) : Rust ParseError (Expr × Fewer tokens) :=
  match tokens with
  | .ident n :: behind =>
    if n = "NOT" then do
      let (inner, ⟨rest, h⟩) ← parsePrimary behind
      return (.not inner, ⟨rest, h.trans (Nat.lt_succ_self _)⟩)
    else
      parsePrimary (.ident n :: behind)
  | tokens => parsePrimary tokens
termination_by 4 * tokens.length + 2

/-- `parse_primary`. -/
def parsePrimary (tokens : List Tok) : Rust ParseError (Expr × Fewer tokens) :=
  match tokens with
  | .lparen :: behind => do
    let (e, ⟨rest, h⟩) ← parseExpr behind
    match rest, h with
    | .rparen :: rest', h => return (e, ⟨rest', by simp only [List.length_cons] at h ⊢; omega⟩)
    | _, _ => Rust.err { message := "expected )" }
  | tokens =>
    match h : parsePredicate tokens with
    | .error e => .error e
    | .ok (p, rest) => return (.pred p, ⟨rest, parsePredicate_consumes h⟩)
termination_by 4 * tokens.length + 1

end

/-- `parse_query`. -/
def parseQuery (input : String) : Rust ParseError Expr := do
  let tokens ← tokenize input.toList
  let (expr, rest) ← parseExpr tokens
  if rest.val = [] then
    return expr
  else
    Rust.err { message := "unexpected token ", token := some rest.val.head? }

end Query
end AlefsDb
