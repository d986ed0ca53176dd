import AlefsDb.Query.Parse

/-!
# Queries in print

The text of an expression: its words separated by single spaces, strings in quotes with a backslash before each quote and backslash,
and parentheses where they are needed, around a right operand of `AND` and `OR` that is one of the two itself and around an
operand of `NOT` that is no predicate. Beside it the tokens that the text is made of, which `tokenize` finds in it
(`tokenize_printExpr`).
-/

namespace AlefsDb
namespace Query

/-! ## Text -/

/-- A quote and a backslash are written behind a backslash. -/
def escape (c : Char) : List Char := if c = '"' ∨ c = '\\' then ['\\', c] else [c]

def quote (s : String) : List Char := '"' :: (s.toList.flatMap escape ++ ['"'])

def printOp : CmpOp → String
  | .eq => "="
  | .ne => "!="
  | .lt => "<"
  | .le => "<="
  | .gt => ">"
  | .ge => ">="

/-- A scalar argument; floats and bytes have no text here. -/
def printScalar : Scalar → List Char
  | .null => "null".toList
  | .bool true => "true".toList
  | .bool false => "false".toList
  | .int n => i64Text n
  | .string s => quote s
  | .float _ => []
  | .bytes _ => []

/-- The argument of `contains`; only scalars have a text. -/
def printNeedle : Value → List Char
  | .scalar s => printScalar s
  | _ => []

/-- Words separated by single spaces. -/
def words : List (List Char) → List Char
  | [] => []
  | [w] => w
  | w :: ws => w ++ ' ' :: words ws

def printPredicate : Predicate → List Char
  | .pathGlob pattern => words ["path".toList, quote pattern]
  | .typeName typeName => words ["type".toList, quote typeName]
  | .nameGlob pattern => words ["name".toList, quote pattern]
  | .valueCmp op s => words ["value".toList, (printOp op).toList, printScalar s]
  | .hasKey key => words ["has".toList, quote key]
  | .contains needle => words ["contains".toList, printNeedle needle]
  | .atIndex index op s => words ["at".toList, natText index.toNat, (printOp op).toList, printScalar s]
  | .keyCmp op s => words ["key".toList, (printOp op).toList, printScalar s]
  | .sizeCmp op n => words ["size".toList, (printOp op).toList, i64Text n]

/-- An operand that has to be in parentheses to the right of `AND` and `OR`. -/
def isJoin : Expr → Bool
  | .and _ _ => true
  | .or _ _ => true
  | _ => false

def isPred : Expr → Bool
  | .pred _ => true
  | _ => false

def parens (needed : Bool) (text : List Char) : List Char := if needed then '(' :: (text ++ [')']) else text

def printExpr : Expr → List Char
  | .and a b => words [printExpr a, "AND".toList, parens (isJoin b) (printExpr b)]
  | .or a b => words [printExpr a, "OR".toList, parens (isJoin b) (printExpr b)]
  | .not a => words ["NOT".toList, parens (!isPred a) (printExpr a)]
  | .pred p => printPredicate p

/-- The scalars that can be printed. -/
def Printable : Scalar → Prop
  | .float _ => False
  | .bytes _ => False
  | _ => True

def PrintablePredicate : Predicate → Prop
  | .valueCmp _ s => Printable s
  | .contains needle => ∃ s, needle = .scalar s ∧ Printable s
  | .atIndex index _ s => index.toNat < 2 ^ 63 ∧ Printable s
  | .keyCmp _ s => Printable s
  | _ => True

/-- The scalar arguments of an expression are null, booleans, integers or strings, its indices fit an `i64`. -/
def PrintableExpr : Expr → Prop
  | .and a b => PrintableExpr a ∧ PrintableExpr b
  | .or a b => PrintableExpr a ∧ PrintableExpr b
  | .not a => PrintableExpr a
  | .pred p => PrintablePredicate p

/-! ## Tokens -/

def scalarToken : Scalar → Tok
  | .null => .ident "null"
  | .bool true => .ident "true"
  | .bool false => .ident "false"
  | .int n => .int n
  | .string s => .string s
  | .float bits => .float bits
  | .bytes _ => .ident ""

def needleToken : Value → Tok
  | .scalar s => scalarToken s
  | _ => .ident ""

def predicateTokens : Predicate → List Tok
  | .pathGlob pattern => [.ident "path", .string pattern]
  | .typeName typeName => [.ident "type", .string typeName]
  | .nameGlob pattern => [.ident "name", .string pattern]
  | .valueCmp op s => [.ident "value", .op (printOp op), scalarToken s]
  | .hasKey key => [.ident "has", .string key]
  | .contains needle => [.ident "contains", needleToken needle]
  | .atIndex index op s => [.ident "at", .int index.toInt64, .op (printOp op), scalarToken s]
  | .keyCmp op s => [.ident "key", .op (printOp op), scalarToken s]
  | .sizeCmp op n => [.ident "size", .op (printOp op), .int n]

def parensTokens (needed : Bool) (tokens : List Tok) : List Tok :=
  if needed then .lparen :: (tokens ++ [.rparen]) else tokens

def exprTokens : Expr → List Tok
  | .and a b => exprTokens a ++ .ident "AND" :: parensTokens (isJoin b) (exprTokens b)
  | .or a b => exprTokens a ++ .ident "OR" :: parensTokens (isJoin b) (exprTokens b)
  | .not a => .ident "NOT" :: parensTokens (!isPred a) (exprTokens a)
  | .pred p => predicateTokens p

/-! ## The tokens of a text -/

/-- What ends a word: the end of the text, a space or a closing parenthesis. -/
def Delimited (rest : List Char) : Prop := rest = [] ∨ ∃ c behind, rest = c :: behind ∧ (c = ' ' ∨ c = ')')

/-- A text is tokenized to these tokens, whatever stands behind it, if that begins with a delimiter. -/
def Lexes (text : List Char) (tokens : List Tok) : Prop :=
  ∀ rest more, Delimited rest → tokenize rest = .ok more → tokenize (text ++ rest) = .ok (tokens ++ more)

theorem delimited_space (rest : List Char) : Delimited (' ' :: rest) := Or.inr ⟨' ', rest, rfl, Or.inl rfl⟩

theorem delimited_rparen (rest : List Char) : Delimited (')' :: rest) := Or.inr ⟨')', rest, rfl, Or.inr rfl⟩

/-- One round of `tokenize`. -/
theorem tokenize_cons {c : Char} {chars rest : List Char} {tok : Option Tok} {more : List Tok}
    (hscan : scanToken c chars = .ok (tok, rest)) (hmore : tokenize rest = .ok more) :
    tokenize (c :: chars) = .ok (tok.toList ++ more) := by
  rw [tokenize]
  split
  · rename_i e he
    rw [hscan] at he
    cases he
  · rename_i tok' rest' hok
    rw [hscan] at hok
    cases hok
    rw [hmore]
    rfl

/-- A space is no token. -/
theorem tokenize_space {rest : List Char} {more : List Tok} (h : tokenize rest = .ok more) :
    tokenize (' ' :: rest) = .ok more :=
  tokenize_cons (show scanToken ' ' rest = .ok (none, rest) from rfl) h

/-- Two texts separated by a space. -/
theorem Lexes.space {a b : List Char} {ta tb : List Tok} (ha : Lexes a ta) (hb : Lexes b tb) : Lexes (a ++ ' ' :: b) (ta ++ tb) := by
  intro rest more hrest hmore
  rw [List.append_assoc, List.append_assoc]
  exact ha _ _ (delimited_space _) (tokenize_space (hb rest more hrest hmore))

/-- A text in parentheses. -/
theorem Lexes.parens {text : List Char} {tokens : List Tok} (h : Lexes text tokens) (needed : Bool) :
    Lexes (parens needed text) (parensTokens needed tokens) := by
  cases needed with
  | false => exact h
  | true =>
    intro rest more hrest hmore
    have hclose : tokenize (')' :: rest) = .ok (.rparen :: more) :=
      tokenize_cons (show scanToken ')' rest = .ok (some .rparen, rest) from rfl) hmore
    have hinside := h (')' :: rest) _ (delimited_rparen rest) hclose
    have hopen := tokenize_cons (show scanToken '(' (text ++ ')' :: rest) = .ok (some .lparen, _) from rfl) hinside
    simpa [Query.parens, parensTokens] using hopen

/-- A word is taken up to where it ends. -/
theorem takeWhile_append_of_delimited {p : Char → Bool} {word rest : List Char} (hword : ∀ c ∈ word, p c = true)
    (hspace : p ' ' = false) (hparen : p ')' = false) (hrest : Delimited rest) :
    (word ++ rest).takeWhile p = word ∧ (word ++ rest).dropWhile p = rest := by
  rw [List.takeWhile_append_of_pos hword, List.dropWhile_append_of_pos hword]
  rcases hrest with rfl | ⟨c, behind, rfl, rfl | rfl⟩
  · simp
  · simp [hspace]
  · simp [hparen]

/-- A letter is no other character that `tokenize` looks for. -/
theorem scanToken_letter {c : Char} (hc : c.isAlpha = true) (chars : List Char) :
    scanToken c chars = .ok (some (.ident (String.ofList (c :: chars.takeWhile inIdent))), chars.dropWhile inIdent) := by
  have hne : ∀ d : Char, d.isAlpha = false → c ≠ d := by
    intro d hd he
    rw [he, hd] at hc
    cases hc
  have hblank : ¬isAsciiWhitespace c = true := by
    simp [isAsciiWhitespace, hne ' ' (by decide), hne '\t' (by decide), hne '\n' (by decide), hne '\x0c' (by decide),
      hne '\r' (by decide)]
  have hop : ¬(c = '=' ∨ c = '!' ∨ c = '<' ∨ c = '>') := by
    simp [hne '=' (by decide), hne '!' (by decide), hne '<' (by decide), hne '>' (by decide)]
  have hdigit : c.isDigit = false := by
    cases hd : c.isDigit with
    | false => rfl
    | true =>
      have hletter : (decide (c.val ≥ 'A'.val ∧ c.val ≤ 'Z'.val) || (decide (c.val ≥ 'a'.val) && decide (c.val ≤ 'z'.val))) = true := hc
      have hnumeral : (decide (c.val ≥ '0'.val) && decide (c.val ≤ '9'.val)) = true := hd
      simp [UInt32.le_iff_toNat_le] at hletter hnumeral
      omega
  have hnumber : ¬(c = '-' ∨ c.isDigit = true) := by simp [hne '-' (by decide), hdigit]
  have hident : startsIdent c = true := by simp [startsIdent, hc]
  unfold scanToken
  rw [if_neg hblank, if_neg (hne '(' (by decide)), if_neg (hne ')' (by decide)), if_neg (hne '"' (by decide)),
    if_neg hop, if_neg (hne '/' (by decide)), if_neg hnumber, if_pos hident]

/-- A word: a letter, and characters that an identifier can have. -/
def isWord (w : String) : Bool :=
  match w.toList with
  | [] => false
  | c :: cs => c.isAlpha && cs.all inIdent

/-- A word is one token. -/
theorem lexes_word (w : String) (h : isWord w = true) : Lexes w.toList [.ident w] := by
  intro rest more hrest hmore
  unfold isWord at h
  cases hw : w.toList with
  | nil =>
    rw [hw] at h
    cases h
  | cons c cs =>
    rw [hw] at h
    dsimp only at h
    rw [Bool.and_eq_true, List.all_eq_true] at h
    obtain ⟨htake, hdrop⟩ := takeWhile_append_of_delimited h.2 (by decide) (by decide) hrest
    have hscan := scanToken_letter h.1 (cs ++ rest)
    rw [htake, hdrop, ← hw, String.ofList_toList] at hscan
    exact tokenize_cons hscan hmore

/-- The characters of a quoted string. -/
theorem scanString_escape (s rest : List Char) : scanString (s.flatMap escape ++ '"' :: rest) = some (s, rest) := by
  induction s with
  | nil => rfl
  | cons c s ih =>
    rw [List.flatMap_cons, List.append_assoc]
    by_cases hc : c = '"' ∨ c = '\\'
    · -- behind a backslash any character stands for itself
      have hescape : escape c = ['\\', c] := if_pos hc
      rw [hescape, List.cons_append, List.cons_append, List.nil_append, scanString, ih]
      rfl
    · have hescape : escape c = [c] := if_neg hc
      rw [hescape, List.cons_append, List.nil_append,
        scanString.eq_4 _ _ (fun h => hc (Or.inl h)) (fun _ _ h _ => hc (Or.inr h)), ih]
      rfl

theorem lexes_quote (s : String) : Lexes (quote s) [.string s] := by
  intro rest more _ hmore
  have hscan : scanToken '"' (s.toList.flatMap escape ++ '"' :: rest) = .ok (some (.string s), rest) := by
    have hstring : (Rust.okOr (scanString (s.toList.flatMap escape ++ '"' :: rest)) { message := "unterminated string" } :
        Rust ParseError _) = .ok (s.toList, rest) := by rw [scanString_escape, Rust.okOr_some]
    have hbranch : scanToken '"' (s.toList.flatMap escape ++ '"' :: rest) =
        (Rust.okOr (scanString (s.toList.flatMap escape ++ '"' :: rest)) { message := "unterminated string" } >>=
          fun r => .ok (some (.string (String.ofList r.1)), r.2)) := rfl
    rw [hbranch, hstring, Rust.ok_bind]
    simp
  have htokens := tokenize_cons hscan hmore
  simpa [quote] using htokens

theorem lexes_op (op : CmpOp) : Lexes (printOp op).toList [.op (printOp op)] := by
  intro rest more hrest hmore
  rcases hrest with rfl | ⟨c, behind, rfl, rfl | rfl⟩ <;>
    cases op <;> exact tokenize_cons (show scanToken _ _ = .ok (some (.op _), _) from rfl) hmore

/-- A digit is no other character that `tokenize` looks for before a number. -/
theorem scanToken_digit {c : Char} (hc : c.isDigit = true) (chars : List Char) :
    scanToken c chars = (do
      let (tok, rest) ← scanNumber (c :: chars)
      return (some tok, rest)) := by
  have hne : ∀ d : Char, d.isDigit = false → c ≠ d := by
    intro d hd he
    rw [he, hd] at hc
    cases hc
  have hblank : ¬isAsciiWhitespace c = true := by
    simp [isAsciiWhitespace, hne ' ' (by decide), hne '\t' (by decide), hne '\n' (by decide), hne '\x0c' (by decide),
      hne '\r' (by decide)]
  have hop : ¬(c = '=' ∨ c = '!' ∨ c = '<' ∨ c = '>') := by
    simp [hne '=' (by decide), hne '!' (by decide), hne '<' (by decide), hne '>' (by decide)]
  unfold scanToken
  rw [if_neg hblank, if_neg (hne '(' (by decide)), if_neg (hne ')' (by decide)), if_neg (hne '"' (by decide)),
    if_neg hop, if_neg (hne '/' (by decide)), if_pos (Or.inr hc)]

/-- A number: digits, perhaps behind a minus sign. -/
theorem scanNumber_int {sign digits rest : List Char} {n : Int64} (hsign : sign = [] ∨ sign = ['-']) (hne : digits ≠ [])
    (hdigits : ∀ c ∈ digits, c.isDigit = true) (hrest : Delimited rest) (hn : parseI64 (sign ++ digits) = some n) :
    scanNumber (sign ++ digits ++ rest) = .ok (.int n, rest) := by
  obtain ⟨htake, hdrop⟩ := takeWhile_append_of_delimited hdigits (by decide) (by decide) hrest
  have hfilter : ((sign ++ digits ++ rest).take 1).filter (· = '-') = sign := by
    rcases hsign with rfl | rfl
    · obtain ⟨d, ds, rfl⟩ := List.exists_cons_of_ne_nil hne
      have hd : d ≠ '-' := by
        intro he
        exact absurd (hdigits d List.mem_cons_self) (by rw [he]; decide)
      simp [hd]
    · rfl
  have hbehind : (sign ++ digits ++ rest).drop sign.length = digits ++ rest := by rw [List.append_assoc, List.drop_left]
  have hnodot : ∀ behind, rest ≠ '.' :: behind := by
    intro behind he
    rcases hrest with rfl | ⟨c, b, rfl, rfl | rfl⟩ <;> simp at he
  unfold scanNumber
  simp only [hfilter, hbehind, htake, hdrop, hn]
  rfl

theorem lexes_int (n : Int64) : Lexes (i64Text n) [.int n] := by
  intro rest more hrest hmore
  have hdigits : ∀ c ∈ natText n.toInt.natAbs, c.isDigit = true := fun _ h => isDigit_of_mem_natText h
  have hparse := parseI64_i64Text n
  unfold i64Text at hparse ⊢
  split
  · rename_i hneg
    rw [if_pos hneg] at hparse
    have hscan := scanNumber_int (Or.inr rfl) (natText_ne_nil _) hdigits hrest hparse
    have htoken : scanToken '-' (natText n.toInt.natAbs ++ rest) = .ok (some (.int n), rest) := by
      have hbranch : scanToken '-' (natText n.toInt.natAbs ++ rest) = (do
          let (tok, rest) ← scanNumber ('-' :: (natText n.toInt.natAbs ++ rest))
          return (some tok, rest)) := rfl
      rw [hbranch]
      exact (congrArg (· >>= _) hscan).trans rfl
    exact tokenize_cons htoken hmore
  · rename_i hneg
    rw [if_neg hneg] at hparse
    have hscan := scanNumber_int (Or.inl rfl) (natText_ne_nil _) hdigits hrest hparse
    obtain ⟨d, ds, hd⟩ := List.exists_cons_of_ne_nil (natText_ne_nil n.toInt.natAbs)
    rw [hd] at hdigits hscan ⊢
    have htoken : scanToken d (ds ++ rest) = .ok (some (.int n), rest) := by
      rw [scanToken_digit (hdigits d List.mem_cons_self)]
      exact (congrArg (· >>= _) hscan).trans rfl
    exact tokenize_cons htoken hmore

/-- An index that fits an `i64` is the integer it is cast to. -/
theorem toInt_toInt64 {index : UInt64} (h : index.toNat < 2 ^ 63) : index.toInt64.toInt = index.toNat := by
  have hint : index.toInt64.toInt = index.toBitVec.toInt := rfl
  have hnat : index.toBitVec.toNat = index.toNat := rfl
  rw [hint, BitVec.toInt_eq_toNat_of_lt (by omega), hnat]

/-- The text of an index is that of the integer it is read as. -/
theorem lexes_index {index : UInt64} (h : index.toNat < 2 ^ 63) : Lexes (natText index.toNat) [.int index.toInt64] := by
  have hint := toInt_toInt64 h
  have htext : i64Text index.toInt64 = natText index.toNat := by
    rw [i64Text, if_neg (by omega), hint, Int.natAbs_natCast]
  rw [← htext]
  exact lexes_int _

/-- A scalar is one token. -/
theorem lexes_scalar {s : Scalar} (h : Printable s) : Lexes (printScalar s) [scalarToken s] := by
  cases s with
  | null => exact lexes_word "null" rfl
  | bool b =>
    cases b with
    | true => exact lexes_word "true" rfl
    | false => exact lexes_word "false" rfl
  | int n => exact lexes_int n
  | string s => exact lexes_quote s
  | float bits => exact h.elim
  | bytes b => exact h.elim

/-- The words of a predicate are the tokens of it. -/
theorem lexes_predicate {p : Predicate} (h : PrintablePredicate p) : Lexes (printPredicate p) (predicateTokens p) := by
  cases p with
  | pathGlob pattern => exact (lexes_word "path" rfl).space (lexes_quote pattern)
  | typeName typeName => exact (lexes_word "type" rfl).space (lexes_quote typeName)
  | nameGlob pattern => exact (lexes_word "name" rfl).space (lexes_quote pattern)
  | valueCmp op s =>
    exact (lexes_word "value" rfl).space ((lexes_op op).space (lexes_scalar h))
  | hasKey key => exact (lexes_word "has" rfl).space (lexes_quote key)
  | contains needle =>
    obtain ⟨s, rfl, hs⟩ := h
    exact (lexes_word "contains" rfl).space (lexes_scalar hs)
  | atIndex index op s =>
    exact (lexes_word "at" rfl).space
      ((lexes_index h.1).space ((lexes_op op).space (lexes_scalar h.2)))
  | keyCmp op s =>
    exact (lexes_word "key" rfl).space ((lexes_op op).space (lexes_scalar h))
  | sizeCmp op n =>
    exact (lexes_word "size" rfl).space ((lexes_op op).space (lexes_int n))

/-- A printed expression is the tokens of the expression. -/
theorem lexes_expr {e : Expr} (h : PrintableExpr e) : Lexes (printExpr e) (exprTokens e) := by
  induction e with
  | and a b iha ihb =>
    exact (iha h.1).space ((lexes_word "AND" rfl).space ((ihb h.2).parens _))
  | or a b iha ihb =>
    exact (iha h.1).space ((lexes_word "OR" rfl).space ((ihb h.2).parens _))
  | not a ih => exact (lexes_word "NOT" rfl).space ((ih h).parens _)
  | pred p => exact lexes_predicate h

/-- The text of an expression is tokenized to its tokens. -/
theorem tokenize_printExpr {e : Expr} (h : PrintableExpr e) : tokenize (printExpr e) = .ok (exprTokens e) := by
  have hnil : tokenize [] = .ok [] := by rw [tokenize]
  simpa using lexes_expr h [] [] (Or.inl rfl) hnil

end Query
end AlefsDb
