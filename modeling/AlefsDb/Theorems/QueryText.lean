import AlefsDb.Query.Print

/-!
# Printed queries are read back

`parse_query` of the text of an expression returns that expression (`parseQuery_printExpr`). Because the text has parentheses only
to the right of `AND` and `OR`, this says that both associate to the left and neither binds tighter, and that `NOT` takes no more
than the predicate or the parentheses behind it.
-/

namespace AlefsDb
namespace Query

/-! ## Predicates -/

theorem expectCmp_printOp (op : CmpOp) (rest : List Tok) : expectCmp (.op (printOp op) :: rest) = .ok (op, rest) := by
  cases op <;> rfl

theorem parseScalarValue_scalarToken {s : Scalar} (h : Printable s) (rest : List Tok) :
    parseScalarValue (scalarToken s :: rest) = .ok (s, rest) := by
  cases s with
  | null => rfl
  | bool b => cases b <;> rfl
  | int n => rfl
  | string s => rfl
  | float bits => exact h.elim
  | bytes b => exact h.elim

/-- The tokens of a comparison are read back. -/
theorem parseCmpScalar_tokens {s : Scalar} (op : CmpOp) (h : Printable s) (rest : List Tok) :
    parseCmpScalar (.op (printOp op) :: scalarToken s :: rest) = .ok ((op, s), rest) := by
  rw [parseCmpScalar, expectCmp_printOp, Rust.ok_bind]
  dsimp only
  rw [parseScalarValue_scalarToken h]
  rfl

/-- The token of an index is read back. -/
theorem expectUint_index {index : UInt64} (h : index.toNat < 2 ^ 63) (rest : List Tok) :
    expectUint (.int index.toInt64 :: rest) = .ok (index, rest) := by
  have hnonneg : ¬index.toInt64 < 0 := by
    rw [Int64.lt_iff_toInt_lt, toInt_toInt64 h]
    simp
  rw [expectUint, expectInt, Rust.ok_bind]
  dsimp only
  rw [if_neg hnonneg, UInt64.toUInt64_toInt64]
  rfl

/-- The tokens of a predicate are parsed as it. -/
theorem parsePredicate_tokens {p : Predicate} (h : PrintablePredicate p) (rest : List Tok) :
    parsePredicate (predicateTokens p ++ rest) = .ok (p, rest) := by
  cases p with
  | pathGlob pattern => rfl
  | typeName typeName => rfl
  | nameGlob pattern => rfl
  | valueCmp op s => exact (congrArg (· >>= _) (parseCmpScalar_tokens op h rest)).trans rfl
  | hasKey key => rfl
  | contains needle =>
    obtain ⟨s, rfl, hs⟩ := h
    exact (congrArg (· >>= _) (parseScalarValue_scalarToken hs rest)).trans rfl
  | atIndex index op s =>
    refine (congrArg (· >>= _) (expectUint_index h.1 (.op (printOp op) :: scalarToken s :: rest))).trans ?_
    rw [Rust.ok_bind]
    dsimp only
    rw [parseCmpScalar_tokens op h.2 rest]
    rfl
  | keyCmp op s => exact (congrArg (· >>= _) (parseCmpScalar_tokens op h rest)).trans rfl
  | sizeCmp op n => exact (congrArg (· >>= _) (expectCmp_printOp op (.int n :: rest))).trans rfl

/-! ## What the parsers read -/

/-- `parse_primary` reads an expression off the tokens and leaves the rest. -/
def PrimaryReads (tokens : List Tok) (e : Expr) (rest : List Tok) : Prop := ∃ h, parsePrimary tokens = .ok (e, ⟨rest, h⟩)

/-- `parse_term` reads an expression off the tokens and leaves the rest. -/
def TermReads (tokens : List Tok) (e : Expr) (rest : List Tok) : Prop := ∃ h, parseTerm tokens = .ok (e, ⟨rest, h⟩)

/-- The loop of `parse_expr`, with an expression read already, goes on to this one and leaves the rest. -/
def OperatorsRead (left : Expr) (tokens : List Tok) (e : Expr) (rest : List Tok) : Prop :=
  ∃ h, parseOperators left tokens = .ok (e, ⟨rest, h⟩)

/-- `parse_expr` reads an expression off the tokens and leaves the rest. -/
def ExprReads (tokens : List Tok) (e : Expr) (rest : List Tok) : Prop := ∃ h, parseExpr tokens = .ok (e, ⟨rest, h⟩)

/-- An expression is a term and the operators behind it. -/
theorem ExprReads.intro {tokens behind rest : List Tok} {a e : Expr} (hterm : TermReads tokens a behind)
    (hloop : OperatorsRead a behind e rest) : ExprReads tokens e rest := by
  obtain ⟨h₁, hterm⟩ := hterm
  obtain ⟨h₂, hloop⟩ := hloop
  refine ⟨h₂.trans_lt h₁, ?_⟩
  rw [parseExpr, hterm, Rust.ok_bind]
  dsimp only
  rw [hloop]
  rfl

/-- The loop ends where no identifier follows. -/
theorem operatorsRead_end (left : Expr) {rest : List Tok} (h : ∀ s behind, rest ≠ .ident s :: behind) :
    OperatorsRead left rest left rest := by
  refine ⟨le_rfl, ?_⟩
  unfold parseOperators
  split
  · exact absurd rfl (h _ _)
  · rfl

/-- `AND` and a term, and the operators behind it. -/
theorem OperatorsRead.and {left right e : Expr} {tokens behind rest : List Tok} (hterm : TermReads tokens right behind)
    (hloop : OperatorsRead (.and left right) behind e rest) : OperatorsRead left (.ident "AND" :: tokens) e rest := by
  obtain ⟨h₁, hterm⟩ := hterm
  obtain ⟨h₂, hloop⟩ := hloop
  refine ⟨(h₂.trans_lt h₁).le.trans (Nat.le_succ _), ?_⟩
  rw [parseOperators, if_neg (by decide), hterm, Rust.ok_bind]
  dsimp only
  rw [if_pos rfl, hloop]
  rfl

/-- `OR` and a term, and the operators behind it. -/
theorem OperatorsRead.or {left right e : Expr} {tokens behind rest : List Tok} (hterm : TermReads tokens right behind)
    (hloop : OperatorsRead (.or left right) behind e rest) : OperatorsRead left (.ident "OR" :: tokens) e rest := by
  obtain ⟨h₁, hterm⟩ := hterm
  obtain ⟨h₂, hloop⟩ := hloop
  refine ⟨(h₂.trans_lt h₁).le.trans (Nat.le_succ _), ?_⟩
  rw [parseOperators, if_neg (by decide), hterm, Rust.ok_bind]
  dsimp only
  rw [if_neg (by decide), hloop]
  rfl

theorem PrimaryReads.parens {tokens rest : List Tok} {e : Expr} (h : ExprReads tokens e (.rparen :: rest)) :
    PrimaryReads (.lparen :: tokens) e rest := by
  obtain ⟨h₁, h⟩ := h
  refine ⟨by simp only [List.length_cons] at h₁ ⊢; omega, ?_⟩
  rw [parsePrimary, h, Rust.ok_bind]
  rfl

/-- The first token of a predicate is its name. -/
theorem predicateTokens_head (p : Predicate) : ∃ name tokens, name ≠ "NOT" ∧ predicateTokens p = .ident name :: tokens := by
  cases p <;> exact ⟨_, _, by decide, rfl⟩

theorem PrimaryReads.predicate {p : Predicate} (h : PrintablePredicate p) (rest : List Tok) :
    PrimaryReads (predicateTokens p ++ rest) (.pred p) rest := by
  have hread := parsePredicate_tokens h rest
  obtain ⟨name, tokens, -, hp⟩ := predicateTokens_head p
  rw [hp, List.cons_append] at hread ⊢
  have hlt : rest.length < (Tok.ident name :: (tokens ++ rest)).length := parsePredicate_consumes hread
  refine ⟨hlt, ?_⟩
  unfold parsePrimary
  split
  · rename_i he
    rw [hread] at he
    cases he
  · rename_i hok
    rw [hread] at hok
    cases hok
    rfl

/-- `NOT` and what it negates. -/
theorem TermReads.not {tokens rest : List Tok} {e : Expr} (h : PrimaryReads tokens e rest) :
    TermReads (.ident "NOT" :: tokens) (.not e) rest := by
  obtain ⟨h₁, h⟩ := h
  refine ⟨h₁.trans (Nat.lt_succ_self _), ?_⟩
  rw [parseTerm, if_pos rfl, h]
  rfl

/-- A term that is not negated. -/
theorem TermReads.primary {tokens rest : List Tok} {e : Expr} (h : PrimaryReads tokens e rest)
    (hnot : ∀ behind, tokens ≠ .ident "NOT" :: behind) : TermReads tokens e rest := by
  obtain ⟨h₁, h⟩ := h
  refine ⟨h₁, ?_⟩
  unfold parseTerm
  split
  · rename_i n behind
    have hn : n ≠ "NOT" := by
      intro he
      exact hnot behind (by rw [he])
    rw [if_neg hn]
    exact h
  · exact h

/-! ## Expressions -/

/-- How the tokens of an expression are read, in the three places where it can stand: as the beginning of a chain of `AND`s and
`OR`s that goes on behind it, as a right operand of one, and as the operand of `NOT`. -/
structure ReadBack (e : Expr) : Prop where
  expr : ∀ behind e' rest, OperatorsRead e behind e' rest → ExprReads (exprTokens e ++ behind) e' rest
  operand : ∀ rest, TermReads (parensTokens (isJoin e) (exprTokens e) ++ rest) e rest
  negated : ∀ rest, PrimaryReads (parensTokens (!isPred e) (exprTokens e) ++ rest) e rest

/-- An expression in parentheses. -/
theorem primaryReads_parens {e : Expr} (h : ∀ behind e' rest, OperatorsRead e behind e' rest →
    ExprReads (exprTokens e ++ behind) e' rest) (rest : List Tok) :
    PrimaryReads (parensTokens true (exprTokens e) ++ rest) e rest := by
  have hend : OperatorsRead e (.rparen :: rest) e (.rparen :: rest) :=
    operatorsRead_end e (by intro s behind he; cases he)
  have hparens := PrimaryReads.parens (h _ _ _ hend)
  simpa [parensTokens] using hparens

/-- A chain, which stands in parentheses wherever it is an operand. -/
theorem ReadBack.join {e : Expr} (hjoin : isJoin e = true) (hpred : isPred e = false)
    (h : ∀ behind e' rest, OperatorsRead e behind e' rest → ExprReads (exprTokens e ++ behind) e' rest) : ReadBack e where
  expr := h
  operand := by
    intro rest
    rw [hjoin]
    exact TermReads.primary (primaryReads_parens h rest) (by intro behind he; cases he)
  negated := by
    intro rest
    rw [hpred]
    exact primaryReads_parens h rest

/-- The tokens of every printable expression are read back. -/
theorem readBack {e : Expr} (h : PrintableExpr e) : ReadBack e := by
  induction e with
  | and a b iha ihb =>
    refine ReadBack.join rfl rfl ?_
    intro behind e' rest hloop
    have hoperand := (ihb h.2).operand behind
    have hchain := (iha h.1).expr _ _ _ (OperatorsRead.and hoperand hloop)
    simpa [exprTokens] using hchain
  | or a b iha ihb =>
    refine ReadBack.join rfl rfl ?_
    intro behind e' rest hloop
    have hoperand := (ihb h.2).operand behind
    have hchain := (iha h.1).expr _ _ _ (OperatorsRead.or hoperand hloop)
    simpa [exprTokens] using hchain
  | not a ih =>
    have hterm : ∀ rest, TermReads (exprTokens (.not a) ++ rest) (.not a) rest := fun rest => TermReads.not ((ih h).negated rest)
    have hexpr : ∀ behind e' rest, OperatorsRead (.not a) behind e' rest → ExprReads (exprTokens (.not a) ++ behind) e' rest :=
      fun behind e' rest hloop => ExprReads.intro (hterm behind) hloop
    exact ⟨hexpr, hterm, primaryReads_parens hexpr⟩
  | pred p =>
    have hprimary : ∀ rest, PrimaryReads (exprTokens (.pred p) ++ rest) (.pred p) rest :=
      fun rest => PrimaryReads.predicate h rest
    have hterm : ∀ rest, TermReads (exprTokens (.pred p) ++ rest) (.pred p) rest := by
      intro rest
      refine TermReads.primary (hprimary rest) ?_
      intro behind he
      obtain ⟨name, tokens, hname, hp⟩ := predicateTokens_head p
      rw [exprTokens, hp] at he
      cases he
      exact hname rfl
    exact ⟨fun behind e' rest hloop => ExprReads.intro (hterm behind) hloop, hterm, hprimary⟩

/-- Printing an expression and parsing its text gives the expression back. -/
theorem parseQuery_printExpr {e : Expr} (h : PrintableExpr e) : parseQuery (String.ofList (printExpr e)) = .ok e := by
  have hend : OperatorsRead e [] e [] := operatorsRead_end e (by intro s behind he; cases he)
  have hreads := (readBack h).expr [] e [] hend
  rw [List.append_nil] at hreads
  obtain ⟨_, hexpr⟩ := hreads
  rw [parseQuery, String.toList_ofList, tokenize_printExpr h, Rust.ok_bind, hexpr, Rust.ok_bind]
  exact if_pos rfl

/-- A chain to the left of a chain in parentheses and of a double negation, with a quote, a backslash and the least integer. -/
theorem parseQuery_printExpr_chain :
    let a := Expr.pred (.nameGlob "\"\\")
    let b := Expr.pred (.valueCmp .le (.int (-9223372036854775808)))
    let e := Expr.or (.and (.and a b) (.or a b)) (.not (.not a))
    parseQuery (String.ofList (printExpr e)) = .ok e := by
  intro a b e
  exact parseQuery_printExpr ⟨⟨⟨trivial, trivial⟩, trivial, trivial⟩, trivial⟩

end Query
end AlefsDb
