import AlefsDb.Lemmas.Returns
import AlefsDb.Query.Eval
import AlefsDb.Theorems.QueryText

/-!
# Queries in normal form

Whatever its blanks, its quotes and its parentheses are, a query that the parser accepts and that has no float can be written as its
expression is printed: the text is accepted, with the same expression and the same answers (`accepted_in_normal_form`).
-/

namespace AlefsDb
namespace Query

/-! ## Predicates -/

/-- All predicates of an expression have a property. -/
def AllPredicates (P : Predicate → Prop) : Expr → Prop
  | .and a b => AllPredicates P a ∧ AllPredicates P b
  | .or a b => AllPredicates P a ∧ AllPredicates P b
  | .not a => AllPredicates P a
  | .pred p => P p

/-- What follows of each predicate holds of all. -/
theorem AllPredicates.mono {P Q : Predicate → Prop} {R : Predicate → Prop} (hPQ : ∀ p, P p → Q p → R p) {e : Expr}
    (h : AllPredicates P e) (h' : AllPredicates Q e) : AllPredicates R e := by
  induction e with
  | and a b iha ihb => exact ⟨iha h.1 h'.1, ihb h.2 h'.2⟩
  | or a b iha ihb => exact ⟨iha h.1 h'.1, ihb h.2 h'.2⟩
  | not a ih => exact ih h h'
  | pred p => exact hPQ p h h'

/-- An expression is printable where its predicates are. -/
theorem printableExpr_iff {e : Expr} : PrintableExpr e ↔ AllPredicates PrintablePredicate e := by
  induction e with
  | and a b iha ihb => exact and_congr iha ihb
  | or a b iha ihb => exact and_congr iha ihb
  | not a ih => exact ih
  | pred p => exact Iff.rfl

/-- A scalar argument is no float. -/
def NoFloatPredicate : Predicate → Prop
  | .valueCmp _ s => ∀ bits, s ≠ .float bits
  | .contains needle => ∀ bits, needle ≠ .scalar (.float bits)
  | .atIndex _ _ s => ∀ bits, s ≠ .float bits
  | .keyCmp _ s => ∀ bits, s ≠ .float bits
  | _ => True

/-- What the parser reads as a scalar is no bytes. -/
theorem printable_of_parsed {tokens rest : List Tok} {s : Scalar} (h : parseScalarValue tokens = .ok (s, rest))
    (hfloat : ∀ bits, s ≠ .float bits) : Printable s := by
  unfold parseScalarValue at h
  split at h <;> cases h <;> first | trivial | exact absurd rfl (hfloat _)

/-- A scalar that has been parsed, other than a float, is printable. -/
theorem printable_of_parsedCmp {tokens rest : List Tok} {op : CmpOp} {s : Scalar} (h : parseCmpScalar tokens = .ok ((op, s), rest))
    (hfloat : ∀ bits, s ≠ .float bits) : Printable s := by
  obtain ⟨⟨op', rest'⟩, -, h⟩ := Rust.bind_eq_ok.mp h
  obtain ⟨⟨s', rest''⟩, hs, h⟩ := Rust.bind_eq_ok.mp h
  cases h
  exact printable_of_parsed hs hfloat

/-- An index that is read is an `i64`. -/
theorem index_of_parsed {tokens rest : List Tok} {index : UInt64} (h : expectUint tokens = .ok (index, rest)) : index.toNat < 2 ^ 63 := by
  obtain ⟨⟨n, rest'⟩, -, h⟩ := Rust.bind_eq_ok.mp h
  dsimp only at h
  split at h
  · cases h
  · rename_i hnonneg
    cases h
    rw [Int64.lt_iff_toInt_lt, Int64.toInt_zero, not_lt] at hnonneg
    have hlt := Int64.toInt_lt n
    have hnat : n.toUInt64.toNat = n.toInt.toNat := by
      rw [Int64.toNat_toUInt64_of_le (by simpa [Int64.le_iff_toInt_le] using hnonneg)]
      rfl
    omega

/-- What the parser reads as a predicate can be printed, unless it has a float. -/
theorem printable_of_parsedPredicate {tokens rest : List Tok} {p : Predicate} (h : parsePredicate tokens = .ok (p, rest))
    (hfloat : NoFloatPredicate p) : PrintablePredicate p := by
  unfold parsePredicate at h
  split at h
  case h_1 | h_2 | h_3 | h_5 =>
    obtain ⟨⟨s, rest'⟩, -, h⟩ := Rust.bind_eq_ok.mp h
    cases h
    trivial
  case h_4 | h_8 =>
    obtain ⟨⟨⟨op, s⟩, rest'⟩, hs, h⟩ := Rust.bind_eq_ok.mp h
    cases h
    exact printable_of_parsedCmp hs hfloat
  case h_6 =>
    obtain ⟨⟨s, rest'⟩, hs, h⟩ := Rust.bind_eq_ok.mp h
    cases h
    exact ⟨s, rfl, printable_of_parsed hs (fun bits he => hfloat bits (congrArg Value.scalar he))⟩
  case h_7 =>
    obtain ⟨⟨index, rest'⟩, hindex, h⟩ := Rust.bind_eq_ok.mp h
    obtain ⟨⟨⟨op, s⟩, rest''⟩, hs, h⟩ := Rust.bind_eq_ok.mp h
    cases h
    exact ⟨index_of_parsed hindex, printable_of_parsedCmp hs hfloat⟩
  case h_9 =>
    obtain ⟨⟨op, rest'⟩, -, h⟩ := Rust.bind_eq_ok.mp h
    obtain ⟨⟨n, rest''⟩, -, h⟩ := Rust.bind_eq_ok.mp h
    cases h
    trivial
  all_goals cases h

/-! ## Expressions -/

/-- A property of all predicates that are read. -/
def Read (P : Predicate → Prop) : Prop := ∀ {tokens p rest}, parsePredicate tokens = .ok (p, rest) → P p

variable {P : Predicate → Prop}

/-- A primary expression: what is in parentheses is shorter. -/
theorem parsePrimary_all (hP : Read P) {tokens : List Tok}
    (ih : ∀ behind : List Tok, behind.length < tokens.length → ∀ r, parseExpr behind = .ok r → AllPredicates P r.1)
    {r : Expr × Fewer tokens} (h : parsePrimary tokens = .ok r) : AllPredicates P r.1 := by
  rw [parsePrimary.eq_def] at h
  split at h
  · obtain ⟨⟨e, rest, hlt⟩, he, h⟩ := Rust.bind_eq_ok.mp h
    dsimp only at h
    split at h
    · cases h
      exact ih _ (Nat.lt_succ_self _) _ he
    · cases h
  · split at h
    · cases h
    · rename_i p rest hp
      cases h
      exact hP hp

/-- The predicates of what is read have a property, where all that is shorter has it. -/
structure ParsedAll (P : Predicate → Prop) (tokens : List Tok) : Prop where
  expr : ∀ r, parseExpr tokens = .ok r → AllPredicates P r.1
  term : ∀ r, parseTerm tokens = .ok r → AllPredicates P r.1
  operators : ∀ left r, AllPredicates P left → parseOperators left tokens = .ok r → AllPredicates P r.1

/-- What holds of each predicate that is read holds of all predicates of an expression that is parsed. -/
theorem parsed_all (hP : Read P) (tokens : List Tok) : ParsedAll P tokens := by
  induction hn : tokens.length using Nat.strong_induction_on generalizing tokens with
  | _ n ih =>
    subst hn
    have hprimary : ∀ shorter : List Tok, shorter.length ≤ tokens.length → ∀ r, parsePrimary shorter = .ok r → AllPredicates P r.1 :=
      fun shorter hle r hr =>
        parsePrimary_all hP (fun behind hlt => (ih behind.length (Nat.lt_of_lt_of_le hlt hle) behind rfl).expr) hr
    have hterm : ∀ r, parseTerm tokens = .ok r → AllPredicates P r.1 := by
      intro r h
      rw [parseTerm.eq_def] at h
      split at h
      · rename_i n behind
        split at h
        · obtain ⟨⟨inner, rest, hlt⟩, hinner, h⟩ := Rust.bind_eq_ok.mp h
          cases h
          exact hprimary behind (Nat.le_succ _) _ hinner
        · exact hprimary _ le_rfl r h
      · exact hprimary _ le_rfl r h
    refine ⟨fun r h => ?_, hterm, fun left r hleft h => ?_⟩
    · rw [parseExpr.eq_def] at h
      obtain ⟨⟨left, rest, hlt⟩, hleft, h⟩ := Rust.bind_eq_ok.mp h
      obtain ⟨⟨e, rest', hlt'⟩, he, h⟩ := Rust.bind_eq_ok.mp h
      cases h
      exact (ih rest.length hlt rest rfl).operators left _ (hterm _ hleft) he
    · rw [parseOperators.eq_def] at h
      split at h
      · rename_i op behind
        split at h
        · cases h
          exact hleft
        · obtain ⟨⟨right, rest, hlt⟩, hright, h⟩ := Rust.bind_eq_ok.mp h
          obtain ⟨⟨e, rest', hlt'⟩, he, h⟩ := Rust.bind_eq_ok.mp h
          cases h
          have hright' := (ih behind.length (Nat.lt_succ_self _) behind rfl).term _ hright
          refine (ih rest.length (hlt.trans (Nat.lt_succ_self _)) rest rfl).operators _ _ ?_ he
          split
          · exact ⟨hleft, hright'⟩
          · exact ⟨hleft, hright'⟩
      · cases h
        exact hleft

/-- The predicates of a query that is accepted. -/
theorem parseQuery_all (hP : Read P) {text : String} {e : Expr} (h : parseQuery text = .ok e) : AllPredicates P e := by
  obtain ⟨tokens, -, h⟩ := Rust.bind_eq_ok.mp h
  obtain ⟨⟨e', rest⟩, he, h⟩ := Rust.bind_eq_ok.mp h
  dsimp only at h
  split at h
  · cases h
    exact (parsed_all hP tokens).expr _ he
  · cases h

/-! ## Texts -/

/-- The expression has no float. -/
def FloatFreeExpr (e : Expr) : Prop := AllPredicates NoFloatPredicate e

/-- The text that an expression is printed as. -/
def normalText (e : Expr) : String := String.ofList (printExpr e)

/-- What can be printed is read back. -/
theorem parse_normalText {e : Expr} (h : PrintableExpr e) : parseQuery (normalText e) = .ok e := by
  have hend : OperatorsRead e [] e [] := operatorsRead_end e (by intro s behind he; cases he)
  have hreads := (readBack h).expr [] e [] hend
  rw [List.append_nil] at hreads
  obtain ⟨_, hexpr⟩ := hreads
  rw [parseQuery, normalText, String.toList_ofList, tokenize_printExpr h, Rust.ok_bind, hexpr, Rust.ok_bind]
  exact if_pos rfl

/-- What the parser accepts has a normal form. Every query that is accepted and has no float can be written as its expression is
printed, with single spaces, strings in quotes, and parentheses only where they are needed: that text is accepted too, with the same
expression, and on every database it has the answer of the query. -/
theorem accepted_in_normal_form {text : String} {e : Expr} (h : parseQuery text = .ok e) (hfloat : FloatFreeExpr e) :
    parseQuery (normalText e) = .ok e ∧ ∀ db, execute db (normalText e) = execute db text := by
  have hprintable : PrintableExpr e :=
    printableExpr_iff.mpr ((parseQuery_all (P := fun p => NoFloatPredicate p → PrintablePredicate p)
      (fun hp hf => printable_of_parsedPredicate hp hf) h).mono (fun _ hp hf => hp hf) hfloat)
  have hnormal := parse_normalText hprintable
  exact ⟨hnormal, fun db => by rw [execute, execute, h, hnormal]⟩

/-- A query with a word for a string, a path without quotes, and parentheses that it need not have. -/
theorem accepted_in_normal_form_words : ∃ e, parseQuery "((path /a/*)\tAND (NOT value = yes))" = .ok e ∧
    normalText e = "path \"/a/*\" AND NOT value = \"yes\"" ∧ parseQuery "path \"/a/*\" AND NOT value = \"yes\"" = .ok e := by
  have h : parseQuery "((path /a/*)\tAND (NOT value = yes))" =
      .ok (.and (.pred (.pathGlob "/a/*")) (.not (.pred (.valueCmp .eq (.string "yes"))))) := by decide +kernel
  have hnormal := (accepted_in_normal_form h ⟨trivial, fun _ => nofun⟩).1
  exact ⟨_, h, by decide +kernel, hnormal⟩

end Query
end AlefsDb
