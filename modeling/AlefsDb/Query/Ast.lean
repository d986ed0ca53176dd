import AlefsDb.Types.Path
import AlefsDb.Types.Value

/-!
# Query expressions

What a query is parsed to, and what it is answered with.
-/

namespace AlefsDb

/-- `CmpOp`. -/
inductive CmpOp where
  | eq
  | ne
  | lt
  | le
  | gt
  | ge
  deriving DecidableEq, Repr

/-- `Predicate`. -/
inductive Predicate where
  | pathGlob (pattern : String)
  | typeName (typeName : String)
  | nameGlob (pattern : String)
  | valueCmp (op : CmpOp) (s : Scalar)
  | hasKey (key : String)
  | contains (needle : Value)
  | atIndex (index : UInt64) (op : CmpOp) (s : Scalar)
  | keyCmp (op : CmpOp) (s : Scalar)
  | sizeCmp (op : CmpOp) (n : Int64)
  deriving DecidableEq, Repr

/-- `Expr`. -/
inductive Expr where
  | and (a b : Expr)
  | or (a b : Expr)
  | not (a : Expr)
  | pred (p : Predicate)
  deriving DecidableEq, Repr

/-- `QueryHit`. -/
structure QueryHit where
  path : DbPath
  typeName : String
  deriving DecidableEq

end AlefsDb
