import AlefsDb.Lib.Runs
import AlefsDb.Namespace.Txn

/-!
# Runs of a database

What is done with a database: calls, transactions, and opening it again. A run starts from the database that is opened on an empty
store, and goes on after a command that fails.
-/

namespace AlefsDb

/-- The path that an operation is on. -/
def TxnOp.path : TxnOp → DbPath
  | mkdir path => path
  | set path _ => path
  | delete path => path
  | hashSet path _ _ => path
  | listPush path _ => path
  | setAdd path _ => path
  | treeSet path _ _ => path

/-- What is done with a database. -/
inductive Command where
  | call (op : TxnOp)
  | applyTxn (ops : List TxnOp)
  | reopen

namespace Command

/-- The operations of a command. -/
def ops : Command → List TxnOp
  | call op => [op]
  | applyTxn ops => ops
  | reopen => []

/-- The method that is called. -/
def run : Command → DbM Unit
  | call op => Database.call op
  | applyTxn ops => Database.applyTxn ops
  | reopen => Database.openStore

/-- All paths are results of the parser. -/
def Parsed (c : Command) : Prop := ∀ op ∈ c.ops, ∃ text, DbPath.parse text = .ok op.path

end Command

namespace Database

/-- The database that a method leaves. -/
def left : EStateM.Result (Failure NsError) Database Unit → Database
  | .ok _ db => db
  | .error _ db => db

/-- Why a method stops, if it does. -/
def failure : EStateM.Result (Failure NsError) Database Unit → Option (Failure NsError)
  | .ok _ _ => none
  | .error e _ => some e

/-- A method that has not failed has succeeded. -/
theorem eq_ok_of_failure {r : EStateM.Result (Failure NsError) Database Unit} (h : failure r = none) : r = .ok () (left r) := by
  cases r with
  | ok a db => rfl
  | error e db => cases h

/-- A method that has failed gives its error. -/
theorem eq_error_of_failure {r : EStateM.Result (Failure NsError) Database Unit} {e : Failure NsError}
    (h : failure r = some e) : r = .error e (left r) := by
  cases r with
  | ok a db => cases h
  | error e' db =>
    cases h
    rfl

/-- The database that is opened on an empty store. -/
def opened : Database := left (openStore { store := MemoryStorage.new })

/-- A command, whether it fails or not. -/
def step (db : Database) (c : Command) : Option Database := some (left (c.run db))

/-- The database is reached from the one opened on an empty store, by commands that all meet a condition. -/
def Reached (guard : Command → Prop) (db : Database) : Prop := ∃ cmds, Run step (fun _ c => guard c) opened cmds db

/-- The path `/a`. -/
def pathA : DbPath := ⟨["a"], by decide⟩

end Database
end AlefsDb
