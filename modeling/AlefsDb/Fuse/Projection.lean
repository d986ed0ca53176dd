import AlefsDb.Lib.Numbers
import AlefsDb.Types.Codec

/-!
# Structures as directories

The members of a structure as the files of a directory: what the directory lists, what a name in it stands for, and what is left of
the structure when a name is unlinked. The hash that names the members of a set is a parameter, as the standard library promises no
particular one.
-/

namespace AlefsDb
namespace Fuse

/-- `FileType`, as far as a listing has it. -/
inductive FileType where
  | directory
  | regularFile
  deriving DecidableEq, Repr

/-- The file type of a hash or list member: `match v { Value::Scalar(_) => RegularFile, _ => Directory }`. -/
def memberType : Value → FileType
  | .scalar _ => .regularFile
  | _ => .directory

/-- `format!("{n:016x}")`. -/
def hex16 (n : UInt64) : String :=
  let digits := Nat.toDigits 16 n.toNat
  String.ofList (List.replicate (16 - digits.length) '0' ++ digits)

/-- `set_member_name`, with the `DefaultHasher` of the encoding. -/
def setMemberName (hasher : Bytes → UInt64) (v : Value) : String := hex16 (hasher (Codec.encodePayload v))

/-- The name of a tree entry: the text of a string or an integer, and what `Debug` prints of another key. -/
def treeKeyName : Scalar → String
  | .string s => s
  | .int n => String.ofList (i64Text n)
  | .null => "Null"
  | .bool b => "Bool(" ++ (if b then "true" else "false") ++ ")"
  | .float bits => "Float(" ++ String.ofList (natText bits.toNat) ++ ")"
  | .bytes b => "Bytes([" ++ ", ".intercalate (b.map (fun x => String.ofList (natText x.toNat))) ++ "])"

/-- `project_listing`. -/
def projectListing (hasher : Bytes → UInt64) : Value → List (String × FileType)
  | .hash map => map.map (fun e => (e.1, memberType e.2))
  | .list items => items.zipIdx.map (fun item => (String.ofList (natText item.2), memberType item.1))
  | .set members => members.map (fun m => (setMemberName hasher m, .regularFile))
  | .tree map => map.map (fun e => (treeKeyName e.1, .regularFile))
  | .scalar _ => []

/-- `project_child_value`. -/
def projectChildValue (hasher : Bytes → UInt64) (val : Value) (name : String) : Option Value :=
  match val with
  | .hash map => OrdMap.lookup name map
  | .list items => do
    let idx ← parseUsize name.toList
    items[idx]?
  | .set members => members.find? (fun m => setMemberName hasher m = name)
  | .tree map =>
    match (parseI64 name.toList).bind (fun n => OrdMap.lookup (.int n) map) with
    | some v => some v
    | none => OrdMap.lookup (.string name) map
  | .scalar _ => none

/-- `m.remove(key)?` and then the rest of the map. -/
def removeKey {κ : Type} [LinearOrder κ] (key : κ) (map : List (κ × Value)) : Option (List (κ × Value)) :=
  (OrdMap.lookup key map).map (fun _ => OrdMap.eraseKey key map)

/-- `project_unlink`. -/
def projectUnlink (hasher : Bytes → UInt64) (val : Value) (name : String) : Option Value :=
  match val with
  | .hash map => (removeKey name map).map .hash
  | .list items => do
    let idx ← parseUsize name.toList
    if idx < items.length then some (.list (items.eraseIdx idx)) else none
  | .set members =>
    let kept := members.filter (fun m => setMemberName hasher m ≠ name)
    if kept.length = members.length then none else some (.set kept)
  | .tree map =>
    match parseI64 name.toList with
    | some n => (removeKey (.int n) map).map .tree
    | none => (removeKey (.string name) map).map .tree
  | .scalar _ => none

end Fuse
end AlefsDb
