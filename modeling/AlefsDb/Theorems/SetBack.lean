import AlefsDb.Lib.Utf8
import AlefsDb.Theorems.Dispatch
import AlefsDb.Theorems.Saves

/-!
# Setting what was shown

What a request for the value at a path is answered with, a type and a text, has the form of the arguments of a request that sets a
value. It puts the same value there for all values that show themselves (`set_back_iff`): not for a structure that is not empty, which
it empties, and for bytes only where they are the text that shows them.
-/

namespace AlefsDb
namespace Daemon

open Database

variable {std : StdText} {db : Database}

/-! ## Values in text -/

/-- The text that is shown of a value is read as the value. -/
def ShowsItself (std : StdText) : Value → Prop
  | .scalar (.float bits) => Fuse.parseFloat (std.float bits) = some bits
  | .scalar (.bytes b) => utf8 (formatValue std (.scalar (.bytes b))) = b
  | .scalar _ => True
  | v => v.children = []

/-- What the type and the text of a value are read as. -/
theorem parseValue_formatValue (v : Value) : parseValue v.typename (formatValue std v) =
    match v with
    | .scalar (.float bits) => do
      let bits' ← Rust.okOr (Fuse.parseFloat (std.float bits)) (Json.floatError (std.float bits))
      return .scalar (.float bits')
    | .scalar (.bytes b) => .ok (.scalar (.bytes (utf8 (formatValue std (.scalar (.bytes b))))))
    | .scalar s => .ok (.scalar s)
    | .hash _ => .ok (.hash [])
    | .list _ => .ok (.list [])
    | .set _ => .ok (.set [])
    | .tree _ => .ok (.tree []) := by
  match v with
  | .scalar .null | .scalar (.string s) | .scalar (.bytes b) | .hash map | .list items | .set members | .tree map => rfl
  | .scalar (.bool true) | .scalar (.bool false) => rfl
  | .scalar (.int n) => simp [Value.typename, parseValue, formatValue, parseI64_i64Text]
  | .scalar (.float bits) => simp [Value.typename, parseValue, formatValue]

/-- A value is read back from what is shown of it where it shows itself. -/
theorem parse_shown_iff (v : Value) : parseValue v.typename (formatValue std v) = .ok v ↔ ShowsItself std v := by
  rw [parseValue_formatValue]
  match v with
  | .scalar .null | .scalar (.bool b) | .scalar (.int n) | .scalar (.string s) => simp [ShowsItself]
  | .scalar (.bytes b) => simp [ShowsItself]
  | .scalar (.float bits) =>
    cases hparse : Fuse.parseFloat (std.float bits) with
    | none => simp [ShowsItself, hparse]
    | some bits' => simp [ShowsItself, hparse]
  | .hash [] | .hash (_ :: _) | .list [] | .list (_ :: _) | .set [] | .set (_ :: _) | .tree [] | .tree (_ :: _) =>
    simp [ShowsItself, Value.children]

/-- The text that is shown of bytes is short. -/
theorem length_formatBytes {b : Bytes} (hb : b.length < 2 ^ 32) : (utf8 (formatValue std (.scalar (.bytes b)))).length < 2 ^ 32 := by
  have hdigits : (natText b.length).length ≤ 10 := (Nat.length_toDigits_le_iff (by decide) (by decide)).mpr (hb.trans (by decide))
  refine (length_utf8_le _).trans_lt ?_
  simp only [formatValue, lengthText, String.toList_append, String.toList_ofList, List.length_append]
  have hopen : "bytes[".toList.length = 6 := rfl
  have hclose : "]".toList.length = 1 := rfl
  omega

/-- What is read of the text of a value that has been read is well-formed. -/
theorem wellRead_of_shown {v w : Value} (hv : Codec.WellRead v) (h : parseValue v.typename (formatValue std v) = .ok w) :
    Codec.WellRead w := by
  have hempty : ∀ w : Value, w.children = [] → w.KeysAscending → w.LengthsFit → Codec.MembersAscending w → Codec.WellRead w :=
    fun w hw hk hl hm => .intro hk hl hm (by rw [hw]; nofun)
  rw [parseValue_formatValue] at h
  match v with
  | .scalar .null | .scalar (.bool b) | .scalar (.int n) | .scalar (.string s) =>
    cases h
    exact hv
  | .scalar (.bytes b) =>
    cases h
    exact Codec.wellRead_scalar (length_formatBytes hv.small.here)
  | .scalar (.float bits) =>
    obtain ⟨bits', -, h⟩ := Rust.bind_eq_ok.mp h
    cases h
    exact Codec.wellRead_scalar trivial
  | .hash map | .list items | .set members | .tree map =>
    cases h
    exact hempty _ rfl (by simp [Value.KeysAscending, OrdMap.Ascending]) (by simp [Value.LengthsFit]) (by simp [Codec.MembersAscending])

/-! ## Requests -/

/-- A text for a value, in answer to a request for what is at a path, is that of the value that is read there. -/
theorem shown_of_get {s s₁ : Daemon} (hfree : s.poisoned = false) {up : UInt64} {path ty display : String}
    (hget : dispatchWithStats std up (.get path) s = .ok (.value ty display) s₁) (hty : ty ≠ "directory")
    {G : Graph} {next : UInt64} (hstores : Stores s.disk.storage.database.store.map G next) :
    s₁ = s ∧ ∃ p v, DbPath.parse path = .ok p ∧ s.disk.storage.database.HoldsValue p v ∧ ty = v.typename ∧
      display = formatValue std v := by
  have hreading : reading std (.get path) = some _ := rfl
  have hanswer := answer_reading (s := s) hfree up hreading
  rw [dispatchWithStats, countKind] at hget
  rw [hget] at hanswer
  cases hparse : DbPath.parse path with
  | error e =>
    rw [parsePath, hparse] at hanswer
    cases e <;> cases hanswer
  | ok p =>
    rw [parsePath, hparse, Rust.mapErr_ok, Rust.ok_bind] at hanswer
    cases hentry : s.disk.storage.database.get p with
    | error e =>
      rw [hentry] at hanswer
      cases e <;> cases hanswer
    | ok e =>
      rw [hentry, Rust.mapErr_ok, Rust.ok_bind, showEntry] at hanswer
      rcases kind_of_get hstores hentry with ⟨hkind, -⟩ | ⟨hkind, v, hv⟩
      · rw [hkind] at hanswer
        cases hanswer
        exact absurd rfl hty
      · rw [hkind, hv] at hanswer
        cases hanswer
        exact ⟨rfl, p, v, rfl, ⟨e, hentry, hv⟩, rfl, rfl⟩

/-- A request that sets a value is answered with success, and everything is read as before. -/
def SetsBack (std : StdText) (up : UInt64) (path ty display : String) (s : Daemon) : Prop :=
  ∃ m s', dispatchWithStats std up (.set path ty display) s = .ok (.ok m) s' ∧
    ∀ q, s'.disk.storage.database.get q = s.disk.storage.database.get q

/-- What is shown of a value can be set back just where the value shows itself. While no file operation fails, and on every database
that updates have led to: where a request for what is at a path is answered with the type and the text of a value, a request that sets
them at the path is answered with success and leaves everything as it was read, if and only if the value is null, a boolean, an integer,
a string, a float whose text is read as it, bytes that are the text that shows them, or an empty structure. -/
theorem set_back_iff {s s₁ : Daemon} (hfree : s.poisoned = false) (hscript : s.disk.script = [])
    (hupdated : Updated s.disk.storage.database) {up : UInt64} {path ty display : String}
    (hget : dispatchWithStats std up (.get path) s = .ok (.value ty display) s₁) (hty : ty ≠ "directory") (up' : UInt64) :
    ∃ p v, DbPath.parse path = .ok p ∧ s.disk.storage.database.HoldsValue p v ∧
      (SetsBack std up' path ty display s₁ ↔ ShowsItself std v) := by
  obtain ⟨G, next, hstores⟩ := hupdated.sound
  obtain ⟨rfl, p, v, hparse, hv, rfl, rfl⟩ := shown_of_get hfree hget hty hstores
  refine ⟨p, v, hparse, hv, ?_⟩
  obtain ⟨id, w, hG, hread⟩ := (holdsValue_iff hstores).mp hv
  have hwell := Codec.decode_wellRead (decodeNode_eq_ok hread)
  have hconversion : toUpdate std (.set path v.typename (formatValue std v)) =
      some (parseValue v.typename (formatValue std v) >>= fun u => .ok (.call (.set p u))) := by
    simp only [toUpdate, requestToTxn, parsePath, hparse, Rust.mapErr_ok, Rust.ok_bind, Rust.pure_eq_ok]
    cases parseValue v.typename (formatValue std v) <;> rfl
  constructor
  · rintro ⟨m, s', hset, hsame⟩
    rcases parseValue_returns v.typename (formatValue std v) with ⟨u, hu⟩ | ⟨e, he⟩
    · rw [hu, Rust.ok_bind] at hconversion
      obtain ⟨disk, hdb, -, hdispatch⟩ := dispatch_update hfree hscript up' hconversion
      rw [hset] at hdispatch
      cases hcall : Update.run (.call (.set p u)) s₁.disk.storage.database with
      | error e db' =>
        rw [hcall] at hdispatch
        cases e <;> cases hdispatch
      | ok _ db' =>
        rw [hcall] at hdispatch hdb
        cases hdispatch
        have hset : Database.set p u s₁.disk.storage.database = .ok () db' := hcall
        obtain ⟨G', next', hstores', -, id', hG'⟩ := set_ok_cases hstores hset
        have hback := hsame p
        have hu' : decodeNode (Codec.encode u) = .ok u := by
          rw [decodeNode, (wellRead_of_shown hwell hu).decode_encode, Rust.mapErr_ok]
        change disk.storage.database.get p = _ at hback
        rw [hdb, left, get_eq hstores', hG', get_eq hstores, hG] at hback
        simp only [entryOf, hu', hread, Rust.ok_bind, Rust.pure_eq_ok] at hback
        obtain rfl : u = v := by
          injection hback with hentry
          injection hentry with hpath hkind hvalue
          exact Option.some.inj hvalue
        exact (parse_shown_iff u).mp hu
    · rw [he, Rust.err_bind] at hconversion
      rw [dispatch_refused hfree up' hconversion] at hset
      cases hset
  · intro hshows
    rw [(parse_shown_iff v).mpr hshows, Rust.ok_bind] at hconversion
    obtain ⟨disk, hdb, -, hdispatch⟩ := dispatch_update hfree hscript up' hconversion
    obtain ⟨db', hset, hsame⟩ := Fuse.set_same hstores hv
    have hrun : Update.run (.call (.set p v)) s₁.disk.storage.database = .ok () db' := hset
    rw [hrun] at hdispatch hdb
    refine ⟨_, _, hdispatch, fun q => ?_⟩
    rw [← hsame q]
    exact congrArg (fun db => Database.get db q) hdb

/-- A list with an element. -/
def listOfOne : Database := left ((Update.call (.set pathA (.list [.scalar .null]))).run opened)

/-- The text of a list that is not empty is not set back. -/
theorem set_back_list : ∃ s₁, dispatchWithStats noText 0 (.get "/a") (onDatabase listOfOne) = .ok (.value "list" "list[1]") s₁ ∧
    ¬SetsBack noText 0 "/a" "list" "list[1]" s₁ := by
  have hread : (do
      let p ← parsePath "/a"
      let e ← Rust.mapErr NsError.text (listOfOne.get p)
      Rust.mapErr NsError.text (showEntry noText p e) : Rust String Response) = .ok (.value "list" "list[1]") := by decide +kernel
  have hreading : reading noText (.get "/a") = some _ := rfl
  have hget : dispatchWithStats noText 0 (.get "/a") (onDatabase listOfOne) = .ok (.value "list" "list[1]") (onDatabase listOfOne) :=
    (answer_reading (s := onDatabase listOfOne) rfl 0 hreading).trans (congrArg (readAnswer (onDatabase listOfOne)) hread)
  have hupdated : Updated listOfOne := updated_opened.left (.call (.set pathA (.list [.scalar .null])))
  obtain ⟨p, v, hparse, hv, hiff⟩ := set_back_iff (s := onDatabase listOfOne) rfl rfl hupdated hget (by decide) 0
  refine ⟨_, hget, fun hset => ?_⟩
  have hp : DbPath.parse "/a" = .ok pathA := by decide +kernel
  obtain rfl : pathA = p := Except.ok.inj (hp.symm.trans hparse)
  have hlist : listOfOne.get pathA = .ok ⟨pathA, .value, some (.list [.scalar .null])⟩ := rfl
  obtain ⟨e, he, hev⟩ := hv
  cases hlist.symm.trans he
  cases hev
  cases hiff.mp hset

end Daemon
end AlefsDb
