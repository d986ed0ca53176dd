import AlefsDb.Fuse.Calls
import AlefsDb.Fuse.TypeAt
import AlefsDb.Lemmas.Reached

/-!
# When edits through the mount keep types

A flush writes a scalar of the type that is there, and `create` writes an empty string over whatever is there. So a run of callbacks
and of remote commands keeps the types as long as each name that is created is new or a string, and what goes into a hash fits the
encoding.
-/

namespace AlefsDb
namespace Fuse

open Database

/-- A callback that the kernel makes. -/
inductive Callback where
  | lookup (parent : UInt64) (name : Bytes)
  | create (parent : UInt64) (name : Bytes)
  | file (ino : UInt64) (c : FileCall)

/-- What happens to the database of a mount: a callback, or a command of a remote client. -/
inductive Action where
  | fuse (c : Callback)
  | rpc (c : Command)

section Steps

variable (hasher : Bytes → UInt64)

/-- The callback. -/
def Callback.run : Callback → FsM Unit
  | lookup parent name => do
    let _ ← Fuse.lookup hasher parent name
  | create parent name => do
    let _ ← Fuse.create parent name
  | file ino c => c.run ino

/-- An action, whatever it replies. -/
def AlefsFs.step (fs : AlefsFs) : Action → Option AlefsFs
  | .fuse c => some (left (c.run hasher fs))
  | .rpc c => some { fs with db := Database.left (c.run fs.db) }

end Steps

/-- What is created is new, or it is a string already; and the name of a hash member fits the encoding. -/
structure CreateKeeps (fs : AlefsFs) (parentPath name : String) : Prop where
  inHash : ∀ p m, DbPath.parse parentPath = .ok p → fs.db.HoldsValue p (.hash m) →
    (utf8 name).length < 2 ^ 32 ∧ ∀ w, OrdMap.lookup name m = some w → w.typename = "string"
  atPath : ∀ p w, DbPath.parse (childPath parentPath name) = .ok p → fs.db.HoldsValue p w → w.typename = "string"

/-- What is flushed into a hash fits the encoding. -/
def FlushKeeps (fs : AlefsFs) (ino : UInt64) : Prop :=
  ∀ data text p parent name m, fs.dirty ino = some data → fs.pathForIno ino = some text → DbPath.parse text = .ok p →
    p.parent = some parent → p.segments.getLast? = some name → fs.db.HoldsValue parent (.hash m) →
    data.length < 2 ^ 32 ∧ (utf8 name).length < 2 ^ 32

/-- The condition on an action under which it keeps the types. -/
def KeepsTypesWhen (fs : AlefsFs) : Action → Prop
  | .fuse (.create parent name) => ∀ parentPath n, fs.pathForIno parent = some parentPath → fromUtf8 name = some n →
      CreateKeeps fs parentPath n
  | .fuse (.file ino .flush) => FlushKeeps fs ino
  | .fuse (.file ino .fsync) => FlushKeeps fs ino
  | _ => True

/-! ## What may be set -/

section Sets

variable {db db' : Database} {G : Graph} {next : UInt64} {path : DbPath}

/-- The name of the type of a scalar is that of scalars only. -/
theorem exists_scalar_of_typename {v : Value} {s : Scalar} (h : v.typename = (Value.scalar s).typename) : ∃ s', v = .scalar s' := by
  cases v with
  | scalar s' => exact ⟨s', rfl⟩
  | _ => cases s <;> exact absurd h (by simp [Value.typename])

/-- A scalar of the type that is there. -/
theorem keepsTypes_of_set_scalar (h : Stores db.store.map G next) {s : Scalar}
    (hset : Database.set path (.scalar s) db = .ok () db')
    (hs : ∀ w, db.HoldsValue path w → w.typename = (Value.scalar s).typename) : KeepsTypes db db' := by
  refine keepsTypes_of_set h hset (fun a b ha hb => ?_)
  have hname := typename_of_decodeNode hb
  obtain ⟨s', rfl⟩ := exists_scalar_of_typename hname
  exact Value.typesAgree_scalar ((hs a ha).trans hname.symm)

/-- A hash with `2 ^ 32` entries is written as one without entries, which is not read because of the entries behind it. -/
theorem decodeNode_full_hash {map : List (String × Value)} {v : Value} (hlength : map.length = 2 ^ 32) :
    Database.decodeNode (Codec.encode (.hash map)) ≠ .ok v := by
  intro h
  have hcount : Codec.writeU32 map.length = Codec.writeU32 0 := by
    rw [hlength]
    decide
  have hread : Codec.decodeValue (Codec.encodeValue (.hash map)).length (Codec.encodeValue (.hash map)) =
      .ok (.hash [], Codec.encodeHash map) := by
    rw [Codec.encodeValue, List.length_cons, Codec.decodeValue_hash, hcount, Codec.readU32_append _ (by decide), Rust.ok_bind]
    rfl
  have hrest : Codec.encodeHash map ≠ [] := by
    obtain ⟨e, rest, rfl⟩ := List.exists_cons_of_length_pos (l := map) (by omega)
    rw [Codec.encodeHash]
    simp [Codec.writeStr, Codec.writeU32, leBytes]
  have hversion : ¬Codec.codecVersion ≠ Codec.codecVersion := not_not_intro rfl
  have hdecode := decodeNode_eq_ok h
  rw [Codec.encode, Codec.decode, if_neg hversion, hread, Rust.ok_bind] at hdecode
  dsimp only at hdecode
  rw [if_pos hrest] at hdecode
  exact absurd hdecode (Rust.err_ne_ok _ _)

/-- A hash with one scalar of the type that is there, or a new one. -/
theorem keepsTypes_of_set_hash (h : Stores db.store.map G next) {m : List (String × Value)} {name : String} {s : Scalar}
    (hm : db.HoldsValue path (.hash m)) (hset : Database.set path (.hash (OrdMap.insertEntry name (.scalar s) m)) db = .ok () db')
    (hs : ∀ w, OrdMap.lookup name m = some w → w.typename = (Value.scalar s).typename) (hname : (utf8 name).length < 2 ^ 32)
    (hfits : s.LengthFits) : KeepsTypes db db' := by
  obtain ⟨hordered, hsmall⟩ := hm.wellRead h
  have hlength := OrdMap.length_insertEntry_le name (.scalar s) m
  refine keepsTypes_of_set h hset (fun a b ha hb => ?_)
  cases ha.unique hm
  by_cases hfull : (OrdMap.insertEntry name (.scalar s) m).length < 2 ^ 32
  · have hinside : (Value.hash (OrdMap.insertEntry name (.scalar s) m)).Small := by
      refine .intro _ ⟨hfull, fun e he => ?_⟩ (fun w hw => ?_)
      · rcases OrdMap.mem_insertEntry he with rfl | he
        · exact hname
        · exact hsmall.here.2 e he
      · obtain ⟨e, he, rfl⟩ := List.mem_map.mp hw
        rcases OrdMap.mem_insertEntry he with rfl | he
        · exact Value.everywhere_scalar hfits
        · exact hsmall.inside (List.mem_map_of_mem he)
    have hdecode := Codec.decode_encode (hordered.hash_insert name (Value.everywhere_scalar trivial)) hinside
    rw [decodeNode_eq_ok hb] at hdecode
    cases hdecode
    exact (Value.typesAgree_insert hs).canon
  · have hcount : m.length < 2 ^ 32 := hsmall.here.1
    exact absurd hb (decodeNode_full_hash (by omega))

end Sets

/-! ## The callbacks -/

/-- The database holds the rows of a graph, and what it held before has kept its type. -/
def Fine (fs s : AlefsFs) : Prop := (∃ G next, Stores s.db.store.map G next) ∧ KeepsTypes fs.db s.db

section Callbacks

variable {fs : AlefsFs} {G : Graph} {next : UInt64}

theorem fine_of_db_eq (h : Stores fs.db.store.map G next) {s : AlefsFs} (hs : s.db = fs.db) : Fine fs s := by
  unfold Fine
  rw [hs]
  exact ⟨⟨G, next, h⟩, keepsTypes_refl fs.db⟩

theorem orReply_triple {α : Type} (o : Option α) (e : Errno) {Q : AlefsFs → Prop} (hQ : Q fs) :
    Triple (fun s => s = fs) (orReply o e) (fun a s => s = fs ∧ o = some a) (fun _ s => Q s) := by
  intro s hs
  subst hs
  cases o with
  | some a => exact ⟨rfl, rfl⟩
  | none => exact hQ

/-- Reading leaves the file system as it is. -/
theorem getEntry_triple (path : DbPath) {Q : AlefsFs → Prop} (hQ : Q fs) :
    Triple (fun s => s = fs) (getEntry path) (fun r s => s = fs ∧ ∀ e, r = .ok e → fs.db.get path = .ok e) (fun _ s => Q s) := by
  intro s hs
  subst hs
  cases hget : s.db.get path with
  | ok e =>
    rw [getEntry_of_ok hget]
    exact ⟨rfl, fun e' he' => by cases he'; rfl⟩
  | error e =>
    cases e with
    | err e =>
      rw [getEntry_of_err hget]
      exact ⟨rfl, fun e' he' => by cases he'⟩
    | panic | outOfFuel =>
      unfold getEntry withDb
      rw [read_of_error hget]
      exact hQ

theorem valueAt_triple (path : DbPath) {Q : AlefsFs → Prop} (hQ : Q fs) :
    Triple (fun s => s = fs) (valueAt path) (fun o s => s = fs ∧ ∀ v, o = some v → fs.db.HoldsValue path v) (fun _ s => Q s) := by
  unfold valueAt
  refine Triple.bind (getEntry_triple path hQ) (fun r => Triple.of_fact (fun hr => ?_))
  cases r with
  | ok e => exact Triple.pure (fun s hs => ⟨hs, fun v hv => ⟨e, hr e rfl, hv⟩⟩)
  | error e => exact Triple.pure (fun s hs => ⟨hs, fun v hv => by cases hv⟩)

/-- A `set` either fails and leaves the file system as it is, or it has set the value. -/
theorem withDb_set_triple (h : Stores fs.db.store.map G next) (path : DbPath) (v : Value) {Q : AlefsFs → Prop} (hQ : Q fs) :
    Triple (fun s => s = fs) (withDb (Database.set path v))
      (fun r s => (∃ e, r = .error e ∧ s = fs) ∨ ∃ db', r = .ok () ∧ Database.set path v fs.db = .ok () db' ∧
        s = { fs with db := db' }) (fun _ s => Q s) := by
  intro s hs
  subst hs
  have hset := Database.set_eq h path v
  cases hplan : G.planSet next path v with
  | ok c =>
    rw [hplan] at hset
    rw [withDb_of_ok hset]
    exact Or.inr ⟨_, rfl, hset, rfl⟩
  | error e =>
    rw [hplan] at hset
    cases e with
    | err e =>
      rw [withDb_of_err hset]
      exact Or.inl ⟨e, rfl, rfl⟩
    | panic | outOfFuel =>
      unfold withDb
      rw [hset]
      exact hQ

/-- `set` keeps the types where it keeps them when it succeeds. -/
theorem fine_of_set (h : Stores fs.db.store.map G next) {path : DbPath} {v : Value} {db' : Database}
    (hset : Database.set path v fs.db = .ok () db') (hv : KeepsTypes fs.db db') {s : AlefsFs} (hs : s = { fs with db := db' }) :
    Fine fs s := by
  subst hs
  obtain ⟨G', next', h', -⟩ := set_ok_cases h hset
  exact ⟨⟨G', next', h'⟩, hv⟩

/-- A `set` that keeps the types leaves a mount fine. -/
theorem setOrReply_triple (h : Stores fs.db.store.map G next) {path : DbPath} {v : Value}
    (hv : ∀ db', Database.set path v fs.db = .ok () db' → KeepsTypes fs.db db') :
    Triple (fun s => s = fs) (setOrReply path v) (fun _ s => Fine fs s) (fun _ s => Fine fs s) := by
  have hsame : Fine fs fs := fine_of_db_eq h rfl
  unfold setOrReply
  refine Triple.bind (withDb_set_triple h path v hsame) (fun r s hs => ?_)
  rcases hs with ⟨e, rfl, rfl⟩ | ⟨db', rfl, hset, hs⟩
  · exact hsame
  · exact fine_of_set h hset (hv db' hset) hs

/-- A new inode leaves the database as it is. -/
theorem inoForPath_triple (path : String) :
    Triple (fun s => Fine fs s) (inoForPath path) (fun _ s => Fine fs s) (fun _ s => Fine fs s) := by
  intro s hs
  have hrun : Triple (fun t => t = s) (inoForPath path) (fun _ t => Fine fs t) (fun _ t => Fine fs t) := by
    unfold inoForPath
    refine Triple.bind Triple.get (fun a => Triple.of_fact (fun ha => ?_))
    subst ha
    cases a.pathToIno path with
    | some ino => exact Triple.pure (fun t ht => ht ▸ hs)
    | none =>
      refine Triple.ite (fun _ => ?_) (fun _ => Triple.throw (fun t ht => ht ▸ hs))
      exact fun t ht => hs
  exact hrun s rfl

/-- A hash that is read is held at the path. -/
theorem holdsValue_of_bind_asHash {o : Option Value} {path : DbPath} {m : List (String × Value)}
    (ho : ∀ v, o = some v → fs.db.HoldsValue path v) (hm : o.bind Value.asHash = some m) : fs.db.HoldsValue path (.hash m) := by
  obtain ⟨v, hv, hhash⟩ := Option.bind_eq_some_iff.mp hm
  rw [Value.asHash_eq_some] at hhash
  exact hhash ▸ ho v hv

/-- A new member of a hash leaves a mount fine where it keeps the types. -/
theorem createInHash_triple (h : Stores fs.db.store.map G next) {parentPath name : String} (hkeeps : CreateKeeps fs parentPath name) :
    Triple (fun s => s = fs) (createInHash parentPath name)
      (fun b s => b = true ∧ Fine fs s ∨ b = false ∧ s = fs) (fun _ s => Fine fs s) := by
  have hsame : Fine fs fs := fine_of_db_eq h rfl
  have hempty : (Scalar.string "").LengthFits := by
    change (utf8 "").length < 2 ^ 32
    decide
  have hfalse : Triple (fun s => s = fs) (pure false : FsM Bool)
      (fun b s => b = true ∧ Fine fs s ∨ b = false ∧ s = fs) (fun _ s => Fine fs s) := fun s hs => Or.inr ⟨rfl, hs⟩
  unfold createInHash
  cases hparent : DbPath.parse parentPath with
  | error e => exact hfalse
  | ok parentDb =>
    refine Triple.bind (valueAt_triple parentDb hsame) (fun o => Triple.of_fact (fun ho => ?_))
    cases hhash : o.bind Value.asHash with
    | none => exact hfalse
    | some m =>
      have hm := holdsValue_of_bind_asHash ho hhash
      obtain ⟨hname, htypes⟩ := hkeeps.inHash _ m hparent hm
      refine Triple.bind (withDb_set_triple h parentDb _ hsame) (fun r s hs => ?_)
      rcases hs with ⟨e, rfl, hs⟩ | ⟨db', rfl, hset, hs⟩
      · exact Or.inr ⟨rfl, hs⟩
      · exact Or.inl ⟨rfl, fine_of_set h hset (keepsTypes_of_set_hash h hm hset htypes hname hempty) hs⟩

/-- `create` leaves a mount fine where it keeps the types. -/
theorem create_triple (h : Stores fs.db.store.map G next) {parent : UInt64} {name : Bytes}
    (hkeeps : KeepsTypesWhen fs (.fuse (.create parent name))) :
    Triple (fun s => s = fs) (create parent name) (fun _ s => Fine fs s) (fun _ s => Fine fs s) := by
  have hsame : Fine fs fs := fine_of_db_eq h rfl
  unfold create
  refine Triple.bind Triple.get (fun a => Triple.of_fact (fun ha => ?_))
  subst ha
  refine Triple.bind (orReply_triple _ _ hsame) (fun parentPath => Triple.of_fact (fun hparent => ?_))
  refine Triple.bind (orReply_triple _ _ hsame) (fun n => Triple.of_fact (fun hn => ?_))
  have hcreate := hkeeps parentPath n hparent hn
  refine Triple.bind (createInHash_triple h hcreate) (fun b => Triple.ite (fun hb => ?_) (fun hb => ?_))
  · intro s hs
    exact inoForPath_triple _ s (hs.resolve_right (fun h => by simp [hb] at h)).2
  · have hsame' : ∀ s, b = true ∧ Fine a s ∨ b = false ∧ s = a → s = a := fun s hs =>
      (hs.resolve_left (fun h => hb h.1)).2
    cases hchild : DbPath.parse (childPath parentPath n) with
    | error e => exact Triple.throw (fun s hs => hsame' s hs ▸ hsame)
    | ok path =>
      intro s hs
      obtain rfl := hsame' s hs
      have hset : ∀ db', Database.set path emptyString s.db = .ok () db' → KeepsTypes s.db db' := fun db' hset =>
        keepsTypes_of_set_scalar h hset (fun w hw => hcreate.atPath path w hchild hw)
      exact Triple.bind (setOrReply_triple h hset) (fun _ => inoForPath_triple _) s rfl

/-- What is read from data that fits the encoding fits it too. -/
theorem lengthFits_of_parseScalarText {existing s : Scalar} {data : Bytes} (h : parseScalarText existing data = some s)
    (hdata : data.length < 2 ^ 32) : s.LengthFits := by
  have hname := typename_of_parseScalarText h
  cases existing with
  | bytes b =>
    cases h
    exact hdata
  | string t =>
    obtain ⟨u, hu, rfl⟩ := Option.map_eq_some_iff.mp h
    have hutf8 := utf8_of_fromUtf8 hu
    change (utf8 u).length < 2 ^ 32
    exact hutf8 ▸ hdata
  | _ => cases s <;> first | exact trivial | exact absurd hname (by simp [Value.typename])

/-- Text is read as a scalar of the type of the existing one. -/
theorem newScalar_triple (existing : Option Value) (data : Bytes) (hsame : Fine fs fs) :
    Triple (fun s => s = fs) (newScalar existing data)
      (fun newS s => s = fs ∧ ∃ old, existing = some (.scalar old) ∧ parseScalarText old data = some newS) (fun _ s => Fine fs s) := by
  unfold newScalar
  refine Triple.bind (orReply_triple _ _ hsame) (fun old => Triple.of_fact (fun hold => ?_))
  obtain ⟨v, hv, hscalar⟩ := Option.bind_eq_some_iff.mp hold
  rw [Value.asScalar_eq_some] at hscalar
  subst hscalar
  exact (orReply_triple _ _ hsame).conseq (fun s hs => hs) (fun newS s hs => ⟨hs.1, old, hv, hs.2⟩) (fun e s hs => hs)

/-- What a flush sets keeps the types. -/
theorem commitTarget_triple (h : Stores fs.db.store.map G next) {path : DbPath} {data : Bytes}
    (hkeeps : ∀ parent name m, path.parent = some parent → path.segments.getLast? = some name →
      fs.db.HoldsValue parent (.hash m) → data.length < 2 ^ 32 ∧ (utf8 name).length < 2 ^ 32) :
    Triple (fun s => s = fs) (commitTarget path data)
      (fun r s => s = fs ∧ ∀ db', Database.set r.1 r.2 fs.db = .ok () db' → KeepsTypes fs.db db') (fun _ s => Fine fs s) := by
  have hsame : Fine fs fs := fine_of_db_eq h rfl
  unfold commitTarget
  refine Triple.bind (getEntry_triple path hsame) (fun r => Triple.of_fact (fun hr => ?_))
  cases r with
  | ok entry =>
    refine Triple.bind (newScalar_triple _ data hsame) (fun newS => Triple.of_fact (fun hnew => ?_))
    obtain ⟨old, hvalue, hs⟩ := hnew
    refine Triple.pure (fun s heq => ⟨heq, fun db' hset => keepsTypes_of_set_scalar h hset (fun w hw => ?_)⟩)
    cases HoldsValue.unique ⟨entry, hr entry rfl, hvalue⟩ hw
    exact (typename_of_parseScalarText hs).symm
  | error e =>
    refine Triple.bind (orReply_triple _ _ hsame) (fun parent => Triple.of_fact (fun hparent => ?_))
    refine Triple.bind (orReply_triple _ _ hsame) (fun name => Triple.of_fact (fun hname => ?_))
    refine Triple.bind (valueAt_triple parent hsame) (fun o => Triple.of_fact (fun ho => ?_))
    refine Triple.bind (orReply_triple _ _ hsame) (fun m => Triple.of_fact (fun hhash => ?_))
    have hm := holdsValue_of_bind_asHash ho hhash
    obtain ⟨hdata, hlength⟩ := hkeeps parent name m hparent hname hm
    refine Triple.bind (newScalar_triple _ data hsame) (fun newS => Triple.of_fact (fun hnew => ?_))
    obtain ⟨old, hold, hs⟩ := hnew
    refine Triple.pure (fun s heq => ⟨heq, fun db' hset => ?_⟩)
    refine keepsTypes_of_set_hash h hm hset (fun w hw => ?_) hlength (lengthFits_of_parseScalarText hs hdata)
    rw [hw] at hold
    cases hold
    exact (typename_of_parseScalarText hs).symm

/-- A commit of pending writes leaves a mount fine where it keeps the types. -/
theorem commitDirty_triple (h : Stores fs.db.store.map G next) {ino : UInt64} (hkeeps : FlushKeeps fs ino) :
    Triple (fun s => s = fs) (commitDirty ino) (fun _ s => Fine fs s) (fun _ s => Fine fs s) := by
  have hsame : Fine fs fs := fine_of_db_eq h rfl
  unfold commitDirty
  refine Triple.bind Triple.get (fun a => Triple.of_fact (fun ha => ?_))
  subst ha
  cases hdirty : a.dirty ino with
  | none => exact Triple.pure (fun s hs => hs ▸ hsame)
  | some data =>
    have hclean : Fine (a.withDirty ino none) (a.withDirty ino none) := hsame
    refine Triple.bind (R := fun _ s => s = a.withDirty ino none) (fun s hs => rfl) (fun _ => ?_)
    refine Triple.bind (orReply_triple _ _ hclean) (fun text => Triple.of_fact (fun htext => ?_))
    cases hpath : DbPath.parse text with
    | error e => exact Triple.throw (fun s hs => hs ▸ hsame)
    | ok path =>
      have hstores : Stores (a.withDirty ino none).db.store.map G next := h
      have htarget := commitTarget_triple hstores (fun parent name m => hkeeps data text path parent name m hdirty htext hpath)
      refine Triple.bind htarget (fun r => Triple.of_fact (fun hr => ?_))
      exact setOrReply_triple hstores hr

/-- `lookup` leaves a mount fine. -/
theorem lookup_triple (h : Stores fs.db.store.map G next) (hasher : Bytes → UInt64) (parent : UInt64) (name : Bytes) :
    Triple (fun s => s = fs) (lookup hasher parent name) (fun _ s => Fine fs s) (fun _ s => Fine fs s) := by
  have hsame : Fine fs fs := fine_of_db_eq h rfl
  have hino : ∀ path, Triple (fun s => s = fs) (inoForPath path) (fun _ s => Fine fs s) (fun _ s => Fine fs s) :=
    fun path s hs => inoForPath_triple path s (hs ▸ hsame)
  have herror : ∀ e : Errno, Triple (fun s => s = fs) (replyError e : FsM UInt64) (fun _ s => Fine fs s) (fun _ s => Fine fs s) :=
    fun e => Triple.throw (fun s hs => hs ▸ hsame)
  unfold lookup
  refine Triple.bind Triple.get (fun a => Triple.of_fact (fun ha => ?_))
  subst ha
  refine Triple.bind (orReply_triple _ _ hsame) (fun parentPath => Triple.of_fact (fun _ => ?_))
  refine Triple.bind (orReply_triple _ _ hsame) (fun n => Triple.of_fact (fun _ => ?_))
  dsimp only
  cases DbPath.parse (childPath parentPath n) with
  | error e => exact herror _
  | ok path =>
    refine Triple.bind (valueAt_triple _ hsame) (fun o => Triple.of_fact (fun _ => ?_))
    refine Triple.ite (fun _ => hino _) (fun _ => ?_)
    refine Triple.bind (getEntry_triple path hsame) (fun r => Triple.of_fact (fun _ => ?_))
    cases r with
    | ok e => exact hino _
    | error e => exact herror _

/-- `write` leaves a mount fine. -/
theorem write_fine (h : Stores fs.db.store.map G next) (ino : UInt64) (offset : Int64) (data : Bytes) :
    Triple (fun s => s = fs) (write ino offset data) (fun _ s => Fine fs s) (fun _ s => Fine fs s) := by
  unfold write
  refine Triple.bind Triple.get (fun a => Triple.of_fact (fun ha => ?_))
  subst ha
  have hset : ∀ s : AlefsFs, s.db = a.db → Triple (fun t => t = a) (set s : FsM PUnit) (fun _ t => Fine a t) (fun _ t => Fine a t) :=
    fun s hs _ _ => fine_of_db_eq h hs
  exact Triple.ite (fun _ => Triple.bind (hset _ rfl) (fun _ => Triple.pure (fun _ hs => hs)))
    (fun _ => Triple.bind (hset _ rfl) (fun _ => Triple.throw (fun _ hs => hs)))

/-- A callback keeps the types. -/
theorem fine_after_callback (h : Stores fs.db.store.map G next) (hasher : Bytes → UInt64) {c : Callback}
    (hc : KeepsTypesWhen fs (.fuse c)) : Fine fs (AlefsFs.left (c.run hasher fs)) := by
  have hleft : ∀ {α : Type} {x : FsM α}, Triple (fun s => s = fs) x (fun _ s => Fine fs s) (fun _ s => Fine fs s) →
      Fine fs (AlefsFs.left (x fs)) := by
    intro α x hx
    have hfs := hx fs rfl
    cases hrun : x fs with
    | ok a s =>
      rw [hrun] at hfs
      exact hfs
    | error e s =>
      rw [hrun] at hfs
      exact hfs
  have hdiscard : ∀ {α : Type} {x : FsM α}, Triple (fun s => s = fs) x (fun _ s => Fine fs s) (fun _ s => Fine fs s) →
      Triple (fun s => s = fs) (x >>= fun _ => pure ()) (fun _ s => Fine fs s) (fun _ s => Fine fs s) :=
    fun hx => Triple.bind hx (fun _ => Triple.pure (fun _ hs => hs))
  match c with
  | .lookup parent name => exact hleft (hdiscard (lookup_triple h hasher parent name))
  | .create parent name => exact hleft (hdiscard (create_triple h hc))
  | .file ino (.write offset data) => exact hleft (hdiscard (write_fine h ino offset data))
  | .file ino .flush => exact hleft (commitDirty_triple h hc)
  | .file ino .fsync => exact hleft (commitDirty_triple h hc)

end Callbacks

/-! ## Runs -/

/-- Every action leaves the rows of a graph. -/
theorem stores_after_action {hasher : Bytes → UInt64} {fs fs' : AlefsFs} {a : Action}
    (h : ∃ G next, Stores fs.db.store.map G next) (ha : KeepsTypesWhen fs a) (hstep : fs.step hasher a = some fs') :
    ∃ G next, Stores fs'.db.store.map G next := by
  obtain ⟨G, next, hstores⟩ := h
  cases a with
  | fuse c =>
    cases hstep
    exact (fine_after_callback hstores hasher ha).1
  | rpc c =>
    cases hstep
    have hkept : ∀ op ∈ c.ops, Kept (fun _ _ => True) op := fun _ _ _ _ _ _ _ _ _ => trivial
    obtain ⟨G', next', hstores', -⟩ := Holds.after_step ⟨G, next, hstores, trivial⟩ hkept rfl
    exact ⟨G', next', hstores'⟩

/-- In every run of callbacks and remote commands in which each name that is created is new or a string, and what goes into a hash
fits the encoding, no callback changes the type of anything that is there before and after it. -/
theorem callbacks_keep_types {guard : Command → Prop} {hasher : Bytes → UInt64} {fs fs' fs'' : AlefsFs} {actions : List Action}
    {c : Callback} (hreached : Reached guard fs.db) (hrun : Run (AlefsFs.step hasher) KeepsTypesWhen fs actions fs')
    (hc : KeepsTypesWhen fs' (.fuse c)) (hstep : fs'.step hasher (.fuse c) = some fs'') : KeepsTypes fs'.db fs''.db := by
  have hstores := hrun.invariant hreached.stores (fun _ _ _ => stores_after_action)
  obtain ⟨G, next, hstores⟩ := hstores
  cases hstep
  exact (fine_after_callback hstores hasher hc).2

/-- A file is created in a new database. -/
theorem callbacks_keep_types_create :
    KeepsTypes (AlefsFs.new opened).db (AlefsFs.left (create rootIno (utf8 "a") (AlefsFs.new opened))).db := by
  have hroot : (AlefsFs.new opened).db.get DbPath.root = .ok { path := DbPath.root, kind := .directory, value := none } := rfl
  have habsent : (AlefsFs.new opened).db.get pathA = Rust.err (.notFound "/a") := rfl
  have hpath : DbPath.parse (childPath "/" "a") = .ok pathA := by decide +kernel
  have hreached : Reached (fun _ => True) (AlefsFs.new opened).db := ⟨[], Run.nil⟩
  have hrun : Run (AlefsFs.step fun _ => 0) KeepsTypesWhen (AlefsFs.new opened) [] (AlefsFs.new opened) := Run.nil
  have hc : KeepsTypesWhen (AlefsFs.new opened) (.fuse (.create rootIno (utf8 "a"))) := by
    intro parentPath n hparent hn
    cases hparent
    rw [fromUtf8_utf8] at hn
    cases hn
    refine ⟨fun p m hp hm => ?_, fun p w hp hw => ?_⟩
    · cases hp
      obtain ⟨e, he, hv⟩ := hm
      rw [hroot] at he
      cases he
      cases hv
    · rw [hpath] at hp
      cases hp
      obtain ⟨e, he, hv⟩ := hw
      rw [habsent] at he
      exact absurd he (Rust.err_ne_ok _ _)
  exact callbacks_keep_types hreached hrun hc rfl

/-- The kernel looks up `/a`, a remote client sets it to an integer, and the kernel creates it: it is a string. And a key of a hash
at `/a` that holds an integer is a string after it is created. -/
theorem create_changes_type :
    (∃ fs fs', Run (AlefsFs.step fun _ => 0) (fun _ _ => True) (AlefsFs.new opened)
        [.fuse (.lookup rootIno (utf8 "a")), .rpc (.call (.set pathA (.scalar (.int 1))))] fs ∧
      fs.step (fun _ => 0) (.fuse (.create rootIno (utf8 "a"))) = some fs' ∧
      fs.db.typeAt pathA [] = some "int" ∧ fs'.db.typeAt pathA [] = some "string") ∧
    (∃ fs fs', Run (AlefsFs.step fun _ => 0) (fun _ _ => True) (AlefsFs.new opened)
        [.rpc (.call (.hashSet pathA "k" (.scalar (.int 1)))), .fuse (.lookup rootIno (utf8 "a"))] fs ∧
      fs.step (fun _ => 0) (.fuse (.create 2 (utf8 "k"))) = some fs' ∧
      fs.db.typeAt pathA [.key "k"] = some "int" ∧ fs'.db.typeAt pathA [.key "k"] = some "string") := by
  refine ⟨⟨_, _, Run.of_runAll (fun _ _ _ => trivial) rfl, rfl, rfl, rfl⟩, ?_⟩
  exact ⟨_, _, Run.of_runAll (fun _ _ _ => trivial) rfl, rfl, rfl, rfl⟩
end Fuse
end AlefsDb
