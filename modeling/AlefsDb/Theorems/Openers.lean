import AlefsDb.Lemmas.Handles
import AlefsDb.Lemmas.Listing
import AlefsDb.Theorems.Refinement

/-!
# Openers of one directory

Calls through several openers, one after the other, ought to leave the directory as if one opener had made them all. They do as long
as each call reads through its opener what the directory holds (`openers_show`). A call through an opener that has missed what the
others committed since gives out an id that is in use: two paths then have one node, and the value of the first is gone
(`stale_opener_overwrites`).
-/

namespace AlefsDb

open Wal

/-! ## What an opener sees -/

/-- The parent of a path, through an opener and in the directory. -/
def SameParent (h d : Database) (path : DbPath) : Prop := ∀ q, path.parent = some q → h.resolve q = d.resolve q

/-- No node of the directory has an id from the next one of the opener on. -/
def NewIds (h d : Database) : Prop := ∀ n, h.nextId = .ok n → ∀ id, n ≤ id → d.store.get (nodeKey id) = none

/-- What a call reads through its opener `h` is what the directory has, `d`: what is at its path; for a new entry the parent, and
that the ids to give out are not in use; to remove an entry the parent, and what is below the path. -/
structure Sees (h d : Database) (c : PathCall) : Prop where
  path : h.resolve c.path = d.resolve c.path
  create : h.exists c.path = .ok false → SameParent h d c.path ∧ NewIds h d
  remove : ∀ path, c = .delete path → SameParent h d path ∧ h.list path = d.list path

section Seen

variable {h d : Database} {G' G : Graph} {n next : UInt64}

/-- An opener that has in memory what the directory holds sees it. -/
theorem Sees.refl (hd : Stores d.store.map G next) (c : PathCall) : Sees d d c := by
  refine ⟨rfl, fun _ => ⟨fun _ _ => rfl, ?_⟩, fun _ _ => ⟨fun _ _ => rfl, rfl⟩⟩
  intro n hn id hid
  rw [Database.nextId_eq hd] at hn
  cases hn
  cases hget : d.store.get (nodeKey id) with
  | none => rfl
  | some v =>
    obtain ⟨p, a, hp, -⟩ := (hd.row (.node id)).mp hget
    exact absurd (hd.wf.below hp) (Nat.not_lt_of_le hid)

/-- Where an opener sees a node there is one with the same id and record. -/
theorem seen_some (hh : Stores h.store.map G' n) (hd : Stores d.store.map G next) {path : DbPath}
    (hs : h.resolve path = d.resolve path) {i : UInt64} {a : Node} (hp : G' path.segments = some (i, a)) :
    ∃ b, G path.segments = some (i, b) ∧ a.record = b.record := by
  rw [Database.resolve_eq hh, Database.resolve_eq hd, hp] at hs
  cases hg : G path.segments with
  | none =>
    rw [hg] at hs
    cases hs
  | some x =>
    obtain ⟨j, b⟩ := x
    rw [hg] at hs
    injection hs with hs
    injection hs with hi hrecord
    obtain rfl : i = j := hi
    exact ⟨b, rfl, hrecord⟩

/-- A directory that an opener sees on a path is there. -/
theorem seen_dir (hh : Stores h.store.map G' n) (hd : Stores d.store.map G next) {path : DbPath}
    (hs : h.resolve path = d.resolve path) {i : UInt64} (hp : G' path.segments = some (i, .dir)) :
    G path.segments = some (i, .dir) := by
  obtain ⟨b, hb, hrecord⟩ := seen_some hh hd hs hp
  rw [hb, Node.record_eq_dir.mp hrecord.symm]

/-- A path that an opener does not find is not there. -/
theorem seen_none (hh : Stores h.store.map G' n) (hd : Stores d.store.map G next) {path : DbPath}
    (hs : h.resolve path = d.resolve path) (hp : G' path.segments = none) : G path.segments = none := by
  rw [Database.resolve_eq hh, Database.resolve_eq hd, hp] at hs
  cases hg : G path.segments with
  | none => rfl
  | some x =>
    rw [hg] at hs
    cases hs

/-- Nodes with the same record have the same type. -/
theorem typeName_of_record {a b : Node} (hrecord : a.record = b.record) {ty : String}
    (hty : Database.nodeTypeName a.record = .ok ty) : a.typeName = b.typeName := by
  have htype : ∀ {c : Node}, Database.nodeTypeName c.record = .ok ty → c.typeName = ty := by
    intro c hc
    cases c with
    | dir => exact Except.ok.inj hc
    | value v =>
      obtain ⟨w, hw, hc⟩ := Rust.bind_eq_ok.mp hc
      cases hc
      exact (Database.typename_of_decodeNode hw).symm
  rw [htype hty, htype (hrecord ▸ hty)]

/-- Rows with a higher next id. -/
theorem Stores.withNext {rows : Rows} (h : Stores rows G next) (hbelow : ∀ {p i a}, G p = some (i, a) → i.toNat < n.toNat) :
    Stores (rows.insert metaNextId (encodeId n)) G n := by
  refine ⟨⟨h.wf.root, h.wf.parent, h.wf.unique, hbelow⟩, ?_, ?_⟩
  · intro k v hk
    rw [OrdMap.get_insert] at hk
    split at hk
    · rename_i hkey
      exact ⟨.nextId, hkey⟩
    · exact h.named hk
  · intro key v
    have hold := h.row key (v := v)
    rw [OrdMap.get_insert]
    cases key with
    | nextId =>
      rw [if_pos (Key.bytes_eq_metaNextId.mpr rfl), Option.some.injEq]
      exact eq_comm
    | indexVersion => simpa [Row] using hold
    | node id => simpa [Row] using hold
    | child parent name => simpa [Row] using hold
    | typeIndex t id => simpa [Row] using hold

/-- A creation under any id that is above those in use. -/
theorem Stores.createAbove {rows : Rows} (h : Stores rows G next) (hbelow : ∀ {p i a}, G p = some (i, a) → i.toNat < n.toNat)
    {p : List String} {s : String} {i : UInt64} (a : Node) (hp : G p = some (i, .dir)) (hnew : G (p ++ [s]) = none)
    (hnext : n.toNat + 1 < 2 ^ 64) :
    Stores (applyOps rows (createOps n i s (pathText (p ++ [s])) a)) (G.create p s n a) (n + 1) := by
  have hcreate := (h.withNext hbelow).create a hp hnew hnext
  -- the batch writes the next id first
  have hinsert : ∀ v w, (rows.insert metaNextId v).insert metaNextId w = rows.insert metaNextId w := by
    intro v w
    ext k
    simp only [OrdMap.get_insert]
    split <;> rfl
  simp only [createOps, applyOps_cons, BatchOp.apply, hinsert] at hcreate ⊢
  exact hcreate

/-- A node that is listed alike, and has nothing below it when it is a directory, has nothing below it in the directory either. -/
theorem seen_leaf (hh : Stores h.store.map G' n) (hd : Stores d.store.map G next) {path : DbPath} (hlist : h.list path = d.list path)
    {i j : UInt64} {a b : Node} (ha : G' path.segments = some (i, a)) (hb : G path.segments = some (j, b))
    (hrecord : a.record = b.record) (hleaf : a = .dir → ∀ t, G' (path.segments ++ [t]) = none) (t : String) :
    G (path.segments ++ [t]) = none := by
  cases b with
  | value v => exact hd.wf.none_below_value hb t
  | dir =>
    obtain rfl : a = .dir := Node.record_eq_dir.mp hrecord
    obtain ⟨l, hl, hlists⟩ := Database.list_eq hh ha
    obtain ⟨l', hl', hlists'⟩ := Database.list_eq hd hb
    obtain rfl : l = l' := Except.ok.inj (hl.symm.trans (hlist.trans hl'))
    cases ht : G (path.segments ++ [t]) with
    | none => rfl
    | some x =>
      obtain ⟨y, hy⟩ := (hlists.mem_names t).mp ((hlists'.mem_names t).mpr ⟨x, ht⟩)
      rw [hleaf rfl t] at hy
      cases hy

/-- A call whose plan creates a node, on what its opener sees, puts the node at its path in the directory. -/
theorem Sees.stores_create (hh : Stores h.store.map G' n) (hd : Stores d.store.map G next) {c : PathCall} (hs : Sees h d c)
    {q : DbPath} {name : String} {i : UInt64} {a : Node} (hc : PathCall.Creates G' n c q name i a) :
    Stores (applyOps d.store.map (createOps n i name (pathText (q.segments ++ [name])) a))
      (Function.update G c.path.segments (some (n, a))) (n + 1) := by
  have habsent : h.exists c.path = .ok false := by rw [Database.exists_eq hh, hc.absent]; rfl
  obtain ⟨hparent, hids⟩ := hs.create habsent
  have hbelow : ∀ {p j b}, G p = some (j, b) → j.toNat < n.toNat := by
    intro p j b hp
    by_contra hj
    have hnone := hids n (Database.nextId_eq hh) j (Nat.le_of_not_lt hj)
    rw [MemoryStorage.get, hd.get_node hp] at hnone
    cases hnone
  have hnew := seen_none hh hd hs.path hc.absent
  rw [hc.segments] at hnew ⊢
  exact hd.createAbove hbelow a (seen_dir hh hd (hparent q hc.parent) hc.dir) hnew hc.succ

/-- A call whose plan succeeds on what its opener sees puts its node at its path in the directory. -/
theorem Sees.stores (hh : Stores h.store.map G' n) (hd : Stores d.store.map G next) {c : PathCall} (hs : Sees h d c) {ch : Change}
    (hplan : G'.plan n c.op = .ok ch) :
    ∃ x next', Stores (applyOps d.store.map (ch.ops n)) (Function.update G c.path.segments x) next' ∧ x.map Prod.snd = c.node := by
  cases c with
  | mkdir path =>
    rcases PathCall.plan_mkdir_cases hplan with ⟨hroot, rfl⟩ | ⟨q, name, i, hc, rfl⟩
    · refine ⟨G path.segments, next, ?_, ?_⟩
      · rw [show (PathCall.mkdir path).path = path from rfl, Function.update_eq_self]
        exact hd
      · rw [hroot, hd.wf.root]
        rfl
    · exact ⟨_, _, hs.stores_create hh hd hc, rfl⟩
  | set path v =>
    rcases PathCall.plan_set_cases hplan with ⟨q, name, i, hc, rfl⟩ | ⟨j, old, ty, hold, hty, rfl⟩
    · exact ⟨_, _, hs.stores_create hh hd hc, rfl⟩
    · obtain ⟨b, hb, hrecord⟩ := seen_some hh hd hs.path hold
      cases b with
      | dir => cases hrecord
      | value old' =>
        have htype : old.typename = old'.typename := typeName_of_record hrecord hty
        have hreplace := hd.replace v hb
        rw [← htype] at hreplace
        exact ⟨_, _, hreplace, rfl⟩
  | delete path =>
    obtain ⟨q, name, i, j, a, hr, rfl⟩ := PathCall.plan_delete_cases hh.wf hplan
    obtain ⟨hparent, hlist⟩ := hs.remove path rfl
    obtain ⟨b, hb, hrecord⟩ := seen_some hh hd hs.path hr.there
    obtain ⟨ty, hty⟩ := hr.typeName
    have hdir := seen_dir hh hd (hparent q hr.parent) hr.dir
    have hleaf := seen_leaf hh hd hlist hr.there hb hrecord hr.leaf
    have hremove := hd.remove (a := b) hdir (hr.segments ▸ hb) (fun t => hr.segments ▸ hleaf t)
    rw [← typeName_of_record hrecord hty, ← hr.segments] at hremove
    exact ⟨none, _, hremove, rfl⟩

end Seen

/-! ## Runs -/

namespace SharedDir

variable {P : Type} {s s' : SharedDir P}

/-- A call that its opener does not refuse sees the directory. Its value is one that is read back, and its record fits, as does the
checkpoint where the commit compacts; then the opener has in memory what the directory holds. -/
def Current (s : SharedDir P) : OpenerAct P → Prop
  | .openDb _ => True
  | .call p c => ∀ h d files b, s.handle p = some h → WalStorage.openDir s.files = .ok (d, files) → c.batch h.database = .ok b →
      Sees h.database d.database c ∧ (∀ v ∈ c.op.value, v.Ordered ∧ v.canon.Small) ∧ Commits h d.map b.ops

/-- The directory holds the rows of a graph that is as expected, and every opener has the rows of some graph. -/
structure Held (s : SharedDir P) (map : Rows) (G : Graph) (next : UInt64) : Prop where
  loads : Loads s.files map []
  stores : Stores map G next
  expected : ∀ p, s.expected p = (G p).map (fun x => x.2.content)
  values : ∀ p i v, G p = some (i, .value v) → v.Ordered ∧ v.canon.Small
  handles : ∀ p h, s.handle p = some h → ∃ G' n, Stores h.map G' n

/-- Nothing has been done, or the directory has been opened. -/
def Sound (s : SharedDir P) : Prop := s = init ∨ ∃ map G next, Held s map G next

theorem content_eq (c : PathCall) : c.content = c.node.map Node.content := by
  cases c <;> rfl

/-- The value that a call puts is that of its operation. -/
theorem mem_value_of_node {c : PathCall} {v : Value} (h : c.node = some (.value v)) : v ∈ c.op.value := by
  cases c with
  | mkdir path => cases h
  | set path w =>
    cases h
    rfl
  | delete path => cases h

/-- What is expected after one more call. -/
theorem expected_snoc (s : SharedDir P) (files : Files) (handle : P → Option WalStorage) (c : PathCall) :
    expected { files := files, handle := handle, acked := s.acked ++ [c] } =
      Function.update s.expected c.path.segments c.content := by
  rw [expected, expected, List.foldl_append]
  rfl

/-- What is shown where the directory is opened on the rows of a graph. -/
theorem shows_of_open {h : WalStorage} {files : Files} {G : Graph} {next : UInt64} (hopen : openDb s.files = (some h, files))
    (hstores : Stores h.map G next) (hexpected : ∀ p, s.expected p = (G p).map (fun x => x.2.content))
    (hvalues : ∀ p i v, G p = some (i, .value v) → v.Ordered ∧ v.canon.Small) : s.Shows := by
  have hdb : Stores h.database.store.map G next := hstores
  refine ⟨h, files, hopen, ?_, ?_⟩
  · intro path
    rw [Database.get_eq hdb, hexpected]
    rcases G.cases_at path.segments with hp | ⟨i, hp⟩ | ⟨i, v, hp⟩ <;> rw [hp]
    · rfl
    · rfl
    · obtain ⟨hordered, hsmall⟩ := hvalues _ _ _ hp
      simp only [Database.entryOf, Database.decodeNode, Codec.decode_encode_of_canon hordered hsmall, Rust.mapErr_ok, Rust.ok_bind]
      rfl
  · intro path path' i a b hp hp'
    have hnode : ∀ {q : DbPath} {r}, h.database.resolve q = .ok (i, r) → ∃ x, G q.segments = some (i, x) := by
      intro q r hq
      rw [Database.resolve_eq hdb] at hq
      cases hg : G q.segments with
      | none =>
        rw [hg] at hq
        cases hq
      | some x =>
        rw [hg] at hq
        cases hq
        exact ⟨x.2, rfl⟩
    obtain ⟨x, hx⟩ := hnode hp
    obtain ⟨y, hy⟩ := hnode hp'
    exact DbPath.ext (hstores.wf.unique hx hy)

/-- A sound directory shows what the calls have put. -/
theorem Sound.shows (h : Sound s) : s.Shows := by
  rcases h with rfl | ⟨map, G, next, h⟩
  · obtain ⟨storage, files, hopen, hmap, -⟩ := openDb_init
    refine shows_of_open hopen (hmap ▸ Database.opened_stores) ?_ ?_
    · intro q
      simp only [expected, init, List.foldl_nil, Graph.initial]
      split <;> rfl
    · intro q i v hq
      cases (Graph.initial_eq_some.mp hq).2
  · obtain ⟨storage, files, hopen, hmap, -⟩ := openDb_stored h.loads h.stores
    exact shows_of_open hopen (hmap ▸ h.stores) h.expected h.values

/-- An opener that has in memory what the directory holds may make any call of a size that fits. -/
theorem current_of_same {map : Rows} {G : Graph} {next : UInt64} {p : P} {c : PathCall} {h : WalStorage} {b : WriteBatch}
    (hl : Loads s.files map []) (hstores : Stores map G next) (hhandle : s.handle p = some h) (hmap : h.map = map)
    (hbatch : c.batch ⟨⟨map⟩⟩ = .ok b) (hvalue : ∀ v ∈ c.op.value, v.Ordered ∧ v.canon.Small) (hrecord : RecordFits b.ops)
    (hfit : CheckpointFits (applyOps map b.ops)) : Current s (.call p c) := by
  subst hmap
  intro h' d files b' hh' hopen hb'
  obtain rfl := Option.some.inj (hhandle.symm.trans hh')
  obtain rfl := Except.ok.inj (hbatch.symm.trans hb')
  obtain ⟨rfl, rfl⟩ := Prod.mk.inj (Except.ok.inj ((openDir_of_loads hl).symm.trans hopen))
  have hdb : Stores h.database.store.map G next := hstores
  exact ⟨Sees.refl hdb c, hvalue, hrecord, fun _ => ⟨rfl, hfit⟩⟩

variable [DecidableEq P]

/-- An open takes what the directory holds into memory. -/
theorem Held.openDb {map : Rows} {G : Graph} {next : UInt64} (h : Held s map G next) {p : P}
    (hstep : step s (.openDb p) = some s') : Held s' map G next := by
  obtain ⟨storage, files, hopen, hmap, hl⟩ := openDb_stored h.loads h.stores
  rw [step, hopen] at hstep
  cases hstep
  refine ⟨hl, h.stores, h.expected, h.values, ?_⟩
  intro q storage' hq
  dsimp only at hq
  rw [Function.update_apply] at hq
  split at hq
  · cases hq
    exact ⟨G, next, hmap ▸ h.stores⟩
  · exact h.handles q storage' hq

/-- A call that sees the directory leaves it as expected. -/
theorem Held.call {map : Rows} {G : Graph} {next : UInt64} (hs : Held s map G next) {p : P} {c : PathCall}
    (hguard : Current s (.call p c)) (hstep : step s (.call p c) = some s') : ∃ map' G' next', Held s' map' G' next' := by
  rw [step] at hstep
  cases hhandle : s.handle p with
  | none =>
    rw [hhandle] at hstep
    cases hstep
  | some h =>
    obtain ⟨G', n, hstores⟩ := hs.handles p h hhandle
    have hdb : Stores h.database.store.map G' n := hstores
    have hbatch := PathCall.batch_eq hdb c
    -- the stores of the openers after a step that leaves `h'` to this one
    have hhandles : ∀ h' : WalStorage, (∃ G'' n', Stores h'.map G'' n') → ∀ q h'', Function.update s.handle p (some h') q = some h'' →
        ∃ G'' n', Stores h''.map G'' n' := by
      intro h' hh' q h'' hq
      rw [Function.update_apply] at hq
      split at hq
      · cases hq
        exact hh'
      · exact hs.handles q h'' hq
    rw [hhandle] at hstep
    dsimp only at hstep
    cases hplan : G'.plan n c.op with
    | error e =>
      rw [hplan] at hbatch
      rw [commitBatch_error (d := ⟨h, s.files, []⟩) hbatch] at hstep
      cases hstep
      exact ⟨map, G, next, hs.loads, hs.stores, hs.expected, hs.values, hhandles h ⟨G', n, hstores⟩⟩
    | ok ch =>
      rw [hplan] at hbatch
      obtain ⟨hsees, hvalue, hcommits⟩ := hguard h _ _ _ hhandle (openDir_of_loads hs.loads) hbatch
      obtain ⟨h', files', hcommit, hmap, hl⟩ := commitBatch_ok c.batch hbatch hs.loads hcommits
      obtain ⟨x, next', hstores', hx⟩ := hsees.stores hdb hs.stores hplan
      rw [hcommit] at hstep
      cases hstep
      have hkept : ∃ G'' n', Stores h'.map G'' n' := by
        rw [hmap]
        exact ⟨_, _, hdb.change (Graph.plan_fits hstores.wf hplan)⟩
      refine ⟨_, Function.update G c.path.segments x, next', hl, hstores', ?_, ?_, hhandles h' hkept⟩
      · intro q
        rw [expected_snoc, content_eq, ← hx, Function.update_apply, Function.update_apply]
        split
        · rw [Option.map_map]
          rfl
        · exact hs.expected q
      · intro q i v hq
        rw [Function.update_apply] at hq
        split at hq
        · rw [hq] at hx
          exact hvalue v (mem_value_of_node hx.symm)
        · exact hs.values q i v hq

/-- The first open makes the root. -/
theorem held_init {p : P} (hstep : step init (.openDb p) = some s') : ∃ map G next, Held s' map G next := by
  obtain ⟨storage, files, hopen, hmap, hl⟩ := openDb_init
  rw [step, init, hopen] at hstep
  cases hstep
  refine ⟨_, Graph.initial, 2, hl, Database.opened_stores, ?_, ?_, ?_⟩
  · intro q
    simp only [expected, List.foldl_nil, Graph.initial]
    split <;> rfl
  · intro q i v hq
    cases (Graph.initial_eq_some.mp hq).2
  · intro q storage' hq
    dsimp only at hq
    rw [Function.update_apply] at hq
    split at hq
    · cases hq
      exact ⟨_, _, hmap ▸ Database.opened_stores⟩
    · cases hq

/-- What a step keeps. -/
theorem Sound.step {a : OpenerAct P} (h : Sound s) (hguard : Current s a) (hstep : SharedDir.step s a = some s') : Sound s' := by
  rcases h with rfl | ⟨map, G, next, h⟩
  · cases a with
    | openDb p => exact Or.inr (held_init hstep)
    | call p c => cases hstep
  · cases a with
    | openDb p => exact Or.inr ⟨map, G, next, h.openDb hstep⟩
    | call p c => exact Or.inr (h.call hguard hstep)

/-- Along every run of openers whose calls see the directory, an open shows exactly what the calls that succeeded have put there,
and different paths have different nodes. -/
theorem openers_show {acts : List (OpenerAct P)} (h : Run step Current init acts s) : s.Shows := by
  have hsound : Sound s := h.invariant (Or.inl rfl) (fun _ _ _ hs hguard hstep => Sound.step hs hguard hstep)
  exact hsound.shows

/-! ## Two openers -/

/-- The path `/c`. -/
def pathC : DbPath := ⟨["c"], by decide⟩

/-- `set /a 1` and `set /c 2`. -/
def setA : PathCall := .set Database.pathA (.scalar (.int 1))

def setC : PathCall := .set pathC (.scalar (.int 2))

/-- The batch of a `set` in a directory that has been opened only. -/
def firstOps (name : String) (n : Int64) : List BatchOp :=
  createOps 2 rootId name (pathText [name]) (.value (.scalar (.int n)))

/-- The batches of two openers on the same new database. -/
theorem batch_opened : setA.batch Database.opened = .ok ⟨firstOps "a" 1⟩ ∧ setC.batch Database.opened = .ok ⟨firstOps "c" 2⟩ := by
  decide +kernel

/-- The batch of `set /c 2` after `set /a 1`. -/
def secondOps : List BatchOp := createOps 3 rootId "c" (pathText ["c"]) (.value (.scalar (.int 2)))

/-- The batch of the second opener behind that of the first. -/
theorem batch_second : setC.batch ⟨⟨applyOps Database.opened.store.map (firstOps "a" 1)⟩⟩ = .ok ⟨secondOps⟩ := by
  decide +kernel

/-- One opener sets `/a`; another one opens the directory and sets `/c`. -/
theorem openers_show_both : ∃ (acts : List (OpenerAct Bool)) (s : SharedDir Bool), Run step Current init acts s ∧
    s.acked = [setA, setC] ∧ s.Shows := by
  have hint : ∀ n : Int64, (Value.scalar (.int n)).Ordered ∧ (Value.scalar (.int n)).canon.Small := fun n =>
    ⟨Value.everywhere_scalar trivial, Value.everywhere_scalar trivial⟩
  obtain ⟨h₁, files₁, hopen₁, hmap₁, hl₁⟩ := openDb_init
  obtain ⟨h₂, files₂, hcommit₂, -, hl₂⟩ := commitBatch_ok setA.batch (h := h₁) (b := ⟨firstOps "a" 1⟩)
    (by rw [WalStorage.database, hmap₁]; exact batch_opened.1) hl₁ ⟨by decide +kernel, fun _ => ⟨hmap₁, by decide +kernel⟩⟩
  have hstores₂ := Database.opened_stores.create (p := []) (s := "a") (.value (.scalar (.int 1))) Graph.initial_wellFormed.root rfl
    (by decide)
  obtain ⟨h₃, files₃, hopen₃, hmap₃, hl₃⟩ := openDb_stored hl₂ hstores₂
  obtain ⟨h₄, files₄, hcommit₄, -, -⟩ := commitBatch_ok setC.batch (h := h₃) (b := ⟨secondOps⟩)
    (by rw [WalStorage.database, hmap₃]; exact batch_second) hl₃ ⟨by decide +kernel, fun _ => ⟨hmap₃, by decide +kernel⟩⟩
  have hrun : Run step Current (init : SharedDir Bool) [.openDb true, .call true setA, .openDb false, .call false setC]
      { files := files₄, handle := _, acked := [setA, setC] } :=
    Run.cons trivial (step_openDb hopen₁) (Run.cons
      (current_of_same hl₁ Database.opened_stores rfl hmap₁ batch_opened.1 (fun v hv => Option.some.inj hv ▸ hint 1)
        (by decide +kernel) (by decide +kernel))
      (step_call rfl hcommit₂) (Run.cons trivial (step_openDb hopen₃) (Run.cons
        (current_of_same hl₃ hstores₂ rfl hmap₃ batch_second (fun v hv => Option.some.inj hv ▸ hint 2)
          (by decide +kernel) (by decide +kernel))
        (step_call rfl hcommit₄) Run.nil)))
  exact ⟨_, _, hrun, rfl, openers_show hrun⟩

/-- The first opener of a directory is far from compacting. -/
theorem first_does_not_compact : ∀ h ∈ (openDb (init : SharedDir Bool).files).1,
    ¬h.Compacts (encodeCommitRecord (firstOps "a" 1)).length := by
  decide +kernel

/-- What the directory holds when both batches are in its log. -/
def mergedRows : Rows := applyOps (applyOps Database.opened.store.map (firstOps "c" 2)) (firstOps "a" 1)

theorem openDatabase_mergedRows {d : Disk} (h : d.storage.map = mergedRows) : openDatabase d = .ok () d :=
  openDatabase_there (by rw [h]; decide +kernel) (by rw [h]; decide +kernel) (by rw [h]; decide +kernel)

theorem get_mergedRows : Database.get ⟨⟨mergedRows⟩⟩ pathC = .ok ⟨pathC, .value, some (.scalar (.int 1))⟩ := rfl

theorem expected_both {P : Type} (files : Files) (handle : P → Option WalStorage) :
    answer pathC (expected { files := files, handle := handle, acked := [setC, setA] } pathC.segments) =
      .ok ⟨pathC, .value, some (.scalar (.int 2))⟩ := rfl

/-- Two openers open a directory, and each sets a path of its own: both new entries get the id 2, and an open shows the last value
under both. -/
theorem stale_opener_overwrites : ∃ (acts : List (OpenerAct Bool)) (s : SharedDir Bool),
    Run step (fun _ _ => True) init acts s ∧ (acts.filterMap OpenerAct.path).Nodup ∧ ¬s.Shows := by
  obtain ⟨h₁, files₁, hopen₁, hmap₁, hl₁⟩ := openDb_init
  obtain ⟨h₂, files₂, hopen₂, hmap₂, hl₂⟩ := openDb_stored hl₁ Database.opened_stores
  have hdb : ∀ {h : WalStorage}, h.map = Database.opened.store.map → h.database = Database.opened := fun hmap =>
    congrArg (fun map => (⟨⟨map⟩⟩ : Database)) hmap
  obtain ⟨h₃, files₃, hcommit₃, -, hl₃⟩ := commitBatch_ok setC.batch (h := h₂) (b := ⟨firstOps "c" 2⟩)
    (by rw [hdb hmap₂]; exact batch_opened.2) hl₂ ⟨by decide +kernel, fun _ => ⟨hmap₂, by decide +kernel⟩⟩
  -- the first opener has not seen the commit of the second
  obtain ⟨h₄, files₄, hcommit₄, -, hl₄⟩ := commitBatch_ok setA.batch (h := h₁) (b := ⟨firstOps "a" 1⟩)
    (by rw [hdb hmap₁]; exact batch_opened.1) hl₃
    ⟨by decide +kernel, fun hc => absurd hc (first_does_not_compact h₁ (by rw [init, hopen₁]; rfl))⟩
  have hrun : Run step (fun _ _ => True) (init : SharedDir Bool) [.openDb true, .openDb false, .call false setC, .call true setA]
      { files := files₄, handle := _, acked := [setC, setA] } :=
    Run.cons trivial (step_openDb hopen₁) (Run.cons trivial (step_openDb hopen₂)
      (Run.cons trivial (step_call rfl hcommit₃) (Run.cons trivial (step_call rfl hcommit₄) Run.nil)))
  refine ⟨_, _, hrun, by decide, ?_⟩
  rintro ⟨h, files, hopen, hget, -⟩
  have hloads : Loads files₄ mergedRows [] := hl₄
  have hthere := openDb_ok (openDir_of_loads hloads) (openDatabase_mergedRows rfl)
  obtain rfl := Option.some.inj (Prod.mk.inj (hthere.symm.trans hopen)).1
  have hb := (get_mergedRows.symm.trans (hget pathC)).trans (expected_both files₄ _)
  simp at hb

end SharedDir
end AlefsDb

