import AlefsDb.Lemmas.Listing
import AlefsDb.Lemmas.Reached
import AlefsDb.Namespace.PathTree

/-!
# The namespace refines a path tree

Run side by side with the path tree, the database answers `get`, `exists` and `list` of every path as the tree does, and each command
succeeds or fails with the error that it has on the tree.
-/

namespace AlefsDb

/-- What a node shows: its value is read back in canonical form. -/
def Node.content : Node → Content
  | dir => .directory
  | value v => .value v.canon

@[simp] theorem Node.kind_content (a : Node) : a.content.kind = a.kind := by
  cases a <;> rfl

/-- The tree is what the graph shows. -/
structure Represents (t : PathTree) (G : Graph) (next : UInt64) : Prop where
  find : ∀ p, t.find p = (G p).map (fun x => x.2.content)
  ordered : ∀ p i v, G p = some (i, .value v) → v.Ordered
  count : next.toNat = t.created + 2

namespace PathTree

variable {t : PathTree}

theorem find_create (t : PathTree) (p q : List String) (c : Content) :
    (t.create p c).find q = if q = p then some c else t.find q :=
  t.entries.get_insert p q c

theorem find_replace (t : PathTree) (p q : List String) (v : Value) :
    (t.replace p v).find q = if q = p then some (.value v) else t.find q :=
  t.entries.get_insert p q (.value v)

theorem find_remove (t : PathTree) (p q : List String) : (t.remove p).find q = if q = p then none else t.find q :=
  t.entries.get_erase p q

theorem nameBelow_eq_some {p q : List String} {s : String} : nameBelow p q = some s ↔ q = p ++ [s] := by
  unfold nameBelow
  constructor
  · intro h
    split at h
    · rename_i hp
      subst hp
      exact (List.dropLast_append_getLast? s h).symm
    · cases h
  · rintro rfl
    simp

/-- The entries below a path are its children, with their kinds. -/
theorem mem_below (t : PathTree) (p : List String) (name : String) (kind : EntryKind) :
    (name, kind) ∈ t.below p ↔ ∃ c, t.find (p ++ [name]) = some c ∧ kind = c.kind := by
  unfold below
  rw [List.mem_filterMap]
  constructor
  · rintro ⟨⟨q, c⟩, hmem, hname⟩
    obtain ⟨s, hs, he⟩ := Option.map_eq_some_iff.mp hname
    cases he
    rw [nameBelow_eq_some] at hs
    cases hs
    exact ⟨c, (t.entries.mem_entries_iff _ _).mp hmem, rfl⟩
  · rintro ⟨c, hc, rfl⟩
    refine ⟨(p ++ [name], c), (t.entries.mem_entries_iff _ _).mpr hc, ?_⟩
    rw [nameBelow_eq_some.mpr rfl]
    rfl

theorem nodup_below (t : PathTree) (p : List String) : ((t.below p).map Prod.fst).Nodup := by
  unfold below
  refine List.pairwise_map.mpr (List.pairwise_filterMap.mpr (t.entries.ascending.imp ?_))
  intro e e' hlt x hx y hy hxy
  obtain ⟨s, hs, rfl⟩ := Option.map_eq_some_iff.mp hx
  obtain ⟨s', hs', rfl⟩ := Option.map_eq_some_iff.mp hy
  obtain rfl : s = s' := hxy
  rw [nameBelow_eq_some.mp hs, nameBelow_eq_some.mp hs'] at hlt
  exact absurd hlt (lt_irrefl _)

end PathTree

/-! ## Reading -/

namespace Represents

variable {t : PathTree} {G : Graph} {next : UInt64}

/-- The sorted entries below a path are a listing of it. -/
theorem lists (h : Represents t G next) (p : List String) :
    Lists G p ((t.below p).insertionSort (fun a b => a.1 ≤ b.1)) := by
  refine ⟨OrdMap.ascending_insertionSort (t.nodup_below p), ?_⟩
  intro name kind
  rw [(List.perm_insertionSort _ _).mem_iff, t.mem_below, h.find]
  constructor
  · rintro ⟨c, hc, rfl⟩
    obtain ⟨⟨i, a⟩, ha, rfl⟩ := Option.map_eq_some_iff.mp hc
    exact ⟨i, a, ha, a.kind_content⟩
  · rintro ⟨i, a, ha, rfl⟩
    exact ⟨a.content, by rw [ha]; rfl, a.kind_content.symm⟩

/-- Entries are below a path where the graph has children there. -/
theorem below_ne_nil (h : Represents t G next) (p : List String) : t.below p ≠ [] ↔ ∃ s, G (p ++ [s]) ≠ none := by
  constructor
  · intro hne
    obtain ⟨⟨name, kind⟩, hmem⟩ := List.exists_mem_of_ne_nil _ hne
    obtain ⟨c, hc, -⟩ := (t.mem_below p name kind).mp hmem
    rw [h.find] at hc
    obtain ⟨x, hx, -⟩ := Option.map_eq_some_iff.mp hc
    exact ⟨name, by rw [hx]; simp⟩
  · rintro ⟨s, hs⟩ hnil
    obtain ⟨x, hx⟩ := Option.ne_none_iff_exists'.mp hs
    have hmem := (t.mem_below p s x.2.content.kind).mpr ⟨x.2.content, by rw [h.find, hx]; rfl, rfl⟩
    rw [hnil] at hmem
    cases hmem

/-- A stored value is read back as the tree has it. -/
theorem decodeNode_eq (h : Represents t G next) (ht : t.Fits) {p : List String} {i : UInt64} {v : Value}
    (hp : G p = some (i, .value v)) : Database.decodeNode (Codec.encode v) = .ok v.canon := by
  have hfind : t.find p = some (.value v.canon) := by rw [h.find, hp]; rfl
  rw [Database.decodeNode, Codec.decode_encode_of_canon (h.ordered p i v hp) (ht.small p _ hfind), Rust.mapErr_ok]

end Represents

/-- The database answers as the tree does. -/
structure Agrees (db : Database) (t : PathTree) : Prop where
  get : ∀ path, db.get path = t.get path
  «exists» : ∀ path, db.exists path = .ok (t.exists path)
  list : ∀ path, db.list path = t.list path

/-- A tree that represents the graph agrees with the database. -/
theorem Represents.agrees {t : PathTree} {G : Graph} {next : UInt64} (h : Represents t G next) (ht : t.Fits) {db : Database}
    (hdb : Stores db.store.map G next) : Agrees db t := by
  refine ⟨?_, ?_, ?_⟩
  · intro path
    rw [Database.get_eq hdb, PathTree.get, h.find]
    rcases G.cases_at path.segments with hp | ⟨i, hp⟩ | ⟨i, v, hp⟩ <;> rw [hp]
    · rfl
    · rfl
    · simp only [Database.entryOf, h.decodeNode_eq ht hp, Rust.ok_bind]
      rfl
  · intro path
    rw [Database.exists_eq hdb, PathTree.exists, h.find, Option.isSome_map]
  · intro path
    rw [PathTree.list, h.find]
    rcases G.cases_at path.segments with hp | ⟨i, hp⟩ | ⟨i, v, hp⟩ <;> rw [hp]
    · exact Database.list_none hdb hp
    · obtain ⟨l, hl, hlists⟩ := Database.list_eq hdb hp
      rw [hl, hlists.unique (h.lists path.segments)]
      rfl
    · exact Database.list_value hdb hp

/-! ## Writing -/

namespace Represents

variable {t : PathTree} {G : Graph} {next : UInt64}

/-- A creation in the tree is one in the graph. -/
theorem create (h : Represents t G next) {parent : List String} {name : String} (a : Node) (ha : ∀ v, a = .value v → v.Ordered)
    (hnew : G (parent ++ [name]) = none) (hnext : next.toNat + 1 < 2 ^ 64) :
    Represents (t.create (parent ++ [name]) a.content) (G.create parent name next a) (next + 1) := by
  refine ⟨?_, ?_, ?_⟩
  · intro q
    rw [PathTree.find_create, Graph.create, Function.update_apply]
    split
    · rfl
    · exact h.find q
  · intro q i v hq
    rcases (Graph.create_eq_some hnew).mp hq with ⟨-, hx⟩ | hold
    · exact ha v (congrArg Prod.snd hx).symm
    · exact h.ordered q i v hold
  · rw [Graph.toNat_succ hnext, h.count]
    rfl

/-- A replacement in the tree is one in the graph. -/
theorem replace (h : Represents t G next) {p : List String} {i : UInt64} {v : Value} (hv : v.Ordered) :
    Represents (t.replace p v.canon) (G.replace p i v) next := by
  refine ⟨?_, ?_, h.count⟩
  · intro q
    rw [PathTree.find_replace, Graph.replace, Function.update_apply]
    split
    · rfl
    · exact h.find q
  · intro q j w hq
    rcases Graph.replace_eq_some.mp hq with ⟨-, hx⟩ | ⟨-, hold⟩
    · cases hx
      exact hv
    · exact h.ordered q j w hold

/-- A removal in the tree is one in the graph. -/
theorem remove (h : Represents t G next) (p : List String) : Represents (t.remove p) (G.remove p) next := by
  refine ⟨?_, ?_, h.count⟩
  · intro q
    rw [PathTree.find_remove, Graph.remove, Function.update_apply]
    split
    · rfl
    · exact h.find q
  · intro q j w hq
    exact h.ordered q j w (Graph.remove_eq_some.mp hq).2

/-- What an operation leads to on the tree is what its plan says, as long as the tree fits. -/
def Refines (G : Graph) (next : UInt64) (r : Rust NsError PathTree) (plan : Rust NsError Change) : Prop :=
  match r with
  | .ok t' => t'.Fits → ∃ c, plan = .ok c ∧ Represents t' (c.graph G next) (c.nextId next)
  | .error e => plan = .error e

/-- A parent is a directory of the tree where it is one of the graph, with the same error. -/
theorem inDirectory_eq (h : Represents t G next) (parent : DbPath) : t.inDirectory parent = (do
    let _ ← G.parentId parent
    return ()) := by
  unfold PathTree.inDirectory Graph.parentId
  rw [h.find]
  match G parent.segments with
  | none => rfl
  | some (i, .dir) => rfl
  | some (i, .value v) => rfl

/-- The ids have not run out when the tree with one more path fits. -/
theorem succId_eq (h : Represents t G next) {p : List String} {c : Content} (hfits : (t.create p c).Fits) :
    Database.succId next = .ok (next + 1) ∧ next.toNat + 1 < 2 ^ 64 := by
  have hlt : next.toNat + 1 < 2 ^ 64 := by
    have hids : t.created + 1 + 2 < 2 ^ 64 := hfits.ids
    have := h.count
    omega
  exact ⟨if_pos hlt, hlt⟩

/-- `mkdir` of the graph refines that of the tree. -/
theorem mkdir_refines (h : Represents t G next) (path : DbPath) : Refines G next (t.mkdir path) (G.planMkdir next path) := by
  unfold PathTree.mkdir Graph.planMkdir
  by_cases hroot : path.segments = []
  · rw [DbPath.parent, if_pos hroot]
    exact fun _ => ⟨.nothing, rfl, h⟩
  · obtain ⟨parent, name, hparent, hname, hsegments⟩ := DbPath.split hroot
    rw [hparent, hname]
    dsimp only
    rw [PathTree.exists, h.find, Option.isSome_map, h.inDirectory_eq]
    by_cases hsome : (G path.segments).isSome
    · rw [if_pos hsome, if_pos hsome]
      rfl
    · rw [if_neg hsome, if_neg hsome]
      cases G.parentId parent with
      | error e => rfl
      | ok i =>
        intro hfits
        obtain ⟨hsucc, hlt⟩ := h.succId_eq hfits
        refine ⟨.create parent.segments name i .dir, ?_, ?_⟩
        · rw [Rust.ok_bind, hsucc]
          rfl
        · rw [hsegments] at hsome ⊢
          exact h.create .dir (fun v hv => by cases hv) (by simpa using hsome) hlt

/-- `set` of the graph refines that of the tree. -/
theorem set_refines (h : Represents t G next) (ht : t.Fits) (path : DbPath) {v : Value} (hv : v.Ordered) :
    Refines G next (t.set path v) (G.planSet next path v) := by
  unfold PathTree.set Graph.planSet
  by_cases hroot : path.segments = []
  · rw [DbPath.parent, if_pos hroot]
    rfl
  · obtain ⟨parent, name, hparent, hname, hsegments⟩ := DbPath.split hroot
    rw [hparent, hname]
    dsimp only
    rw [h.inDirectory_eq, h.find]
    cases G.parentId parent with
    | error e => rfl
    | ok i =>
      simp only [Rust.ok_bind]
      rcases G.cases_at path.segments with hp | ⟨j, hp⟩ | ⟨j, old, hp⟩ <;> rw [hp]
      · intro hfits
        obtain ⟨hsucc, hlt⟩ := h.succId_eq hfits
        refine ⟨.create parent.segments name i (.value v), ?_, ?_⟩
        · rw [hsucc]
          rfl
        · rw [hsegments] at hp ⊢
          refine h.create (.value v) (fun w hw => ?_) hp hlt
          cases hw
          exact hv
      · rfl
      · intro hfits
        refine ⟨.replace path.segments j old v, ?_, h.replace hv⟩
        dsimp only
        rw [h.decodeNode_eq ht hp]
        rfl

/-- `delete` of the graph refines that of the tree. -/
theorem delete_refines (h : Represents t G next) (hG : G.WellFormed next) (ht : t.Fits) (path : DbPath) :
    Refines G next (t.delete path) (G.planDelete path) := by
  unfold PathTree.delete Graph.planDelete
  by_cases hroot : path.segments = []
  · rw [DbPath.parent, if_pos hroot]
    rfl
  · obtain ⟨parent, name, hparent, hname, hsegments⟩ := DbPath.split hroot
    rw [hparent, hname, h.find]
    dsimp only
    rcases G.cases_at path.segments with hp | ⟨j, hp⟩ | ⟨j, v, hp⟩ <;> rw [hp]
    · dsimp only [Option.map_none]
      cases G parent.segments <;> rfl
    · obtain ⟨i, hi⟩ := hG.parent (hsegments ▸ hp)
      have hbelow := h.below_ne_nil path.segments
      simp only [Option.map_some, Node.content, hi]
      by_cases hchild : ∃ s, G (path.segments ++ [s]) ≠ none
      · rw [if_pos (hbelow.mpr hchild), if_pos hchild]
        rfl
      · rw [if_neg (fun hc => hchild (hbelow.mp hc)), if_neg hchild]
        intro _
        refine ⟨_, rfl, ?_⟩
        rw [hsegments]
        exact h.remove _
    · obtain ⟨i, hi⟩ := hG.parent (hsegments ▸ hp)
      simp only [Option.map_some, Node.content, hi, h.decodeNode_eq ht hp, Rust.ok_bind]
      intro _
      refine ⟨_, rfl, ?_⟩
      rw [hsegments]
      exact h.remove _

/-- The content that an update starts from comes from an ordered value of the kind, or is none. -/
theorem contentOr_eq (h : Represents t G next) (ht : t.Fits) {α : Type} (path : DbPath) (kind : String)
    (content : Value → Option α) (nothing : α) :
    t.contentOr path kind content nothing = G.contentOr path kind content nothing := by
  unfold PathTree.contentOr Graph.contentOr
  rw [h.find]
  match hp : G path.segments with
  | none => rfl
  | some (i, .dir) => rfl
  | some (i, .value v) =>
    simp only [Option.map_some, Node.content, h.decodeNode_eq ht hp, Rust.ok_bind]

/-- The content that a method goes on from comes from an ordered value. -/
theorem contentOr_ordered (h : Represents t G next) {α : Type} {path : DbPath} {kind : String} {content : Value → Option α}
    {nothing a : α} (ha : t.contentOr path kind content nothing = .ok a) :
    a = nothing ∨ ∃ v, v.Ordered ∧ content v = some a := by
  unfold PathTree.contentOr at ha
  rw [h.find] at ha
  match hp : G path.segments with
  | none =>
    rw [hp] at ha
    cases ha
    exact Or.inl rfl
  | some (i, .dir) =>
    rw [hp] at ha
    cases ha
  | some (i, .value v) =>
    rw [hp] at ha
    exact Or.inr ⟨v.canon, (h.ordered _ i v hp).canon, Rust.okOr_eq_ok.mp ha⟩

/-- An update of a structure, where the tree is given a value of the same canonical form. -/
theorem update_refines (h : Represents t G next) (ht : t.Fits) {α : Type} (path : DbPath) (kind : String)
    (content : Value → Option α) (nothing : α) {update update' : α → Value}
    (hupdate : ∀ a, (a = nothing ∨ ∃ v, v.Ordered ∧ content v = some a) →
      (update a).Ordered ∧ (update' a).canon = (update a).canon) :
    Refines G next (do
      let a ← t.contentOr path kind content nothing
      t.set path (update' a)) (do
        let a ← G.contentOr path kind content nothing
        G.planSet next path (update a)) := by
  rw [← h.contentOr_eq ht]
  cases ha : t.contentOr path kind content nothing with
  | error e => rfl
  | ok a =>
    obtain ⟨hordered, hcanon⟩ := hupdate a (h.contentOr_ordered ha)
    have hset : t.set path (update' a) = t.set path (update a) := by
      unfold PathTree.set
      rw [hcanon]
    rw [Rust.ok_bind, Rust.ok_bind, hset]
    exact h.set_refines ht path hordered

/-- Every operation. -/
theorem apply_refines (h : Represents t G next) (hG : G.WellFormed next) (ht : t.Fits) {op : TxnOp}
    (hop : ∀ v ∈ op.value, v.Ordered) : Refines G next (t.apply op) (G.plan next op) := by
  cases op with
  | mkdir path => exact h.mkdir_refines path
  | set path v => exact h.set_refines ht path (hop v rfl)
  | delete path => exact h.delete_refines hG ht path
  | hashSet path key v =>
    refine h.update_refines ht path "hash" Value.asHash [] (fun map hmap => ⟨?_, rfl⟩)
    have hordered : (Value.hash map).Ordered := by
      rcases hmap with rfl | ⟨w, hw, hmap⟩
      · exact .intro _ List.Pairwise.nil (fun _ hw => absurd hw List.not_mem_nil)
      · cases w <;> cases hmap
        exact hw
    exact hordered.hash_insert key (hop v rfl)
  | listPush path v =>
    refine h.update_refines ht path "list" Value.asList [] (fun items hitems => ⟨?_, rfl⟩)
    have hordered : (Value.list items).Ordered := by
      rcases hitems with rfl | ⟨w, hw, hitems⟩
      · exact .intro _ trivial (fun _ hw => absurd hw List.not_mem_nil)
      · cases w <;> cases hitems
        exact hw
    exact hordered.list_append (hop v rfl)
  | setAdd path v =>
    refine h.update_refines ht path "set" Value.asSet [] (fun members hmembers => ?_)
    have hordered : (Value.set members).Ordered := by
      rcases hmembers with rfl | ⟨w, hw, hmembers⟩
      · exact .intro _ trivial (fun _ hw => absurd hw List.not_mem_nil)
      · cases w <;> cases hmembers
        exact hw
    unfold Database.addMember
    split
    · -- a member that is there is merged in the canonical form
      rename_i hany
      obtain ⟨m, hm, hpayload⟩ := List.any_eq_true.mp hany
      exact ⟨hordered, Value.canon_set_append hm (by simpa using hpayload)⟩
    · exact ⟨hordered.set_append (hop v rfl), rfl⟩
  | treeSet path key v =>
    refine h.update_refines ht path "tree" Value.asTree [] (fun map hmap => ⟨?_, rfl⟩)
    have hordered : (Value.tree map).Ordered := by
      rcases hmap with rfl | ⟨w, hw, hmap⟩
      · exact .intro _ List.Pairwise.nil (fun _ hw => absurd hw List.not_mem_nil)
      · cases w <;> cases hmap
        exact hw
    exact hordered.tree_insert key (hop v rfl)

end Represents
/-! ## Runs -/

/-- A command on the database and on the tree. -/
def stepBoth (s : Database × PathTree) (c : Command) : Option (Database × PathTree) :=
  some (Database.left (c.run s.1), s.2.after c)

/-- Why an operation fails on the tree, if it does. -/
def treeFailure : Rust NsError PathTree → Option (Failure NsError)
  | .ok _ => none
  | .error e => some e

/-- The rows are those of a graph that the tree is what it shows. -/
def Linked (db : Database) (t : PathTree) : Prop :=
  t.Fits ∧ ∃ G next, Stores db.store.map G next ∧ Represents t G next

namespace Linked

open Database

variable {db : Database} {t : PathTree}

/-- A database that is linked to a tree agrees with it. -/
theorem agrees (h : Linked db t) : Agrees db t := by
  obtain ⟨ht, G, next, hstores, hrep⟩ := h
  exact hrep.agrees ht hstores

/-- A call, where the trees that it leads to fit. -/
theorem call (h : Linked db t) {op : TxnOp} (hop : ∀ v ∈ op.value, v.Ordered) (hfits : ∀ t', t.apply op = .ok t' → t'.Fits) :
    match t.apply op with
    | .ok t' => ∃ db', Database.call op db = .ok () db' ∧ Linked db' t'
    | .error e => Database.call op db = .error e db := by
  obtain ⟨ht, G, next, hstores, hrep⟩ := h
  have hrefines := hrep.apply_refines hstores.wf ht hop
  rw [call_eq hstores]
  cases happly : t.apply op with
  | error e =>
    rw [happly] at hrefines
    rw [show G.plan next op = .error e from hrefines]
    rfl
  | ok t' =>
    rw [happly] at hrefines
    obtain ⟨c, hplan, hrep'⟩ := hrefines (hfits t' happly)
    rw [hplan]
    exact ⟨_, rfl, hfits t' happly, _, _, hstores.change (Graph.plan_fits hstores.wf hplan), hrep'⟩

/-- Calls one after the other. -/
theorem callAll (h : Linked db t) {ops : List TxnOp} (hfits : t.FitsAll ops) :
    match ops.foldlM PathTree.apply t with
    | .ok t' => ∃ db', Database.callAll ops db = .ok () db' ∧ Linked db' t'
    | .error e => ∃ db', Database.callAll ops db = .error e db' := by
  induction ops generalizing db t with
  | nil => exact ⟨db, rfl, h⟩
  | cons op ops ih =>
    obtain ⟨hop, hrest⟩ := hfits
    have hcall := h.call hop (fun t' ht' => (hrest t' ht').1)
    rw [List.foldlM_cons]
    cases happly : t.apply op with
    | error e =>
      rw [happly] at hcall
      exact ⟨db, bind_of_error hcall _⟩
    | ok t' =>
      rw [happly] at hcall
      obtain ⟨db', hdb', hlinked⟩ := hcall
      have hall : Database.callAll (op :: ops) db = Database.callAll ops db' := bind_of_ok hdb' _
      rw [Rust.ok_bind, hall]
      exact ih hlinked (hrest t' happly).2

/-- A command. -/
theorem run (h : Linked db t) {c : Command} (hfits : t.FitsAll c.ops) :
    match t.run c with
    | .ok t' => ∃ db', c.run db = .ok () db' ∧ Linked db' t'
    | .error e => c.run db = .error e db := by
  obtain ⟨G, next, hstores, -⟩ := h.2
  cases c with
  | call op => exact h.call hfits.1 (fun t' ht' => (hfits.2 t' ht').1)
  | applyTxn ops =>
    have htxn := applyTxn_eq hstores ops
    have hall := h.callAll hfits
    change match ops.foldlM PathTree.apply t with
      | .ok t' => ∃ db', applyTxn ops db = .ok () db' ∧ Linked db' t'
      | .error e => applyTxn ops db = .error e db
    cases hfold : ops.foldlM PathTree.apply t with
    | error e =>
      rw [show Command.ops (.applyTxn ops) = ops from rfl, hfold] at hall
      obtain ⟨db', hdb'⟩ := hall
      rw [htxn, hdb']
    | ok t' =>
      rw [show Command.ops (.applyTxn ops) = ops from rfl, hfold] at hall
      obtain ⟨db', hdb', hlinked⟩ := hall
      exact ⟨db', by rw [htxn, hdb'], hlinked⟩
  | reopen => exact ⟨db, openStore_eq hstores, h⟩

/-- A new database is linked to a new tree. -/
theorem opened : Linked opened PathTree.initial := by
  have hfind : ∀ p, PathTree.initial.find p = if p = [] then some .directory else none :=
    fun p => OrdMap.empty.get_insert [] p Content.directory
  refine ⟨⟨?_, by decide⟩, Graph.initial, 2, opened_stores, ?_, ?_, rfl⟩
  · intro p v hp
    rw [hfind] at hp
    split at hp <;> cases hp
  · intro p
    rw [hfind, Graph.initial]
    split <;> rfl
  · intro p i v hp
    cases (Graph.initial_eq_some.mp hp).2

/-- Every command keeps a database and a tree linked. -/
theorem step {s s' : Database × PathTree} (h : Linked s.1 s.2) {c : Command} (hfits : s.2.FitsAll c.ops)
    (hstep : stepBoth s c = some s') : Linked s'.1 s'.2 := by
  cases hstep
  have hrun := h.run hfits
  unfold PathTree.after
  cases ht : s.2.run c with
  | error e =>
    rw [ht] at hrun
    rw [show c.run s.1 = .error e s.1 from hrun]
    exact h
  | ok t' =>
    rw [ht] at hrun
    obtain ⟨db', hdb', hlinked⟩ := hrun
    rw [hdb']
    exact hlinked

/-- A command fails on both alike. -/
theorem failure_eq (h : Linked db t) {c : Command} (hfits : t.FitsAll c.ops) :
    failure (c.run db) = treeFailure (t.run c) := by
  have hrun := h.run hfits
  cases ht : t.run c with
  | error e =>
    rw [ht] at hrun
    rw [show c.run db = .error e db from hrun]
    rfl
  | ok t' =>
    rw [ht] at hrun
    obtain ⟨db', hdb', -⟩ := hrun
    rw [hdb']
    rfl

end Linked

/-! ## The trees that operations lead to -/

namespace PathTree

variable {t t' : PathTree}

theorem Fits.create (h : t.Fits) {p : List String} {c : Content} (hc : ∀ v, c = .value v → v.Small)
    (hids : t.created + 3 < 2 ^ 64) : (t.create p c).Fits := by
  refine ⟨?_, ?_⟩
  · intro q v hq
    rw [find_create] at hq
    split at hq
    · exact hc v (Option.some.inj hq)
    · exact h.small q v hq
  · change t.created + 1 + 2 < 2 ^ 64
    omega

theorem Fits.replace (h : t.Fits) {p : List String} {v : Value} (hv : v.Small) : (t.replace p v).Fits := by
  refine ⟨?_, h.ids⟩
  intro q w hq
  rw [find_replace] at hq
  split at hq
  · cases hq
    exact hv
  · exact h.small q w hq

/-- `set` leaves the other paths. -/
theorem set_find {path : DbPath} {v : Value} (h : t.set path v = .ok t') {p : List String} (hp : p ≠ path.segments) :
    t'.find p = t.find p := by
  unfold set at h
  split at h
  · cases h
  · obtain ⟨_, -, h⟩ := Rust.bind_eq_ok.mp h
    split at h
    · cases h
    · cases h
      rw [find_replace, if_neg hp]
    · cases h
      rw [find_create, if_neg hp]

/-- An operation leaves every path but its own. -/
theorem apply_find {op : TxnOp} (h : t.apply op = .ok t') {p : List String} (hp : p ≠ op.path.segments) :
    t'.find p = t.find p := by
  cases op with
  | mkdir path =>
    rw [apply, mkdir] at h
    split at h
    · cases h
      rfl
    · split at h
      · cases h
      · obtain ⟨_, -, h⟩ := Rust.bind_eq_ok.mp h
        cases h
        exact (find_create _ _ _ _).trans (if_neg hp)
  | set path v => exact set_find h hp
  | delete path =>
    rw [apply, delete] at h
    split at h
    · cases h
    · cases h
    · split at h
      · cases h
      · cases h
        exact (find_remove _ _ _).trans (if_neg hp)
    · cases h
      exact (find_remove _ _ _).trans (if_neg hp)
  | hashSet path key v | listPush path v | setAdd path v | treeSet path key v =>
    obtain ⟨_, -, h⟩ := Rust.bind_eq_ok.mp h
    exact set_find h hp

end PathTree

/-- A path that the tree keeps is read as before. -/
theorem Agrees.of_find {db db' : Database} {t t' : PathTree} (h : Agrees db t) (h' : Agrees db' t') {path : DbPath}
    (hfind : t'.find path.segments = t.find path.segments) :
    db'.get path = db.get path ∧ db'.exists path = db.exists path := by
  rw [h'.get, h.get, h'.exists, h.exists, PathTree.get, PathTree.get, PathTree.exists, PathTree.exists, hfind]
  exact ⟨rfl, rfl⟩

namespace Database

/-- The namespace refines a path tree. After every run of commands from the database opened on an empty store, in which the trees
fit, the database answers `get`, `exists` and `list` of every path as the tree; each command then has the failure that it has on the
tree, or none, and leads to databases that answer as the tree after it; and a call leaves the answers for every path but its own. -/
theorem namespace_refines_pathTree {cmds : List Command} {db : Database} {t : PathTree}
    (h : Run stepBoth (fun s c => s.2.FitsAll c.ops) (opened, PathTree.initial) cmds (db, t)) :
    Agrees db t ∧
      (∀ c : Command, t.FitsAll c.ops → failure (c.run db) = treeFailure (t.run c) ∧ Agrees (left (c.run db)) (t.after c)) ∧
      (∀ op : TxnOp, t.FitsAll [op] → ∀ path : DbPath, path ≠ op.path →
        (left (call op db)).get path = db.get path ∧ (left (call op db)).exists path = db.exists path) := by
  have hlinked : Linked db t :=
    h.invariant (I := fun s => Linked s.1 s.2) Linked.opened (fun s c s' hs hc hstep => hs.step hc hstep)
  have hafter : ∀ c : Command, t.FitsAll c.ops → Agrees (left (c.run db)) (t.after c) := by
    intro c hc
    have hstep : Linked (left (c.run db)) (t.after c) := Linked.step (s := (db, t)) hlinked hc rfl
    exact hstep.agrees
  refine ⟨hlinked.agrees, fun c hc => ⟨hlinked.failure_eq hc, hafter c hc⟩, ?_⟩
  intro op hop path hpath
  have hafter : Agrees (left (call op db)) (t.after (.call op)) := hafter (.call op) hop
  refine hlinked.agrees.of_find hafter ?_
  unfold PathTree.after
  cases happly : t.run (.call op) with
  | error e => rfl
  | ok t' => exact PathTree.apply_find happly (fun hp => hpath (DbPath.ext hp))

/-- A transaction that creates a directory and a set in it, with a member that is added twice. -/
def addTwice : List TxnOp :=
  [.mkdir pathA, .setAdd ⟨["a", "s"], by decide⟩ (.scalar (.int 7)),
    .setAdd ⟨["a", "s"], by decide⟩ (.scalar (.int 7))]

/-- The tree after it. -/
def addedTwice : PathTree :=
  ((PathTree.initial.create ["a"] .directory).create ["a", "s"] (.value (.set [.scalar (.int 7)]))).replace ["a", "s"]
    (.set [.scalar (.int 7)])

theorem fitsAll_addTwice : PathTree.initial.FitsAll addTwice := by
  have hsmall : (Value.set [.scalar (.int 7)]).Small :=
    .intro _ (show 1 < 2 ^ 32 by decide) (fun w hw => List.mem_singleton.mp hw ▸ Value.everywhere_scalar trivial)
  have hordered : ∀ v ∈ some (Value.scalar (.int 7)), v.Ordered := by
    intro v hv
    cases hv
    exact Value.everywhere_scalar trivial
  have hdir : (PathTree.initial.create ["a"] .directory).Fits :=
    Linked.opened.1.create (fun v hv => nomatch hv) (by decide)
  have hset : ((PathTree.initial.create ["a"] .directory).create ["a", "s"] (.value (.set [.scalar (.int 7)]))).Fits :=
    hdir.create (fun v hv => by cases hv; exact hsmall) (by decide)
  refine ⟨fun v hv => (by cases hv), fun t ht => ?_⟩
  obtain rfl : PathTree.initial.create ["a"] .directory = t := Except.ok.inj ht
  refine ⟨hdir, hordered, fun t ht => ?_⟩
  obtain rfl : (PathTree.initial.create ["a"] .directory).create ["a", "s"] (.value (.set [.scalar (.int 7)])) = t :=
    Except.ok.inj ht
  refine ⟨hset, hordered, fun t ht => ?_⟩
  obtain rfl : addedTwice = t := Except.ok.inj ht
  exact ⟨hset.replace hsmall, trivial⟩

/-- After the transaction the set has the member once, and its directory is not deleted. -/
theorem refines_after_addTwice : ∃ db, Run stepBoth (fun s c => s.2.FitsAll c.ops) (opened, PathTree.initial)
      [.applyTxn addTwice] (db, addedTwice) ∧
    db.get ⟨["a", "s"], by decide⟩ =
      .ok { path := ⟨["a", "s"], by decide⟩, kind := .value, value := some (.set [.scalar (.int 7)]) } ∧
    db.list ⟨["a"], by decide⟩ = .ok [("s", .value)] ∧
    failure (call (.delete ⟨["a"], by decide⟩) db) = some (.err (.invalid "directory not empty: /a")) := by
  have hrun : Run stepBoth (fun s c => s.2.FitsAll c.ops) (opened, PathTree.initial) [.applyTxn addTwice]
      (left (applyTxn addTwice opened), addedTwice) := Run.cons fitsAll_addTwice rfl Run.nil
  obtain ⟨hagrees, hfail, -⟩ := namespace_refines_pathTree hrun
  refine ⟨_, hrun, (hagrees.get _).trans rfl, (hagrees.list _).trans rfl, ?_⟩
  refine (hfail (.call (.delete ⟨["a"], by decide⟩)) ?_).1.trans rfl
  exact ⟨fun v hv => (by cases hv), fun t ht => (by cases ht)⟩

end Database
end AlefsDb
