import AlefsDb.Fuse.Files
import AlefsDb.Fuse.Mounts
import AlefsDb.Fuse.TypeAt
import AlefsDb.Lemmas.Reached
import AlefsDb.Lemmas.Reads

/-!
# What the mount shows

`shownAt` says in one place what stands at a path of a mount: the entry there, or else the member of the structure above it that has
the name. Each callback that tells something about a path tells it of this.
-/

namespace AlefsDb

/-! ## The path of a name in a directory -/

namespace DbPath

/-- The text of segments is parsed to them, where it does not end with a slash. -/
theorem parse_slash {rest : List Char} (h : rest ≠ []) (hlast : rest.getLast h ≠ '/') :
    Except.map DbPath.segments (parse (String.ofList ('/' :: rest))) = parseSegments (rest.splitOn '/') := by
  have htrimmed : ('/' :: rest).rdropWhile (· == '/') = '/' :: rest := by
    rw [List.rdropWhile_eq_self_iff]
    intro hne
    simpa [List.getLast_cons h] using hlast
  have hsegments : parseSegments ((('/' :: rest).rdropWhile (· == '/')).tail.splitOn '/') = parseSegments (rest.splitOn '/') := by
    rw [htrimmed, List.tail_cons]
  unfold parse
  rw [String.toList_ofList]
  simp only [htrimmed, h, if_false, ne_eq, not_true_eq_false, reduceCtorEq]
  split
  · rename_i segments hok
    rw [← hsegments]
    exact hok.symm
  · rename_i e herror
    rw [← hsegments]
    exact herror.symm

theorem parse_of_not_slash {text : String} {c : Char} {rest : List Char} (h : text.toList = c :: rest) (hc : c ≠ '/') :
    parse text = Rust.err .notAbsolute := by
  unfold parse
  rw [h]
  simp only [ne_eq, hc, not_false_eq_true, if_true]

/-- Segments that are parsed, the last of them apart. -/
theorem parseSegments_append {l : List (List Char)} {seg : List Char} {segments : List String}
    (h : parseSegments (l ++ [seg]) = .ok segments) :
    ∃ front, parseSegments l = .ok front ∧ segments = front ++ [String.ofList seg] ∧ [] ∉ l := by
  induction l generalizing segments with
  | nil =>
    rw [List.nil_append, parseSegments] at h
    split at h
    · cases h
    split at h
    · cases h
    split at h
    · cases h
    · cases h
      exact ⟨[], rfl, rfl, List.not_mem_nil⟩
  | cons first l ih =>
    rw [List.cons_append, parseSegments] at h
    split at h
    · cases h
    rename_i hempty
    split at h
    · cases h
    rename_i hdots
    split at h
    · cases h
    rename_i hnul
    obtain ⟨rest, hrest, h⟩ := Rust.bind_eq_ok.mp h
    cases h
    obtain ⟨front, hfront, rfl, hl⟩ := ih hrest
    refine ⟨String.ofList first :: front, ?_, rfl, ?_⟩
    · rw [parseSegments, if_neg hempty, if_neg hdots, if_neg hnul, hfront]
      rfl
    · exact List.not_mem_cons_of_ne_of_not_mem (Ne.symm hempty) hl

end DbPath

namespace Fuse

/-- A name that the kernel asks for: not empty, and without a slash. -/
def KernelName (name : String) : Prop := name ≠ "" ∧ '/' ∉ name.toList

/-- `DbPath::parse(&parent_path).unwrap_or_else(|_| DbPath::root())`. -/
def parentOr (parentPath : String) : DbPath :=
  match DbPath.parse parentPath with
  | .ok p => p
  | .error _ => DbPath.root

/-- The path of a name in a directory that is parsed is the path of the directory with the name behind it. -/
theorem parse_childPath {parentPath name : String} {path : DbPath} (hname : KernelName name)
    (h : DbPath.parse (childPath parentPath name) = .ok path) : path.segments = (parentOr parentPath).segments ++ [name] := by
  obtain ⟨hempty, hslash⟩ := hname
  have hnil : name.toList ≠ [] := fun he => hempty (String.toList_inj.mp he)
  have hlast : name.toList.getLast hnil ≠ '/' := fun he => hslash (he ▸ List.getLast_mem hnil)
  have hbare : ∀ text : String, text.toList = '/' :: name.toList → DbPath.parse text = .ok path → path.segments = [name] := by
    intro text htext hparse
    have hsegments := DbPath.parse_slash hnil hlast
    rw [← htext, String.ofList_toList, hparse, List.splitOn_eq_singleton hslash] at hsegments
    obtain ⟨front, hfront, hpath, -⟩ := DbPath.parseSegments_append (l := []) hsegments.symm
    cases hfront
    rw [hpath, String.ofList_toList, List.nil_append]
  by_cases hroot : parentPath = "/"
  · subst hroot
    have hparent : parentOr "/" = DbPath.root := by decide +kernel
    rw [hparent]
    exact hbare _ (by rw [childPath, if_pos rfl, String.toList_append]; rfl) h
  have htext : (childPath parentPath name).toList = parentPath.toList ++ '/' :: name.toList := by
    rw [childPath, if_neg hroot, String.toList_append, String.toList_append]
    simp
  cases hlist : parentPath.toList with
  | nil =>
    have hparent : parentOr parentPath = DbPath.root := by
      rw [show parentPath = "" from String.toList_inj.mp hlist]
      decide +kernel
    rw [hlist] at htext
    rw [hparent]
    exact hbare _ htext h
  | cons c rest =>
    rw [hlist, List.cons_append] at htext
    by_cases hc : c = '/'
    · subst hc
      have hrest : rest ≠ [] := by
        rintro rfl
        exact hroot (String.toList_inj.mp hlist)
      -- the segments of the text are those of the directory, and the name
      have hsegments : Except.map DbPath.segments (DbPath.parse (childPath parentPath name)) =
          DbPath.parseSegments (rest.splitOn '/' ++ [name.toList]) := by
        rw [← List.splitOn_eq_singleton hslash, ← List.splitOn_append_cons_self, ← DbPath.parse_slash (by simp) (by simpa [hnil] using hlast),
          ← htext, String.ofList_toList]
      rw [h] at hsegments
      obtain ⟨front, hfront, hpath, hparts⟩ := DbPath.parseSegments_append hsegments.symm
      have hbehind : rest.getLast hrest ≠ '/' := by
        intro he
        refine hparts ?_
        rw [← List.dropLast_append_getLast hrest, he, List.splitOn_append_cons_self]
        simp
      have hparse := DbPath.parse_slash hrest hbehind
      rw [← hlist, String.ofList_toList, hfront] at hparse
      unfold parentOr
      cases hdir : DbPath.parse parentPath with
      | ok dir =>
        rw [hdir] at hparse
        dsimp only
        rw [hpath, String.ofList_toList, Except.ok.inj hparse]
      | error e =>
        rw [hdir] at hparse
        cases hparse
    · rw [DbPath.parse_of_not_slash htext hc] at h
      cases h

/-! ## What is shown -/

/-- What the mount shows of a path. -/
structure Shown where
  kind : EntryKind
  value : Option Value

/-- The value at a path, if one is read there. -/
def valueOf (db : Database) (path : DbPath) : Option Value :=
  match db.get path with
  | .ok entry => entry.value
  | .error _ => none

/-- What stands at a path: the entry there, or the member of that name in the structure above. -/
def shownAt (hasher : Bytes → UInt64) (db : Database) (path : DbPath) : Option Shown :=
  match db.get path with
  | .ok entry => some { kind := entry.kind, value := entry.value }
  | .error _ =>
    ((path.parent.bind (valueOf db)).bind (fun v => projectChildValue hasher v (memberName path))).map
      (fun v => { kind := .value, value := some v })

/-- The path of an inode, where its text is one. -/
def AlefsFs.pathOf (fs : AlefsFs) (ino : UInt64) : Option DbPath :=
  (fs.pathForIno ino).bind (fun text => (DbPath.parse text).toOption)

/-- What the mount shows of an inode. -/
def AlefsFs.shown (hasher : Bytes → UInt64) (fs : AlefsFs) (ino : UInt64) : Option Shown :=
  (fs.pathOf ino).bind (shownAt hasher fs.db)

/-- The scalar that is shown. -/
def Shown.scalar (s : Shown) : Option Scalar := s.value.bind Value.asScalar

section Stored

variable {hasher : Bytes → UInt64} {db : Database} {G : Graph} {next : UInt64} {path : DbPath}

/-- On a database that stores a graph, the entry at a path is what `get` gives. -/
theorem entryAt_eq (h : Stores db.store.map G next) (path : DbPath) : entryAt db path = .ok (db.get path).toOption := by
  unfold entryAt
  rcases Database.get_returns h path with ⟨e, he⟩ | ⟨e, he⟩
  · rw [he]
    rfl
  · rw [he]
    rfl

theorem toOption_bind_value (db : Database) (path : DbPath) : (db.get path).toOption.bind Entry.value = valueOf db path := by
  unfold valueOf
  cases db.get path <;> rfl

/-- Above an entry there is a directory, and no value. -/
theorem no_value_above (h : Stores db.store.map G next) {e : Entry} (hget : db.get path = .ok e) :
    path.parent.bind (valueOf db) = none := by
  cases hparent : path.parent with
  | none => rfl
  | some parent =>
    have hroot : path.segments ≠ [] := by
      intro hroot
      rw [DbPath.parent, if_pos hroot] at hparent
      cases hparent
    obtain ⟨dir, name, hdir, -, hsegments⟩ := DbPath.split hroot
    cases hparent.symm.trans hdir
    rw [Database.get_eq h] at hget
    cases hp : G path.segments with
    | none =>
      rw [hp] at hget
      cases hget
    | some x =>
      obtain ⟨j, hj⟩ := h.wf.parent (hsegments ▸ hp)
      rw [Option.bind_some, valueOf, Database.get_eq h, hj]
      rfl

/-- The structure above a path is the value of its parent. -/
theorem structureAbove_eq (h : Stores db.store.map G next) (path : DbPath) :
    structureAbove db path = .ok (path.parent.bind (valueOf db)) := by
  unfold structureAbove
  cases path.parent with
  | none => rfl
  | some parent =>
    dsimp only
    rw [entryAt_eq h, Rust.ok_bind, toOption_bind_value]
    rfl

/-- The member at a path is what the value of its parent projects under the last segment. -/
theorem memberAt_eq (h : Stores db.store.map G next) (path : DbPath) : memberAt hasher db path =
    .ok ((path.parent.bind (valueOf db)).bind (fun v => projectChildValue hasher v (memberName path))) := by
  rw [memberAt, structureAbove_eq h]
  rfl

/-- What is shown is an entry, or the member of a structure. -/
theorem shownAt_cases (hasher : Bytes → UInt64) (h : Stores db.store.map G next) (path : DbPath) :
    (∃ e, entryAt db path = .ok (some e) ∧ memberAt hasher db path = .ok none ∧
      shownAt hasher db path = some { kind := e.kind, value := e.value }) ∨
    (∃ v, entryAt db path = .ok none ∧ memberAt hasher db path = .ok (some v) ∧
      shownAt hasher db path = some { kind := .value, value := some v }) ∨
    (entryAt db path = .ok none ∧ memberAt hasher db path = .ok none ∧ shownAt hasher db path = none) := by
  rw [entryAt_eq h, memberAt_eq h, shownAt]
  cases hget : db.get path with
  | ok e => exact Or.inl ⟨e, rfl, by rw [no_value_above h hget]; rfl, rfl⟩
  | error e =>
    cases (path.parent.bind (valueOf db)).bind (fun v => projectChildValue hasher v (memberName path)) with
    | some v => exact Or.inr (Or.inl ⟨v, rfl, rfl, rfl⟩)
    | none => exact Or.inr (Or.inr ⟨rfl, rfl, rfl⟩)

/-- What is shown is a directory without a value, or has a value. -/
theorem kind_of_shownAt (h : Stores db.store.map G next) {s : Shown} (hs : shownAt hasher db path = some s) :
    s = { kind := .directory, value := none } ∨ ∃ v, s = { kind := .value, value := some v } := by
  unfold shownAt at hs
  cases hget : db.get path with
  | ok e =>
    rw [hget] at hs
    cases hs
    rcases Database.kind_of_get h hget with ⟨hkind, hvalue, -⟩ | ⟨hkind, v, hvalue⟩
    · exact Or.inl (by rw [hkind, hvalue])
    · exact Or.inr ⟨v, by rw [hkind, hvalue]⟩
  | error e =>
    rw [hget] at hs
    obtain ⟨v, -, rfl⟩ := Option.map_eq_some_iff.mp hs
    exact Or.inr ⟨v, rfl⟩

end Stored

/-! ## The callbacks -/

section Callbacks

variable (floatText : UInt64 → List Char) (hasher : Bytes → UInt64) {fs : AlefsFs} {ino : UInt64}

/-- `getattr` tells what is shown. -/
theorem getattr_eq (h : Sound fs) (hclean : fs.dirty ino = none) :
    getattr floatText hasher fs ino = Rust.okOr ((fs.shown hasher ino).map (fun s => attrFor floatText ino s.kind s.value)) .enoent := by
  obtain ⟨G, next, hstores⟩ := h.reached.stores
  unfold getattr AlefsFs.shown AlefsFs.pathOf
  cases fs.pathForIno ino with
  | none => rfl
  | some text =>
    rw [hclean, Rust.okOr_some, Rust.ok_bind, Option.bind_some]
    dsimp only
    cases DbPath.parse text with
    | error e => rfl
    | ok path =>
      change _ = Rust.okOr ((shownAt hasher fs.db path).map _) _
      rcases shownAt_cases hasher hstores path with ⟨e, he, -, hs⟩ | ⟨v, he, hm, hs⟩ | ⟨he, hm, hs⟩
      · simp [he, hs]
      · simp [he, hm, hs]
      · simp [he, hm, hs]

/-- `read` gives the bytes of the scalar that is shown. -/
theorem read_eq (h : Sound fs) (hclean : fs.dirty ino = none) (offset : Int64) (size : UInt32) :
    read floatText hasher fs ino offset size = match (fs.shown hasher ino).bind Shown.scalar with
      | some s => .ok (page (scalarBytes floatText s) offset size)
      | none => Rust.err (if fs.pathOf ino = none then .enoent else .eisdir) := by
  obtain ⟨G, next, hstores⟩ := h.reached.stores
  unfold read AlefsFs.shown AlefsFs.pathOf
  rw [hclean]
  cases fs.pathForIno ino with
  | none => rfl
  | some text =>
    rw [Rust.okOr_some, Option.bind_some]
    dsimp only
    rw [Rust.ok_bind]
    cases DbPath.parse text with
    | error e => rfl
    | ok path =>
      change _ = match (shownAt hasher fs.db path).bind Shown.scalar with
        | some s => _
        | none => _
      rcases shownAt_cases hasher hstores path with ⟨e, he, hm, hs⟩ | ⟨v, he, hm, hs⟩ | ⟨he, hm, hs⟩
      · simp only [he, hm, hs, Rust.ok_bind, Option.bind_some, Shown.scalar]
        rcases e.value with _ | (_ | _ | _ | _ | _) <;> rfl
      · simp only [he, hm, hs, Rust.ok_bind, Option.bind_none, Option.bind_some, Shown.scalar]
        cases v <;> rfl
      · simp only [he, hm, hs, Rust.ok_bind, Option.bind_none]
        rfl

/-- The type attribute is the type of what is shown. -/
theorem xattrValue_type (h : Sound fs) (path : DbPath) : xattrValue floatText hasher fs path (utf8 "user.alefs.type") =
    Rust.okOr ((shownAt hasher fs.db path).map (fun s => typeXattr s.value s.kind)) .enoent := by
  obtain ⟨G, next, hstores⟩ := h.reached.stores
  rw [xattrValue, if_pos rfl]
  rcases shownAt_cases hasher hstores path with ⟨e, he, -, hs⟩ | ⟨v, he, hm, hs⟩ | ⟨he, hm, hs⟩
  · simp [he, hs]
  · simp [he, hm, hs]
  · simp [he, hm, hs]

/-- On a sound mount, the value at a path is read without an error. -/
theorem valueAt_eq (h : Sound fs) (path : DbPath) : valueAt path fs = .ok (valueOf fs.db path) fs := by
  obtain ⟨G, next, hstores⟩ := h.reached.stores
  unfold valueOf
  rcases Database.get_returns hstores path with ⟨e, he⟩ | ⟨e, he⟩
  · rw [he]
    exact valueAt_of_ok he
  · rw [he]
    exact bind_of_ok (getEntry_of_err he) _

/-- `lookup` finds what is shown of the path of the name. -/
theorem lookupEntry_eq (h : Sound fs) {parent : UInt64} {name : Bytes} {parentPath n : String} (htext : fs.pathForIno parent = some parentPath)
    (hutf8 : fromUtf8 name = some n) (hname : KernelName n) : lookupEntry floatText hasher parent name fs =
      match (DbPath.parse (childPath parentPath n)).toOption.bind (shownAt hasher fs.db) with
      | some s => (inoForPath (childPath parentPath n) >>= fun ino => pure (attrFor floatText ino s.kind s.value)) fs
      | none => .error (.err .enoent) fs := by
  obtain ⟨G, next, hstores⟩ := h.reached.stores
  unfold lookupEntry
  refine (bind_of_ok (get_eq fs) _).trans ((bind_of_ok (orReply_of_some htext _) _).trans ?_)
  refine (bind_of_ok (orReply_of_some hutf8 _) _).trans ?_
  dsimp only
  cases hparse : DbPath.parse (childPath parentPath n) with
  | error e => rfl
  | ok path =>
    have hsegments := parse_childPath hname hparse
    have hparent : path.parent = some (parentOr parentPath) := by
      rw [DbPath.parent, if_neg (by simp [hsegments])]
      exact congrArg some (DbPath.ext (by simp [hsegments]))
    have hmember : memberName path = n := by simp [memberName, hsegments]
    change (valueAt (parentOr parentPath) >>= _) fs = match shownAt hasher fs.db path with
      | some s => _
      | none => _
    refine (bind_of_ok (valueAt_eq h _) _).trans ?_
    unfold shownAt
    cases hget : fs.db.get path with
    | ok e =>
      have hnone := no_value_above hstores hget
      rw [hparent, Option.bind_some] at hnone
      rw [hnone, Option.bind_none]
      exact bind_of_ok (getEntry_of_ok hget) _
    | error e =>
      rw [hparent, Option.bind_some, hmember]
      cases (valueOf fs.db (parentOr parentPath)).bind (fun v => projectChildValue hasher v n) with
      | some v => rfl
      | none =>
        rcases Database.get_returns hstores path with ⟨e', he⟩ | ⟨e', he⟩
        · rw [hget] at he
          cases he
        · exact bind_of_ok (getEntry_of_err he) _

end Callbacks

end Fuse
end AlefsDb
