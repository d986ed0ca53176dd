import AlefsDb.Theorems.Files
import AlefsDb.Lemmas.Listing

/-!
# Names, inodes and what is told of them

An inode stands for one path from when it is given to the end of the mount. So what `lookup` or `readdir` replies with an inode can
be compared with what is later told of the inode, or found under the name.
-/

namespace AlefsDb
namespace Fuse

/-! ## Inodes -/

/-- A file system with the database and the pending writes of another one, and its inodes. -/
structure AlefsFs.Names (fs s : AlefsFs) : Prop where
  db : s.db = fs.db
  dirty : s.dirty = fs.dirty
  inodes : ∀ path ino, fs.pathToIno path = some ino → s.pathToIno path = some ino

theorem AlefsFs.Names.refl (fs : AlefsFs) : fs.Names fs := ⟨rfl, rfl, fun _ _ h => h⟩

/-- Inodes that keep their names twice keep them. -/
theorem AlefsFs.Names.trans {fs₁ fs₂ fs₃ : AlefsFs} (h : fs₁.Names fs₂) (h' : fs₂.Names fs₃) : fs₁.Names fs₃ :=
  ⟨h'.db.trans h.db, h'.dirty.trans h.dirty, fun path ino hino => h'.inodes path ino (h.inodes path ino hino)⟩

/-- A path that has an inode gets no other one. -/
theorem inoForPath_of_some {fs : AlefsFs} {path : String} {ino : UInt64} (h : fs.pathToIno path = some ino) :
    inoForPath path fs = .ok ino fs := by
  unfold inoForPath
  refine (bind_of_ok (get_eq fs) _).trans ?_
  rw [h]
  rfl

/-- The inode that a path is given is the one that it then has. -/
theorem inoForPath_ok {fs fs' : AlefsFs} {path : String} {ino : UInt64} (h : inoForPath path fs = .ok ino fs') :
    fs.Names fs' ∧ fs'.pathToIno path = some ino := by
  cases hpath : fs.pathToIno path with
  | some i =>
    rw [inoForPath_of_some hpath] at h
    cases h
    exact ⟨.refl fs, hpath⟩
  | none =>
    unfold inoForPath at h
    obtain ⟨s, fs₀, hs, h⟩ := bind_eq_ok h
    cases hs
    rw [hpath] at h
    dsimp only at h
    split at h
    · obtain ⟨u, fs₁, hset, h⟩ := bind_eq_ok h
      cases hset
      cases h
      refine ⟨⟨rfl, rfl, fun p i hp => ?_⟩, Function.update_self ..⟩
      have hne : p ≠ path := by
        rintro rfl
        rw [hpath] at hp
        cases hp
      exact (Function.update_of_ne hne _ _).trans hp
    · cases h

variable {floatText : UInt64 → List Char} {hasher : Bytes → UInt64} {fs fs' : AlefsFs} {ino : UInt64} {path : DbPath}

/-- What follows a mounted file system through requests. -/
theorem Follows.of_run {requests : List MountRequest} (hfs : Sound fs)
    (hrun : Run (AlefsFs.serve hasher) (fun _ _ => True) fs requests fs') : Follows fs fs' := by
  refine hrun.invariant (Follows.refl hfs) (fun s r s' hs _ hstep => ?_)
  cases hstep
  exact Follows.of_kept (Follows.kept_run hasher r) hs

/-- An inode that a mount has given stands for its path after all further requests, no other inode stands for the path, and whoever
asks for the path again gets the inode. -/
theorem inodes_stable (h : Mounted hasher fs) {requests : List MountRequest}
    (hrun : Run (AlefsFs.serve hasher) (fun _ _ => True) fs requests fs') {text : String} (hino : fs.pathForIno ino = some text) :
    fs'.pathForIno ino = some text ∧ (∀ i, fs'.pathForIno i = some text → i = ino) ∧ inoForPath text fs' = .ok ino fs' := by
  have hfollows := Follows.of_run h.sound hrun
  have hstill := hfollows.inodes ino text hino
  have htable := (hfollows.sound.tables ino text).mp hstill
  refine ⟨hstill, fun i hi => ?_, inoForPath_of_some htable⟩
  rw [(hfollows.sound.tables i text).mp hi] at htable
  exact Option.some.inj htable

/-- An entry is looked up, and removed. -/
theorem inodes_stable_bytes :
    let later := AlefsFs.left ((MountRequest.unlink rootIno (utf8 "a")).run (fun _ => 0) mountedBytes)
    later.pathForIno 2 = some "/a" ∧ (∀ i, later.pathForIno i = some "/a" → i = 2) ∧ inoForPath "/a" later = .ok 2 later :=
  inodes_stable mountedBytes_mounted (Run.cons (a := .unlink rootIno (utf8 "a")) trivial rfl Run.nil) rfl

/-! ## Lookups -/

/-- A name as the kernel gives it: not empty, and without a slash. -/
structure KernelBytes (name : Bytes) : Prop where
  nonempty : name ≠ []
  slash : 47 ∉ name

/-- Bytes that the kernel asks for are a name that it asks for. -/
theorem KernelBytes.kernelName {name : Bytes} {n : String} (h : KernelBytes name) (hutf8 : fromUtf8 name = some n) : KernelName n := by
  have hname := utf8_of_fromUtf8 hutf8
  refine ⟨?_, fun hslash => h.slash ?_⟩
  · rintro rfl
    exact h.nonempty hname
  · rw [hname, ← String.ofList_toList (s := n), utf8_ofList]
    exact List.mem_flatMap.mpr ⟨'/', hslash, by decide⟩

theorem attrFor_ino (ino : UInt64) (kind : EntryKind) (value : Option Value) : (attrFor floatText ino kind value).ino = ino := by
  rcases kind with _ | _
  · rfl
  · rcases value with _ | _ | _ | _ | _ | _ <;> rfl

/-- The inode of `lookup` is that of its attributes. -/
theorem lookup_eq_map (floatText : UInt64 → List Char) (parent : UInt64) (name : Bytes) :
    lookup hasher parent name = FileAttr.ino <$> lookupEntry floatText hasher parent name := by
  have hino : ∀ (child : String) (kind : EntryKind) (value : Option Value),
      inoForPath child = FileAttr.ino <$> (inoForPath child >>= fun ino => pure (attrFor floatText ino kind value)) := by
    intro child kind value
    rw [map_bind]
    simp only [map_pure, attrFor_ino, bind_pure]
  unfold lookup lookupEntry
  simp only [map_bind]
  refine bind_congr (fun fs => bind_congr (fun parentPath => bind_congr (fun n => ?_)))
  cases DbPath.parse (childPath parentPath n) with
  | error e => rfl
  | ok path =>
    simp only [map_bind]
    refine bind_congr (fun val => ?_)
    cases val.bind (fun v => projectChildValue hasher v n) with
    | some v => exact hino _ _ _
    | none =>
      simp only [map_bind]
      refine bind_congr (fun r => ?_)
      cases r with
      | ok entry => exact hino _ _ _
      | error e => rfl

/-- What `lookup` replies about a name, and what is told of the inode. -/
structure LookupTells (floatText : UInt64 → List Char) (hasher : Bytes → UInt64) (fs : AlefsFs) (parent : UInt64) (name : Bytes) :
    Prop where
  found : ∀ attr fs', lookupEntry floatText hasher parent name fs = .ok attr fs' →
    lookup hasher parent name fs = .ok attr.ino fs' ∧
      (fs'.dirty attr.ino = none → getattr floatText hasher fs' attr.ino = .ok attr)
  missing : ∀ fs', lookupEntry floatText hasher parent name fs = .error (.err .enoent) fs' →
    lookup hasher parent name fs = .error (.err .enoent) fs' ∧
      ∀ parentPath n ino, fs.pathForIno parent = some parentPath → fromUtf8 name = some n →
        fs.pathForIno ino = some (childPath parentPath n) → fs.dirty ino = none →
        getattr floatText hasher fs ino = Rust.err .enoent

theorem lookup_of_ok {parent : UInt64} {name : Bytes} {attr : FileAttr} (h : lookupEntry floatText hasher parent name fs = .ok attr fs') :
    lookup hasher parent name fs = .ok attr.ino fs' := by
  rw [lookup_eq_map floatText, map_eq_pure_bind]
  exact bind_of_ok h _

theorem lookup_of_error {parent : UInt64} {name : Bytes} {e : Failure Errno}
    (h : lookupEntry floatText hasher parent name fs = .error e fs') : lookup hasher parent name fs = .error e fs' := by
  rw [lookup_eq_map floatText, map_eq_pure_bind]
  exact bind_of_error h _

theorem shown_of_text {text : String} (hino : fs.pathForIno ino = some text) :
    fs.shown hasher ino = (DbPath.parse text).toOption.bind (shownAt hasher fs.db) := by
  rw [AlefsFs.shown, AlefsFs.pathOf, hino]
  rfl

theorem lookupEntry_no_parent {parent : UInt64} {name : Bytes} (htext : fs.pathForIno parent = none) :
    lookupEntry floatText hasher parent name fs = .error (.err .enoent) fs := by
  unfold lookupEntry
  refine (bind_of_ok (get_eq fs) _).trans ?_
  dsimp only
  rw [htext]
  rfl

theorem lookupEntry_no_name {parent : UInt64} {name : Bytes} {parentPath : String} (htext : fs.pathForIno parent = some parentPath)
    (hn : fromUtf8 name = none) : lookupEntry floatText hasher parent name fs = .error (.err .einval) fs := by
  unfold lookupEntry
  refine (bind_of_ok (get_eq fs) _).trans ((bind_of_ok (orReply_of_some htext _) _).trans ?_)
  rw [hn]
  rfl

/-- A lookup that finds something: what is shown under the name, and the inode of its path. -/
theorem lookupEntry_ok (hsound : Sound fs) {parent : UInt64} {name : Bytes} (hname : KernelBytes name) {attr : FileAttr}
    (h : lookupEntry floatText hasher parent name fs = .ok attr fs') :
    ∃ child s, (DbPath.parse child).toOption.bind (shownAt hasher fs.db) = some s ∧ inoForPath child fs = .ok attr.ino fs' ∧
      attr = attrFor floatText attr.ino s.kind s.value := by
  cases htext : fs.pathForIno parent with
  | none => cases h.symm.trans (lookupEntry_no_parent htext)
  | some parentPath =>
    cases hn : fromUtf8 name with
    | none => cases h.symm.trans (lookupEntry_no_name htext hn)
    | some n =>
      rw [lookupEntry_eq floatText hasher hsound htext hn (hname.kernelName hn)] at h
      cases hshown : (DbPath.parse (childPath parentPath n)).toOption.bind (shownAt hasher fs.db) with
      | none =>
        rw [hshown] at h
        cases h
      | some s =>
        rw [hshown] at h
        obtain ⟨ino, fs₁, hino, h⟩ := bind_eq_ok h
        cases h
        refine ⟨_, s, hshown, ?_, ?_⟩
        · rw [attrFor_ino]
          exact hino
        · rw [attrFor_ino]

/-- What is told of an inode that was just looked up. -/
theorem getattr_of_lookupEntry (hsound : Sound fs) {parent : UInt64} {name : Bytes} (hname : KernelBytes name) {attr : FileAttr}
    (hfound : lookupEntry floatText hasher parent name fs = .ok attr fs') (hclean : fs'.dirty attr.ino = none) :
    getattr floatText hasher fs' attr.ino = .ok attr := by
  have hsound' : Sound fs' := ((Follows.kept_lookup hasher parent name).of_ok (Follows.refl hsound) (lookup_of_ok hfound)).sound
  obtain ⟨child, s, hshown, hino, hattr⟩ := lookupEntry_ok hsound hname hfound
  obtain ⟨hnames, htable⟩ := inoForPath_ok hino
  rw [getattr_eq floatText hasher hsound' hclean, shown_of_text ((hsound'.tables _ _).mpr htable), hnames.db, hshown, Option.map_some,
    ← hattr]
  rfl

/-- On every mount: the attributes that `lookup` replies are those that `getattr` then tells of the inode, and a name that it does
not find is that of no inode that `getattr` tells something of, as long as nothing is pending for the inode. -/
theorem lookup_tells_stat (h : Mounted hasher fs) (parent : UInt64) {name : Bytes} (hname : KernelBytes name) :
    LookupTells floatText hasher fs parent name := by
  have hsound := h.sound
  constructor
  · intro attr fs' hfound
    exact ⟨lookup_of_ok hfound, getattr_of_lookupEntry hsound hname hfound⟩
  · intro fs' hmissing
    refine ⟨lookup_of_error hmissing, fun parentPath n ino htext hn hino hclean => ?_⟩
    rw [lookupEntry_eq floatText hasher hsound htext hn (hname.kernelName hn)] at hmissing
    rw [getattr_eq floatText hasher hsound hclean, shown_of_text hino]
    cases hshown : (DbPath.parse (childPath parentPath n)).toOption.bind (shownAt hasher fs.db) with
    | none => rfl
    | some s =>
      rw [hshown] at hmissing
      cases (bind_of_ok (inoForPath_of_some ((hsound.tables _ _).mp hino)) _).symm.trans hmissing

/-- The file with the bytes is looked up. -/
theorem lookup_tells_stat_bytes : LookupTells (fun _ => []) (fun _ => 0) mountedBytes rootIno (utf8 "a") :=
  lookup_tells_stat mountedBytes_mounted rootIno ⟨by decide +kernel, by decide +kernel⟩

/-! ## Listings -/

/-- The file type that a listing has for a value. -/
def valueType : Option Value → FileType
  | some (.scalar _) => .regularFile
  | _ => .directory

/-- A child in a listing: its kind, and the file type that is listed for it. -/
def ListedAs (db : Database) (path : DbPath) (name : String) (kind : EntryKind) (ft : FileType) : Prop :=
  ∃ child, path.join name = .ok child ∧ ft = match kind with
    | .directory => .directory
    | .value => valueType (valueOf db child)

/-- The children in a listing are those of the directory, each with the file type of its value. -/
theorem listedChildren_listed (hsound : Sound fs) {kids : List (String × EntryKind)} {out : List (String × FileType)}
    (hvalid : ∀ kid ∈ kids, ValidSegment kid.1) (h : listedChildren path kids fs = .ok out fs') :
    fs' = fs ∧ ∀ e ∈ out, ∃ kind, (e.1, kind) ∈ kids ∧ ListedAs fs.db path e.1 kind e.2 := by
  induction kids generalizing out fs' with
  | nil =>
    cases h
    exact ⟨rfl, fun e he => absurd he List.not_mem_nil⟩
  | cons kid kids ih =>
    obtain ⟨name, kind⟩ := kid
    obtain ⟨ft, fs₁, htype, h⟩ := bind_eq_ok h
    obtain ⟨rest, fs₂, hrest, h⟩ := bind_eq_ok h
    cases h
    obtain ⟨child, hjoin, -⟩ := path.join_eq (hvalid _ List.mem_cons_self)
    have hfirst : fs₁ = fs ∧ ListedAs fs.db path name kind ft := by
      cases kind with
      | directory =>
        cases htype
        exact ⟨rfl, child, hjoin, rfl⟩
      | value =>
        unfold childType at htype
        dsimp only at htype
        rw [hjoin] at htype
        have hvalue := (bind_of_ok (valueAt_eq hsound child) _).symm.trans htype
        refine ⟨?_, child, hjoin, ?_⟩
        · rcases hv : valueOf fs.db child with _ | (_ | _ | _ | _ | _) <;> rw [hv] at hvalue <;> cases hvalue <;> rfl
        · rcases hv : valueOf fs.db child with _ | (_ | _ | _ | _ | _) <;> rw [hv] at hvalue <;> cases hvalue <;> rfl
    obtain ⟨hsame, hlisted⟩ := hfirst
    rw [hsame] at hrest
    obtain ⟨hlast, hothers⟩ := ih (fun kid hkid => hvalid kid (List.mem_cons_of_mem _ hkid)) hrest
    refine ⟨hlast, fun e he => ?_⟩
    rcases List.mem_cons.mp he with rfl | he
    · exact ⟨kind, List.mem_cons_self, hlisted⟩
    · obtain ⟨k, hk, hkind⟩ := hothers e he
      exact ⟨k, List.mem_cons_of_mem _ hk, hkind⟩

/-- The inodes of the entries that are added are those of their paths. -/
theorem addEntries_inodes {text : String} {full : DirBuffer} {rest : List ((String × FileType) × Nat)} {reply out : List DirEntry}
    (h : addEntries text full rest reply fs = .ok out fs') :
    fs.Names fs' ∧ ∀ e ∈ out, e ∈ reply ∨
      (∃ i, ((e.name, e.kind), i) ∈ rest) ∧
        fs'.pathToIno (if e.name = "." ∨ e.name = ".." then text else childPath text e.name) = some e.ino := by
  induction rest generalizing reply fs with
  | nil =>
    cases h
    exact ⟨.refl _, fun e he => Or.inl he⟩
  | cons r rest ih =>
    obtain ⟨⟨name, ft⟩, i⟩ := r
    obtain ⟨ino, fs₁, hino, h⟩ := bind_eq_ok h
    obtain ⟨hnames, htable⟩ := inoForPath_ok hino
    dsimp only at h
    split at h
    · cases h
      exact ⟨hnames, fun e he => Or.inl he⟩
    · obtain ⟨hlater, hadded⟩ := ih h
      refine ⟨hnames.trans hlater, fun e he => ?_⟩
      rcases hadded e he with hmem | ⟨⟨j, hj⟩, hpath⟩
      · rcases List.mem_append.mp hmem with hmem | hmem
        · exact Or.inl hmem
        · obtain rfl := List.mem_singleton.mp hmem
          exact Or.inr ⟨⟨i, List.mem_cons_self⟩, hlater.inodes _ _ htable⟩
      · exact Or.inr ⟨⟨j, List.mem_cons_of_mem _ hj⟩, hpath⟩

/-- What an entry of a listing tells is what a lookup of its name tells, and then `getattr` of its inode. -/
def EntryTells (floatText : UInt64 → List Char) (hasher : Bytes → UInt64) (fs : AlefsFs) (dir : UInt64) (e : DirEntry) : Prop :=
  ∃ attr, lookupEntry floatText hasher dir (utf8 e.name) fs = .ok attr fs ∧ attr.ino = e.ino ∧ attr.kind = e.kind ∧
    (fs.dirty e.ino = none → getattr floatText hasher fs e.ino = .ok attr)

/-- The entry is one for a value that cannot be read; it is listed as a directory. -/
def EntryUnreadable (db : Database) (path : DbPath) (e : DirEntry) : Prop :=
  e.kind = .directory ∧ ∃ child m, path.join e.name = .ok child ∧ db.get child = Rust.err (.codec m)

/-- The text of the path of a child. -/
theorem childPath_asStr {child : DbPath} {name : String} (h : child.segments = path.segments ++ [name]) :
    childPath path.asStr name = child.asStr := by
  unfold childPath DbPath.asStr
  rw [h]
  by_cases hroot : path.segments = []
  · simp [hroot, pathText]
  · have hne : pathText path.segments ≠ "/" := by
      intro he
      have hroot' : path = DbPath.root := DbPath.asStr_injective he
      exact hroot (congrArg DbPath.segments hroot')
    rw [if_neg hne, pathText, if_neg hroot, pathText, if_neg (by simp), String.intercalate_append_of_ne_nil hroot (by simp),
      String.intercalate_singleton]
    simp only [String.append_assoc]

/-- A child that is listed is shown as it is listed, or cannot be read. -/
theorem shown_of_listed (hasher : Bytes → UInt64) {G : Graph} {next : UInt64} (h : Stores fs.db.store.map G next) {child : DbPath}
    {i : UInt64} {a : Node} (ha : G child.segments = some (i, a)) {ft : FileType} (hft : ft = match a.kind with
      | .directory => .directory
      | .value => valueType (valueOf fs.db child)) :
    (∃ s, shownAt hasher fs.db child = some s ∧ ∀ ino, (attrFor floatText ino s.kind s.value).kind = ft) ∨
      ft = .directory ∧ ∃ m, fs.db.get child = Rust.err (.codec m) := by
  have hget := Database.get_eq h child
  rw [ha] at hget
  cases a with
  | dir =>
    change fs.db.get child = .ok _ at hget
    refine Or.inl ⟨{ kind := .directory, value := none }, ?_, fun ino => hft.symm⟩
    rw [shownAt, hget]
  | value v =>
    change fs.db.get child = (Database.decodeNode (Codec.encode v) >>= fun value => _) at hget
    rcases Codec.decode_returns (Codec.encode v) with ⟨w, hw⟩ | ⟨e, he⟩
    · rw [Database.decodeNode, hw, Rust.mapErr_ok, Rust.ok_bind] at hget
      change fs.db.get child = .ok _ at hget
      refine Or.inl ⟨{ kind := .value, value := some w }, by rw [shownAt, hget], fun ino => ?_⟩
      rw [hft, valueOf, hget]
      rcases w with _ | _ | _ | _ | _ <;> rfl
    · rw [Database.decodeNode, he, Rust.mapErr_err, Rust.err_bind] at hget
      refine Or.inr ⟨?_, _, hget⟩
      rw [hft, valueOf, hget]
      rfl

/-- A directory that `get` tells of is one of the graph. -/
theorem directory_of_get {G : Graph} {next : UInt64} (h : Stores fs.db.store.map G next) {entry : Entry}
    (hget : fs.db.get path = .ok entry) (hdir : entry.kind = .directory) : ∃ i, G path.segments = some (i, .dir) := by
  rw [Database.get_eq h] at hget
  rcases G.cases_at path.segments with hp | ⟨i, hp⟩ | ⟨i, v, hp⟩
  · rw [hp] at hget
    cases hget
  · exact ⟨i, hp⟩
  · rw [hp] at hget
    obtain ⟨w, -, hget⟩ := Rust.bind_eq_ok.mp hget
    cases hget
    cases hdir

/-- On every mount, for a directory: what `readdir` replies about a child is what a lookup of its name then replies, the inode and
the type, and what `getattr` tells of that inode. Only a child that cannot be read is listed and not found. -/
theorem readdir_tells_lookup (h : Mounted hasher fs) (hino : fs.pathForIno ino = some path.asStr)
    (hpath : DbPath.parse path.asStr = .ok path) {entry : Entry} (hget : fs.db.get path = .ok entry) (hdir : entry.kind = .directory)
    {offset : Int64} {full : DirBuffer} {entries : List DirEntry} (hread : readdir hasher ino offset full fs = .ok entries fs') :
    ∀ e ∈ entries, e.name ≠ "." → e.name ≠ ".." → '\x00' ∉ e.name.toList →
      EntryTells floatText hasher fs' ino e ∨ EntryUnreadable fs.db path e := by
  have hsound := h.sound
  have hfollows := (Follows.kept_readdir hasher ino offset full).of_ok (Follows.refl hsound) hread
  obtain ⟨G, next, hstores, hsegments⟩ := hsound.reached.segments (fun c _ op _ => op.path.valid)
  obtain ⟨i, hi⟩ := directory_of_get hstores hget hdir
  obtain ⟨l, hlist, hlists⟩ := Database.list_eq hstores hi
  obtain ⟨s, fs₀, hs, hread⟩ := bind_eq_ok hread
  cases hs
  obtain ⟨text, fs₁, htext, hread⟩ := bind_eq_ok hread
  rw [orReply_of_some hino] at htext
  cases htext
  rw [hpath] at hread
  obtain ⟨r, fs₂, hentry, hread⟩ := bind_eq_ok hread
  rw [getEntry_of_ok hget] at hentry
  cases hentry
  obtain ⟨below, fs₃, hbelow, hread⟩ := bind_eq_ok hread
  unfold entriesBelow at hbelow
  rw [hdir] at hbelow
  have hkids : listedChildren path l fs = .ok below fs₃ :=
    (bind_of_ok (withDb_of_ok (Database.read_of_ok hlist)) _).symm.trans hbelow
  have hvalid : ∀ kid ∈ l, ValidSegment kid.1 := by
    intro kid hkid
    obtain ⟨j, a, ha, -⟩ := (hlists.mem kid.1 kid.2).mp hkid
    exact hsegments _ _ ha kid.1 (by simp)
  obtain ⟨hsame, hlisted⟩ := listedChildren_listed hsound hvalid hkids
  rw [hsame] at hread
  obtain ⟨hnames, hadded⟩ := addEntries_inodes (show addEntries path.asStr full _ [] fs = .ok entries fs' from hread)
  intro e he hdot hdots hnul
  rcases hadded e he with hmem | ⟨⟨j, hj⟩, htable⟩
  · cases hmem
  rw [if_neg (not_or.mpr ⟨hdot, hdots⟩)] at htable
  have hbelow' : (e.name, e.kind) ∈ below := by
    have hmem := List.fst_mem_of_mem_zipIdx (List.mem_of_mem_drop hj)
    simpa [hdot, hdots] using hmem
  obtain ⟨kind, hkid, child, hjoin, hft⟩ := hlisted _ hbelow'
  obtain ⟨k, a, ha, rfl⟩ := (hlists.mem _ _).mp hkid
  obtain ⟨hsegment, hchild⟩ := DbPath.join_ok hjoin
  rw [← hchild] at ha
  rw [childPath_asStr hchild] at htable
  have hparse : DbPath.parse child.asStr = .ok child := by
    refine DbPath.parse_asStr (fun t ht => ?_)
    rw [hchild] at ht
    rcases List.mem_append.mp ht with ht | ht
    · exact DbPath.noNul_of_parse hpath t ht
    · exact List.mem_singleton.mp ht ▸ hnul
  have hname : KernelName e.name := ⟨hsegment.1, hsegment.2.2.2⟩
  rcases shown_of_listed hasher hstores ha hft with ⟨s, hshown, hkind⟩ | ⟨hft, m, hm⟩
  · refine Or.inl ⟨attrFor floatText e.ino s.kind s.value, ?_, attrFor_ino .., hkind _, fun hclean => ?_⟩
    · rw [lookupEntry_eq floatText hasher hfollows.sound (hfollows.inodes _ _ hino) (fromUtf8_utf8 e.name) hname,
        childPath_asStr hchild, hparse, hnames.db]
      simp only [Except.toOption, Option.bind_some, hshown]
      exact bind_of_ok (inoForPath_of_some htable) _
    · rw [getattr_eq floatText hasher hfollows.sound hclean, shown_of_text ((hfollows.sound.tables _ _).mpr htable), hparse, hnames.db]
      simp only [Except.toOption, Option.bind_some, hshown, Option.map_some, Rust.okOr_some]
  · exact Or.inr ⟨hft, child, m, hjoin, hm⟩

/-- A buffer with room for everything. -/
def unbounded : DirBuffer := fun _ _ => false

/-- The root above the file with the bytes is listed. -/
theorem readdir_tells_lookup_bytes : ∃ entries fs', readdir (fun _ => 0) rootIno 0 unbounded mountedBytes = .ok entries fs' ∧
    ∀ e ∈ entries, e.name ≠ "." → e.name ≠ ".." → '\x00' ∉ e.name.toList →
      EntryTells (fun _ => []) (fun _ => 0) fs' rootIno e ∨ EntryUnreadable mountedBytes.db DbPath.root e := by
  have hsome : ∃ entries fs', readdir (fun _ => 0) rootIno 0 unbounded mountedBytes = .ok entries fs' := ⟨_, _, rfl⟩
  obtain ⟨entries, fs', hread⟩ := hsome
  have hpath : DbPath.parse DbPath.root.asStr = .ok DbPath.root := by decide +kernel
  exact ⟨entries, fs', hread, readdir_tells_lookup mountedBytes_mounted rfl hpath rfl rfl hread⟩

end Fuse
end AlefsDb
