import AlefsDb.Theorems.Files

/-!
# Saving what was read

An editor reads a file and writes it back as it is, in pieces and in any order, and closes it. What it wrote goes through
`parse_scalar_text`, or into the hash that the file is a member of; and nothing changes.
-/

namespace AlefsDb
namespace Fuse

open Database

/-! ## Text that is parsed back -/

/-- The text of a float is parsed to its bits. -/
def FloatTextReads (floatText : UInt64 → List Char) (bits : UInt64) : Prop := parseFloat (trim (floatText bits)) = some bits

theorem trim_of_forall {l : List Char} (h : ∀ c ∈ l, isWhitespace c = false) : trim l = l := by
  have hdrop : ∀ l : List Char, (∀ c ∈ l, isWhitespace c = false) → l.dropWhile isWhitespace = l := by
    intro l hl
    rw [List.dropWhile_eq_self_iff]
    intro hpos
    rw [hl _ (List.getElem_mem hpos)]
    decide
  rw [trim, hdrop l h, hdrop l.reverse (fun c hc => h c (List.mem_reverse.mp hc)), List.reverse_reverse]

/-- A digit is no white space. -/
theorem isWhitespace_of_isDigit {c : Char} (h : c.isDigit = true) : isWhitespace c = false := by
  have hrange : 48 ≤ c.toNat ∧ c.toNat ≤ 57 := by
    simpa [Char.isDigit, UInt32.le_iff_toNat_le] using h
  simp only [isWhitespace, Bool.or_eq_false_iff, Bool.and_eq_false_iff, decide_eq_false_iff_not]
  omega

theorem trim_i64Text (n : Int64) : trim (i64Text n) = i64Text n := by
  have hnat : ∀ m c, c ∈ natText m → isWhitespace c = false := fun m c hc => isWhitespace_of_isDigit (isDigit_of_mem_natText hc)
  refine trim_of_forall (fun c hc => ?_)
  unfold i64Text at hc
  split at hc
  · rcases List.mem_cons.mp hc with rfl | hc
    · decide
    · exact hnat _ c hc
  · exact hnat _ c hc

/-- The content of the file of a scalar is parsed to the scalar. -/
theorem parseScalarText_scalarBytes {floatText : UInt64 → List Char} {s : Scalar}
    (hfloat : ∀ bits, s = .float bits → FloatTextReads floatText bits) : parseScalarText s (scalarBytes floatText s) = some s := by
  cases s with
  | null => exact (show parseScalarText .null (utf8 "null") = some .null by decide +kernel)
  | bool b =>
    cases b with
    | false => exact (show parseScalarText (.bool false) (utf8 "false") = some (.bool false) by decide +kernel)
    | true => exact (show parseScalarText (.bool true) (utf8 "true") = some (.bool true) by decide +kernel)
  | int n => simp [parseScalarText, scalarBytes, trim_i64Text, parseI64_i64Text]
  | float bits =>
    have hparse : parseFloat (trim (floatText bits)) = some bits := hfloat bits rfl
    simp [parseScalarText, scalarBytes, hparse]
  | string t => simp [parseScalarText, scalarBytes]
  | bytes b => rfl

/-! ## Setting what is there -/

section Sets

variable {db : Database} {G : Graph} {next : UInt64} {path : DbPath} {v : Value}

/-- A value that is read at a path is held there. -/
theorem holdsValue_of_valueOf (h : valueOf db path = some v) : db.HoldsValue path v := by
  unfold valueOf at h
  cases hget : db.get path with
  | ok e =>
    rw [hget] at h
    exact ⟨e, hget, h⟩
  | error e =>
    rw [hget] at h
    cases h

/-- Setting the value that is read at a path succeeds, and everything is read as before. -/
theorem set_same (h : Stores db.store.map G next) (hv : db.HoldsValue path v) :
    ∃ db', Database.set path v db = .ok () db' ∧ ∀ q, db'.get q = db.get q := by
  obtain ⟨id, w, hG, hread⟩ := (holdsValue_iff h).mp hv
  obtain ⟨db', hset, -⟩ := Reads.set ⟨G, next, id, w, h, hG, hread⟩ v
  refine ⟨db', hset, fun q => ?_⟩
  obtain ⟨G', next', h', hother, id', hG'⟩ := set_ok_cases h hset
  rw [Database.get_eq h', Database.get_eq h]
  by_cases hq : q.segments = path.segments
  · have hback : Database.decodeNode (Codec.encode v) = .ok v := by
      rw [Database.decodeNode, (Codec.decode_wellRead (decodeNode_eq_ok hread)).decode_encode, Rust.mapErr_ok]
    rw [hq, hG, hG']
    dsimp only [entryOf]
    rw [hback, hread]
  · rw [hother _ hq]

end Sets

/-- What is put in where it is already changes nothing. -/
theorem insertEntry_of_lookup {κ ν : Type} [LinearOrder κ] {k : κ} {v : ν} {l : List (κ × ν)} (hl : OrdMap.Ascending l)
    (h : OrdMap.lookup k l = some v) : OrdMap.insertEntry k v l = l := by
  refine (hl.insertEntry k v).eq_of_lookup hl (fun k' => ?_)
  rw [OrdMap.lookup_insertEntry]
  split
  · rename_i he
    rw [he, h]
  · rfl

/-! ## Writing -/

variable {floatText : UInt64 → List Char} {hasher : Bytes → UInt64} {fs : AlefsFs} {ino : UInt64}

/-- A call that writes applies its write to the buffer. -/
theorem run_of_write {c : FileCall} {w : Write} (hw : c.asWrite = some w) (hc : c.InFile) (fs : AlefsFs) (ino : UInt64) :
    AlefsFs.left (c.run ino fs) = fs.withDirty ino (some (Write.apply ((fs.dirty ino).getD []) w)) := by
  cases c with
  | write offset data =>
    cases hw
    have hoffset : offset.toUInt64.toNat = offset.toNatClampNeg := Int64.toNat_toUInt64_of_le hc.1
    have hfits : offset.toUInt64.toNat + data.length < 2 ^ 63 := by
      rw [hoffset]
      exact hc.2
    have hrun : AlefsFs.left ((FileCall.write offset data).run ino fs) = fs.withDirty ino _ :=
      congrArg AlefsFs.left (bind_of_ok (write_eq hfits) _)
    rw [hrun, copyFromSlice_eq, hoffset]
  | flush => cases hw
  | fsync => cases hw

/-- The writes of callbacks. -/
def writesOf (calls : List FileCall) : List Write := calls.filterMap FileCall.asWrite

/-- Writes change the pending bytes of the inode alone, and these are then what the writes make of them. -/
theorem after_writes {calls : List FileCall} (hcalls : ∀ c ∈ calls, c.InFile ∧ c.asWrite ≠ none) (fs : AlefsFs) :
    (fs.after ino calls).db = fs.db ∧ (fs.after ino calls).pathForIno = fs.pathForIno ∧
      (fs.after ino calls).dirty ino =
        if calls = [] then fs.dirty ino else some (Write.applyAll ((fs.dirty ino).getD []) (writesOf calls)) := by
  induction calls generalizing fs with
  | nil => exact ⟨rfl, rfl, rfl⟩
  | cons c calls ih =>
    obtain ⟨hinside, hsome⟩ := hcalls c List.mem_cons_self
    obtain ⟨w, hw⟩ := Option.ne_none_iff_exists'.mp hsome
    have hstep := run_of_write hw hinside fs ino
    obtain ⟨hdb, htext, hdirty⟩ := ih (fun c' hc' => hcalls c' (List.mem_cons_of_mem _ hc')) (AlefsFs.left (c.run ino fs))
    have hafter : fs.after ino (c :: calls) = (AlefsFs.left (c.run ino fs)).after ino calls := rfl
    rw [hafter, hdb, htext, hdirty, hstep, if_neg (List.cons_ne_nil _ _), AlefsFs.withDirty_dirty_self]
    refine ⟨rfl, rfl, ?_⟩
    have hwrites : writesOf (c :: calls) = w :: writesOf calls := by rw [writesOf, List.filterMap_cons, hw]; rfl
    rw [hwrites]
    split
    · rename_i hnil
      rw [hnil]
      rfl
    · rfl

/-! ## Committing -/

/-- What a commit of the content that is there sets is what is there already; in a structure that is no hash it sets nothing. -/
theorem commitTarget_same (h : Sound fs) {path : DbPath} {s : Scalar} {data : Bytes}
    (hshown : shownAt hasher fs.db path = some { kind := .value, value := some (.scalar s) }) (hs : parseScalarText s data = some s) :
    (∃ e, commitTarget path data fs = .error e fs) ∨
      ∃ target v, commitTarget path data fs = .ok (target, v) fs ∧ fs.db.HoldsValue target v := by
  obtain ⟨G, next, hstores⟩ := h.reached.stores
  unfold shownAt at hshown
  rcases Database.get_returns hstores path with ⟨e, hget⟩ | ⟨e, hget⟩
  · rw [hget] at hshown
    have hvalue : e.value = some (.scalar s) := congrArg Shown.value (Option.some.inj hshown)
    exact Or.inr ⟨path, .scalar s, commitTarget_of_scalar hget hvalue hs, e, hget, hvalue⟩
  · rw [hget] at hshown
    obtain ⟨member, hmember, hsame⟩ := Option.map_eq_some_iff.mp hshown
    have hscalar : member = .scalar s := Option.some.inj (congrArg Shown.value hsame)
    subst hscalar
    obtain ⟨u, hu, hproject⟩ := Option.bind_eq_some_iff.mp hmember
    obtain ⟨parent, hparent, hu⟩ := Option.bind_eq_some_iff.mp hu
    have hroot : path.segments ≠ [] := by
      intro hroot
      rw [DbPath.parent, if_pos hroot] at hparent
      cases hparent
    obtain ⟨dir, name, hdir, hname, -⟩ := DbPath.split hroot
    cases hparent.symm.trans hdir
    have hlast : memberName path = name := by rw [memberName, hname, Option.getD_some]
    rw [hlast] at hproject
    have hsteps : commitTarget path data fs = (do
        let m ← orReply (Value.asHash u) .enoent
        let newS ← newScalar (some ((OrdMap.lookup name m).getD emptyString)) data
        return (parent, .hash (OrdMap.insertEntry name (.scalar newS) m)) : FsM (DbPath × Value)) fs := by
      unfold commitTarget
      refine (bind_of_ok (getEntry_of_err hget) _).trans ((bind_of_ok (orReply_of_some hparent _) _).trans ?_)
      refine (bind_of_ok (orReply_of_some hname _) _).trans ((bind_of_ok (valueAt_eq h parent) _).trans ?_)
      rw [hu]
      rfl
    rw [hsteps]
    cases u with
    | scalar _ | list _ | set _ | tree _ => exact Or.inl ⟨_, rfl⟩
    | hash m =>
      have hlookup : OrdMap.lookup name m = some (.scalar s) := hproject
      have hholds := holdsValue_of_valueOf hu
      have hasc : OrdMap.Ascending m := (hholds.wellRead hstores).1.here
      refine Or.inr ⟨parent, .hash m, ?_, hholds⟩
      have hnew : newScalar (some ((OrdMap.lookup name m).getD emptyString)) data fs = .ok s fs := by
        rw [hlookup]
        exact newScalar_of_scalar hs
      refine (bind_of_ok hnew _).trans ?_
      rw [insertEntry_of_lookup hasc hlookup]
      rfl

/-- A flush of the content that is there changes nothing that is read. -/
theorem commitDirty_same (h : Sound fs) {text : String} {path : DbPath} (htext : fs.pathForIno ino = some text)
    (hpath : DbPath.parse text = .ok path) {s : Scalar} {data : Bytes}
    (hshown : shownAt hasher fs.db path = some { kind := .value, value := some (.scalar s) }) (hdirty : fs.dirty ino = some data)
    (hs : parseScalarText s data = some s) (q : DbPath) : (AlefsFs.left (commitDirty ino fs)).db.get q = fs.db.get q := by
  have hsound : Sound (fs.withDirty ino none) := (Follows.of_dirty (Follows.refl h) _).sound
  obtain ⟨G, next, hstores⟩ := h.reached.stores
  rw [commitDirty_of_some hdirty htext hpath]
  rcases commitTarget_same hsound hshown hs with ⟨e, he⟩ | ⟨target, v, htarget, hv⟩
  · rw [bind_of_error he]
    rfl
  · obtain ⟨db', hset, hsame⟩ := set_same hstores hv
    have hdone : setOrReply target v (fs.withDirty ino none) = .ok () { fs.withDirty ino none with db := db' } := setOrReply_of_ok hset
    rw [(bind_of_ok htarget (fun r => setOrReply r.1 r.2)).trans hdone]
    exact hsame q

/-- Calls keep a mount sound. -/
theorem sound_after (h : Sound fs) (ino : UInt64) (calls : List FileCall) : Sound (fs.after ino calls) := by
  induction calls generalizing fs with
  | nil => exact h
  | cons c calls ih => exact ih (Follows.of_kept (Follows.kept_run (fun _ => 0) (.file ino c)) (Follows.refl h)).sound

/-- The bytes that are read up to the end of a file are its content. -/
theorem content_of_reads (h : Sound fs) (hclean : fs.dirty ino = none) {sizes : List UInt32} {data : Bytes}
    (hread : readPages floatText hasher fs ino sizes [] = .ok data) (hsizes : total sizes < 2 ^ 63)
    (hend : read floatText hasher fs ino (Int64.ofNat data.length) 1 = .ok []) :
    ∃ s, (fs.shown hasher ino).bind Shown.scalar = some s ∧ data = scalarBytes floatText s := by
  have hpage := read_eq floatText hasher h hclean
  cases hshown : (fs.shown hasher ino).bind Shown.scalar with
  | none =>
    simp only [hshown] at hpage
    rw [hpage] at hend
    cases hend
  | some s =>
    simp only [hshown] at hpage
    refine ⟨s, rfl, ?_⟩
    have hall := readPages_of_pages hpage sizes (n := 0) (by omega)
    rw [List.take_zero, Nat.zero_add, hread] at hall
    have hdata : data = (scalarBytes floatText s).take (total sizes) := Except.ok.inj hall
    have hlength : data.length < 2 ^ 63 := by
      rw [hdata, List.length_take]
      omega
    rw [hpage, page_ofNat _ hlength] at hend
    have hbehind := congrArg List.length (Except.ok.inj hend)
    rw [List.length_take, List.length_drop, show (1 : UInt32).toNat = 1 from rfl, List.length_nil] at hbehind
    rw [hdata, List.length_take] at hbehind
    rw [hdata, List.take_of_length_le (by omega)]

/-- On every mount: whoever reads a file to its end, writes the bytes again, in whatever pieces and order make the same bytes of an
empty file, and flushes, leaves all of the database as it was. For a float this takes that its text is that of its bits. -/
theorem save_changes_nothing (h : Mounted hasher fs) (hclean : fs.dirty ino = none) {sizes : List UInt32} {data : Bytes}
    (hread : readPages floatText hasher fs ino sizes [] = .ok data) (hsizes : total sizes < 2 ^ 63)
    (hend : read floatText hasher fs ino (Int64.ofNat data.length) 1 = .ok [])
    (hfloat : ∀ bits, (fs.shown hasher ino).bind Shown.scalar = some (.float bits) → FloatTextReads floatText bits)
    {calls : List FileCall} (hcalls : ∀ c ∈ calls, c.InFile ∧ c.asWrite ≠ none) (hdata : Write.applyAll [] (writesOf calls) = data)
    (q : DbPath) : (fs.after ino (calls ++ [.flush])).db.get q = fs.db.get q := by
  have hsound := h.sound
  obtain ⟨s, hshown, rfl⟩ := content_of_reads hsound hclean hread hsizes hend
  have hs : parseScalarText s (scalarBytes floatText s) = some s :=
    parseScalarText_scalarBytes (fun bits hbits => hfloat bits (hbits ▸ hshown))
  obtain ⟨hdb, htext, hdirty⟩ := after_writes hcalls fs
  have hafter : fs.after ino (calls ++ [.flush]) = AlefsFs.left (commitDirty ino (fs.after ino calls)) := by
    rw [AlefsFs.after, List.foldl_append]
    rfl
  rw [hafter, ← hdb]
  by_cases hnil : calls = []
  · rw [if_pos hnil, hclean] at hdirty
    rw [commitDirty_of_none hdirty]
    rfl
  · rw [if_neg hnil, hclean, Option.getD_none, hdata] at hdirty
    obtain ⟨shown, hshown, hscalar⟩ := Option.bind_eq_some_iff.mp hshown
    obtain ⟨path, hpath, hat⟩ := Option.bind_eq_some_iff.mp hshown
    obtain ⟨text, hino, hparse⟩ := Option.bind_eq_some_iff.mp hpath
    obtain ⟨G, next, hstores⟩ := hsound.reached.stores
    have hvalue : shown = { kind := .value, value := some (.scalar s) } := by
      rcases kind_of_shownAt hstores hat with rfl | ⟨v, rfl⟩
      · cases hscalar
      · cases v with
        | scalar t =>
          cases hscalar
          rfl
        | hash map | set members | list items | tree map => cases hscalar
    rw [hvalue, ← hdb] at hat
    have hok : DbPath.parse text = .ok path := by
      cases hresult : DbPath.parse text with
      | error e =>
        rw [hresult] at hparse
        cases hparse
      | ok p =>
        rw [hresult] at hparse
        cases hparse
        rfl
    exact commitDirty_same (sound_after hsound ino calls) (htext ▸ hino) hok hat hdirty hs q

/-- The two bytes are written back in pieces, and flushed. -/
theorem save_changes_nothing_bytes :
    (mountedBytes.after 2 ([.write 1 [98], .write 0 [97]] ++ [.flush])).db.get Database.pathA = mountedBytes.db.get Database.pathA := by
  have hread : readPages (fun _ => []) (fun _ => 0) mountedBytes 2 [1, 5] [] = .ok [97, 98] := rfl
  refine save_changes_nothing mountedBytes_mounted rfl hread (by decide) rfl (fun bits hbits => ?_) (fun c hc => ?_) (by decide) _
  · cases hbits
  · rcases List.mem_cons.mp hc with rfl | hc
    · exact ⟨⟨by decide, by decide⟩, by simp [FileCall.asWrite]⟩
    · obtain rfl := List.mem_singleton.mp hc
      exact ⟨⟨by decide, by decide⟩, by simp [FileCall.asWrite]⟩

end Fuse
end AlefsDb
