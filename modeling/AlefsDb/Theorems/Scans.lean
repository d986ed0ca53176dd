import AlefsDb.Fuse.Mounts
import AlefsDb.Lemmas.Listing
import AlefsDb.Lemmas.Reached
import AlefsDb.Lib.Scans

/-!
# Scans of a directory

A scan of a directory goes on at the offset of the last entry that it was given. That is a position in a listing that is made anew
for every call, so the scan misses nothing as long as that position is still the one after the last entry.
-/

namespace AlefsDb
namespace Fuse

open Database

/-- A scan of a directory: the file system, the entries replied so far, and whether a reply had no entries. -/
structure Scan where
  fs : AlefsFs
  replied : List DirEntry
  ended : Bool

/-- What happens during a scan: its next call of `readdir`, or another request. -/
inductive ScanAct where
  | next (full : DirBuffer)
  | other (r : MountRequest)

namespace Scan

/-- A scan that has not begun. -/
def start (fs : AlefsFs) : Scan := { fs := fs, replied := [], ended := false }

/-- The offset of the next call: that of the last entry. -/
def offset (s : Scan) : Int64 := (s.replied.getLast?.map DirEntry.offset).getD 0

/-- A step of a scan of the directory of an inode. -/
def step (hasher : Bytes → UInt64) (ino : UInt64) (s : Scan) : ScanAct → Option Scan
  | .next full =>
    if s.ended then
      none
    else
      match readdir hasher ino s.offset full s.fs with
      | .ok entries fs => some { fs := fs, replied := s.replied ++ entries, ended := entries.isEmpty }
      | .error _ _ => none
  | .other r => some { s with fs := AlefsFs.left (r.run hasher s.fs) }

/-- The directory has an entry with the name. -/
def Has (ino : UInt64) (name : String) (s : Scan) : Prop :=
  ∃ text path child, s.fs.pathForIno ino = some text ∧ DbPath.parse text = .ok path ∧ path.join name = .ok child ∧
    s.fs.db.exists child = .ok true

/-- The buffer of a call takes an entry. -/
def TakesOne : ScanAct → Prop
  | .next full => ∀ e, full [] e = false
  | .other _ => True

/-- A call goes on after the last entry: behind `.` and `..`, its offset counts the names up to that of the last entry. -/
def GoesOn (ino : UInt64) (s : Scan) : ScanAct → Prop
  | .next _ => 2 < s.replied.length → ∀ last ∈ s.replied.getLast?, ∀ text path l,
      s.fs.pathForIno ino = some text → DbPath.parse text = .ok path → s.fs.db.list path = .ok l →
      (l.filter (fun e => e.1 ≤ last.name)).length + 2 = s.offset.toUInt64.toNat
  | .other _ => True

end Scan

/-! ## The reply of `readdir` -/

/-- What the loop adds to the reply: entries from the front of the list, at least one where the buffer takes it. -/
theorem addEntries_ok {text : String} {full : DirBuffer} {rest : List ((String × FileType) × Nat)} {reply out : List DirEntry}
    {fs fs' : AlefsFs} (h : addEntries text full rest reply fs = .ok out fs') :
    ∃ added, out = reply ++ added ∧
      added.map (fun e => (e.name, e.offset)) <+: rest.map (fun r => (r.1.1, Int64.ofNat (r.2 + 1))) ∧
      (added = [] → rest = [] ∨ ∃ e, full reply e = true) := by
  induction rest generalizing reply fs with
  | nil =>
    cases h
    exact ⟨[], (List.append_nil _).symm, List.nil_prefix, fun _ => Or.inl rfl⟩
  | cons r rest ih =>
    obtain ⟨⟨name, ft⟩, i⟩ := r
    obtain ⟨ino, fs₁, -, h⟩ := bind_eq_ok h
    dsimp only at h
    split at h
    · rename_i hfull
      cases h
      exact ⟨[], (List.append_nil _).symm, List.nil_prefix, fun _ => Or.inr ⟨_, hfull⟩⟩
    · obtain ⟨added, rfl, hprefix, -⟩ := ih h
      refine ⟨⟨ino, Int64.ofNat (i + 1), ft, name⟩ :: added, by rw [List.append_assoc]; rfl, ?_, fun hnil => by cases hnil⟩
      rw [List.map_cons, List.map_cons]
      exact List.cons_prefix_cons.mpr ⟨rfl, hprefix⟩

/-- The file types are found for all children, in their order. -/
theorem listedChildren_ok {path : DbPath} {kids : List (String × EntryKind)} {out : List (String × FileType)} {fs fs' : AlefsFs}
    (h : listedChildren path kids fs = .ok out fs') : out.map Prod.fst = kids.map Prod.fst := by
  induction kids generalizing fs out with
  | nil =>
    cases h
    rfl
  | cons kid kids ih =>
    obtain ⟨ft, fs₁, -, h⟩ := bind_eq_ok h
    obtain ⟨rest, fs₂, hrest, h⟩ := bind_eq_ok h
    cases h
    rw [List.map_cons, List.map_cons, ih hrest]

/-- The names that a listing starts with. -/
def dots : List String := [".", ".."]

variable {hasher : Bytes → UInt64} {ino : UInt64} {text : String} {path : DbPath}

/-- The names of entries that are taken from the front of a list behind a position, and the offset of the last of them. -/
theorem names_of_prefix {names : List String} {n : Nat} {entries : List DirEntry}
    (h : entries.map (fun e => (e.name, e.offset)) <+: (names.zipIdx.drop n).map (fun r => (r.1, Int64.ofNat (r.2 + 1)))) :
    entries.map DirEntry.name <+: names.drop n ∧
      ∀ e ∈ entries.getLast?, e.offset = Int64.ofNat (n + entries.length) := by
  refine ⟨?_, fun e he => ?_⟩
  · have hnames := h.map Prod.fst
    rw [List.map_map, List.map_map] at hnames
    have hdrop : (names.zipIdx.drop n).map (Prod.fst ∘ fun r => (r.1, Int64.ofNat (r.2 + 1))) = names.drop n := by
      rw [show (Prod.fst ∘ fun r : String × Nat => (r.1, Int64.ofNat (r.2 + 1))) = Prod.fst from rfl, List.map_drop,
        List.zipIdx_map_fst]
    rwa [hdrop] at hnames
  · obtain ⟨start, rfl⟩ := List.getLast?_eq_some_iff.mp he
    have hindex := List.prefix_iff_getElem?.mp h start.length (by simp)
    simp only [List.getElem?_map, List.getElem?_drop, List.getElem?_zipIdx, Option.map_map, Option.map_eq_some_iff] at hindex
    obtain ⟨name, -, hname⟩ := hindex
    rw [List.getElem_map, List.getElem_concat_length rfl, Function.comp_apply] at hname
    rw [← (Prod.mk.inj hname).2, List.length_append, List.length_singleton]
    congr 1
    omega

/-- `readdir` of a directory replies entries of its listing from the offset on, at least one as long as there are some. -/
theorem readdir_ok {fs fs' : AlefsFs} {offset : Int64} {full : DirBuffer} {entries : List DirEntry}
    (h : readdir hasher ino offset full fs = .ok entries fs') (htext : fs.pathForIno ino = some text)
    (hpath : DbPath.parse text = .ok path) {e : Entry} (hget : fs.db.get path = .ok e) (hdir : e.kind = .directory)
    {l : List (String × EntryKind)} (hlist : fs.db.list path = .ok l) (hfull : ∀ e, full [] e = false) :
    entries.map DirEntry.name <+: (dots ++ l.map Prod.fst).drop offset.toUInt64.toNat ∧
      (∀ e ∈ entries.getLast?, e.offset = Int64.ofNat (offset.toUInt64.toNat + entries.length)) ∧
      (entries = [] → (dots ++ l.map Prod.fst).drop offset.toUInt64.toNat = []) := by
  obtain ⟨s, fs₀, hs, h⟩ := bind_eq_ok h
  cases hs
  obtain ⟨text', fs₁, htext', h⟩ := bind_eq_ok h
  rw [orReply_of_some htext] at htext'
  cases htext'
  simp only [hpath] at h
  obtain ⟨r, fs₂, hr, h⟩ := bind_eq_ok h
  rw [getEntry_of_ok hget] at hr
  cases hr
  obtain ⟨below, fs₃, hbelow, h⟩ := bind_eq_ok h
  have hnames : below.map Prod.fst = l.map Prod.fst := by
    unfold entriesBelow at hbelow
    simp only [hdir] at hbelow
    obtain ⟨r, fs₄, hr, hbelow⟩ := bind_eq_ok hbelow
    rw [withDb_of_ok (read_of_ok hlist)] at hr
    cases hr
    exact listedChildren_ok hbelow
  have hlisted : dots ++ l.map Prod.fst = ((".", FileType.directory) :: ("..", .directory) :: below).map Prod.fst := by
    rw [← hnames]
    rfl
  obtain ⟨added, hadded, hprefix, hone⟩ := addEntries_ok h
  obtain rfl : entries = added := hadded
  have hprefix' : entries.map (fun e => (e.name, e.offset)) <+:
      ((dots ++ l.map Prod.fst).zipIdx.drop offset.toUInt64.toNat).map (fun r => (r.1, Int64.ofNat (r.2 + 1))) := by
    rw [hlisted, List.zipIdx_map, ← List.map_drop, List.map_map]
    exact hprefix
  obtain ⟨hnames', hoffset⟩ := names_of_prefix hprefix'
  refine ⟨hnames', hoffset, fun hnil => ?_⟩
  rcases hone hnil with hrest | ⟨e, hno⟩
  · rw [hlisted, ← List.map_drop]
    have hlength := congrArg List.length hrest
    rw [List.length_drop, List.length_zipIdx, List.length_nil] at hlength
    rw [List.drop_eq_nil_of_le (by omega), List.map_nil]
  · rw [hfull e] at hno
    cases hno

/-! ## The scan -/

/-- What a scan has replied: a part of the dots, with their number as its offset, or the dots and names up to some name. -/
inductive Scan.Replied (name : String) (s : Scan) : Prop where
  | early (dots : s.replied.map DirEntry.name <+: dots) (offset : s.offset.toUInt64.toNat = s.replied.length)
  | late (names : List String) (replied : s.replied.map DirEntry.name = dots ++ names) (some : names ≠ [])
      (scanned : Scanned name names)

/-- The offset that counts few entries. -/
theorem offset_of_few {s : Scan} {entries : List DirEntry} (hcount : s.offset.toUInt64.toNat = s.replied.length)
    (hoffset : ∀ e ∈ entries.getLast?, e.offset = Int64.ofNat (s.offset.toUInt64.toNat + entries.length))
    (hfew : s.replied.length + entries.length ≤ 2) {fs : AlefsFs} {ended : Bool} :
    (Scan.offset { fs := fs, replied := s.replied ++ entries, ended := ended }).toUInt64.toNat = (s.replied ++ entries).length := by
  cases hlast : entries.getLast? with
  | none =>
    rw [List.getLast?_eq_none_iff.mp hlast, List.append_nil]
    exact hcount
  | some e =>
    have hne : entries ≠ [] := by
      rintro rfl
      cases hlast
    have he : Scan.offset { fs := fs, replied := s.replied ++ entries, ended := ended } = e.offset := by
      rw [Scan.offset, List.getLast?_append_of_ne_nil _ hne, hlast]
      rfl
    rw [he, hoffset e hlast, hcount, List.length_append]
    generalize s.replied.length + entries.length = n at hfew
    obtain rfl | rfl | rfl : n = 0 ∨ n = 1 ∨ n = 2 := by omega
    all_goals rfl

/-- Behind the dots, what is left of the listing is still to come. -/
theorem position_late {s : Scan} {names : List String} (hreplied : s.replied.map DirEntry.name = dots ++ names) (hsome : names ≠ [])
    {l : List (String × EntryKind)} (hl : OrdMap.Ascending l)
    (hgoes : 2 < s.replied.length → ∀ last ∈ s.replied.getLast?,
      (l.filter (fun e => e.1 ≤ last.name)).length + 2 = s.offset.toUInt64.toNat) :
    (dots ++ l.map Prod.fst).drop s.offset.toUInt64.toNat = toCome names (l.map Prod.fst) := by
  have hlast : s.replied.getLast?.map DirEntry.name = names.getLast? := by
    rw [← List.getLast?_map, hreplied, List.getLast?_append_of_ne_nil _ hsome]
  obtain ⟨b, hb⟩ := Option.isSome_iff_exists.mp (List.getLast?_isSome.mpr hsome)
  rw [hb] at hlast
  obtain ⟨last, hmem, rfl⟩ := Option.map_eq_some_iff.mp hlast
  have hmany : 2 < s.replied.length := by
    have hlength := congrArg List.length hreplied
    rw [List.length_map, List.length_append] at hlength
    have := List.length_pos_iff.mpr hsome
    exact hlength ▸ (by show 2 < 2 + names.length; omega)
  have hcount : ((l.map Prod.fst).filter (fun a => a ≤ last.name)).length = (l.filter (fun e => e.1 ≤ last.name)).length := by
    rw [List.filter_map, List.length_map]
    rfl
  rw [← hgoes hmany last hmem, ← hcount, Nat.add_comm, ← List.drop_drop]
  exact drop_eq_toCome (List.pairwise_map.mpr hl) hb

/-- The entries that are replied next. -/
theorem Scan.Replied.next {name : String} {s : Scan} (h : s.Replied name) {l : List (String × EntryKind)}
    (hl : OrdMap.Ascending l) (hname : name ∈ l.map Prod.fst) {entries : List DirEntry}
    (hgoes : 2 < s.replied.length → ∀ last ∈ s.replied.getLast?,
      (l.filter (fun e => e.1 ≤ last.name)).length + 2 = s.offset.toUInt64.toNat)
    (hentries : entries.map DirEntry.name <+: (dots ++ l.map Prod.fst).drop s.offset.toUInt64.toNat)
    (hoffset : ∀ e ∈ entries.getLast?, e.offset = Int64.ofNat (s.offset.toUInt64.toNat + entries.length)) (fs : AlefsFs) (ended : Bool) :
    Scan.Replied name { fs := fs, replied := s.replied ++ entries, ended := ended } := by
  have hasc : (l.map Prod.fst).Pairwise (· < ·) := List.pairwise_map.mpr hl
  cases h with
  | early hdots hcount =>
    have hsplit := List.prefix_iff_eq_append.mp (hdots.trans (List.prefix_append dots (l.map Prod.fst)))
    have hreplied : (s.replied ++ entries).map DirEntry.name <+: dots ++ l.map Prod.fst := by
      rw [List.map_append, ← hsplit, List.prefix_append_right_inj, List.length_map, ← hcount]
      exact hentries
    by_cases hearly : (s.replied ++ entries).map DirEntry.name <+: dots
    · refine .early hearly ?_
      have hlength := hearly.length_le
      rw [List.length_map, List.length_append] at hlength
      exact offset_of_few hcount hoffset hlength
    · have hlate := (List.prefix_or_prefix_of_prefix hreplied (List.prefix_append dots _)).resolve_left hearly
      obtain ⟨names, hnames⟩ := hlate
      refine .late names hnames.symm ?_ ?_
      · rintro rfl
        rw [List.append_nil] at hnames
        exact hearly (hnames ▸ List.prefix_rfl)
      · rw [← hnames, List.prefix_append_right_inj, ← toCome_nil (l.map Prod.fst)] at hreplied
        exact (scanned_nil name).append hasc hname hreplied
  | late names hreplied hsome hscanned =>
    rw [position_late hreplied hsome hl hgoes] at hentries
    refine .late (names ++ entries.map DirEntry.name) ?_ (by simp [hsome]) (hscanned.append hasc hname hentries)
    rw [List.map_append, hreplied, List.append_assoc]

/-- When a call replies nothing, an entry that is there has been replied once. -/
theorem Scan.Replied.count {name : String} {s : Scan} (h : s.Replied name) {l : List (String × EntryKind)}
    (hl : OrdMap.Ascending l) (hname : name ∈ l.map Prod.fst) (hvalid : ValidSegment name)
    (hgoes : 2 < s.replied.length → ∀ last ∈ s.replied.getLast?,
      (l.filter (fun e => e.1 ≤ last.name)).length + 2 = s.offset.toUInt64.toNat)
    (hended : (dots ++ l.map Prod.fst).drop s.offset.toUInt64.toNat = []) : (s.replied.map DirEntry.name).count name = 1 := by
  cases h with
  | early hdots hcount =>
    have hlength := congrArg List.length hended
    have hle := hdots.length_le
    have hpos := List.length_pos_of_mem hname
    rw [List.length_drop, List.length_append, List.length_nil] at hlength
    rw [List.length_map] at hle
    omega
  | late names hreplied hsome hscanned =>
    have hdots : name ∉ dots := by
      simp [dots, hvalid.2.1, hvalid.2.2.1]
    rw [position_late hreplied hsome hl hgoes] at hended
    rw [hreplied, List.count_append, List.count_eq_zero_of_not_mem hdots, Nat.zero_add]
    exact hscanned.count hname hended

/-- Where the directory has an entry, it is listed. -/
theorem listed_of_has {s : Scan} {name : String} (hsound : Sound s.fs) (hhas : s.Has ino name) :
    ∃ text path e l, s.fs.pathForIno ino = some text ∧ DbPath.parse text = .ok path ∧ s.fs.db.get path = .ok e ∧
      e.kind = .directory ∧ s.fs.db.list path = .ok l ∧ OrdMap.Ascending l ∧ name ∈ l.map Prod.fst ∧ ValidSegment name := by
  obtain ⟨text, path, child, htext, hpath, hjoin, hexists⟩ := hhas
  obtain ⟨G, next, h⟩ := hsound.reached.stores
  obtain ⟨hvalid, hchild⟩ := DbPath.join_ok hjoin
  rw [exists_eq h, hchild] at hexists
  obtain ⟨⟨j, a⟩, hj⟩ := Option.isSome_iff_exists.mp (Except.ok.inj hexists)
  obtain ⟨i, hi⟩ := h.wf.parent hj
  obtain ⟨l, hlist, hlists⟩ := list_eq h hi
  have hname := (hlists.mem_names name).mpr ⟨_, hj⟩
  refine ⟨text, path, { path := path, kind := .directory, value := none }, l, htext, hpath, ?_, rfl, hlist, hlists.ascending, hname,
    hvalid⟩
  rw [Database.get_eq h, hi]
  rfl

/-- What every step of a scan keeps, while an entry is there. -/
structure Scan.Done (name : String) (fs : AlefsFs) (s : Scan) : Prop where
  follows : Follows fs s.fs
  replied : s.Replied name
  ended : s.ended = true → (s.replied.map DirEntry.name).count name = 1

/-- A name that has been returned is not returned again. -/
theorem Scan.Done.step {name : String} {fs : AlefsFs} {s s' : Scan} {a : ScanAct} (h : s.Done name fs) (hone : Scan.TakesOne a)
    (hgoes : s.GoesOn ino a) (hhas : s.Has ino name) (hstep : s.step hasher ino a = some s') : s'.Done name fs := by
  cases a with
  | other r =>
    cases hstep
    refine ⟨Follows.of_kept (Follows.kept_run hasher r) h.follows, ?_, h.ended⟩
    cases h.replied with
    | early hdots hcount => exact .early hdots hcount
    | late names hreplied hsome hscanned => exact .late names hreplied hsome hscanned
  | next full =>
    obtain ⟨text, path, e, l, htext, hpath, hget, hdir, hlist, hl, hname, hvalid⟩ := listed_of_has h.follows.sound hhas
    have hgoes' := fun hmany last hlast => hgoes hmany last hlast text path l htext hpath hlist
    simp only [Scan.step] at hstep
    split at hstep
    · cases hstep
    split at hstep
    · rename_i entries fs' hread
      cases hstep
      obtain ⟨hentries, hoffset, hnil⟩ := readdir_ok hread htext hpath hget hdir hlist hone
      refine ⟨(Follows.kept_readdir hasher ino s.offset full).of_ok h.follows hread,
        h.replied.next hl hname hgoes' hentries hoffset fs' _, fun hended => ?_⟩
      obtain rfl := List.isEmpty_iff.mp hended
      rw [List.append_nil]
      exact h.replied.count hl hname hvalid hgoes' (hnil rfl)
    · cases hstep

/-- A scan misses nothing that stays, and returns it once: in every run in which each call of `readdir` is on a buffer that takes an
entry and goes on after the last entry, whatever the mount serves between the calls, a name that the directory has all the time is
among the entries exactly once when a reply has been empty. -/
theorem scan_returns_once {fs : AlefsFs} (hfs : Mounted hasher fs) {name : String} {acts : List ScanAct} {s : Scan}
    (hrun : Run (Scan.step hasher ino) (fun s a => Scan.TakesOne a ∧ s.GoesOn ino a ∧ s.Has ino name) (Scan.start fs) acts s)
    (hended : s.ended = true) : (s.replied.map DirEntry.name).count name = 1 := by
  have hstart : (Scan.start fs).Done name fs :=
    ⟨Follows.refl hfs.sound, .early List.nil_prefix rfl, fun hended => by cases hended⟩
  exact (hrun.invariant hstart (fun s a s' hs hguard hstep => hs.step hguard.1 hguard.2.1 hguard.2.2 hstep)).ended hended

/-! ## Two directories -/

theorem validSegment_b : ∀ s ∈ ["b"], ValidSegment s := by decide

/-- The path `/b`. -/
def pathB : DbPath := ⟨["b"], validSegment_b⟩

/-- A mount of a database with two directories. -/
def twoDirs : AlefsFs := AlefsFs.new (Database.left (call (.mkdir pathB) (Database.left (call (.mkdir pathA) opened))))

/-- A buffer with room for so many entries. -/
def roomFor (n : Nat) : DirBuffer := fun reply _ => n ≤ reply.length

theorem twoDirs_mounted : Mounted (fun _ => 0) twoDirs :=
  ⟨_, [], ⟨[.call (.mkdir pathA), .call (.mkdir pathB)], Run.of_runAll (fun _ _ _ => trivial) rfl⟩, Run.nil⟩

theorem has_pathB {s : Scan} (h : s.fs.pathForIno rootIno = some "/" ∧ s.fs.db.exists pathB = .ok true) : s.Has rootIno "b" :=
  ⟨"/", DbPath.root, pathB, h.1, by decide +kernel, by decide +kernel, h.2⟩

/-- The scan goes on where it has come to. -/
theorem goesOn_root {s : Scan} {full : DirBuffer} {l : List (String × EntryKind)}
    (h : s.fs.pathForIno rootIno = some "/" ∧ s.fs.db.list DbPath.root = .ok l ∧
      ∀ last ∈ s.replied.getLast?, (l.filter (fun e => e.1 ≤ last.name)).length + 2 = s.offset.toUInt64.toNat) :
    s.GoesOn rootIno (.next full) := by
  obtain ⟨htext, hlist, hcount⟩ := h
  intro _ last hlast text path l' htext' hpath hlist'
  rw [htext] at htext'
  cases htext'
  rw [show DbPath.parse "/" = .ok DbPath.root by decide +kernel] at hpath
  cases hpath
  rw [hlist] at hlist'
  cases hlist'
  exact hcount last hlast

/-- The scan after a step. -/
def Scan.after (s : Scan) (a : ScanAct) : Scan := (s.step (fun _ => 0) rootIno a).getD s

theorem cons_after {guard : Scan → ScanAct → Prop} {s s' : Scan} {a : ScanAct} {as : List ScanAct} (hguard : guard s a)
    (hstep : (s.step (fun _ => 0) rootIno a).isSome) (h : Run (Scan.step (fun _ => 0) rootIno) guard (s.after a) as s') :
    Run (Scan.step (fun _ => 0) rootIno) guard s (a :: as) s' := by
  obtain ⟨s₁, hs₁⟩ := Option.isSome_iff_exists.mp hstep
  rw [Scan.after, hs₁] at h
  exact Run.cons hguard hs₁ h

/-- Three entries are read, a directory behind them is made, and the scan goes on to its end. -/
def addAhead : List ScanAct := [.next (roomFor 3), .other (.mkdir rootIno (utf8 "c")), .next (roomFor 3), .next (roomFor 3)]

/-- The listing with the directory that is made. -/
def threeDirs : List (String × EntryKind) := [("a", .directory), ("b", .directory), ("c", .directory)]

/-- An entry is added ahead of where the scan has come to. -/
theorem scan_returns_once_ahead : ((addAhead.foldl Scan.after (Scan.start twoDirs)).replied.map DirEntry.name).count "b" = 1 := by
  have hrun : Run (Scan.step (fun _ => 0) rootIno) (fun s a => Scan.TakesOne a ∧ s.GoesOn rootIno a ∧ s.Has rootIno "b")
      (Scan.start twoDirs) addAhead (addAhead.foldl Scan.after (Scan.start twoDirs)) := by
    refine cons_after ⟨fun _ => rfl, fun hmany => absurd hmany (by decide), ?_⟩ (by decide +kernel)
      (cons_after ⟨trivial, trivial, ?_⟩ (by decide +kernel)
      (cons_after ⟨fun _ => rfl, ?_, ?_⟩ (by decide +kernel)
      (cons_after ⟨fun _ => rfl, ?_, ?_⟩ (by decide +kernel) Run.nil)))
    · exact has_pathB (by decide +kernel)
    · exact has_pathB (by decide +kernel)
    · exact goesOn_root (l := threeDirs) (by decide +kernel)
    · exact has_pathB (by decide +kernel)
    · exact goesOn_root (l := threeDirs) (by decide +kernel)
    · exact has_pathB (by decide +kernel)
  exact scan_returns_once twoDirs_mounted hrun (by decide +kernel)

/-- The first three entries are read, the directory of the last of them is removed, and the scan goes on. -/
def removeRead : List ScanAct := [.next (roomFor 3), .other (.unlink rootIno (utf8 "a")), .next (roomFor 3)]

/-- A directory that stays is missed, where one before it is removed. -/
theorem scan_misses_entry : ∃ s, Run (Scan.step (fun _ => 0) rootIno) (fun s a => Scan.TakesOne a ∧ s.Has rootIno "b")
    (Scan.start twoDirs) removeRead s ∧ s.ended = true ∧ (s.replied.map DirEntry.name).count "b" = 0 := by
  refine ⟨removeRead.foldl Scan.after (Scan.start twoDirs), ?_, by decide +kernel, by decide +kernel⟩
  exact cons_after ⟨fun _ => rfl, has_pathB (by decide +kernel)⟩ (by decide +kernel)
    (cons_after ⟨trivial, has_pathB (by decide +kernel)⟩ (by decide +kernel)
    (cons_after ⟨fun _ => rfl, has_pathB (by decide +kernel)⟩ (by decide +kernel) Run.nil))

end Fuse
end AlefsDb
