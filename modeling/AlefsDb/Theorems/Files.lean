import AlefsDb.Fuse.Views
import AlefsDb.Theorems.FileWrites

/-!
# What the mount tells of an inode

`getattr`, `read`, `getxattr`, `lookup` and `readdir` each look an inode up on their own. On every mount they tell the same: the
size that is told is that of the bytes that are read, and what a name is found to be is what the inode is then told to be.
-/

namespace AlefsDb
namespace Fuse

section

variable (floatText : UInt64 → List Char) (hasher : Bytes → UInt64)

/-- A reader that goes on behind the bytes that it has, with a size for each of its reads. -/
def readPages (fs : AlefsFs) (ino : UInt64) : List UInt32 → Bytes → Rust ReadErrno Bytes
  | [], got => .ok got
  | size :: sizes, got => do
    let bytes ← read floatText hasher fs ino (Int64.ofNat got.length) size
    readPages fs ino sizes (got ++ bytes)

/-- The number of bytes that reads ask for. -/
def total (sizes : List UInt32) : Nat := (sizes.map UInt32.toNat).sum

/-- What `getattr` replies of an inode is what reads of it then give. -/
structure StatTells (fs : AlefsFs) (ino : UInt64) : Prop where
  file : ∀ attr, getattr floatText hasher fs ino = .ok attr → attr.kind = .regularFile → ∃ data : Bytes, attr.size = UInt64.ofNat data.length ∧
    ∀ sizes, total sizes < 2 ^ 63 → readPages floatText hasher fs ino sizes [] = .ok (data.take (total sizes))
  directory : ∀ attr, getattr floatText hasher fs ino = .ok attr → attr.kind = .directory →
    ∀ offset size, read floatText hasher fs ino offset size = Rust.err .eisdir
  missing : ∀ e, getattr floatText hasher fs ino = .error e →
    e = .err .enoent ∧ ∀ offset size, ∃ e', read floatText hasher fs ino offset size = Rust.err e'

end

variable {floatText : UInt64 → List Char} {hasher : Bytes → UInt64} {fs : AlefsFs} {ino : UInt64}

/-- A page at a position of a file. -/
theorem page_ofNat (data : Bytes) {n : Nat} (hn : n < 2 ^ 63) (size : UInt32) :
    page data (Int64.ofNat n) size = (data.drop n).take size.toNat := by
  have hoffset : (Int64.ofNat n).toUInt64.toNat = n := by
    rw [← UInt64.toInt64_ofNat', UInt64.toUInt64_toInt64, UInt64.toNat_ofNat', Nat.mod_eq_of_lt (by omega)]
  rw [page, hoffset]
  by_cases hlength : data.length ≤ n
  · rw [if_pos hlength, List.drop_eq_nil_of_le hlength, List.take_nil]
  · rw [if_neg hlength, List.drop_take, List.take_eq_take_iff, List.length_drop]
    omega

/-- Where each read gives a page of the data, reads one behind the other give its beginning. -/
theorem readPages_of_pages {data : Bytes} (h : ∀ offset size, read floatText hasher fs ino offset size = .ok (page data offset size))
    (sizes : List UInt32) {n : Nat} (hn : n + total sizes < 2 ^ 63) :
    readPages floatText hasher fs ino sizes (data.take n) = .ok (data.take (n + total sizes)) := by
  induction sizes generalizing n with
  | nil => rfl
  | cons size sizes ih =>
    have htotal : total (size :: sizes) = size.toNat + total sizes := rfl
    rw [htotal] at hn ⊢
    have hbytes : data.take n ++ (data.drop (data.take n).length).take size.toNat = data.take (n + size.toNat) := by
      rw [List.take_add, List.length_take]
      by_cases hend : n ≤ data.length
      · rw [Nat.min_eq_left hend]
      · rw [Nat.min_eq_right (by omega), List.drop_eq_nil_of_le (by omega), List.drop_eq_nil_of_le (by omega)]
    have hlength : (data.take n).length < 2 ^ 63 := by
      rw [List.length_take]
      omega
    rw [readPages, h, page_ofNat _ hlength, Rust.ok_bind, hbytes, ih (by omega), Nat.add_assoc]

/-- What is told of a file with these bytes, as they are read. -/
theorem StatTells.of_pages {data : Bytes} {attr : FileAttr} (hstat : getattr floatText hasher fs ino = .ok attr)
    (hkind : attr.kind = .regularFile) (hsize : attr.size = UInt64.ofNat data.length)
    (hread : ∀ offset size, read floatText hasher fs ino offset size = .ok (page data offset size)) :
    StatTells floatText hasher fs ino := by
  refine ⟨fun attr' h _ => ?_, fun attr' h hdirectory => ?_, fun e h => ?_⟩
  · cases hstat.symm.trans h
    refine ⟨data, hsize, fun sizes hsizes => ?_⟩
    have hall := readPages_of_pages hread sizes (n := 0) (by omega)
    rwa [List.take_zero, Nat.zero_add] at hall
  · cases hstat.symm.trans h
    cases hkind.symm.trans hdirectory
  · cases hstat.symm.trans h

/-- On every mount, for every inode that the kernel was given: the size of a file is that of the bytes that a reader gets, whatever
it asks for at a time, committed or not; a directory is not read; and what is not there is neither told of nor read. -/
theorem stat_tells_reads (h : Mounted hasher fs) {text : String} (hino : fs.pathForIno ino = some text) :
    StatTells floatText hasher fs ino := by
  have hsound := h.sound
  obtain ⟨G, next, hstores⟩ := hsound.reached.stores
  cases hdirty : fs.dirty ino with
  | some data =>
    have hstat : getattr floatText hasher fs ino = .ok (fileAttr ino (UInt64.ofNat data.length) .regularFile) := by
      rw [getattr, hino, hdirty]
      rfl
    exact StatTells.of_pages hstat rfl rfl (fun offset size => by rw [read, hdirty])
  | none =>
    have hstat := getattr_eq floatText hasher hsound hdirty
    have hread := read_eq floatText hasher hsound hdirty
    cases hshown : fs.shown hasher ino with
    | none =>
      rw [hshown] at hstat
      simp only [hshown, Option.bind_none] at hread
      refine ⟨fun attr hattr => ?_, fun attr hattr => ?_, fun e he => ?_⟩
      · cases hstat.symm.trans hattr
      · cases hstat.symm.trans hattr
      · cases hstat.symm.trans he
        exact ⟨rfl, fun offset size => ⟨_, hread offset size⟩⟩
    | some s =>
      obtain ⟨path, hpath, hat⟩ := Option.bind_eq_some_iff.mp hshown
      rw [hshown] at hstat
      simp only [hshown, Option.bind_some, hpath, reduceCtorEq, if_false] at hread
      rcases kind_of_shownAt hstores hat with rfl | ⟨v, rfl⟩
      · refine ⟨fun attr hattr hkind => ?_, fun attr _ _ => hread, fun e he => ?_⟩
        · cases hstat.symm.trans hattr
          cases hkind
        · cases hstat.symm.trans he
      · cases v with
        | scalar s => exact StatTells.of_pages hstat rfl rfl hread
        | hash map | set members | list items | tree map =>
          refine ⟨fun attr hattr hkind => ?_, fun attr _ _ => hread, fun e he => ?_⟩
          · cases hstat.symm.trans hattr
            cases hkind
          · cases hstat.symm.trans he

theorem mountedBytes_mounted : Mounted (fun _ => 0) mountedBytes :=
  ⟨_, [.lookup rootIno (utf8 "a")], mountedBytes_reached, Run.of_runAll (fun _ _ _ => trivial) rfl⟩

/-- The file with the bytes. -/
theorem stat_tells_reads_bytes : StatTells (fun _ => []) (fun _ => 0) mountedBytes 2 :=
  stat_tells_reads mountedBytes_mounted (show mountedBytes.pathForIno 2 = some "/a" from rfl)

/-! ## Extended attributes -/

/-- A reply of `getxattr` for a value. -/
def replySized (bytes : Bytes) (size : UInt32) : Rust ReadErrno XattrReply :=
  if size = 0 then .ok (.size (UInt32.ofNat bytes.length))
  else if size < UInt32.ofNat bytes.length then Rust.err .erange
  else .ok (.data bytes)

/-- The types that are shown as directories. -/
def directoryTypes : List String := ["directory", "hash", "set", "list", "tree"]

/-- What the attributes of an inode tell is what `getattr` and reads tell. -/
structure XattrsTell (floatText : UInt64 → List Char) (hasher : Bytes → UInt64) (fs : AlefsFs) (ino : UInt64) : Prop where
  type : ∀ attr, getattr floatText hasher fs ino = .ok attr → ∃ ty,
    (∀ size, getxattr floatText hasher fs ino (utf8 "user.alefs.type") size = replySized (utf8 ty) size) ∧
      (attr.kind = .directory ↔ ty ∈ directoryTypes)
  missing : ∀ e, getattr floatText hasher fs ino = .error e →
    ∀ size, getxattr floatText hasher fs ino (utf8 "user.alefs.type") size = Rust.err .enoent
  member : ∀ size hint, getxattr floatText hasher fs ino (utf8 "user.alefs.member") size = .ok (.data hint) →
    (∀ size, getxattr floatText hasher fs ino (utf8 "user.alefs.type") size ≠ .ok (.data (utf8 "bytes"))) →
    ∀ attr, getattr floatText hasher fs ino = .ok attr → attr.kind = .regularFile →
    ∀ sizes, total sizes < 2 ^ 63 → readPages floatText hasher fs ino sizes [] = .ok (hint.take (total sizes))

/-- `getxattr` replies the value of the attribute, as far as the buffer takes it. -/
theorem getxattr_eq (floatText : UInt64 → List Char) (hasher : Bytes → UInt64) {text : String} {path : DbPath}
    (hino : fs.pathForIno ino = some text) (hpath : DbPath.parse text = .ok path)
    (name : Bytes) (size : UInt32) : getxattr floatText hasher fs ino name size = (do
      let val ← xattrValue floatText hasher fs path name
      replySized (utf8 val) size) := by
  unfold getxattr
  rw [hino, Rust.okOr_some, Rust.ok_bind, hpath]
  rfl

/-- What is replied is the whole value. -/
theorem replySized_data {bytes hint : Bytes} {size : UInt32} (h : replySized bytes size = .ok (.data hint)) : hint = bytes := by
  unfold replySized at h
  split at h
  · cases h
  split at h
  · cases h
  · cases h
    rfl

/-- Some size gets the value. -/
theorem exists_replySized (bytes : Bytes) : ∃ size, replySized bytes size = .ok (.data bytes) := by
  have hmax : ∀ n : UInt32, ¬(4294967295 : UInt32) < n := by
    intro n hlt
    have hn := n.toNat_lt
    rw [UInt32.lt_iff_toNat_lt] at hlt
    change 4294967295 < n.toNat at hlt
    omega
  exact ⟨4294967295, by rw [replySized, if_neg (by decide), if_neg (hmax _)]⟩

/-- The hint of a scalar that is not bytes is its content. -/
theorem utf8_formatMemberHint {s : Scalar} (h : (Value.scalar s).typename ≠ "bytes") :
    utf8 (formatMemberHint floatText (.scalar s)) = scalarBytes floatText s := by
  cases s with
  | bytes b => exact absurd rfl h
  | null | bool b | int n | float bits | string t => rfl

/-- What is shown as a directory has the type of one. -/
theorem directory_iff_type {s : Shown} (h : s = { kind := .directory, value := none } ∨ ∃ v, s = { kind := .value, value := some v }) :
    (attrFor floatText ino s.kind s.value).kind = .directory ↔ typeXattr s.value s.kind ∈ directoryTypes := by
  rcases h with rfl | ⟨v, rfl⟩
  · simp [attrFor, fileAttr, typeXattr, directoryTypes]
  · rcases v with (_ | _ | _ | _ | _ | _) | _ | _ | _ | _ <;>
      simp [attrFor, fileAttr, typeXattr, Value.typename, directoryTypes]

/-- A hint is that of a member of a set that is shown. -/
theorem member_of_hint (h : Sound fs) {path : DbPath} {hint : String}
    (hval : xattrValue floatText hasher fs path (utf8 "user.alefs.member") = .ok hint) :
    ∃ m, hint = formatMemberHint floatText m ∧ shownAt hasher fs.db path = some { kind := .value, value := some m } := by
  obtain ⟨G, next, hstores⟩ := h.reached.stores
  have hname : utf8 "user.alefs.member" ≠ utf8 "user.alefs.type" := fun he => absurd (utf8_injective he) (by decide)
  rw [xattrValue, if_neg hname, if_pos rfl, structureAbove_eq hstores, Rust.ok_bind] at hval
  cases habove : path.parent.bind (valueOf fs.db) with
  | none =>
    rw [habove] at hval
    cases hval
  | some v =>
    rw [habove] at hval
    cases v with
    | scalar s | hash map | list items | tree map => cases hval
    | set members =>
      obtain ⟨m, hm, hval⟩ := Rust.bind_eq_ok.mp hval
      cases hval
      refine ⟨m, rfl, ?_⟩
      unfold shownAt
      cases hget : fs.db.get path with
      | ok e =>
        rw [no_value_above hstores hget] at habove
        cases habove
      | error e =>
        rw [habove]
        simp [projectChildValue, Rust.okOr_eq_ok.mp hm]

/-- On every mount, for an inode without pending writes: the type attribute tells a directory exactly where `getattr` does, and the
hint of a set member is what the file of the member holds, unless that is bytes. -/
theorem xattrs_tell (h : Mounted hasher fs) {text : String} (hino : fs.pathForIno ino = some text) (hclean : fs.dirty ino = none) :
    XattrsTell floatText hasher fs ino := by
  have hsound := h.sound
  obtain ⟨G, next, hstores⟩ := hsound.reached.stores
  have hstat := getattr_eq floatText hasher hsound hclean
  have hread := read_eq floatText hasher hsound hclean
  cases hpath : DbPath.parse text with
  | error e =>
    have hxattr : ∀ name size, getxattr floatText hasher fs ino name size = Rust.err .enoent := by
      intro name size
      unfold getxattr
      rw [hino, Rust.okOr_some, Rust.ok_bind, hpath]
    have hnone : fs.shown hasher ino = none := by simp [AlefsFs.shown, AlefsFs.pathOf, hino, hpath, Except.toOption]
    rw [hnone] at hstat
    refine ⟨fun attr hattr => ?_, fun e _ size => hxattr _ size, fun size hint hmember => ?_⟩
    · cases hstat.symm.trans hattr
    · cases (hxattr _ size).symm.trans hmember
  | ok path =>
    have hxattr := fun name size => getxattr_eq floatText hasher hino hpath name size
    have hshown : fs.shown hasher ino = shownAt hasher fs.db path := by
      simp [AlefsFs.shown, AlefsFs.pathOf, hino, hpath, Except.toOption]
    have htype := xattrValue_type floatText hasher hsound path
    rw [hshown] at hstat
    cases hat : shownAt hasher fs.db path with
    | none =>
      rw [hat] at hstat htype
      refine ⟨fun attr hattr => ?_, fun e _ size => ?_, fun size hint _ _ attr hattr => ?_⟩
      · cases hstat.symm.trans hattr
      · rw [hxattr, htype]
        rfl
      · cases hstat.symm.trans hattr
    | some s =>
      rw [hat] at hstat htype
      refine ⟨fun attr hattr => ⟨typeXattr s.value s.kind, fun size => ?_, ?_⟩, fun e he => ?_, ?_⟩
      · rw [hxattr, htype]
        rfl
      · cases hstat.symm.trans hattr
        exact directory_iff_type (kind_of_shownAt hstores hat)
      · cases hstat.symm.trans he
      · intro size hint hmember hbytes attr hattr hkind sizes hsizes
        cases hstat.symm.trans hattr
        rw [hxattr] at hmember
        obtain ⟨val, hval, hmember⟩ := Rust.bind_eq_ok.mp hmember
        obtain rfl := replySized_data hmember
        obtain ⟨m, rfl, hm⟩ := member_of_hint hsound hval
        rw [hat] at hm
        cases hm
        cases m with
        | hash map | set members | list items | tree map => cases hkind
        | scalar s =>
          have hname : (Value.scalar s).typename ≠ "bytes" := by
            intro hname
            obtain ⟨n, hn⟩ := exists_replySized (utf8 "bytes")
            refine hbytes n ?_
            rw [hxattr, htype, ← hn, ← hname]
            rfl
          simp only [hshown, hat, Option.bind_some, Shown.scalar] at hread
          rw [utf8_formatMemberHint hname]
          have hall := readPages_of_pages hread sizes (n := 0) (by omega)
          rwa [List.take_zero, Nat.zero_add] at hall

/-- A mounted database with a set that holds the integer 7 at `/a`, after the kernel has looked up the set and its member. -/
def mountedSet : AlefsFs :=
  let db := Database.left (Database.set Database.pathA (.set [.scalar (.int 7)]) Database.opened)
  let fs := AlefsFs.left (lookup (fun _ => 0) rootIno (utf8 "a") (AlefsFs.new db))
  AlefsFs.left (lookup (fun _ => 0) 2 (utf8 "0000000000000000") fs)

theorem mountedSet_mounted : Mounted (fun _ => 0) mountedSet :=
  ⟨_, [.lookup rootIno (utf8 "a"), .lookup 2 (utf8 "0000000000000000")],
    ⟨[.call (.set Database.pathA (.set [.scalar (.int 7)]))], Run.of_runAll (fun _ _ _ => trivial) rfl⟩,
    Run.of_runAll (fun _ _ _ => trivial) rfl⟩

/-- The hint of the member is its digit, and so is what its file holds. -/
theorem xattrs_tell_member : XattrsTell (fun _ => []) (fun _ => 0) mountedSet 3 ∧
    ∀ sizes, total sizes < 2 ^ 63 → readPages (fun _ => []) (fun _ => 0) mountedSet 3 sizes [] = .ok ([55].take (total sizes)) := by
  have h := @xattrs_tell (fun _ => []) _ _ 3 mountedSet_mounted "/a/0000000000000000" rfl rfl
  have hint : ∀ size, getxattr (fun _ => []) (fun _ => 0) mountedSet 3 (utf8 "user.alefs.type") size ≠ .ok (.data (utf8 "bytes")) := by
    intro size hsize
    have hbytes := replySized_data (show replySized (utf8 "int") size = .ok (.data (utf8 "bytes")) from hsize)
    exact absurd (utf8_injective hbytes) (by decide)
  exact ⟨h, h.member 16 [55] rfl hint _ rfl rfl⟩

end Fuse
end AlefsDb
