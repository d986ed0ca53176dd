import AlefsDb.Lemmas.Loads
import AlefsDb.Lemmas.WalReads
import Mathlib.Algebra.GroupWithZero.Nat

/-!
# The size of a checkpoint

`write_checkpoint` writes the length of the whole body into four bytes. When the sum over all entries reaches `2 ^ 32`, the
length that is written is smaller than the body, the reader takes only a beginning of the body, and no beginning of a body is
itself a body (`flatMap_encodeEntry_inj`): the checkpoint is refused. Below that size it is read back.
-/

namespace AlefsDb
namespace Wal

/-! ## What a checkpoint that is accepted consists of -/

/-- The lengths of an entry fit their 32 bits. -/
def EntryFits (e : Bytes × Bytes) : Prop := e.1.length < 2 ^ 32 ∧ e.2.length < 2 ^ 32

/-- Entries that are read are written at the beginning of what is read. -/
theorem readEntries_eq_ok {n : Nat} {c : Bytes} {map : Rows} {r : Rows × Bytes} (h : readEntries n c map = .ok r) :
    ∃ l : List (Bytes × Bytes), l.length = n ∧ (∀ e ∈ l, EntryFits e) ∧ c = l.flatMap encodeEntry ++ r.2 := by
  induction n generalizing c map with
  | zero =>
    cases h
    exact ⟨[], rfl, by simp, rfl⟩
  | succ n ih =>
    obtain ⟨⟨k, c₁⟩, hk, h⟩ := Rust.bind_eq_ok.mp h
    obtain ⟨⟨v, c₂⟩, hv, h⟩ := Rust.bind_eq_ok.mp h
    obtain ⟨hklen, hc⟩ := readBytes_eq_ok hk
    obtain ⟨hvlen, hc₁⟩ := readBytes_eq_ok hv
    obtain ⟨l, hlen, hfit, hc₂⟩ := ih h
    dsimp only at hklen hc hvlen hc₁ hc₂
    refine ⟨(k, v) :: l, by simp [hlen], ?_, ?_⟩
    · intro e he
      rcases List.mem_cons.mp he with rfl | he
      · exact ⟨hklen, hvlen⟩
      · exact hfit e he
    · rw [hc, hc₁, hc₂]
      simp [encodeEntry]

/-- An entry is told apart by its bytes, whatever follows them. -/
theorem encodeEntry_append_inj {a b : Bytes × Bytes} (ha : EntryFits a) (hb : EntryFits b) {x y : Bytes}
    (h : encodeEntry a ++ x = encodeEntry b ++ y) : a = b ∧ x = y := by
  simp only [encodeEntry, List.append_assoc] at h
  have hak := readBytes_append (leBytes 4 a.2.length ++ (a.2 ++ x)) ha.1
  have hbk := readBytes_append (leBytes 4 b.2.length ++ (b.2 ++ y)) hb.1
  rw [List.append_assoc, h, ← List.append_assoc, hbk] at hak
  obtain ⟨hk, hrest⟩ := Prod.mk.inj (Except.ok.inj hak)
  have hav := readBytes_append x ha.2
  have hbv := readBytes_append y hb.2
  rw [List.append_assoc, ← hrest, ← List.append_assoc, hbv] at hav
  obtain ⟨hv, hxy⟩ := Prod.mk.inj (Except.ok.inj hav)
  exact ⟨Prod.ext hk.symm hv.symm, hxy.symm⟩

/-- As many entries, written one behind the other, are told apart by their bytes: none are a beginning of others. -/
theorem flatMap_encodeEntry_inj {l l' : List (Bytes × Bytes)} (hlen : l.length = l'.length) (hl : ∀ e ∈ l, EntryFits e)
    (hl' : ∀ e ∈ l', EntryFits e) {x y : Bytes} (h : l.flatMap encodeEntry ++ x = l'.flatMap encodeEntry ++ y) :
    l = l' ∧ x = y := by
  induction l generalizing l' with
  | nil =>
    cases l' with
    | nil => exact ⟨rfl, h⟩
    | cons e' l' => simp at hlen
  | cons e l ih =>
    cases l' with
    | nil => simp at hlen
    | cons e' l' =>
      simp only [List.flatMap_cons, List.append_assoc] at h
      obtain ⟨rfl, hrest⟩ := encodeEntry_append_inj (hl e List.mem_cons_self) (hl' e' List.mem_cons_self) h
      obtain ⟨rfl, hxy⟩ := ih (by simpa using hlen) (fun a ha => hl a (List.mem_cons_of_mem _ ha))
        (fun a ha => hl' a (List.mem_cons_of_mem _ ha)) hrest
      exact ⟨rfl, hxy⟩

/-- What is accepted behind a header begins with a body of the announced length: an offset, a number of entries, the entries. -/
theorem loadCheckpoint_header {len : Nat} {tail : Bytes} {r : Rows × Nat} (hlen : len < 2 ^ 32) (htail : len + 4 ≤ tail.length)
    (h : loadCheckpoint (header checkpointMagic checkpointVersion len tail) = .ok r) :
    ∃ (offset : Bytes) (l : List (Bytes × Bytes)), offset.length = 8 ∧ l.length < 2 ^ 32 ∧ (∀ e ∈ l, EntryFits e) ∧
      tail.take len = offset ++ leBytes 4 l.length ++ l.flatMap encodeEntry := by
  obtain ⟨body, sum, rest, rfl, rfl, hsum⟩ :
      ∃ body sum rest, tail = body ++ sum ++ rest ∧ len = body.length ∧ sum.length = 4 :=
    ⟨tail.take len, (tail.drop len).take 4, (tail.drop len).drop 4,
      by rw [List.append_assoc, List.take_append_drop, List.take_append_drop],
      by rw [List.length_take]; omega, by rw [List.length_take, List.length_drop]; omega⟩
  obtain ⟨hmag, hver, hblen⟩ := header_slices [] (body ++ sum ++ rest) checkpointVersion body.length length_checkpointMagic
  obtain ⟨hbody, hcrc⟩ := frame_slices [] rest checkpointVersion body length_checkpointMagic hsum
  simp only [List.length_nil, Nat.zero_add, List.nil_append] at hmag hver hblen hbody hcrc
  have hshort : ¬(header checkpointMagic checkpointVersion body.length (body ++ sum ++ rest)).length < 9 + body.length + 4 := by
    simp only [header, List.length_append, List.length_cons, length_leBytes, length_checkpointMagic, hsum]
    omega
  rw [loadCheckpoint, if_neg (by omega)] at h
  simp only [hmag, hver, hblen, Rust.ok_bind, ne_eq, not_true_eq_false, if_false,
    fromLe_leBytes_of_lt (show body.length < 256 ^ 4 from hlen), hbody, hcrc, if_neg hshort] at h
  obtain ⟨-, h⟩ := (Rust.ite_eq_ok h).resolve_left (fun h => Rust.err_ne_ok _ _ h.2)
  obtain ⟨⟨offset, c₁⟩, hoffset, h⟩ := Rust.bind_eq_ok.mp h
  obtain ⟨⟨n, c₂⟩, hn, h⟩ := Rust.bind_eq_ok.mp h
  obtain ⟨⟨map, c₃⟩, hentries, h⟩ := Rust.bind_eq_ok.mp h
  obtain ⟨hrest, -⟩ := (Rust.ite_eq_ok h).resolve_left (fun h => Rust.err_ne_ok _ _ h.2)
  obtain ⟨hofflen, hb⟩ := readArray_eq_ok hoffset
  obtain ⟨hnlt, hc₁⟩ := readU32_eq_ok hn
  obtain ⟨l, rfl, hfit, hc₂⟩ := readEntries_eq_ok hentries
  dsimp only at hrest hofflen hb hnlt hc₁ hc₂
  refine ⟨offset, l, hofflen, hnlt, hfit, ?_⟩
  rw [List.append_assoc, List.take_left, hb, hc₁, hc₂, not_not.mp hrest]
  simp

/-! ## The size -/

/-- The bytes of an entry in the body. -/
def entrySize (e : Bytes × Bytes) : Nat := 8 + e.1.length + e.2.length

/-- The length of an entry in a checkpoint. -/
theorem length_encodeEntry (e : Bytes × Bytes) : (encodeEntry e).length = entrySize e := by
  simp only [encodeEntry, entrySize, List.length_append, length_leBytes]
  omega

/-- The bytes of a body: an offset of eight, a count of four, and the entries. -/
theorem length_checkpointBody (map : Rows) (walOffset : Nat) :
    (checkpointBody map walOffset).length = 12 + (map.entries.map entrySize).sum := by
  simp only [checkpointBody, List.length_append, length_leBytes, List.length_flatMap, length_encodeEntry]

/-- A body of `2 ^ 32` bytes or more is not read back: its announced length cuts it off before its last entry. -/
theorem loadCheckpoint_of_not_fits {map : Rows} (hsize : map.size < 2 ^ 32) (hfit : ∀ e ∈ map.entries, EntryFits e)
    (h : ¬CheckpointFits map) (r : Rows × Nat) : loadCheckpoint (checkpointBytes map 0) ≠ .ok r := by
  intro hload
  obtain ⟨body, hbody⟩ : ∃ body, body = checkpointBody map 0 := ⟨_, rfl⟩
  have hlong : 2 ^ 32 ≤ body.length := hbody ▸ Nat.le_of_not_lt h
  obtain ⟨len, hlen⟩ : ∃ len, len = body.length % 2 ^ 32 := ⟨_, rfl⟩
  have hwrap : leBytes 4 body.length = leBytes 4 len := by
    have hle := leBytes_fromLe (leBytes 4 body.length)
    rw [length_leBytes, fromLe_leBytes] at hle
    rw [hlen]
    exact hle.symm
  have hheader : checkpointBytes map 0 =
      header checkpointMagic checkpointVersion len (body ++ leBytes 4 (crc32 body).toNat) := by
    rw [checkpointBytes, frame_eq_header, ← hbody, header, header, hwrap]
  have hlt : len < 2 ^ 32 := by omega
  rw [hheader] at hload
  obtain ⟨offset, l, hoffset, hl, hlfit, htake⟩ := loadCheckpoint_header hlt (by simp; omega) hload
  rw [List.take_append_of_le_length (by omega)] at htake
  -- the body goes on behind the part that is read
  have hcut : body = offset ++ leBytes 4 l.length ++ l.flatMap encodeEntry ++ body.drop len := by
    rw [← htake, List.take_append_drop]
  have hwhole : body = leBytes 8 0 ++ leBytes 4 map.size ++ map.entries.flatMap encodeEntry := hbody
  have hcut := hwhole.symm.trans hcut
  rw [List.append_assoc, List.append_assoc, List.append_assoc] at hcut
  obtain ⟨-, hcut⟩ := List.append_inj hcut (by simp [hoffset])
  obtain ⟨hcount, hcut⟩ := List.append_inj hcut (by simp)
  have hcount := congrArg fromLe hcount
  rw [fromLe_leBytes_of_lt (show map.size < 256 ^ 4 from hsize), fromLe_leBytes_of_lt (show l.length < 256 ^ 4 from hl)] at hcount
  obtain ⟨-, hdrop⟩ := flatMap_encodeEntry_inj hcount hfit hlfit ((List.append_nil _).trans hcut)
  have hnone := congrArg List.length hdrop
  rw [List.length_drop, List.length_nil] at hnone
  omega

/-- A checkpoint is read back exactly when its body is shorter than `2 ^ 32` bytes. -/
theorem loadCheckpoint_iff {map : Rows} (hsize : map.size < 2 ^ 32) (hfit : ∀ e ∈ map.entries, EntryFits e) :
    loadCheckpoint (checkpointBytes map 0) = .ok (map, 0) ↔ CheckpointFits map :=
  ⟨fun hload => by_contra (fun h => loadCheckpoint_of_not_fits hsize hfit h _ hload), loadCheckpoint_checkpointBytes⟩

end Wal

open Wal

/-- A compaction that returns leaves an empty log and the checkpoint of the map. -/
theorem WalStorage.compact_ok {d d' : Disk} (h : WalStorage.compact d = .ok () d') :
    d'.files.wal = some [] ∧ d'.files.checkpoint = some (checkpointBytes d.storage.map 0) := by
  have ht := WalStorage.compact_triple d.storage.map d.files.wal d.files.checkpoint d ⟨rfl, rfl, rfl⟩
  rw [h] at ht
  exact ht.2

/-- After a compaction, where the body of the checkpoint fits, an open loads the map. -/
theorem WalStorage.openDir_of_compact {d d' : Disk} (hfit : CheckpointFits d.storage.map)
    (h : WalStorage.compact d = .ok () d') :
    ∃ s files, WalStorage.openDir d'.files = .ok (s, files) ∧ s.map = d.storage.map := by
  obtain ⟨hwal, hckpt⟩ := WalStorage.compact_ok h
  exact ⟨_, _, openDir_of_loads ((loads_compacted hfit none).congr hwal hckpt), rfl⟩

/-- A compaction leaves a store that can be opened and holds the same map exactly when the offset, the count, and all entries with
their lengths are fewer than `2 ^ 32` bytes together. -/
theorem WalStorage.compact_readable_iff {map : Rows} (hsize : map.size < 2 ^ 32)
    (hlen : ∀ e ∈ map.entries, e.1.length < 2 ^ 32 ∧ e.2.length < 2 ^ 32) :
    (loadCheckpoint (checkpointBytes map 0) = .ok (map, 0) ∧
      ∀ d d', d.storage.map = map → WalStorage.compact d = .ok () d' →
        ∃ s files, WalStorage.openDir d'.files = .ok (s, files) ∧ s.map = map) ↔
      12 + (map.entries.map entrySize).sum < 2 ^ 32 := by
  rw [← length_checkpointBody map 0]
  constructor
  · rintro ⟨hload, -⟩
    exact (loadCheckpoint_iff hsize hlen).mp hload
  · intro hfit
    refine ⟨loadCheckpoint_checkpointBytes hfit, ?_⟩
    rintro d d' rfl h
    exact WalStorage.openDir_of_compact hfit h

/-- A map of two rows. -/
theorem WalStorage.compact_readable_pair :
    let map : Rows := (OrdMap.empty.insert [107] [1, 2]).insert [108] [3]
    loadCheckpoint (checkpointBytes map 0) = .ok (map, 0) ∧
      ∀ d d', d.storage.map = map → WalStorage.compact d = .ok () d' →
        ∃ s files, WalStorage.openDir d'.files = .ok (s, files) ∧ s.map = map :=
  (WalStorage.compact_readable_iff (by decide) (by decide)).mpr (by decide)

/-! ## A store that a compaction makes unreadable -/

/-- The same value under two keys, committed one after the other. -/
def twice (v : Bytes) : List (List BatchOp) := [[.put [107] v], [.put [108] v]]

theorem entries_twice (v : Bytes) : (applyAll OrdMap.empty (twice v)).entries = [([107], v), ([108], v)] := rfl

theorem size_twice (v : Bytes) : (applyAll OrdMap.empty (twice v)).size < 2 ^ 32 := by
  simp [OrdMap.size, entries_twice]

/-- A log with two values of `2 ^ 31` bytes is loaded, since each of its records fits. -/
theorem loads_twice {v : Bytes} (hv : v.length = 2 ^ 31) :
    Loads { wal := some (logBytes (twice v)), checkpoint := none, tmp := none } (applyAll OrdMap.empty (twice v)) [] := by
  refine ⟨OrdMap.empty, twice v, Or.inl ⟨rfl, rfl⟩, Or.inr (by simp), ?_, unread_nil, rfl⟩
  intro ops hops
  obtain ⟨k, rfl⟩ : ∃ k : UInt8, ops = [.put [k] v] := by
    rcases List.mem_cons.mp hops with rfl | hops
    · exact ⟨107, rfl⟩
    · exact ⟨108, List.mem_singleton.mp hops⟩
  simp only [RecordFits, commitBody, List.flatMap_cons, List.flatMap_nil, encodeOp, List.length_append, length_leBytes,
    List.length_singleton, List.length_nil, hv]
  omega

/-- The lengths of the two rows fit their fields. -/
theorem entryFits_twice {v : Bytes} (hv : v.length = 2 ^ 31) : ∀ e ∈ (applyAll OrdMap.empty (twice v)).entries, EntryFits e := by
  intro e he
  rw [entries_twice] at he
  have hv' : v.length < 2 ^ 32 := by omega
  rcases List.mem_cons.mp he with rfl | he
  · exact ⟨by simp, hv'⟩
  · rw [List.mem_singleton.mp he]
    exact ⟨by simp, hv'⟩

/-- The checkpoint of the two rows does not fit its field. -/
theorem twice_not_fit {v : Bytes} (hv : v.length = 2 ^ 31) : ¬CheckpointFits (applyAll OrdMap.empty (twice v)) := by
  rw [CheckpointFits, length_checkpointBody, entries_twice]
  simp only [List.map_cons, List.map_nil, List.sum_cons, List.sum_nil, entrySize, List.length_singleton, hv]
  omega

/-- The store that holds them can be opened; after a compaction that returns without an error it cannot. -/
theorem openDir_twice {v : Bytes} (hv : v.length = 2 ^ 31) :
    ∃ d d', WalStorage.openDir { wal := some (logBytes (twice v)), checkpoint := none, tmp := none } = .ok (d.storage, d.files) ∧
      d.storage.map = applyAll OrdMap.empty (twice v) ∧ WalStorage.compact d = .ok () d' ∧
      ∀ s files, WalStorage.openDir d'.files ≠ .ok (s, files) := by
  obtain ⟨a, d', hcompact, -⟩ := WalStorage.fileOps_compact.done
    ⟨⟨applyAll OrdMap.empty (twice v), (logBytes (twice v)).length, 8 * 1024 * 1024⟩,
      { wal := some (logBytes (twice v)), checkpoint := none, tmp := none }, []⟩ (allDone_nil 10)
  refine ⟨_, d', openDir_of_loads (loads_twice hv), rfl, hcompact, ?_⟩
  intro s files hopen
  obtain ⟨⟨map, start⟩, hload, -⟩ := Rust.bind_eq_ok.mp hopen
  rw [WalStorage.loadBase, (WalStorage.compact_ok hcompact).2] at hload
  exact loadCheckpoint_of_not_fits (size_twice v) (entryFits_twice hv) (twice_not_fit hv) _ hload

/-- Two values of `2 ^ 31` bytes each: the compaction leaves a checkpoint that is not read back, and no log. -/
theorem WalStorage.compact_unreadable : ∃ v : Bytes, v = List.replicate (2 ^ 31) 0 ∧
    let map := applyAll OrdMap.empty (twice v)
    map.size < 2 ^ 32 ∧ (∀ e ∈ map.entries, e.1.length < 2 ^ 32 ∧ e.2.length < 2 ^ 32) ∧
      loadCheckpoint (checkpointBytes map 0) ≠ .ok (map, 0) ∧
      ∃ d d', WalStorage.openDir { wal := some (logBytes (twice v)), checkpoint := none, tmp := none } =
          .ok (d.storage, d.files) ∧
        d.storage.map = map ∧ WalStorage.compact d = .ok () d' ∧ ∀ s files, WalStorage.openDir d'.files ≠ .ok (s, files) := by
  refine ⟨_, rfl, ?_⟩
  obtain ⟨v, hv⟩ : ∃ v : Bytes, v = List.replicate (2 ^ 31) 0 := ⟨_, rfl⟩
  rw [← hv]
  have hlen : v.length = 2 ^ 31 := by rw [hv, List.length_replicate]
  exact ⟨size_twice v, entryFits_twice hlen, loadCheckpoint_of_not_fits (size_twice v) (entryFits_twice hlen) (twice_not_fit hlen) _,
    openDir_twice hlen⟩

end AlefsDb
