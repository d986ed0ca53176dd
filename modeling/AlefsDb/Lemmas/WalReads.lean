import AlefsDb.Lemmas.WalFormat

/-!
# The readers of a log on arbitrary bytes

Whatever bytes it is given, a reader returns, and what it accepts is what the writer of that part puts there: a length is four
bytes, a string its length and its bytes, a record body the body of the operations read from it.
-/

namespace AlefsDb
namespace Wal

/-! ## What is accepted was written -/

/-- A byte that is read is the first. -/
theorem readU8_eq_ok {cur : Bytes} {r : UInt8 × Bytes} (h : readU8 cur = .ok r) : cur = r.1 :: r.2 := by
  cases cur with
  | nil => cases h
  | cons b cur =>
    cases h
    rfl

/-- As many bytes are read as are asked for. -/
theorem readArray_eq_ok {n : Nat} {cur : Bytes} {r : Bytes × Bytes} (h : readArray n cur = .ok r) :
    r.1.length = n ∧ cur = r.1 ++ r.2 := by
  unfold readArray at h
  split at h
  · cases h
  · cases h
    exact ⟨by rw [List.length_take]; omega, (List.take_append_drop n cur).symm⟩

/-- A number that is read is that of the first four bytes. -/
theorem readU32_eq_ok {cur : Bytes} {r : Nat × Bytes} (h : readU32 cur = .ok r) : r.1 < 2 ^ 32 ∧ cur = leBytes 4 r.1 ++ r.2 := by
  obtain ⟨⟨a, cur'⟩, ha, hr⟩ := Rust.bind_eq_ok.mp h
  obtain ⟨hlen, hcur⟩ := readArray_eq_ok ha
  cases hr
  have hle := leBytes_fromLe a
  have hlt := fromLe_lt a
  rw [show a.length = 4 from hlen] at hle hlt
  exact ⟨hlt, by rw [hcur, hle]⟩

/-- Bytes that are read stand behind their length. -/
theorem readBytes_eq_ok {cur : Bytes} {r : Bytes × Bytes} (h : readBytes cur = .ok r) :
    r.1.length < 2 ^ 32 ∧ cur = leBytes 4 r.1.length ++ r.1 ++ r.2 := by
  obtain ⟨⟨len, cur'⟩, hlen, hr⟩ := Rust.bind_eq_ok.mp h
  obtain ⟨hlt, hcur⟩ := readU32_eq_ok hlen
  dsimp only at hr hlt hcur
  split at hr
  · exact absurd hr (Rust.err_ne_ok _ _)
  · cases hr
    have htake : (cur'.take len).length = len := by
      rw [List.length_take]
      omega
    dsimp only
    rw [htake, List.append_assoc, List.take_append_drop]
    exact ⟨hlt, hcur⟩

/-- An operation that is read is encoded in the bytes that it has been read from. -/
theorem readOp_eq_ok {c : Bytes} {r : BatchOp × Bytes} (h : readOp c = .ok r) : c = encodeOp r.1 ++ r.2 := by
  obtain ⟨⟨tag, c₁⟩, htag, hr⟩ := Rust.bind_eq_ok.mp h
  have hc := readU8_eq_ok htag
  dsimp only at hr hc
  split at hr
  · rename_i hput
    obtain ⟨⟨k, c₂⟩, hk, hr⟩ := Rust.bind_eq_ok.mp hr
    obtain ⟨⟨v, c₃⟩, hv, hr⟩ := Rust.bind_eq_ok.mp hr
    cases hr
    have hc₂ : c₂ = _ := (readBytes_eq_ok hv).2
    simp [encodeOp, hc, hput, (readBytes_eq_ok hk).2, hc₂]
  · split at hr
    · rename_i hdelete
      obtain ⟨⟨k, c₂⟩, hk, hr⟩ := Rust.bind_eq_ok.mp hr
      cases hr
      simp [encodeOp, hc, hdelete, (readBytes_eq_ok hk).2]
    · exact absurd hr (Rust.err_ne_ok _ _)

/-- Operations that are read are encoded in the bytes that they have been read from. -/
theorem readOps_eq_ok {n : Nat} {c : Bytes} {r : List BatchOp × Bytes} (h : readOps n c = .ok r) :
    r.1.length = n ∧ c = r.1.flatMap encodeOp ++ r.2 := by
  induction n generalizing c r with
  | zero =>
    cases h
    exact ⟨rfl, rfl⟩
  | succ n ih =>
    obtain ⟨⟨op, c₁⟩, hop, h⟩ := Rust.bind_eq_ok.mp h
    obtain ⟨⟨ops, c₂⟩, hops, h⟩ := Rust.bind_eq_ok.mp h
    cases h
    obtain ⟨hlen, hc⟩ := ih hops
    refine ⟨by simp [hlen], ?_⟩
    rw [readOp_eq_ok hop, hc, List.flatMap_cons, List.append_assoc]

/-- A body that is applied is the body of some operations, and these are what is applied. -/
theorem applyRecordBody_eq_ok {body : Bytes} {map map' : Rows} (h : applyRecordBody body map = .ok map') :
    ∃ ops, body = commitBody ops ∧ map' = applyOps map ops := by
  cases body with
  | nil => exact absurd h (Rust.err_ne_ok _ _)
  | cons tag c =>
    unfold applyRecordBody at h
    dsimp only at h
    split at h
    · exact absurd h (Rust.err_ne_ok _ _)
    · rename_i htag
      obtain ⟨⟨n, c₁⟩, hn, h⟩ := Rust.bind_eq_ok.mp h
      obtain ⟨⟨ops, c₂⟩, hops, h⟩ := Rust.bind_eq_ok.mp h
      dsimp only at h
      split at h
      · exact absurd h (Rust.err_ne_ok _ _)
      · rename_i hrest
        cases h
        obtain ⟨hlen, hc₁⟩ := readOps_eq_ok hops
        refine ⟨ops, ?_, rfl⟩
        rw [not_not.mp htag, (readU32_eq_ok hn).2, hc₁, not_not.mp hrest, ← hlen, commitBody]
        simp

/-! ## A reader returns -/

theorem readU8_returns (cur : Bytes) : Rust.Returns (readU8 cur) := by
  cases cur with
  | nil => exact Rust.returns_err _
  | cons b cur => exact Rust.returns_ok _

theorem readArray_returns (n : Nat) (cur : Bytes) : Rust.Returns (readArray n cur) := by
  unfold readArray
  split
  · exact Rust.returns_err _
  · exact Rust.returns_ok _

theorem readU32_returns (cur : Bytes) : Rust.Returns (readU32 cur) :=
  (readArray_returns 4 cur).bind (fun _ _ => Rust.returns_ok _)

theorem readBytes_returns (cur : Bytes) : Rust.Returns (readBytes cur) := by
  refine (readU32_returns cur).bind (fun r _ => ?_)
  dsimp only
  split
  · exact Rust.returns_err _
  · exact Rust.returns_ok _

theorem readOp_returns (c : Bytes) : Rust.Returns (readOp c) := by
  refine (readU8_returns c).bind (fun r _ => ?_)
  dsimp only
  split
  · exact (readBytes_returns _).bind (fun _ _ => (readBytes_returns _).bind (fun _ _ => Rust.returns_ok _))
  · split
    · exact (readBytes_returns _).bind (fun _ _ => Rust.returns_ok _)
    · exact Rust.returns_err _

theorem readOps_returns (n : Nat) (c : Bytes) : Rust.Returns (readOps n c) := by
  induction n generalizing c with
  | zero => exact Rust.returns_ok _
  | succ n ih => exact (readOp_returns c).bind (fun _ _ => (ih _).bind (fun _ _ => Rust.returns_ok _))

theorem applyRecordBody_returns (body : Bytes) (map : Rows) : Rust.Returns (applyRecordBody body map) := by
  cases body with
  | nil => exact Rust.returns_err _
  | cons tag c =>
    unfold applyRecordBody
    dsimp only
    split
    · exact Rust.returns_err _
    · refine (readU32_returns c).bind (fun _ _ => (readOps_returns _ _).bind (fun _ _ => ?_))
      split
      · exact Rust.returns_err _
      · exact Rust.returns_ok _

/-! ## One turn of the loop -/

/-- Nine bytes or more are a header in front of what follows it. -/
theorem exists_header {t : Bytes} (h : 9 ≤ t.length) :
    ∃ mag version len tail, mag.length = 4 ∧ len < 2 ^ 32 ∧ t = header mag version len tail := by
  obtain ⟨mag, t, rfl, hmag⟩ : ∃ mag t', t = mag ++ t' ∧ mag.length = 4 :=
    ⟨t.take 4, t.drop 4, (List.take_append_drop 4 t).symm, by rw [List.length_take]; omega⟩
  rw [List.length_append, hmag] at h
  cases t with
  | nil => simp at h
  | cons version t =>
    obtain ⟨lenBytes, tail, rfl, hlen⟩ : ∃ lenBytes tail, t = lenBytes ++ tail ∧ lenBytes.length = 4 :=
      ⟨t.take 4, t.drop 4, (List.take_append_drop 4 t).symm, by rw [List.length_take]; simp at h; omega⟩
    have hle := leBytes_fromLe lenBytes
    have hlt := fromLe_lt lenBytes
    rw [hlen] at hle hlt
    exact ⟨mag, version, fromLe lenBytes, tail, hmag, hlt, by rw [header, hle]⟩

/-- At any bytes, replay ends there, or goes on behind a record that they begin with, or fails. -/
theorem replayLoop_turn (start : Nat) (pre : Bytes) (map : Rows) (t : Bytes) :
    Unread t ∨ (∃ ops rest, RecordFits ops ∧ t = encodeCommitRecord ops ++ rest) ∨
      ∃ e, replayLoop start (pre ++ t) pre.length map = Rust.err e := by
  by_cases h9 : t.length < 9
  · exact Or.inl (Or.inl (Or.inl h9))
  · obtain ⟨mag, version, len, tail, hmag, hlen, rfl⟩ := exists_header (Nat.le_of_not_lt h9)
    obtain ⟨hslice, hver, hblen⟩ := header_slices pre tail version len hmag
    have hbuf : (pre ++ header mag version len tail).length = pre.length + (9 + tail.length) := by
      simp only [header, List.length_append, List.length_cons, length_leBytes, hmag]
      omega
    by_cases hm : mag = magic
    · by_cases hv : version = walVersion
      · subst hm hv
        by_cases hcut : tail.length < len + 4
        · exact Or.inl (Or.inl (Or.inr ⟨len, tail, hlen, rfl, hcut⟩))
        · -- the body and its checksum are there
          obtain ⟨body, sum, rest, rfl, rfl, hsum⟩ :
              ∃ body sum rest, tail = body ++ sum ++ rest ∧ len = body.length ∧ sum.length = 4 :=
            ⟨tail.take len, (tail.drop len).take 4, (tail.drop len).drop 4,
              by rw [List.append_assoc, List.take_append_drop, List.take_append_drop],
              by rw [List.length_take]; omega, by rw [List.length_take, List.length_drop]; omega⟩
          by_cases hcrc : fromLe sum = (crc32 body).toNat
          · right
            rcases applyRecordBody_returns body map with ⟨map', happly⟩ | ⟨e, happly⟩
            · left
              obtain ⟨ops, rfl, -⟩ := applyRecordBody_eq_ok happly
              refine ⟨ops, rest, hlen, ?_⟩
              have hsum' := leBytes_fromLe sum
              rw [hsum, hcrc] at hsum'
              rw [encodeCommitRecord_append, hsum']
            · right
              refine ⟨e, ?_⟩
              rw [replayLoop_header start pre rest map hlen hsum, if_neg (not_not_intro hcrc.symm), happly, Rust.err_bind]
          · exact Or.inl (Or.inr ⟨body, sum, rest, hlen, hsum, hcrc, rfl⟩)
      · right; right
        refine ⟨.corrupt s!"unsupported WAL version {version}", ?_⟩
        rw [replayLoop, dif_pos (by omega), if_neg (by omega)]
        subst hm
        simp [hslice, hver, hv]
    · right; right
      refine ⟨.corrupt s!"bad WAL magic at offset {start + pre.length}", ?_⟩
      rw [replayLoop, dif_pos (by omega), if_neg (by omega), hslice]
      simp [hm]

end Wal
end AlefsDb
