import AlefsDb.Storage.Wal

/-!
# The formats on disk read back

What is written is read: a record body gives its operations, a log of whole records gives its batches in order, a log that ends
in part of a record gives the batches before it, and a checkpoint gives its map. Each statement asks that the lengths written
fit their 32 bits, which follows from the length of the body (`commitBody_fits`, `checkpointBody_fits`).
-/

namespace AlefsDb
namespace Wal

/-! ## Cursors -/

theorem readArray_append {n : Nat} {a : Bytes} (c : Bytes) (h : a.length = n) : readArray n (a ++ c) = .ok (a, c) := by
  subst h
  simp [readArray]

theorem readU32_append {n : Nat} (c : Bytes) (h : n < 2 ^ 32) : readU32 (leBytes 4 n ++ c) = .ok (n, c) := by
  simp [readU32, readArray_append c (length_leBytes 4 n), fromLe_leBytes_of_lt (show n < 256 ^ 4 by omega)]

/-- Bytes whose length fits its field are read back. -/
theorem readBytes_append {k : Bytes} (c : Bytes) (h : k.length < 2 ^ 32) :
    readBytes (leBytes 4 k.length ++ k ++ c) = .ok (k, c) := by
  simp [readBytes, List.append_assoc, readU32_append _ h]

/-! ## Records -/

/-- The lengths of an operation fit their 32 bits. -/
def OpFits : BatchOp → Prop
  | .put key value => key.length < 2 ^ 32 ∧ value.length < 2 ^ 32
  | .delete key => key.length < 2 ^ 32

/-- The body of a commit record is shorter than `2 ^ 32` bytes. -/
def RecordFits (ops : List BatchOp) : Prop := (commitBody ops).length < 2 ^ 32

instance (ops : List BatchOp) : Decidable (RecordFits ops) := inferInstanceAs (Decidable (_ < _))

/-- An operation whose lengths fit is read back. -/
theorem readOp_encodeOp {op : BatchOp} (c : Bytes) (h : OpFits op) : readOp (encodeOp op ++ c) = .ok (op, c) := by
  cases op with
  | put key value =>
    have hk := readBytes_append (leBytes 4 value.length ++ value ++ c) h.1
    have hv := readBytes_append c h.2
    simp only [List.append_assoc] at hk hv
    simp [encodeOp, readOp, readU8, hk, hv]
  | delete key =>
    have hk := readBytes_append c h
    simp only [List.append_assoc] at hk
    simp [encodeOp, readOp, readU8, opPut, opDelete, hk]

/-- Operations whose lengths fit are read back in order. -/
theorem readOps_flatMap {ops : List BatchOp} (c : Bytes) (h : ∀ op ∈ ops, OpFits op) :
    readOps ops.length (ops.flatMap encodeOp ++ c) = .ok (ops, c) := by
  induction ops with
  | nil => rfl
  | cons op ops ih =>
    have hop := readOp_encodeOp (ops.flatMap encodeOp ++ c) (h op List.mem_cons_self)
    have hops := ih (fun op hop => h op (List.mem_cons_of_mem _ hop))
    simp [readOps, List.append_assoc, hop, hops]

/-- An operation is encoded in more bytes than each of its parts. -/
theorem opFits_of_length {op : BatchOp} {n : Nat} (h : (encodeOp op).length ≤ n) (hn : n < 2 ^ 32) : OpFits op := by
  cases op with
  | put key value =>
    simp only [encodeOp, List.length_append, List.length_singleton, length_leBytes] at h
    exact ⟨by omega, by omega⟩
  | delete key =>
    simp only [encodeOp, List.length_append, List.length_singleton, length_leBytes] at h
    exact (by omega : key.length < 2 ^ 32)

/-- In a concatenation of nonempty encodings, the parts are no more than the bytes and each part is no longer than the whole. -/
theorem length_flatMap_bounds {α : Type} {f : α → Bytes} (hf : ∀ a, 1 ≤ (f a).length) (l : List α) :
    l.length ≤ (l.flatMap f).length ∧ ∀ a ∈ l, (f a).length ≤ (l.flatMap f).length := by
  induction l with
  | nil => simp
  | cons a l ih =>
    have ha := hf a
    refine ⟨?_, ?_⟩
    · simp only [List.flatMap_cons, List.length_append, List.length_cons]
      omega
    · intro b hb
      simp only [List.flatMap_cons, List.length_append]
      rcases List.mem_cons.mp hb with rfl | hb
      · omega
      · have := ih.2 b hb
        omega

theorem encodeOp_pos (op : BatchOp) : 1 ≤ (encodeOp op).length := by
  cases op <;> simp [encodeOp]

/-- When the body of a record is shorter than `2 ^ 32`, so are the count and all the lengths in it. -/
theorem commitBody_fits {ops : List BatchOp} (h : RecordFits ops) : ops.length < 2 ^ 32 ∧ ∀ op ∈ ops, OpFits op := by
  simp only [RecordFits, commitBody, List.length_append, List.length_singleton, length_leBytes] at h
  have hb := length_flatMap_bounds encodeOp_pos ops
  exact ⟨by omega, fun op hop => opFits_of_length (hb.2 op hop) (by omega)⟩

/-- A record body gives its operations, and they are applied. -/
theorem applyRecordBody_commitBody {ops : List BatchOp} (h : RecordFits ops) (map : Rows) :
    applyRecordBody (commitBody ops) map = .ok (applyOps map ops) := by
  obtain ⟨hn, hops⟩ := commitBody_fits h
  have hread := readOps_flatMap [] hops
  rw [List.append_nil] at hread
  simp [applyRecordBody, commitBody, readU32_append _ hn, hread]

/-! ## Frames -/

@[simp] theorem length_magic : magic.length = 4 := by decide

@[simp] theorem length_checkpointMagic : checkpointMagic.length = 4 := by decide

theorem length_frame {mag : Bytes} (version : UInt8) (body : Bytes) (h : mag.length = 4) :
    (frame mag version body).length = 9 + body.length + 4 := by
  simp only [frame, List.length_append, List.length_singleton, length_leBytes, h]

theorem length_encodeCommitRecord (ops : List BatchOp) :
    (encodeCommitRecord ops).length = 9 + (commitBody ops).length + 4 :=
  length_frame _ _ length_magic

/-- A header (magic, version and length) in front of any bytes. -/
def header (mag : Bytes) (version : UInt8) (len : Nat) (tail : Bytes) : Bytes := mag ++ version :: (leBytes 4 len ++ tail)

/-- A frame is a header in front of the body and its checksum. -/
theorem frame_eq_header (mag : Bytes) (version : UInt8) (body : Bytes) :
    frame mag version body = header mag version body.length (body ++ leBytes 4 (crc32 body).toNat) := by
  simp [frame, header]

/-- The slices that a reader takes of a header are its parts. -/
theorem header_slices (pre tail : Bytes) {mag : Bytes} (version : UInt8) (len : Nat) (hmag : mag.length = 4) :
    let buf := pre ++ header mag version len tail
    (Rust.slice buf pre.length (pre.length + 4) : Rust StorageError Bytes) = .ok mag ∧
    (Rust.index buf (pre.length + 4) : Rust StorageError UInt8) = .ok version ∧
    (Rust.slice buf (pre.length + 5) (pre.length + 9) : Rust StorageError Bytes) = .ok (leBytes 4 len) := by
  intro buf
  refine ⟨?_, ?_, ?_⟩
  · exact Rust.slice_eq pre (version :: (leBytes 4 len ++ tail)) (by simp [buf, header]) rfl (by omega)
  · exact Rust.index_eq (pre ++ mag) (leBytes 4 len ++ tail) (by simp [buf, header]) (by simp [hmag])
  · exact Rust.slice_eq (pre ++ mag ++ [version]) tail (by simp [buf, header]) (by simp [hmag]) (by simp [hmag])

/-- The slices that a reader takes behind a header are a body of the length it announces and the four bytes behind that. -/
theorem frame_slices (pre rest : Bytes) {mag : Bytes} (version : UInt8) (body : Bytes) {sum : Bytes} (hmag : mag.length = 4)
    (hsum : sum.length = 4) :
    let buf := pre ++ header mag version body.length (body ++ sum ++ rest)
    (Rust.slice buf (pre.length + 9) (pre.length + 9 + body.length) : Rust StorageError Bytes) = .ok body ∧
    (Rust.slice buf (pre.length + 9 + body.length) (pre.length + 9 + body.length + 4) : Rust StorageError Bytes) = .ok sum := by
  intro buf
  refine ⟨?_, ?_⟩
  · exact Rust.slice_eq (pre ++ mag ++ [version] ++ leBytes 4 body.length) (sum ++ rest)
      (by simp [buf, header]) (by simp [hmag]) (by simp [hmag])
  · exact Rust.slice_eq (pre ++ mag ++ [version] ++ leBytes 4 body.length ++ body) rest (by simp [buf, header])
      (by simp [hmag]; omega) (by simp [hmag, hsum]; omega)

/-- A checksum is read back. -/
theorem fromLe_crc32 (data : Bytes) : fromLe (leBytes 4 (crc32 data).toNat) = (crc32 data).toNat :=
  fromLe_leBytes_of_lt (crc32 data).toNat_lt

/-! ## The loop over a log -/

/-- One turn of the loop, where a whole header is followed by what it announces: a body that does not match its checksum ends the
replay, any other is applied and the loop goes on behind it. -/
theorem replayLoop_header (start : Nat) (pre rest : Bytes) (map : Rows) {body sum : Bytes} (hbody : body.length < 2 ^ 32)
    (hsum : sum.length = 4) :
    let buf := pre ++ header magic walVersion body.length (body ++ sum ++ rest)
    replayLoop start buf pre.length map =
      if (crc32 body).toNat ≠ fromLe sum then .ok map
      else applyRecordBody body map >>= replayLoop start buf (pre.length + 9 + body.length + 4) := by
  intro buf
  have hlen : buf.length = pre.length + 9 + body.length + 4 + rest.length := by
    simp only [buf, header, List.length_append, List.length_cons, length_leBytes, length_magic, hsum]
    omega
  obtain ⟨hmag, hver, hblen⟩ := header_slices pre (body ++ sum ++ rest) walVersion body.length length_magic
  obtain ⟨hslice, hcrc⟩ := frame_slices pre rest walVersion body length_magic hsum
  rw [replayLoop, dif_pos (by omega), if_neg (by omega)]
  simp only [buf, Rust.pure_eq_ok, hmag, hver, hblen, Rust.ok_bind, ne_eq, not_true_eq_false, if_false,
    fromLe_leBytes_of_lt (show body.length < 256 ^ 4 from hbody), hslice, hcrc]
  rw [if_neg (show ¬buf.length < pre.length + 9 + body.length + 4 by omega)]

/-- A record in front of any bytes, as a header in front of what follows it. -/
theorem encodeCommitRecord_append (ops : List BatchOp) (rest : Bytes) :
    encodeCommitRecord ops ++ rest = header magic walVersion (commitBody ops).length
      (commitBody ops ++ leBytes 4 (crc32 (commitBody ops)).toNat ++ rest) := by
  simp [encodeCommitRecord, frame, header]

/-- One turn of the loop, on a whole record: its batch is applied and the loop goes on behind it. -/
theorem replayLoop_record (start : Nat) (pre rest : Bytes) (map : Rows) {ops : List BatchOp} (h : RecordFits ops) :
    replayLoop start (pre ++ encodeCommitRecord ops ++ rest) pre.length map =
      replayLoop start (pre ++ encodeCommitRecord ops ++ rest) (pre ++ encodeCommitRecord ops).length (applyOps map ops) := by
  have hturn := replayLoop_header start pre rest map h (length_leBytes 4 (crc32 (commitBody ops)).toNat)
  have hend : (pre ++ encodeCommitRecord ops).length = pre.length + 9 + (commitBody ops).length + 4 := by
    rw [List.length_append, length_encodeCommitRecord]
    omega
  rw [List.append_assoc, encodeCommitRecord_append, hturn, if_neg (by rw [fromLe_crc32]; exact not_not_intro rfl),
    applyRecordBody_commitBody h, Rust.ok_bind, hend]

/-- On less than a header the loop ends. -/
theorem replayLoop_short (start : Nat) (pre : Bytes) (map : Rows) {t : Bytes} (h : t.length < 9) :
    replayLoop start (pre ++ t) pre.length map = .ok map := by
  have hlen : (pre ++ t).length = pre.length + t.length := List.length_append
  rw [replayLoop]
  split
  · rw [if_pos (by omega)]
    rfl
  · rfl

/-- On a header that announces more bytes than follow it the loop ends. -/
theorem replayLoop_cut (start : Nat) (pre tail : Bytes) (map : Rows) {len : Nat} (hl : len < 2 ^ 32)
    (h : tail.length < len + 4) : replayLoop start (pre ++ header magic walVersion len tail) pre.length map = .ok map := by
  have hlen : (pre ++ header magic walVersion len tail).length = pre.length + 9 + tail.length := by
    simp only [header, List.length_append, List.length_cons, length_leBytes, length_magic]
    omega
  obtain ⟨hmag, hver, hblen⟩ := header_slices pre tail walVersion len length_magic
  rw [replayLoop, dif_pos (by omega), if_neg (by omega)]
  simp only [Rust.pure_eq_ok, hmag, hver, hblen, Rust.ok_bind, ne_eq, not_true_eq_false, if_false,
    fromLe_leBytes_of_lt (show len < 256 ^ 4 from hl)]
  rw [if_pos (by omega)]

/-- Where a whole header is there but does not begin with the magic, the loop fails. -/
theorem replayLoop_badMagic (start : Nat) (map : Rows) {buf : Bytes} (hlen : 9 ≤ buf.length) (hmag : buf.take 4 ≠ magic) :
    replayLoop start buf 0 map = Rust.err (.corrupt s!"bad WAL magic at offset {start + 0}") := by
  have hslice : (Rust.slice buf 0 (0 + 4) : Rust StorageError Bytes) = .ok (buf.take 4) := by
    rw [Rust.slice, if_pos ⟨by omega, by omega⟩, List.drop_zero]
  rw [replayLoop, dif_pos (by omega), if_neg (by omega), hslice]
  simp [hmag]

/-- A header gives back the length it announces and what follows it. -/
theorem header_inj {mag : Bytes} {version : UInt8} {len len' : Nat} {tail tail' : Bytes} (hl : len < 2 ^ 32)
    (hl' : len' < 2 ^ 32) (h : header mag version len tail = header mag version len' tail') : len = len' ∧ tail = tail' := by
  have h := (List.cons.inj (List.append_cancel_left h)).2
  obtain ⟨hlen, htail⟩ := List.append_inj h (by simp)
  have hlen := congrArg fromLe hlen
  rw [fromLe_leBytes_of_lt (show len < 256 ^ 4 from hl), fromLe_leBytes_of_lt (show len' < 256 ^ 4 from hl')] at hlen
  exact ⟨hlen, htail⟩

/-- A body gives back its operations. -/
theorem commitBody_inj {a b : List BatchOp} (ha : RecordFits a) (hb : RecordFits b) (h : commitBody a = commitBody b) : a = b := by
  obtain ⟨hna, hopsa⟩ := commitBody_fits ha
  obtain ⟨hnb, hopsb⟩ := commitBody_fits hb
  simp only [commitBody, List.append_assoc] at h
  obtain ⟨hlen, hflat⟩ := List.append_inj (List.append_cancel_left h) (by simp)
  have hlen := congrArg fromLe hlen
  rw [fromLe_leBytes_of_lt (show a.length < 256 ^ 4 from hna), fromLe_leBytes_of_lt (show b.length < 256 ^ 4 from hnb)] at hlen
  have hreada := readOps_flatMap [] hopsa
  rw [hlen, hflat, readOps_flatMap [] hopsb] at hreada
  exact (Prod.mk.inj (Except.ok.inj hreada)).1.symm

/-- Records are told apart by their bytes: those that begin the same bytes hold the same batch. -/
theorem encodeCommitRecord_append_inj {a b : List BatchOp} (ha : RecordFits a) (hb : RecordFits b) {x y : Bytes}
    (h : encodeCommitRecord a ++ x = encodeCommitRecord b ++ y) : a = b ∧ x = y := by
  rw [encodeCommitRecord_append, encodeCommitRecord_append, List.append_assoc, List.append_assoc] at h
  obtain ⟨hlen, htail⟩ := header_inj ha hb h
  have hops := commitBody_inj ha hb (List.append_inj htail hlen).1
  subst hops
  exact ⟨rfl, List.append_cancel_left (List.append_cancel_left htail)⟩

/-- Bytes that replay takes for part of a record: less than a header, or a header that announces more than follows it. -/
def Incomplete (t : Bytes) : Prop :=
  t.length < 9 ∨ ∃ len tail, len < 2 ^ 32 ∧ t = header magic walVersion len tail ∧ tail.length < len + 4

theorem incomplete_nil : Incomplete [] := Or.inl (by simp)

/-- On part of a record the loop ends. -/
theorem replayLoop_incomplete (start : Nat) (pre : Bytes) (map : Rows) {t : Bytes} (h : Incomplete t) :
    replayLoop start (pre ++ t) pre.length map = .ok map := by
  rcases h with h | ⟨len, tail, hl, rfl, htail⟩
  · exact replayLoop_short start pre map h
  · exact replayLoop_cut start pre tail map hl htail

/-- Bytes at which replay ends: part of a record, or a record whose body does not match its checksum, whatever follows it. -/
def Unread (t : Bytes) : Prop :=
  Incomplete t ∨ ∃ body sum rest, body.length < 2 ^ 32 ∧ sum.length = 4 ∧ fromLe sum ≠ (crc32 body).toNat ∧
    t = header magic walVersion body.length (body ++ sum ++ rest)

/-- At bytes at which replay ends, the loop ends with the map. -/
theorem replayLoop_unread (start : Nat) (pre : Bytes) (map : Rows) {t : Bytes} (h : Unread t) :
    replayLoop start (pre ++ t) pre.length map = .ok map := by
  rcases h with h | ⟨body, sum, rest, hbody, hsum, hne, rfl⟩
  · exact replayLoop_incomplete start pre map h
  · rw [replayLoop_header start pre rest map hbody hsum, if_pos hne.symm]

/-- Any beginning of a record but the whole is part of a record. -/
theorem incomplete_take {ops : List BatchOp} (hfit : RecordFits ops) {k : Nat} (hk : k < (encodeCommitRecord ops).length) :
    Incomplete ((encodeCommitRecord ops).take k) := by
  rw [length_encodeCommitRecord] at hk
  by_cases h9 : k < 9
  · exact Or.inl (by rw [List.length_take]; omega)
  · -- the header is whole: what is cut is the body or the checksum
    refine Or.inr ⟨(commitBody ops).length, (commitBody ops ++ leBytes 4 (crc32 (commitBody ops)).toNat).take (k - 9), hfit, ?_, ?_⟩
    · have hsplit : encodeCommitRecord ops = (magic ++ walVersion :: leBytes 4 (commitBody ops).length) ++
          (commitBody ops ++ leBytes 4 (crc32 (commitBody ops)).toNat) := by
        simp [encodeCommitRecord, frame]
      rw [hsplit, List.take_append, List.take_of_length_le (by simp; omega)]
      simp [header]
    · rw [List.length_take, List.length_append, length_leBytes]
      omega

theorem unread_nil : Unread [] := Or.inl incomplete_nil

/-- At any beginning of a record but the whole, replay ends. -/
theorem unread_take {ops : List BatchOp} (hfit : RecordFits ops) {k : Nat} (hk : k < (encodeCommitRecord ops).length) :
    Unread ((encodeCommitRecord ops).take k) :=
  Or.inl (incomplete_take hfit hk)

/-- Replay does not end at a whole record, whatever follows it. -/
theorem not_unread_record {ops : List BatchOp} (hfit : RecordFits ops) (rest : Bytes) :
    ¬Unread (encodeCommitRecord ops ++ rest) := by
  intro h
  rcases h with (h | ⟨len, tail, hl, heq, htail⟩) | ⟨body, sum, tail, hbody, hsum, hne, heq⟩
  · rw [List.length_append, length_encodeCommitRecord] at h
    omega
  · rw [encodeCommitRecord_append] at heq
    obtain ⟨rfl, rfl⟩ := header_inj hfit hl heq
    simp only [List.length_append, length_leBytes] at htail
    omega
  · -- the announced lengths agree, so the bodies and the checksums do
    rw [encodeCommitRecord_append] at heq
    obtain ⟨hlen, htail⟩ := header_inj hfit hbody heq
    obtain ⟨htail, -⟩ := List.append_inj htail (by simp [hlen, hsum])
    obtain ⟨rfl, rfl⟩ := List.append_inj htail hlen
    exact hne (fromLe_crc32 _)

/-- The log after some batches: their records, one after the other. -/
def logBytes (batches : List (List BatchOp)) : Bytes := batches.flatMap encodeCommitRecord

@[simp] theorem logBytes_nil : logBytes [] = [] := rfl

theorem logBytes_cons (ops : List BatchOp) (batches : List (List BatchOp)) :
    logBytes (ops :: batches) = encodeCommitRecord ops ++ logBytes batches := by
  simp [logBytes]

/-- The loop applies the whole records of a log in order and ends at what is not one. -/
theorem replayLoop_log (start : Nat) (pre : Bytes) (map : Rows) {batches : List (List BatchOp)} {t : Bytes}
    (hfit : ∀ ops ∈ batches, RecordFits ops) (ht : Unread t) :
    replayLoop start (pre ++ logBytes batches ++ t) pre.length map = .ok (applyAll map batches) := by
  induction batches generalizing pre map with
  | nil =>
    rw [logBytes_nil, List.append_nil, applyAll_nil]
    exact replayLoop_unread start pre map ht
  | cons ops batches ih =>
    have hrec := replayLoop_record start pre (logBytes batches ++ t) map (hfit ops List.mem_cons_self)
    have hrest := ih (pre ++ encodeCommitRecord ops) (applyOps map ops)
      (fun ops' h => hfit ops' (List.mem_cons_of_mem _ h))
    have hbuf : pre ++ logBytes (ops :: batches) ++ t = pre ++ encodeCommitRecord ops ++ (logBytes batches ++ t) := by
      simp [logBytes]
    rw [hbuf, hrec, applyAll_cons, ← hrest, ← List.append_assoc]

/-- The bytes of a log determine its batches and what follows their records. -/
theorem logBytes_append_inj {batches batches' : List (List BatchOp)} {t t' : Bytes} (hfit : ∀ ops ∈ batches, RecordFits ops)
    (hfit' : ∀ ops ∈ batches', RecordFits ops) (ht : Unread t) (ht' : Unread t')
    (h : logBytes batches ++ t = logBytes batches' ++ t') : batches = batches' ∧ t = t' := by
  induction batches generalizing batches' with
  | nil =>
    cases batches' with
    | nil => exact ⟨rfl, h⟩
    | cons ops' batches' =>
      have h : t = encodeCommitRecord ops' ++ (logBytes batches' ++ t') := by simpa [logBytes] using h
      exact absurd (h ▸ ht) (not_unread_record (hfit' ops' List.mem_cons_self) _)
  | cons ops batches ih =>
    cases batches' with
    | nil =>
      have h : t' = encodeCommitRecord ops ++ (logBytes batches ++ t) := by simpa [logBytes] using h.symm
      exact absurd (h ▸ ht') (not_unread_record (hfit ops List.mem_cons_self) _)
    | cons ops' batches' =>
      have h : encodeCommitRecord ops ++ (logBytes batches ++ t) = encodeCommitRecord ops' ++ (logBytes batches' ++ t') := by
        simpa [logBytes] using h
      obtain ⟨rfl, hrest⟩ := encodeCommitRecord_append_inj (hfit ops List.mem_cons_self) (hfit' ops' List.mem_cons_self) h
      obtain ⟨rfl, rfl⟩ := ih (fun a ha => hfit a (List.mem_cons_of_mem _ ha)) (fun a ha => hfit' a (List.mem_cons_of_mem _ ha))
        hrest
      exact ⟨rfl, rfl⟩

/-- Replaying a log from its start. -/
theorem replayWal_log (map : Rows) {batches : List (List BatchOp)} {t : Bytes} (hfit : ∀ ops ∈ batches, RecordFits ops)
    (ht : Unread t) : replayWal (logBytes batches ++ t) 0 map = .ok (applyAll map batches) := by
  rw [replayWal, if_neg (Nat.not_lt_zero _)]
  exact replayLoop_log 0 [] map hfit ht

/-! ## Checkpoints -/

/-- The body of a map's checkpoint is shorter than `2 ^ 32` bytes. -/
def CheckpointFits (map : Rows) : Prop := (checkpointBody map 0).length < 2 ^ 32

instance (map : Rows) : Decidable (CheckpointFits map) := inferInstanceAs (Decidable (_ < _))

theorem encodeEntry_pos (e : Bytes × Bytes) : 1 ≤ (encodeEntry e).length := by
  simp only [encodeEntry, List.length_append, length_leBytes]
  omega

/-- When the body of a checkpoint is shorter than `2 ^ 32`, so are the count and all the lengths in it. -/
theorem checkpointBody_fits {map : Rows} (h : CheckpointFits map) :
    map.size < 2 ^ 32 ∧ ∀ e ∈ map.entries, e.1.length < 2 ^ 32 ∧ e.2.length < 2 ^ 32 := by
  simp only [CheckpointFits, checkpointBody, List.length_append, length_leBytes] at h
  have hb := length_flatMap_bounds encodeEntry_pos map.entries
  have hn := hb.1
  refine ⟨by rw [OrdMap.size]; omega, ?_⟩
  intro e he
  have := hb.2 e he
  simp only [encodeEntry, List.length_append, length_leBytes] at this
  exact ⟨by omega, by omega⟩

/-- Reading the entries of a map behind an ascending list of smaller keys appends them. -/
theorem readEntries_flatMap {l : List (Bytes × Bytes)} (map : Rows) (hasc : OrdMap.Ascending (map.entries ++ l))
    (hfit : ∀ e ∈ l, e.1.length < 2 ^ 32 ∧ e.2.length < 2 ^ 32) :
    ∃ map', readEntries l.length (l.flatMap encodeEntry) map = .ok (map', []) ∧ map'.entries = map.entries ++ l := by
  induction l generalizing map with
  | nil => exact ⟨map, rfl, by simp⟩
  | cons e l ih =>
    obtain ⟨k, v⟩ := e
    have hfe := hfit (k, v) List.mem_cons_self
    have hk := readBytes_append (leBytes 4 v.length ++ v ++ l.flatMap encodeEntry) hfe.1
    have hv := readBytes_append (l.flatMap encodeEntry) hfe.2
    simp only [List.append_assoc] at hk hv
    have hins : (map.insert k v).entries = map.entries ++ [(k, v)] := by
      apply OrdMap.insertEntry_of_lt
      intro e he
      exact (List.pairwise_append.mp hasc).2.2 e he (k, v) List.mem_cons_self
    obtain ⟨map', hread, hmap'⟩ := ih (map.insert k v) (by rw [hins]; simpa using hasc)
      (fun e he => hfit e (List.mem_cons_of_mem _ he))
    refine ⟨map', ?_, by rw [hmap', hins]; simp⟩
    simp [readEntries, encodeEntry, List.append_assoc, hk, hv, hread]

/-- A checkpoint gives its map. -/
theorem loadCheckpoint_checkpointBytes {map : Rows} (h : CheckpointFits map) :
    loadCheckpoint (checkpointBytes map 0) = .ok (map, 0) := by
  obtain ⟨hn, hfit⟩ := checkpointBody_fits h
  obtain ⟨map', hread, hmap'⟩ := readEntries_flatMap OrdMap.empty map.ascending hfit
  have hmap : map' = map := by
    obtain ⟨l, hl⟩ := map
    obtain ⟨l', hl'⟩ := map'
    simp only [OrdMap.empty, List.nil_append] at hmap'
    subst hmap'
    rfl
  subst hmap
  have hlen : (checkpointBytes map' 0).length = 9 + (checkpointBody map' 0).length + 4 :=
    length_frame _ _ length_checkpointMagic
  have hbuf : checkpointBytes map' 0 = [] ++ header checkpointMagic checkpointVersion (checkpointBody map' 0).length
      (checkpointBody map' 0 ++ leBytes 4 (crc32 (checkpointBody map' 0)).toNat ++ []) := by
    simp [checkpointBytes, frame, header]
  obtain ⟨hmag, hver, hblen⟩ := header_slices [] (checkpointBody map' 0 ++ leBytes 4 (crc32 (checkpointBody map' 0)).toNat ++ [])
    checkpointVersion (checkpointBody map' 0).length length_checkpointMagic
  obtain ⟨hbody, hcrc⟩ := frame_slices [] [] checkpointVersion (checkpointBody map' 0)
    length_checkpointMagic (length_leBytes 4 (crc32 (checkpointBody map' 0)).toNat)
  simp only [List.length_nil, Nat.zero_add] at hmag hver hblen hbody hcrc
  have hoffset : readArray 8 (checkpointBody map' 0) =
      .ok (leBytes 8 0, leBytes 4 map'.size ++ map'.entries.flatMap encodeEntry) := by
    rw [checkpointBody, List.append_assoc]
    exact readArray_append _ (length_leBytes 8 0)
  rw [loadCheckpoint, if_neg (by omega)]
  rw [hbuf] at hlen ⊢
  simp only [Rust.pure_eq_ok, hmag, hver, hblen, Rust.ok_bind, ne_eq, not_true_eq_false, if_false,
    fromLe_leBytes_of_lt (show (checkpointBody map' 0).length < 256 ^ 4 from h), hbody, hcrc, fromLe_crc32, hoffset,
    readU32_append _ hn]
  rw [if_neg (by omega), OrdMap.size, hread]
  simp [fromLe_leBytes]

end Wal
end AlefsDb
