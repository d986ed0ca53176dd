import AlefsDb.Lib.Crc
import AlefsDb.Lemmas.WalFormat

/-!
# Damaged records

The checksum of a record body changes with any change of at most four consecutive bytes of it (`crc32_burst`), so a record that is
damaged in such a place, or in its checksum, does not match its checksum any more. Replay ends there: the batches of the records
before it are applied, and nothing else (`replayWal_damaged`).
-/

namespace AlefsDb
namespace Wal

/-! ## The checksum -/

/-- The polynomial of CRC-32, reflected. -/
def crcPoly : BitVec 32 := 0xEDB88320#32

/-- A step of the checksum for a bit is one of the remainder. -/
theorem toBitVec_crcBit (c : UInt32) : (crcBit c).toBitVec = Crc.stepBit crcPoly c.toBitVec := by
  have hlow : c.toBitVec &&& 1#32 = BitVec.setWidth 32 (BitVec.ofBool (c.toBitVec.getLsbD 0)) :=
    BitVec.and_one_eq_setWidth_ofBool_getLsbD
  have hcrc : (crcBit c).toBitVec = c.toBitVec >>> 1 ^^^ (crcPoly &&& -(c.toBitVec &&& 1#32)) := rfl
  rw [hcrc, hlow, Crc.stepBit]
  cases c.toBitVec.getLsbD 0
  · rw [show -(BitVec.setWidth 32 (BitVec.ofBool false)) = 0#32 by decide]
    simp
  · rw [show -(BitVec.setWidth 32 (BitVec.ofBool true)) = BitVec.allOnes 32 by decide, BitVec.and_allOnes, if_pos rfl]

theorem toBitVec_iterate_crcBit (n : Nat) (c : UInt32) :
    (Nat.iterate crcBit n c).toBitVec = Nat.iterate (Crc.stepBit crcPoly) n c.toBitVec := by
  induction n generalizing c with
  | zero => rfl
  | succ n ih => rw [Function.iterate_succ_apply, Function.iterate_succ_apply, ih, toBitVec_crcBit]

theorem toBitVec_crcByte (c : UInt32) (b : UInt8) : (crcByte c b).toBitVec = Crc.stepByte crcPoly c.toBitVec b := by
  rw [crcByte, Crc.stepByte, toBitVec_iterate_crcBit, UInt32.toBitVec_xor, UInt8.toBitVec_toUInt32]

/-- A checksum is a remainder. -/
theorem toBitVec_foldl_crcByte (bs : Bytes) (c : UInt32) :
    (bs.foldl crcByte c).toBitVec = bs.foldl (Crc.stepByte crcPoly) c.toBitVec := by
  induction bs generalizing c with
  | nil => rfl
  | cons b bs ih => rw [List.foldl_cons, List.foldl_cons, ih, toBitVec_crcByte]

/-- A change of at most four consecutive bytes changes the checksum. -/
theorem crc32_burst (before after : Bytes) {xs ys : Bytes} (hlen : xs.length = ys.length) (h4 : xs.length ≤ 4)
    (h : crc32 (before ++ xs ++ after) = crc32 (before ++ ys ++ after)) : xs = ys := by
  have hreg := congrArg UInt32.toBitVec (UInt32.not_inj.mp h)
  rw [toBitVec_foldl_crcByte, toBitVec_foldl_crcByte] at hreg
  exact Crc.foldl_stepByte_burst (by decide) _ before after hlen (by omega) hreg

/-! ## Damage -/

/-- Bytes that a change of at most the `n` bytes from `a` on, but not of none, makes of others. -/
structure ChangedIn (a n : Nat) (log log' : Bytes) : Prop where
  length_eq : log'.length = log.length
  ne : log' ≠ log
  outside : ∀ i, i < a ∨ a + n ≤ i → log'[i]? = log[i]?

/-- A change within a part of the bytes is a change of this part to others. -/
theorem ChangedIn.exists_part {before old after log' : Bytes} {a n : Nat} (ha : a = before.length) (hn : n = old.length)
    (h : ChangedIn a n (before ++ old ++ after) log') :
    ∃ new, new.length = old.length ∧ new ≠ old ∧ log' = before ++ new ++ after := by
  subst ha hn
  have hlen := h.length_eq
  simp only [List.length_append] at hlen
  have hsplit : log' = before ++ (log'.drop before.length).take old.length ++ after := by
    apply List.ext_getElem?
    intro i
    have hout := h.outside i
    by_cases h₁ : i < before.length
    · rw [hout (Or.inl h₁), List.append_assoc, List.append_assoc, List.getElem?_append_left h₁, List.getElem?_append_left h₁]
    · by_cases h₂ : before.length + old.length ≤ i
      · have hmid : (before ++ (log'.drop before.length).take old.length).length = before.length + old.length := by
          simp only [List.length_append, List.length_take, List.length_drop]
          omega
        rw [hout (Or.inr h₂), List.getElem?_append_right (by rw [List.length_append]; omega),
          List.getElem?_append_right (by omega), hmid, List.length_append]
      · rw [List.append_assoc, List.getElem?_append_right (by omega), List.getElem?_append_left
          (by simp only [List.length_take, List.length_drop]; omega), List.getElem?_take_of_lt (by omega), List.getElem?_drop,
          Nat.add_sub_cancel' (by omega)]
  refine ⟨_, by simp only [List.length_take, List.length_drop]; omega, ?_, hsplit⟩
  intro heq
  rw [heq] at hsplit
  exact h.ne hsplit

/-- Damage of one record of a log, the one of the batch `ops` behind those of `before`: at least one byte is changed, and all that
are changed are among at most four consecutive bytes of its body, or are among its four checksum bytes. -/
def RecordDamaged (before : List (List BatchOp)) (ops : List BatchOp) (log log' : Bytes) : Prop :=
  (∃ a n, n ≤ 4 ∧ a + n ≤ (commitBody ops).length ∧ ChangedIn ((logBytes before).length + 9 + a) n log log') ∨
    ChangedIn ((logBytes before).length + 9 + (commitBody ops).length) 4 log log'

/-- Any part of bytes, with what is before it and what is after it. -/
theorem exists_part {body : Bytes} {a n : Nat} (h : a + n ≤ body.length) :
    ∃ pre old post, body = pre ++ old ++ post ∧ pre.length = a ∧ old.length = n := by
  refine ⟨body.take a, (body.drop a).take n, (body.drop a).drop n, ?_, ?_, ?_⟩
  · rw [List.append_assoc, List.take_append_drop, List.take_append_drop]
  · rw [List.length_take]
    omega
  · rw [List.length_take, List.length_drop]
    omega

/-- What a damaged record makes of the bytes from it on: a header, a body and a checksum that do not match, and what followed. -/
theorem RecordDamaged.unread {before : List (List BatchOp)} {ops : List BatchOp} {after log' : Bytes} (hfit : RecordFits ops)
    (h : RecordDamaged before ops (logBytes before ++ encodeCommitRecord ops ++ after) log') :
    ∃ t, log' = logBytes before ++ t ∧ Unread t := by
  have hlog : logBytes before ++ encodeCommitRecord ops ++ after = logBytes before ++
      header magic walVersion (commitBody ops).length (commitBody ops ++ leBytes 4 (crc32 (commitBody ops)).toNat ++ after) := by
    rw [List.append_assoc, encodeCommitRecord_append]
  unfold RecordDamaged at h
  rw [hlog] at h
  unfold RecordFits at hfit
  generalize commitBody ops = body at h hfit
  -- no damage touches the header
  have hsplit : ∀ tail, logBytes before ++ header magic walVersion body.length tail =
      (logBytes before ++ (magic ++ walVersion :: leBytes 4 body.length)) ++ tail := by
    intro tail
    simp [header]
  have hhead : (logBytes before ++ (magic ++ walVersion :: leBytes 4 body.length)).length = (logBytes before).length + 9 := by
    simp
  rcases h with ⟨a, n, hn, hbody, h⟩ | h
  · obtain ⟨pre, old, post, rfl, rfl, rfl⟩ := exists_part hbody
    rw [hsplit, ← List.append_assoc, ← List.append_assoc, ← List.append_assoc, ← List.append_assoc,
      List.append_assoc _ post, List.append_assoc _ (post ++ _)] at h
    obtain ⟨new, hnew, hne, rfl⟩ := h.exists_part (by rw [List.length_append, hhead]) rfl
    have hlen : (pre ++ new ++ post).length = (pre ++ old ++ post).length := by
      simp only [List.length_append, hnew]
    refine ⟨header magic walVersion (pre ++ new ++ post).length (pre ++ new ++ post ++ leBytes 4 (crc32 (pre ++ old ++ post)).toNat ++
      after), ?_, Or.inr ⟨_, _, after, hlen ▸ hfit, length_leBytes 4 _, ?_, rfl⟩⟩
    · rw [hlen, hsplit]
      simp only [List.append_assoc]
    · intro hcrc
      rw [fromLe_crc32] at hcrc
      exact hne (crc32_burst pre post hnew.symm hn (UInt32.toNat_inj.mp hcrc)).symm
  · rw [hsplit, ← List.append_assoc, ← List.append_assoc] at h
    obtain ⟨sum, hsum, hne, rfl⟩ := h.exists_part (by rw [List.length_append, hhead]) (length_leBytes 4 _).symm
    rw [length_leBytes] at hsum
    refine ⟨header magic walVersion body.length (body ++ sum ++ after), by rw [hsplit]; simp only [List.append_assoc],
      Or.inr ⟨body, sum, after, hfit, hsum, ?_, rfl⟩⟩
    intro hcrc
    have hle := leBytes_fromLe sum
    rw [hsum, hcrc] at hle
    exact hne hle.symm

/-- Replay of a log in which a record is damaged applies the batches of the records before it, in order, and nothing else. -/
theorem replayWal_damaged (map : Rows) {before after : List (List BatchOp)} {ops : List BatchOp} {log' : Bytes}
    (hbefore : ∀ b ∈ before, RecordFits b) (hops : RecordFits ops)
    (h : RecordDamaged before ops (logBytes (before ++ ops :: after)) log') :
    replayWal log' 0 map = .ok (applyAll map before) := by
  have hlog : logBytes (before ++ ops :: after) = logBytes before ++ encodeCommitRecord ops ++ logBytes after := by
    simp [logBytes]
  rw [hlog] at h
  obtain ⟨t, rfl, ht⟩ := h.unread hops
  exact replayWal_log map hbefore ht

/-- A log of three records, of which the second has its key changed, replayed over an empty map. -/
theorem replayWal_damaged_key :
    let put : List BatchOp := [.put [107] [118]]
    let delete : List BatchOp := [.delete [107]]
    replayWal ((logBytes [put, delete, put]).set 48 108) 0 OrdMap.empty = .ok (applyAll OrdMap.empty [put]) := by
  intro put delete
  have hput : RecordFits put := by decide
  have hdelete : RecordFits delete := by decide
  have hchanged : ChangedIn 48 1 (logBytes [put, delete, put]) ((logBytes [put, delete, put]).set 48 108) := by
    refine ⟨List.length_set, ?_, ?_⟩
    · intro h
      have h48 := congrArg (fun log : Bytes => log[48]?) h
      revert h48
      decide
    · intro i hi
      exact List.getElem?_set_ne (by omega)
  have hpos : (logBytes [put]).length + 9 + 10 = 48 := by decide
  have hdamaged : RecordDamaged [put] delete (logBytes ([put] ++ delete :: [put])) ((logBytes [put, delete, put]).set 48 108) :=
    Or.inl ⟨10, 1, by decide, by decide, by rw [hpos]; exact hchanged⟩
  exact replayWal_damaged OrdMap.empty (by simpa using hput) hdelete hdamaged

end Wal
end AlefsDb
