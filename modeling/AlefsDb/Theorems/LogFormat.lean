import AlefsDb.Lemmas.WalReads

/-!
# Replay accepts the log format

Replay of arbitrary bytes returns, and when it returns `Ok` the bytes are the records of some batches and a rest at which a replay
ends, in one way only; the batches are what has been applied. The other way round, a log cut at any byte is accepted and
gives the batches whose records are complete before the cut (`replayWal_accepts_log_format`).
-/

namespace AlefsDb
namespace Wal

/-- The bytes of a log as the records of some batches, one after the other, and bytes at which replay ends. -/
structure IsSplit (file : Bytes) (batches : List (List BatchOp)) (rest : Bytes) : Prop where
  eq : file = logBytes batches ++ rest
  fits : ∀ ops ∈ batches, RecordFits ops
  unread : Unread rest

/-- Bytes split in one way. -/
theorem IsSplit.unique {file : Bytes} {batches batches' : List (List BatchOp)} {rest rest' : Bytes}
    (h : IsSplit file batches rest) (h' : IsSplit file batches' rest') : batches' = batches ∧ rest' = rest :=
  logBytes_append_inj h'.fits h.fits h'.unread h.unread (h'.eq.symm.trans h.eq)

/-- A record in front of a log. -/
theorem IsSplit.cons {file : Bytes} {batches : List (List BatchOp)} {rest : Bytes} {ops : List BatchOp}
    (h : IsSplit file batches rest) (hfit : RecordFits ops) : IsSplit (encodeCommitRecord ops ++ file) (ops :: batches) rest where
  eq := by rw [h.eq, logBytes_cons, List.append_assoc]
  fits := by
    intro a ha
    rcases List.mem_cons.mp ha with rfl | ha
    · exact hfit
    · exact h.fits a ha
  unread := h.unread

/-- The records of batches in front of a log. -/
theorem IsSplit.append {file : Bytes} {before batches : List (List BatchOp)} {rest : Bytes} (h : IsSplit file batches rest)
    (hfit : ∀ ops ∈ before, RecordFits ops) : IsSplit (logBytes before ++ file) (before ++ batches) rest := by
  induction before with
  | nil => exact h
  | cons ops before ih =>
    rw [logBytes_cons, List.append_assoc]
    exact (ih (fun a ha => hfit a (List.mem_cons_of_mem _ ha))).cons (hfit ops List.mem_cons_self)

/-- What stands behind the records of batches splits where the whole does. -/
theorem IsSplit.behind {file : Bytes} {before batches : List (List BatchOp)} {rest : Bytes}
    (h : IsSplit (logBytes before ++ file) batches rest) (hfit : ∀ ops ∈ before, RecordFits ops) :
    ∃ after, batches = before ++ after ∧ IsSplit file after rest := by
  induction before generalizing batches with
  | nil => exact ⟨batches, rfl, h⟩
  | cons ops before ih =>
    have hops := hfit ops List.mem_cons_self
    have heq := h.eq
    rw [logBytes_cons, List.append_assoc] at heq
    cases batches with
    | nil =>
      rw [logBytes_nil, List.nil_append] at heq
      exact absurd (heq ▸ h.unread) (not_unread_record hops _)
    | cons ops' batches =>
      rw [logBytes_cons, List.append_assoc] at heq
      obtain ⟨rfl, hrest⟩ := encodeCommitRecord_append_inj hops (h.fits ops' List.mem_cons_self) heq
      obtain ⟨after, rfl, hafter⟩ := ih ⟨hrest, fun a ha => h.fits a (List.mem_cons_of_mem _ ha), h.unread⟩
        (fun a ha => hfit a (List.mem_cons_of_mem _ ha))
      exact ⟨after, rfl, hafter⟩

/-- Bytes that split are accepted, and their batches are applied in order. -/
theorem IsSplit.replayWal {file : Bytes} {batches : List (List BatchOp)} {rest : Bytes} (h : IsSplit file batches rest)
    (map : Rows) : replayWal file 0 map = .ok (applyAll map batches) := by
  rw [h.eq]
  exact replayWal_log map h.fits h.unread

/-- From any index on, the loop fails unless the bytes there split. -/
theorem isSplit_of_replayLoop (start : Nat) (pre : Bytes) (map : Rows) (t : Bytes) :
    (∃ batches rest, IsSplit t batches rest) ∨ ∃ e, replayLoop start (pre ++ t) pre.length map = Rust.err e := by
  -- induction on the bytes left: each turn takes a whole record of them
  obtain ⟨n, hn⟩ : ∃ n, t.length ≤ n := ⟨_, Nat.le_refl _⟩
  induction n generalizing pre map t with
  | zero =>
    have ht : t = [] := List.eq_nil_of_length_eq_zero (Nat.le_zero.mp hn)
    exact Or.inl ⟨[], t, by simp, by simp, Or.inl (ht ▸ incomplete_nil)⟩
  | succ n ih =>
    rcases replayLoop_turn start pre map t with hend | ⟨ops, t', hfit, rfl⟩ | herr
    · exact Or.inl ⟨[], t, by simp, by simp, hend⟩
    · have hlen : t'.length ≤ n := by
        rw [List.length_append, length_encodeCommitRecord] at hn
        omega
      rcases ih (pre ++ encodeCommitRecord ops) (applyOps map ops) t' hlen with ⟨batches, rest, h⟩ | ⟨e, herr⟩
      · exact Or.inl ⟨ops :: batches, rest, h.cons hfit⟩
      · refine Or.inr ⟨e, ?_⟩
        rw [← List.append_assoc, replayLoop_record start pre t' map hfit]
        exact herr
    · exact Or.inr herr

/-- A log splits, or its replay fails. -/
theorem isSplit_or_err (file : Bytes) (map : Rows) :
    (∃ batches rest, IsSplit file batches rest) ∨ ∃ e, replayWal file 0 map = Rust.err e := by
  rw [replayWal, if_neg (Nat.not_lt_zero _)]
  exact isSplit_of_replayLoop 0 [] map file

/-- The batches whose records are complete in the first `k` bytes of the log of some batches. -/
def completeIn (k : Nat) : List (List BatchOp) → List (List BatchOp)
  | [] => []
  | ops :: batches =>
    if (encodeCommitRecord ops).length ≤ k then ops :: completeIn (k - (encodeCommitRecord ops).length) batches else []

/-- A log cut anywhere splits into the records that are complete before the cut and part of a record. -/
theorem isSplit_take {batches : List (List BatchOp)} (hfit : ∀ ops ∈ batches, RecordFits ops) (k : Nat) :
    ∃ rest, IsSplit ((logBytes batches).take k) (completeIn k batches) rest := by
  induction batches generalizing k with
  | nil => exact ⟨[], by simp [completeIn], by simp [completeIn], Or.inl incomplete_nil⟩
  | cons ops batches ih =>
    have hops := hfit ops List.mem_cons_self
    rw [completeIn, logBytes_cons]
    by_cases hk : (encodeCommitRecord ops).length ≤ k
    · obtain ⟨rest, h⟩ := ih (fun a ha => hfit a (List.mem_cons_of_mem _ ha)) (k - (encodeCommitRecord ops).length)
      rw [if_pos hk, List.take_append, List.take_of_length_le hk]
      exact ⟨rest, h.cons hops⟩
    · rw [if_neg hk, List.take_append_of_le_length (Nat.le_of_not_le hk)]
      exact ⟨_, by simp, by simp, Or.inl (incomplete_take hops (Nat.lt_of_not_le hk))⟩

/-- Replay of any bytes returns. Where it returns `Ok`, the bytes split in exactly one way into the records of some batches and a
rest at which replay ends, and the result is the initial map with these batches applied in order. A log of records, cut at
any byte, is accepted, with the batches whose records are complete before the cut. -/
theorem replayWal_accepts_log_format (map : Rows) :
    (∀ file, Rust.Returns (replayWal file 0 map)) ∧
    (∀ file map', replayWal file 0 map = .ok map' →
      ∃ batches rest, IsSplit file batches rest ∧ map' = applyAll map batches ∧
        ∀ batches' rest', IsSplit file batches' rest' → batches' = batches ∧ rest' = rest) ∧
    ∀ batches, (∀ ops ∈ batches, RecordFits ops) →
      ∀ k, replayWal ((logBytes batches).take k) 0 map = .ok (applyAll map (completeIn k batches)) := by
  refine ⟨?_, ?_, ?_⟩
  · intro file
    rcases isSplit_or_err file map with ⟨batches, rest, h⟩ | ⟨e, he⟩
    · exact Or.inl ⟨_, h.replayWal map⟩
    · exact Or.inr ⟨e, he⟩
  · intro file map' hok
    rcases isSplit_or_err file map with ⟨batches, rest, h⟩ | ⟨e, he⟩
    · rw [h.replayWal map] at hok
      cases hok
      exact ⟨batches, rest, h, rfl, fun _ _ h' => h.unique h'⟩
    · rw [he] at hok
      exact absurd hok (Rust.err_ne_ok _ _)
  · intro batches hfit k
    obtain ⟨rest, h⟩ := isSplit_take hfit k
    exact h.replayWal map

/-- A log of two records of which the second lacks its last byte, replayed over an empty map. -/
theorem replayWal_accepts_cut_log :
    let batches := [[BatchOp.put [107] [118]], [BatchOp.delete [107]]]
    let cut := (logBytes batches).take 52
    replayWal cut 0 OrdMap.empty = .ok (applyAll OrdMap.empty [[.put [107] [118]]]) ∧
    ∃ batches rest, IsSplit cut batches rest ∧ applyAll OrdMap.empty [[.put [107] [118]]] = applyAll OrdMap.empty batches := by
  intro batches cut
  have hfit : ∀ ops ∈ batches, RecordFits ops := by
    intro ops hops
    simp only [batches, List.mem_cons, List.not_mem_nil, or_false] at hops
    rcases hops with rfl | rfl
    · decide
    · decide
  obtain ⟨-, hok, hcut⟩ := replayWal_accepts_log_format OrdMap.empty
  have hcomplete : completeIn 52 batches = [[.put [107] [118]]] := by decide
  have hreplay := hcut batches hfit 52
  rw [hcomplete] at hreplay
  obtain ⟨batches', rest, h, heq, -⟩ := hok cut _ hreplay
  exact ⟨hreplay, batches', rest, h, heq⟩

end Wal
end AlefsDb
