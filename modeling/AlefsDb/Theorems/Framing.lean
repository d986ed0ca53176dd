import AlefsDb.Server.Framing

/-!
# What framing keeps

Messages that are written are read back as long as none is longer than the reader takes, and a stream that is read to its end is
the messages read from it as long as it does not end inside a length (`framing_exact_iff`). The writer takes a payload of any
length, and on a length that is cut short the reader reports the end of the stream (`cut_length_reads_as_end`).
-/

namespace AlefsDb
namespace Framing

/-- Reading a stream to its end gives the payloads of the frames it consists of, and leaves less than a length unreported. -/
theorem reads_iff {stream : Bytes} {payloads : List Bytes} :
    Reads stream payloads ↔
      (∀ p ∈ payloads, p.length ≤ maxMessage) ∧ ∃ rest, rest.length < 4 ∧ stream = payloads.flatMap frame ++ rest := by
  induction payloads generalizing stream with
  | nil =>
    refine ⟨?_, ?_⟩
    · intro h
      obtain ⟨stream', h⟩ := h
      rcases readMessage_eq_ok h with ⟨-, hshort⟩ | ⟨payload, hr, -⟩
      · exact ⟨by simp, stream, hshort, rfl⟩
      · cases hr
    · intro h
      obtain ⟨-, rest, hrest, rfl⟩ := h
      exact ⟨[], readMessage_short hrest⟩
  | cons payload payloads ih =>
    refine ⟨?_, ?_⟩
    · intro h
      obtain ⟨stream', hread, h⟩ := h
      obtain ⟨hmax, rest, hrest, rfl⟩ := ih.mp h
      rcases readMessage_eq_ok hread with ⟨hr, -⟩ | ⟨payload', hr, hlen, rfl⟩
      · cases hr
      · cases hr
        refine ⟨?_, rest, hrest, by rw [List.flatMap_cons, List.append_assoc]⟩
        intro p hp
        rcases List.mem_cons.mp hp with rfl | hp
        · exact hlen
        · exact hmax p hp
    · intro h
      obtain ⟨hmax, rest, hrest, rfl⟩ := h
      rw [List.flatMap_cons, List.append_assoc]
      exact ⟨_, readMessage_frame _ (hmax payload List.mem_cons_self),
        ih.mpr ⟨fun p hp => hmax p (List.mem_cons_of_mem _ hp), rest, hrest, rfl⟩⟩

/-- A stream is read in one way. -/
theorem Reads.unique {stream : Bytes} {payloads payloads' : List Bytes} (h : Reads stream payloads)
    (h' : Reads stream payloads') : payloads = payloads' := by
  induction payloads generalizing stream payloads' with
  | nil =>
    obtain ⟨_, h⟩ := h
    cases payloads' with
    | nil => rfl
    | cons payload' payloads' =>
      obtain ⟨_, h', -⟩ := h'
      rw [h] at h'
      cases h'
  | cons payload payloads ih =>
    obtain ⟨stream₁, h, hrest⟩ := h
    cases payloads' with
    | nil =>
      obtain ⟨_, h'⟩ := h'
      rw [h] at h'
      cases h'
    | cons payload' payloads' =>
      obtain ⟨stream₁', h', hrest'⟩ := h'
      rw [h] at h'
      cases h'
      rw [ih hrest hrest']

/-- A stream that is read to its end does not fail. -/
theorem Reads.not_fails {stream : Bytes} {payloads payloads' : List Bytes} (h : Reads stream payloads) :
    ¬ReadsThenFails stream payloads' := by
  intro h'
  induction payloads generalizing stream payloads' with
  | nil =>
    obtain ⟨_, h⟩ := h
    cases payloads' with
    | nil =>
      obtain ⟨_, h'⟩ := h'
      rw [h] at h'
      exact Rust.ok_ne_err _ _ h'
    | cons payload' payloads' =>
      obtain ⟨_, h', -⟩ := h'
      rw [h] at h'
      cases h'
  | cons payload payloads ih =>
    obtain ⟨stream₁, h, hrest⟩ := h
    cases payloads' with
    | nil =>
      obtain ⟨_, h'⟩ := h'
      rw [h] at h'
      exact Rust.ok_ne_err _ _ h'
    | cons payload' payloads' =>
      obtain ⟨stream₁', h', hrest'⟩ := h'
      rw [h] at h'
      cases h'
      exact ih hrest hrest'

/-- Reading any stream comes to its end or to an error. -/
theorem reads_or_fails (stream : Bytes) : (∃ payloads, Reads stream payloads) ∨ ∃ payloads, ReadsThenFails stream payloads := by
  -- induction on the bytes left: each message that is read takes at least its length
  obtain ⟨n, hn⟩ : ∃ n, stream.length ≤ n := ⟨_, Nat.le_refl _⟩
  induction n generalizing stream with
  | zero => exact Or.inl ⟨[], _, readMessage_short (by omega)⟩
  | succ n ih =>
    rcases readMessage_returns stream with ⟨⟨r, rest⟩, hread⟩ | ⟨e, herr⟩
    · rcases readMessage_eq_ok hread with ⟨hr, -⟩ | ⟨payload, hr, -, hstream⟩
      · cases hr
        exact Or.inl ⟨[], _, hread⟩
      · cases hr
        dsimp only at hstream
        have hlen : rest.length ≤ n := by
          have hlen := congrArg List.length hstream
          simp only [frame, List.length_append, length_leBytes] at hlen
          omega
        rcases ih rest hlen with ⟨payloads, h⟩ | ⟨payloads, h⟩
        · exact Or.inl ⟨payload :: payloads, rest, hread, h⟩
        · exact Or.inr ⟨payload :: payloads, rest, hread, h⟩
    · exact Or.inr ⟨[], e, herr⟩

/-- The stream is whole messages, none longer than the reader takes, and behind them a beginning of a length, cut short. -/
def EndsInHeader (stream : Bytes) : Prop :=
  ∃ (payloads : List Bytes) (rest : Bytes), (∀ p ∈ payloads, p.length ≤ maxMessage) ∧ stream = payloads.flatMap frame ++ rest ∧
    0 < rest.length ∧ rest.length < 4

/-- What `write_message` produces for payloads, one after the other. -/
def Written (payloads : List Bytes) (stream : Bytes) : Prop := ∃ w, writeMessages payloads newSink = .ok w ∧ w.bytes = stream

/-- A stream of messages is their frames. -/
theorem written_iff {payloads : List Bytes} {stream : Bytes} : Written payloads stream ↔ stream = payloads.flatMap frame := by
  unfold Written newSink
  rw [writeMessages_newSink]
  simp [eq_comm]

/-- A stream that is read to its end is the messages read from it exactly if it does not end inside a length. -/
theorem written_iff_of_reads {stream : Bytes} {payloads : List Bytes} (h : Reads stream payloads) :
    Written payloads stream ↔ ¬EndsInHeader stream := by
  rw [written_iff]
  obtain ⟨hmax, rest, hrest, hstream⟩ := reads_iff.mp h
  refine ⟨?_, ?_⟩
  · intro hframes hcut
    obtain ⟨payloads', rest', hmax', hstream', hpos, hlt⟩ := hcut
    obtain rfl := h.unique (reads_iff.mpr ⟨hmax', rest', hlt, hstream'⟩)
    have hlen := congrArg List.length (hframes.symm.trans hstream')
    rw [List.length_append] at hlen
    omega
  · intro hcut
    cases rest with
    | nil => rw [hstream, List.append_nil]
    | cons b rest => exact absurd ⟨payloads, b :: rest, hmax, hstream, Nat.succ_pos _, hrest⟩ hcut

/-- Messages written one after the other, every call returning `Ok`, are read back, and then the end of the stream, exactly if none
is longer than the reader takes. A stream that is read to its end is what is written for the payloads read, exactly if it does
not end inside a length; and a stream that is not what is written for any payloads is reported as an error exactly then. -/
theorem framing_exact_iff (payloads : List Bytes) (faults : List (Option IoError)) (w : Sink) (stream : Bytes) :
    (writeMessages payloads { bytes := [], faults := faults } = .ok w →
      (Reads w.bytes payloads ↔ ∀ p ∈ payloads, p.length ≤ maxMessage)) ∧
    (Reads stream payloads → (Written payloads stream ↔ ¬EndsInHeader stream)) ∧
    ((¬∃ payloads, Written payloads stream) → ((∃ payloads, ReadsThenFails stream payloads) ↔ ¬EndsInHeader stream)) := by
  refine ⟨?_, written_iff_of_reads, ?_⟩
  · intro h
    have hbytes := writeMessages_eq_ok h
    rw [List.nil_append] at hbytes
    rw [hbytes, reads_iff]
    exact ⟨fun h => h.1, fun h => ⟨h, [], by simp, by simp⟩⟩
  · intro hnot
    refine ⟨?_, ?_⟩
    · intro hfails hcut
      obtain ⟨payloads, rest, hmax, hstream, -, hlt⟩ := hcut
      obtain ⟨payloads', hfails⟩ := hfails
      exact (reads_iff.mpr ⟨hmax, rest, hlt, hstream⟩).not_fails hfails
    · intro hcut
      rcases reads_or_fails stream with ⟨payloads, h⟩ | h
      · exact absurd ⟨payloads, (written_iff_of_reads h).mpr hcut⟩ hnot
      · exact h

/-- Two messages written to a writer that says so for its first calls, and read back. -/
theorem framing_exact_hi : Reads (frame [104, 105] ++ frame []) [[104, 105], []] ∧ ¬EndsInHeader (frame [104, 105] ++ frame []) := by
  have hwritten : writeMessages [[104, 105], []] { bytes := [], faults := [none, none] } =
      .ok { bytes := frame [104, 105] ++ frame [], faults := [] } := by rfl
  have hreads : Reads (frame [104, 105] ++ frame []) [[104, 105], []] :=
    ((framing_exact_iff _ _ _ []).1 hwritten).mpr (by decide)
  exact ⟨hreads, ((framing_exact_iff _ [] newSink _).2.1 hreads).mp (written_iff.mpr (by simp))⟩

/-- Two bytes of a length read as the end of a stream, though no message is written so; and a message that is longer than the
reader takes is written, and is not read back. -/
theorem cut_length_reads_as_end :
    (Reads [5, 0] [] ∧ ¬∃ payloads, Written payloads [5, 0]) ∧
    ∃ payload w, writeMessages [payload] newSink = .ok w ∧ ¬Reads w.bytes [payload] := by
  refine ⟨⟨⟨[], readMessage_short (by decide)⟩, ?_⟩, List.replicate (maxMessage + 1) 0, ?_⟩
  · intro h
    obtain ⟨payloads, h⟩ := h
    have hstream := written_iff.mp h
    cases payloads with
    | nil => cases hstream
    | cons payload payloads =>
      have hlen := congrArg List.length hstream
      simp only [List.flatMap_cons, frame, List.length_append, length_leBytes, List.length_cons, List.length_nil] at hlen
      omega
  · refine ⟨_, writeMessages_newSink _ [], ?_⟩
    intro h
    have hmax := (reads_iff.mp h).1 _ List.mem_cons_self
    rw [List.length_replicate] at hmax
    omega

end Framing
end AlefsDb
