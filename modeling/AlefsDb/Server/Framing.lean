import AlefsDb.Lib.Rust

/-!
# Message framing

A message on a stream is the length of its payload in four bytes, little-endian, and the payload. `write_message` puts one on a
writer, whose calls may fail, and `read_message` takes one from the bytes that are left of a stream.
-/

namespace AlefsDb

/-- `ServeError`. -/
inductive ServeError where
  | io (message : String)
  | internal (message : String)
  deriving DecidableEq, Repr

/-- `std::io::ErrorKind`, as far as it is looked at. -/
inductive IoErrorKind where
  | unexpectedEof
  | other
  deriving DecidableEq, Repr

/-- `std::io::Error`. -/
structure IoError where
  kind : IoErrorKind
  message : String
  deriving DecidableEq, Repr

/-- `ServeError::from(std::io::Error)`. -/
def ServeError.ofIo (e : IoError) : ServeError := .io e.message

/-- `?` on the result of a call of `std::io`. -/
def ServeError.tryIo {α : Type} : Except IoError α → Rust ServeError α
  | .ok a => .ok a
  | .error e => Rust.err (ofIo e)

/-- A writer: the bytes it has taken, and how its calls to come turn out. When that runs out, every further call succeeds. -/
structure Sink where
  bytes : Bytes
  faults : List (Option IoError)
  deriving DecidableEq, Repr

namespace Framing

/-- A writer that has taken nothing yet and never fails. -/
def newSink : Sink := { bytes := [], faults := [] }

/-! ## Writing -/

/-- One call on a writer, which takes the bytes when it succeeds. -/
def writerCall (data : Bytes) (w : Sink) : Except IoError Sink :=
  match w.faults with
  | [] => .ok { w with bytes := w.bytes ++ data }
  | none :: faults => .ok { bytes := w.bytes ++ data, faults := faults }
  | some e :: _ => .error e

/-- `write_all`. -/
def writeAll (data : Bytes) (w : Sink) : Except IoError Sink := writerCall data w

/-- `flush`. -/
def flush (w : Sink) : Except IoError Sink := writerCall [] w

/-- `write_message`; the length is cast to the 32 bits it is written in. -/
def writeMessage (payload : Bytes) (w : Sink) : Rust ServeError Sink := do
  let len := leBytes 4 payload.length
  let w ← ServeError.tryIo (writeAll len w)
  let w ← ServeError.tryIo (writeAll payload w)
  ServeError.tryIo (flush w)

/-- One message after the other. -/
def writeMessages : List Bytes → Sink → Rust ServeError Sink
  | [], w => .ok w
  | payload :: payloads, w => writeMessage payload w >>= writeMessages payloads

/-! ## Reading -/

/-- `read_exact` on the bytes left of a stream. -/
def readExact (n : Nat) (stream : Bytes) : Except IoError (Bytes × Bytes) :=
  if stream.length < n then .error ⟨.unexpectedEof, "failed to fill whole buffer"⟩ else .ok (stream.take n, stream.drop n)

/-- The longest payload that is read. -/
def maxMessage : Nat := 64 * 1024 * 1024

/-- `read_message`: the payload of the next message, if there is one, and the bytes left behind it. -/
def readMessage (stream : Bytes) : Rust ServeError (Option Bytes × Bytes) :=
  match readExact 4 stream with
  | .ok (lenBuf, stream) => do
    let len := fromLe lenBuf
    if maxMessage < len then
      Rust.err (.internal "message too large")
    else
      let (buf, stream) ← ServeError.tryIo (readExact len stream)
      return (some buf, stream)
  | .error e =>
    -- what was left of the stream has been read
    if e.kind = .unexpectedEof then .ok (none, []) else Rust.err (.ofIo e)

/-- Repeated calls of `read_message` return these payloads, and then `Ok(None)`. -/
def Reads : Bytes → List Bytes → Prop
  | stream, [] => ∃ stream', readMessage stream = .ok (none, stream')
  | stream, payload :: payloads => ∃ stream', readMessage stream = .ok (some payload, stream') ∧ Reads stream' payloads

/-- Repeated calls of `read_message` return these payloads, and then an error. -/
def ReadsThenFails : Bytes → List Bytes → Prop
  | stream, [] => ∃ e, readMessage stream = Rust.err e
  | stream, payload :: payloads => ∃ stream', readMessage stream = .ok (some payload, stream') ∧ ReadsThenFails stream' payloads

/-! ## Frames -/

/-- The bytes of one message. -/
def frame (payload : Bytes) : Bytes := leBytes 4 payload.length ++ payload

/-- A call on a writer that succeeds has taken its bytes. -/
theorem writerCall_eq_ok {data : Bytes} {w w' : Sink} (h : writerCall data w = .ok w') : w'.bytes = w.bytes ++ data := by
  unfold writerCall at h
  split at h
  · cases h
    rfl
  · cases h
    rfl
  · cases h

theorem tryIo_eq_ok {α : Type} {x : Except IoError α} {a : α} (h : ServeError.tryIo x = .ok a) : x = .ok a := by
  cases x with
  | ok b => exact congrArg Except.ok (Except.ok.inj h)
  | error e => exact absurd h (Rust.err_ne_ok _ _)

theorem tryIo_returns {α : Type} (x : Except IoError α) : Rust.Returns (ServeError.tryIo x) := by
  cases x with
  | ok a => exact Rust.returns_ok a
  | error e => exact Rust.returns_err _

/-- A message that has been written is a frame behind what was there. -/
theorem writeMessage_eq_ok {payload : Bytes} {w w' : Sink} (h : writeMessage payload w = .ok w') :
    w'.bytes = w.bytes ++ frame payload := by
  obtain ⟨w₁, h₁, h⟩ := Rust.bind_eq_ok.mp h
  obtain ⟨w₂, h₂, h⟩ := Rust.bind_eq_ok.mp h
  rw [writerCall_eq_ok (tryIo_eq_ok h), writerCall_eq_ok (tryIo_eq_ok h₂), writerCall_eq_ok (tryIo_eq_ok h₁), frame]
  simp

/-- Messages that are written one after the other are their frames. -/
theorem writeMessages_eq_ok {payloads : List Bytes} {w w' : Sink} (h : writeMessages payloads w = .ok w') :
    w'.bytes = w.bytes ++ payloads.flatMap frame := by
  induction payloads generalizing w with
  | nil =>
    cases h
    simp
  | cons payload payloads ih =>
    obtain ⟨w₁, h₁, h⟩ := Rust.bind_eq_ok.mp h
    rw [ih h, writeMessage_eq_ok h₁, List.flatMap_cons, List.append_assoc]

/-- A writer that never fails takes all messages. -/
theorem writeMessages_newSink (payloads : List Bytes) (taken : Bytes) :
    writeMessages payloads { bytes := taken, faults := [] } =
      .ok { bytes := taken ++ payloads.flatMap frame, faults := [] } := by
  induction payloads generalizing taken with
  | nil => simp [writeMessages]
  | cons payload payloads ih =>
    have h : writeMessage payload { bytes := taken, faults := [] } =
        .ok { bytes := taken ++ frame payload, faults := [] } := by
      simp [writeMessage, writeAll, flush, writerCall, frame, ServeError.tryIo]
    rw [writeMessages, h, Rust.ok_bind, ih, List.flatMap_cons, List.append_assoc]

/-- On less than a length the stream is taken to be at its end. -/
theorem readMessage_short {stream : Bytes} (h : stream.length < 4) : readMessage stream = .ok (none, []) := by
  rw [readMessage, readExact, if_pos h]
  exact if_pos rfl

/-- As many bytes as are asked for are read. -/
theorem readExact_append {n : Nat} {a : Bytes} (rest : Bytes) (h : a.length = n) : readExact n (a ++ rest) = .ok (a, rest) := by
  subst h
  have hlen : ¬(a ++ rest).length < a.length := by simp
  rw [readExact, if_neg hlen, List.take_left, List.drop_left]

/-- A message of a length that is not too large, with all of its payload, is read. -/
theorem readMessage_frame {payload : Bytes} (rest : Bytes) (h : payload.length ≤ maxMessage) :
    readMessage (frame payload ++ rest) = .ok (some payload, rest) := by
  have hlt : payload.length < 256 ^ 4 := by
    unfold maxMessage at h
    omega
  rw [frame, List.append_assoc, readMessage, readExact_append _ (length_leBytes 4 _)]
  dsimp only
  rw [fromLe_leBytes_of_lt hlt, if_neg (Nat.not_lt_of_le h), readExact_append _ rfl]
  rfl

/-- What a call of `read_message` that returns says about the stream: it is at its end, or has less than a length left, or begins
with the frame of the payload. -/
theorem readMessage_eq_ok {stream : Bytes} {r : Option Bytes × Bytes} (h : readMessage stream = .ok r) :
    r = (none, []) ∧ stream.length < 4 ∨
      ∃ payload, r.1 = some payload ∧ payload.length ≤ maxMessage ∧ stream = frame payload ++ r.2 := by
  by_cases hshort : stream.length < 4
  · rw [readMessage_short hshort] at h
    cases h
    exact Or.inl ⟨rfl, hshort⟩
  · right
    rw [readMessage, readExact, if_neg hshort] at h
    dsimp only at h
    split at h
    · exact absurd h (Rust.err_ne_ok _ _)
    · rename_i hmax
      obtain ⟨⟨buf, rest⟩, hbuf, h⟩ := Rust.bind_eq_ok.mp h
      cases h
      have hbuf := tryIo_eq_ok hbuf
      unfold readExact at hbuf
      split at hbuf
      · cases hbuf
      · cases hbuf
        have hle := leBytes_fromLe (stream.take 4)
        rw [List.length_take, Nat.min_eq_left (by omega)] at hle
        have hlen : ((stream.drop 4).take (fromLe (stream.take 4))).length = fromLe (stream.take 4) := by
          rw [List.length_take]
          omega
        refine ⟨_, rfl, by rw [hlen]; omega, ?_⟩
        rw [frame, hlen, hle, List.append_assoc, List.take_append_drop, List.take_append_drop]

/-- A call of `read_message` returns. -/
theorem readMessage_returns (stream : Bytes) : Rust.Returns (readMessage stream) := by
  by_cases hshort : stream.length < 4
  · rw [readMessage_short hshort]
    exact Rust.returns_ok _
  · rw [readMessage, readExact, if_neg hshort]
    dsimp only
    split
    · exact Rust.returns_err _
    · exact (tryIo_returns _).bind (fun _ _ => Rust.returns_ok _)

end Framing
end AlefsDb
