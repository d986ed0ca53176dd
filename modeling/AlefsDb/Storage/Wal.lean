import AlefsDb.Storage.Batch

/-!
# The formats on disk

The bytes of a commit record and of a checkpoint, and the functions that read them back: `replay_wal`, which goes through a log
record by record, and `load_checkpoint`. A length is written as the low 32 bits of the length of what follows it. The readers
take arbitrary bytes; every slice they take is checked, so that one out of range would show as a panic.
-/

namespace AlefsDb
namespace Wal

/-- `MAGIC`: `b"ALEF"`. -/
def magic : Bytes := utf8 "ALEF"

def walVersion : UInt8 := 1
def recCommit : UInt8 := 1
def opPut : UInt8 := 1
def opDelete : UInt8 := 2

/-- `CHECKPOINT_MAGIC`: `b"CKPT"`. -/
def checkpointMagic : Bytes := utf8 "CKPT"

def checkpointVersion : UInt8 := 1

/-! ## Checksum -/

/-- One bit of the division: `mask = (crc & 1).wrapping_neg(); crc = (crc >> 1) ^ (0xEDB88320 & mask)`. -/
def crcBit (crc : UInt32) : UInt32 := (crc >>> 1) ^^^ (0xEDB88320 &&& -(crc &&& 1))

/-- One byte: it is xored into the register and eight bits are divided out. -/
def crcByte (crc : UInt32) (b : UInt8) : UInt32 := Nat.iterate crcBit 8 (crc ^^^ b.toUInt32)

/-- `crc32`: CRC-32 (IEEE). -/
def crc32 (data : Bytes) : UInt32 := ~~~(data.foldl crcByte 0xffffffff)

/-! ## Writing -/

/-- The bytes of one operation in a record body. -/
def encodeOp : BatchOp → Bytes
  | .put key value => [opPut] ++ leBytes 4 key.length ++ key ++ leBytes 4 value.length ++ value
  | .delete key => [opDelete] ++ leBytes 4 key.length ++ key

/-- The body of a commit record. -/
def commitBody (ops : List BatchOp) : Bytes := [recCommit] ++ leBytes 4 ops.length ++ ops.flatMap encodeOp

/-- A body between its header and its checksum: the frame that records and checkpoints share. -/
def frame (mag : Bytes) (version : UInt8) (body : Bytes) : Bytes :=
  mag ++ [version] ++ leBytes 4 body.length ++ body ++ leBytes 4 (crc32 body).toNat

/-- `encode_commit_record`. -/
def encodeCommitRecord (ops : List BatchOp) : Bytes := frame magic walVersion (commitBody ops)

/-- The bytes of one entry in a checkpoint body. -/
def encodeEntry (e : Bytes × Bytes) : Bytes := leBytes 4 e.1.length ++ e.1 ++ leBytes 4 e.2.length ++ e.2

/-- The body of a checkpoint. -/
def checkpointBody (map : Rows) (walOffset : Nat) : Bytes :=
  leBytes 8 walOffset ++ leBytes 4 map.size ++ map.entries.flatMap encodeEntry

/-- What `write_checkpoint` writes. -/
def checkpointBytes (map : Rows) (walOffset : Nat) : Bytes :=
  frame checkpointMagic checkpointVersion (checkpointBody map walOffset)

/-! ## Readers of a cursor -/

/-- `read_u8`. -/
def readU8 : Bytes → Rust StorageError (UInt8 × Bytes)
  | [] => Rust.err (.corrupt "unexpected eof")
  | b :: cur => .ok (b, cur)

/-- `read_array`. -/
def readArray (n : Nat) (cur : Bytes) : Rust StorageError (Bytes × Bytes) :=
  if cur.length < n then Rust.err (.corrupt "unexpected eof") else .ok (cur.take n, cur.drop n)

/-- `read_u32`. -/
def readU32 (cur : Bytes) : Rust StorageError (Nat × Bytes) := do
  let (a, cur) ← readArray 4 cur
  return (fromLe a, cur)

/-- `read_bytes`. -/
def readBytes (cur : Bytes) : Rust StorageError (Bytes × Bytes) := do
  let (len, cur) ← readU32 cur
  if cur.length < len then Rust.err (.corrupt "unexpected eof") else return (cur.take len, cur.drop len)

/-! ## Replay -/

/-- One operation of a record body. -/
def readOp (c : Bytes) : Rust StorageError (BatchOp × Bytes) := do
  let (tag, c) ← readU8 c
  if tag = opPut then
    let (k, c) ← readBytes c
    let (v, c) ← readBytes c
    return (.put k v, c)
  else if tag = opDelete then
    let (k, c) ← readBytes c
    return (.delete k, c)
  else
    Rust.err (.corrupt s!"unknown op tag {tag}")

/-- The loop of `apply_record_body` over the number of operations the body announces. -/
def readOps : Nat → Bytes → Rust StorageError (List BatchOp × Bytes)
  | 0, c => .ok ([], c)
  | n + 1, c => do
    let (op, c) ← readOp c
    let (ops, c) ← readOps n c
    return (op :: ops, c)

/-- `apply_record_body`. -/
def applyRecordBody (body : Bytes) (map : Rows) : Rust StorageError Rows :=
  match body with
  | [] => Rust.err (.corrupt "empty WAL body")
  | tag :: c => do
    if tag ≠ recCommit then
      Rust.err (.corrupt s!"unknown record type {tag}")
    else
      let (n, c) ← readU32 c
      let (ops, c) ← readOps n c
      if c ≠ [] then Rust.err (.corrupt "trailing bytes in WAL body") else return applyOps map ops

/-- The loop of `replay_wal`, at index `i` of the bytes read. -/
def replayLoop (start : Nat) (buf : Bytes) (i : Nat) (map : Rows) : Rust StorageError Rows :=
  if _h : i < buf.length then do
    -- truncated tail: an incomplete header is ignored
    if buf.length - i < 9 then
      return map
    let mag ← Rust.slice buf i (i + 4)
    if mag ≠ magic then
      Rust.err (.corrupt s!"bad WAL magic at offset {start + i}")
    else
      let version ← Rust.index buf (i + 4)
      if version ≠ walVersion then
        Rust.err (.corrupt s!"unsupported WAL version {version}")
      else
        let lenBytes ← Rust.slice buf (i + 5) (i + 9)
        let bodyLen := fromLe lenBytes
        let recEnd := i + 9 + bodyLen + 4
        -- incomplete record at the end: dropped
        if buf.length < recEnd then
          return map
        let body ← Rust.slice buf (i + 9) (i + 9 + bodyLen)
        let expect ← Rust.slice buf (i + 9 + bodyLen) recEnd
        -- a record that does not match its checksum ends the replay
        if (crc32 body).toNat ≠ fromLe expect then
          return map
        let map ← applyRecordBody body map
        replayLoop start buf recEnd map
  else
    return map
termination_by buf.length - i

/-- `replay_wal`, on the content of the log file. -/
def replayWal (file : Bytes) (start : Nat) (map : Rows) : Rust StorageError Rows :=
  if file.length < start then
    Rust.err (.corrupt s!"checkpoint wal offset {start} beyond file len {file.length}")
  else
    replayLoop start (file.drop start) 0 map

/-! ## Checkpoint -/

/-- The loop of `load_checkpoint` over the number of entries the body announces. -/
def readEntries : Nat → Bytes → Rows → Rust StorageError (Rows × Bytes)
  | 0, c, map => .ok (map, c)
  | n + 1, c, map => do
    let (k, c) ← readBytes c
    let (v, c) ← readBytes c
    readEntries n c (map.insert k v)

/-- `load_checkpoint`, on the content of the checkpoint file: the map and the offset into the log to replay from. -/
def loadCheckpoint (buf : Bytes) : Rust StorageError (Rows × Nat) := do
  if buf.length < 9 then
    Rust.err (.corrupt "checkpoint too short")
  else
    let mag ← Rust.slice buf 0 4
    if mag ≠ checkpointMagic then
      Rust.err (.corrupt "bad checkpoint magic")
    else
      let version ← Rust.index buf 4
      if version ≠ checkpointVersion then
        Rust.err (.corrupt s!"unsupported checkpoint version {version}")
      else
        let lenBytes ← Rust.slice buf 5 9
        let bodyLen := fromLe lenBytes
        if buf.length < 9 + bodyLen + 4 then
          Rust.err (.corrupt "checkpoint truncated")
        else
          let body ← Rust.slice buf 9 (9 + bodyLen)
          let expect ← Rust.slice buf (9 + bodyLen) (9 + bodyLen + 4)
          if (crc32 body).toNat ≠ fromLe expect then
            Rust.err (.corrupt "checkpoint checksum mismatch")
          else
            let (offset, c) ← readArray 8 body
            let (n, c) ← readU32 c
            let (map, c) ← readEntries n c OrdMap.empty
            if c ≠ [] then Rust.err (.corrupt "checkpoint trailing bytes") else return (map, fromLe offset)

end Wal
end AlefsDb
