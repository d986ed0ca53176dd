import AlefsDb.Fuse.Calls
import AlefsDb.Lemmas.Reached
import AlefsDb.Lib.FileContent

/-!
# When writes through the mount keep the content of a file

A write goes into a buffer, and a flush replaces the content of the entry by the buffer. But the buffer starts empty after every
flush, and not from what is stored: so the stored content is the one that the writes make of the file exactly where the writes
between the last two flushes rewrite all of it, and no buffer is too long for the encoding.
-/

namespace AlefsDb
namespace Fuse

/-! ## What the file should hold -/

/-- The write of a callback; `flush` and `fsync` have none. -/
def FileCall.asWrite : FileCall → Option Write
  | write offset data => some { offset := offset.toNatClampNeg, data := data }
  | flush => none
  | fsync => none

/-- The positions that a write is on are those of a file: not negative, and below `2 ^ 63`. -/
def FileCall.InFile : FileCall → Prop
  | write offset data => 0 ≤ offset ∧ offset.toNatClampNeg + data.length < 2 ^ 63
  | _ => True

/-- A file: what is stored of it, and what those who write to it see. -/
structure FileState where
  stored : Bytes
  seen : Bytes

/-- A write changes what is seen, and a flush stores that. -/
def FileState.step (f : FileState) (c : FileCall) : FileState :=
  match c.asWrite with
  | some w => { f with seen := Write.apply f.seen w }
  | none => { f with stored := f.seen }

/-- What the callbacks should leave stored. -/
def committed (initial : Bytes) (calls : List FileCall) : Bytes :=
  (calls.foldl FileState.step { stored := initial, seen := initial }).stored

/-- The writes between two flushes, where there are some; `pending` are those since the last one. -/
def batches (pending : List Write) : List FileCall → List (List Write)
  | [] => []
  | c :: calls =>
    match c.asWrite with
    | some w => batches (pending ++ [w]) calls
    | none => if pending = [] then batches [] calls else pending :: batches [] calls

/-- Each buffer that is flushed fits the encoding, and the last one rewrites the content that the file has by then. -/
def KeepsContent (initial : Bytes) (calls : List FileCall) : Prop :=
  (∀ ws ∈ batches [] calls, Write.reach ws < 2 ^ 32) ∧
    ∀ earlier last, batches [] calls = earlier ++ [last] → Write.Rewrites (earlier.foldl Write.applyAll initial) last

theorem applyAll_snoc (content : Bytes) (ws : List Write) (w : Write) :
    Write.applyAll content (ws ++ [w]) = Write.apply (Write.applyAll content ws) w :=
  List.foldl_concat ..

/-- What should be stored is the content with all flushed writes. -/
theorem foldl_step_stored (calls : List FileCall) (content : Bytes) (pending : List Write) :
    (calls.foldl FileState.step { stored := content, seen := Write.applyAll content pending }).stored =
      (batches pending calls).foldl Write.applyAll content := by
  induction calls generalizing content pending with
  | nil => rfl
  | cons c calls ih =>
    rw [List.foldl_cons, FileState.step, batches]
    cases c.asWrite with
    | some w =>
      dsimp only
      rw [← applyAll_snoc, ih]
    | none =>
      have hnext := ih (Write.applyAll content pending) []
      dsimp only
      split
      · rename_i hpending
        subst hpending
        exact hnext
      · exact hnext

/-- What is committed is each batch of writes over the one before. -/
theorem committed_eq (initial : Bytes) (calls : List FileCall) :
    committed initial calls = (batches [] calls).foldl Write.applyAll initial :=
  foldl_step_stored calls initial []

/-! ## What the code stores -/

/-- The buffer after a write is the buffer with the write applied. -/
theorem copyFromSlice_eq (buf data : Bytes) (start : Nat) :
    copyFromSlice (resize buf (start + data.length)) start data = Write.apply buf { offset := start, data := data } := by
  have hstop : Write.stop { offset := start, data := data } = start + data.length := rfl
  have hresized : (resize buf (start + data.length)).length = max buf.length (start + data.length) := by
    rw [resize, List.length_append, List.length_replicate]
    omega
  have hbyte : ∀ i, (resize buf (start + data.length)).getD i 0 = buf.getD i 0 := by
    intro i
    rw [resize]
    by_cases hi : i < buf.length
    · rw [List.getD_append _ _ _ _ hi]
    · rw [List.getD_append_right _ _ _ _ (Nat.le_of_not_lt hi), List.getD_eq_default _ _ (Nat.le_of_not_lt hi)]
      simp
  have hlength : (copyFromSlice (resize buf (start + data.length)) start data).length =
      (Write.apply buf { offset := start, data := data }).length := by
    rw [copyFromSlice, List.length_append, List.length_append, List.length_take, List.length_drop, hresized, Write.length_apply,
      hstop]
    omega
  refine List.ext_getElem hlength (fun i h₁ h₂ => ?_)
  rw [← List.getD_eq_getElem _ 0 h₁, ← List.getD_eq_getElem _ 0 h₂, Write.getD_apply, copyFromSlice]
  have htake : ((resize buf (start + data.length)).take start).length = start := by
    rw [List.length_take, hresized]
    omega
  by_cases hbefore : i < start
  · rw [if_neg (fun h => Nat.not_lt.mpr h.1 hbefore), List.append_assoc, List.getD_append _ _ _ _ (by omega), ← hbyte]
    simp [hbefore]
  · by_cases hinside : i < start + data.length
    · rw [if_pos ⟨Nat.le_of_not_lt hbefore, hinside⟩, List.append_assoc, List.getD_append_right _ _ _ _ (by omega), htake,
        List.getD_append _ _ _ _ (by omega)]
    · rw [if_neg (fun h => hinside h.2), List.getD_append_right _ _ _ _ (by rw [List.length_append]; omega), List.length_append,
        htake, ← hbyte]
      have hbehind : start + data.length + (i - (start + data.length)) = i := by omega
      simp [List.getElem?_drop, hbehind]

/-- Bytes that the encoding has no room for the length of are not read back: the bytes behind the cut length are left over. -/
theorem decodeNode_long {b : Bytes} (h : ¬b.length < 2 ^ 32) :
    Database.decodeNode (Codec.encode (.scalar (.bytes b))) = Rust.err (.codec CodecError.trailingBytes.text) := by
  have hcut : Codec.writeU32 b.length = Codec.writeU32 (b.length % 2 ^ 32) := by
    have h := leBytes_fromLe (leBytes 4 b.length)
    rw [length_leBytes, fromLe_leBytes] at h
    exact h.symm
  have hfits : b.length % 2 ^ 32 < 2 ^ 32 := Nat.mod_lt _ (by decide)
  have hslice : Codec.readSlice b (b.length % 2 ^ 32) = .ok (b.take (b.length % 2 ^ 32), b.drop (b.length % 2 ^ 32)) := by
    rw [Codec.readSlice, if_neg (Nat.not_lt.mpr (Nat.mod_le _ _))]
  have hread : Codec.decodeValue (Codec.encodeValue (.scalar (.bytes b))).length (Codec.encodeValue (.scalar (.bytes b))) =
      .ok (.scalar (.bytes (b.take (b.length % 2 ^ 32))), b.drop (b.length % 2 ^ 32)) := by
    rw [Codec.encodeValue, Codec.encodeScalar, List.length_cons, Codec.decodeValue_bytes, hcut, Codec.readU32_append _ hfits,
      Rust.ok_bind]
    dsimp only
    rw [hslice]
    rfl
  have hrest : b.drop (b.length % 2 ^ 32) ≠ [] := by
    rw [Ne, List.drop_eq_nil_iff]
    omega
  have hversion : ¬Codec.codecVersion ≠ Codec.codecVersion := not_not_intro rfl
  rw [Database.decodeNode, Codec.encode, Codec.decode, if_neg hversion, hread, Rust.ok_bind]
  dsimp only
  rw [if_pos hrest, Rust.mapErr_err]

/-- Bytes whose length fits are read back from their row. -/
theorem decodeNode_bytes {b : Bytes} (h : b.length < 2 ^ 32) :
    Database.decodeNode (Codec.encode (.scalar (.bytes b))) = .ok (.scalar (.bytes b)) := by
  have hsmall : (Value.scalar (.bytes b)).LengthsFit := h
  rw [Database.decodeNode, Codec.decode_encode (Value.everywhere_scalar trivial) (Value.everywhere_scalar hsmall), Value.canon,
    Rust.mapErr_ok]

/-- The entry at a path holds a value that is read as the given outcome says. -/
def Reads (db : Database) (path : DbPath) (outcome : Rust NsError Value) : Prop :=
  ∃ G next id v, Stores db.store.map G next ∧ G path.segments = some (id, .value v) ∧
    Database.decodeNode (Codec.encode v) = outcome

/-- What `get` gives for a value. -/
theorem Reads.get {db : Database} {path : DbPath} {outcome : Rust NsError Value} (h : Reads db path outcome) :
    db.get path = outcome >>= fun value => .ok { path := path, kind := .value, value := some value } := by
  obtain ⟨G, next, id, v, hstores, hG, hread⟩ := h
  rw [Database.get_eq hstores, hG, ← hread]
  rfl

/-- The parent of an entry with a value is a directory. -/
theorem Reads.parent {db : Database} {path : DbPath} {outcome : Rust NsError Value} (h : Reads db path outcome) :
    ∃ parent name entry, path.parent = some parent ∧ path.segments.getLast? = some name ∧ db.get parent = .ok entry ∧
      entry.value = none := by
  obtain ⟨G, next, id, v, hstores, hG, -⟩ := h
  have hroot : path.segments ≠ [] := by
    intro hnil
    rw [hnil, hstores.wf.root] at hG
    cases hG
  obtain ⟨parent, name, hparent, hname, hsegments⟩ := DbPath.split hroot
  rw [hsegments] at hG
  obtain ⟨j, hj⟩ := hstores.wf.parent hG
  refine ⟨parent, name, { path := parent, kind := .directory, value := none }, hparent, hname, ?_, rfl⟩
  rw [Database.get_eq hstores, hj]
  rfl

/-- Setting an entry whose value is read. -/
theorem Reads.set {db : Database} {path : DbPath} {old : Value} (h : Reads db path (.ok old)) (v : Value) :
    ∃ db', Database.set path v db = .ok () db' ∧ Reads db' path (Database.decodeNode (Codec.encode v)) := by
  obtain ⟨G, next, id, w, hstores, hG, hread⟩ := h
  have hroot : path.segments ≠ [] := by
    intro hnil
    rw [hnil, hstores.wf.root] at hG
    cases hG
  obtain ⟨parent, name, hparent, hname, hsegments⟩ := DbPath.split hroot
  obtain ⟨j, hj⟩ := hstores.wf.parent (hsegments ▸ hG)
  have hplan : G.planSet next path v = .ok (.replace path.segments id w v) := by
    rw [Graph.planSet, hparent, hname]
    simp only [Graph.parentId, hj, Rust.ok_bind, hG, hread]
    rfl
  refine ⟨db.after next (.replace path.segments id w v), ?_, G.replace path.segments id v, next, id, v, ?_, ?_, rfl⟩
  · rw [Database.set_eq hstores, hplan]
    rfl
  · exact hstores.change (c := .replace path.segments id w v) hG
  · exact Graph.replace_eq_some.mpr (Or.inl ⟨rfl, rfl⟩)

/-- A commit of pending bytes replaces what is stored by them. -/
theorem commitDirty_bytes {fs : AlefsFs} {ino : UInt64} {text : String} {path : DbPath} {old data : Bytes}
    (htext : fs.pathForIno ino = some text) (hpath : DbPath.parse text = .ok path) (hdirty : fs.dirty ino = some data)
    (h : Reads fs.db path (.ok (.scalar (.bytes old)))) :
    ∃ db, commitDirty ino fs = .ok () { fs.withDirty ino none with db := db } ∧
      Reads db path (Database.decodeNode (Codec.encode (.scalar (.bytes data)))) := by
  obtain ⟨db, hset, hreads⟩ := h.set (.scalar (.bytes data))
  have htarget : commitTarget path data (fs.withDirty ino none) = .ok (path, .scalar (.bytes data)) (fs.withDirty ino none) :=
    commitTarget_of_scalar h.get rfl rfl
  refine ⟨db, ?_, hreads⟩
  rw [commitDirty_of_some hdirty htext hpath]
  exact (bind_of_ok htarget _).trans (setOrReply_of_ok hset)

/-- A commit leaves an entry that cannot be read as it is. -/
theorem commitDirty_unreadable {fs : AlefsFs} {ino : UInt64} {text : String} {path : DbPath} {data : Bytes} {e : NsError}
    (htext : fs.pathForIno ino = some text) (hpath : DbPath.parse text = .ok path) (hdirty : fs.dirty ino = some data)
    (h : Reads fs.db path (Rust.err e)) : commitDirty ino fs = .error (.err .enoent) (fs.withDirty ino none) := by
  obtain ⟨parent, name, entry, hparent, hname, hget, hvalue⟩ := h.parent
  have htarget : commitTarget path data (fs.withDirty ino none) = .error (.err .enoent) (fs.withDirty ino none) := by
    have hentry : getEntry path (fs.withDirty ino none) = .ok (.error e) (fs.withDirty ino none) := getEntry_of_err h.get
    have habove : valueAt parent (fs.withDirty ino none) = .ok entry.value (fs.withDirty ino none) := valueAt_of_ok hget
    unfold commitTarget
    refine (bind_of_ok hentry _).trans ((bind_of_ok (orReply_of_some hparent _) _).trans ?_)
    refine (bind_of_ok (orReply_of_some hname _) _).trans ((bind_of_ok habove _).trans ?_)
    rw [hvalue]
    rfl
  rw [commitDirty_of_some hdirty htext hpath]
  exact bind_of_error htarget _

/-! ## Runs -/

/-- The buffer of the writes since the last flush. -/
def buffer (ws : List Write) : Option Bytes := if ws = [] then none else some (Write.applyAll [] ws)

@[simp] theorem buffer_nil : buffer [] = none := rfl

theorem getD_buffer (ws : List Write) : (buffer ws).getD [] = Write.applyAll [] ws := by
  unfold buffer
  split
  · rename_i h
    subst h
    rfl
  · rfl

/-- One more write is applied to the buffer. -/
theorem buffer_snoc (ws : List Write) (w : Write) : buffer (ws ++ [w]) = some (Write.apply ((buffer ws).getD []) w) := by
  rw [getD_buffer, ← applyAll_snoc, buffer, if_neg (by simp)]

/-- A call that is no write commits the buffer. -/
theorem run_of_flush {c : FileCall} (hc : c.asWrite = none) (ino : UInt64) : c.run ino = commitDirty ino := by
  cases c with
  | write offset data => cases hc
  | flush => rfl
  | fsync => rfl

/-- An inode of an entry with a value: the writes to it since the last flush, and what is read of the value. -/
structure Tracks (fs : AlefsFs) (ino : UInt64) (path : DbPath) (pending : List Write) (outcome : Rust NsError Value) : Prop where
  named : ∃ text, fs.pathForIno ino = some text ∧ DbPath.parse text = .ok path
  pending : fs.dirty ino = buffer pending
  reads : Reads fs.db path outcome

section Runs

variable {fs : AlefsFs} {ino : UInt64} {path : DbPath} {pending : List Write} {stored : Bytes} {outcome : Rust NsError Value}
  {c : FileCall} {calls : List FileCall}

/-- A write changes nothing but the buffer. -/
theorem Tracks.write (h : Tracks fs ino path pending outcome) {w : Write} (hw : c.asWrite = some w) (hc : c.InFile) :
    Tracks (AlefsFs.left (c.run ino fs)) ino path (pending ++ [w]) outcome := by
  cases c with
  | write offset data =>
    cases hw
    have hoffset : offset.toUInt64.toNat = offset.toNatClampNeg := Int64.toNat_toUInt64_of_le hc.1
    have hfits : offset.toUInt64.toNat + data.length < 2 ^ 63 := by
      rw [hoffset]
      exact hc.2
    have hrun : AlefsFs.left ((FileCall.write offset data).run ino fs) = fs.withDirty ino _ :=
      congrArg AlefsFs.left (bind_of_ok (write_eq hfits) _)
    rw [hrun]
    refine ⟨h.named, ?_, h.reads⟩
    rw [AlefsFs.withDirty_dirty_self, copyFromSlice_eq, hoffset, h.pending, buffer_snoc]
  | flush => cases hw
  | fsync => cases hw

/-- A flush with nothing to flush. -/
theorem Tracks.flush_nil (h : Tracks fs ino path [] outcome) (hc : c.asWrite = none) :
    Tracks (AlefsFs.left (c.run ino fs)) ino path [] outcome := by
  have hrun : AlefsFs.left (c.run ino fs) = fs := by
    rw [run_of_flush hc, commitDirty_of_none h.pending]
    rfl
  rw [hrun]
  exact h

/-- A flush replaces what is stored by the buffer, which may be too long to be read again. -/
theorem Tracks.flush (h : Tracks fs ino path pending (.ok (.scalar (.bytes stored)))) (hpending : pending ≠ [])
    (hc : c.asWrite = none) :
    Tracks (AlefsFs.left (c.run ino fs)) ino path []
      (Database.decodeNode (Codec.encode (.scalar (.bytes (Write.applyAll [] pending))))) := by
  obtain ⟨text, htext, hpath⟩ := h.named
  have hdirty : fs.dirty ino = some (Write.applyAll [] pending) := by rw [h.pending, buffer, if_neg hpending]
  obtain ⟨db, hcommit, hreads⟩ := commitDirty_bytes htext hpath hdirty h.reads
  have hrun : AlefsFs.left (c.run ino fs) = { fs.withDirty ino none with db := db } := by
    rw [run_of_flush hc, hcommit]
    rfl
  rw [hrun]
  exact ⟨⟨text, htext, hpath⟩, AlefsFs.withDirty_dirty_self fs ino none, hreads⟩

/-- A flush leaves an entry that cannot be read as it is. -/
theorem Tracks.flush_unreadable {e : NsError} (h : Tracks fs ino path pending (Rust.err e)) (hpending : pending ≠ [])
    (hc : c.asWrite = none) : Tracks (AlefsFs.left (c.run ino fs)) ino path [] (Rust.err e) := by
  obtain ⟨text, htext, hpath⟩ := h.named
  have hdirty : fs.dirty ino = some (Write.applyAll [] pending) := by rw [h.pending, buffer, if_neg hpending]
  have hrun : AlefsFs.left (c.run ino fs) = fs.withDirty ino none := by
    rw [run_of_flush hc, commitDirty_unreadable htext hpath hdirty h.reads]
    rfl
  rw [hrun]
  exact ⟨⟨text, htext, hpath⟩, AlefsFs.withDirty_dirty_self fs ino none, h.reads⟩

/-- An entry that cannot be read stays so. -/
theorem after_unreadable {e : NsError} (hcalls : ∀ c ∈ calls, c.InFile) (h : Tracks fs ino path pending (Rust.err e)) :
    Reads (fs.after ino calls).db path (Rust.err e) := by
  induction calls generalizing fs pending with
  | nil => exact h.reads
  | cons c calls ih =>
    have hinside := fun c' hc' => hcalls c' (List.mem_cons_of_mem _ hc')
    cases hc : c.asWrite with
    | some w => exact ih hinside (h.write hc (hcalls c List.mem_cons_self))
    | none =>
      by_cases hpending : pending = []
      · subst hpending
        exact ih hinside (h.flush_nil hc)
      · exact ih hinside (h.flush_unreadable hpending hc)

/-- A buffer is as long as its writes reach. -/
theorem length_applyAll_nil (ws : List Write) : (Write.applyAll [] ws).length = Write.reach ws := by
  rw [Write.length_applyAll, List.length_nil, Nat.zero_max]

/-- While each buffer fits the encoding, the last one that was flushed is what is stored. -/
theorem after_fitting (hcalls : ∀ c ∈ calls, c.InFile) (h : Tracks fs ino path pending (.ok (.scalar (.bytes stored))))
    (hfits : ∀ ws ∈ batches pending calls, Write.reach ws < 2 ^ 32) :
    Reads (fs.after ino calls).db path
      (.ok (.scalar (.bytes ((batches pending calls).foldl (fun _ ws => Write.applyAll [] ws) stored)))) := by
  induction calls generalizing fs pending stored with
  | nil => exact h.reads
  | cons c calls ih =>
    have hinside := fun c' hc' => hcalls c' (List.mem_cons_of_mem _ hc')
    rw [batches] at hfits ⊢
    cases hc : c.asWrite with
    | some w =>
      rw [hc] at hfits
      exact ih hinside (h.write hc (hcalls c List.mem_cons_self)) hfits
    | none =>
      rw [hc] at hfits
      dsimp only at hfits ⊢
      by_cases hpending : pending = []
      · subst hpending
        exact ih hinside (h.flush_nil hc) hfits
      · rw [if_neg hpending] at hfits ⊢
        have hnext := h.flush hpending hc
        have hlength : Write.reach pending < 2 ^ 32 := hfits _ List.mem_cons_self
        rw [decodeNode_bytes (length_applyAll_nil pending ▸ hlength)] at hnext
        exact ih hinside hnext (fun ws hws => hfits ws (List.mem_cons_of_mem _ hws))

/-- A buffer that is too long for the encoding leaves the entry unreadable. -/
theorem after_overlong (hcalls : ∀ c ∈ calls, c.InFile) (h : Tracks fs ino path pending (.ok (.scalar (.bytes stored))))
    (hlong : ∃ ws ∈ batches pending calls, ¬Write.reach ws < 2 ^ 32) :
    ∃ e, Reads (fs.after ino calls).db path (Rust.err e) := by
  induction calls generalizing fs pending stored with
  | nil =>
    obtain ⟨ws, hws, -⟩ := hlong
    cases hws
  | cons c calls ih =>
    have hinside := fun c' hc' => hcalls c' (List.mem_cons_of_mem _ hc')
    rw [batches] at hlong
    cases hc : c.asWrite with
    | some w =>
      rw [hc] at hlong
      exact ih hinside (h.write hc (hcalls c List.mem_cons_self)) hlong
    | none =>
      rw [hc] at hlong
      dsimp only at hlong
      by_cases hpending : pending = []
      · subst hpending
        exact ih hinside (h.flush_nil hc) hlong
      · rw [if_neg hpending] at hlong
        have hnext := h.flush hpending hc
        by_cases hfits : Write.reach pending < 2 ^ 32
        · rw [decodeNode_bytes (length_applyAll_nil pending ▸ hfits)] at hnext
          obtain ⟨ws, hws, hlong⟩ := hlong
          have hlater := (List.mem_cons.mp hws).resolve_left (fun heq => hlong (heq ▸ hfits))
          exact ih hinside hnext ⟨ws, hlater, hlong⟩
        · rw [decodeNode_long (length_applyAll_nil pending ▸ hfits)] at hnext
          have hlast : Reads ((AlefsFs.left (c.run ino fs)).after ino calls).db path _ := after_unreadable hinside hnext
          exact ⟨_, hlast⟩

end Runs

/-- The content that is left of the buffers is the one that the writes should leave exactly when the last buffer rewrites it. -/
theorem last_buffer_eq_iff (initial : Bytes) (bs : List (List Write)) :
    bs.foldl (fun _ ws => Write.applyAll [] ws) initial = bs.foldl Write.applyAll initial ↔
      ∀ earlier last, bs = earlier ++ [last] → Write.Rewrites (earlier.foldl Write.applyAll initial) last := by
  rcases List.eq_nil_or_concat bs with rfl | ⟨earlier, last, hbs⟩
  · simp
  · rw [List.concat_eq_append] at hbs
    subst hbs
    rw [List.foldl_concat, List.foldl_concat, Write.applyAll_nil_eq_iff]
    constructor
    · intro h earlier' last' heq
      obtain ⟨rfl, hlast⟩ := List.append_inj' heq rfl
      cases hlast
      exact h
    · exact fun h => h earlier last rfl

/-- For an entry that holds bytes, and callbacks on its inode alone: what is stored in the end is the content that the writes up to
the last flush leave of the file, exactly when the buffers that are flushed fit the encoding and the last one rewrites the file. -/
theorem writes_keep_content_iff {guard : Command → Prop} {fs : AlefsFs} {ino : UInt64} {text : String} {path : DbPath}
    {entry : Entry} {initial : Bytes} {calls : List FileCall} (hreached : Database.Reached guard fs.db)
    (htext : fs.pathForIno ino = some text) (hpath : DbPath.parse text = .ok path) (hget : fs.db.get path = .ok entry)
    (hvalue : entry.value = some (.scalar (.bytes initial))) (hclean : fs.dirty ino = none) (hcalls : ∀ c ∈ calls, c.InFile) :
    (∃ e, (fs.after ino calls).db.get path = .ok e ∧ e.value = some (.scalar (.bytes (committed initial calls)))) ↔
      KeepsContent initial calls := by
  obtain ⟨G, next, hstores⟩ := hreached.stores
  have htracks : Tracks fs ino path [] (.ok (.scalar (.bytes initial))) := by
    refine ⟨⟨text, htext, hpath⟩, hclean, ?_⟩
    rw [Database.get_eq hstores] at hget
    cases hG : G path.segments with
    | none =>
      rw [hG] at hget
      exact absurd hget (Rust.err_ne_ok _ _)
    | some x =>
      obtain ⟨id, a⟩ := x
      rw [hG] at hget
      cases a with
      | dir =>
        cases hget
        cases hvalue
      | value v =>
        obtain ⟨w, hw, hentry⟩ := Rust.bind_eq_ok.mp hget
        cases hentry
        cases hvalue
        exact ⟨G, next, id, v, hstores, hG, hw⟩
  have hreads : ∀ {db : Database} {value : Value}, Reads db path (.ok value) →
      ((∃ e, db.get path = .ok e ∧ e.value = some (.scalar (.bytes (committed initial calls)))) ↔
        value = .scalar (.bytes (committed initial calls))) := by
    intro db value h
    rw [h.get]
    simp
  unfold KeepsContent
  by_cases hfits : ∀ ws ∈ batches [] calls, Write.reach ws < 2 ^ 32
  · rw [hreads (after_fitting hcalls htracks hfits), and_iff_right hfits, ← last_buffer_eq_iff, committed_eq, Value.scalar.injEq,
      Scalar.bytes.injEq]
  · refine iff_of_false (fun ⟨e, he, _⟩ => ?_) (fun h => hfits h.1)
    obtain ⟨error, herror⟩ := after_overlong hcalls htracks (by simpa using hfits)
    rw [herror.get] at he
    exact absurd he (by simp)

/-- A mounted database with the bytes `ab` at `/a`, after the kernel has looked the entry up. -/
def mountedBytes : AlefsFs :=
  let db := Database.left (Database.set Database.pathA (.scalar (.bytes [97, 98])) Database.opened)
  AlefsFs.left (lookup (fun _ => 0) rootIno (utf8 "a") (AlefsFs.new db))

theorem mountedBytes_reached : Database.Reached (fun _ => True) mountedBytes.db :=
  ⟨[.call (.set Database.pathA (.scalar (.bytes [97, 98])))], Run.of_runAll (fun _ _ _ => trivial) rfl⟩

theorem mountedBytes_get :
    mountedBytes.db.get Database.pathA =
      .ok { path := Database.pathA, kind := .value, value := some (.scalar (.bytes [97, 98])) } :=
  rfl

/-- The whole file is written, and flushed. -/
theorem writes_keep_content_whole : KeepsContent [97, 98] [.write 0 [120, 121], .flush] := by
  have htext : mountedBytes.pathForIno 2 = some "/a" := rfl
  have hcalls : ∀ c ∈ [FileCall.write 0 [120, 121], .flush], c.InFile := by
    intro c hc
    rcases List.mem_cons.mp hc with rfl | hc
    · exact ⟨by decide, by decide⟩
    · obtain rfl := List.mem_singleton.mp hc
      exact trivial
  exact (writes_keep_content_iff mountedBytes_reached htext (by decide +kernel) mountedBytes_get rfl rfl hcalls).mp ⟨_, rfl, rfl⟩

/-- One byte is written at the end of `ab`, and flushed: the first byte is lost. -/
theorem partial_write_loses_content :
    (Database.Reached (fun _ => True) mountedBytes.db ∧ mountedBytes.pathForIno 2 = some "/a" ∧
      DbPath.parse "/a" = .ok Database.pathA ∧
      mountedBytes.db.get Database.pathA =
        .ok { path := Database.pathA, kind := .value, value := some (.scalar (.bytes [97, 98])) } ∧
      mountedBytes.dirty 2 = none) ∧
    committed [97, 98] [.write 1 [120], .flush] = [97, 120] ∧
    ¬∃ e, (mountedBytes.after 2 [.write 1 [120], .flush]).db.get Database.pathA = .ok e ∧
      e.value = some (.scalar (.bytes (committed [97, 98] [.write 1 [120], .flush]))) := by
  refine ⟨⟨mountedBytes_reached, rfl, by decide +kernel, rfl, rfl⟩, rfl, fun ⟨e, he, hvalue⟩ => ?_⟩
  have hget : (mountedBytes.after 2 [.write 1 [120], .flush]).db.get Database.pathA =
      .ok { path := Database.pathA, kind := .value, value := some (.scalar (.bytes [0, 120])) } := rfl
  rw [hget] at he
  cases he
  exact absurd hvalue (by decide +kernel)

end Fuse
end AlefsDb
