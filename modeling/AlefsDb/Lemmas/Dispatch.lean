import AlefsDb.Lemmas.Recovery
import AlefsDb.Lemmas.Returns
import AlefsDb.Server.Dispatch

/-!
# What a request leads to

A request asks for an update, or only reads. While no file operation fails, an update under the mutex leads to what it leads to in
memory, and its error is the answer.
-/

namespace AlefsDb

open Database

namespace RequestM

variable {ε α β : Type} {text : ε → String}

@[simp] theorem lift_ok (a : α) : lift text (.ok a) = pure a := rfl

@[simp] theorem lift_bind (x : Rust ε α) (f : α → Rust ε β) :
    lift text (x >>= f) = (do
      let a ← lift text x
      lift text (f a)) := by
  cases x with
  | ok a => rfl
  | error e => rfl

end RequestM

namespace Daemon

open RequestM

variable (std : StdText)

/-- The update that a request asks for, or the error of its conversion; none where it asks for no update. -/
def toUpdate : Request → Option (Rust String Update)
  | .batch ops => some do
    let txn ← ops.mapM (requestToTxn std)
    return .applyTxn txn
  | .import json => some (.ok (.importJson json))
  | .ping | .stats | .get _ | .ls _ | .query _ | .compact | .export => none
  | request => some do
    let op ← requestToTxn std request
    return .call op

/-- The message of an update that has succeeded. -/
def okMessage : Request → Update → String
  | .batch _, .applyTxn txn => "ok batch " ++ lengthText txn.length
  | .import _, _ => "ok imported"
  | .mkdir _, .call op => "ok " ++ op.path.asStr
  | .set _ _ _, .call op => "ok " ++ op.path.asStr
  | .rm _, .call op => "ok " ++ op.path.asStr
  | _, _ => "ok"

/-- A request for an update converts its arguments, does the update and answers. -/
theorem answer_update (uptimeSec : UInt64) {request : Request} {conversion : Rust String Update}
    (h : toUpdate std request = some conversion) : answer std uptimeSec request = withDb (do
      let u ← lift id conversion
      update u
      return .ok (okMessage request u)) := by
  cases request with
  | ping | stats | get path | ls path | query query | compact | «export» => cases h
  | «import» json =>
    obtain rfl := Option.some.inj h
    simp [answer, okMessage]
  | batch ops =>
    obtain rfl := Option.some.inj h
    simp [answer, applyBatch, okMessage]
  | mkdir path | set path ty value | rm path | hset path key ty value | lpush path ty value | sadd path ty value
    | tset path key ty value =>
    obtain rfl := Option.some.inj h
    simp [answer, requestToTxn, okMessage, TxnOp.path]

/-- The conversion of the arguments of a request returns. -/
theorem parsePath_returns (path : String) : Rust.Returns (parsePath path) := (DbPath.parse_returns path).mapErr _

/-- The text of a value is read, or refused. -/
theorem parseValue_returns (ty raw : String) : Rust.Returns (parseValue ty raw) := by
  have hbool : Rust.Returns (parseBool raw) := by
    unfold parseBool
    split
    · exact Rust.returns_ok _
    split
    · exact Rust.returns_ok _
    · exact Rust.returns_err _
  unfold parseValue
  split
  · exact Rust.returns_ok _
  · exact hbool.bind (fun _ _ => Rust.returns_ok _)
  · exact (Rust.returns_okOr _ _).bind (fun _ _ => Rust.returns_ok _)
  · exact (Rust.returns_okOr _ _).bind (fun _ _ => Rust.returns_ok _)
  all_goals first | exact Rust.returns_ok _ | exact Rust.returns_err _

/-- An operation of a batch is read, or refused. -/
theorem requestToTxn_returns (request : Request) : Rust.Returns (requestToTxn std request) := by
  cases request with
  | mkdir path | rm path => exact (parsePath_returns path).bind (fun _ _ => Rust.returns_ok _)
  | set path ty value | hset path key ty value | lpush path ty value | sadd path ty value | tset path key ty value =>
    exact (parsePath_returns path).bind (fun _ _ => (parseValue_returns ty value).bind (fun _ _ => Rust.returns_ok _))
  | ping | stats | get path | ls path | query query | compact | «export» | «import» json | batch ops => exact Rust.returns_err _

/-- An update is read from a request, or refused. -/
theorem toUpdate_returns {request : Request} {conversion : Rust String Update} (h : toUpdate std request = some conversion) :
    Rust.Returns conversion := by
  cases request with
  | ping | stats | get path | ls path | query query | compact | «export» => cases h
  | «import» json =>
    obtain rfl := Option.some.inj h
    exact Rust.returns_ok _
  | batch ops =>
    obtain rfl := Option.some.inj h
    exact (Rust.mapM_returns (fun op _ => requestToTxn_returns std op)).bind (fun _ _ => Rust.returns_ok _)
  | mkdir path | set path ty value | rm path | hset path key ty value | lpush path ty value | sadd path ty value
    | tset path key ty value =>
    obtain rfl := Option.some.inj h
    exact (requestToTxn_returns std _).bind (fun _ _ => Rust.returns_ok _)

variable {std}

/-- A request for an update whose arguments are refused. -/
theorem answer_refused {s : Daemon} (hfree : s.poisoned = false) (uptimeSec : UInt64) {request : Request} {m : String}
    (h : toUpdate std request = some (Rust.err m)) : answer std uptimeSec request s = .ok (.err m) s := by
  obtain ⟨disk, poisoned, stats⟩ := s
  obtain rfl : poisoned = false := hfree
  rw [answer_update std uptimeSec h]
  simp only [withDb, Bool.false_eq_true, if_false]
  rfl

/-- A request for an update, while no file operation fails. -/
theorem answer_updates {s : Daemon} (hfree : s.poisoned = false) (hscript : s.disk.script = []) (uptimeSec : UInt64)
    {request : Request} {u : Update} (h : toUpdate std request = some (.ok u)) :
    ∃ disk : Disk, disk.storage.database = left (u.run s.disk.storage.database) ∧ disk.script = [] ∧
      answer std uptimeSec request s =
        match failure (u.run s.disk.storage.database) with
        | none => .ok (.ok (okMessage request u)) { s with disk := disk, poisoned := false }
        | some (.err e) => .ok (.err e.text) { s with disk := disk, poisoned := false }
        | some _ => .error .panicked { s with disk := disk, poisoned := true } := by
  obtain ⟨⟨h', files, script⟩, poisoned, stats⟩ := s
  obtain rfl : script = [] := hscript
  obtain rfl : poisoned = false := hfree
  obtain ⟨h₁, files₁, hdb, hcommits⟩ := commitAll_eq u.writes (h := h') files
  refine ⟨⟨h₁, files₁, []⟩, by rw [hdb, Update.run_eq], rfl, ?_⟩
  rw [answer_update std uptimeSec h, Update.run_eq]
  dsimp only
  cases hfailure : failure (writeAll u.writes h'.database) with
  | none =>
    have hupdate : update u ⟨h', files, []⟩ = .ok () ⟨h₁, files₁, []⟩ := by
      unfold update
      rw [hcommits, hfailure]
    have hrun : (do
        let u ← lift id (.ok u)
        update u
        return .ok (okMessage request u) : RequestM Response) ⟨h', files, []⟩ =
        .ok (.ok (okMessage request u)) ⟨h₁, files₁, []⟩ := bind_of_ok hupdate _
    simp only [withDb, hrun, Bool.false_eq_true, if_false]
  | some e =>
    have hupdate : update u ⟨h', files, []⟩ = .error (stopOf NsError.text e) ⟨h₁, files₁, []⟩ := by
      unfold update
      rw [hcommits, hfailure]
      cases e <;> rfl
    have hrun : (do
        let u ← lift id (.ok u)
        update u
        return .ok (okMessage request u) : RequestM Response) ⟨h', files, []⟩ =
        .error (stopOf NsError.text e) ⟨h₁, files₁, []⟩ := bind_of_error hupdate _
    simp only [withDb, hrun, Bool.false_eq_true, if_false]
    cases e <;> rfl

/-! ## Requests that only read -/

/-- What is done under the mutex is a function of the database, which it leaves as it was. -/
def ReadsAs {α : Type} (f : RequestM α) (X : Database → Rust String α) : Prop := ∀ d, f d = lift id (X d.storage.database) d

theorem readsAs_pure {α : Type} (a : α) : ReadsAs (pure a) (fun _ => .ok a) := fun _ => rfl

theorem readsAs_lift {ε α : Type} (text : ε → String) (x : Rust ε α) : ReadsAs (lift text x) (fun _ => Rust.mapErr text x) := by
  intro d
  match x with
  | .ok a => rfl
  | .error (.err e) => rfl
  | .error .panic => rfl
  | .error .outOfFuel => rfl

theorem readsAs_read {α : Type} (method : Database → Rust NsError α) :
    ReadsAs (RequestM.read method) (fun db => Rust.mapErr NsError.text (method db)) :=
  fun d => readsAs_lift NsError.text (method d.storage.database) d

/-- What is read from what has been read is a function of the database. -/
theorem ReadsAs.bind {α β : Type} {f : RequestM α} {g : α → RequestM β} {X : Database → Rust String α}
    {Y : α → Database → Rust String β} (hf : ReadsAs f X) (hg : ∀ a, ReadsAs (g a) (Y a)) :
    ReadsAs (f >>= g) (fun db => X db >>= fun a => Y a db) := by
  intro d
  have hfd := hf d
  dsimp only
  cases hX : X d.storage.database with
  | ok a =>
    rw [hX] at hfd
    exact (bind_of_ok hfd g).trans (hg a d)
  | error e =>
    rw [hX] at hfd
    exact bind_of_error hfd g

/-- The response with the hits of a query. -/
def hitsResponse (hits : List QueryHit) : Response := .query (hits.map (fun h => { path := h.path.asStr, typeName := h.typeName }))

/-- A query is a function of the database. -/
theorem readsAs_query (query : String) : ReadsAs (do
    let d ← MonadState.get
    let hits ← lift (EvalError.text std) (Query.execute d.storage.database query)
    return hitsResponse hits) (fun db =>
      Rust.mapErr (EvalError.text std) (Query.execute db query) >>= fun hits => .ok (hitsResponse hits)) := by
  intro d
  have hexecute := readsAs_lift (EvalError.text std) (Query.execute d.storage.database query)
  exact (hexecute.bind fun hits => readsAs_pure (hitsResponse hits)) d

/-- What a request reads, where it only reads the database. -/
def reading (std : StdText) : Request → Option (Database → Rust String Response)
  | .get path => some fun db => do
    let p ← parsePath path
    let e ← Rust.mapErr NsError.text (db.get p)
    Rust.mapErr NsError.text (showEntry std p e)
  | .ls path => some fun db => do
    let p ← parsePath path
    let children ← Rust.mapErr NsError.text (db.list p)
    return .list (children.map showChild)
  | .query query => some fun db => do
    let hits ← Rust.mapErr (EvalError.text std) (Query.execute db query)
    return hitsResponse hits
  | .export => some fun db => do
    let json ← Rust.mapErr NsError.text (Json.exportJson std.float db)
    return .export json
  | _ => none

/-- The answer of a thread that has read under the mutex. -/
def readAnswer (s : Daemon) : Rust String Response → EStateM.Result Crash Daemon Response
  | .ok response => .ok response s
  | .error (.err m) => .ok (.err m) s
  | .error _ => .error .panicked { s with poisoned := true }

/-- A request that only reads is answered with what it reads. -/
theorem withDb_readsAs {f : RequestM Response} {X : Database → Rust String Response} (hf : ReadsAs f X) {s : Daemon}
    (hfree : s.poisoned = false) : withDb f s = readAnswer s (X s.disk.storage.database) := by
  obtain ⟨disk, poisoned, stats⟩ := s
  obtain rfl : poisoned = false := hfree
  have hfd := hf disk
  cases hX : X disk.storage.database with
  | ok r =>
    rw [hX] at hfd
    simp [withDb, hfd, lift, readAnswer]
  | error e =>
    rw [hX] at hfd
    cases e <;> simp [withDb, hfd, lift, readAnswer, stopOf]

theorem mapErr_id {α : Type} (x : Rust String α) : Rust.mapErr id x = x :=
  match x with
  | .ok _ => rfl
  | .error (.err _) => rfl
  | .error .panic => rfl
  | .error .outOfFuel => rfl

/-- A request that only reads the database. -/
theorem answer_reading {s : Daemon} (hfree : s.poisoned = false) (uptimeSec : UInt64) {request : Request}
    {X : Database → Rust String Response} (h : reading std request = some X) :
    answer std uptimeSec request s = readAnswer s (X s.disk.storage.database) := by
  cases request with
  | ping | stats | compact | batch ops | «import» json | mkdir path | set path ty value | rm path | hset path key ty value
    | lpush path ty value | sadd path ty value | tset path key ty value => cases h
  | get path =>
    obtain rfl := Option.some.inj h
    have hf := (readsAs_lift id (parsePath path)).bind fun p =>
      (readsAs_read fun db => db.get p).bind fun e => readsAs_lift NsError.text (showEntry std p e)
    simp only [mapErr_id] at hf
    exact withDb_readsAs hf hfree
  | ls path =>
    obtain rfl := Option.some.inj h
    have hf := (readsAs_lift id (parsePath path)).bind fun p =>
      (readsAs_read fun db => db.list p).bind fun children => readsAs_pure (Response.list (children.map showChild))
    simp only [mapErr_id] at hf
    exact withDb_readsAs hf hfree
  | query query =>
    obtain rfl := Option.some.inj h
    exact withDb_readsAs (readsAs_query query) hfree
  | «export» =>
    obtain rfl := Option.some.inj h
    exact withDb_readsAs ((readsAs_read (Json.exportJson std.float)).bind fun json => readsAs_pure (Response.export json)) hfree

/-- A request is for an update, whose arguments may be refused, or it only reads, or it is one of three others. -/
theorem request_cases (std : StdText) (request : Request) :
    (∃ u, toUpdate std request = some (.ok u)) ∨ (∃ m, toUpdate std request = some (Rust.err m)) ∨
      (toUpdate std request = none ∧ ∃ X, reading std request = some X) ∨
      request = .ping ∨ request = .stats ∨ request = .compact := by
  cases hupdate : toUpdate std request with
  | some conversion =>
    rcases toUpdate_returns std hupdate with ⟨u, rfl⟩ | ⟨m, rfl⟩
    · exact Or.inl ⟨u, rfl⟩
    · exact Or.inr (Or.inl ⟨m, rfl⟩)
  | none =>
    refine Or.inr (Or.inr ?_)
    cases request with
    | batch ops | «import» json | mkdir path | set path ty value | rm path | hset path key ty value | lpush path ty value
      | sadd path ty value | tset path key ty value => cases hupdate
    | get path | ls path | query query | «export» => exact Or.inl ⟨rfl, _, rfl⟩
    | ping => exact Or.inr (Or.inl rfl)
    | stats => exact Or.inr (Or.inr (Or.inl rfl))
    | compact => exact Or.inr (Or.inr (Or.inr rfl))

/-- A request that only reads is answered, or makes its thread panic. -/
theorem readAnswer_cases (s : Daemon) (x : Rust String Response) :
    (∃ response, readAnswer s x = .ok response s) ∨ readAnswer s x = .error .panicked { s with poisoned := true } :=
  match x with
  | .ok response => Or.inl ⟨response, rfl⟩
  | .error (.err m) => Or.inl ⟨.err m, rfl⟩
  | .error .panic => Or.inr rfl
  | .error .outOfFuel => Or.inr rfl

/-- A compaction under the mutex, while no file operation fails. -/
theorem compact_eq (h : WalStorage) (files : Files) :
    ∃ h' files', h'.database = h.database ∧ RequestM.compact ⟨h, files, []⟩ = .ok () ⟨h', files', []⟩ := by
  obtain ⟨_, ⟨h', files', script⟩, hcompact, hscript⟩ := WalStorage.fileOps_compact.done ⟨h, files, []⟩ (by simp)
  obtain rfl : script = [] := hscript
  have hmap := ((WalStorage.compact_triple h.map files.wal files.checkpoint).of_ok ⟨rfl, rfl, rfl⟩ hcompact).1
  refine ⟨h', files', congrArg (fun map => Database.mk ⟨map⟩) hmap, ?_⟩
  unfold RequestM.compact
  rw [hcompact]

/-- A request for a compaction, while no file operation fails. -/
theorem answer_compact {s : Daemon} (hfree : s.poisoned = false) (hscript : s.disk.script = []) (uptimeSec : UInt64) :
    ∃ disk : Disk, disk.storage.database = s.disk.storage.database ∧ disk.script = [] ∧
      answer std uptimeSec .compact s = .ok (.ok "ok compacted") { s with disk := disk, poisoned := false } := by
  obtain ⟨⟨h, files, script⟩, poisoned, stats⟩ := s
  obtain rfl : script = [] := hscript
  obtain rfl : poisoned = false := hfree
  obtain ⟨h', files', hdb, hcompact⟩ := compact_eq h files
  refine ⟨⟨h', files', []⟩, hdb, rfl, ?_⟩
  have hrun : (do
      RequestM.compact
      return .ok "ok compacted" : RequestM Response) ⟨h, files, []⟩ = .ok (.ok "ok compacted") ⟨h', files', []⟩ :=
    bind_of_ok hcompact _
  simp only [answer, withDb, hrun, Bool.false_eq_true, if_false]

/-- The database that a request leads to. -/
def afterRequest (std : StdText) (request : Request) (db : Database) : Database :=
  match toUpdate std request with
  | some (.ok u) => left (u.run db)
  | _ => db

/-- What any request leads to, while no file operation fails: it is answered, or its thread panics and poisons the mutex. -/
theorem answer_cases {s : Daemon} (hfree : s.poisoned = false) (hscript : s.disk.script = []) (uptimeSec : UInt64)
    (request : Request) : ∃ disk : Disk, disk.script = [] ∧ disk.storage.database = afterRequest std request s.disk.storage.database ∧
      ((∃ response, answer std uptimeSec request s = .ok response { s with disk := disk, poisoned := false }) ∨
        answer std uptimeSec request s = .error .panicked { s with disk := disk, poisoned := true }) := by
  have hsame : s = { s with disk := s.disk, poisoned := false } := by rw [← hfree]
  rcases request_cases std request with ⟨u, hupdate⟩ | ⟨m, hupdate⟩ | ⟨hupdate, X, hreading⟩ | rfl | rfl | rfl
  · obtain ⟨disk, hdb, hscript', hanswer⟩ := answer_updates hfree hscript uptimeSec hupdate
    refine ⟨disk, hscript', by rw [afterRequest, hupdate]; exact hdb, ?_⟩
    rw [hanswer]
    cases failure (u.run s.disk.storage.database) with
    | none => exact Or.inl ⟨_, rfl⟩
    | some e =>
      cases e with
      | err e => exact Or.inl ⟨_, rfl⟩
      | panic => exact Or.inr rfl
      | outOfFuel => exact Or.inr rfl
  · refine ⟨s.disk, hscript, by rw [afterRequest, hupdate]; rfl, Or.inl ⟨.err m, ?_⟩⟩
    rw [answer_refused hfree uptimeSec hupdate, ← hsame]
  · refine ⟨s.disk, hscript, by rw [afterRequest, hupdate], ?_⟩
    rw [answer_reading hfree uptimeSec hreading, ← hsame]
    exact readAnswer_cases s _
  · exact ⟨s.disk, hscript, rfl, Or.inl ⟨_, by rw [← hsame]; rfl⟩⟩
  · exact ⟨s.disk, hscript, rfl, Or.inl ⟨_, by rw [← hsame]; rfl⟩⟩
  · obtain ⟨disk, hdb, hscript', hanswer⟩ := answer_compact hfree hscript uptimeSec
    exact ⟨disk, hscript', hdb, Or.inl ⟨_, hanswer⟩⟩

/-! ## A request that has been counted -/

/-- The daemon after a request, whatever its answer. -/
def counted (s : Daemon) (request : Request) (disk : Disk) (poisoned : Bool) : Daemon :=
  { disk := disk, poisoned := poisoned, stats := countKind request s.stats }

/-- A request that is refused is answered with the error, and the directory stays as it is. -/
theorem dispatch_refused {s : Daemon} (hfree : s.poisoned = false) (uptimeSec : UInt64) {request : Request} {m : String}
    (h : toUpdate std request = some (Rust.err m)) :
    dispatchWithStats std uptimeSec request s = .ok (.err m) (s.counted request s.disk false) := by
  rw [counted, ← hfree]
  exact answer_refused (s := { s with stats := countKind request s.stats }) hfree uptimeSec h

/-- An update leads to the database that it leads to in memory. -/
theorem dispatch_update {s : Daemon} (hfree : s.poisoned = false) (hscript : s.disk.script = []) (uptimeSec : UInt64)
    {request : Request} {u : Update} (h : toUpdate std request = some (.ok u)) :
    ∃ disk : Disk, disk.storage.database = left (u.run s.disk.storage.database) ∧ disk.script = [] ∧
      dispatchWithStats std uptimeSec request s =
        match failure (u.run s.disk.storage.database) with
        | none => .ok (.ok (okMessage request u)) (s.counted request disk false)
        | some (.err e) => .ok (.err e.text) (s.counted request disk false)
        | some _ => .error .panicked (s.counted request disk true) :=
  answer_updates (s := { s with stats := countKind request s.stats }) hfree hscript uptimeSec h

/-- Every request leads to the database that it leads to in memory, and is answered unless its thread panics. -/
theorem dispatch_cases {s : Daemon} (hfree : s.poisoned = false) (hscript : s.disk.script = []) (uptimeSec : UInt64)
    (request : Request) : ∃ disk : Disk, disk.script = [] ∧ disk.storage.database = afterRequest std request s.disk.storage.database ∧
      ((∃ response, dispatchWithStats std uptimeSec request s = .ok response (s.counted request disk false)) ∨
        dispatchWithStats std uptimeSec request s = .error .panicked (s.counted request disk true)) :=
  answer_cases (s := { s with stats := countKind request s.stats }) hfree hscript uptimeSec request

end Daemon
end AlefsDb
