import AlefsDb.Lemmas.Dispatch

/-!
# What a response tells

While no file operation fails, a batch leads to what its requests lead to one after the other, and answers the first error among
theirs with nothing changed (`batch_sequential`). A response that is not an error comes from an update that has succeeded or from a
request that only reads, and an error leaves the database as it was, unless it is that of an import (`error_changes_nothing`).
-/

namespace AlefsDb
namespace Daemon

open Database

variable (std : StdText)

/-- Requests, one after the other, up to the first whose answer is an error: this error, if there is one. -/
def dispatchEach (uptimeSec : UInt64) : List Request → DaemonM (Option String)
  | [] => return none
  | request :: requests => do
    let response ← dispatchWithStats std uptimeSec request
    match response with
    | .err m => return some m
    | _ => dispatchEach uptimeSec requests

/-- What a batch leads to, beside what its requests lead to one after the other. -/
structure BatchSequential (uptimeSec : UInt64) (ops : List Request) (s : Daemon) : Prop where
  /-- A request that is refused is that of the answer, and the batch does nothing. -/
  refused : ∀ e, ops.mapM (requestToTxn std) = .error e → ∃ m s', e = .err m ∧
    dispatchWithStats std uptimeSec (.batch ops) s = .ok (.err m) s' ∧ s'.disk.storage.database = s.disk.storage.database
  /-- Where the requests succeed one after the other, the batch does, and leads to the same database. -/
  succeeds : ∀ txn s₁, ops.mapM (requestToTxn std) = .ok txn → dispatchEach std uptimeSec ops s = .ok none s₁ →
    ∃ s', dispatchWithStats std uptimeSec (.batch ops) s = .ok (.ok ("ok batch " ++ lengthText txn.length)) s' ∧
      s'.disk.storage.database = s₁.disk.storage.database
  /-- Where one of them fails, the answer is its error, and the batch does nothing. -/
  fails : ∀ txn m s₁, ops.mapM (requestToTxn std) = .ok txn → dispatchEach std uptimeSec ops s = .ok (some m) s₁ →
    ∃ s', dispatchWithStats std uptimeSec (.batch ops) s = .ok (.err m) s' ∧
      s'.disk.storage.database = s.disk.storage.database
  /-- Where the thread ends at one of them, it ends at the batch, which does nothing. -/
  crashes : ∀ txn c s₁, ops.mapM (requestToTxn std) = .ok txn → dispatchEach std uptimeSec ops s = .error c s₁ →
    ∃ s', dispatchWithStats std uptimeSec (.batch ops) s = .error c s' ∧
      s'.disk.storage.database = s.disk.storage.database

variable {std}

/-- A request that is an operation of a transaction is an update. -/
theorem toUpdate_of_txn {request : Request} {op : TxnOp} (h : requestToTxn std request = .ok op) :
    toUpdate std request = some (.ok (.call op)) := by
  cases request with
  | ping | stats | get path | ls path | query query | compact | «export» | «import» json | batch ops => cases h
  | mkdir path | set path ty value | rm path | hset path key ty value | lpush path ty value | sadd path ty value
    | tset path key ty value => simp only [toUpdate, h, Rust.ok_bind, Rust.pure_eq_ok]

/-- Requests for calls, one after the other, lead to what the calls lead to. -/
theorem dispatchEach_eq (uptimeSec : UInt64) {ops : List Request} {txn : List TxnOp} (h : ops.mapM (requestToTxn std) = .ok txn)
    {s : Daemon} (hfree : s.poisoned = false) (hscript : s.disk.script = []) :
    ∃ s₁ : Daemon, s₁.disk.storage.database = left (callAll txn s.disk.storage.database) ∧
      dispatchEach std uptimeSec ops s =
        match failure (callAll txn s.disk.storage.database) with
        | none => .ok none s₁
        | some (.err e) => .ok (some e.text) s₁
        | some _ => .error .panicked s₁ := by
  induction ops generalizing txn s with
  | nil =>
    cases h
    exact ⟨s, rfl, rfl⟩
  | cons request ops ih =>
    rw [List.mapM_cons] at h
    obtain ⟨op, hop, h⟩ := Rust.bind_eq_ok.mp h
    obtain ⟨txn', htxn, h⟩ := Rust.bind_eq_ok.mp h
    cases h
    obtain ⟨disk, hdb, hscript', hdispatch⟩ := dispatch_update hfree hscript uptimeSec (toUpdate_of_txn hop)
    change disk.storage.database = left (Database.call op s.disk.storage.database) at hdb
    change _ = match failure (Database.call op s.disk.storage.database) with
      | none => _
      | some (.err e) => _
      | some _ => _ at hdispatch
    cases hcall : Database.call op s.disk.storage.database with
    | ok _ db₁ =>
      rw [hcall] at hdb hdispatch
      have hall : callAll (op :: txn') s.disk.storage.database = callAll txn' disk.storage.database := by
        rw [hdb]
        exact bind_of_ok hcall _
      rw [hall]
      obtain ⟨s₁, hs₁, heach⟩ := ih htxn (s := s.counted request disk false) rfl hscript'
      exact ⟨s₁, hs₁, (bind_of_ok hdispatch _).trans heach⟩
    | error e db₁ =>
      rw [hcall] at hdb hdispatch
      have hall : callAll (op :: txn') s.disk.storage.database = .error e db₁ := bind_of_error hcall _
      rw [hall]
      cases e with
      | err e => exact ⟨s.counted request disk false, hdb, bind_of_ok hdispatch _⟩
      | panic => exact ⟨s.counted request disk true, hdb, bind_of_error hdispatch _⟩
      | outOfFuel => exact ⟨s.counted request disk true, hdb, bind_of_error hdispatch _⟩

/-- A batch is its requests, one after the other, or nothing. While no file operation fails: where a request of the batch is not
allowed or its arguments are refused, the batch answers with this error; where its requests all succeed one after the other, it
succeeds and leads to the same database; where one of them fails, it answers with the error of the first that does. In both cases of
an error the database is as before. -/
theorem batch_sequential {s : Daemon} (hfree : s.poisoned = false) (hscript : s.disk.script = [])
    (hupdated : Updated s.disk.storage.database) (uptimeSec : UInt64) (ops : List Request) :
    BatchSequential std uptimeSec ops s := by
  rcases Rust.mapM_returns (fun op (_ : op ∈ ops) => requestToTxn_returns std op) with ⟨txn, htxn⟩ | ⟨m, hm⟩
  · have hupdate : toUpdate std (.batch ops) = some (.ok (.applyTxn txn)) := by
      rw [toUpdate, htxn]
      rfl
    obtain ⟨G, next, hstores⟩ := hupdated.sound
    obtain ⟨disk, hdb, -, hdispatch⟩ := dispatch_update hfree hscript uptimeSec hupdate
    obtain ⟨s₀, hs₀, heach⟩ := dispatchEach_eq uptimeSec htxn hfree hscript
    change disk.storage.database = left (applyTxn txn s.disk.storage.database) at hdb
    change _ = match failure (applyTxn txn s.disk.storage.database) with
      | none => _
      | some (.err e) => _
      | some _ => _ at hdispatch
    rw [applyTxn_eq hstores] at hdb hdispatch
    cases hall : callAll txn s.disk.storage.database with
    | ok _ db' =>
      rw [hall] at hdb hdispatch hs₀ heach
      refine ⟨by rw [htxn]; nofun, ?_, by rw [heach]; nofun, by rw [heach]; nofun⟩
      intro txn' s₁ htxn' hs₁
      cases htxn.symm.trans htxn'
      cases heach.symm.trans hs₁
      exact ⟨_, hdispatch, hdb.trans hs₀.symm⟩
    | error e db' =>
      rw [hall] at hdb hdispatch heach
      cases e with
      | err e =>
        refine ⟨by rw [htxn]; nofun, by rw [heach]; nofun, ?_, by rw [heach]; nofun⟩
        intro txn' m s₁ _ hs₁
        cases heach.symm.trans hs₁
        exact ⟨_, hdispatch, hdb⟩
      | panic | outOfFuel =>
        refine ⟨by rw [htxn]; nofun, by rw [heach]; nofun, by rw [heach]; nofun, ?_⟩
        intro txn' c s₁ _ hs₁
        cases heach.symm.trans hs₁
        exact ⟨_, hdispatch, hdb⟩
  · have hupdate : toUpdate std (.batch ops) = some (Rust.err m) := by
      rw [toUpdate, hm]
      rfl
    refine ⟨?_, by rw [hm]; nofun, by rw [hm]; nofun, by rw [hm]; nofun⟩
    rintro e he
    cases hm.symm.trans he
    exact ⟨m, _, rfl, dispatch_refused hfree uptimeSec hupdate, rfl⟩

/-- Texts that name nothing. -/
def noText : StdText := { float := fun _ => [], request := fun _ => "", token := fun _ => "" }

/-- A daemon on a new database. -/
def newDaemon : Daemon :=
  { disk := { storage := { map := opened.store.map, walBytes := 0, autoCompactThreshold := 8 * 1024 * 1024 }
              files := { wal := some [], checkpoint := none, tmp := none }
              script := [] }
    poisoned := false
    stats := { requests := 0, mutations := 0, queries := 0, errors := 0 } }

/-- A daemon on a database. -/
def onDatabase (db : Database) : Daemon :=
  { newDaemon with disk := { newDaemon.disk with storage := { newDaemon.disk.storage with map := db.store.map } } }

/-- A batch that sets a value in a directory that it has made, and one that goes on to remove a directory that is not empty. -/
theorem batch_sequential_mkdir :
    BatchSequential noText 0 [.mkdir "/a", .set "/a/x" "int" "9"] newDaemon ∧
    BatchSequential noText 0 [.mkdir "/a", .set "/a/x" "int" "9", .rm "/a"] newDaemon :=
  ⟨batch_sequential (s := newDaemon) rfl rfl updated_opened 0 _, batch_sequential (s := newDaemon) rfl rfl updated_opened 0 _⟩

/-! ## Errors -/

/-- Only an import asks for an import. -/
theorem toUpdate_importJson {request : Request} {json : String} (h : toUpdate std request = some (.ok (.importJson json))) :
    request = .import json := by
  have hcall : ∀ {r : Rust String TxnOp}, some (r >>= fun op => (.ok (Update.call op) : Rust String Update)) ≠
      some (.ok (.importJson json)) := by
    intro r hr
    obtain ⟨op, -, hop⟩ := Rust.bind_eq_ok.mp (Option.some.inj hr)
    cases hop
  cases request with
  | ping | stats | get path | ls path | query query | compact | «export» => cases h
  | «import» json' =>
    cases h
    rfl
  | batch ops =>
    obtain ⟨txn, -, htxn⟩ := Rust.bind_eq_ok.mp (Option.some.inj h)
    cases htxn
  | mkdir path | set path ty value | rm path | hset path key ty value | lpush path ty value | sadd path ty value
    | tset path key ty value => exact absurd h hcall

/-- The daemon has not answered with success: with an error, or not at all. -/
def Failed : EStateM.Result Crash Daemon Response → Prop
  | .ok response _ => response.isErr
  | .error _ _ => True

instance (r : EStateM.Result Crash Daemon Response) : Decidable (Failed r) :=
  match r with
  | .ok response _ => inferInstanceAs (Decidable (response.isErr = true))
  | .error _ _ => isTrue trivial

/-- The daemon that a request leaves. -/
def leftBy : EStateM.Result Crash Daemon Response → Daemon
  | .ok _ s => s
  | .error _ s => s

/-- While no file operation fails, a request that is not answered with success has changed nothing, unless it is an import: the
database is as before, to each row. -/
theorem error_changes_nothing {s : Daemon} (hfree : s.poisoned = false) (hscript : s.disk.script = [])
    (hupdated : Updated s.disk.storage.database) (uptimeSec : UInt64) {request : Request} (himport : ∀ json, request ≠ .import json)
    (hfailed : Failed (dispatchWithStats std uptimeSec request s)) :
    (leftBy (dispatchWithStats std uptimeSec request s)).disk.storage.database = s.disk.storage.database := by
  cases hupdate : toUpdate std request with
  | none =>
    obtain ⟨disk, -, hdb, ⟨response, hdispatch⟩ | hdispatch⟩ := dispatch_cases hfree hscript uptimeSec request
    · rw [hdispatch]
      exact hdb.trans (by rw [afterRequest, hupdate])
    · rw [hdispatch]
      exact hdb.trans (by rw [afterRequest, hupdate])
  | some conversion =>
    rcases toUpdate_returns std hupdate with ⟨u, rfl⟩ | ⟨m, rfl⟩
    · obtain ⟨disk, hdb, -, hdispatch⟩ := dispatch_update hfree hscript uptimeSec hupdate
      have hu : ∀ json, u ≠ .importJson json := by
        rintro json rfl
        exact himport json (toUpdate_importJson hupdate)
      rw [hdispatch] at hfailed ⊢
      cases hfailure : failure (u.run s.disk.storage.database) with
      | none =>
        rw [hfailure] at hfailed
        cases hfailed
      | some e =>
        rw [hupdated.sound.left_of_failure hu hfailure] at hdb
        cases e with
        | err e => exact hdb
        | panic => exact hdb
        | outOfFuel => exact hdb
    · rw [dispatch_refused hfree uptimeSec hupdate]
      rfl

/-- A value is set below a directory that is missing. -/
theorem error_changes_nothing_set :
    (leftBy (dispatchWithStats noText 0 (.set "/a/x" "int" "9") newDaemon)).disk.storage.database = opened :=
  error_changes_nothing (s := newDaemon) rfl rfl updated_opened 0 (fun _ => nofun) (by decide +kernel)

end Daemon
end AlefsDb
