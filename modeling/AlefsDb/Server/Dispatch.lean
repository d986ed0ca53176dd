import AlefsDb.Server.DataDir
import AlefsDb.Server.Protocol

/-!
# Answering requests

`dispatch_with_stats`: a request is counted, and answered under the mutex of the database. A thread that panics while it holds the
mutex poisons it, and does not answer.
-/

namespace AlefsDb

/-- `ServerStats`, but for the time at which the daemon was started. -/
structure ServerStats where
  requests : UInt64
  mutations : UInt64
  queries : UInt64
  errors : UInt64
  deriving DecidableEq

/-- What the threads of a daemon share: the database over its store, whether its mutex is poisoned, and the counters. -/
structure Daemon where
  disk : Disk
  poisoned : Bool
  stats : ServerStats

/-- Why a thread of the daemon ends without an answer: it panics, or the process is killed. -/
inductive Crash where
  | panicked
  | killed
  deriving DecidableEq

/-- A computation of a thread of the daemon. -/
abbrev DaemonM := EStateM Crash Daemon

/-- Why a request stops: it is answered with an error, or the thread ends. -/
inductive RequestStop where
  | message (m : String)
  | crash (c : Crash)

/-- What is done under the mutex. -/
abbrev RequestM := EStateM RequestStop Disk

namespace RequestM

/-- How a request stops at an error; a loop that has run into the bound on its iterations goes on for ever. -/
def stopOf {ε : Type} (text : ε → String) : Failure ε → RequestStop
  | .err e => .message (text e)
  | _ => .crash .panicked

/-- A result within a request, with its error as a text. -/
def lift {ε α : Type} (text : ε → String) : Rust ε α → RequestM α
  | .ok a => fun d => .ok a d
  | .error e => fun d => .error (stopOf text e) d

/-- `map_err(ns)` on a method on `&self`. -/
def read {α : Type} (method : Database → Rust NsError α) : RequestM α := fun d => lift NsError.text (method d.storage.database) d

/-- How a request stops at a method that stops. -/
def stopOfHandle : HandleStop → RequestStop
  | .refused e => stopOf NsError.text e
  | .storage (.err e) => .message (NsError.storage e.text).text
  | .storage .killed => .crash .killed

/-- `map_err(ns)` on an update. -/
def update (u : Update) : RequestM Unit := fun d =>
  match Database.commitAll u.writes d with
  | .ok () d => .ok () d
  | .error stop d => .error (stopOfHandle stop) d

/-- `d.store_mut().compact()`. -/
def compact : RequestM Unit := fun d =>
  match WalStorage.compact d with
  | .ok () d => .ok () d
  | .error (.err e) d => .error (.message e.text) d
  | .error .killed d => .error (.crash .killed) d

end RequestM

namespace Daemon

open RequestM

/-- `with_db` and `with_db_mut`. -/
def withDb (f : RequestM Response) : DaemonM Response := fun s =>
  if s.poisoned then
    .ok (.err "lock poisoned") s
  else
    match f s.disk with
    | .ok r d => .ok r { s with disk := d }
    | .error (.message m) d => .ok (.err m) { s with disk := d }
    | .error (.crash .panicked) d => .error .panicked { s with disk := d, poisoned := true }
    | .error (.crash .killed) d => .error .killed { s with disk := d }

/-- What a request is counted as, beside a request. -/
def countKind (request : Request) (stats : ServerStats) : ServerStats :=
  match request with
  | .query _ => { stats with queries := stats.queries + 1 }
  | .ping | .stats | .get _ | .ls _ | .export => stats
  | _ => { stats with mutations := stats.mutations + 1 }

section

variable (std : StdText)

/-- `request_to_txn`. -/
def requestToTxn : Request → Rust String TxnOp
  | .mkdir path => do
    let p ← parsePath path
    return .mkdir p
  | .set path ty value => do
    let p ← parsePath path
    let v ← parseValue ty value
    return .set p v
  | .rm path => do
    let p ← parsePath path
    return .delete p
  | .hset path key ty value => do
    let p ← parsePath path
    let v ← parseValue ty value
    return .hashSet p key v
  | .lpush path ty value => do
    let p ← parsePath path
    let v ← parseValue ty value
    return .listPush p v
  | .sadd path ty value => do
    let p ← parsePath path
    let v ← parseValue ty value
    return .setAdd p v
  | .tset path key ty value => do
    let p ← parsePath path
    let v ← parseValue ty value
    return .treeSet p (parseTreeKey key) v
  | other => Rust.err ("op not allowed in batch: " ++ std.request other)

/-- `apply_batch`. -/
def applyBatch (ops : List Request) : DaemonM Response := withDb do
  let txn ← lift id (ops.mapM (requestToTxn std))
  update (.applyTxn txn)
  return .ok ("ok batch " ++ lengthText txn.length)

/-- `stats_response`. -/
def statsResponse (uptimeSec : UInt64) : DaemonM Response := fun s =>
  let keysApprox := if s.poisoned then 0 else UInt64.ofNat s.disk.storage.map.size
  .ok (.stats uptimeSec s.stats.requests s.stats.mutations s.stats.queries s.stats.errors keysApprox) s

/-- What is shown of an entry. -/
def showEntry (p : DbPath) (e : Entry) : Rust NsError Response :=
  match e.kind with
  | .directory => .ok (.value "directory" p.asStr)
  | .value => do
    let v ← Rust.unwrap e.value
    return .value v.typename (formatValue std v)

/-- A row of `ls`. -/
def showChild (child : String × EntryKind) : ListEntry :=
  { name := child.1
    kind := match child.2 with
      | .directory => "dir"
      | .value => "val" }

/-- The answer to a request, when the daemon has been up for some time. -/
def answer (uptimeSec : UInt64) : Request → DaemonM Response
  | .ping => return .ok "pong"
  | .stats => statsResponse uptimeSec
  | .batch ops => applyBatch std ops
  | .mkdir path => withDb do
    let p ← lift id (parsePath path)
    update (.call (.mkdir p))
    return .ok ("ok " ++ p.asStr)
  | .set path ty value => withDb do
    let p ← lift id (parsePath path)
    let v ← lift id (parseValue ty value)
    update (.call (.set p v))
    return .ok ("ok " ++ p.asStr)
  | .get path => withDb do
    let p ← lift id (parsePath path)
    let e ← read (fun db => db.get p)
    lift NsError.text (showEntry std p e)
  | .ls path => withDb do
    let p ← lift id (parsePath path)
    let children ← read (fun db => db.list p)
    return .list (children.map showChild)
  | .rm path => withDb do
    let p ← lift id (parsePath path)
    update (.call (.delete p))
    return .ok ("ok " ++ p.asStr)
  | .hset path key ty value => withDb do
    let p ← lift id (parsePath path)
    let v ← lift id (parseValue ty value)
    update (.call (.hashSet p key v))
    return .ok "ok"
  | .lpush path ty value => withDb do
    let p ← lift id (parsePath path)
    let v ← lift id (parseValue ty value)
    update (.call (.listPush p v))
    return .ok "ok"
  | .sadd path ty value => withDb do
    let p ← lift id (parsePath path)
    let v ← lift id (parseValue ty value)
    update (.call (.setAdd p v))
    return .ok "ok"
  | .tset path key ty value => withDb do
    let p ← lift id (parsePath path)
    let v ← lift id (parseValue ty value)
    update (.call (.treeSet p (parseTreeKey key) v))
    return .ok "ok"
  | .query query => withDb do
    let d ← MonadState.get
    let hits ← lift (EvalError.text std) (Query.execute d.storage.database query)
    return .query (hits.map (fun h => { path := h.path.asStr, typeName := h.typeName }))
  | .compact => withDb do
    RequestM.compact
    return .ok "ok compacted"
  | .export => withDb do
    let json ← read (Json.exportJson std.float)
    return .export json
  | .import json => withDb do
    update (.importJson json)
    return .ok "ok imported"

/-- `dispatch_with_stats`. -/
def dispatchWithStats (uptimeSec : UInt64) (request : Request) : DaemonM Response := fun s =>
  answer std uptimeSec request { s with stats := countKind request s.stats }

end
end Daemon
end AlefsDb
