import AlefsDb.Server.Dispatch

/-!
# Requests without a daemon

Where no daemon has its socket in the directory, the command line opens the database, dispatches its request once, and drops the
database. Each request has a mutex and counters of its own.
-/

namespace AlefsDb

/-- `ServerStats::new`. -/
def ServerStats.new : ServerStats := { requests := 0, mutations := 0, queries := 0, errors := 0 }

namespace Daemon

/-- A database that has just been opened, under a new mutex and with new counters. -/
def fresh (storage : WalStorage) (files : Files) : Daemon :=
  { disk := { storage := storage, files := files, script := [] }, poisoned := false, stats := .new }

/-- `open_daemon`, once it has the lock: the daemon, where the open succeeds, and the files that are left. -/
def openDaemon (files : Files) : Option Daemon × Files :=
  match openDb files with
  | (none, files) => (none, files)
  | (some storage, files) => (some (fresh storage files), files)

variable (std : StdText)

/-- `call` without a socket: the response or how the process ends, where the open succeeds, and the files that are left. -/
def callDirect (uptimeSec : UInt64) (request : Request) (files : Files) : Option (Except Crash Response) × Files :=
  match openDb files with
  | (none, files) => (none, files)
  | (some storage, files) =>
    match dispatchWithStats std uptimeSec request (fresh storage files) with
    | .ok response s => (some (.ok response), s.disk.files)
    | .error crash s => (some (.error crash), s.disk.files)

/-- Calls one after the other, each by a process of its own. -/
def callsDirect (uptimeSec : UInt64) : List Request → Files → List (Option (Except Crash Response)) × Files
  | [], files => ([], files)
  | request :: requests, files =>
    let first := callDirect std uptimeSec request files
    let rest := callsDirect uptimeSec requests first.2
    (first.1 :: rest.1, rest.2)

end Daemon
end AlefsDb
