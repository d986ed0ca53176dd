import AlefsDb.Lib.Runs
import AlefsDb.Server.Dispatch
import AlefsDb.Server.Framing

/-!
# Connections

`handle_connection`: the daemon has a thread for each connection, which reads a message, counts and answers its request, and writes
the response. The threads share the database and the counters, and take their steps in any order. What `serde_json` reads and writes
is a parameter.
-/

namespace AlefsDb

/-- `serde_json` on the messages, at both ends of a connection. -/
structure Serde where
  parseRequest : Bytes → Except String Request
  requestBytes : Request → Bytes
  parseResponse : Bytes → Except String Response
  responseBytes : Response → Bytes

/-- Whether `read_message` returns without waiting for more of the stream. -/
def Framing.ready (stream : Bytes) : Bool :=
  match readExact 4 stream with
  | .error _ => false
  | .ok (lenBuf, stream) => maxMessage < fromLe lenBuf || fromLe lenBuf ≤ stream.length

/-- Where the thread of a connection is. -/
inductive ThreadPhase where
  /-- At `read_message`. -/
  | reading
  /-- A message has been read. -/
  | received (payload : Bytes)
  /-- It is a request, which has been counted as one. -/
  | requested (request : Request)
  /-- The request has been counted by its kind. -/
  | counted (request : Request)
  /-- There is a response. -/
  | answered (response : Response)
  /-- The response has been counted, where it is an error. -/
  | replying (response : Response)
  /-- The thread has ended, perhaps in a panic or with the process. -/
  | ended (crash : Option Crash)

/-- A connection: what its client has sent, what of it the thread has not read yet, whether the client sends no more, what the
thread has replied, and where it is; and the messages that have been read and the responses that there have been. -/
structure Connection where
  sent : Bytes
  unread : Bytes
  closed : Bool
  replied : Bytes
  phase : ThreadPhase
  payloads : List Bytes
  responses : List Response

/-- A request that has been answered on a connection, or at which its thread has ended. -/
structure Served where
  connection : Nat
  request : Request
  outcome : Except Crash Response

/-- The daemon and its connections, and the requests in the order in which they have been answered. -/
structure Server where
  daemon : Daemon
  down : Bool
  connections : List Connection
  served : List Served

namespace Daemon

/-- `stats.requests.fetch_add(1)`. -/
def countRequest (s : Daemon) : Daemon := { s with stats := { s.stats with requests := s.stats.requests + 1 } }

/-- `stats.errors.fetch_add(1)`. -/
def countError (s : Daemon) : Daemon := { s with stats := { s.stats with errors := s.stats.errors + 1 } }

end Daemon

namespace Connection

/-- A connection that has been accepted. -/
def accepted : Connection :=
  { sent := [], unread := [], closed := false, replied := [], phase := .reading, payloads := [], responses := [] }

/-- The response to a message that is no request. -/
def badRequest (e : String) : Response := .err ("bad request: " ++ e)

/-- The thread has a response. -/
def answer (c : Connection) (response : Response) (phase : ThreadPhase) : Connection :=
  { c with phase := phase, responses := c.responses ++ [response] }

end Connection

namespace Server

section

variable (std : StdText) (serde : Serde)

/-- A daemon that has no connections yet. -/
def start (daemon : Daemon) : Server := { daemon := daemon, down := false, connections := [], served := [] }

/-- A connection changes. -/
def setConnection (s : Server) (i : Nat) (c : Connection) : Server := { s with connections := s.connections.set i c }

/-- The next step of the thread of a connection. -/
def threadStep (s : Server) (i : Nat) (c : Connection) (uptimeSec : UInt64) : Option Server :=
  match c.phase with
  | .reading =>
    if c.closed || Framing.ready c.unread then
      match Framing.readMessage c.unread with
      | .ok (some payload, unread) =>
        some (s.setConnection i { c with unread := unread, phase := .received payload, payloads := c.payloads ++ [payload] })
      | .ok (none, unread) => some (s.setConnection i { c with unread := unread, phase := .ended none })
      | .error _ => some (s.setConnection i { c with phase := .ended none })
    else
      none
  | .received payload =>
    match serde.parseRequest payload with
    | .ok request => some { s.setConnection i { c with phase := .requested request } with daemon := s.daemon.countRequest }
    | .error e =>
      let response := Connection.badRequest e
      some { s.setConnection i (c.answer response (.replying response)) with daemon := s.daemon.countError }
  | .requested request =>
    some { s.setConnection i { c with phase := .counted request } with
      daemon := { s.daemon with stats := Daemon.countKind request s.daemon.stats } }
  | .counted request =>
    match Daemon.answer std uptimeSec request s.daemon with
    | .ok response daemon =>
      some { s.setConnection i (c.answer response (.answered response)) with
        daemon := daemon
        served := s.served ++ [⟨i, request, .ok response⟩] }
    | .error crash daemon =>
      some { s.setConnection i { c with phase := .ended (some crash) } with
        daemon := daemon
        down := crash = .killed
        served := s.served ++ [⟨i, request, .error crash⟩] }
  | .answered response =>
    some { s.setConnection i { c with phase := .replying response } with
      daemon := if response.isErr then s.daemon.countError else s.daemon }
  | .replying response =>
    match Framing.writeMessage (serde.responseBytes response) { bytes := c.replied, faults := [] } with
    | .ok w => some (s.setConnection i { c with replied := w.bytes, phase := .reading })
    | .error _ => none
  | .ended _ => none

/-- What happens next: a client connects, sends, sends no more, or goes away before it has taken the response that is written to it;
the thread of a connection takes its next step; the process exits. -/
inductive Act where
  | connect
  | send (i : Nat) (bytes : Bytes)
  | close (i : Nat)
  | hangUp (i : Nat) (taken : Nat)
  | thread (i : Nat) (uptimeSec : UInt64)
  | exit

/-- The client of a connection acts. -/
def clientStep (s : Server) (i : Nat) (f : Connection → Option Connection) : Option Server :=
  match s.connections[i]? with
  | none => none
  | some c =>
    match f c with
    | none => none
    | some c' => some (s.setConnection i c')

/-- What a client sends. -/
def sendOn (bytes : Bytes) (c : Connection) : Option Connection :=
  if c.closed then none else some { c with sent := c.sent ++ bytes, unread := c.unread ++ bytes }

/-- A write of which the client takes the first bytes only, and at which the thread ends. -/
def hangUpOn (taken : Nat) (c : Connection) : Option Connection :=
  match c.phase with
  | .replying response =>
    let message := Framing.frame (serde.responseBytes response)
    if taken < message.length then some { c with replied := c.replied ++ message.take taken, phase := .ended none } else none
  | _ => none

/-- One step. -/
def step (s : Server) : Act → Option Server
  | .connect => if s.down then none else some { s with connections := s.connections ++ [Connection.accepted] }
  | .send i bytes => s.clientStep i (sendOn bytes)
  | .close i => s.clientStep i (fun c => some { c with closed := true })
  | .hangUp i taken => if s.down then none else s.clientStep i (hangUpOn serde taken)
  | .thread i uptimeSec =>
    if s.down then
      none
    else
      match s.connections[i]? with
      | none => none
      | some c => s.threadStep std serde i c uptimeSec
  | .exit => some { s with down := true }

end

/-- The requests of a connection that have been answered, and how. -/
def servedOn (s : Server) (i : Nat) : List (Request × Except Crash Response) :=
  (s.served.filter (fun e => e.connection = i)).map (fun e => (e.request, e.outcome))

end Server
end AlefsDb
