import AlefsDb.Lemmas.Sessions
import AlefsDb.Theorems.Dispatch

/-!
# What the clients of a daemon see

In every order of the steps of its threads, the daemon is where the answered requests lead one after the other, in an order that
only grows (`linearized`). A client that sends requests gets the responses to its own, in their order (`own_answers`), and when the
thread of its connection takes its steps it gets all of them (`answers_all`). The counters are exact, but for the steps that the
threads are in the middle of (`counters_exact`).
-/

namespace AlefsDb
namespace Server

open Framing

variable {std : StdText} {serde : Serde} {d₀ : Daemon} {s t : Server} {i : Nat} {c : Connection}

/-! ## One order for all requests -/

/-- The requests that have been answered, and how. -/
def outcomes (s : Server) : List (Request × Except Crash Response) := s.served.map (fun e => (e.request, e.outcome))

/-- In every run the daemon is where the requests lead that it has answered. -/
theorem linear_run {acts : List Act} (hrun : Run (step std serde) (fun _ _ => True) (start d₀) acts s) : s.Linear std serde d₀ :=
  hrun.invariant (start_linear d₀) (fun _ _ _ h _ ht => linear_step h ht)

/-- What has been answered stays in its place. -/
theorem served_step {a : Act} (ht : step std serde s a = some t) : s.served <+: t.served := by
  have hclient : ∀ {i : Nat} {f : Connection → Option Connection}, s.clientStep i f = some t → s.served <+: t.served := by
    intro i f ht
    unfold clientStep at ht
    split at ht
    · cases ht
    · split at ht
      · cases ht
      · cases ht
        exact List.prefix_refl _
  cases a with
  | connect =>
    simp only [step] at ht
    split at ht
    · cases ht
    · cases ht
      exact List.prefix_refl _
  | send i bytes => exact hclient ht
  | close i => exact hclient (f := fun c => some { c with closed := true }) ht
  | hangUp i taken =>
    simp only [step] at ht
    split at ht
    · cases ht
    · exact hclient ht
  | thread i uptimeSec =>
    simp only [step] at ht
    split at ht
    · cases ht
    · split at ht
      · cases ht
      · cases threadStep_steps ht with
        | answered uptimeSec hphase hanswer | crashed uptimeSec hphase hanswer => exact List.prefix_append _ _
        | received | ended | requested | refused | counted | replying | replied => exact List.prefix_refl _
  | exit =>
    cases ht
    exact List.prefix_refl _

/-- What a client sends for a request. -/
def requestFrame (serde : Serde) (r : Request) : Bytes := frame (serde.requestBytes r)

/-- What `serde_json` reads and writes, for `mkdir` of `/a`, for `ls` of the root, and for the answers to them. -/
def mkdirSerde : Serde :=
  { parseRequest := fun b =>
      if b = utf8 "\x7b\"op\":\"mkdir\",\"path\":\"/a\"\x7d" then .ok (.mkdir "/a")
      else if b = utf8 "\x7b\"op\":\"ls\",\"path\":\"/\"\x7d" then .ok (.ls "/")
      else .error "expected value at line 1 column 1"
    requestBytes := fun r =>
      match r with
      | .mkdir path => utf8 ("\x7b\"op\":\"mkdir\",\"path\":\"" ++ path ++ "\"\x7d")
      | .ls path => utf8 ("\x7b\"op\":\"ls\",\"path\":\"" ++ path ++ "\"\x7d")
      | _ => []
    parseResponse := fun b =>
      if b = utf8 "\x7b\"status\":\"ok\",\"message\":\"ok /a\"\x7d" then .ok (.ok "ok /a")
      else if b = utf8 "\x7b\"status\":\"list\",\"entries\":[\x7b\"name\":\"a\",\"kind\":\"dir\"\x7d]\x7d" then .ok (.list [⟨"a", "dir"⟩])
      else .error "expected value at line 1 column 1"
    responseBytes := fun r =>
      match r with
      | .ok m => utf8 ("\x7b\"status\":\"ok\",\"message\":\"" ++ m ++ "\"\x7d")
      | .err m => utf8 ("\x7b\"status\":\"err\",\"message\":\"" ++ m ++ "\"\x7d")
      | .list [e] =>
        utf8 ("\x7b\"status\":\"list\",\"entries\":[\x7b\"name\":\"" ++ e.name ++ "\",\"kind\":\"" ++ e.kind ++ "\"\x7d]\x7d")
      | _ => [] }

/-- A client makes `/a`, and another sends what is no request and then lists the root; their threads take turns. -/
def mkdirRun : List Act :=
  [.connect, .connect, .send 0 (requestFrame mkdirSerde (.mkdir "/a")), .send 1 (frame [120] ++ requestFrame mkdirSerde (.ls "/")),
    .thread 1 0, .thread 0 0, .thread 0 0, .thread 1 0, .thread 0 0, .thread 1 0, .thread 1 0, .thread 0 0, .thread 1 0, .thread 1 0,
    .thread 1 0, .thread 0 0, .thread 1 0, .thread 0 0, .thread 1 0]

/-- What the daemon answers in this run. -/
def mkdirOutcomes : List (Request × Except Crash Response) :=
  [(.mkdir "/a", .ok (.ok "ok /a")), (.ls "/", .ok (.list [⟨"a", "dir"⟩]))]

/-- Whether the daemon has answered so. -/
def madeAndListed (s : Server) : Bool :=
  match s.outcomes with
  | [(.mkdir made, .ok (.ok message)), (.ls listed, .ok (.list entries))] =>
    made = "/a" && message = "ok /a" && listed = "/" && entries = [⟨"a", "dir"⟩]
  | _ => false

/-- The outcomes are those that the check asks for. -/
theorem outcomes_of_madeAndListed (h : madeAndListed s = true) : s.outcomes = mkdirOutcomes := by
  unfold madeAndListed at h
  split at h
  · rename_i houtcomes
    simp only [Bool.and_eq_true, decide_eq_true_eq] at h
    obtain ⟨⟨⟨rfl, rfl⟩, rfl⟩, rfl⟩ := h
    exact houtcomes
  · cases h

/-- Whether the thread of a connection is at `read_message`. -/
def atReading (c : Connection) : Bool :=
  match c.phase with
  | .reading => true
  | _ => false

/-- The phase is the one that the check asks for. -/
theorem phase_of_atReading (h : atReading c = true) : c.phase = .reading := by
  unfold atReading at h
  split at h
  · assumption
  · cases h

/-- What the run leads to. -/
theorem mkdirRun_leads : ∃ s c, runAll (step Daemon.noText mkdirSerde) (start Daemon.newDaemon) mkdirRun = some s ∧
    s.connections[0]? = some c ∧ s.outcomes = mkdirOutcomes ∧ s.daemon.poisoned = false ∧
    c.sent = requestFrame mkdirSerde (.mkdir "/a") ∧ c.phase = .reading ∧ c.responses = [.ok "ok /a"] := by
  have h : (runAll (step Daemon.noText mkdirSerde) (start Daemon.newDaemon) mkdirRun).any (fun s =>
      madeAndListed s && !s.daemon.poisoned && s.connections[0]?.any (fun c =>
        atReading c && c.sent = requestFrame mkdirSerde (.mkdir "/a") && c.responses = [.ok "ok /a"])) = true := by decide +kernel
  obtain ⟨s, hs, h⟩ := (Option.any_eq_true _ _).mp h
  simp only [Bool.and_eq_true, Bool.not_eq_true'] at h
  obtain ⟨⟨hanswered, hfree⟩, h⟩ := h
  obtain ⟨c, hc, h⟩ := (Option.any_eq_true _ _).mp h
  simp only [Bool.and_eq_true, decide_eq_true_eq] at h
  obtain ⟨⟨hphase, hsent⟩, hresponses⟩ := h
  exact ⟨s, c, hs, hc, outcomes_of_madeAndListed hanswered, hfree, hsent, phase_of_atReading hphase, hresponses⟩

/-- In every run, in whatever order the clients and the threads take their steps, there is one order of the requests that have been
answered, such that each of them has the outcome that it has when they are dispatched one after the other, and the daemon is where
they lead, but for the counters and so for the responses with them. What has been answered before something is sent comes before it: the order only grows. On each connection the messages
that have been read are what has been sent from its beginning on, the responses are to these messages in their order, each to the
one request that it answers, and the replies are the responses in their order. While no file operation fails, and unless a thread
has panicked, the database is the one that the updates among the requests lead to in memory. -/
theorem linearized {acts : List Act} (hrun : Run (step std serde) (fun _ _ => True) (start d₀) acts s) :
    s.Linear std serde d₀ ∧
    (∀ acts' t, Run (step std serde) (fun _ _ => True) s acts' t → s.served <+: t.served) ∧
    (d₀.disk.script = [] → s.daemon.poisoned = false →
      s.daemon.disk.storage.database = Daemon.afterAll std s.outcomes d₀.disk.storage.database) := by
  have hlinear := linear_run hrun
  refine ⟨hlinear, ?_, fun hscript hfree => (hlinear.sequential.database hscript hfree).2⟩
  intro acts' t hrun'
  exact hrun'.invariant (I := fun t => s.served <+: t.served) (List.prefix_refl _)
    (fun _ _ _ h _ ht => h.trans (served_step ht))

/-- The two requests of different clients, one after the other. -/
theorem linearized_mkdir : ∃ s, runAll (step Daemon.noText mkdirSerde) (start Daemon.newDaemon) mkdirRun = some s ∧
    s.outcomes = mkdirOutcomes ∧ s.Linear Daemon.noText mkdirSerde Daemon.newDaemon ∧
    s.daemon.disk.storage.database = Daemon.afterAll Daemon.noText mkdirOutcomes Database.opened := by
  obtain ⟨s, c, hs, hc, houtcomes, hfree, -⟩ := mkdirRun_leads
  obtain ⟨hlinear, -, hdb⟩ := linearized (Run.of_runAll (fun _ _ _ => trivial) hs)
  refine ⟨s, hs, houtcomes, hlinear, ?_⟩
  rw [hdb rfl hfree, houtcomes]
  rfl

/-! ## The answers to a client -/

/-- The requests are sent in messages that are not too long, and read back. -/
def Sendable (serde : Serde) (requests : List Request) : Prop :=
  ∀ r ∈ requests, (serde.requestBytes r).length ≤ maxMessage ∧ serde.parseRequest (serde.requestBytes r) = .ok r

theorem mkdir_sendable : Sendable mkdirSerde [.mkdir "/a"] := by
  intro r hr
  obtain rfl := List.mem_singleton.mp hr
  exact ⟨by decide +kernel, rfl⟩

/-- Messages are told apart by their frames. -/
theorem frame_inj {p q x y : Bytes} (hp : p.length ≤ maxMessage) (hq : q.length ≤ maxMessage)
    (h : frame p ++ x = frame q ++ y) : p = q ∧ x = y := by
  have hread := readMessage_frame x hp
  rw [h, readMessage_frame y hq] at hread
  cases hread
  exact ⟨rfl, rfl⟩

/-- Messages that are read from the frames of requests are the first of these requests, and the frames of the others are left. -/
theorem taken_of_sent {payloads : List Bytes} (hsmall : ∀ p ∈ payloads, p.length ≤ maxMessage) {requests : List Request}
    (hsendable : Sendable serde requests) {rest : Bytes}
    (h : requests.flatMap (requestFrame serde) = payloads.flatMap frame ++ rest) :
    ∃ taken left, requests = taken ++ left ∧ payloads = taken.map serde.requestBytes ∧ rest = left.flatMap (requestFrame serde) := by
  induction payloads generalizing requests with
  | nil => exact ⟨[], requests, rfl, rfl, h.symm⟩
  | cons p payloads ih =>
    cases requests with
    | nil =>
      have hlen := congrArg List.length h
      simp only [List.flatMap_nil, List.flatMap_cons, List.length_append, frame, length_leBytes, List.length_nil] at hlen
      omega
    | cons r requests =>
      rw [List.flatMap_cons, List.flatMap_cons, List.append_assoc, requestFrame] at h
      obtain ⟨hp, h⟩ := frame_inj (hsendable r List.mem_cons_self).1 (hsmall p List.mem_cons_self) h
      obtain ⟨taken, left, hrequests, hpayloads, hrest⟩ :=
        ih (fun p hp => hsmall p (List.mem_cons_of_mem _ hp)) (fun r hr => hsendable r (List.mem_cons_of_mem _ hr)) h
      exact ⟨r :: taken, left, by rw [hrequests]; rfl, by rw [← hp, hpayloads]; rfl, hrest⟩

/-- The requests, each with the response to it. -/
def answered (requests : List Request) (responses : List Response) : List (Request × Except Crash Response) :=
  (requests.zip responses).map (fun e => (e.1, .ok e.2))

theorem answered_snoc {requests : List Request} {responses : List Response} (h : requests.length = responses.length) (r : Request)
    (response : Response) : answered (requests ++ [r]) (responses ++ [response]) = answered requests responses ++ [(r, .ok response)] := by
  simp [answered, List.zip_append h]

/-- The responses to messages that are requests. -/
theorem transcript_requests {payloads : List Bytes} {log : List (Request × Except Crash Response)} {responses : List Response}
    (h : Transcript serde payloads log responses) {requests : List Request} (hsendable : Sendable serde requests)
    (hpayloads : payloads = requests.map serde.requestBytes) :
    requests.length = responses.length ∧ log = answered requests responses := by
  induction h generalizing requests with
  | nil =>
    obtain rfl := List.map_eq_nil_iff.mp hpayloads.symm
    exact ⟨rfl, rfl⟩
  | @refused payloads log responses payload e _ hparse ih =>
    obtain ⟨requests, last, rfl, -, hlast⟩ := List.map_eq_append_iff.mp hpayloads.symm
    obtain ⟨r, rfl, rfl⟩ := List.map_eq_singleton_iff.mp hlast
    rw [(hsendable r (List.mem_append_right _ List.mem_cons_self)).2] at hparse
    cases hparse
  | @answered payloads log responses payload request response _ hparse ih =>
    obtain ⟨requests, last, rfl, hfirst, hlast⟩ := List.map_eq_append_iff.mp hpayloads.symm
    obtain ⟨r, rfl, rfl⟩ := List.map_eq_singleton_iff.mp hlast
    obtain ⟨hlen, rfl⟩ := ih (fun r hr => hsendable r (List.mem_append_left _ hr)) hfirst.symm
    rw [(hsendable r (List.mem_append_right _ List.mem_cons_self)).2] at hparse
    cases hparse
    exact ⟨by simp [hlen], (answered_snoc hlen request response).symm⟩

/-- What the connection of a client has, that is sending requests: it has read the first of them, and the others are on their way. -/
theorem read_of_sent {log : List (Request × Except Crash Response)} (h : c.Holds serde log) {requests : List Request}
    (hsendable : Sendable serde requests) {more : Bytes} (hsent : c.sent ++ more = requests.flatMap (requestFrame serde)) :
    ∃ taken left, requests = taken ++ left ∧ c.payloads = taken.map serde.requestBytes ∧
      ((∀ crash, c.phase ≠ .ended crash) → c.unread ++ more = left.flatMap (requestFrame serde)) := by
  obtain ⟨rest, hrest⟩ := h.read
  have hframes : requests.flatMap (requestFrame serde) = c.payloads.flatMap frame ++ (rest ++ more) := by
    rw [← hsent, ← hrest, List.append_assoc]
  obtain ⟨taken, left, hrequests, hpayloads, hleft⟩ := taken_of_sent h.small hsendable hframes
  refine ⟨taken, left, hrequests, hpayloads, ?_⟩
  intro hphase
  have hunread := h.unread hphase
  rw [← hrest] at hunread
  rw [← List.append_cancel_left hunread, hleft]

/-- The outcomes of the requests of a connection are its responses, and perhaps that its thread has ended at the next. -/
def AnswersOwn (serde : Serde) (log : List (Request × Except Crash Response)) (requests : List Request) (c : Connection) : Prop :=
  c.responses.length ≤ requests.length ∧
  (log = answered requests c.responses ∨
    ∃ r crash, requests[c.responses.length]? = some r ∧ log = answered requests c.responses ++ [(r, .error crash)]) ∧
  c.replied <+: replies serde c.responses

/-- Requests without a response have not been answered. -/
theorem answered_append (taken left : List Request) {responses : List Response} (h : taken.length = responses.length) :
    answered (taken ++ left) responses = answered taken responses := by
  unfold answered
  rw [← List.append_nil responses, List.zip_append h]
  simp

/-- A request that is awaited is the one after those that have been answered. -/
theorem awaits_of_sent {log : List (Request × Except Crash Response)} {request : Request} (h : c.Awaits serde log request)
    {taken left : List Request} (hsendable : Sendable serde (taken ++ left)) (hpayloads : c.payloads = taken.map serde.requestBytes) :
    c.responses.length < (taken ++ left).length ∧ (taken ++ left)[c.responses.length]? = some request ∧
      log = answered (taken ++ left) c.responses := by
  obtain ⟨payloads, payload, hlast, hparse, htranscript⟩ := h
  rw [hlast] at hpayloads
  obtain ⟨first, last, rfl, hfirst, hmap⟩ := List.map_eq_append_iff.mp hpayloads.symm
  obtain ⟨r, rfl, rfl⟩ := List.map_eq_singleton_iff.mp hmap
  rw [(hsendable r (by simp)).2] at hparse
  cases hparse
  obtain ⟨hlen, rfl⟩ := transcript_requests htranscript (fun r hr => hsendable r (by simp [hr])) hfirst.symm
  rw [List.append_assoc]
  refine ⟨by rw [← hlen]; simp, ?_, (answered_append _ _ hlen).symm⟩
  rw [← hlen, List.getElem?_append_right (Nat.le_refl _)]
  simp

/-- What a connection keeps, seen from a client that is sending requests. -/
theorem answersOwn_of_holds {log : List (Request × Except Crash Response)} (h : c.Holds serde log) {requests : List Request}
    (hsendable : Sendable serde requests) (hsent : c.sent <+: requests.flatMap (requestFrame serde)) :
    AnswersOwn serde log requests c := by
  obtain ⟨more, hmore⟩ := hsent
  obtain ⟨taken, left, rfl, hpayloads, -⟩ := read_of_sent h hsendable hmore
  have hfollows := h.follows
  have hdone : Transcript serde c.payloads log c.responses → c.replied <+: replies serde c.responses →
      AnswersOwn serde log (taken ++ left) c := by
    intro htranscript hreplied
    obtain ⟨hlen, hlog⟩ := transcript_requests htranscript (fun r hr => hsendable r (List.mem_append_left _ hr)) hpayloads
    exact ⟨by rw [List.length_append]; omega, Or.inl (hlog.trans (answered_append _ _ hlen).symm), hreplied⟩
  have hawaits : ∀ request, c.Awaits serde log request → c.replied = replies serde c.responses →
      AnswersOwn serde log (taken ++ left) c := by
    intro request hawaits hreplied
    obtain ⟨hlt, -, hlog⟩ := awaits_of_sent hawaits hsendable hpayloads
    exact ⟨Nat.le_of_lt hlt, Or.inl hlog, hreplied ▸ List.prefix_refl _⟩
  cases hphase : c.phase with
  | reading =>
    simp only [Connection.Follows, hphase] at hfollows
    exact hdone hfollows.1 (hfollows.2 ▸ List.prefix_refl _)
  | received payload =>
    simp only [Connection.Follows, hphase] at hfollows
    obtain ⟨⟨payloads, hlast, htranscript⟩, hreplied⟩ := hfollows
    obtain ⟨r, hr, hpayload⟩ := List.mem_map.mp (hpayloads ▸ hlast ▸ List.mem_append_right payloads List.mem_cons_self)
    have hparse := (hsendable r (List.mem_append_left _ hr)).2
    rw [hpayload] at hparse
    exact hawaits r ⟨payloads, payload, hlast, hparse, htranscript⟩ hreplied
  | requested request | counted request =>
    simp only [Connection.Follows, hphase] at hfollows
    exact hawaits request hfollows.1 hfollows.2
  | answered response | replying response =>
    simp only [Connection.Follows, hphase] at hfollows
    obtain ⟨htranscript, responses, hresponses, hreplied⟩ := hfollows
    refine hdone htranscript ?_
    rw [hresponses, replies_append, hreplied]
    exact List.prefix_append _ _
  | ended crash =>
    cases crash with
    | none =>
      simp only [Connection.Follows, hphase] at hfollows
      exact hdone hfollows.1 hfollows.2
    | some crash =>
      simp only [Connection.Follows, hphase] at hfollows
      obtain ⟨⟨first, request, rfl, hlast⟩, hreplied⟩ := hfollows
      obtain ⟨hlt, hget, rfl⟩ := awaits_of_sent hlast hsendable hpayloads
      exact ⟨Nat.le_of_lt hlt, Or.inr ⟨request, crash, hget, rfl⟩, hreplied ▸ List.prefix_refl _⟩

/-- What a client reads off the replies: repeated calls of `read_message` return messages that are these responses, and then `None`. -/
def ClientReads (serde : Serde) : Bytes → List Response → Prop
  | stream, [] => ∃ stream', readMessage stream = .ok (none, stream')
  | stream, response :: responses => ∃ payload stream', readMessage stream = .ok (some payload, stream') ∧
      serde.parseResponse payload = .ok response ∧ ClientReads serde stream' responses

/-- The responses are written in messages that are not too long, and read back. -/
def Readable (serde : Serde) (responses : List Response) : Prop :=
  ∀ r ∈ responses, (serde.responseBytes r).length ≤ maxMessage ∧ serde.parseResponse (serde.responseBytes r) = .ok r

/-- A client reads the responses off their replies. -/
theorem clientReads_replies {responses : List Response} (h : Readable serde responses) :
    ClientReads serde (replies serde responses) responses := by
  induction responses with
  | nil => exact ⟨[], rfl⟩
  | cons r responses ih =>
    obtain ⟨hlen, hparse⟩ := h r List.mem_cons_self
    rw [replies, List.flatMap_cons]
    exact ⟨_, _, readMessage_frame _ hlen, hparse, ih (fun r hr => h r (List.mem_cons_of_mem _ hr))⟩

/-- A client that sends requests, one after the other or all at once, gets the responses to its own requests in their order: in
every run, whatever the other clients send and in whatever order the threads take their steps, the requests of its connection that
have been answered are the first ones of those it sends, each with its response, and perhaps the one at which the thread has ended;
and what has been replied is a beginning of these responses. Where the thread waits for more, all of them have been replied, and the
client reads them off, and nothing else, unless one of them is longer than it takes. -/
theorem own_answers {acts : List Act} (hrun : Run (step std serde) (fun _ _ => True) (start d₀) acts s)
    (hc : s.connections[i]? = some c) {requests : List Request} (hsendable : Sendable serde requests)
    (hsent : c.sent <+: requests.flatMap (requestFrame serde)) :
    AnswersOwn serde (s.servedOn i) requests c ∧
    (c.phase = .reading → c.replied = replies serde c.responses ∧
      (Readable serde c.responses → ClientReads serde c.replied c.responses)) := by
  have hholds := (linear_run hrun).connections i c hc
  refine ⟨answersOwn_of_holds hholds hsendable hsent, ?_⟩
  intro hphase
  have hfollows := hholds.follows
  simp only [Connection.Follows, hphase] at hfollows
  exact ⟨hfollows.2, fun hreadable => hfollows.2 ▸ clientReads_replies hreadable⟩

/-- The client that makes `/a` reads the answer to it. -/
theorem own_answers_mkdir : ∃ s c, runAll (step Daemon.noText mkdirSerde) (start Daemon.newDaemon) mkdirRun = some s ∧
    s.connections[0]? = some c ∧ AnswersOwn mkdirSerde (s.servedOn 0) [.mkdir "/a"] c ∧
    ClientReads mkdirSerde c.replied [.ok "ok /a"] := by
  obtain ⟨s, c, hs, hc, -, -, hsent, hphase, hresponses⟩ := mkdirRun_leads
  obtain ⟨hown, hreplied⟩ := own_answers (Run.of_runAll (fun _ _ _ => trivial) hs) hc mkdir_sendable
    (by rw [hsent, List.flatMap_singleton])
  refine ⟨s, c, hs, hc, hown, ?_⟩
  rw [← hresponses]
  refine (hreplied hphase).2 ?_
  rw [hresponses]
  intro r hr
  obtain rfl := List.mem_singleton.mp hr
  decide +kernel

/-! ## All answers -/

/-- What a thread has before it until it waits: each of its steps takes something off. -/
def work (c : Connection) : Nat :=
  2 * c.unread.length + match c.phase with
    | .reading => 1
    | .received _ => 6
    | .requested _ => 5
    | .counted _ => 4
    | .answered _ => 3
    | .replying _ => 2
    | .ended _ => 0

/-- A whole message can be read. -/
theorem ready_frame {payload : Bytes} (rest : Bytes) (h : payload.length ≤ maxMessage) : ready (frame payload ++ rest) = true := by
  have hlt : payload.length < 256 ^ 4 := by
    unfold maxMessage at h
    omega
  unfold ready
  rw [frame, List.append_assoc, readExact_append _ (length_leBytes 4 _)]
  simp [fromLe_leBytes_of_lt hlt]

/-- A thread that has not ended, and does not wait for more, takes a step. -/
theorem threadStep_advances (hup : s.down = false) (hc : s.connections[i]? = some c) (hended : ∀ crash, c.phase ≠ .ended crash)
    (hready : c.phase = .reading → ∃ payload rest, payload.length ≤ maxMessage ∧ c.unread = frame payload ++ rest)
    (uptimeSec : UInt64) :
    ∃ t c', step std serde s (.thread i uptimeSec) = some t ∧ t.connections[i]? = some c' ∧ work c' < work c ∧ c'.sent = c.sent ∧
      ((∃ crash, c'.phase = .ended (some crash)) ∨ t.down = false ∧ ∀ crash, c'.phase ≠ .ended crash) := by
  obtain ⟨hi, -⟩ := List.getElem?_eq_some_iff.mp hc
  have hself : ∀ c', (s.connections.set i c')[i]? = some c' := fun c' => List.getElem?_set_self hi
  have hstep : step std serde s (.thread i uptimeSec) = s.threadStep std serde i c uptimeSec := by
    simp only [step, hup, hc, Bool.false_eq_true, if_false]
  rw [hstep]
  unfold threadStep
  cases hphase : c.phase with
  | reading =>
    obtain ⟨payload, rest, hlen, hunread⟩ := hready hphase
    simp only [hunread, ready_frame rest hlen, readMessage_frame rest hlen, Bool.or_true, if_true]
    refine ⟨_, _, rfl, hself _, ?_, rfl, Or.inr ⟨hup, by simp⟩⟩
    simp only [work, hphase, hunread, frame, List.length_append, length_leBytes]
    omega
  | received payload =>
    dsimp only
    cases hparse : serde.parseRequest payload with
    | ok request => exact ⟨_, _, rfl, hself _, by simp [work, hphase], rfl, Or.inr ⟨hup, by simp⟩⟩
    | error e => exact ⟨_, _, rfl, hself _, by simp [work, hphase, Connection.answer], rfl, Or.inr ⟨hup, by simp [Connection.answer]⟩⟩
  | requested request => exact ⟨_, _, rfl, hself _, by simp [work, hphase], rfl, Or.inr ⟨hup, by simp⟩⟩
  | counted request =>
    dsimp only
    cases hanswer : Daemon.answer std uptimeSec request s.daemon with
    | ok response d => exact ⟨_, _, rfl, hself _, by simp [work, hphase, Connection.answer], rfl, Or.inr ⟨hup, by simp [Connection.answer]⟩⟩
    | error crash d => exact ⟨_, _, rfl, hself _, by simp [work, hphase], rfl, Or.inl ⟨crash, rfl⟩⟩
  | answered response => exact ⟨_, _, rfl, hself _, by simp [work, hphase], rfl, Or.inr ⟨hup, by simp⟩⟩
  | replying response =>
    simp only [writeMessage, writeAll, flush, writerCall, ServeError.tryIo, Rust.ok_bind]
    exact ⟨_, _, rfl, hself _, by simp [work, hphase], rfl, Or.inr ⟨hup, by simp⟩⟩
  | ended crash => exact absurd hphase (hended crash)

/-- The steps of a thread alone, at these times. -/
def threadSteps (i : Nat) (uptime : Nat → UInt64) (n : Nat) : List Act := (List.range n).map (fun k => .thread i (uptime k))

theorem threadSteps_succ (i : Nat) (uptime : Nat → UInt64) (n : Nat) :
    threadSteps i uptime (n + 1) = .thread i (uptime 0) :: threadSteps i (fun k => uptime (k + 1)) n := by
  simp [threadSteps, List.range_succ_eq_map]

/-- The thread of a connection on which whole requests have been sent comes to wait for more, or crashes at one of them. -/
theorem thread_waits (hlinear : s.Linear std serde d₀) (hup : s.down = false) (hc : s.connections[i]? = some c)
    (hended : ∀ crash, c.phase ≠ .ended crash) {requests : List Request} (hsendable : Sendable serde requests)
    (hsent : c.sent = requests.flatMap (requestFrame serde)) (uptime : Nat → UInt64) :
    ∃ n t c', Run (step std serde) (fun _ _ => True) s (threadSteps i uptime n) t ∧ t.connections[i]? = some c' ∧
      c'.sent = c.sent ∧ ((∃ crash, c'.phase = .ended (some crash)) ∨ c'.phase = .reading ∧ c'.unread = []) := by
  -- induction on what the thread has before it
  obtain ⟨m, hm⟩ : ∃ m, work c ≤ m := ⟨_, Nat.le_refl _⟩
  induction m generalizing s c uptime with
  | zero =>
    unfold work at hm
    cases hphase : c.phase with
    | ended crash => exact absurd hphase (hended crash)
    | reading | received payload | requested request | counted request | answered response | replying response =>
      simp only [hphase] at hm
      omega
  | succ m ih =>
    have hholds := hlinear.connections i c hc
    have hwhole : c.sent ++ [] = requests.flatMap (requestFrame serde) := by rw [hsent, List.append_nil]
    obtain ⟨taken, left, hrequests, -, hunread⟩ := read_of_sent hholds hsendable hwhole
    have hunread := hunread hended
    rw [List.append_nil] at hunread
    by_cases hwait : c.phase = .reading ∧ c.unread = []
    · exact ⟨0, s, c, Run.nil, hc, rfl, Or.inr hwait⟩
    · have hready : c.phase = .reading → ∃ payload rest, payload.length ≤ maxMessage ∧ c.unread = frame payload ++ rest := by
        intro hphase
        cases left with
        | nil => exact absurd ⟨hphase, hunread⟩ hwait
        | cons r left =>
          refine ⟨serde.requestBytes r, left.flatMap (requestFrame serde), (hsendable r ?_).1, hunread⟩
          rw [hrequests]
          simp
      obtain ⟨s₁, c₁, hs₁, hc₁, hwork, hsent₁, hnext⟩ := @threadStep_advances std _ _ _ _ hup hc hended hready (uptime 0)
      have hlinear₁ := linear_step hlinear hs₁
      rcases hnext with hcrash | ⟨hup₁, hended₁⟩
      · refine ⟨1, s₁, c₁, ?_, hc₁, hsent₁, Or.inl hcrash⟩
        rw [threadSteps_succ]
        exact Run.cons trivial hs₁ Run.nil
      · obtain ⟨n, t, c', hrun, hc', hsent', hdone⟩ :=
          ih hlinear₁ hup₁ hc₁ hended₁ (hsent₁.trans hsent) (fun k => uptime (k + 1)) (by omega)
        refine ⟨n + 1, t, c', ?_, hc', hsent'.trans hsent₁, hdone⟩
        rw [threadSteps_succ]
        exact Run.cons trivial hs₁ hrun

/-- No request is left unanswered: in every state that a run can reach, where whole requests have been sent on a connection whose
thread has not ended, finitely many steps of this thread lead to where all of them have been answered and replied, in their order and
with what each of them was answered, unless the thread crashes at one of them. -/
theorem answers_all {acts : List Act} (hrun : Run (step std serde) (fun _ _ => True) (start d₀) acts s) (hup : s.down = false)
    (hc : s.connections[i]? = some c) (hended : ∀ crash, c.phase ≠ .ended crash) {requests : List Request}
    (hsendable : Sendable serde requests) (hsent : c.sent = requests.flatMap (requestFrame serde)) (uptime : Nat → UInt64) :
    ∃ n t c', Run (step std serde) (fun _ _ => True) s (threadSteps i uptime n) t ∧ t.connections[i]? = some c' ∧
      ((∃ crash, c'.phase = .ended (some crash)) ∨
        c'.responses.length = requests.length ∧ t.servedOn i = answered requests c'.responses ∧
          c'.replied = replies serde c'.responses) := by
  have hlinear := linear_run hrun
  obtain ⟨n, t, c', hrun', hc', hsent', hcrash | ⟨hphase, hunread⟩⟩ := thread_waits hlinear hup hc hended hsendable hsent uptime
  · exact ⟨n, t, c', hrun', hc', Or.inl hcrash⟩
  · refine ⟨n, t, c', hrun', hc', Or.inr ?_⟩
    have hholds := (hrun'.invariant hlinear (fun _ _ _ h _ ht => linear_step h ht)).connections i c' hc'
    have hfollows := hholds.follows
    simp only [Connection.Follows, hphase] at hfollows
    obtain ⟨htranscript, hreplied⟩ := hfollows
    have hwhole : c'.sent ++ [] = requests.flatMap (requestFrame serde) := by rw [hsent', hsent, List.append_nil]
    obtain ⟨taken, left, hrequests, hpayloads, hleft⟩ := read_of_sent hholds hsendable hwhole
    have hleft := hleft (by simp [hphase])
    obtain rfl : left = [] := by
      cases left with
      | nil => rfl
      | cons r left =>
        have hlen := congrArg List.length hleft
        rw [hunread] at hlen
        simp only [List.append_nil, List.flatMap_cons, requestFrame, frame, List.length_append, length_leBytes, List.length_nil] at hlen
        omega
    rw [List.append_nil] at hrequests
    obtain ⟨hlen, hlog⟩ := transcript_requests htranscript (hrequests ▸ hsendable) hpayloads
    rw [hrequests]
    exact ⟨hlen.symm, hlog, hreplied⟩

/-- The request to make `/a` has been sent, and is answered. -/
theorem answers_all_mkdir : ∃ n s t c', runAll (step Daemon.noText mkdirSerde) (start Daemon.newDaemon) (mkdirRun.take 3) = some s ∧
    Run (step Daemon.noText mkdirSerde) (fun _ _ => True) s (threadSteps 0 (fun _ => 7) n) t ∧ t.connections[0]? = some c' ∧
    ((∃ crash, c'.phase = .ended (some crash)) ∨
      c'.responses.length = [Request.mkdir "/a"].length ∧ t.servedOn 0 = answered [.mkdir "/a"] c'.responses ∧
        c'.replied = replies mkdirSerde c'.responses) := by
  obtain ⟨s, c, hs, hup, hc, hphase, hsent⟩ : ∃ s c,
      runAll (step Daemon.noText mkdirSerde) (start Daemon.newDaemon) (mkdirRun.take 3) = some s ∧ s.down = false ∧
      s.connections[0]? = some c ∧ c.phase = .reading ∧ c.sent = requestFrame mkdirSerde (.mkdir "/a") :=
    ⟨_, _, rfl, rfl, rfl, rfl, rfl⟩
  obtain ⟨n, t, c', hrun, hc', hdone⟩ := answers_all (Run.of_runAll (fun _ _ _ => trivial) hs) hup hc (by simp [hphase])
    mkdir_sendable (by rw [hsent, List.flatMap_singleton]) (fun _ => 7)
  exact ⟨n, s, t, c', hs, hrun, hc', hdone⟩

/-! ## The counters -/

/-- Whether a request is counted as a query. -/
def isQuery : Request → Bool
  | .query _ => true
  | _ => false

/-- Whether a request is counted as a mutation. -/
def isMutation : Request → Bool
  | .query _ | .ping | .stats | .get _ | .ls _ | .export => false
  | _ => true

/-- A request is counted as a mutation, as a query, or as neither. -/
theorem countKind_eq (request : Request) (stats : ServerStats) : Daemon.countKind request stats =
    { stats with
      mutations := stats.mutations + UInt64.ofNat (isMutation request).toNat
      queries := stats.queries + UInt64.ofNat (isQuery request).toNat } := by
  cases request <;> simp [Daemon.countKind, isMutation, isQuery]

/-- An answer leaves the counters as they are. -/
theorem answer_stats {uptimeSec : UInt64} {request : Request} {d : Daemon} :
    (∀ response d', Daemon.answer std uptimeSec request d = .ok response d' → d'.stats = d.stats) ∧
    (∀ crash d', Daemon.answer std uptimeSec request d = .error crash d' → d'.stats = d.stats) := by
  have hlocked : ∀ f : RequestM Response, (∀ response d', Daemon.withDb f d = .ok response d' → d'.stats = d.stats) ∧
      (∀ crash d', Daemon.withDb f d = .error crash d' → d'.stats = d.stats) := by
    intro f
    unfold Daemon.withDb
    refine ⟨fun response d' h => ?_, fun crash d' h => ?_⟩
    · split at h
      · cases h
        rfl
      · split at h <;> cases h <;> rfl
    · split at h
      · cases h
      · split at h <;> cases h <;> rfl
  cases request with
  | ping | stats =>
    refine ⟨fun response d' h => ?_, fun crash d' h => ?_⟩
    · cases h
      rfl
    · cases h
  | mkdir path | set path ty value | get path | ls path | rm path | hset path key ty value | lpush path ty value | sadd path ty value
    | tset path key ty value | query query | compact | «export» | «import» json | batch ops => exact hlocked _

/-- The sum of a measure over the connections. -/
def total (s : Server) (f : Connection → Nat) : Nat := (s.connections.map f).sum

/-- A connection that changes takes its old share off a sum and adds its new one. -/
theorem total_setConnection (hc : s.connections[i]? = some c) (c' : Connection) (f : Connection → Nat) :
    (s.setConnection i c').total f + f c = s.total f + f c' := by
  have hlist : ∀ (l : List Connection) (i : Nat), l[i]? = some c →
      ((l.set i c').map f).sum + f c = (l.map f).sum + f c' := by
    intro l
    induction l with
    | nil => nofun
    | cons a l ih =>
      intro i hi
      cases i with
      | zero =>
        obtain rfl := Option.some.inj hi
        simp only [List.set_cons_zero, List.map_cons, List.sum_cons]
        omega
      | succ i =>
        have h := ih i hi
        simp only [List.set_cons_succ, List.map_cons, List.sum_cons]
        omega
  exact hlist _ _ hc

/-- Whether the thread has a request that has been counted as one, and not been answered. -/
def unanswered (c : Connection) : Nat :=
  match c.phase with
  | .requested _ | .counted _ => 1
  | _ => 0

/-- Whether the thread has a request of a kind that has been counted as such, and not been answered. -/
def unansweredKind (kind : Request → Bool) (c : Connection) : Nat :=
  match c.phase with
  | .counted request => (kind request).toNat
  | _ => 0

/-- The errors among the responses. -/
def errorResponses (c : Connection) : Nat := c.responses.countP Response.isErr

/-- Whether the thread has an error that has not been counted. -/
def uncounted (c : Connection) : Nat :=
  match c.phase with
  | .answered response => response.isErr.toNat
  | _ => 0

/-- How many of the answered requests are of a kind. -/
def servedKind (s : Server) (kind : Request → Bool) : Nat := s.served.countP (fun e => kind e.request)

/-- The counters have counted the requests that have been answered and the errors among the responses, but for the steps that the
threads are in the middle of. -/
structure Counts (d₀ : Daemon) (s : Server) : Prop where
  requests : s.daemon.stats.requests = d₀.stats.requests + UInt64.ofNat (s.served.length + s.total unanswered)
  mutations : s.daemon.stats.mutations =
    d₀.stats.mutations + UInt64.ofNat (s.servedKind isMutation + s.total (unansweredKind isMutation))
  queries : s.daemon.stats.queries = d₀.stats.queries + UInt64.ofNat (s.servedKind isQuery + s.total (unansweredKind isQuery))
  errors : s.daemon.stats.errors + UInt64.ofNat (s.total uncounted) = d₀.stats.errors + UInt64.ofNat (s.total errorResponses)

/-- What a step adds to the counters. -/
def addTo (stats : ServerStats) (requests mutations queries errors : Nat) : ServerStats :=
  { requests := stats.requests + UInt64.ofNat requests
    mutations := stats.mutations + UInt64.ofNat mutations
    queries := stats.queries + UInt64.ofNat queries
    errors := stats.errors + UInt64.ofNat errors }

theorem addTo_zero (stats : ServerStats) : addTo stats 0 0 0 0 = stats := by
  simp [addTo]

/-- A counter that is increased along with what it counts. -/
theorem counter_step {a a' a₀ : UInt64} {n n' k : Nat} (h : a = a₀ + UInt64.ofNat n) (ha : a' = a + UInt64.ofNat k)
    (hn : n' = n + k) : a' = a₀ + UInt64.ofNat n' := by
  rw [ha, h, hn, UInt64.ofNat_add, UInt64.add_assoc]

/-- A step that changes one connection keeps the counters right, when it adds to them what it adds to what they count. -/
theorem Counts.change (h : Counts d₀ s) (hc : s.connections[i]? = some c) {c' : Connection} (kr km kq ke : Nat)
    (hset : t.connections = s.connections.set i c') (hstats : t.daemon.stats = addTo s.daemon.stats kr km kq ke)
    (hr : t.served.length + unanswered c' = s.served.length + unanswered c + kr)
    (hm : t.servedKind isMutation + unansweredKind isMutation c' = s.servedKind isMutation + unansweredKind isMutation c + km)
    (hq : t.servedKind isQuery + unansweredKind isQuery c' = s.servedKind isQuery + unansweredKind isQuery c + kq)
    (he : errorResponses c' + uncounted c = errorResponses c + uncounted c' + ke) (hmore : errorResponses c ≤ errorResponses c') : Counts d₀ t := by
  have htotal : ∀ f, t.total f + f c = s.total f + f c' := by
    intro f
    rw [← total_setConnection hc c' f, total, total, hset]
    rfl
  have hr' := htotal unanswered
  have hm' := htotal (unansweredKind isMutation)
  have hq' := htotal (unansweredKind isQuery)
  have hu' := htotal uncounted
  have he' := htotal errorResponses
  refine ⟨?_, ?_, ?_, ?_⟩
  · exact counter_step h.requests (by rw [hstats]; rfl) (by omega)
  · exact counter_step h.mutations (by rw [hstats]; rfl) (by omega)
  · exact counter_step h.queries (by rw [hstats]; rfl) (by omega)
  · have hsame : ke + t.total uncounted = s.total uncounted + (errorResponses c' - errorResponses c) := by omega
    have hall : t.total errorResponses = s.total errorResponses + (errorResponses c' - errorResponses c) := by omega
    rw [hstats, hall, UInt64.ofNat_add (s.total errorResponses), ← UInt64.add_assoc, ← h.errors, UInt64.add_assoc, ← UInt64.ofNat_add, ← hsame,
      UInt64.ofNat_add, ← UInt64.add_assoc]
    rfl

/-- A step of a thread keeps the counters right. -/
theorem Counts.threadStep (h : Counts d₀ s) (hc : s.connections[i]? = some c) (ht : Steps std serde s i c t) : Counts d₀ t := by
  cases ht with
  | received hphase hread | ended unread hphase | replied hphase =>
    refine h.change hc 0 0 0 0 rfl (addTo_zero _).symm ?_ ?_ ?_ ?_ (Nat.le_refl _) <;>
      simp [unanswered, unansweredKind, errorResponses, uncounted, hphase, setConnection, servedKind]
  | requested hphase hparse =>
    refine h.change hc 1 0 0 0 rfl (by simp [addTo, Daemon.countRequest]) ?_ ?_ ?_ ?_ (Nat.le_refl _) <;>
      simp [unanswered, unansweredKind, errorResponses, uncounted, hphase, setConnection, servedKind]
  | refused hphase hparse =>
    refine h.change hc 0 0 0 1 rfl (by simp [addTo, Daemon.countError]) ?_ ?_ ?_ ?_ ?_ <;>
      simp [unanswered, unansweredKind, errorResponses, uncounted, hphase, setConnection, servedKind, Connection.answer,
        Connection.badRequest, Response.isErr]
  | @counted request hphase =>
    refine h.change hc 0 (isMutation request).toNat (isQuery request).toNat 0 rfl (by simp [addTo, countKind_eq]) ?_ ?_ ?_ ?_
      (Nat.le_refl _) <;>
      simp [unanswered, unansweredKind, errorResponses, uncounted, hphase, setConnection, servedKind]
  | @answered request response d uptimeSec hphase hanswer =>
    refine h.change hc 0 0 0 0 rfl (by rw [addTo_zero]; exact answer_stats.1 _ _ hanswer) ?_ ?_ ?_ ?_ ?_ <;>
      simp [unanswered, unansweredKind, errorResponses, uncounted, hphase, servedKind, Connection.answer, Bool.toNat, Bool.cond_eq_ite]
  | @crashed request crash d uptimeSec hphase hanswer =>
    refine h.change hc 0 0 0 0 rfl (by rw [addTo_zero]; exact answer_stats.2 _ _ hanswer) ?_ ?_ ?_ ?_ (Nat.le_refl _) <;>
      simp [unanswered, unansweredKind, errorResponses, uncounted, hphase, servedKind, Bool.toNat, Bool.cond_eq_ite]
  | @replying response hphase =>
    refine h.change hc 0 0 0 response.isErr.toNat rfl ?_ ?_ ?_ ?_ ?_ (Nat.le_refl _)
    · cases response.isErr <;> simp [addTo, Daemon.countError]
    all_goals simp [unanswered, unansweredKind, errorResponses, uncounted, hphase, setConnection, servedKind]

/-- What a client does counts for nothing. -/
theorem Counts.clientStep (h : Counts d₀ s) {f : Connection → Option Connection}
    (hf : ∀ {c c' : Connection}, f c = some c' → c'.responses = c.responses ∧
      (c'.phase = c.phase ∨ c'.phase = .ended none ∧ ∃ response, c.phase = .replying response))
    (ht : s.clientStep i f = some t) : Counts d₀ t := by
  unfold Server.clientStep at ht
  cases hc : s.connections[i]? with
  | none =>
    simp only [hc] at ht
    cases ht
  | some c =>
    simp only [hc] at ht
    cases hc' : f c with
    | none =>
      simp only [hc'] at ht
      cases ht
    | some c' =>
      simp only [hc'] at ht
      cases ht
      obtain ⟨hresponses, hphase | ⟨hended, response, hreplying⟩⟩ := hf hc'
      · refine h.change hc 0 0 0 0 rfl (addTo_zero _).symm ?_ ?_ ?_ ?_ ?_ <;>
          simp [unanswered, unansweredKind, errorResponses, uncounted, hphase, hresponses, setConnection, servedKind]
      · refine h.change hc 0 0 0 0 rfl (addTo_zero _).symm ?_ ?_ ?_ ?_ ?_ <;>
          simp [unanswered, unansweredKind, errorResponses, uncounted, hended, hreplying, hresponses, setConnection, servedKind]

/-- Every step keeps the counters exact. -/
theorem counts_step (h : Counts d₀ s) {a : Act} (ht : step std serde s a = some t) : Counts d₀ t := by
  cases a with
  | connect =>
    simp only [step] at ht
    split at ht
    · cases ht
    · cases ht
      have htotal : ∀ f : Connection → Nat, f Connection.accepted = 0 →
          total { s with connections := s.connections ++ [Connection.accepted] } f = s.total f := by
        intro f hf
        simp [total, hf]
      refine ⟨?_, ?_, ?_, ?_⟩
      · rw [htotal unanswered rfl]
        exact h.requests
      · rw [htotal (unansweredKind isMutation) rfl]
        exact h.mutations
      · rw [htotal (unansweredKind isQuery) rfl]
        exact h.queries
      · rw [htotal uncounted rfl, htotal errorResponses rfl]
        exact h.errors
  | send i bytes =>
    refine h.clientStep (fun {c c'} hc' => ?_) ht
    unfold sendOn at hc'
    split at hc'
    · cases hc'
    · cases hc'
      exact ⟨rfl, Or.inl rfl⟩
  | close i =>
    refine h.clientStep (f := fun c => some { c with closed := true }) (fun {c c'} hc' => ?_) ht
    cases hc'
    exact ⟨rfl, Or.inl rfl⟩
  | hangUp i taken =>
    simp only [step] at ht
    split at ht
    · cases ht
    · refine h.clientStep (fun {c c'} hc' => ?_) ht
      unfold hangUpOn at hc'
      split at hc'
      · dsimp only at hc'
        split at hc'
        · cases hc'
          exact ⟨rfl, Or.inr ⟨rfl, _, ‹_›⟩⟩
        · cases hc'
      · cases hc'
  | thread i uptimeSec =>
    simp only [step] at ht
    split at ht
    · cases ht
    · split at ht
      · cases ht
      · rename_i c hc
        exact h.threadStep hc (threadStep_steps ht)
  | exit =>
    cases ht
    exact ⟨h.requests, h.mutations, h.queries, h.errors⟩

/-- In every run the counters are those that the daemon started with, increased by the requests that have been answered, by those of
them that are mutations and queries, and by the errors among the responses, refused messages included; but for the threads that are
between the steps of counting a request, answering it, and counting its error. No increment is lost or made twice, in whatever order
the threads take these steps. -/
theorem counters_exact {acts : List Act} (hrun : Run (step std serde) (fun _ _ => True) (start d₀) acts s) : Counts d₀ s := by
  refine hrun.invariant ?_ (fun _ _ _ h _ ht => counts_step h ht)
  exact ⟨by simp [start, total], by simp [start, total, servedKind], by simp [start, total, servedKind], by simp [start, total]⟩

/-- The counters after the run of two clients. -/
theorem counters_exact_mkdir : ∃ s, runAll (step Daemon.noText mkdirSerde) (start Daemon.newDaemon) mkdirRun = some s ∧
    Counts Daemon.newDaemon s := by
  obtain ⟨s, c, hs, -⟩ := mkdirRun_leads
  exact ⟨s, hs, counters_exact (Run.of_runAll (fun _ _ _ => trivial) hs)⟩

end Server
end AlefsDb
