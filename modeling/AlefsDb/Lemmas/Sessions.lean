import AlefsDb.Lemmas.Dispatch
import AlefsDb.Server.Sessions

/-!
# What the connections of a daemon keep

In every order of the steps of its threads, the daemon is where the requests lead that it has answered, one after the other; and on
each connection the messages that have been read are those that have been sent, and the replies are the responses to them.
-/

namespace AlefsDb

open Framing

/-! ## One after the other -/

/-- The requests, one after the other, have these outcomes and lead from the first daemon to the second, whose counters may be moved
in between. -/
inductive Sequential (std : StdText) (d₀ : Daemon) : List (Request × Except Crash Response) → Daemon → Prop where
  | nil : Sequential std d₀ [] d₀
  | counters {log : List (Request × Except Crash Response)} {d : Daemon} (stats : ServerStats) :
      Sequential std d₀ log d → Sequential std d₀ log { d with stats := stats }
  | answered {log : List (Request × Except Crash Response)} {d d' : Daemon} {request : Request} {response : Response}
      (uptimeSec : UInt64) : Sequential std d₀ log d → Daemon.answer std uptimeSec request d = .ok response d' →
      Sequential std d₀ (log ++ [(request, .ok response)]) d'
  | crashed {log : List (Request × Except Crash Response)} {d d' : Daemon} {request : Request} {crash : Crash} (uptimeSec : UInt64) :
      Sequential std d₀ log d → Daemon.answer std uptimeSec request d = .error crash d' →
      Sequential std d₀ (log ++ [(request, .error crash)]) d'

/-- A daemon whose mutex is poisoned answers and stays as it is. -/
theorem Daemon.answer_poisoned (std : StdText) (uptimeSec : UInt64) (request : Request) {s : Daemon} (h : s.poisoned = true) :
    ∃ response, answer std uptimeSec request s = .ok response s := by
  have hlocked : ∀ f : RequestM Response, withDb f s = .ok (.err "lock poisoned") s := by
    intro f
    rw [withDb, if_pos h]
  cases request with
  | ping => exact ⟨.ok "pong", rfl⟩
  | stats => exact ⟨_, rfl⟩
  | mkdir path | set path ty value | get path | ls path | rm path | hset path key ty value | lpush path ty value | sadd path ty value
    | tset path key ty value | query query | compact | «export» | «import» json | batch ops => exact ⟨_, hlocked _⟩

/-- Where the requests lead that have been answered. -/
def Daemon.afterAll (std : StdText) (log : List (Request × Except Crash Response)) (db : Database) : Database :=
  log.foldl (fun db e => afterRequest std e.1 db) db

/-- While no file operation fails, and unless a thread has panicked under the mutex, the database is where the requests lead. -/
theorem Sequential.database {std : StdText} {d₀ d : Daemon} {log : List (Request × Except Crash Response)}
    (h : Sequential std d₀ log d) (hscript : d₀.disk.script = []) (hfree : d.poisoned = false) :
    d.disk.script = [] ∧ d.disk.storage.database = Daemon.afterAll std log d₀.disk.storage.database := by
  induction h with
  | nil => exact ⟨hscript, rfl⟩
  | counters stats _ ih => exact ih hfree
  | @answered log d d' request response uptimeSec _ hanswer ih =>
    cases hd : d.poisoned with
    | true =>
      obtain ⟨r, hr⟩ := Daemon.answer_poisoned std uptimeSec request hd
      rw [hr] at hanswer
      cases hanswer
      rw [hd] at hfree
      cases hfree
    | false =>
      obtain ⟨hscript', hdb⟩ := ih hd
      obtain ⟨disk, hscript'', hdisk, ⟨r, hr⟩ | hr⟩ := @Daemon.answer_cases std _ hd hscript' uptimeSec request
      · rw [hr] at hanswer
        cases hanswer
        refine ⟨hscript'', ?_⟩
        rw [Daemon.afterAll, List.foldl_append]
        exact hdisk.trans (congrArg (Daemon.afterRequest std request) hdb)
      · rw [hr] at hanswer
        cases hanswer
  | @crashed log d d' request crash uptimeSec _ hanswer ih =>
    cases hd : d.poisoned with
    | true =>
      obtain ⟨r, hr⟩ := Daemon.answer_poisoned std uptimeSec request hd
      rw [hr] at hanswer
      cases hanswer
    | false =>
      obtain ⟨hscript', -⟩ := ih hd
      obtain ⟨disk, -, -, ⟨r, hr⟩ | hr⟩ := @Daemon.answer_cases std _ hd hscript' uptimeSec request
      · rw [hr] at hanswer
        cases hanswer
      · rw [hr] at hanswer
        cases hanswer
        cases hfree

/-! ## On one connection -/

/-- The responses to messages, the requests among which have been answered so. -/
inductive Transcript (serde : Serde) : List Bytes → List (Request × Except Crash Response) → List Response → Prop where
  | nil : Transcript serde [] [] []
  | refused {payloads : List Bytes} {log : List (Request × Except Crash Response)} {responses : List Response} {payload : Bytes}
      {e : String} : Transcript serde payloads log responses → serde.parseRequest payload = .error e →
      Transcript serde (payloads ++ [payload]) log (responses ++ [Connection.badRequest e])
  | answered {payloads : List Bytes} {log : List (Request × Except Crash Response)} {responses : List Response} {payload : Bytes}
      {request : Request} {response : Response} : Transcript serde payloads log responses →
      serde.parseRequest payload = .ok request →
      Transcript serde (payloads ++ [payload]) (log ++ [(request, .ok response)]) (responses ++ [response])

/-- The bytes of the replies with these responses. -/
def replies (serde : Serde) (responses : List Response) : Bytes := responses.flatMap (fun r => frame (serde.responseBytes r))

theorem replies_append (serde : Serde) (responses : List Response) (response : Response) :
    replies serde (responses ++ [response]) = replies serde responses ++ frame (serde.responseBytes response) := by
  simp [replies]

/-- The last message that has been read is a request that has not been answered yet. -/
def Connection.Awaits (serde : Serde) (log : List (Request × Except Crash Response)) (c : Connection) (request : Request) : Prop :=
  ∃ payloads payload, c.payloads = payloads ++ [payload] ∧ serde.parseRequest payload = .ok request ∧
    Transcript serde payloads log c.responses

/-- The responses of a connection are to the messages that have been read from it, and its replies are its responses, as far as the
thread has come. -/
def Connection.Follows (serde : Serde) (log : List (Request × Except Crash Response)) (c : Connection) : Prop :=
  match c.phase with
  | .reading => Transcript serde c.payloads log c.responses ∧ c.replied = replies serde c.responses
  | .received payload =>
    (∃ payloads, c.payloads = payloads ++ [payload] ∧ Transcript serde payloads log c.responses) ∧ c.replied = replies serde c.responses
  | .requested request | .counted request => c.Awaits serde log request ∧ c.replied = replies serde c.responses
  | .answered response | .replying response =>
    Transcript serde c.payloads log c.responses ∧
      ∃ responses, c.responses = responses ++ [response] ∧ c.replied = replies serde responses
  | .ended none => Transcript serde c.payloads log c.responses ∧ c.replied <+: replies serde c.responses
  | .ended (some crash) =>
    (∃ answered request, log = answered ++ [(request, .error crash)] ∧ c.Awaits serde answered request) ∧
      c.replied = replies serde c.responses

/-- What a connection keeps, beside the outcomes of its requests. -/
structure Connection.Holds (serde : Serde) (log : List (Request × Except Crash Response)) (c : Connection) : Prop where
  /-- The messages that have been read are what has been sent, from its beginning on. -/
  small : ∀ payload ∈ c.payloads, payload.length ≤ maxMessage
  read : c.payloads.flatMap frame <+: c.sent
  /-- While the thread has not ended, the rest is unread. -/
  unread : (∀ crash, c.phase ≠ .ended crash) → c.sent = c.payloads.flatMap frame ++ c.unread
  follows : c.Follows serde log

/-- The daemon is where the requests lead that have been answered, and its connections keep what they should. -/
structure Server.Linear (std : StdText) (serde : Serde) (d₀ : Daemon) (s : Server) : Prop where
  sequential : Sequential std d₀ (s.served.map (fun e => (e.request, e.outcome))) s.daemon
  known : ∀ e ∈ s.served, e.connection < s.connections.length
  connections : ∀ (i : Nat) (c : Connection), s.connections[i]? = some c → c.Holds serde (s.servedOn i)

namespace Server

variable {std : StdText} {serde : Serde} {d₀ : Daemon} {s t : Server} {i : Nat} {c c' : Connection}

/-- Before the first request the daemon is where it started. -/
theorem start_linear (d₀ : Daemon) : (start d₀).Linear std serde d₀ where
  sequential := Sequential.nil
  known := nofun
  connections := nofun

/-- A connection changes, and nothing else. -/
theorem Linear.setConnection (h : s.Linear std serde d₀) (hc : s.connections[i]? = some c)
    (hc' : c'.Holds serde (s.servedOn i)) : (s.setConnection i c').Linear std serde d₀ where
  sequential := h.sequential
  known := by
    intro e he
    rw [Server.setConnection, List.length_set]
    exact h.known e he
  connections := by
    intro j c₁ hc₁
    obtain ⟨hi, -⟩ := List.getElem?_eq_some_iff.mp hc
    by_cases hj : i = j
    · subst hj
      rw [Server.setConnection, List.getElem?_set_self hi] at hc₁
      cases hc₁
      exact hc'
    · rw [Server.setConnection, List.getElem?_set_ne hj] at hc₁
      exact h.connections j c₁ hc₁

theorem Linear.withStats (h : s.Linear std serde d₀) (stats : ServerStats) :
    Linear std serde d₀ { s with daemon := { s.daemon with stats := stats } } :=
  ⟨h.sequential.counters stats, h.known, h.connections⟩

/-- A request of a connection is answered, or its thread ends at it. -/
theorem Linear.serve (h : s.Linear std serde d₀) (hc : s.connections[i]? = some c) {d : Daemon} {request : Request}
    {outcome : Except Crash Response} (down : Bool)
    (hd : Sequential std d₀ (s.served.map (fun e => (e.request, e.outcome)) ++ [(request, outcome)]) d)
    (hc' : c'.Holds serde (s.servedOn i ++ [(request, outcome)])) :
    Linear std serde d₀ { s.setConnection i c' with daemon := d, down := down, served := s.served ++ [⟨i, request, outcome⟩] } := by
  obtain ⟨hi, -⟩ := List.getElem?_eq_some_iff.mp hc
  refine ⟨?_, ?_, ?_⟩
  · rw [List.map_append]
    exact hd
  · intro e he
    change e.connection < (s.connections.set i c').length
    rw [List.length_set]
    rcases List.mem_append.mp he with he | he
    · exact h.known e he
    · obtain rfl := List.mem_singleton.mp he
      exact hi
  · intro j c₁ hc₁
    change (s.connections.set i c')[j]? = some c₁ at hc₁
    by_cases hj : i = j
    · subst hj
      rw [List.getElem?_set_self hi] at hc₁
      cases hc₁
      simpa [servedOn] using hc'
    · rw [List.getElem?_set_ne hj] at hc₁
      simpa [servedOn, hj] using h.connections j c₁ hc₁

/-- A connection is accepted. -/
theorem Linear.connect (h : s.Linear std serde d₀) :
    Linear std serde d₀ { s with connections := s.connections ++ [Connection.accepted] } := by
  refine ⟨h.sequential, ?_, ?_⟩
  · intro e he
    have hlt := h.known e he
    change e.connection < (s.connections ++ [Connection.accepted]).length
    rw [List.length_append]
    omega
  · intro j c₁ hc₁
    change (s.connections ++ [Connection.accepted])[j]? = some c₁ at hc₁
    by_cases hj : j < s.connections.length
    · rw [List.getElem?_append_left hj] at hc₁
      exact h.connections j c₁ hc₁
    · rw [List.getElem?_append_right (Nat.le_of_not_lt hj)] at hc₁
      obtain ⟨hlt, rfl⟩ := List.getElem?_eq_some_iff.mp hc₁
      have hnone : s.served.filter (fun e => e.connection = j) = [] := by
        rw [List.filter_eq_nil_iff]
        intro e he
        have hlt := h.known e he
        simp only [decide_eq_true_eq]
        omega
      change Connection.Holds serde ((s.served.filter (fun e => e.connection = j)).map (fun e => (e.request, e.outcome)))
        ([Connection.accepted][j - s.connections.length])
      rw [hnone]
      simp only [List.getElem_singleton]
      exact ⟨nofun, List.prefix_refl _, fun _ => rfl, Transcript.nil, rfl⟩

/-! ## Steps -/

/-- What a client sends, and that it sends no more, is not seen by the thread before it reads. -/
theorem sendOn_holds {log : List (Request × Except Crash Response)} (h : c.Holds serde log) {bytes : Bytes}
    (hc' : sendOn bytes c = some c') : c'.Holds serde log := by
  unfold sendOn at hc'
  split at hc'
  · cases hc'
  · cases hc'
    refine ⟨h.small, h.read.trans (List.prefix_append _ _), ?_, h.follows⟩
    intro hphase
    rw [h.unread hphase, List.append_assoc]

/-- A client that goes away leaves the beginning of a reply on its connection. -/
theorem hangUpOn_holds {log : List (Request × Except Crash Response)} (h : c.Holds serde log) {taken : Nat}
    (hc' : hangUpOn serde taken c = some c') : c'.Holds serde log := by
  have hfollows := h.follows
  unfold hangUpOn at hc'
  cases hphase : c.phase with
  | replying response =>
    simp only [hphase] at hc'
    split at hc'
    · cases hc'
      simp only [Connection.Follows, hphase] at hfollows
      obtain ⟨htranscript, responses, hresponses, hreplied⟩ := hfollows
      refine ⟨h.small, h.read, fun hended => absurd rfl (hended none), htranscript, ?_⟩
      dsimp only
      rw [hresponses, replies_append, hreplied]
      exact List.prefix_append_right_inj _ |>.mpr (List.take_prefix _ _)
    · cases hc'
  | reading | received payload | requested request | counted request | answered response | ended crash =>
    simp only [hphase] at hc'
    cases hc'

/-- A step of a client. -/
theorem Linear.clientStep (h : s.Linear std serde d₀) {f : Connection → Option Connection}
    (hf : ∀ {log : List (Request × Except Crash Response)} {c c' : Connection}, c.Holds serde log → f c = some c' → c'.Holds serde log)
    (ht : s.clientStep i f = some t) : t.Linear std serde d₀ := by
  unfold Server.clientStep at ht
  cases hc : s.connections[i]? with
  | none =>
    simp only [hc] at ht
    cases ht
  | some c =>
    simp only [hc] at ht
    cases hc' : f c with
    | none =>
      simp only [hc'] at ht
      cases ht
    | some c' =>
      simp only [hc'] at ht
      cases ht
      exact h.setConnection hc (hf (h.connections i c hc) hc')

/-- What a step of the thread of a connection can be. -/
inductive Steps (std : StdText) (serde : Serde) (s : Server) (i : Nat) (c : Connection) : Server → Prop where
  | received {payload unread : Bytes} : c.phase = .reading → readMessage c.unread = .ok (some payload, unread) →
      Steps std serde s i c
        (s.setConnection i { c with unread := unread, phase := .received payload, payloads := c.payloads ++ [payload] })
  | ended (unread : Bytes) : c.phase = .reading →
      Steps std serde s i c (s.setConnection i { c with unread := unread, phase := .ended none })
  | requested {payload : Bytes} {request : Request} : c.phase = .received payload → serde.parseRequest payload = .ok request →
      Steps std serde s i c { s.setConnection i { c with phase := .requested request } with daemon := s.daemon.countRequest }
  | refused {payload : Bytes} {e : String} : c.phase = .received payload → serde.parseRequest payload = .error e →
      Steps std serde s i c { s.setConnection i (c.answer (Connection.badRequest e) (.replying (Connection.badRequest e))) with
        daemon := s.daemon.countError }
  | counted {request : Request} : c.phase = .requested request →
      Steps std serde s i c { s.setConnection i { c with phase := .counted request } with
        daemon := { s.daemon with stats := Daemon.countKind request s.daemon.stats } }
  | answered {request : Request} {response : Response} {d : Daemon} (uptimeSec : UInt64) : c.phase = .counted request →
      Daemon.answer std uptimeSec request s.daemon = .ok response d →
      Steps std serde s i c { s.setConnection i (c.answer response (.answered response)) with
        daemon := d
        served := s.served ++ [⟨i, request, .ok response⟩] }
  | crashed {request : Request} {crash : Crash} {d : Daemon} (uptimeSec : UInt64) : c.phase = .counted request →
      Daemon.answer std uptimeSec request s.daemon = .error crash d →
      Steps std serde s i c { s.setConnection i { c with phase := .ended (some crash) } with
        daemon := d
        down := crash = .killed
        served := s.served ++ [⟨i, request, .error crash⟩] }
  | replying {response : Response} : c.phase = .answered response →
      Steps std serde s i c { s.setConnection i { c with phase := .replying response } with
        daemon := if response.isErr then s.daemon.countError else s.daemon }
  | replied {response : Response} : c.phase = .replying response →
      Steps std serde s i c (s.setConnection i
        { c with replied := c.replied ++ frame (serde.responseBytes response), phase := .reading })

/-- A step of a thread, according to where it is. -/
theorem threadStep_steps {uptimeSec : UInt64} (ht : s.threadStep std serde i c uptimeSec = some t) : Steps std serde s i c t := by
  unfold threadStep at ht
  cases hphase : c.phase with
  | reading =>
    simp only [hphase] at ht
    split at ht
    · cases hread : readMessage c.unread with
      | error e =>
        simp only [hread] at ht
        cases ht
        exact Steps.ended c.unread hphase
      | ok r =>
        obtain ⟨message, unread⟩ := r
        cases message with
        | none =>
          simp only [hread] at ht
          cases ht
          exact Steps.ended unread hphase
        | some payload =>
          simp only [hread] at ht
          cases ht
          exact Steps.received hphase hread
    · cases ht
  | received payload =>
    simp only [hphase] at ht
    cases hparse : serde.parseRequest payload with
    | ok request =>
      simp only [hparse] at ht
      cases ht
      exact Steps.requested hphase hparse
    | error e =>
      simp only [hparse] at ht
      cases ht
      exact Steps.refused hphase hparse
  | requested request =>
    simp only [hphase] at ht
    cases ht
    exact Steps.counted hphase
  | counted request =>
    simp only [hphase] at ht
    cases hanswer : Daemon.answer std uptimeSec request s.daemon with
    | ok response d =>
      simp only [hanswer] at ht
      cases ht
      exact Steps.answered uptimeSec hphase hanswer
    | error crash d =>
      simp only [hanswer] at ht
      cases ht
      exact Steps.crashed uptimeSec hphase hanswer
  | answered response =>
    simp only [hphase] at ht
    cases ht
    exact Steps.replying hphase
  | replying response =>
    simp only [hphase] at ht
    cases hwrite : writeMessage (serde.responseBytes response) { bytes := c.replied, faults := [] } with
    | error e =>
      simp only [hwrite] at ht
      cases ht
    | ok w =>
      simp only [hwrite] at ht
      cases ht
      rw [writeMessage_eq_ok hwrite]
      exact Steps.replied hphase
  | ended crash =>
    simp only [hphase] at ht
    cases ht

/-- A step of a thread. -/
theorem Linear.threadStep (h : s.Linear std serde d₀) (hc : s.connections[i]? = some c) (ht : Steps std serde s i c t) :
    t.Linear std serde d₀ := by
  have hholds := h.connections i c hc
  have hfollows := hholds.follows
  cases ht with
  | @received payload unread hphase hread =>
    have hunread := hholds.unread (by simp [hphase])
    simp only [Connection.Follows, hphase] at hfollows
    obtain ⟨htranscript, hreplied⟩ := hfollows
    rcases readMessage_eq_ok hread with ⟨hr, -⟩ | ⟨payload', hr, hlen, hstream⟩
    · cases hr
    · cases hr
      dsimp only at hstream
      have hsent : c.sent = (c.payloads ++ [payload]).flatMap frame ++ unread := by
        rw [hunread, hstream, List.flatMap_append, List.append_assoc, List.flatMap_singleton]
      refine h.setConnection hc ⟨?_, ⟨unread, hsent.symm⟩, fun _ => hsent, ⟨_, rfl, htranscript⟩, hreplied⟩
      intro p hp
      rcases List.mem_append.mp hp with hp | hp
      · exact hholds.small p hp
      · obtain rfl := List.mem_singleton.mp hp
        exact hlen
  | ended unread hphase =>
    simp only [Connection.Follows, hphase] at hfollows
    obtain ⟨htranscript, hreplied⟩ := hfollows
    exact h.setConnection hc ⟨hholds.small, hholds.read, fun hended => absurd rfl (hended none), htranscript,
      hreplied ▸ List.prefix_refl _⟩
  | @requested payload request hphase hparse =>
    have hunread := hholds.unread (by simp [hphase])
    simp only [Connection.Follows, hphase] at hfollows
    obtain ⟨⟨payloads, hpayloads, htranscript⟩, hreplied⟩ := hfollows
    have hset : (s.setConnection i { c with phase := .requested request }).Linear std serde d₀ := h.setConnection hc
      ⟨hholds.small, hholds.read, fun _ => hunread, ⟨payloads, payload, hpayloads, hparse, htranscript⟩, hreplied⟩
    exact hset.withStats _
  | @refused payload e hphase hparse =>
    have hunread := hholds.unread (by simp [hphase])
    simp only [Connection.Follows, hphase] at hfollows
    obtain ⟨⟨payloads, hpayloads, htranscript⟩, hreplied⟩ := hfollows
    have hset : (s.setConnection i (c.answer (Connection.badRequest e) (.replying (Connection.badRequest e)))).Linear std serde d₀ :=
      h.setConnection hc
      ⟨hholds.small, hholds.read, fun _ => hunread, by rw [Connection.answer, hpayloads]; exact htranscript.refused hparse,
        c.responses, rfl, hreplied⟩
    exact hset.withStats _
  | @counted request hphase =>
    have hunread := hholds.unread (by simp [hphase])
    simp only [Connection.Follows, hphase] at hfollows
    have hset : (s.setConnection i { c with phase := .counted request }).Linear std serde d₀ := h.setConnection hc
      ⟨hholds.small, hholds.read, fun _ => hunread, hfollows⟩
    exact hset.withStats _
  | @answered request response d uptimeSec hphase hanswer =>
    have hunread := hholds.unread (by simp [hphase])
    simp only [Connection.Follows, hphase] at hfollows
    obtain ⟨⟨payloads, payload, hpayloads, hparse, htranscript⟩, hreplied⟩ := hfollows
    exact h.serve hc s.down (h.sequential.answered uptimeSec hanswer)
      ⟨hholds.small, hholds.read, fun _ => hunread, by rw [Connection.answer, hpayloads]; exact htranscript.answered hparse,
        c.responses, rfl, hreplied⟩
  | @crashed request crash d uptimeSec hphase hanswer =>
    simp only [Connection.Follows, hphase] at hfollows
    obtain ⟨⟨payloads, payload, hpayloads, hparse, htranscript⟩, hreplied⟩ := hfollows
    exact h.serve hc _ (h.sequential.crashed uptimeSec hanswer)
      ⟨hholds.small, hholds.read, fun hended => absurd rfl (hended (some crash)),
        ⟨s.servedOn i, request, rfl, payloads, payload, hpayloads, hparse, htranscript⟩, hreplied⟩
  | @replying response hphase =>
    have hunread := hholds.unread (by simp [hphase])
    simp only [Connection.Follows, hphase] at hfollows
    have hset : (s.setConnection i { c with phase := .replying response }).Linear std serde d₀ := h.setConnection hc
      ⟨hholds.small, hholds.read, fun _ => hunread, hfollows⟩
    split
    · exact hset.withStats _
    · exact hset
  | @replied response hphase =>
    have hunread := hholds.unread (by simp [hphase])
    simp only [Connection.Follows, hphase] at hfollows
    obtain ⟨htranscript, responses, hresponses, hreplied⟩ := hfollows
    refine h.setConnection hc ⟨hholds.small, hholds.read, fun _ => hunread, htranscript, ?_⟩
    change c.replied ++ frame (serde.responseBytes response) = replies serde c.responses
    rw [hresponses, replies_append, hreplied]

/-- Every step keeps it. -/
theorem linear_step (h : s.Linear std serde d₀) {a : Act} (ht : step std serde s a = some t) : t.Linear std serde d₀ := by
  cases a with
  | connect =>
    simp only [step] at ht
    split at ht
    · cases ht
    · cases ht
      exact h.connect
  | send i bytes => exact h.clientStep (fun hc => sendOn_holds hc) ht
  | close i =>
    refine h.clientStep (f := fun c => some { c with closed := true }) (fun {log c c'} hc hc' => ?_) ht
    cases hc'
    exact ⟨hc.small, hc.read, hc.unread, hc.follows⟩
  | hangUp i taken =>
    simp only [step] at ht
    split at ht
    · cases ht
    · exact h.clientStep (fun hc => hangUpOn_holds hc) ht
  | thread i uptimeSec =>
    simp only [step] at ht
    split at ht
    · cases ht
    · split at ht
      · cases ht
      · rename_i c hc
        exact h.threadStep hc (threadStep_steps ht)
  | exit =>
    cases ht
    exact ⟨h.sequential, h.known, h.connections⟩

end Server
end AlefsDb
