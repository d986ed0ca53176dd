import AlefsDb.Server.Direct
import AlefsDb.Theorems.Indistinct
import AlefsDb.Theorems.Recovery

/-!
# With and without a daemon

A daemon that keeps a directory open answers its clients, in every order of the steps of its threads, as processes would that open the
directory for one request each, in the order in which it has answered them; and the files come to hold the same (`direct_as_served`).
-/

namespace AlefsDb
namespace Daemon

open Database Wal

variable {std : StdText} {db : Database}

/-! ## Commits in step -/

/-- The records of the commits of a request, and the checkpoints that may follow them, fit their length fields. -/
structure RequestFits (std : StdText) (request : Request) (db : Database) : Prop where
  update : ∀ u, toUpdate std request = some (.ok u) → WritesFit u.writes db
  compact : request = .compact → CheckpointFits db.store.map

/-- What is done under the mutex leads from a database that the files hold to another one that they hold. -/
def Leads (db db' : Database) (f : RequestM Response) : Prop :=
  Triple (fun d => d.script = [] ∧ InStep db d) f (fun _ d => InStep db' d) (fun _ d => InStep db' d)

/-- What is done under a free mutex leads where it does without one. -/
theorem leads_withDb {db' : Database} {f : RequestM Response} (hf : Leads db db' f) :
    Triple (fun s => s.poisoned = false ∧ s.disk.script = [] ∧ InStep db s.disk) (withDb f) (fun _ s => InStep db' s.disk)
      (fun _ s => InStep db' s.disk) := by
  rintro s ⟨hfree, hs⟩
  have h := hf s.disk hs
  simp only [withDb, hfree, Bool.false_eq_true, if_false]
  cases hr : f s.disk with
  | ok response d =>
    rw [hr] at h
    exact h
  | error stop d =>
    rw [hr] at h
    cases stop with
    | message m => exact h
    | crash crash => cases crash <;> exact h

/-- An update, while no file operation fails. -/
theorem update_in_step {u : Update} (hfit : WritesFit u.writes db) :
    Triple (fun d => d.script = [] ∧ InStep db d) (RequestM.update u) (fun _ d => InStep (left (u.run db)) d)
      (fun _ d => InStep (left (u.run db)) d) := by
  rintro ⟨h, files, script⟩ ⟨hscript, hin⟩
  obtain rfl : script = [] := hscript
  have hdb : h.database = db := hin.database
  have hall := commitAll_recovers hfit _ hin
  obtain ⟨h', files', -, hcommits⟩ := commitAll_eq u.writes (h := h) files
  rw [hdb] at hcommits
  rw [Update.run_eq]
  unfold RequestM.update
  rw [hcommits] at hall ⊢
  cases hfailure : failure (writeAll u.writes db) with
  | none =>
    rw [hfailure] at hall
    obtain ⟨db', hdb', hin'⟩ := hall
    simp only [hdb', left]
    exact hin'
  | some e =>
    rw [hfailure] at hall
    obtain ⟨db', hdb', hin'⟩ := hall
    simp only [hdb', left]
    exact hin'

/-- A compaction, while no file operation fails. -/
theorem compact_in_step (hfit : CheckpointFits db.store.map) :
    Triple (fun d => d.script = [] ∧ InStep db d) RequestM.compact (fun _ d => InStep db d) (fun _ _ => False) := by
  rintro ⟨h, files, script⟩ ⟨hscript, hin⟩
  obtain rfl : script = [] := hscript
  obtain ⟨h', files', -, hcompact⟩ := compact_eq h files
  have hloads := WalStorage.compact_loads hfit _ hin
  unfold RequestM.compact at hcompact ⊢
  cases hr : WalStorage.compact ⟨h, files, []⟩ with
  | ok _ d =>
    rw [hr] at hloads
    exact hloads
  | error stop d =>
    rw [hr] at hcompact
    cases stop <;> cases hcompact

/-- What the files hold after a request, while no file operation fails. -/
theorem answer_in_step (uptimeSec : UInt64) {request : Request} (hfit : RequestFits std request db) :
    Triple (fun s => s.poisoned = false ∧ s.disk.script = [] ∧ InStep db s.disk) (answer std uptimeSec request)
      (fun _ s => InStep (afterRequest std request db) s.disk) (fun _ s => InStep (afterRequest std request db) s.disk) := by
  rcases request_cases std request with ⟨u, hupdate⟩ | ⟨m, hupdate⟩ | ⟨hupdate, X, hreading⟩ | rfl | rfl | rfl
  · rw [afterRequest, hupdate, answer_update std uptimeSec hupdate]
    refine leads_withDb ?_
    rw [RequestM.lift_ok, pure_bind]
    exact Triple.bind (update_in_step (hfit.update u hupdate)) (fun _ => Triple.pure (fun _ hd => hd))
  · rw [afterRequest, hupdate]
    rintro s ⟨hfree, -, hin⟩
    rw [answer_refused hfree uptimeSec hupdate]
    exact hin
  · rw [afterRequest, hupdate]
    rintro s ⟨hfree, -, hin⟩
    rw [answer_reading hfree uptimeSec hreading]
    rcases readAnswer_cases s (X s.disk.storage.database) with ⟨response, hr⟩ | hr
    · rw [hr]
      exact hin
    · rw [hr]
      exact hin
  · exact fun s hs => hs.2.2
  · exact fun s hs => hs.2.2
  · refine leads_withDb ?_
    have hcompact := compact_in_step (hfit.compact rfl)
    refine Triple.bind (hcompact.conseq (fun _ hd => hd) (fun _ _ hd => hd) (fun _ _ hd => hd.elim)) ?_
    exact fun _ => Triple.pure (fun _ hd => hd)

/-! ## Responses -/

/-- The response, or how the thread ends. -/
def outcome : EStateM.Result Crash Daemon Response → Except Crash Response
  | .ok response _ => .ok response
  | .error crash _ => .error crash

/-- The response to a request, other than that for the counters, depends on the database only, while no file operation fails. -/
theorem outcome_eq {s s' : Daemon} (hfree : s.poisoned = false) (hfree' : s'.poisoned = false) (hscript : s.disk.script = [])
    (hscript' : s'.disk.script = []) (hdb : s.disk.storage.database = s'.disk.storage.database) (uptimeSec uptimeSec' : UInt64)
    {request : Request} (hstats : request ≠ .stats) :
    outcome (answer std uptimeSec request s) = outcome (answer std uptimeSec' request s') := by
  rcases request_cases std request with ⟨u, hupdate⟩ | ⟨m, hupdate⟩ | ⟨-, X, hreading⟩ | rfl | rfl | rfl
  · obtain ⟨disk, -, -, hanswer⟩ := answer_updates hfree hscript uptimeSec hupdate
    obtain ⟨disk', -, -, hanswer'⟩ := answer_updates hfree' hscript' uptimeSec' hupdate
    rw [hanswer, hanswer', hdb]
    cases failure (u.run s'.disk.storage.database) with
    | none => rfl
    | some e => cases e <;> rfl
  · rw [answer_refused hfree uptimeSec hupdate, answer_refused hfree' uptimeSec' hupdate]
    rfl
  · rw [answer_reading hfree uptimeSec hreading, answer_reading hfree' uptimeSec' hreading, hdb]
    cases X s'.disk.storage.database with
    | ok response => rfl
    | error e => cases e <;> rfl
  · rfl
  · exact absurd rfl hstats
  · obtain ⟨disk, -, -, hanswer⟩ := answer_compact hfree hscript uptimeSec
    obtain ⟨disk', -, -, hanswer'⟩ := answer_compact hfree' hscript' uptimeSec'
    rw [hanswer, hanswer']
    rfl

/-! ## One request -/

/-- A daemon that has the directory open, and the files that other processes open for one request each: both hold the database. -/
structure SideBySide (n : Nat) (db : Database) (s : Daemon) (files : Files) : Prop where
  free : s.poisoned = false
  script : s.disk.script = []
  daemon : InStep db s.disk
  files : Loads files db.store.map []
  updated : Updated db
  within : db.Within n

/-- A request leads from a database that updates have led to to another. -/
theorem afterRequest_updated (hupdated : Updated db) (request : Request) : Updated (afterRequest std request db) := by
  unfold afterRequest
  split
  · exact hupdated.left _
  · exact hupdated

/-- A request is answered alike. -/
theorem SideBySide.request {n : Nat} {s : Daemon} {files : Files} (h : SideBySide n db s files) (uptimeSec uptimeSec' : UInt64)
    {request : Request} (hstats : request ≠ .stats) (hfit : RequestFits std request db) (hids : n + creations std request < 2 ^ 64) :
    ∃ response s' files', answer std uptimeSec request s = .ok response s' ∧
      callDirect std uptimeSec' request files = (some (.ok response), files') ∧
      SideBySide (n + creations std request) (afterRequest std request db) s' files' := by
  -- a daemon that holds the database answers
  have hanswers : ∀ (up : UInt64) (t : Daemon), t.poisoned = false → t.disk.script = [] → InStep db t.disk → ∃ response t',
      answer std up request t = .ok response t' ∧ t'.poisoned = false ∧ t'.disk.script = [] ∧
      InStep (afterRequest std request db) t'.disk ∧ t'.disk.storage.database.Within (n + creations std request) := by
    intro up t hfree hscript hin
    have hin' := answer_in_step up hfit t ⟨hfree, hscript, hin⟩
    have htakes := takes_answer up request n hids t ⟨hfree, by rw [hin.database]; exact h.within⟩
    obtain ⟨disk, hscript', hdb, ⟨response, hr⟩ | hr⟩ := @answer_cases std t hfree hscript up request
    · rw [hr] at hin' htakes
      exact ⟨response, _, hr, rfl, hscript', hin', htakes.2⟩
    · rw [hr] at htakes
      cases htakes.1
  obtain ⟨response, s', hs', hfree', hscript', hin', hwithin'⟩ := hanswers uptimeSec s h.free h.script h.daemon
  obtain ⟨G, next, hstores⟩ := h.updated.sound
  obtain ⟨storage, files₁, hopen, hmap, hloads⟩ := openDb_stored h.files hstores
  -- the process that opens the files for the request
  let t : Daemon := { fresh storage files₁ with stats := countKind request .new }
  obtain ⟨response', t', ht', -, -, hint', -⟩ := hanswers uptimeSec' t rfl rfl ⟨hloads, hmap⟩
  have hdb : s.disk.storage.database = t.disk.storage.database := by
    rw [h.daemon.database]
    exact (congrArg (fun map => Database.mk ⟨map⟩) hmap).symm
  obtain rfl : response = response' := by
    have houtcome := @outcome_eq std s t h.free rfl h.script rfl hdb uptimeSec uptimeSec' request hstats
    rw [hs', ht'] at houtcome
    exact Except.ok.inj houtcome
  have hdispatch : dispatchWithStats std uptimeSec' request (fresh storage files₁) = .ok response t' := ht'
  refine ⟨response, s', t'.disk.files, hs', ?_, hfree', hscript', hin', hint'.1, afterRequest_updated h.updated request, ?_⟩
  · simp only [callDirect, hopen, hdispatch]
  · rw [← hin'.database]
    exact hwithin'

/-! ## Requests one after the other -/

/-- The records and checkpoints of requests, one after the other, fit their length fields. -/
def RequestsFit (std : StdText) : List Request → Database → Prop
  | [], _ => True
  | request :: requests, db => RequestFits std request db ∧ RequestsFit std requests (afterRequest std request db)

/-- The last of the requests fits where the others have led. -/
theorem RequestsFit.snoc {requests : List Request} {request : Request} (h : RequestsFit std (requests ++ [request]) db) :
    RequestsFit std requests db ∧ RequestFits std request (requests.foldl (fun db r => afterRequest std r db) db) := by
  induction requests generalizing db with
  | nil => exact ⟨trivial, h.1⟩
  | cons r requests ih =>
    obtain ⟨hrest, hlast⟩ := ih h.2
    exact ⟨⟨h.1, hrest⟩, hlast⟩

/-- The last process opens what the others have left. -/
theorem callsDirect_snoc (uptimeSec : UInt64) (requests : List Request) (request : Request) (files : Files) :
    callsDirect std uptimeSec (requests ++ [request]) files =
      let (outcomes, left) := callsDirect std uptimeSec requests files
      let (outcome, left) := callDirect std uptimeSec request left
      (outcomes ++ [outcome], left) := by
  induction requests generalizing files with
  | nil => rfl
  | cons r requests ih => simp only [List.cons_append, callsDirect, ih]

/-- A request that asks for the counters. -/
def isStats : Request → Bool
  | .stats => true
  | _ => false

/-- The request for the counters. -/
theorem isStats_iff {request : Request} : isStats request = true ↔ request = .stats := by
  cases request <;> simp [isStats]

/-- The requests for anything but the counters, with their outcomes. -/
def withoutStats (log : List (Request × Except Crash Response)) : List (Request × Except Crash Response) :=
  log.filter (fun e => !isStats e.1)

/-- What processes of their own would have answered, where a daemon has answered requests one after the other. -/
theorem direct_of_sequential {n : Nat} {d₀ d : Daemon} {files : Files} {log : List (Request × Except Crash Response)}
    (h : Sequential std d₀ log d) (h0 : SideBySide n db d₀ files) (hfit : RequestsFit std (log.map Prod.fst) db)
    (hids : n + allCreations std log < 2 ^ 64) (uptimeSec : UInt64) :
    ∃ files',
      callsDirect std uptimeSec ((withoutStats log).map Prod.fst) files = ((withoutStats log).map (fun e => some e.2), files') ∧
      SideBySide (n + allCreations std log) ((log.map Prod.fst).foldl (fun db r => afterRequest std r db) db) d files' := by
  induction h with
  | nil => exact ⟨files, rfl, h0⟩
  | counters stats _ ih =>
    obtain ⟨files', hcalls, hside⟩ := ih hfit hids
    exact ⟨files', hcalls, ⟨hside.free, hside.script, hside.daemon, hside.files, hside.updated, hside.within⟩⟩
  | @answered log d d' request response up _ hanswer ih =>
    rw [allCreations_snoc, ← Nat.add_assoc] at hids ⊢
    rw [List.map_append] at hfit ⊢
    rw [List.foldl_append]
    obtain ⟨files₁, hcalls, hside⟩ := ih hfit.snoc.1 (by omega)
    by_cases hstats : request = .stats
    · subst hstats
      cases hanswer
      refine ⟨files₁, ?_, hside⟩
      rw [show withoutStats (log ++ [(.stats, .ok _)]) = withoutStats log by simp [withoutStats, isStats]]
      exact hcalls
    · obtain ⟨response', s', files₂, hr, hcall, hside'⟩ := hside.request up uptimeSec hstats hfit.snoc.2 hids
      rw [hanswer] at hr
      cases hr
      refine ⟨files₂, ?_, hside'⟩
      have hkeep : isStats request = false := by
        rw [← Bool.not_eq_true, isStats_iff]
        exact hstats
      rw [show withoutStats (log ++ [(request, .ok response)]) = withoutStats log ++ [(request, .ok response)] by
        simp [withoutStats, hkeep]]
      simp only [List.map_append, List.map_cons, List.map_nil, callsDirect_snoc, hcalls, hcall]
  | @crashed log d d' request crash up _ hanswer ih =>
    rw [allCreations_snoc, ← Nat.add_assoc] at hids
    rw [List.map_append] at hfit
    obtain ⟨files₁, hcalls, hside⟩ := ih hfit.snoc.1 (by omega)
    by_cases hstats : request = .stats
    · subst hstats
      cases hanswer
    · obtain ⟨response', s', files₂, hr, -⟩ := hside.request up uptimeSec hstats hfit.snoc.2 hids
      rw [hanswer] at hr
      cases hr

/-- An open shows the database that the files hold. -/
theorem opens {files : Files} (h : Loads files db.store.map []) (hupdated : Updated db) :
    ∃ s files', openDaemon files = (some s, files') ∧ s.disk.storage.database = db := by
  obtain ⟨G, next, hstores⟩ := hupdated.sound
  obtain ⟨storage, files', hopen, hmap, -⟩ := openDb_stored h hstores
  exact ⟨fresh storage files', files', by rw [openDaemon, hopen], congrArg (fun map => Database.mk ⟨map⟩) hmap⟩

end Daemon

namespace Server

open Database Daemon

variable {std : StdText} {serde : Serde} {db : Database} {s : Server}

/-- The requests that have been answered, other than those for the counters, with their outcomes. -/
def answers (s : Server) : List (Request × Except Crash Response) := withoutStats s.outcomes

/-- A daemon answers as if there was none. In every run of a daemon that has opened a directory whose files hold a database that
updates have led to, in whole records, with any number of clients and in whatever order its threads take their steps: processes that
open the directory for one request each, in the order in which the daemon has answered the requests, give the same responses, but for
those with counters; and afterwards the files of both hold the same database, which is that in the memory of the daemon. No file
operation fails, the commits fit their length fields, and there are ids for what the requests create. -/
theorem direct_as_served {n : Nat} {files files₀ : Files} {d₀ : Daemon} {acts : List Act} (hl : Loads files db.store.map [])
    (hupdated : Updated db) (hwithin : db.Within n) (hopen : openDaemon files = (some d₀, files₀))
    (hrun : Run (step std serde) (fun _ _ => True) (start d₀) acts s) (hfit : RequestsFit std (s.outcomes.map Prod.fst) db)
    (hids : n + s.creations std < 2 ^ 64) (uptimeSec : UInt64) :
    ∃ files', callsDirect std uptimeSec (s.answers.map Prod.fst) files = (s.answers.map (fun e => some e.2), files') ∧
      ∃ t t' f f', openDaemon s.daemon.disk.files = (some t, f) ∧ openDaemon files' = (some t', f') ∧
        t.disk.storage.database = s.daemon.disk.storage.database ∧ t'.disk.storage.database = s.daemon.disk.storage.database := by
  obtain ⟨G, next, hstores⟩ := hupdated.sound
  obtain ⟨storage, files₁, hdb, hmap, hl₁⟩ := openDb_stored hl hstores
  rw [openDaemon, hdb] at hopen
  cases hopen
  have hside : SideBySide n db (fresh storage files₀) files := ⟨rfl, rfl, ⟨hl₁, hmap⟩, hl, hupdated, hwithin⟩
  obtain ⟨files', hcalls, h'⟩ := direct_of_sequential (linear_run hrun).sequential hside hfit hids uptimeSec
  obtain ⟨t, f, ht, htdb⟩ := opens h'.daemon.1 h'.updated
  obtain ⟨t', f', ht', htdb'⟩ := opens h'.files h'.updated
  exact ⟨files', hcalls, t, t', f, f', ht, ht', htdb.trans h'.daemon.database.symm, htdb'.trans h'.daemon.database.symm⟩

/-- The commit of `mkdir` and what follows it fit their length fields. -/
theorem mkdirOutcomes_fit : RequestsFit noText (mkdirOutcomes.map Prod.fst) opened := by
  refine ⟨⟨fun u hu => ?_, fun h => (by cases h)⟩, ⟨fun u hu => (by cases hu), fun h => (by cases h)⟩, trivial⟩
  have hupdate : toUpdate noText (.mkdir "/a") = some (.ok (.call (.mkdir pathA))) := by rfl
  obtain rfl := Except.ok.inj (Option.some.inj (hupdate.symm.trans hu))
  exact DataDir.mkdir_fits (h := ⟨opened.store.map, 0, 0⟩) rfl

/-- Clients of a daemon on a directory that has been created make a directory in it and list the root, and so do two processes. -/
theorem direct_as_served_mkdir : ∃ d₀ files₀ s files', openDaemon DataDir.created.files = (some d₀, files₀) ∧
    runAll (step noText mkdirSerde) (start d₀) mkdirRun = some s ∧ s.outcomes = mkdirOutcomes ∧
    callsDirect noText 0 [.mkdir "/a", .ls "/"] DataDir.created.files =
      ([some (.ok (.ok "ok /a")), some (.ok (.list [⟨"a", "dir"⟩]))], files') := by
  have h : (openDaemon DataDir.created.files).1.any
      (fun d₀ => (runAll (step noText mkdirSerde) (start d₀) mkdirRun).any madeAndListed) = true := by decide +kernel
  obtain ⟨d₀, hd₀, h⟩ := (Option.any_eq_true _ _).mp h
  obtain ⟨s, hs, h⟩ := (Option.any_eq_true _ _).mp h
  have houtcomes := outcomes_of_madeAndListed h
  have hanswers : s.answers = mkdirOutcomes := by rw [answers, houtcomes]; rfl
  have hopen : openDaemon DataDir.created.files = (some d₀, (openDaemon DataDir.created.files).2) := by rw [← hd₀]
  have hids : 2 + s.creations noText < 2 ^ 64 := by
    rw [creations, houtcomes]
    decide +kernel
  obtain ⟨files', hcalls, -⟩ := direct_as_served DataDir.loads_created updated_opened within_opened hopen
    (Run.of_runAll (fun _ _ _ => trivial) hs) (houtcomes.symm ▸ mkdirOutcomes_fit) hids 0
  rw [hanswers] at hcalls
  exact ⟨d₀, _, s, files', hopen, hs, houtcomes, hcalls⟩

end Server
end AlefsDb
