import AlefsDb.Lemmas.Ids
import AlefsDb.Theorems.Sessions

/-!
# What makes a thread panic

Nothing but a lack of ids: in every order of the steps of its threads, and whatever its file operations come to, no thread of a daemon
panics while the entries that the requests create do not come to the end of the ids, so that no request finds the mutex poisoned
(`never_panics`).
-/

namespace AlefsDb

open Database Rust

/-! ## Under the mutex -/

namespace RequestM

/-- What is done under the mutex takes so many ids at most, while they are left, and does not panic. -/
def Takes {α : Type} (k : Nat) (f : RequestM α) : Prop :=
  ∀ n, n + k < 2 ^ 64 → Triple (fun d => d.storage.database.Within n) f (fun _ d => d.storage.database.Within (n + k))
    (fun stop d => stop ≠ .crash .panicked ∧ d.storage.database.Within (n + k))

theorem stopOf_ne_panicked {ε : Type} (text : ε → String) (e : ε) : stopOf text (.err e) ≠ .crash .panicked := nofun

theorem takes_pure {α : Type} (a : α) : Takes 0 (pure a : RequestM α) := fun _ _ _ hd => hd

theorem takes_lift {ε α : Type} (text : ε → String) {x : Rust ε α} (h : Returns x) : Takes 0 (lift text x) := by
  intro n hn d hd
  rcases h with ⟨a, rfl⟩ | ⟨e, rfl⟩
  · exact hd
  · exact ⟨stopOf_ne_panicked text e, hd⟩

theorem takes_refused {ε α β : Type} (text : ε → String) (e : ε) {f : α → RequestM β} : Takes 0 (lift text (err e) >>= f) := by
  intro n hn d hd
  rw [bind_of_error (rfl : lift text (err e) d = .error (stopOf text (.err e)) d)]
  exact ⟨stopOf_ne_panicked text e, hd⟩

/-- A method that only reads takes no ids. -/
theorem takes_read {α : Type} {method : Database → Rust NsError α}
    (h : ∀ {db : Database} {G : Graph} {next : UInt64}, Stores db.store.map G next → Returns (method db)) : Takes 0 (read method) := by
  intro n hn d hd
  have hsound := hd
  obtain ⟨G, next, hstores, -⟩ := hsound
  exact takes_lift NsError.text (h hstores) n hn d hd

/-- The ids that computations take add up. -/
theorem Takes.bind {α β : Type} {f : RequestM α} {g : α → RequestM β} {k l : Nat} (hf : Takes k f) (hg : ∀ a, Takes l (g a)) :
    Takes (k + l) (f >>= g) := by
  intro n hn
  rw [← Nat.add_assoc]
  refine Triple.bind ((hf n (by omega)).conseq (fun _ hd => hd) (fun _ _ hd => hd) ?_) (fun a => hg a (n + k) (by omega))
  exact fun stop d hd => ⟨hd.1, hd.2.mono (Nat.le_add_right _ _)⟩

theorem takes_compact : Takes 0 RequestM.compact := by
  intro n hn d hd
  have hcompact := WalStorage.compact_triple d.storage.map d.files.wal d.files.checkpoint d ⟨rfl, rfl, rfl⟩
  have hsame : ∀ {d' : Disk}, d'.storage.map = d.storage.map → d'.storage.database.Within n := by
    intro d' hm
    change (Database.mk ⟨d'.storage.map⟩).Within n
    rw [hm]
    exact hd
  unfold RequestM.compact
  cases hr : WalStorage.compact d with
  | ok _ d' =>
    rw [hr] at hcompact
    exact hsame hcompact.1
  | error stop d' =>
    rw [hr] at hcompact
    cases stop with
    | err e => exact ⟨nofun, hsame hcompact.1⟩
    | killed => exact ⟨nofun, hsame hcompact.1⟩

/-- An update takes an id for each entry that it may create. -/
theorem takes_update (u : Update) : Takes u.creations (update u) := by
  intro n hn d hd
  obtain ⟨ks, hks, hsum⟩ := takes_writes u
  rw [← hsum] at hn ⊢
  have hcommit := commitAll_takes hks hn d hd
  unfold update
  cases hr : commitAll u.writes d with
  | ok _ d' =>
    rw [hr] at hcommit
    exact hcommit
  | error stop d' =>
    rw [hr] at hcommit
    obtain ⟨hrefusal, hwithin⟩ := hcommit
    cases stop with
    | refused e =>
      obtain ⟨e', rfl⟩ := hrefusal
      exact ⟨nofun, hwithin⟩
    | storage stop =>
      cases stop with
      | err e => exact ⟨nofun, hwithin⟩
      | killed => exact ⟨nofun, hwithin⟩

end RequestM

/-! ## Requests -/

namespace Daemon

open RequestM

variable {std : StdText}

/-- The mutex is not poisoned, the rows are those of a graph, and the next id is at most a bound. -/
def Within (n : Nat) (s : Daemon) : Prop := s.poisoned = false ∧ s.disk.storage.database.Within n

/-- The entries that a request creates at most. -/
def creations (std : StdText) (request : Request) : Nat :=
  match toUpdate std request with
  | some (.ok u) => u.creations
  | _ => 0

/-- The thread answers, or the process is killed. -/
def Takes (k : Nat) (x : DaemonM Response) : Prop :=
  ∀ n, n + k < 2 ^ 64 → Triple (Within n) x (fun _ s => s.Within (n + k)) (fun crash s => crash = .killed ∧ s.Within (n + k))

/-- What is done under the mutex takes the ids that it takes without. -/
theorem takes_withDb {k : Nat} {f : RequestM Response} (hf : RequestM.Takes k f) : Takes k (withDb f) := by
  rintro n hn s ⟨hfree, hs⟩
  have h := hf n hn s.disk hs
  simp only [withDb, hfree, Bool.false_eq_true, if_false]
  cases hr : f s.disk with
  | ok response d =>
    rw [hr] at h
    exact ⟨rfl, h⟩
  | error stop d =>
    rw [hr] at h
    obtain ⟨hstop, hwithin⟩ := h
    cases stop with
    | message m => exact ⟨rfl, hwithin⟩
    | crash crash =>
      cases crash with
      | panicked => exact absurd rfl hstop
      | killed => exact ⟨rfl, rfl, hwithin⟩

/-- An entry that is there is shown. -/
theorem showEntry_returns {db : Database} {G : Graph} {next : UInt64} (h : Stores db.store.map G next) {path : DbPath} {e : Entry}
    (hget : db.get path = .ok e) : Returns (showEntry std path e) := by
  unfold showEntry
  rcases kind_of_get h hget with ⟨hkind, -⟩ | ⟨hkind, v, hv⟩
  · rw [hkind]
    exact returns_ok _
  · rw [hkind, hv]
    exact returns_ok _

/-- A request for an update. -/
theorem takes_answer_update (uptimeSec : UInt64) {request : Request} {conversion : Rust String Update}
    (h : toUpdate std request = some conversion) : Takes (creations std request) (answer std uptimeSec request) := by
  rw [answer_update std uptimeSec h, creations, h]
  refine takes_withDb ?_
  rcases toUpdate_returns std h with ⟨u, rfl⟩ | ⟨m, rfl⟩
  · exact (takes_update u).bind (fun _ => takes_pure _)
  · exact takes_refused id m

/-- A request is answered, unless the process is killed. -/
theorem takes_answer (uptimeSec : UInt64) (request : Request) : Takes (creations std request) (answer std uptimeSec request) := by
  cases hupdate : toUpdate std request with
  | some conversion => exact takes_answer_update uptimeSec hupdate
  | none =>
    rw [creations, hupdate]
    have hpath : ∀ path, RequestM.Takes 0 (lift id (parsePath path)) := fun path => takes_lift id (parsePath_returns path)
    cases request with
    | batch ops | «import» json | mkdir path | set path ty value | rm path | hset path key ty value | lpush path ty value
      | sadd path ty value | tset path key ty value => cases hupdate
    | ping => exact fun n hn s hs => hs
    | stats => exact fun n hn s hs => hs
    | compact => exact takes_withDb (takes_compact.bind fun _ => takes_pure _)
    | get path =>
      refine takes_withDb ((hpath path).bind (l := 0) fun p n hn d hd => ?_)
      obtain ⟨G, next, hstores, -⟩ := id hd
      have hread : (do
          let e ← read (fun db => db.get p)
          lift NsError.text (showEntry std p e) : RequestM Response) d =
          lift NsError.text (d.storage.database.get p >>= showEntry std p) d := by
        rw [lift_bind]
        rfl
      rw [hread]
      exact takes_lift NsError.text ((get_returns hstores p).bind fun e he => showEntry_returns hstores he) n hn d hd
    | ls path =>
      refine takes_withDb ((hpath path).bind (l := 0) fun p => ?_)
      exact (takes_read (fun h => list_returns h p)).bind fun _ => takes_pure _
    | query query =>
      refine takes_withDb fun n hn d hd => ?_
      obtain ⟨G, next, hstores, -⟩ := id hd
      exact ((takes_lift (EvalError.text std) (execute_returns hstores query)).bind fun hits => takes_pure _) n hn d hd
    | «export» => exact takes_withDb ((takes_read (fun h => exportJson_returns std.float h)).bind fun json => takes_pure _)

end Daemon

/-! ## Runs -/

/-- The entries that requests create at most. -/
def Daemon.allCreations (std : StdText) (log : List (Request × Except Crash Response)) : Nat :=
  (log.map (fun e => Daemon.creations std e.1)).sum

/-- One more request creates what it creates. -/
theorem Daemon.allCreations_snoc (std : StdText) (log : List (Request × Except Crash Response)) (e : Request × Except Crash Response) :
    allCreations std (log ++ [e]) = allCreations std log + creations std e.1 := by
  simp [allCreations]

/-- Requests, one after the other, while there are ids for what they create. -/
theorem Sequential.within {std : StdText} {d₀ d : Daemon} {log : List (Request × Except Crash Response)} (h : Sequential std d₀ log d)
    {n : Nat} (h0 : d₀.Within n) (hids : n + Daemon.allCreations std log < 2 ^ 64) :
    d.Within (n + Daemon.allCreations std log) ∧ ∀ e ∈ log, e.2 ≠ .error .panicked := by
  have hmore : ∀ {log : List (Request × Except Crash Response)} {e : Request × Except Crash Response},
      (∀ e' ∈ log, e'.2 ≠ .error .panicked) → e.2 ≠ .error .panicked → ∀ e' ∈ log ++ [e], e'.2 ≠ .error .panicked := by
    intro log e hlog he e' he'
    rcases List.mem_append.mp he' with he' | he'
    · exact hlog e' he'
    · exact List.mem_singleton.mp he' ▸ he
  induction h with
  | nil => exact ⟨h0, nofun⟩
  | counters stats _ ih => exact ih hids
  | @answered log d d' request response uptimeSec _ hanswer ih =>
    rw [Daemon.allCreations_snoc] at hids ⊢
    dsimp only at hids ⊢
    obtain ⟨hwithin, hlog⟩ := ih (by omega)
    have htakes := @Daemon.takes_answer std uptimeSec request _ (by omega) d hwithin
    rw [hanswer] at htakes
    rw [← Nat.add_assoc]
    exact ⟨htakes, hmore hlog nofun⟩
  | @crashed log d d' request crash uptimeSec _ hanswer ih =>
    rw [Daemon.allCreations_snoc] at hids ⊢
    dsimp only at hids ⊢
    obtain ⟨hwithin, hlog⟩ := ih (by omega)
    have htakes := @Daemon.takes_answer std uptimeSec request _ (by omega) d hwithin
    rw [hanswer] at htakes
    obtain ⟨rfl, hwithin'⟩ := htakes
    rw [← Nat.add_assoc]
    exact ⟨hwithin', hmore hlog nofun⟩

namespace Server

variable {std : StdText} {serde : Serde} {d₀ : Daemon} {s : Server}

/-- The entries that the requests create at most that have been answered. -/
def creations (std : StdText) (s : Server) : Nat := Daemon.allCreations std s.outcomes

/-- In every run, whatever the clients send, in whatever order the threads take their steps, and whichever file operations fail: as
long as the entries that the answered requests create at most do not come to the end of the ids, no thread has panicked, the mutex is
not poisoned, and the rows are those of a graph whose next id has grown by no more than that. A request is answered, unless the process
is killed. -/
theorem never_panics {acts : List Act} (hrun : Run (step std serde) (fun _ _ => True) (start d₀) acts s) {n : Nat} (h0 : d₀.Within n)
    (hids : n + s.creations std < 2 ^ 64) :
    s.daemon.Within (n + s.creations std) ∧ (∀ e ∈ s.served, e.outcome ≠ .error .panicked) ∧
      ∀ (i : Nat) (c : Connection), s.connections[i]? = some c → c.phase ≠ .ended (some .panicked) := by
  have hlinear := linear_run hrun
  obtain ⟨hwithin, hlog⟩ := hlinear.sequential.within h0 hids
  have hserved : ∀ e ∈ s.served, e.outcome ≠ .error .panicked := fun e he => hlog _ (List.mem_map_of_mem he)
  refine ⟨hwithin, hserved, ?_⟩
  intro i c hc hphase
  -- the thread would have ended at a request that is among the answered ones
  have hfollows := (hlinear.connections i c hc).follows
  simp only [Connection.Follows, hphase] at hfollows
  obtain ⟨⟨answered, request, hrequests, -⟩, -⟩ := hfollows
  have hmem : (request, Except.error Crash.panicked) ∈ s.servedOn i := hrequests ▸ List.mem_append_right _ List.mem_cons_self
  obtain ⟨e, he, hsame⟩ := List.mem_map.mp hmem
  exact hserved e (List.mem_filter.mp he).1 (congrArg Prod.snd hsame)

/-- Clients make a directory in a new database and list its root. -/
theorem never_panics_mkdir : ∃ s, runAll (step Daemon.noText mkdirSerde) (start Daemon.newDaemon) mkdirRun = some s ∧
    s.outcomes = mkdirOutcomes ∧ s.daemon.poisoned = false ∧ (∀ e ∈ s.served, e.outcome ≠ .error .panicked) ∧
    s.daemon.disk.storage.database.Within 3 := by
  obtain ⟨s, c, hs, hc, houtcomes, -⟩ := mkdirRun_leads
  have hcreations : s.creations Daemon.noText = 1 := by
    rw [creations, houtcomes]
    decide +kernel
  obtain ⟨hwithin, hserved, -⟩ := never_panics (n := 2) (Run.of_runAll (fun _ _ _ => trivial) hs) ⟨rfl, within_opened⟩
    (by rw [hcreations]; decide)
  rw [hcreations] at hwithin
  exact ⟨s, hs, houtcomes, hwithin.1, hserved, hwithin.2⟩

end Server
end AlefsDb
