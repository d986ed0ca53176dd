import AlefsDb.Lemmas.AlikeReads
import AlefsDb.Theorems.Exports
import AlefsDb.Theorems.Panics

/-!
# What clients cannot tell apart

Only what is at its paths is seen of a database: daemons on databases that show the same at every path give the same answers to all
requests, whatever led to the databases (`same_reads_same_answers`). So a database that is restored from its export is not told apart
from the one that was exported (`restored_same_answers`).
-/

namespace AlefsDb

open Rust

/-! ## Databases -/

namespace Database

/-- The graphs are alike, and the next ids are at most a bound. -/
def Alike (n : Nat) (db db' : Database) : Prop :=
  ∃ G G' next next', Stores db.store.map G next ∧ Stores db'.store.map G' next' ∧ G.Alike G' ∧ G.Segments ValidSegment ∧
    next.toNat ≤ n ∧ next'.toNat ≤ n

theorem Alike.mono {n m : Nat} {db db' : Database} (h : Alike n db db') (hnm : n ≤ m) : Alike m db db' := by
  obtain ⟨G, G', next, next', hstores, hstores', hG, hsegments, hle, hle'⟩ := h
  exact ⟨G, G', next, next', hstores, hstores', hG, hsegments, hle.trans hnm, hle'.trans hnm⟩

/-- The same end, at databases that are alike. -/
inductive AlikeEnd (n : Nat) :
    EStateM.Result (Failure NsError) Database Unit → EStateM.Result (Failure NsError) Database Unit → Prop where
  | ok {db db' : Database} : Alike n db db' → AlikeEnd n (.ok () db) (.ok () db')
  | error (e : NsError) {db db' : Database} : Alike n db db' → AlikeEnd n (.error (.err e) db) (.error (.err e) db')

/-- On databases that are alike, while so many ids are left, a computation comes to the same end, and to databases that are alike. -/
def Mirrors (k : Nat) (x : DbM Unit) : Prop :=
  ∀ n, n + k < 2 ^ 64 → ∀ db db', Alike n db db' → AlikeEnd (n + k) (x db) (x db')

theorem mirrors_pure : Mirrors 0 (pure ()) := fun _ _ _ _ h => .ok h

/-- What is done alike one after the other is done alike. -/
theorem Mirrors.bind {k l : Nat} {x y : DbM Unit} (hx : Mirrors k x) (hy : Mirrors l y) : Mirrors (k + l) (do x; y) := by
  intro n hn db db' h
  have hfirst := hx n (by omega) db db' h
  generalize hr : x db = r at hfirst
  generalize hr' : x db' = r' at hfirst
  cases hfirst with
  | ok h₁ =>
    rw [bind_of_ok hr, bind_of_ok hr', ← Nat.add_assoc]
    exact hy (n + k) (by omega) _ _ h₁
  | error e h₁ =>
    rw [bind_of_error hr, bind_of_error hr']
    exact .error e (h₁.mono (by omega))

/-- The changes of two plans that are alike. -/
theorem alikeEnd_outcome {n : Nat} {db db' : Database} {G G' : Graph} {next next' : UInt64} (hstores : Stores db.store.map G next)
    (hstores' : Stores db'.store.map G' next') (hG : G.Alike G') (hsegments : G.Segments ValidSegment) (hle : next.toNat ≤ n)
    (hle' : next'.toNat ≤ n) {plan plan' : Rust NsError Change} (hplans : Related Graph.AlikeChange plan plan')
    (hreturns : Returns plan) (hfits : ∀ c, plan = .ok c → c.Fits G next ∧ ∀ p, c.path = some p → ∀ s ∈ p, ValidSegment s)
    (hfits' : ∀ c, plan' = .ok c → c.Fits G' next') : AlikeEnd (n + 1) (db.outcome next plan) (db'.outcome next' plan') := by
  cases hplans with
  | ok hc =>
    obtain ⟨hfit, hpath⟩ := hfits _ rfl
    have hfit' := hfits' _ rfl
    exact .ok ⟨_, _, _, _, hstores.change hfit, hstores'.change hfit', hG.change hc, hsegments.change hfit hpath,
      hfit.nextId_le.trans (by omega), hfit'.nextId_le.trans (by omega)⟩
  | error e =>
    obtain ⟨e', rfl⟩ := refusal_of_returns hreturns rfl
    exact .error e' ⟨G, G', next, next', hstores, hstores', hG, hsegments, by omega, by omega⟩

/-- A method does alike on databases that are alike. -/
theorem mirrors_call (op : TxnOp) : Mirrors 1 (call op) := by
  rintro n hn db db' ⟨G, G', next, next', hstores, hstores', hG, hsegments, hle, hle'⟩
  rw [call_eq hstores, call_eq hstores']
  refine alikeEnd_outcome hstores hstores' hG hsegments hle hle' (hG.plan (by omega) (by omega) op) (Graph.plan_returns (by omega) op)
    (fun c hc => ⟨Graph.plan_fits hstores.wf hc, fun p hp => ?_⟩) (fun c hc => Graph.plan_fits hstores'.wf hc)
  rw [Graph.plan_path hc hp]
  exact op.path.valid

theorem mirrors_callAll (ops : List TxnOp) : Mirrors ops.length (callAll ops) := by
  induction ops with
  | nil => exact mirrors_pure
  | cons op ops ih =>
    rw [List.length_cons, Nat.add_comm]
    exact (mirrors_call op).bind ih

theorem mirrors_applyTxn (ops : List TxnOp) : Mirrors ops.length (applyTxn ops) := by
  intro n hn db db' h
  have hall := mirrors_callAll ops n hn db db' h
  have h₀ := h.mono (Nat.le_add_right n ops.length)
  obtain ⟨G, G', next, next', hstores, hstores', -⟩ := h
  rw [applyTxn_eq hstores, applyTxn_eq hstores']
  generalize callAll ops db = r at hall
  generalize callAll ops db' = r' at hall
  cases hall with
  | ok h₁ => exact .ok h₁
  | error e _ => exact .error e h₀

/-- A step of an import does the same on both. -/
theorem mirrors_step {step : Json.ImportStep} (hgoes : step.Goes) : Mirrors 1 step.run := by
  rintro n hn db db' ⟨G, G', next, next', hstores, hstores', hG, hsegments, hle, hle'⟩
  have hplans : Related Graph.AlikeChange (step.plan G next) (step.plan G' next') := by
    cases step with
    | dir path atRoot =>
      simp only [Json.ImportStep.plan, hG.isSome]
      split
      · exact .ok .nothing
      · exact hG.planMkdir (by omega) (by omega) path
    | set path v => exact hG.planSet (by omega) (by omega) path v
    | stop e => exact .error e
  rw [Json.run_eq hstores, Json.run_eq hstores']
  exact alikeEnd_outcome hstores hstores' hG hsegments hle hle' hplans (Json.ImportStep.plan_returns (by omega) hgoes)
    (fun c hc => ⟨Json.plan_fits hc, fun p hp => Json.ImportStep.plan_path hc hp⟩) (fun c hc => Json.plan_fits hc)

/-- The steps of an import do alike on databases that are alike. -/
theorem mirrors_runSteps {steps : List Json.ImportStep} (hgo : ∀ step ∈ steps, step.Goes) :
    Mirrors steps.length (Json.runSteps steps) := by
  induction steps with
  | nil => exact mirrors_pure
  | cons step steps ih =>
    rw [List.length_cons, Nat.add_comm]
    exact (mirrors_step (hgo step List.mem_cons_self)).bind (ih (fun s hs => hgo s (List.mem_cons_of_mem _ hs)))

/-- An update does the same on both. -/
theorem mirrors_update (u : Update) : Mirrors u.creations u.run := by
  cases u with
  | call op => exact mirrors_call op
  | applyTxn ops => exact mirrors_applyTxn ops
  | importJson json =>
    change Mirrors _ (Json.importJson json)
    rw [Json.importJson_eq]
    exact mirrors_runSteps (Json.importSteps_go json)

end Database

/-! ## Copies -/

namespace Json

open Database Query

variable {G G' : Graph} {next next' : UInt64}

/-- A step of an import creates one entry at most. -/
theorem StepDone.nextId_le {step : ImportStep} (h : StepDone G next step G' next') : next'.toNat ≤ next.toNat + 1 := by
  have hsucc : (next + 1).toNat ≤ next.toNat + 1 := by
    rw [UInt64.toNat_add]
    exact Nat.mod_le _ _
  cases h with
  | skip | again => exact Nat.le_succ _
  | dir | new => exact hsucc

/-- Steps take one id each at most. -/
theorem planSteps_nextId_le {steps : List ImportStep} (h : planSteps steps G next = .ok (G', next')) :
    next'.toNat ≤ next.toNat + steps.length := by
  induction steps generalizing G next with
  | nil =>
    cases h
    exact Nat.le_refl _
  | cons step steps ih =>
    obtain ⟨G₁, next₁, hstep, hrest⟩ := planSteps_cons h
    have hfirst := hstep.nextId_le
    have hlast := ih hrest
    rw [List.length_cons]
    omega

/-- A copy has no greater next id than what it has been made of. -/
theorem copy_within {floatText : UInt64 → List Char} {db db' : Database} {n : Nat} {text : String} (h : Stores db.store.map G next)
    (hsegments : ParsedSegments G) (hpositive : Positive G) (hfloat : FloatFree db) (hle : next.toNat ≤ n)
    (hexport : exportJson floatText db = .ok text) (himport : importJson text opened = .ok () db') : db'.Within n := by
  rcases @export_cases floatText _ _ _ h hsegments hfloat with ⟨e, herror, -⟩ | ⟨text', entries, hok, hsteps, hcovers⟩
  · rw [hexport] at herror
    cases herror
  rw [hexport] at hok
  cases hok
  obtain ⟨G', next', hplan, hstores'⟩ := planSteps_of_import opened_stores himport
  refine ⟨G', next', hstores', ?_⟩
  rw [hsteps, planSteps_dir_root] at hplan
  have hsteps_le := planSteps_nextId_le hplan
  have htwo : (2 : UInt64).toNat = 2 := rfl
  -- the root and the entries are paths that are there
  have hlt : (([] : List String) :: entries.map (fun c => c.1.segments)).length < next.toNat := by
    refine hpositive.length_lt h.wf (List.nodup_cons.mpr ⟨fun hmem => ((hcovers.paths.mem []).mp hmem).1 rfl, hcovers.paths.nodup⟩) ?_
    intro p hp
    rcases List.mem_cons.mp hp with rfl | hp
    · exact ⟨_, h.wf.root⟩
    · exact ((hcovers.paths.mem p).mp hp).2
  rw [List.length_cons, List.length_map] at hlt
  rw [List.length_map, htwo] at hsteps_le
  omega

end Json

/-! ## Daemons -/

namespace Daemon

open Database RequestM

variable {std : StdText}

/-- Two daemons on databases that are alike, whose counters are the same. -/
structure Alike (n : Nat) (s s' : Daemon) : Prop where
  free : s.poisoned = false
  free' : s'.poisoned = false
  script : s.disk.script = []
  script' : s'.disk.script = []
  stats : s.stats = s'.stats
  databases : s.disk.storage.database.Alike n s'.disk.storage.database

/-- The query does not ask for a type whose name has a slash. -/
def SlashFree (request : Request) : Prop :=
  ∀ query expr t, request = .query query → Query.parseQuery query = .ok expr → Query.requiredConcreteType expr = some t → 47 ∉ utf8 t

/-- The same answer, at daemons that are alike. -/
def AnswersAlike (n : Nat) (r r' : EStateM.Result Crash Daemon Response) : Prop :=
  ∃ response t t', r = .ok response t ∧ r' = .ok response t' ∧ Alike n t t'

/-- An update is answered alike. -/
theorem answersAlike_update {n : Nat} {s s' : Daemon} (h : Alike n s s') (uptimeSec : UInt64) {request : Request} {u : Update}
    (hupdate : toUpdate std request = some (.ok u)) (hids : n + u.creations < 2 ^ 64) :
    AnswersAlike (n + u.creations) (answer std uptimeSec request s) (answer std uptimeSec request s') := by
  obtain ⟨disk, hdb, hscript, hanswer⟩ := answer_updates h.free h.script uptimeSec hupdate
  obtain ⟨disk', hdb', hscript', hanswer'⟩ := answer_updates h.free' h.script' uptimeSec hupdate
  have hend := mirrors_update u n hids _ _ h.databases
  rw [hanswer, hanswer']
  generalize u.run s.disk.storage.database = r at hend hdb ⊢
  generalize u.run s'.disk.storage.database = r' at hend hdb' ⊢
  cases hend with
  | ok halike => exact ⟨_, _, _, rfl, rfl, rfl, rfl, hscript, hscript', h.stats, by rw [hdb, hdb']; exact halike⟩
  | error e halike => exact ⟨_, _, _, rfl, rfl, rfl, rfl, hscript, hscript', h.stats, by rw [hdb, hdb']; exact halike⟩

/-- What only reads, and reads the same in both databases. -/
theorem answersAlike_reading {n : Nat} (hn : n < 2 ^ 64) {s s' : Daemon} (h : Alike n s s') (uptimeSec : UInt64) {request : Request}
    (hnone : toUpdate std request = none) {X : Database → Rust String Response} (hreading : reading std request = some X)
    (hX : X s.disk.storage.database = X s'.disk.storage.database) :
    AnswersAlike n (answer std uptimeSec request s) (answer std uptimeSec request s') := by
  obtain ⟨G, G', next, next', hstores, hstores', hG, hsegments, hle, hle'⟩ := id h.databases
  have htakes := @takes_answer std uptimeSec request n (by rw [creations, hnone]; exact hn) s ⟨h.free, G, next, hstores, hle⟩
  rw [answer_reading h.free uptimeSec hreading] at htakes ⊢
  rw [answer_reading h.free' uptimeSec hreading, ← hX]
  generalize X s.disk.storage.database = x at htakes ⊢
  cases x with
  | ok response => exact ⟨response, s, s', rfl, rfl, h⟩
  | error e =>
    cases e with
    | err m => exact ⟨.err m, s, s', rfl, rfl, h⟩
    | panic | outOfFuel => cases htakes.1

/-- Every request is answered alike. -/
theorem answer_alike {n : Nat} {s s' : Daemon} (h : Alike n s s') (uptimeSec : UInt64) {request : Request} (hslash : SlashFree request)
    (hids : n + creations std request < 2 ^ 64) :
    AnswersAlike (n + creations std request) (answer std uptimeSec request s) (answer std uptimeSec request s') := by
  cases hupdate : toUpdate std request with
  | some conversion =>
    rcases toUpdate_returns std hupdate with ⟨u, rfl⟩ | ⟨m, rfl⟩
    · rw [creations, hupdate] at hids ⊢
      exact answersAlike_update h uptimeSec hupdate hids
    · rw [creations, hupdate] at hids ⊢
      exact ⟨_, _, _, answer_refused h.free uptimeSec hupdate, answer_refused h.free' uptimeSec hupdate, h⟩
  | none =>
    rw [creations, hupdate] at hids ⊢
    obtain ⟨G, G', next, next', hstores, hstores', hG, hsegments, -, -⟩ := id h.databases
    cases request with
    | batch ops | «import» json | mkdir path | set path ty value | rm path | hset path key ty value | lpush path ty value
      | sadd path ty value | tset path key ty value => cases hupdate
    | ping => exact ⟨_, _, _, rfl, rfl, h⟩
    | stats =>
      refine ⟨_, _, _, rfl, ?_, h⟩
      have hsize : s'.disk.storage.map.size = s.disk.storage.map.size := (hstores.size_eq hstores' hG).symm
      simp only [answer, statsResponse, h.free, h.free', h.stats, hsize]
    | compact =>
      obtain ⟨disk, hdb, hscript, hanswer⟩ := answer_compact h.free h.script uptimeSec
      obtain ⟨disk', hdb', hscript', hanswer'⟩ := answer_compact h.free' h.script' uptimeSec
      exact ⟨_, _, _, hanswer, hanswer', rfl, rfl, hscript, hscript', h.stats, by rw [hdb, hdb']; exact h.databases⟩
    | get path =>
      refine answersAlike_reading hids h uptimeSec hupdate rfl ?_
      simp only [get_alike hstores hstores' hG]
    | ls path =>
      refine answersAlike_reading hids h uptimeSec hupdate rfl ?_
      simp only [list_alike hstores hstores' hG]
    | query query =>
      have hsame := execute_alike hstores hstores' hG hsegments (hG.segments hsegments) (fun expr t => hslash query expr t rfl)
      refine answersAlike_reading hids h uptimeSec hupdate rfl ?_
      rw [hsame]
    | «export» =>
      refine answersAlike_reading hids h uptimeSec hupdate rfl ?_
      rw [exportJson_alike hstores hstores' hG]

/-- A request that is counted is answered alike. -/
theorem dispatch_alike {n : Nat} {s s' : Daemon} (h : Alike n s s') (uptimeSec : UInt64) {request : Request}
    (hslash : SlashFree request) (hids : n + creations std request < 2 ^ 64) :
    AnswersAlike (n + creations std request) (dispatchWithStats std uptimeSec request s)
      (dispatchWithStats std uptimeSec request s') :=
  have hcounted : Alike n { s with stats := countKind request s.stats } { s' with stats := countKind request s'.stats } :=
    ⟨h.free, h.free', h.script, h.script', by rw [h.stats], h.databases⟩
  answer_alike hcounted uptimeSec hslash hids

/-! ### Requests one after the other -/

/-- Requests, one after the other, each when the daemon has been up for some time. -/
def dispatchAll (std : StdText) : List (UInt64 × Request) → DaemonM (List Response)
  | [] => return []
  | (uptimeSec, request) :: requests => do
    let response ← dispatchWithStats std uptimeSec request
    let responses ← dispatchAll std requests
    return response :: responses

/-- The entries that requests create at most. -/
def dispatchCreations (std : StdText) (requests : List (UInt64 × Request)) : Nat := (requests.map (fun r => creations std r.2)).sum

/-- Requests, one after the other, are answered alike. -/
theorem dispatchAll_alike {n : Nat} {s s' : Daemon} (h : Alike n s s') {requests : List (UInt64 × Request)}
    (hslash : ∀ r ∈ requests, SlashFree r.2) (hids : n + dispatchCreations std requests < 2 ^ 64) :
    ∃ responses t t', dispatchAll std requests s = .ok responses t ∧ dispatchAll std requests s' = .ok responses t' ∧
      Alike (n + dispatchCreations std requests) t t' := by
  induction requests generalizing n s s' with
  | nil => exact ⟨[], s, s', rfl, rfl, h⟩
  | cons r requests ih =>
    obtain ⟨uptimeSec, request⟩ := r
    have hcreations : dispatchCreations std ((uptimeSec, request) :: requests) =
        creations std request + dispatchCreations std requests := by
      simp [dispatchCreations]
    rw [hcreations, ← Nat.add_assoc] at hids ⊢
    have hslash₁ : SlashFree request := hslash _ List.mem_cons_self
    have hids₁ : n + creations std request < 2 ^ 64 := by omega
    obtain ⟨response, s₁, s₁', hfirst, hfirst', h₁⟩ := dispatch_alike h uptimeSec hslash₁ hids₁
    obtain ⟨responses, t, t', hrest, hrest', ht⟩ := ih h₁ (fun r hr => hslash r (List.mem_cons_of_mem _ hr)) hids
    refine ⟨response :: responses, t, t', ?_, ?_, ht⟩
    · exact (bind_of_ok hfirst _).trans (bind_of_ok hrest _)
    · exact (bind_of_ok hfirst' _).trans (bind_of_ok hrest' _)

/-! ## What is at the paths -/

/-- A node that is there is not missing. -/
theorem entryOf_ne_notFound (path : DbPath) (a : Node) : entryOf path a ≠ err (.notFound path.asStr) := by
  cases a with
  | dir => nofun
  | value v =>
    simp only [entryOf, decodeNode]
    cases hr : Codec.decode (Codec.encode v) with
    | ok w => simp
    | error e =>
      intro he
      cases e <;> cases he

/-- What one of the graphs has is there in the other, where the same is read. -/
theorem alikeAt_of_get {db db' : Database} {G G' : Graph} {next next' : UInt64} (h : Stores db.store.map G next)
    (h' : Stores db'.store.map G' next') (hdecode : Query.ValuesDecode db) {path : DbPath} (hget : db.get path = db'.get path) :
    Graph.AlikeAt (G path.segments) (G' path.segments) := by
  have hread := get_eq h path
  rcases G.cases_at path.segments with hp | ⟨i, hp⟩ | ⟨i, v, hp⟩
  · rw [hp, hget, get_eq h' path] at hread
    rw [hp]
    cases hp' : G' path.segments with
    | none => exact .nothing
    | some x =>
      rw [hp'] at hread
      exact absurd hread (entryOf_ne_notFound path x.2)
  · rw [hp, hget] at hread
    rcases Json.shown_cases h' (show Query.Shown db' (path, .directory, none) from hread) with ⟨-, j, hp'⟩ | ⟨j, w, u, hu, -⟩
    · rw [hp, hp']
      exact .dir i j
    · cases hu
  · obtain ⟨w, hw⟩ := hdecode i _ (h.get_node hp)
    have hw' : decodeNode (Codec.encode v) = .ok w := by rw [decodeNode, hw]; rfl
    rw [hp, hget] at hread
    simp only [entryOf, hw', Rust.ok_bind, Rust.pure_eq_ok] at hread
    rcases Json.shown_cases h' (show Query.Shown db' (path, .value, some w) from hread) with ⟨hnone, -⟩ | ⟨j, v', u, hu, hp', hv'⟩
    · cases hnone
    · cases hu
      have hu' : decodeNode (Codec.encode v') = .ok w := by rw [decodeNode, hv']; rfl
      rw [hp, hp']
      exact .value i j ⟨(typename_of_decodeNode hw').symm.trans (typename_of_decodeNode hu'), hw'.trans hu'.symm⟩

/-- Graphs are alike where the same is read at every path, and the values are decoded. -/
theorem alike_of_reads {db db' : Database} {G G' : Graph} {next next' : UInt64} (h : Stores db.store.map G next)
    (h' : Stores db'.store.map G' next') (hsegments : G.Segments ValidSegment) (hsegments' : G'.Segments ValidSegment)
    (hdecode : Query.ValuesDecode db) (hsame : ∀ path, db.get path = db'.get path) : G.Alike G' := by
  intro p
  by_cases hvalid : ∀ s ∈ p, ValidSegment s
  · exact alikeAt_of_get h h' hdecode (hsame ⟨p, hvalid⟩)
  · -- nothing is at such a path
    have hnothing : ∀ {H : Graph}, H.Segments ValidSegment → H p = none := by
      intro H hH
      cases hp : H p with
      | none => rfl
      | some x => exact absurd (hH p x hp) hvalid
    rw [hnothing hsegments, hnothing hsegments']
    exact .nothing

/-- A database has one next id. -/
theorem alike_nextId {db : Database} {G G' : Graph} {next next' : UInt64} (h : Stores db.store.map G next)
    (h' : Stores db.store.map G' next') : next = next' :=
  encodeId_injective (Option.some.inj (h.get_nextId.symm.trans h'.get_nextId))

/-- Nothing keeps a daemon from serving: its mutex is not poisoned, its file operations do not fail, and updates have led to its
database, whose next id is at most a bound. -/
structure Serving (n : Nat) (s : Daemon) : Prop where
  free : s.poisoned = false
  script : s.disk.script = []
  updated : Updated s.disk.storage.database
  within : s.disk.storage.database.Within n

/-- Daemons that serve databases that read alike are alike. -/
theorem Serving.alike {n : Nat} {s s' : Daemon} (h : Serving n s) (h' : Serving n s') (hstats : s.stats = s'.stats)
    (hdecode : Query.ValuesDecode s.disk.storage.database)
    (hsame : ∀ path, s.disk.storage.database.get path = s'.disk.storage.database.get path) : Alike n s s' := by
  obtain ⟨G, next, hstores, hsegments⟩ := h.updated.segments
  obtain ⟨G', next', hstores', hsegments'⟩ := h'.updated.segments
  obtain ⟨G₁, next₁, hstores₁, hle⟩ := h.within
  obtain ⟨G₁', next₁', hstores₁', hle'⟩ := h'.within
  obtain rfl := alike_nextId hstores hstores₁
  obtain rfl := alike_nextId hstores' hstores₁'
  exact ⟨h.free, h'.free, h.script, h'.script, hstats, G, G', next, next', hstores, hstores',
    alike_of_reads hstores hstores' hsegments hsegments' hdecode hsame, hsegments, hle, hle'⟩

/-- A directory that is made, removed and made again. -/
def gapCommands : List Command := [.call (.mkdir pathA), .call (.delete pathA), .call (.mkdir pathA)]

theorem gapCommands_parsed : ∀ c ∈ gapCommands, c.Parsed := by
  intro c hc op hop
  have hparsed : ∃ text, DbPath.parse text = .ok pathA := ⟨"/a", by decide +kernel⟩
  simp only [gapCommands, List.mem_cons, List.not_mem_nil, or_false] at hc
  rcases hc with rfl | rfl | rfl <;> exact List.mem_singleton.mp hop ▸ hparsed

/-- The database has no values, and the next id is the fourth. -/
theorem gap_reads : ∃ db, runAll Database.step opened gapCommands = some db ∧ Reached Command.Parsed db ∧ db.Within 4 ∧
    Json.FloatFree db ∧ Query.ValuesDecode db ∧ Json.PlainTreeKeys db := by
  have hreached : Reached Command.Parsed _ := ⟨gapCommands, Run.of_runAll (fun _ => gapCommands_parsed) rfl⟩
  have hreads : ∀ {path kind w}, Database.get _ path = .ok { path := path, kind := kind, value := some w } → w = .scalar .null :=
    fun hget => Json.reads_of_rows hreached (by decide +kernel) hget
  refine ⟨_, rfl, hreached, ?_, ?_, Query.valuesDecode_of_entries (by decide +kernel), ?_⟩
  · obtain ⟨G, next, h⟩ := hreached.stores
    have hnext : some (encodeId 4) = some (encodeId next) := Eq.trans (by decide +kernel) h.get_nextId
    obtain rfl : (4 : UInt64) = next := encodeId_injective (Option.some.inj hnext)
    exact ⟨G, 4, h, Nat.le_refl 4⟩
  · intro path kind w hget
    obtain rfl := hreads hget
    exact Value.everywhere_scalar trivial
  · intro path kind w hget
    obtain rfl := hreads hget
    exact Value.everywhere_scalar trivial

/-- What an import into a new database leads to. -/
theorem restored_updated {text : String} {db' : Database} (h : Json.importJson text opened = .ok () db') : Updated db' := by
  have hleft := updated_opened.left (.importJson text)
  rwa [show (Update.importJson text).run opened = .ok () db' from h] at hleft

/-- Clients see no more of a database than what is at its paths. Where two daemons have the same counters and on their databases the
same is read at every path, with all values decoded, all requests are given the same responses by both, while there are ids left and no
query asks for a type whose name has a slash; and after them the same is still read at every path. -/
theorem same_reads_same_answers {n : Nat} {s s' : Daemon} (h : Serving n s) (h' : Serving n s') (hstats : s.stats = s'.stats)
    (hdecode : Query.ValuesDecode s.disk.storage.database)
    (hsame : ∀ path, s.disk.storage.database.get path = s'.disk.storage.database.get path) {requests : List (UInt64 × Request)}
    (hslash : ∀ r ∈ requests, SlashFree r.2) (hids : n + dispatchCreations std requests < 2 ^ 64) :
    ∃ responses t t', dispatchAll std requests s = .ok responses t ∧ dispatchAll std requests s' = .ok responses t' ∧
      ∀ path, t.disk.storage.database.get path = t'.disk.storage.database.get path := by
  obtain ⟨responses, t, t', ht, ht', halike⟩ := dispatchAll_alike (h.alike h' hstats hdecode hsame) hslash hids
  obtain ⟨G, G', next, next', hstores, hstores', hG, -⟩ := halike.databases
  exact ⟨responses, t, t', ht, ht', get_alike hstores hstores' hG⟩

/-- The database and its copy. -/
theorem same_reads_same_answers_gap : ∃ db text db', runAll Database.step opened gapCommands = some db ∧
    Json.importJson text opened = .ok () db' ∧ ∃ responses t t',
      dispatchAll noText [(0, .mkdir "/a/x"), (1, .export)] (onDatabase db) = .ok responses t ∧
      dispatchAll noText [(0, .mkdir "/a/x"), (1, .export)] (onDatabase db') = .ok responses t' := by
  obtain ⟨db, hrun, hreached, hwithin, hfloat, hdecode, hplain⟩ := gap_reads
  obtain ⟨G, next, hstores, hsegments, hpositive⟩ := Json.reached_positive hreached
  obtain ⟨text, db', hexport, himport, hsame⟩ : Json.RoundTrips noText.float db :=
    Json.roundTrips_of_reads hstores hsegments hpositive hfloat hdecode hplain
  obtain ⟨G₁, next₁, hstores₁, hle⟩ := id hwithin
  obtain rfl := alike_nextId hstores hstores₁
  have hserving : Serving 4 (onDatabase db) := ⟨rfl, rfl, hreached.updated, hwithin⟩
  have hserving' : Serving 4 (onDatabase db') :=
    ⟨rfl, rfl, restored_updated himport, Json.copy_within hstores hsegments hpositive hfloat hle hexport himport⟩
  have hslash : ∀ r ∈ [((0 : UInt64), Request.mkdir "/a/x"), (1, .export)], SlashFree r.2 := by
    intro r hr query expr ty hquery
    simp only [List.mem_cons, List.not_mem_nil, or_false] at hr
    rcases hr with rfl | rfl <;> cases hquery
  have hids : 4 + dispatchCreations noText [(0, .mkdir "/a/x"), (1, .export)] < 2 ^ 64 := by decide +kernel
  obtain ⟨responses, t, t', ht, ht', -⟩ :=
    same_reads_same_answers hserving hserving' rfl hdecode (fun path => (hsame path).symm) hslash hids
  exact ⟨db, text, db', hrun, himport, responses, t, t', ht, ht'⟩

/-- An export is answered with its text. -/
theorem dispatch_export {s : Daemon} (hfree : s.poisoned = false) (uptimeSec : UInt64) {text : String}
    (h : Json.exportJson std.float s.disk.storage.database = .ok text) :
    dispatchWithStats std uptimeSec Request.export s = .ok (.export text) s := by
  have hreading : reading std .export = some _ := rfl
  refine (answer_reading (s := s) hfree uptimeSec hreading).trans ?_
  rw [h]
  rfl

/-- A request for an export is answered with a text, which leaves the daemon as it was. A daemon on a new database imports the text, and
from then on gives the same responses, once it has the same counters. -/
def RestoresAs (std : StdText) (n : Nat) (s : Daemon) : Prop :=
  ∀ up, ∃ text, dispatchWithStats std up Request.export s = .ok (.export text) s ∧
    ∀ s' : Daemon, s'.poisoned = false → s'.disk.script = [] → s'.disk.storage.database = opened → ∀ up', ∃ s₂,
      dispatchWithStats std up' (.import text) s' = .ok (.ok "ok imported") s₂ ∧
      ∀ requests : List (UInt64 × Request), (∀ r ∈ requests, SlashFree r.2) → n + dispatchCreations std requests < 2 ^ 64 →
        ∃ responses t t', dispatchAll std requests s = .ok responses t ∧
          dispatchAll std requests { s₂ with stats := s.stats } = .ok responses t'

/-- A database that is restored from its export is not told apart from the one that was exported. While no file operation fails: where
a daemon is on a database that commands on parsed paths lead to, whose values are all decoded and hold no float, and no string key of a
tree looks like another scalar, it answers an export with a text; a daemon on a new database imports it; and then both give the same
responses to all requests. -/
theorem restored_same_answers {n : Nat} {s : Daemon} (hfree : s.poisoned = false) (hscript : s.disk.script = [])
    (hreached : Reached Command.Parsed s.disk.storage.database) (hwithin : s.disk.storage.database.Within n)
    (hfloat : Json.FloatFree s.disk.storage.database) (hdecode : Query.ValuesDecode s.disk.storage.database)
    (hplain : Json.PlainTreeKeys s.disk.storage.database) : RestoresAs std n s := by
  intro up
  obtain ⟨G, next, hstores, hsegments, hpositive⟩ := Json.reached_positive hreached
  obtain ⟨text, db', hexport, himport, hsame⟩ : Json.RoundTrips std.float s.disk.storage.database :=
    Json.roundTrips_of_reads hstores hsegments hpositive hfloat hdecode hplain
  refine ⟨text, dispatch_export hfree up hexport, fun s' hfree' hscript' hopened up' => ?_⟩
  have hupdate : toUpdate std (.import text) = some (.ok (.importJson text)) := rfl
  obtain ⟨disk, hdb, hscript₂, hdispatch⟩ := dispatch_update hfree' hscript' up' hupdate
  have hrun : (Update.importJson text).run s'.disk.storage.database = .ok () db' := by
    rw [hopened]
    exact himport
  rw [hrun] at hdb hdispatch
  refine ⟨_, hdispatch, fun requests hslash hids => ?_⟩
  obtain ⟨G₁, next₁, hstores₁, hle⟩ := id hwithin
  obtain rfl := alike_nextId hstores hstores₁
  have hserving : Serving n s := ⟨hfree, hscript, hreached.updated, hwithin⟩
  have hserving' : Serving n { s'.counted (.import text) disk false with stats := s.stats } :=
    ⟨rfl, hscript₂, hdb ▸ restored_updated himport, hdb ▸ Json.copy_within hstores hsegments hpositive hfloat hle hexport himport⟩
  have halike := hserving.alike hserving' rfl hdecode
    (fun path => (hsame path).symm.trans (congrArg (fun db => Database.get db path) hdb.symm))
  obtain ⟨responses, t, t', ht, ht', -⟩ := dispatchAll_alike halike hslash hids
  exact ⟨responses, t, t', ht, ht'⟩

/-- A database with a gap in its ids, exported and imported, answers as before. -/
theorem restored_same_answers_gap : ∃ db, runAll Database.step opened gapCommands = some db ∧ RestoresAs noText 4 (onDatabase db) := by
  obtain ⟨db, hrun, hreached, hwithin, hfloat, hdecode, hplain⟩ := gap_reads
  exact ⟨db, hrun, restored_same_answers (s := onDatabase db) rfl rfl hreached hwithin hfloat hdecode hplain⟩

end Daemon
end AlefsDb
