import AlefsDb.Lemmas.Reads
import AlefsDb.Lemmas.Recovery

/-!
# Ids that are taken

A call panics where it takes an id and none is left. Elsewhere the commits of an update are computed, or refused, and take at most as
many ids as the update creates entries, whatever their file operations come to.
-/

namespace AlefsDb

open Rust

/-! ## Plans -/

/-- A change takes one id at most. -/
theorem Change.Fits.nextId_le {G : Graph} {next : UInt64} {c : Change} (h : c.Fits G next) :
    (c.nextId next).toNat ≤ next.toNat + 1 := by
  cases c with
  | create parent name parentId a => exact (Graph.toNat_succ h.2.2).le
  | nothing | replace p id old v | remove parent name parentId id a => exact Nat.le_succ _

/-- There is a next id as long as the ids have not come to their end. -/
theorem Database.succId_returns {next : UInt64} (h : next.toNat + 1 < 2 ^ 64) : Returns (succId next) := by
  rw [succId, if_pos h]
  exact returns_ok _

namespace Graph

variable {G : Graph} {next : UInt64}

theorem parentId_returns (G : Graph) (parent : DbPath) : Returns (G.parentId parent) := by
  unfold parentId
  split
  · exact returns_ok _
  · exact returns_err _
  · exact returns_err _

theorem planMkdir_returns (h : next.toNat + 1 < 2 ^ 64) (path : DbPath) : Returns (G.planMkdir next path) := by
  unfold planMkdir
  split
  · split
    · exact returns_err _
    · exact (parentId_returns G _).bind (fun _ _ => (Database.succId_returns h).bind (fun _ _ => returns_ok _))
  · exact returns_ok _

theorem planSet_returns (h : next.toNat + 1 < 2 ^ 64) (path : DbPath) (v : Value) : Returns (G.planSet next path v) := by
  unfold planSet
  split
  · refine (parentId_returns G _).bind (fun i _ => ?_)
    split
    · exact returns_err _
    · exact (Database.decodeNode_returns _).bind (fun _ _ => returns_ok _)
    · exact (Database.succId_returns h).bind (fun _ _ => returns_ok _)
  · exact returns_err _

theorem planDelete_returns (G : Graph) (path : DbPath) : Returns (G.planDelete path) := by
  unfold planDelete
  split
  · split
    · split
      · exact returns_err _
      · exact returns_ok _
    · exact (Database.decodeNode_returns _).bind (fun _ _ => returns_ok _)
    · exact returns_err _
  · exact returns_err _

theorem contentOr_returns (G : Graph) {α : Type} (path : DbPath) (kind : String) (content : Value → Option α) (nothing : α) :
    Returns (G.contentOr path kind content nothing) := by
  unfold contentOr
  split
  · exact returns_err _
  · exact (Database.decodeNode_returns _).bind (fun _ _ => returns_okOr _ _)
  · exact returns_ok _

/-- While there is an id left, a call does not panic. -/
theorem plan_returns (h : next.toNat + 1 < 2 ^ 64) (op : TxnOp) : Returns (G.plan next op) := by
  cases op with
  | mkdir path => exact planMkdir_returns h path
  | set path v => exact planSet_returns h path v
  | delete path => exact planDelete_returns G path
  | hashSet path key v | listPush path v | setAdd path v | treeSet path key v =>
    exact (contentOr_returns G _ _ _ _).bind (fun _ _ => planSet_returns h _ _)

end Graph

/-- A step of an import returns as long as there is a next id. -/
theorem Json.ImportStep.plan_returns {G : Graph} {next : UInt64} (h : next.toNat + 1 < 2 ^ 64) {step : ImportStep} (hgoes : step.Goes) :
    Returns (step.plan G next) := by
  cases step with
  | dir path atRoot =>
    simp only [ImportStep.plan]
    split
    · exact returns_ok _
    · exact Graph.planMkdir_returns h path
  | set path v => exact Graph.planSet_returns h path v
  | stop e =>
    obtain ⟨e', rfl⟩ := hgoes
    exact returns_err _

/-! ## Commits in memory -/

namespace Database

/-- The rows are those of a graph, and the next id is at most a bound. -/
def Within (n : Nat) (db : Database) : Prop := ∃ G next, Stores db.store.map G next ∧ next.toNat ≤ n

/-- Ids below a bound are below any larger one. -/
theorem Within.mono {n m : Nat} {db : Database} (h : db.Within n) (hnm : n ≤ m) : db.Within m := by
  obtain ⟨G, next, hstores, hle⟩ := h
  exact ⟨G, next, hstores, hle.trans hnm⟩

theorem within_opened : opened.Within 2 := ⟨_, _, opened_stores, Nat.le_refl _⟩

/-- A stop that is no panic. -/
def Refusal (e : Failure NsError) : Prop := ∃ e', e = .err e'

/-- A computation that returns fails with an error only. -/
theorem refusal_of_returns {α : Type} {x : Rust NsError α} (h : Returns x) {e : Failure NsError} (hx : x = .error e) : Refusal e := by
  subst hx
  rcases h with ⟨a, ha⟩ | ⟨e', he⟩
  · cases ha
  · exact ⟨e', Except.error.inj he⟩

/-- What leads to databases of graphs without a panic, and takes so many ids at most, while they are left. -/
def Takes (k : Nat) (x : DbM Unit) : Prop :=
  ∀ n, n + k < 2 ^ 64 → Triple (fun db => db.Within n) x (fun _ db => db.Within (n + k)) (fun e _ => Refusal e)

/-- A method takes one id at most. -/
theorem takes_call (op : TxnOp) : Takes 1 (call op) := by
  rintro n hn db ⟨G, next, hstores, hle⟩
  rcases call_cases hstores op with ⟨e, hcall, hplan⟩ | ⟨c, hcall, -, hfits, hstores'⟩
  · rw [hcall]
    exact refusal_of_returns (Graph.plan_returns (by omega) op) hplan
  · rw [hcall]
    exact ⟨_, _, hstores', hfits.nextId_le.trans (by omega)⟩

theorem takes_callAll (ops : List TxnOp) : Takes ops.length (callAll ops) := by
  induction ops with
  | nil => exact fun n _ db hdb => hdb
  | cons op ops ih =>
    intro n hn
    rw [List.length_cons] at hn ⊢
    refine Triple.bind (takes_call op n (by omega)) (fun _ => ?_)
    rw [Nat.add_comm ops.length, ← Nat.add_assoc]
    exact ih (n + 1) (by omega)

theorem takes_applyTxn (ops : List TxnOp) : Takes ops.length (applyTxn ops) := by
  intro n hn db hdb
  have hall := takes_callAll ops n hn db hdb
  obtain ⟨G, next, hstores, hle⟩ := hdb
  rw [applyTxn_eq hstores]
  cases hr : callAll ops db with
  | ok _ db' =>
    rw [hr] at hall
    exact hall
  | error e db' =>
    rw [hr] at hall
    exact hall

/-- A step of an import takes one id at most. -/
theorem takes_step {step : Json.ImportStep} (hgoes : step.Goes) : Takes 1 step.run := by
  rintro n hn db ⟨G, next, hstores, hle⟩
  rw [Json.run_eq hstores]
  cases hplan : step.plan G next with
  | error e => exact refusal_of_returns (Json.ImportStep.plan_returns (by omega) hgoes) hplan
  | ok c => exact ⟨_, _, hstores.change (Json.plan_fits hplan), (Json.plan_fits hplan).nextId_le.trans (by omega)⟩

end Database

/-- The entries that an update creates at most. -/
def Update.creations : Update → Nat
  | call _ => 1
  | applyTxn ops => ops.length
  | importJson json => (Json.importSteps json).length

namespace Database

/-- The commits of an update take as many ids as it creates entries. -/
theorem takes_writes (u : Update) : ∃ ks, List.Forall₂ (fun w k => Takes k (write w)) u.writes ks ∧ ks.sum = u.creations := by
  cases u with
  | call op => exact ⟨[1], .cons (TxnOp.call_eq op ▸ takes_call op) .nil, rfl⟩
  | applyTxn ops => exact ⟨[ops.length], .cons (applyTxn_eq_write ops ▸ takes_applyTxn ops) .nil, rfl⟩
  | importJson json =>
    refine ⟨List.replicate (Json.importSteps json).length 1, ?_, by simp [Update.creations]⟩
    have hgo := Json.importSteps_go json
    change List.Forall₂ _ ((Json.importSteps json).map Json.ImportStep.write) _
    generalize Json.importSteps json = steps at hgo ⊢
    induction steps with
    | nil => exact .nil
    | cons step steps ih =>
      refine .cons (Json.ImportStep.run_eq step ▸ takes_step (hgo step List.mem_cons_self)) ?_
      exact ih (fun s hs => hgo s (List.mem_cons_of_mem _ hs))

/-! ## Commits over a durable store -/

end Database

/-- A commit updates the map in memory, or stops with the map as it was or updated. -/
theorem WalStorage.commit_left (map : Rows) (ops : List BatchOp) : Triple (fun d => d.storage.map = map) (commit ⟨ops⟩)
    (fun _ d => d.storage.map = applyOps map ops) (fun _ d => d.storage.map = map ∨ d.storage.map = applyOps map ops) := by
  intro d hm
  by_cases hne : ops = []
  · subst hne
    exact hm
  rcases commit_cases hne d with ⟨o, rest, e, -, -, hc⟩ | ⟨o, rest, e, -, -, hc⟩ | ⟨-, hc⟩
  · rw [hc]
    exact Or.inl hm
  · rw [hc]
    exact Or.inl hm
  · have hm' : (committed d ops (d.script.drop 2)).storage.map = applyOps map ops := congrArg (applyOps · ops) hm
    rw [hc]
    by_cases hcompacts : d.storage.Compacts (Wal.encodeCommitRecord ops).length
    · rw [if_pos hcompacts]
      exact (compact_triple (applyOps map ops) _ _).conseq (fun _ h => h) (fun _ _ h => h.1) (fun _ _ h => Or.inr h.1) _ ⟨hm', rfl, rfl⟩
    · rw [if_neg hcompacts]
      exact hm'

namespace Database

/-- A stop of a method over a durable store that is no panic. -/
def HandleRefusal : HandleStop → Prop
  | .refused e => Refusal e
  | .storage _ => True

/-- A commit takes the ids that its method takes in memory. -/
theorem commitBatch_takes {w : Database.Write} {k : Nat} (hw : Takes k (write w)) {n : Nat} (hn : n + k < 2 ^ 64) :
    Triple (fun d => d.storage.database.Within n) (commitBatch w) (fun _ d => d.storage.database.Within (n + k))
      (fun stop d => HandleRefusal stop ∧ d.storage.database.Within (n + k)) := by
  intro d hd
  have hwrite := hw n hn d.storage.database hd
  unfold commitBatch
  cases hb : w d.storage.database with
  | error e =>
    rw [write_of_error hb] at hwrite
    exact ⟨hwrite, hd.mono (Nat.le_add_right _ _)⟩
  | ok b =>
    rw [write_of_ok hb] at hwrite
    have hcommit := WalStorage.commit_left d.storage.map b.ops d rfl
    dsimp only
    cases hr : WalStorage.commit b d with
    | ok _ d' =>
      rw [hr] at hcommit
      change (Database.mk ⟨d'.storage.map⟩).Within _
      rw [show d'.storage.map = _ from hcommit]
      exact hwrite
    | error stop d' =>
      rw [hr] at hcommit
      refine ⟨trivial, ?_⟩
      change (Database.mk ⟨d'.storage.map⟩).Within _
      rcases hcommit with hm | hm
      · rw [hm]
        exact hd.mono (Nat.le_add_right _ _)
      · rw [hm]
        exact hwrite

/-- Commits, whatever their file operations come to. -/
theorem commitAll_takes {ws : List Database.Write} {ks : List Nat} (h : List.Forall₂ (fun w k => Takes k (write w)) ws ks) {n : Nat}
    (hn : n + ks.sum < 2 ^ 64) : Triple (fun d => d.storage.database.Within n) (commitAll ws)
      (fun _ d => d.storage.database.Within (n + ks.sum))
      (fun stop d => HandleRefusal stop ∧ d.storage.database.Within (n + ks.sum)) := by
  induction h generalizing n with
  | nil => exact fun d hd => hd
  | @cons w k ws ks hw hws ih =>
    rw [List.sum_cons] at hn ⊢
    have hfirst := commitBatch_takes hw (n := n) (by omega)
    have hrest := ih (n := n + k) (by omega)
    rw [Nat.add_assoc] at hrest
    refine Triple.bind (hfirst.conseq (fun _ hd => hd) (fun _ _ hd => hd) ?_) (fun _ => hrest)
    exact fun stop d hd => ⟨hd.1, hd.2.mono (by omega)⟩

end Database
end AlefsDb
