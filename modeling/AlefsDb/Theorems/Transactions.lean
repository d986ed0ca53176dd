import AlefsDb.Lemmas.Reached

/-!
# A transaction is its operations, or nothing

`apply_txn` on any list of operations leaves the rows that the corresponding methods leave when they are called one after the
other. Where one of these fails, it returns the error of the first that does and leaves the store as it was.
-/

namespace AlefsDb
namespace Database

/-- Methods that have succeeded, and those behind them. -/
theorem callAll_append {before after : List TxnOp} {db db' : Database} (h : callAll before db = .ok () db') :
    callAll (before ++ after) db = callAll after db' := by
  induction before generalizing db with
  | nil =>
    cases h
    rfl
  | cons op before ih =>
    cases hcall : call op db with
    | ok a db₁ =>
      have hfirst : ∀ rest, callAll (op :: rest) db = callAll rest db₁ := fun rest => bind_of_ok hcall _
      rw [hfirst] at h
      rw [List.cons_append, hfirst]
      exact ih h
    | error e db₁ =>
      have hfirst : callAll (op :: before) db = .error e db₁ := bind_of_error hcall _
      rw [hfirst] at h
      cases h

/-- A transaction is its operations run one after the other, or nothing. In every state of a run: if the methods called one after
the other all succeed, `apply_txn` succeeds and leaves the same rows; if they succeed up to one that fails, `apply_txn` returns the
error of this one and leaves the store as it was. -/
theorem applyTxn_sequential {db : Database} (h : Reached (fun _ => True) db) (ops : List TxnOp) :
    (∀ db', callAll ops db = .ok () db' → applyTxn ops db = .ok () db') ∧
    (∀ before op after db₁ db₂ e, ops = before ++ op :: after → callAll before db = .ok () db₁ → call op db₁ = .error e db₂ →
      applyTxn ops db = .error e db) := by
  obtain ⟨G, next, hstores⟩ := h.stores
  refine ⟨?_, ?_⟩
  · intro db' hall
    rw [applyTxn_eq hstores, hall]
  · intro before op after db₁ db₂ e hops hbefore hcall
    have hop : callAll (op :: after) db₁ = .error e db₂ := bind_of_error hcall _
    have hall : callAll ops db = .error e db₂ := by
      rw [hops, callAll_append hbefore, hop]
    rw [applyTxn_eq hstores, hall]

/-- A directory is created and deleted, its path is given a list, and this is replaced by an integer. -/
def recreateOps : List TxnOp :=
  [.mkdir pathA, .delete pathA, .listPush pathA (.scalar .null), .set pathA (.scalar (.int 7))]

/-- A transaction that recreates a path goes through; with a push onto the integer, it leaves nothing of what it did. -/
theorem applyTxn_recreates :
    (∃ db, callAll recreateOps opened = .ok () db ∧ applyTxn recreateOps opened = .ok () db) ∧
    applyTxn (recreateOps ++ [.listPush pathA (.scalar .null), .delete pathA]) opened =
      .error (.err (.typeMismatch "/a is not a list")) opened := by
  have hreached : Reached (fun _ => True) opened := ⟨[], Run.nil⟩
  have hok : callAll recreateOps opened = .ok () (left (callAll recreateOps opened)) :=
    eq_ok_of_failure (by decide +kernel)
  refine ⟨⟨_, hok, (applyTxn_sequential hreached _).1 _ hok⟩, ?_⟩
  have hpush : call (.listPush pathA (.scalar .null)) (left (callAll recreateOps opened)) =
      .error (.err (.typeMismatch "/a is not a list")) _ :=
    eq_error_of_failure (by decide +kernel)
  exact (applyTxn_sequential hreached _).2 _ _ _ _ _ _ rfl hok hpush

end Database
end AlefsDb
