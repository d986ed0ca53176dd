/-!
# Runs of a partial step function

A run takes one action after the other, each allowed by a guard on the state before it. The guard `fun _ _ => True` gives every
run; a stronger one gives the runs whose steps all meet a condition.
-/

namespace AlefsDb

variable {σ α : Type}

/-- `Run step guard s as s'`: from `s`, the actions `as` are taken one after the other, each allowed by the guard, and lead to
`s'`. -/
inductive Run (step : σ → α → Option σ) (guard : σ → α → Prop) (s : σ) : List α → σ → Prop where
  | nil : Run step guard s [] s
  | snoc {as : List α} {a : α} {s' s'' : σ} :
      Run step guard s as s' → guard s' a → step s' a = some s'' → Run step guard s (as ++ [a]) s''

/-- What holds at the start and is kept by every allowed step holds after every run. -/
theorem Run.invariant {step : σ → α → Option σ} {guard : σ → α → Prop} {I : σ → Prop} {s s' : σ} {as : List α}
    (h : Run step guard s as s') (h0 : I s)
    (hstep : ∀ s a s', I s → guard s a → step s a = some s' → I s') : I s' := by
  induction h with
  | nil => exact h0
  | snoc _ hg hs ih => exact hstep _ _ _ ih hg hs

/-- A run under a guard is a run under every weaker one. -/
theorem Run.mono {step : σ → α → Option σ} {g g' : σ → α → Prop} {s s' : σ} {as : List α} (h : Run step g s as s')
    (hg : ∀ s a, g s a → g' s a) : Run step g' s as s' := by
  induction h with
  | nil => exact Run.nil
  | snoc _ hga hs ih => exact Run.snoc ih (hg _ _ hga) hs

/-- The actions of a list, taken one after the other from a state. -/
def runAll (step : σ → α → Option σ) (s : σ) : List α → Option σ
  | [] => some s
  | a :: as => (step s a).bind (fun s' => runAll step s' as)

/-- A step in front of a run. -/
theorem Run.cons {step : σ → α → Option σ} {guard : σ → α → Prop} {s s' s'' : σ} {a : α} {as : List α}
    (hg : guard s a) (hs : step s a = some s') (h : Run step guard s' as s'') : Run step guard s (a :: as) s'' := by
  induction h with
  | nil => exact Run.nil.snoc hg hs
  | snoc _ hg' hs' ih => exact Run.snoc ih hg' hs'

/-- Actions that can be taken one after the other are a run. -/
theorem Run.of_runAll {step : σ → α → Option σ} {guard : σ → α → Prop} {as : List α} (hguard : ∀ s, ∀ a ∈ as, guard s a) {s s' : σ}
    (h : runAll step s as = some s') : Run step guard s as s' := by
  induction as generalizing s with
  | nil =>
    cases h
    exact Run.nil
  | cons a as ih =>
    simp only [runAll, Option.bind_eq_some_iff] at h
    obtain ⟨s₁, hs₁, h⟩ := h
    exact Run.cons (hguard s a List.mem_cons_self) hs₁ (ih (fun s b hb => hguard s b (List.mem_cons_of_mem _ hb)) h)

end AlefsDb
