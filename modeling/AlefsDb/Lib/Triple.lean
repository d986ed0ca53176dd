/-!
# Triples for a state monad with exceptions

`Triple P x Q E`: from a state where `P` holds, `x` either returns, and then `Q` holds of the result and the state it leaves, or
stops, and then `E` holds of the reason and the state it leaves. The state is not rolled back when a computation stops.
-/

namespace AlefsDb

variable {ε σ α β : Type}

def Triple (P : σ → Prop) (x : EStateM ε σ α) (Q : α → σ → Prop) (E : ε → σ → Prop) : Prop :=
  ∀ s, P s → match x s with
    | .ok a s' => Q a s'
    | .error e s' => E e s'

/-- A sequence whose first part returns. -/
theorem bind_of_ok {x : EStateM ε σ α} {s s' : σ} {a : α} (h : x s = .ok a s') (f : α → EStateM ε σ β) :
    (x >>= f) s = f a s' := by
  change EStateM.bind x f s = f a s'
  simp [EStateM.bind, h]

/-- A sequence whose first part stops. -/
theorem bind_of_error {x : EStateM ε σ α} {s s' : σ} {e : ε} (h : x s = .error e s') (f : α → EStateM ε σ β) :
    (x >>= f) s = .error e s' := by
  change EStateM.bind x f s = .error e s'
  simp [EStateM.bind, h]

/-- A sequence that returns: both parts have returned. -/
theorem bind_eq_ok {x : EStateM ε σ α} {f : α → EStateM ε σ β} {s s'' : σ} {b : β} (h : (x >>= f) s = .ok b s'') :
    ∃ a s', x s = .ok a s' ∧ f a s' = .ok b s'' := by
  cases hx : x s with
  | ok a s' => exact ⟨a, s', rfl, (bind_of_ok hx f).symm.trans h⟩
  | error e s' =>
    rw [bind_of_error hx] at h
    cases h

theorem Triple.pure {P : σ → Prop} {Q : α → σ → Prop} {E : ε → σ → Prop} {a : α} (h : ∀ s, P s → Q a s) :
    Triple P (pure a) Q E :=
  h

/-- A sequence: what the first part establishes is what the second starts from, and either may stop. -/
theorem Triple.bind {P : σ → Prop} {x : EStateM ε σ α} {f : α → EStateM ε σ β} {R : α → σ → Prop} {Q : β → σ → Prop}
    {E : ε → σ → Prop} (hx : Triple P x R E) (hf : ∀ a, Triple (R a) (f a) Q E) : Triple P (x >>= f) Q E := by
  intro s hs
  have h := hx s hs
  change match EStateM.bind x f s with
    | .ok a s' => Q a s'
    | .error e s' => E e s'
  unfold EStateM.bind
  cases hr : x s with
  | ok a s' =>
    rw [hr] at h
    exact hf a s' h
  | error e s' =>
    rw [hr] at h
    exact h

/-- A fact that does not depend on the state is at hand for the proof. -/
theorem Triple.of_fact {P : σ → Prop} {fact : Prop} {x : EStateM ε σ α} {Q : α → σ → Prop} {E : ε → σ → Prop}
    (h : fact → Triple P x Q E) : Triple (fun s => P s ∧ fact) x Q E :=
  fun s hs => h hs.2 s hs.1

theorem Triple.ite {P : σ → Prop} {c : Prop} [Decidable c] {x y : EStateM ε σ α} {Q : α → σ → Prop} {E : ε → σ → Prop}
    (hx : c → Triple P x Q E) (hy : ¬c → Triple P y Q E) : Triple P (if c then x else y) Q E := by
  by_cases hc : c
  · rw [if_pos hc]
    exact hx hc
  · rw [if_neg hc]
    exact hy hc

theorem Triple.throw {P : σ → Prop} {Q : α → σ → Prop} {E : ε → σ → Prop} {e : ε} (h : ∀ s, P s → E e s) :
    Triple P (throw e) Q E :=
  h

/-- The state is read: it is the one that the computation is in. -/
theorem Triple.get {s : σ} {E : ε → σ → Prop} : Triple (fun t => t = s) (MonadState.get : EStateM ε σ σ) (fun a t => t = s ∧ a = s) E :=
  fun _ ht => ⟨ht, ht⟩

/-- Stronger before and weaker after. -/
theorem Triple.conseq {P P' : σ → Prop} {x : EStateM ε σ α} {Q Q' : α → σ → Prop} {E E' : ε → σ → Prop}
    (h : Triple P x Q E) (hP : ∀ s, P' s → P s) (hQ : ∀ a s, Q a s → Q' a s) (hE : ∀ e s, E e s → E' e s) :
    Triple P' x Q' E' := by
  intro s hs
  have h := h s (hP s hs)
  cases hr : x s with
  | ok a s' =>
    rw [hr] at h
    exact hQ a s' h
  | error e s' =>
    rw [hr] at h
    exact hE e s' h

/-- What a triple says of a computation that stopped. -/
theorem Triple.of_error {P : σ → Prop} {x : EStateM ε σ α} {Q : α → σ → Prop} {E : ε → σ → Prop} (h : Triple P x Q E)
    {s s' : σ} {e : ε} (hs : P s) (hx : x s = .error e s') : E e s' := by
  have := h s hs
  rwa [hx] at this

/-- What a triple says of a computation that returned. -/
theorem Triple.of_ok {P : σ → Prop} {x : EStateM ε σ α} {Q : α → σ → Prop} {E : ε → σ → Prop} (h : Triple P x Q E)
    {s s' : σ} {a : α} (hs : P s) (hx : x s = .ok a s') : Q a s' := by
  have := h s hs
  rwa [hx] at this

end AlefsDb
