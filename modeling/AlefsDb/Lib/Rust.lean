import AlefsDb.Lib.Bytes
import Mathlib.Data.List.Forall2

/-!
# Outcomes of a Rust call

A call returns `Ok`, returns `Err e`, or panics (an index out of range, an unwrapped `None`, an arithmetic overflow). A loop that
is given a bound on its iterations can also run into it; that such a bound is never reached is proved where one is used.
-/

namespace AlefsDb

/-- How a call fails to return `Ok`. -/
inductive Failure (ε : Type) where
  | err (e : ε)
  | panic
  | outOfFuel
  deriving DecidableEq, Repr

/-- The outcome of a call with result `α` and error `ε`. -/
abbrev Rust (ε α : Type) := Except (Failure ε) α

namespace Rust

variable {ε α β : Type}

/-- `Err(e)`. -/
def err (e : ε) : Rust ε α := .error (.err e)

/-- A panic. -/
def panic : Rust ε α := .error .panic

/-- `opt.ok_or(e)`. -/
def okOr (o : Option α) (e : ε) : Rust ε α :=
  match o with
  | some a => .ok a
  | none => err e

/-- `opt.unwrap()`. -/
def unwrap (o : Option α) : Rust ε α :=
  match o with
  | some a => .ok a
  | none => panic

/-- `res.map_err(f)`. -/
def mapErr {ε' : Type} (f : ε → ε') : Rust ε α → Rust ε' α
  | .ok a => .ok a
  | .error (.err e) => err (f e)
  | .error .panic => panic
  | .error .outOfFuel => .error .outOfFuel

/-- `&buf[a..b]`. -/
def slice (buf : Bytes) (a b : Nat) : Rust ε Bytes :=
  if a ≤ b ∧ b ≤ buf.length then .ok ((buf.drop a).take (b - a)) else panic

/-- `buf[i]`. -/
def index (buf : Bytes) (i : Nat) : Rust ε UInt8 := unwrap buf[i]?

@[simp] theorem ok_bind (a : α) (f : α → Rust ε β) : ((Except.ok a : Rust ε α) >>= f) = f a := rfl

@[simp] theorem pure_eq_ok (a : α) : (pure a : Rust ε α) = .ok a := rfl

@[simp] theorem error_bind (e : Failure ε) (f : α → Rust ε β) : ((Except.error e : Rust ε α) >>= f) = .error e := rfl

@[simp] theorem err_bind (e : ε) (f : α → Rust ε β) : ((err e : Rust ε α) >>= f) = err e := rfl

@[simp] theorem panic_bind (f : α → Rust ε β) : ((panic : Rust ε α) >>= f) = panic := rfl

@[simp] theorem okOr_some (a : α) (e : ε) : okOr (some a) e = .ok a := rfl

@[simp] theorem okOr_none (e : ε) : (okOr none e : Rust ε α) = err e := rfl

@[simp] theorem unwrap_some (a : α) : (unwrap (some a) : Rust ε α) = .ok a := rfl

@[simp] theorem mapErr_ok {ε' : Type} (f : ε → ε') (a : α) : mapErr f (.ok a) = .ok a := rfl

@[simp] theorem mapErr_err {ε' : Type} (f : ε → ε') (e : ε) : mapErr f (err e : Rust ε α) = err (f e) := rfl

@[simp] theorem ok_ne_err (a : α) (e : ε) : (Except.ok a : Rust ε α) ≠ err e := fun h => nomatch h

@[simp] theorem err_ne_ok (a : α) (e : ε) : (err e : Rust ε α) ≠ .ok a := fun h => nomatch h

@[simp] theorem err_inj {e e' : ε} : (err e : Rust ε α) = err e' ↔ e = e' :=
  ⟨fun h => Failure.err.inj (Except.error.inj h), fun h => h ▸ rfl⟩

/-- A sequence returns `Ok` when both parts do. -/
theorem bind_eq_ok {x : Rust ε α} {f : α → Rust ε β} {b : β} : (x >>= f) = .ok b ↔ ∃ a, x = .ok a ∧ f a = .ok b := by
  cases x with
  | error e => simp
  | ok a => simp

/-- A branch returns `Ok` when the part taken does. -/
theorem ite_eq_ok {c : Prop} [Decidable c] {x y : Rust ε α} {a : α} (h : (if c then x else y) = .ok a) :
    c ∧ x = .ok a ∨ ¬c ∧ y = .ok a := by
  by_cases hc : c
  · rw [if_pos hc] at h
    exact Or.inl ⟨hc, h⟩
  · rw [if_neg hc] at h
    exact Or.inr ⟨hc, h⟩

/-- A change of the error leaves the results as they are. -/
theorem mapErr_eq_ok {ε' : Type} {f : ε → ε'} {x : Rust ε α} {a : α} : mapErr f x = .ok a ↔ x = .ok a := by
  cases x with
  | ok b => simp [mapErr]
  | error e => cases e <;> simp [mapErr, err, panic]

/-- A value that is taken is there. -/
theorem okOr_eq_ok {o : Option α} {e : ε} {a : α} : okOr o e = .ok a ↔ o = some a := by
  cases o <;> simp [okOr, err]

/-- The call ends with `Ok` or with `Err`: it neither panics nor runs out of its bound. -/
def Returns (x : Rust ε α) : Prop := (∃ a, x = .ok a) ∨ ∃ e, x = err e

theorem returns_ok (a : α) : Returns (.ok a : Rust ε α) := Or.inl ⟨a, rfl⟩

theorem returns_err (e : ε) : Returns (err e : Rust ε α) := Or.inr ⟨e, rfl⟩

/-- A sequence returns when its first part does, and the second on everything the first can give. -/
theorem Returns.bind {x : Rust ε α} {f : α → Rust ε β} (hx : Returns x) (hf : ∀ a, x = .ok a → Returns (f a)) :
    Returns (x >>= f) := by
  rcases hx with ⟨a, rfl⟩ | ⟨e, rfl⟩
  · exact hf a rfl
  · exact returns_err e

theorem Returns.ite {c : Prop} [Decidable c] {x y : Rust ε α} (hx : Returns x) (hy : Returns y) :
    Returns (if c then x else y) := by
  split
  · exact hx
  · exact hy

theorem Returns.mapErr {ε' : Type} {x : Rust ε α} (h : Returns x) (f : ε → ε') : Returns (mapErr f x) := by
  rcases h with ⟨a, rfl⟩ | ⟨e, rfl⟩
  · exact returns_ok a
  · exact returns_err (f e)

theorem returns_okOr (o : Option α) (e : ε) : Returns (okOr o e) := by
  cases o with
  | some a => exact returns_ok a
  | none => exact returns_err e

/-- A loop returns when its body does. -/
theorem mapM_returns {f : α → Rust ε β} {l : List α} (h : ∀ a ∈ l, Returns (f a)) : Returns (l.mapM f) := by
  induction l with
  | nil => exact returns_ok _
  | cons a l ih =>
    rw [List.mapM_cons]
    refine (h a List.mem_cons_self).bind (fun _ _ => ?_)
    exact (ih (fun b hb => h b (List.mem_cons_of_mem _ hb))).bind (fun _ _ => returns_ok _)

/-- A fold returns where each of its steps does. -/
theorem foldlM_returns {f : β → α → Rust ε β} {l : List α} (h : ∀ a ∈ l, ∀ b, Returns (f b a)) (b : β) : Returns (l.foldlM f b) := by
  induction l generalizing b with
  | nil => exact returns_ok _
  | cons a l ih =>
    rw [List.foldlM_cons]
    exact (h a List.mem_cons_self b).bind (fun b' _ => ih (fun a' ha' => h a' (List.mem_cons_of_mem _ ha')) b')

/-- Two calls end alike: in the same failure, or with results that are related. -/
inductive Related {γ : Type} (R : α → γ → Prop) : Rust ε α → Rust ε γ → Prop where
  | ok {a : α} {c : γ} : R a c → Related R (.ok a) (.ok c)
  | error (e : Failure ε) : Related R (.error e) (.error e)

section

variable {γ δ : Type} {R : α → γ → Prop} {S : β → δ → Prop} {x : Rust ε α} {y : Rust ε γ}

/-- What goes on from related results in related ways is related. -/
theorem Related.bind {f : α → Rust ε β} {g : γ → Rust ε δ} (h : Related R x y) (hfg : ∀ a c, R a c → Related S (f a) (g c)) :
    Related S (x >>= f) (y >>= g) := by
  cases h with
  | ok hR => exact hfg _ _ hR
  | error e => exact .error e

end

/-- What is the same is related by equality. -/
theorem Related.of_eq {x y : Rust ε α} (h : x = y) : Related (· = ·) x y := by
  subst h
  cases x with
  | ok a => exact .ok rfl
  | error e => exact .error e

/-- A slice within the buffer is the part of it that it names. -/
theorem slice_eq (pre post : Bytes) {buf mid : Bytes} {a b : Nat} (hbuf : buf = pre ++ mid ++ post) (ha : a = pre.length)
    (hb : b = pre.length + mid.length) : (slice buf a b : Rust ε Bytes) = .ok mid := by
  subst hbuf ha hb
  have hle : pre.length + mid.length ≤ (pre ++ mid ++ post).length := by
    simp only [List.length_append]
    omega
  rw [slice, if_pos ⟨Nat.le_add_right _ _, hle⟩, List.append_assoc, List.drop_left, Nat.add_sub_cancel_left, List.take_left]

/-- The byte at an index. -/
theorem index_eq (pre post : Bytes) {buf : Bytes} {b : UInt8} {i : Nat} (hbuf : buf = pre ++ b :: post) (hi : i = pre.length) :
    (index buf i : Rust ε UInt8) = .ok b := by
  subst hbuf hi
  simp [index]

/-- A loop whose body returns something related to each element returns a list of these. -/
theorem mapM_of_forall {f : α → Rust ε β} {R : α → β → Prop} {l : List α}
    (h : ∀ a ∈ l, ∃ b, f a = .ok b ∧ R a b) : ∃ bs, l.mapM f = .ok bs ∧ List.Forall₂ R l bs := by
  induction l with
  | nil => exact ⟨[], rfl, .nil⟩
  | cons a l ih =>
    obtain ⟨b, hb, hab⟩ := h a List.mem_cons_self
    obtain ⟨bs, hbs, hl⟩ := ih (fun a' ha' => h a' (List.mem_cons_of_mem _ ha'))
    exact ⟨b :: bs, by simp [hb, hbs], .cons hab hl⟩

/-- A loop whose body can only fail in one way. -/
theorem mapM_of_each {f : α → Rust ε β} {R : α → β → Prop} {e : Failure ε} {l : List α}
    (h : ∀ a ∈ l, (∃ b, f a = .ok b ∧ R a b) ∨ f a = .error e) :
    (∃ bs, l.mapM f = .ok bs ∧ List.Forall₂ R l bs) ∨ l.mapM f = .error e ∧ ∃ a ∈ l, f a = .error e := by
  by_cases hfails : ∃ a ∈ l, f a = .error e
  · refine Or.inr ⟨?_, hfails⟩
    obtain ⟨a, ha, hfa⟩ := hfails
    induction l with
    | nil => cases ha
    | cons a' l ih =>
      rw [List.mapM_cons]
      rcases h a' List.mem_cons_self with ⟨b, hb, -⟩ | he
      · rcases List.mem_cons.mp ha with rfl | ha
        · rw [hfa] at hb
          cases hb
        · rw [hb, ok_bind, ih (fun c hc => h c (List.mem_cons_of_mem _ hc)) ha]
          rfl
      · rw [he]
        rfl
  · refine Or.inl (mapM_of_forall (fun a ha => (h a ha).resolve_right (fun he => hfails ⟨a, ha, he⟩)))

/-- A loop whose body does the same to the images of states does the same to the image of the first. -/
theorem foldlM_map {γ : Type} {f : β → α → Rust ε β} {f' : γ → α → Rust ε γ} {g : β → γ}
    (h : ∀ b a, f' (g b) a = Except.map g (f b a)) (l : List α) (b : β) :
    l.foldlM f' (g b) = Except.map g (l.foldlM f b) := by
  induction l generalizing b with
  | nil => rfl
  | cons a l ih =>
    rw [List.foldlM_cons, List.foldlM_cons, h]
    cases f b a with
    | error e => rfl
    | ok b' => exact ih b'

/-- A loop that returns has returned for each element. -/
theorem mapM_eq_ok_of_mem {f : α → Rust ε β} {l : List α} {bs : List β} (h : l.mapM f = .ok bs) {a : α} (ha : a ∈ l) :
    ∃ b ∈ bs, f a = .ok b := by
  induction l generalizing bs with
  | nil => simp at ha
  | cons a' l ih =>
    rw [List.mapM_cons] at h
    obtain ⟨b, hb, h⟩ := bind_eq_ok.mp h
    obtain ⟨bs', hbs, h⟩ := bind_eq_ok.mp h
    cases h
    rcases List.mem_cons.mp ha with rfl | ha
    · exact ⟨b, List.mem_cons_self, hb⟩
    · obtain ⟨b', hmem, hb'⟩ := ih hbs ha
      exact ⟨b', List.mem_cons_of_mem _ hmem, hb'⟩

end Rust

/-- In related lists an element has one that is related to it. -/
theorem forall₂_exists_right {α β : Type} {R : α → β → Prop} {l : List α} {bs : List β} (h : List.Forall₂ R l bs) {a : α}
    (ha : a ∈ l) : ∃ b ∈ bs, R a b := by
  induction h with
  | nil => cases ha
  | cons hab hrest ih =>
    rcases List.mem_cons.mp ha with rfl | ha
    · exact ⟨_, List.mem_cons_self, hab⟩
    · obtain ⟨b, hb, hR⟩ := ih ha
      exact ⟨b, List.mem_cons_of_mem _ hb, hR⟩

/-- A member of the second list has a partner in the first. -/
theorem forall₂_exists_left {α β : Type} {R : α → β → Prop} {l : List α} {bs : List β} (h : List.Forall₂ R l bs) {b : β}
    (hb : b ∈ bs) : ∃ a ∈ l, R a b :=
  forall₂_exists_right (List.Forall₂.flip h) hb

end AlefsDb
