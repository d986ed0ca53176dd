import AlefsDb.Server.Lock

/-!
# Mutual exclusion of the data-directory lock

The lock does not exclude: the name is removed after the `flock` is released, so a process that opened the file before the
removal can hold the old inode while another creates and holds a new one (`lock_splits`). It excludes in every run in which the
name is removed only while no other process has the named inode open for locking (`exclusive_of_lone_removals`), and that
condition leaves out nothing safe: from any state that such a run reaches, a removal against it can be continued to two holders
(`shared_removal_splits`).
-/

namespace AlefsDb
namespace LockDir

variable {P : Type}

/-- A process is about to lock the inode, or holds it. -/
def Uses (s : LockDir P) (q : P) (i : Inode) : Prop := s.phase q = .opened i ∨ s.phase q = .holding i

/-- A removal of the name is allowed when no process uses the inode the name is bound to; every other call is allowed. -/
def LoneRemoval (s : LockDir P) (a : LockAct P) : Prop :=
  ∀ p, a = .removeFile p → ∀ q i, s.name = some i → ¬s.Uses q i

/-- What holds in every run of lone removals: the inodes in use are the one the name is bound to, and the `flock` of an inode is
held by exactly the process that holds it. -/
structure OneInode (s : LockDir P) : Prop where
  named : ∀ q i, s.Uses q i → s.name = some i
  locked : ∀ q i, s.flock i = some q ↔ s.phase q = .holding i
  below : ∀ q i, s.flock i = some q → i < s.fresh
  nameBelow : ∀ i, s.name = some i → i < s.fresh

theorem oneInode_init : OneInode (init : LockDir P) where
  named _ _ h := by rcases h with h | h <;> cases h
  locked _ _ := by simp [init]
  below _ _ h := by cases h
  nameBelow _ h := by cases h

/-- Under one inode, two holders are one process. -/
theorem OneInode.exclusive {s : LockDir P} (h : OneInode s) : s.Exclusive := by
  rintro p q ⟨i, hp⟩ ⟨j, hq⟩
  have hij : i = j := Option.some.inj ((h.named p i (Or.inr hp)).symm.trans (h.named q j (Or.inr hq)))
  subst hij
  exact Option.some.inj (((h.locked p i).mpr hp).symm.trans ((h.locked q i).mpr hq))

variable [DecidableEq P]

/-- Moving a process that holds nothing to a phase in which it holds nothing keeps the holders of the `flock`s. -/
theorem locked_setPhase (s : LockDir P) (h : ∀ q i, s.flock i = some q ↔ s.phase q = .holding i) {p : P} {ph : Phase}
    (hold : ∀ i, s.phase p ≠ .holding i) (hnew : ∀ i, ph ≠ .holding i) :
    ∀ q i, (s.setPhase p ph).flock i = some q ↔ (s.setPhase p ph).phase q = .holding i := by
  intro q i
  rw [setPhase_flock, setPhase_phase, h q i]
  by_cases hq : q = p
  · subst hq
    simp [hold i, hnew i]
  · simp [hq]

/-- The holders of the `flock`s after a free one has been taken. -/
theorem locked_acquire {s : LockDir P} (h : ∀ q i, s.flock i = some q ↔ s.phase q = .holding i) {p : P} {i : Inode}
    (hp : s.phase p = .opened i) (hf : s.flock i = none) (q : P) (j : Inode) :
    Function.update s.flock i (some p) j = some q ↔ (if q = p then .holding i else s.phase q) = Phase.holding j := by
  rw [Function.update_apply]
  by_cases hj : j = i
  · subst hj
    by_cases hq : q = p
    · simp [hq]
    · have hqj : s.phase q ≠ .holding j := fun hh => by
        rw [(h q j).mpr hh] at hf
        cases hf
      simp [hq, Ne.symm hq, hqj]
  · by_cases hq : q = p
    · subst hq
      have hfree : s.flock j ≠ some q := fun hh => by
        rw [(h q j).mp hh] at hp
        cases hp
      simp [hj, Ne.symm hj, hfree]
    · simp [hj, hq, h q j]

/-- The holders of the `flock`s after one has been given back. -/
theorem locked_release {s : LockDir P} (h : ∀ q i, s.flock i = some q ↔ s.phase q = .holding i) {p : P} {i : Inode}
    (hp : s.phase p = .holding i) (q : P) (j : Inode) :
    Function.update s.flock i none j = some q ↔ (if q = p then .unlocked i else s.phase q) = Phase.holding j := by
  rw [Function.update_apply]
  by_cases hq : q = p
  · subst hq
    by_cases hj : j = i
    · simp [hj]
    · have hfree : s.flock j ≠ some q := fun hh => by
        rw [(h q j).mp hh] at hp
        cases hp
        exact hj rfl
      simp [hj, hfree]
  · by_cases hj : j = i
    · subst hj
      have hqj : s.phase q ≠ .holding j := fun hh =>
        hq (Option.some.inj (((h q j).mpr hh).symm.trans ((h p j).mpr hp)))
      simp [hq, hqj]
    · simp [hj, hq, h q j]

/-- The inodes in use are the named one after a process has moved, when this holds of the other processes and of the phase it
moves to. -/
theorem named_setPhase {s : LockDir P} {p : P} {ph : Phase} (hothers : ∀ q i, q ≠ p → s.Uses q i → s.name = some i)
    (hself : ∀ i, ph = .opened i ∨ ph = .holding i → s.name = some i) (q : P) (i : Inode) (hu : (s.setPhase p ph).Uses q i) :
    s.name = some i := by
  unfold Uses at hu
  rw [setPhase_phase] at hu
  by_cases hq : q = p
  · rw [if_pos hq] at hu
    exact hself i hu
  · rw [if_neg hq] at hu
    exact hothers q i hq hu

/-- Every step keeps the lock file what it is, as long as removals are alone. -/
theorem oneInode_step {s s' : LockDir P} {a : LockAct P} (h : OneInode s) (hg : s.LoneRemoval a)
    (hs : s.step a = some s') : OneInode s' := by
  have hothers : ∀ p q i, q ≠ p → s.Uses q i → s.name = some i := fun _ q i _ => h.named q i
  obtain ⟨p, i, rfl, hp, hn, rfl⟩ | ⟨p, rfl, hp, hn, rfl⟩ | ⟨p, i, rfl, hp, hf, rfl⟩ | ⟨p, i, rfl, hp, hf, rfl⟩ |
    ⟨p, i, rfl, hp, rfl⟩ | ⟨p, i, rfl, hp, rfl⟩ := step_cases hs
  · -- the name is there: the process opens the inode it is bound to
    refine ⟨named_setPhase (hothers p) ?_, locked_setPhase s h.locked (by simp [hp]) (by simp), h.below, h.nameBelow⟩
    rintro j (hj | hj) <;> cases hj
    exact hn
  · -- a new inode: without a name no other process uses any inode
    let created : LockDir P := { s with name := some s.fresh, fresh := s.fresh + 1 }
    refine ⟨named_setPhase (s := created) ?_ ?_, locked_setPhase created h.locked (by simp [created, hp]) (by simp),
      fun q j hj => Nat.lt_succ_of_lt (h.below q j hj), ?_⟩
    · intro q j _ hu
      have hname := h.named q j hu
      rw [hn] at hname
      cases hname
    · rintro j (hj | hj) <;> cases hj
      rfl
    · intro j hj
      cases hj
      exact Nat.lt_succ_self _
  · -- the `flock` is free and is taken
    have hname : s.name = some i := h.named p i (Or.inl hp)
    refine ⟨named_setPhase (hothers p) ?_, ?_, ?_, h.nameBelow⟩
    · rintro j (hj | hj) <;> cases hj
      exact hname
    · intro q j
      rw [setPhase_flock, setPhase_phase]
      exact locked_acquire h.locked hp hf q j
    · intro q j hj
      simp only [setPhase_flock, Function.update_apply] at hj
      split at hj
      · rename_i hji
        exact hji ▸ h.nameBelow i hname
      · exact h.below q j hj
  · -- the `flock` is refused and the process goes away
    refine ⟨named_setPhase (hothers p) ?_, locked_setPhase s h.locked (by simp [hp]) (by simp), h.below, h.nameBelow⟩
    rintro j (hj | hj) <;> cases hj
  · -- the holder releases the `flock`
    refine ⟨named_setPhase (hothers p) ?_, ?_, ?_, h.nameBelow⟩
    · rintro j (hj | hj) <;> cases hj
    · intro q j
      rw [setPhase_flock, setPhase_phase]
      exact locked_release h.locked hp q j
    · intro q j hj
      simp only [setPhase_flock, Function.update_apply] at hj
      split at hj
      · cases hj
      · exact h.below q j hj
  · -- the name is removed while no process uses its inode, so none uses any
    let removed : LockDir P := { s with name := none }
    refine ⟨named_setPhase (s := removed) ?_ ?_, locked_setPhase removed h.locked (by simp [removed, hp]) (by simp), h.below,
      fun j hj => by cases hj⟩
    · intro q j _ hu
      exact absurd hu (hg p rfl q j (h.named q j hu))
    · rintro j (hj | hj) <;> cases hj

/-- In every run there is one lock file at a time. -/
theorem oneInode_run {s : LockDir P} {acts : List (LockAct P)} (h : Run step LoneRemoval init acts s) : OneInode s :=
  h.invariant oneInode_init (fun _ _ _ hi hg hs => oneInode_step hi hg hs)

/-- In every run whose removals are lone ones, no two processes hold the lock, whatever the number of processes and the order of
their calls. -/
theorem exclusive_of_lone_removals {s : LockDir P} {acts : List (LockAct P)} (h : Run step LoneRemoval init acts s) :
    s.Exclusive :=
  (oneInode_run h).exclusive

/-- The lock goes from one process to another: 0 takes it, gives it back and removes the file, and 1 takes it. -/
theorem exclusive_after_handover :
    ∃ s, Run step LoneRemoval (init : LockDir (Fin 2))
      [.openFile 0, .flock 0, .unlock 0, .removeFile 0, .openFile 1, .flock 1] s ∧ s.Exclusive := by
  obtain ⟨s, hrun⟩ : ∃ s, Run step LoneRemoval (init : LockDir (Fin 2))
      [.openFile 0, .flock 0, .unlock 0, .removeFile 0, .openFile 1, .flock 1] s := by
    refine ⟨_, Run.cons ?_ rfl (Run.cons ?_ rfl (Run.cons ?_ rfl (Run.cons ?_ rfl (Run.cons ?_ rfl (Run.cons ?_ rfl
      Run.nil)))))⟩
    · exact fun _ e => nomatch e
    · exact fun _ e => nomatch e
    · exact fun _ e => nomatch e
    · rintro _ _ q i _
      by_cases hq : q = 0 <;> simp [Uses, setPhase_phase, init, hq]
    · exact fun _ e => nomatch e
    · exact fun _ e => nomatch e
  exact ⟨s, hrun, exclusive_of_lone_removals hrun⟩

/-- Three processes split the lock: 1 opens the file that 0 holds, takes its `flock` once 0 has released it, and then 0 removes
the name, so that 2 creates and locks a new inode. Both 1 and 2 hold a `DataLock`. -/
theorem lock_splits :
    ∃ s, Run step (fun _ _ => True) (init : LockDir (Fin 3))
      [.openFile 0, .flock 0, .openFile 1, .unlock 0, .flock 1, .removeFile 0, .openFile 2, .flock 2] s ∧
      s.Holds 1 ∧ s.Holds 2 ∧ ¬s.Exclusive := by
  refine ⟨_, Run.of_runAll (fun _ _ _ => trivial) rfl, ⟨0, rfl⟩, ⟨1, rfl⟩, ?_⟩
  intro h
  exact absurd (h 1 2 ⟨0, rfl⟩ ⟨1, rfl⟩) (by decide)

/-- A process holding an inode other than the newest, a free name and a third party that is idle: the third party takes the lock
of a new inode. -/
theorem splits_of_holder {s : LockDir P} (h : OneInode s) (p q : P) {i j : Inode} (hp : s.phase p = .unlocked j)
    (hq : s.phase q = .holding i) :
    ∃ s', Run step (fun _ _ => True) s [.removeFile p, .openFile p, .flock p] s' ∧ ¬s'.Exclusive := by
  have hpq : q ≠ p := fun e => by
    rw [e, hp] at hq
    cases hq
  have hfree : s.flock s.fresh = none := by
    cases hf : s.flock s.fresh with
    | none => rfl
    | some r => exact absurd (h.below r _ hf) (Nat.lt_irrefl _)
  obtain ⟨s₁, hs₁⟩ : ∃ s₁, s₁ = { s with name := none }.setPhase p .idle := ⟨_, rfl⟩
  obtain ⟨s₂, hs₂⟩ : ∃ s₂, s₂ = { s₁ with name := some s₁.fresh, fresh := s₁.fresh + 1 }.setPhase p (.opened s₁.fresh) :=
    ⟨_, rfl⟩
  obtain ⟨s₃, hs₃⟩ : ∃ s₃, s₃ = { s₂ with flock := Function.update s₂.flock s₁.fresh (some p) }.setPhase p
    (.holding s₁.fresh) := ⟨_, rfl⟩
  have h₁ : s.step (.removeFile p) = some s₁ := by simp [step, hp, hs₁]
  have h₂ : s₁.step (.openFile p) = some s₂ := by simp [step, hs₁, hs₂, setPhase_phase]
  have h₃ : s₂.step (.flock p) = some s₃ := by simp [step, hs₂, hs₃, setPhase_phase, hs₁, hfree]
  refine ⟨s₃, Run.cons trivial h₁ (Run.cons trivial h₂ (Run.cons trivial h₃ Run.nil)), ?_⟩
  intro hex
  refine hpq (hex q p ⟨i, ?_⟩ ⟨s₁.fresh, ?_⟩)
  · simp [hs₁, hs₂, hs₃, setPhase_phase, hpq, hq]
  · simp [hs₃, setPhase_phase]

/-- The condition leaves out nothing safe: where a removal finds the named inode in use, the run can go on from it to two
processes that both hold a `DataLock`. -/
theorem shared_removal_splits {s : LockDir P} {acts : List (LockAct P)} (h : Run step LoneRemoval init acts s) {p : P}
    (hp : (s.step (.removeFile p)).isSome) (hshared : ¬s.LoneRemoval (.removeFile p)) :
    ∃ more s', Run step (fun _ _ => True) s more s' ∧ ¬s'.Exclusive := by
  have hI := oneInode_run h
  obtain ⟨j, hpj⟩ : ∃ j, s.phase p = .unlocked j := by
    simp only [step] at hp
    split at hp
    · rename_i j hj
      exact ⟨j, hj⟩
    · cases hp
  simp only [LoneRemoval, not_forall, not_not] at hshared
  obtain ⟨_, hp', q, i, hn, hu⟩ := hshared
  cases hp'
  by_cases hheld : ∃ r, s.phase r = .holding i
  · obtain ⟨r, hr⟩ := hheld
    obtain ⟨s', hrun, hex⟩ := splits_of_holder hI p r hpj hr
    exact ⟨_, s', hrun, hex⟩
  · -- nobody holds the inode: its opener takes the free `flock` first
    have hq : s.phase q = .opened i := hu.resolve_right (fun hh => hheld ⟨q, hh⟩)
    have hfree : s.flock i = none := by
      cases hf : s.flock i with
      | none => rfl
      | some r => exact absurd ⟨r, (hI.locked r i).mp hf⟩ hheld
    have hs : s.step (.flock q) = some ({ s with flock := Function.update s.flock i (some q) }.setPhase q (.holding i)) := by
      simp [step, hq, hfree]
    have hqp : p ≠ q := fun e => by
      rw [e, hq] at hpj
      cases hpj
    have hI' := oneInode_step hI (fun _ e => by cases e) hs
    obtain ⟨s', hrun, hex⟩ := splits_of_holder hI' p q (by simp [setPhase_phase, hqp, hpj]; rfl)
      (by simp [setPhase_phase]; rfl)
    exact ⟨_, s', Run.cons trivial hs hrun, hex⟩

end LockDir
end AlefsDb
