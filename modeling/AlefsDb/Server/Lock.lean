import AlefsDb.Lib.Runs
import Mathlib.Logic.Function.Basic

/-!
# The lock of a data directory

A daemon takes the lock by opening (or creating) the file `LOCK` of its data directory and taking an exclusive `flock` on the
inode it opened; it gives the lock back by unlocking that inode and then removing the file by its name. Each of the four file
system calls is one action here, so that the actions of any number of processes interleave in any order.

Of the system the model has two facts: `flock` excludes other holders of the same inode, and removing a name detaches it, so
that the next open of the name makes a new inode. A process whose `flock` is refused closes its file and is idle again.
-/

namespace AlefsDb

abbrev Inode := Nat

/-- Where a process stands: outside, between the open and the `flock` of `DataLock::acquire`, holding a `DataLock`, or between
the unlock and the removal of its drop. -/
inductive Phase where
  | idle
  | opened (i : Inode)
  | holding (i : Inode)
  | unlocked (i : Inode)
  deriving DecidableEq, Repr

/-- A data directory and the processes that run on it: the inode that `LOCK` names, the next inode number never used, the holder
of the `flock` of each inode, and the phase of each process. -/
structure LockDir (P : Type) where
  name : Option Inode
  fresh : Inode
  flock : Inode → Option P
  phase : P → Phase

/-- One file system call of one process. -/
inductive LockAct (P : Type) where
  | openFile (p : P)
  | flock (p : P)
  | unlock (p : P)
  | removeFile (p : P)
  deriving DecidableEq, Repr

namespace LockDir

variable {P : Type} [DecidableEq P]

/-- No `LOCK` file and no process at work. -/
def init : LockDir P := { name := none, fresh := 0, flock := fun _ => none, phase := fun _ => .idle }

/-- A process holds a `DataLock`: acquire returned `Ok` and the drop has not begun. -/
def Holds (s : LockDir P) (p : P) : Prop := ∃ i, s.phase p = .holding i

/-- No two processes hold a `DataLock`. -/
def Exclusive (s : LockDir P) : Prop := ∀ p q, s.Holds p → s.Holds q → p = q

/-- Move a process to a phase. -/
def setPhase (s : LockDir P) (p : P) (ph : Phase) : LockDir P := { s with phase := Function.update s.phase p ph }

/-- One call, where the process is at the point of its program that makes it. -/
def step (s : LockDir P) : LockAct P → Option (LockDir P)
  | .openFile p =>
    match s.phase p with
    | .idle =>
      match s.name with
      | some i => some (s.setPhase p (.opened i))
      | none => some ({ s with name := some s.fresh, fresh := s.fresh + 1 }.setPhase p (.opened s.fresh))
    | _ => none
  | .flock p =>
    match s.phase p with
    | .opened i =>
      match s.flock i with
      | none => some ({ s with flock := Function.update s.flock i (some p) }.setPhase p (.holding i))
      -- `LOCK_NB`: acquire returns the error "already locked" and its file is closed
      | some _ => some (s.setPhase p .idle)
    | _ => none
  | .unlock p =>
    match s.phase p with
    | .holding i => some ({ s with flock := Function.update s.flock i none }.setPhase p (.unlocked i))
    | _ => none
  | .removeFile p =>
    match s.phase p with
    -- the file is removed by its name, whatever inode the name is bound to by now
    | .unlocked _ => some ({ s with name := none }.setPhase p .idle)
    | _ => none

/-- What a call can do: its four forms, the creation of a new inode and the refused `flock` apart. -/
theorem step_cases {s s' : LockDir P} {a : LockAct P} (h : s.step a = some s') :
    (∃ p i, a = .openFile p ∧ s.phase p = .idle ∧ s.name = some i ∧ s' = s.setPhase p (.opened i)) ∨
    (∃ p, a = .openFile p ∧ s.phase p = .idle ∧ s.name = none ∧
      s' = { s with name := some s.fresh, fresh := s.fresh + 1 }.setPhase p (.opened s.fresh)) ∨
    (∃ p i, a = .flock p ∧ s.phase p = .opened i ∧ s.flock i = none ∧
      s' = { s with flock := Function.update s.flock i (some p) }.setPhase p (.holding i)) ∨
    (∃ p i, a = .flock p ∧ s.phase p = .opened i ∧ s.flock i ≠ none ∧ s' = s.setPhase p .idle) ∨
    (∃ p i, a = .unlock p ∧ s.phase p = .holding i ∧
      s' = { s with flock := Function.update s.flock i none }.setPhase p (.unlocked i)) ∨
    (∃ p i, a = .removeFile p ∧ s.phase p = .unlocked i ∧ s' = { s with name := none }.setPhase p .idle) := by
  cases a with
  | openFile p =>
    simp only [step] at h
    split at h
    · rename_i hp
      split at h
      · rename_i i hn
        exact Or.inl ⟨p, i, rfl, hp, hn, (Option.some.inj h).symm⟩
      · rename_i hn
        exact Or.inr (Or.inl ⟨p, rfl, hp, hn, (Option.some.inj h).symm⟩)
    · cases h
  | flock p =>
    simp only [step] at h
    split at h
    · rename_i i hp
      split at h
      · rename_i hf
        exact Or.inr (Or.inr (Or.inl ⟨p, i, rfl, hp, hf, (Option.some.inj h).symm⟩))
      · rename_i q hf
        exact Or.inr (Or.inr (Or.inr (Or.inl ⟨p, i, rfl, hp, by simp [hf], (Option.some.inj h).symm⟩)))
    · cases h
  | unlock p =>
    simp only [step] at h
    split at h
    · rename_i i hp
      exact Or.inr (Or.inr (Or.inr (Or.inr (Or.inl ⟨p, i, rfl, hp, (Option.some.inj h).symm⟩))))
    · cases h
  | removeFile p =>
    simp only [step] at h
    split at h
    · rename_i i hp
      exact Or.inr (Or.inr (Or.inr (Or.inr (Or.inr ⟨p, i, rfl, hp, (Option.some.inj h).symm⟩))))
    · cases h

@[simp] theorem setPhase_name (s : LockDir P) (p : P) (ph : Phase) : (s.setPhase p ph).name = s.name := rfl
@[simp] theorem setPhase_fresh (s : LockDir P) (p : P) (ph : Phase) : (s.setPhase p ph).fresh = s.fresh := rfl
@[simp] theorem setPhase_flock (s : LockDir P) (p : P) (ph : Phase) : (s.setPhase p ph).flock = s.flock := rfl

theorem setPhase_phase (s : LockDir P) (p q : P) (ph : Phase) :
    (s.setPhase p ph).phase q = if q = p then ph else s.phase q := by
  by_cases h : q = p
  · subst h
    simp [setPhase]
  · simp [setPhase, h]

end LockDir
end AlefsDb
