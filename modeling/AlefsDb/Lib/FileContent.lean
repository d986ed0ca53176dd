import AlefsDb.Lib.Bytes
import Mathlib.Data.List.GetD

/-!
# The content of a file

A write replaces the bytes from its offset on and makes the file longer where it ends behind the end; a gap that it leaves is filled
with zeros. What several writes leave of a byte is what the last one that touches it has there, or else what was there before.
-/

namespace AlefsDb

/-- A write into a file. -/
structure Write where
  offset : Nat
  data : Bytes
  deriving DecidableEq

namespace Write

/-- Where a write ends. -/
def stop (w : Write) : Nat := w.offset + w.data.length

/-- The write has a byte for the position. -/
def Touches (w : Write) (i : Nat) : Prop := w.offset ≤ i ∧ i < w.stop

instance (w : Write) (i : Nat) : Decidable (w.Touches i) := inferInstanceAs (Decidable (_ ∧ _))

/-- The file after a write. -/
def apply (content : Bytes) (w : Write) : Bytes :=
  (List.range (max content.length w.stop)).map (fun i => if w.Touches i then w.data.getD (i - w.offset) 0 else content.getD i 0)

/-- The file after several writes. -/
def applyAll (content : Bytes) (ws : List Write) : Bytes := ws.foldl apply content

/-- The end of the writes that go furthest. -/
def reach (ws : List Write) : Nat := ws.foldl (fun n w => max n w.stop) 0

/-- A write makes a content as long as it reaches. -/
@[simp] theorem length_apply (content : Bytes) (w : Write) : (apply content w).length = max content.length w.stop := by
  simp [apply]

/-- After a write there are its bytes where it touches, and the old ones elsewhere. -/
theorem getD_apply (content : Bytes) (w : Write) (i : Nat) :
    (apply content w).getD i 0 = if w.Touches i then w.data.getD (i - w.offset) 0 else content.getD i 0 := by
  by_cases hi : i < max content.length w.stop
  · have hrange : (List.range (max content.length w.stop))[i]? = some i := List.getElem?_range hi
    rw [apply, List.getD_eq_getElem?_getD, List.getElem?_map, hrange]
    rfl
  · have hcontent : content.length ≤ i := by omega
    have htouches : ¬w.Touches i := fun h => hi (lt_of_lt_of_le h.2 (le_max_right _ _))
    rw [if_neg htouches, List.getD_eq_default _ _ hcontent, List.getD_eq_default _ _ (by rw [length_apply]; omega)]

theorem foldl_max_stop (ws : List Write) (n : Nat) : ws.foldl (fun n w => max n w.stop) n = max n (reach ws) := by
  induction ws generalizing n with
  | nil => simp [reach]
  | cons w ws ih =>
    rw [reach, List.foldl_cons, List.foldl_cons, ih, ih (max 0 w.stop)]
    omega

/-- Writes make a content as long as they reach. -/
@[simp] theorem length_applyAll (content : Bytes) (ws : List Write) :
    (applyAll content ws).length = max content.length (reach ws) := by
  rw [← foldl_max_stop]
  induction ws generalizing content with
  | nil => rfl
  | cons w ws ih =>
    rw [applyAll, List.foldl_cons, List.foldl_cons, ← length_apply]
    exact ih (apply content w)

/-- A byte that no write touches stays, and is zero where there was none. -/
theorem getD_applyAll_of_untouched {ws : List Write} {i : Nat} (h : ∀ w ∈ ws, ¬w.Touches i) (content : Bytes) :
    (applyAll content ws).getD i 0 = content.getD i 0 := by
  induction ws generalizing content with
  | nil => rfl
  | cons w ws ih =>
    have hrest := ih (fun w' hw' => h w' (List.mem_cons_of_mem _ hw')) (apply content w)
    exact hrest.trans (by rw [getD_apply, if_neg (h w List.mem_cons_self)])

/-- Of a byte that a write touches it makes no difference what was there. -/
theorem getD_applyAll_congr {ws : List Write} {i : Nat} {a b : Bytes}
    (h : a.getD i 0 = b.getD i 0 ∨ ∃ w ∈ ws, w.Touches i) : (applyAll a ws).getD i 0 = (applyAll b ws).getD i 0 := by
  induction ws generalizing a b with
  | nil => exact h.resolve_right (by simp)
  | cons w ws ih =>
    refine ih (a := apply a w) (b := apply b w) ?_
    rw [getD_apply, getD_apply]
    by_cases hw : w.Touches i
    · exact Or.inl (by rw [if_pos hw, if_pos hw])
    · rw [if_neg hw, if_neg hw]
      refine h.imp_right (fun ⟨w', hw', htouches⟩ => ⟨w', (List.mem_cons.mp hw').resolve_left ?_, htouches⟩)
      intro heq
      exact hw (heq ▸ htouches)

/-- The writes leave nothing of the content: they reach its end, and what they do not touch is zero. -/
def Rewrites (content : Bytes) (ws : List Write) : Prop :=
  content.length ≤ reach ws ∧ ∀ i, (∀ w ∈ ws, ¬w.Touches i) → content.getD i 0 = 0

/-- Writes into an empty file give the file exactly when they leave nothing of it. -/
theorem applyAll_nil_eq_iff (content : Bytes) (ws : List Write) : applyAll [] ws = applyAll content ws ↔ Rewrites content ws := by
  constructor
  · intro h
    refine ⟨?_, fun i hi => ?_⟩
    · have hlength := congrArg List.length h
      rw [length_applyAll, length_applyAll, List.length_nil] at hlength
      omega
    · rw [← getD_applyAll_of_untouched hi, ← h, getD_applyAll_of_untouched hi, List.getD_nil]
  · intro ⟨hlength, hzero⟩
    have hlengths : (applyAll [] ws).length = (applyAll content ws).length := by
      rw [length_applyAll, length_applyAll, List.length_nil]
      omega
    refine List.ext_getElem hlengths (fun i h₁ h₂ => ?_)
    have hbyte : (applyAll [] ws).getD i 0 = (applyAll content ws).getD i 0 := by
      refine getD_applyAll_congr ?_
      by_cases htouched : ∃ w ∈ ws, w.Touches i
      · exact Or.inr htouched
      · exact Or.inl (hzero i (fun w hw h => htouched ⟨w, hw, h⟩)).symm
    rwa [List.getD_eq_getElem _ _ h₁, List.getD_eq_getElem _ _ h₂] at hbyte

end Write
end AlefsDb
