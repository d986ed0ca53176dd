import AlefsDb.Lemmas.Merged

/-!
# An overlay shows the store as it will be

Puts and deletes on an overlay, in any order and any number on the same key: reads and scans through the overlay are those of the
store after the commit of its batch, and this is the store on which the puts and deletes were done one by one.
-/

namespace AlefsDb
namespace Overlay

/-- One operation after the other, each committed alone. -/
def commitEach (store : MemoryStorage) (ops : List BatchOp) : MemoryStorage := ops.foldl (fun s op => s.commit ⟨[op]⟩) store

/-- Operations that are committed one by one are applied in order. -/
theorem commitEach_eq (store : MemoryStorage) (ops : List BatchOp) : commitEach store ops = ⟨applyOps store.map ops⟩ := by
  induction ops generalizing store with
  | nil => rfl
  | cons op ops ih =>
    change commitEach (store.commit ⟨[op]⟩) ops = _
    rw [ih]
    rfl

/-- Where nothing is pending, the merged store is the store. -/
theorem merged_new (store : MemoryStorage) : (new store).merged = store := rfl

/-- The store after the commit of an overlay's batch is the one on which its puts and deletes were done one by one. -/
theorem merged_writeAll_new (store : MemoryStorage) (ops : List BatchOp) :
    ((new store).writeAll ops).merged = commitEach store ops := by
  have hmap := merged_writeAll (new store) ops
  rw [merged_new] at hmap
  rw [commitEach_eq, ← hmap]

/-- The overlay shows the store as it will be: after any puts and deletes, what it gets under a key and what it scans under a prefix
are what the store gives after the commit of its batch, which leads where the puts and deletes lead one by one. -/
theorem overlay_shows_committed (store : MemoryStorage) (ops : List BatchOp) :
    (∀ key, ((new store).writeAll ops).get key = (store.commit ((new store).writeAll ops).intoBatch).get key) ∧
    (∀ pre, ((new store).writeAll ops).scanPrefix pre = (store.commit ((new store).writeAll ops).intoBatch).scanPrefix pre) ∧
    store.commit ((new store).writeAll ops).intoBatch = commitEach store ops := by
  have hmerged : store.commit ((new store).writeAll ops).intoBatch = ((new store).writeAll ops).merged := by
    rw [merged, store_writeAll]
    rfl
  rw [hmerged]
  refine ⟨fun key => (get_merged _ key).symm, fun pre => (scanPrefix_merged _ pre).symm, ?_⟩
  exact merged_writeAll_new store ops

/-- A key that is put, deleted and put again beside one that is deleted last. -/
example : ((new ⟨OrdMap.empty.insert [1, 2] [7]⟩).writeAll
    [.put [1, 1] [5], .delete [1, 1], .delete [1, 2], .put [1, 1] [6], .put [2] [8]]).scanPrefix [1] = [([1, 1], [6])] := by
  decide +kernel

end Overlay
end AlefsDb
