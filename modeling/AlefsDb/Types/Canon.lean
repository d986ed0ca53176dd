import AlefsDb.Types.Codec

/-!
# Canonical values

The canonical form of a value has every set, at every depth, in the order of its members' payloads, with members of equal payload
merged. It is encoded as the value is.
-/

namespace AlefsDb
namespace Codec

/-! ## The nested encodings as lists -/

theorem encodePayloads_eq (vs : List Value) : encodePayloads vs = vs.map encodeValue := by
  induction vs with
  | nil => rfl
  | cons v vs ih => rw [encodePayloads, ih, List.map_cons]

/-- The bytes of an entry of a hash. -/
def hashEntry (e : String × Value) : Bytes := writeStr e.1 ++ encodeValue e.2

/-- The bytes of an entry of a tree. -/
def treeEntry (e : Scalar × Value) : Bytes := encodeScalar e.1 ++ encodeValue e.2

theorem encodeHash_eq (map : List (String × Value)) : encodeHash map = map.flatMap hashEntry := by
  induction map with
  | nil => rfl
  | cons e map ih => rw [encodeHash, ih, List.flatMap_cons, hashEntry]

theorem encodeTree_eq (map : List (Scalar × Value)) : encodeTree map = map.flatMap treeEntry := by
  induction map with
  | nil => rfl
  | cons e map ih => rw [encodeTree, ih, List.flatMap_cons, treeEntry]

/-- The payloads of a set are those of its members, sorted by payload and merged. -/
theorem sortDedup_encodePayloads (members : List Value) :
    sortDedup id (encodePayloads members) = (sortDedup encodePayload members).map encodeValue := by
  rw [encodePayloads_eq]
  exact (map_sortDedup (fun _ _ => rfl)).symm

end Codec

namespace Value

open Codec

mutual

/-- The canonical form. -/
def canon : Value → Value
  | scalar s => scalar s
  | hash map => hash (canonHash map)
  | set members => set (sortDedup encodePayload (canonList members))
  | list items => list (canonList items)
  | tree map => tree (canonTree map)

def canonList : List Value → List Value
  | [] => []
  | v :: vs => canon v :: canonList vs

def canonHash : List (String × Value) → List (String × Value)
  | [] => []
  | (k, v) :: map => (k, canon v) :: canonHash map

def canonTree : List (Scalar × Value) → List (Scalar × Value)
  | [] => []
  | (k, v) :: map => (k, canon v) :: canonTree map

end

theorem canonList_eq (vs : List Value) : canonList vs = vs.map canon := by
  induction vs with
  | nil => rfl
  | cons v vs ih => rw [canonList, ih, List.map_cons]

theorem canonHash_eq (map : List (String × Value)) : canonHash map = map.map (fun e => (e.1, canon e.2)) := by
  induction map with
  | nil => rfl
  | cons e map ih => rw [canonHash, ih, List.map_cons]

theorem canonTree_eq (map : List (Scalar × Value)) : canonTree map = map.map (fun e => (e.1, canon e.2)) := by
  induction map with
  | nil => rfl
  | cons e map ih => rw [canonTree, ih, List.map_cons]

/-- A value and its canonical form have the same payload. -/
theorem encodeValue_canon (v : Value) : encodeValue v.canon = encodeValue v := by
  induction v using nestedInduction with
  | h v ih =>
    cases v with
    | scalar s => rfl
    | hash map =>
      have hentry : ∀ e ∈ map, hashEntry (e.1, canon e.2) = hashEntry e := by
        intro e he
        rw [hashEntry, ih e.2 (List.mem_map_of_mem he), hashEntry]
      rw [canon, canonHash_eq, encodeValue, encodeValue, encodeHash_eq, encodeHash_eq, List.length_map, List.flatMap_map]
      congr 2
      exact List.flatMap_congr hentry
    | set members =>
      have hmap : (canonList members).map encodeValue = members.map encodeValue := by
        rw [canonList_eq, List.map_map]
        exact List.map_congr_left ih
      have hset : sortDedup id (encodePayloads (sortDedup encodePayload (canonList members))) =
          sortDedup id (encodePayloads members) := by
        calc sortDedup id (encodePayloads (sortDedup encodePayload (canonList members)))
            = sortDedup id (sortDedup id (encodePayloads (canonList members))) := by
              rw [encodePayloads_eq, ← sortDedup_encodePayloads]
          _ = sortDedup id (encodePayloads (canonList members)) := sortDedup_eq_self (sortDedup_ascending id _)
          _ = sortDedup id (encodePayloads members) := by rw [encodePayloads_eq, encodePayloads_eq, hmap]
      rw [canon, encodeValue, encodeValue, hset]
    | list items =>
      have hmap : (canonList items).map encodeValue = items.map encodeValue := by
        rw [canonList_eq, List.map_map]
        exact List.map_congr_left ih
      rw [canon, encodeValue, encodeValue, encodePayloads_eq, encodePayloads_eq, hmap, canonList_eq, List.length_map]
    | tree map =>
      have hentry : ∀ e ∈ map, treeEntry (e.1, canon e.2) = treeEntry e := by
        intro e he
        rw [treeEntry, ih e.2 (List.mem_map_of_mem he), treeEntry]
      rw [canon, canonTree_eq, encodeValue, encodeValue, encodeTree_eq, encodeTree_eq, List.length_map, List.flatMap_map]
      congr 2
      exact List.flatMap_congr hentry

/-- The canonical form is canonical. -/
theorem canon_canon (v : Value) : v.canon.canon = v.canon := by
  induction v using nestedInduction with
  | h v ih =>
    cases v with
    | scalar s => rfl
    | hash map =>
      rw [canon, canon, canonHash_eq, canonHash_eq, List.map_map]
      congr 1
      exact List.map_congr_left (fun e he => by simp [ih e.2 (List.mem_map_of_mem he)])
    | set members =>
      have hmember : ∀ w ∈ sortDedup encodePayload (canonList members), w.canon = w := by
        intro w hw
        rw [canonList_eq] at hw
        obtain ⟨u, hu, rfl⟩ := List.mem_map.mp (mem_of_mem_sortDedup hw)
        exact ih u hu
      rw [canon, canon, canonList_eq (sortDedup _ _), List.map_congr_left hmember, List.map_id',
        sortDedup_eq_self (sortDedup_ascending _ _)]
    | list items =>
      rw [canon, canon, canonList_eq, canonList_eq, List.map_map]
      congr 1
      exact List.map_congr_left (fun w hw => ih w hw)
    | tree map =>
      rw [canon, canon, canonTree_eq, canonTree_eq, List.map_map]
      congr 1
      exact List.map_congr_left (fun e he => by simp [ih e.2 (List.mem_map_of_mem he)])

/-- What is directly inside a canonical form is the canonical form of something directly inside. -/
theorem exists_of_mem_children_canon {v w : Value} (h : w ∈ v.canon.children) : ∃ u ∈ v.children, w = u.canon := by
  cases v with
  | scalar s => exact absurd h List.not_mem_nil
  | hash map =>
    rw [canon, canonHash_eq] at h
    obtain ⟨e, he, rfl⟩ := List.mem_map.mp h
    obtain ⟨e', he', rfl⟩ := List.mem_map.mp he
    exact ⟨e'.2, List.mem_map_of_mem he', rfl⟩
  | set members =>
    rw [canon, canonList_eq] at h
    obtain ⟨u, hu, rfl⟩ := List.mem_map.mp (mem_of_mem_sortDedup h)
    exact ⟨u, hu, rfl⟩
  | list items =>
    rw [canon, canonList_eq] at h
    obtain ⟨u, hu, rfl⟩ := List.mem_map.mp h
    exact ⟨u, hu, rfl⟩
  | tree map =>
    rw [canon, canonTree_eq] at h
    obtain ⟨e, he, rfl⟩ := List.mem_map.mp h
    obtain ⟨e', he', rfl⟩ := List.mem_map.mp he
    exact ⟨e'.2, List.mem_map_of_mem he', rfl⟩

/-- A property that the canonical form keeps holds everywhere in the canonical form. -/
theorem Everywhere.canon {P : Value → Prop} (hP : ∀ v, P v → P v.canon) {v : Value} (h : Everywhere P v) : Everywhere P v.canon := by
  induction v using nestedInduction with
  | h v ih =>
    refine .intro _ (hP v h.here) (fun w hw => ?_)
    obtain ⟨u, hu, rfl⟩ := exists_of_mem_children_canon hw
    exact ih u hu (h.inside hu)

/-- The canonical form of a value with ordered maps has ordered maps. -/
theorem Ordered.canon {v : Value} (h : v.Ordered) : v.canon.Ordered := by
  refine Everywhere.canon (fun v hv => ?_) h
  cases v with
  | scalar | set | list => trivial
  | hash map =>
    rw [Value.canon, canonHash_eq]
    exact List.pairwise_map.mpr hv
  | tree map =>
    rw [Value.canon, canonTree_eq]
    exact List.pairwise_map.mpr hv

/-- A set with a member whose payload is there already. -/
theorem canon_set_append {members : List Value} {m v : Value} (hm : m ∈ members) (h : encodePayload m = encodePayload v) :
    (set (members ++ [v])).canon = (set members).canon := by
  rw [canon, canon, canonList_eq, canonList_eq, List.map_append]
  have hpayload : encodePayload m.canon = encodePayload v.canon := by
    rw [encodePayload, encodeValue_canon, encodePayload, encodeValue_canon]
    exact h
  rw [List.map_cons, List.map_nil, sortDedup_append_of_mem (List.mem_map_of_mem hm) hpayload]

end Value
end AlefsDb
