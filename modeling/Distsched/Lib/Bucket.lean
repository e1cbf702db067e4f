/-
A bucket of a key-value database: records of one kind, each under a key that is read off the record itself.
-/
import Mathlib.Data.List.Basic
import Std.Data.ExtTreeMap

open Std (ExtTreeMap)

/-- The order of the keys of a map decides their equality. -/
theorem compare_keys {a b : String} : compare a b = .eq ↔ a = b := Std.LawfulEqCmp.compare_eq_iff_eq

/-- Records of type `β`, each under its own key. -/
structure Bucket {β : Type} (key : β → String) where
  map : ExtTreeMap String β
  keyed : ∀ (id : String) (v : β), map[id]? = some v → key v = id

namespace Bucket

variable {β : Type} {key : β → String}

def empty : Bucket key := ⟨∅, by simp⟩

def get (b : Bucket key) (id : String) : Option β := b.map[id]?

/-- Upserts a record under its own key. -/
def put (b : Bucket key) (v : β) : Bucket key where
  map := b.map.insert (key v) v
  keyed := by
    intro id v' h
    rw [ExtTreeMap.getElem?_insert] at h
    split at h
    · rename_i he
      cases h
      exact compare_keys.1 he
    · exact b.keyed id v' h

/-- Removes a record; removing a missing one is a no-op. -/
def delete (b : Bucket key) (id : String) : Bucket key where
  map := b.map.erase id
  keyed := by
    intro id' v h
    rw [ExtTreeMap.getElem?_erase] at h
    split at h
    · cases h
    · exact b.keyed id' v h

/-- In key order, as the database lists its buckets. -/
def list (b : Bucket key) : List β := b.map.toList.map Prod.snd

theorem get_id {b : Bucket key} {id : String} {v : β} (h : b.get id = some v) : key v = id := b.keyed id v h

@[simp] theorem get_empty (id : String) : (empty : Bucket key).get id = none := ExtTreeMap.getElem?_empty

@[simp] theorem get_put (b : Bucket key) (v : β) (id : String) :
    (b.put v).get id = if id = key v then some v else b.get id := by
  unfold get put
  rw [ExtTreeMap.getElem?_insert]
  simp only [compare_keys, eq_comm (a := id)]

@[simp] theorem get_delete (b : Bucket key) (id id' : String) :
    (b.delete id).get id' = if id' = id then none else b.get id' := by
  unfold get delete
  rw [ExtTreeMap.getElem?_erase]
  simp only [compare_keys, eq_comm (a := id')]

/-- A bucket is what it returns for each key. -/
theorem ext_get {b b' : Bucket key} (h : ∀ id, b.get id = b'.get id) : b = b' := by
  obtain ⟨m, hm⟩ := b
  obtain ⟨m', hm'⟩ := b'
  obtain rfl : m = m' := ExtTreeMap.ext_getElem? fun {k} => h k
  rfl

theorem mem_list {b : Bucket key} {v : β} : v ∈ b.list ↔ b.get (key v) = some v := by
  unfold list get
  rw [List.mem_map]
  constructor
  · rintro ⟨⟨k, v'⟩, hmem, rfl⟩
    have hk := ExtTreeMap.mem_toList_iff_getElem?_eq_some.1 hmem
    have hid : key v' = k := b.keyed k v' hk
    rw [hid]
    exact hk
  · intro h
    exact ⟨(key v, v), ExtTreeMap.mem_toList_iff_getElem?_eq_some.2 h, rfl⟩

/-- No two listed records share a key. -/
theorem list_nodup (b : Bucket key) : (b.list.map key).Nodup := by
  have hkeys : b.list.map key = b.map.toList.map Prod.fst := by
    unfold list
    rw [List.map_map]
    refine List.map_congr_left fun p hp => ?_
    exact b.keyed p.1 p.2 (ExtTreeMap.mem_toList_iff_getElem?_eq_some.1 hp)
  rw [hkeys, List.Nodup, List.pairwise_map]
  refine (ExtTreeMap.distinct_keys_toList (t := b.map)).imp fun h he => h ?_
  exact compare_keys.2 he

end Bucket
