/-
Journals of a key-value map: what a list of writes makes of a map, and where the value of a key comes from.
-/
import Distsched.Lib.Bucket
import Mathlib.Data.List.Nodup
import Mathlib.Logic.Function.Basic

namespace Journal

variable {κ ν : Type} [DecidableEq κ]

/-- A write gives a key a value, or removes it. -/
structure Write (κ ν : Type) where
  key : κ
  value : Option ν

def Write.apply (m : κ → Option ν) (w : Write κ ν) : κ → Option ν := Function.update m w.key w.value

/-- The map after the writes, in order. -/
def replay (m : κ → Option ν) (ws : List (Write κ ν)) : κ → Option ν := ws.foldl Write.apply m

variable {m : κ → Option ν} {ws : List (Write κ ν)} {k : κ}

@[simp] theorem replay_cons (w : Write κ ν) : replay m (w :: ws) = replay (w.apply m) ws := rfl

theorem replay_append (ws ws' : List (Write κ ν)) : replay m (ws ++ ws') = replay (replay m ws) ws' := List.foldl_append

/-- A key that is not written keeps its value. -/
theorem replay_of_notMem (h : ∀ w ∈ ws, w.key ≠ k) : replay m ws k = m k := by
  induction ws generalizing m with
  | nil => rfl
  | cons w ws ih =>
    rw [replay_cons, ih fun w' hw' => h w' (List.mem_cons_of_mem _ hw'), Write.apply, Function.update_of_ne]
    exact (h w (List.mem_cons_self ..)).symm

/-- What a key holds after the writes depends on the map only through what it held before them. -/
theorem replay_congr {m' : κ → Option ν} (h : m k = m' k) : replay m ws k = replay m' ws k := by
  induction ws generalizing m m' with
  | nil => exact h
  | cons w ws ih =>
    rw [replay_cons, replay_cons]
    refine ih ?_
    rw [Write.apply, Write.apply, Function.update_apply, Function.update_apply, h]

/-- A key has the value of its last write. -/
theorem replay_of_last {w : Write κ ν} {l r : List (Write κ ν)} (hr : ∀ w' ∈ r, w'.key ≠ w.key) :
    replay m (l ++ w :: r) w.key = w.value := by
  rw [replay_append, replay_cons, replay_of_notMem hr, Write.apply, Function.update_self]

/-- A key that is written has a last write. -/
theorem exists_last (h : ∃ w ∈ ws, w.key = k) : ∃ l w r, ws = l ++ w :: r ∧ w.key = k ∧ ∀ w' ∈ r, w'.key ≠ k := by
  induction ws with
  | nil => exact absurd h (by simp)
  | cons w ws ih =>
    by_cases hlater : ∃ w ∈ ws, w.key = k
    · obtain ⟨l, w', r, rfl, hw', hr⟩ := ih hlater
      exact ⟨w :: l, w', r, rfl, hw', hr⟩
    · push Not at hlater
      obtain ⟨w', hw', rfl⟩ := h
      rcases List.mem_cons.1 hw' with rfl | hw'
      · exact ⟨[], w', ws, rfl, rfl, hlater⟩
      · exact absurd rfl (hlater w' hw')

/-- If no key is written twice, each written key has the value it was given. -/
theorem replay_of_nodup (hd : (ws.map Write.key).Nodup) {w : Write κ ν} (hw : w ∈ ws) : replay m ws w.key = w.value := by
  obtain ⟨l, r, rfl⟩ := List.append_of_mem hw
  refine replay_of_last fun w' hw' he => ?_
  rw [List.map_append, List.map_cons, List.nodup_append, List.nodup_cons] at hd
  exact hd.2.1.1 (he ▸ List.mem_map.2 ⟨w', hw', rfl⟩)

/-- The listing of a bucket, written to an empty map, gives back what the bucket holds. -/
theorem replay_list {β : Type} {key : β → String} (b : Bucket key) {c : String → κ} (hc : Function.Injective c)
    (v : β → ν) (id : String) :
    replay (fun _ => none) (b.list.map fun x => ⟨c (key x), some (v x)⟩) (c id) = (b.get id).map v := by
  have hd : ((b.list.map fun x => (⟨c (key x), some (v x)⟩ : Write κ ν)).map Write.key).Nodup := by
    rw [List.map_map]
    have := b.list_nodup.map hc
    rwa [List.map_map] at this
  cases hget : b.get id with
  | some x =>
    obtain rfl := Bucket.get_id hget
    exact replay_of_nodup hd (List.mem_map.2 ⟨x, Bucket.mem_list.2 hget, rfl⟩)
  | none =>
    refine replay_of_notMem fun w hw he => ?_
    obtain ⟨x, hx, rfl⟩ := List.mem_map.1 hw
    rw [Bucket.mem_list, hc he, hget] at hx
    cases hx

end Journal
