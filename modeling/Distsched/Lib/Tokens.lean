/-
Tokens that are handed around. Each token lies in a common pot or in the hands of one thread, and never in two
places. A thread that rearranges what is in its own hands and in the pot, and makes no token twice, keeps it so.
-/
import Mathlib.Data.List.Nodup
import Mathlib.Data.List.Perm.Subperm

variable {γ τ : Type} {hand : γ → List τ} {pot pot' : List τ} {gs : List γ} {g g' : γ} {i k : Nat} {x : τ}

/-- What a thread gives and takes is all that changes of what the threads hold. -/
theorem perm_flatMap_set (hand : γ → List τ) (hi : gs[i]? = some g) (g' : γ) :
    ((gs.set i g').flatMap hand ++ hand g).Perm (gs.flatMap hand ++ hand g') := by
  induction gs generalizing i with
  | nil => cases hi
  | cons a l ih =>
    cases i with
    | zero =>
      cases hi
      simp only [List.set_cons_zero, List.flatMap_cons, List.append_assoc]
      refine List.perm_append_comm.trans ?_
      simpa only [List.append_assoc] using (List.perm_append_comm).append_right (hand g')
    | succ i =>
      simp only [List.set_cons_succ, List.flatMap_cons, List.append_assoc]
      exact (ih hi).append_left _

/-- A thread with empty hands takes a token. -/
theorem perm_set_take (hand : γ → List τ) (g' : γ) (hi : gs[i]? = some g) (hg : hand g = []) (hg' : hand g' = [x]) :
    ((gs.set i g').flatMap hand).Perm (x :: gs.flatMap hand) := by
  have hset := perm_flatMap_set hand hi g'
  rw [hg, hg', List.append_nil] at hset
  exact hset.trans (List.perm_append_singleton x _)

/-- A thread gives the token away that it has. -/
theorem perm_set_give (hand : γ → List τ) (g' : γ) (hi : gs[i]? = some g) (hg : hand g = [x]) (hg' : hand g' = []) :
    (gs.flatMap hand).Perm (x :: (gs.set i g').flatMap hand) := by
  have hset := perm_flatMap_set hand hi g'
  rw [hg, hg', List.append_nil] at hset
  exact hset.symm.trans (List.perm_append_singleton x _)

/-- No token is in two places. -/
def Apart (hand : γ → List τ) (pot : List τ) (gs : List γ) : Prop := (pot ++ gs.flatMap hand).Nodup

namespace Apart

/-- A thread moves tokens between the pot and its hands. -/
theorem set (h : Apart hand pot gs) (hi : gs[i]? = some g) (hm : (pot' ++ hand g').Subperm (pot ++ hand g)) :
    Apart hand pot' (gs.set i g') := by
  unfold Apart at *
  induction gs generalizing i pot pot' with
  | nil => cases hi
  | cons a l ih =>
    cases i with
    | zero =>
      cases hi
      rw [List.flatMap_cons, ← List.append_assoc] at h
      rw [List.set_cons_zero, List.flatMap_cons, ← List.append_assoc]
      obtain ⟨m, hperm, hsub⟩ := hm.append (List.Subperm.refl (l.flatMap hand))
      exact hperm.nodup_iff.1 (h.sublist hsub)
    | succ i =>
      -- the hands of the first thread count as part of the pot
      rw [List.flatMap_cons, ← List.append_assoc] at h
      rw [List.set_cons_succ, List.flatMap_cons, ← List.append_assoc]
      refine ih h hi ?_
      rw [List.append_assoc, List.append_assoc]
      have hswap : ∀ p q : List τ, (p ++ (hand a ++ q)).Perm (p ++ q ++ hand a) := fun p q => by
        rw [List.append_assoc]
        exact (List.perm_append_comm).append_left p
      exact (hswap _ _).subperm.trans ((hm.append (List.Subperm.refl (hand a))).trans (hswap _ _).symm.subperm)

/-- What one thread holds, no other does. -/
theorem owner (h : Apart hand pot gs) (hi : gs[i]? = some g) (hk : gs[k]? = some g') (hx : x ∈ hand g)
    (hx' : x ∈ hand g') : i = k := by
  have hpair := (List.nodup_flatMap.1 h.of_append_right).2
  obtain ⟨hilt, rfl⟩ := List.getElem?_eq_some_iff.1 hi
  obtain ⟨hklt, rfl⟩ := List.getElem?_eq_some_iff.1 hk
  rcases Nat.lt_trichotomy i k with hlt | rfl | hlt
  · exact absurd hx' (List.pairwise_iff_getElem.1 hpair i k hilt hklt hlt hx)
  · rfl
  · exact absurd hx (List.pairwise_iff_getElem.1 hpair k i hklt hilt hlt hx')

/-- What a thread holds is not in the pot. -/
theorem not_mem_pot (h : Apart hand pot gs) (hg : g ∈ gs) (hx : x ∈ hand g) : x ∉ pot := by
  intro hpot
  exact List.disjoint_of_nodup_append h hpot (List.mem_flatMap.2 ⟨g, hg, hx⟩)

theorem nodup_hand (h : Apart hand pot gs) (hg : g ∈ gs) : (hand g).Nodup :=
  (List.nodup_flatMap.1 h.of_append_right).1 g hg

end Apart
