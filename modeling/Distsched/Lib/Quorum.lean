/-
Majority voting over a member list in which a member may stand several times.

A ballot box records, for each voter and round, the candidate the voter chose. Boxes only grow:
`Extends` says that a ballot once cast is kept. A candidate wins a round of a member list when
more than half of the list's entries (counted with repeats) hold a ballot for it, and
`Won.unique` is the quorum argument: two winners of one round are the same candidate.
-/
import Mathlib.Data.List.Basic

namespace Quorum

variable {V T C : Type}

/-- Which candidate each voter chose in each round, if any. -/
abbrev Ballots (V T C : Type) := V → T → Option C

namespace Ballots

/-- Every ballot of `B` is in `B'`. -/
def Extends (B B' : Ballots V T C) : Prop := ∀ v t c, B v t = some c → B' v t = some c

theorem Extends.refl (B : Ballots V T C) : B.Extends B := fun _ _ _ h => h

theorem Extends.trans {B₁ B₂ B₃ : Ballots V T C} (h₁ : B₁.Extends B₂) (h₂ : B₂.Extends B₃) :
    B₁.Extends B₃ := fun v t c h => h₂ v t c (h₁ v t c h)

section Cast

variable [DecidableEq V] [DecidableEq T]

/-- The box after `v` chose `c` in round `t`. -/
def cast (B : Ballots V T C) (v : V) (t : T) (c : C) : Ballots V T C :=
  fun v' t' => if v' = v ∧ t' = t then some c else B v' t'

@[simp] theorem cast_self (B : Ballots V T C) (v : V) (t : T) (c : C) : B.cast v t c v t = some c := by
  simp [cast]

theorem cast_other_voter (B : Ballots V T C) {v v' : V} (t t' : T) (c : C) (h : v' ≠ v) :
    B.cast v t c v' t' = B v' t' := by
  simp [cast, h]

/-- A voter who repeats its choice, or had made none, overwrites nothing. -/
theorem extends_cast {B : Ballots V T C} {v : V} {t : T} {c : C} (h : ∀ c', B v t = some c' → c' = c) :
    B.Extends (B.cast v t c) := by
  intro v' t' c' hb
  unfold cast
  split
  · rename_i hc
    obtain ⟨rfl, rfl⟩ := hc
    rw [h c' hb]
  · exact hb

end Cast

end Ballots

section Count

variable [DecidableEq C]

/-- How many entries of `l` hold a ballot for `c` in round `t`. -/
def votes (B : Ballots V T C) (c : C) (t : T) (l : List V) : Nat := l.countP fun v => B v t = some c

theorem votes_mono {B B' : Ballots V T C} (h : B.Extends B') (c : C) (t : T) (l : List V) :
    votes B c t l ≤ votes B' c t l := by
  refine List.countP_mono_left fun v _ hv => ?_
  simp only [decide_eq_true_eq] at hv ⊢
  exact h v t c hv

theorem votes_cons (B : Ballots V T C) (c : C) (t : T) (v : V) (l : List V) (h : B v t = some c) :
    votes B c t (v :: l) = votes B c t l + 1 := by
  simp [votes, h]

theorem votes_le_cons (B : Ballots V T C) (c : C) (t : T) (v : V) (l : List V) :
    votes B c t l ≤ votes B c t (v :: l) :=
  (List.sublist_cons_self v l).countP_le

/-- The ballots for two different candidates are counted on different entries. -/
theorem votes_add_le (B : Ballots V T C) {c d : C} (t : T) (hcd : c ≠ d) :
    ∀ l : List V, votes B c t l + votes B d t l ≤ l.length
  | [] => by simp [votes]
  | v :: l => by
    have ih := votes_add_le B t hcd l
    simp only [votes, List.countP_cons, List.length_cons, decide_eq_true_eq] at ih ⊢
    by_cases hc : B v t = some c
    · have hd : B v t ≠ some d := fun h => hcd (Option.some.inj (hc.symm.trans h))
      rw [if_pos hc, if_neg hd]
      omega
    · rw [if_neg hc]
      split <;> omega

/-- `c` has a majority of the entries of `l` in round `t`. -/
def Won (B : Ballots V T C) (l : List V) (c : C) (t : T) : Prop := l.length / 2 + 1 ≤ votes B c t l

theorem Won.mono {B B' : Ballots V T C} (h : B.Extends B') {l : List V} {c : C} {t : T} (hw : Won B l c t) :
    Won B' l c t := by
  unfold Won at hw ⊢
  exact Nat.le_trans hw (votes_mono h c t l)

/-- Two majorities of one list share an entry, and that entry holds one ballot. -/
theorem Won.unique {B : Ballots V T C} {l : List V} {c d : C} {t : T} (hc : Won B l c t) (hd : Won B l d t) :
    c = d := by
  by_contra hne
  have := votes_add_le B t hne l
  unfold Won at hc hd
  omega

/-- A list splits into the entries equal to `v` and the rest; if `v` chose `c` and stands in the
list, its entries add at least one vote to those of the rest. -/
theorem votes_filter_ne [DecidableEq V] (B : Ballots V T C) {c : C} {t : T} {v : V} (hv : B v t = some c) :
    ∀ l : List V, v ∈ l → votes B c t (l.filter (· ≠ v)) + 1 ≤ votes B c t l
  | x :: l, h => by
    by_cases hx : x = v
    · subst hx
      have hsub : (l.filter (· ≠ x)).Sublist l := List.filter_sublist
      rw [votes_cons B c t x l hv]
      have hf : (x :: l).filter (· ≠ x) = l.filter (· ≠ x) := by simp
      rw [hf]
      exact Nat.succ_le_succ hsub.countP_le
    · have hm : v ∈ l := by
        rcases List.mem_cons.1 h with rfl | h
        · exact absurd rfl hx
        · exact h
      have ih := votes_filter_ne B hv l hm
      have hf : (x :: l).filter (· ≠ v) = x :: l.filter (· ≠ v) := by simp [hx]
      rw [hf]
      unfold votes at ih ⊢
      simp only [List.countP_cons]
      omega

end Count

end Quorum
