/-
Directed graphs, as relations, in which no path leads from a node back to it.
-/
import Mathlib.Logic.Relation

namespace Graph

open Relation

variable {α : Type} {E E' : α → α → Prop} {a x y : α}

/-- No path leads from a node back to it. -/
def Acyclic (E : α → α → Prop) : Prop := ∀ x, ¬ TransGen E x x

/-- If the edges of `E'` that do not leave `a` are edges of `E`, a path of `E'` is one of `E` or passes through `a`. -/
theorem transGen_or_through (h : ∀ x y, x ≠ a → E' x y → E x y) (hp : TransGen E' x y) :
    TransGen E x y ∨ (ReflTransGen E' x a ∧ TransGen E' a y) := by
  induction hp with
  | single hxy =>
    by_cases hx : x = a
    · subst hx
      exact .inr ⟨.refl, .single hxy⟩
    · exact .inl (.single (h _ _ hx hxy))
  | @tail y z hxy hyz ih =>
    rcases ih with hE | ⟨hxa, hay⟩
    · by_cases hy : y = a
      · subst hy
        exact .inr ⟨hxy.to_reflTransGen, .single hyz⟩
      · exact .inl (hE.tail (h _ _ hy hyz))
    · exact .inr ⟨hxa, hay.tail hyz⟩

/-- A graph stays acyclic when the edges out of one node are replaced, if that closes no cycle through the node. -/
theorem Acyclic.replace (hE : Acyclic E) (h : ∀ x y, x ≠ a → E' x y → E x y) (ha : ¬ TransGen E' a a) : Acyclic E' := by
  intro x hx
  rcases transGen_or_through h hx with hx | ⟨hxa, hax⟩
  · exact hE x hx
  · exact ha (hax.trans_left hxa)

/-- No edge leaves the set, and no node of it is on a cycle. -/
structure Settled (E : α → α → Prop) (F : α → Prop) : Prop where
  closed : ∀ x y, F x → E x y → F y
  acyclic : ∀ x, F x → ¬ TransGen E x x

theorem Settled.reach {F : α → Prop} (h : Settled E F) (hx : F x) (hxy : ReflTransGen E x y) : F y := by
  induction hxy with
  | refl => exact hx
  | tail _ hyz ih => exact h.closed _ _ ih hyz

/-- A node whose edges all lead into the set can be added to it. -/
theorem Settled.insert {F : α → Prop} (h : Settled E F) (ha : ¬ F a) (hE : ∀ y, E a y → F y) :
    Settled E fun x => x = a ∨ F x := by
  refine ⟨?_, ?_⟩
  · rintro x y (rfl | hx) hxy
    · exact .inr (hE y hxy)
    · exact .inr (h.closed x y hx hxy)
  · rintro x (rfl | hx) hcycle
    · -- a path from the node is in the set after its first edge, and stays there
      obtain ⟨y, hxy, hyx⟩ := TransGen.head'_iff.1 hcycle
      exact ha (h.reach (hE y hxy) hyx)
    · exact h.acyclic x hx hcycle

end Graph
