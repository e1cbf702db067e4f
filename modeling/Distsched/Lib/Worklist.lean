/-
A traversal of a graph from one of its nodes with a list of nodes still to visit. A node that has been visited before is
skipped; any other is visited, and its successors that have not been visited are put on the list. When the list is empty,
the nodes visited are those that can be reached.

A traversal that puts the successors in front goes along a walk until it comes to a node without successors to visit. It
never has to go back if every walk that cannot be continued has come to all nodes there are to reach; and it can be led
along any given walk by the order in which it lists the successors.
-/
import Mathlib.Data.List.Basic
import Mathlib.Data.List.Nodup
import Mathlib.Data.List.Perm.Subperm
import Mathlib.Logic.Relation

namespace Worklist

open Relation (ReflTransGen)

variable {α : Type} {E : α → α → Prop} {root cur : α} {visited work next : List α}

structure Sweep (E : α → α → Prop) (root : α) (visited work : List α) : Prop where
  /-- the successors of a node visited are visited or on the list -/
  frontier : ∀ v ∈ visited, ∀ y, E v y → y ∈ visited ∨ y ∈ work
  reached : ∀ v, v ∈ visited ∨ v ∈ work → ReflTransGen E root v
  root : root ∈ visited ∨ root ∈ work

namespace Sweep

theorem start : Sweep E root [] [root] :=
  ⟨by simp, fun v hv => by simp_all [ReflTransGen.refl], .inr (List.mem_singleton_self _)⟩

theorem skip (h : Sweep E root visited (cur :: work)) (hcur : cur ∈ visited) : Sweep E root visited work := by
  have hdrop : ∀ y, y ∈ visited ∨ y ∈ cur :: work → y ∈ visited ∨ y ∈ work := by
    rintro y (hy | hy)
    · exact .inl hy
    · rcases List.mem_cons.1 hy with rfl | hy
      · exact .inl hcur
      · exact .inr hy
  exact ⟨fun v hv y hy => hdrop y (h.frontier v hv y hy), fun v hv => h.reached v (hv.imp_right (List.mem_cons_of_mem _)),
    hdrop root h.root⟩

theorem visit (h : Sweep E root visited (cur :: work)) (hnext : ∀ y, y ∈ next ↔ E cur y ∧ y ∉ visited) :
    Sweep E root (cur :: visited) (next ++ work) := by
  have hmove : ∀ y, y ∈ visited ∨ y ∈ cur :: work → y ∈ cur :: visited ∨ y ∈ next ++ work := by
    rintro y (hy | hy)
    · exact .inl (List.mem_cons_of_mem _ hy)
    · rcases List.mem_cons.1 hy with rfl | hy
      · exact .inl List.mem_cons_self
      · exact .inr (List.mem_append_right _ hy)
  have hcur : ReflTransGen E root cur := h.reached cur (.inr List.mem_cons_self)
  refine ⟨fun v hv y hy => ?_, ?_, hmove root h.root⟩
  · rcases List.mem_cons.1 hv with rfl | hv
    · by_cases hvis : y ∈ visited
      · exact .inl (List.mem_cons_of_mem _ hvis)
      · exact .inr (List.mem_append_left _ ((hnext y).2 ⟨hy, hvis⟩))
    · exact hmove y (h.frontier v hv y hy)
  · rintro v (hv | hv)
    · rcases List.mem_cons.1 hv with rfl | hv
      · exact hcur
      · exact h.reached v (.inl hv)
    · rcases List.mem_append.1 hv with hv | hv
      · exact hcur.tail ((hnext v).1 hv).1
      · exact h.reached v (.inr (List.mem_cons_of_mem _ hv))

/-- Once the list is empty, the nodes visited are those reachable. -/
theorem mem_visited (h : Sweep E root visited []) (x : α) : x ∈ visited ↔ ReflTransGen E root x := by
  refine ⟨fun hx => h.reached x (.inl hx), fun hx => ?_⟩
  have hin : ∀ y, y ∈ visited ∨ y ∈ [] → y ∈ visited := fun y hy => hy.resolve_right List.not_mem_nil
  induction hx with
  | refl => exact hin root h.root
  | tail _ hyz ih => exact hin _ (h.frontier _ ih _ hyz)

end Sweep

/-! ## Walks -/

/-- A walk from the root that comes to no node twice, the last node first. -/
inductive Walk (E : α → α → Prop) (root : α) : List α → Prop
  | start : Walk E root [root]
  | next {x y : α} {l : List α} : Walk E root (x :: l) → E x y → y ∉ x :: l → Walk E root (y :: x :: l)

/-- Every walk from the root that cannot be continued has come to all nodes there are to reach. -/
def Traceable (E : α → α → Prop) (root : α) : Prop :=
  ∀ x l, Walk E root (x :: l) → (∀ y, E x y → y ∈ x :: l) → ∀ y, ReflTransGen E root y → y ∈ x :: l

theorem Walk.ends {l : List α} (h : Walk E root l) : ∃ ahead, l = ahead ++ [root] := by
  induction h with
  | start => exact ⟨[], rfl⟩
  | @next x y l _ _ _ ih =>
    obtain ⟨ahead, hl⟩ := ih
    exact ⟨y :: ahead, by rw [hl]; rfl⟩

/-- A walk goes on from each of its nodes to the next. -/
theorem Walk.edge : ∀ (ahead : List α) {y x : α} {l : List α}, Walk E root (ahead ++ y :: x :: l) → E x y ∧ y ∉ x :: l
  | [], _, _, _, h => by
    cases h with
    | next _ he hy => exact ⟨he, hy⟩
  | [a], _, _, _, h => by
    cases h with
    | next h' _ _ => exact Walk.edge [] h'
  | a :: b :: ahead, _, _, _, h => by
    cases h with
    | next h' _ _ => exact Walk.edge (b :: ahead) h'

/-- A node of a walk is its last, or the next has an edge from it. -/
theorem Walk.succ_of_mem {x z : α} {l : List α} (h : Walk E root (x :: l)) (hz : z ∈ l) : ∃ y ∈ x :: l, E z y := by
  obtain ⟨ahead, back, rfl⟩ := List.append_of_mem hz
  rcases List.eq_nil_or_concat (x :: ahead) with hnil | ⟨front, y, hfront⟩
  · cases hnil
  · have hsplit : x :: (ahead ++ z :: back) = front ++ y :: z :: back := by
      rw [← List.cons_append, hfront, List.concat_eq_append, List.append_assoc]
      rfl
    exact ⟨y, by rw [hsplit]; simp, (Walk.edge front (hsplit ▸ h)).1⟩

/-- From a node of a walk other than the root one has come by an edge. -/
theorem Walk.pred_of_mem {y : α} {l : List α} (h : Walk E root l) (hy : y ∈ l) (hne : y ≠ root) :
    ∃ ahead x back, l = ahead ++ y :: x :: back ∧ E x y := by
  obtain ⟨ahead, back, rfl⟩ := List.append_of_mem hy
  cases back with
  | nil =>
    obtain ⟨ahead', hends⟩ := h.ends
    exact absurd (List.append_inj_right' hends rfl) (by simpa using hne)
  | cons x back => exact ⟨ahead, x, back, rfl, (Walk.edge ahead h).1⟩

/-- Where no node has two successors there is only one way to go. -/
theorem traceable_of_unique (h : ∀ x, ReflTransGen E root x → ∀ y y', E x y → E x y' → y = y') : Traceable E root := by
  intro x l hwalk hend y hy
  induction hy with
  | refl =>
    obtain ⟨ahead, hends⟩ := hwalk.ends
    rw [hends]
    exact List.mem_append_right _ List.mem_cons_self
  | @tail z y hz hzy ih =>
    rcases List.mem_cons.1 ih with rfl | hmem
    · exact hend y hzy
    · obtain ⟨y', hy', hzy'⟩ := hwalk.succ_of_mem hmem
      rwa [h z hz y y' hzy hzy']

section

variable [DecidableEq α]

/-- The next node to visit. -/
def front (visited work : List α) : Option α := work.find? fun x => decide (x ∉ visited)

theorem front_skip (hcur : cur ∈ visited) : front visited (cur :: work) = front visited work := by
  simp [front, hcur]

theorem front_visit (hcur : cur ∉ visited) : front visited (cur :: work) = some cur := by
  simp [front, hcur]

/-- The nodes visited are a walk, and the next one continues it. -/
def Straight (E : α → α → Prop) (root : α) (visited work : List α) : Prop :=
  (visited = [] ∧ work = [root]) ∨
    ∃ x l, visited = x :: l ∧ Walk E root (x :: l) ∧ ∀ y, front visited work = some y → E x y

theorem Straight.skip (h : Straight E root visited (cur :: work)) (hcur : cur ∈ visited) : Straight E root visited work := by
  rcases h with ⟨rfl, -⟩ | ⟨x, l, rfl, hwalk, hnext⟩
  · cases hcur
  · exact .inr ⟨x, l, rfl, hwalk, fun y hy => hnext y ((front_skip hcur).trans hy)⟩

theorem Straight.visit (ht : Traceable E root) (hsweep : Sweep E root visited (cur :: work))
    (h : Straight E root visited (cur :: work)) (hcur : cur ∉ visited) (hnext : ∀ y, y ∈ next ↔ E cur y ∧ y ∉ visited) :
    Straight E root (cur :: visited) (next ++ work) := by
  have hwalk : Walk E root (cur :: visited) := by
    rcases h with ⟨rfl, hwork⟩ | ⟨x, l, rfl, hwalk, hgo⟩
    · obtain rfl : cur = root := (List.cons.inj hwork).1
      exact .start
    · exact .next hwalk (hgo cur (front_visit hcur)) hcur
  refine .inr ⟨cur, visited, rfl, hwalk, fun y hy => ?_⟩
  have hunseen : y ∉ cur :: visited := by simpa using List.find?_some hy
  rcases List.mem_append.1 (List.mem_of_find?_eq_some hy) with hmem | hmem
  · exact ((hnext y).1 hmem).1
  · -- if there is a successor to visit it comes first, and if there is none the walk has come to all nodes
    by_cases hend : ∀ z, E cur z → z ∈ cur :: visited
    · exact absurd (ht cur visited hwalk hend y (hsweep.reached y (.inr (List.mem_cons_of_mem _ hmem)))) hunseen
    · push Not at hend
      obtain ⟨z, hz, hzv⟩ := hend
      have hzn : z ∈ next := (hnext z).2 ⟨hz, fun hv => hzv (List.mem_cons_of_mem _ hv)⟩
      have hsome : (next.find? fun x => decide (x ∉ cur :: visited)).isSome = true :=
        List.find?_isSome.2 ⟨z, hzn, by simpa using hzv⟩
      obtain ⟨u, hu⟩ := Option.isSome_iff_exists.1 hsome
      rw [front, List.find?_append, hu, Option.some_or] at hy
      obtain rfl : u = y := Option.some.inj hy
      exact ((hnext u).1 (List.mem_of_find?_eq_some hu)).1

/-- The traversal has gone along the walk, or is about to. -/
def Along (walk visited work : List α) : Prop :=
  (∃ more, visited = more ++ walk) ∨ ∃ ahead x, walk = ahead ++ x :: visited ∧ front visited work = some x

theorem Walk.along_start {walk : List α} (h : Walk E root walk) : Along walk [] [root] := by
  obtain ⟨ahead, rfl⟩ := h.ends
  exact .inr ⟨ahead, root, rfl, front_visit List.not_mem_nil⟩

theorem Along.skip {walk : List α} (h : Along walk visited (cur :: work)) (hcur : cur ∈ visited) :
    Along walk visited work := by
  rcases h with h | ⟨ahead, x, hwalk, hx⟩
  · exact .inl h
  · exact .inr ⟨ahead, x, hwalk, (front_skip hcur).symm.trans hx⟩

/-- How far along the walk a node lies. -/
def place (walk : List α) (x : α) : Nat := walk.reverse.idxOf x

/-- The nodes of a walk up to one of them lie no farther along. -/
theorem mem_of_place_le {ahead : List α} {x y : α} (hx : x ∉ visited)
    (h : place (ahead ++ x :: visited) y ≤ place (ahead ++ x :: visited) x) : y ∈ x :: visited := by
  by_cases hy : y ∈ visited
  · exact List.mem_cons_of_mem _ hy
  · have hrev : (ahead ++ x :: visited).reverse = visited.reverse ++ x :: ahead.reverse := by simp
    unfold place at h
    rw [hrev, List.idxOf_append_of_notMem (by simpa using hy), List.idxOf_append_of_notMem (by simpa using hx),
      List.idxOf_cons_self] at h
    have hzero : (x :: ahead.reverse).idxOf y = 0 := by omega
    by_cases he : x = y
    · rw [he]
      exact List.mem_cons_self
    · rw [List.idxOf_cons_ne _ he] at hzero
      cases hzero

/-- Successors that lie farther along the walk are listed later. -/
theorem Along.visit {walk : List α} (hw : Walk E root walk) (h : Along walk visited (cur :: work)) (hcur : cur ∉ visited)
    (hnext : ∀ y, y ∈ next ↔ E cur y ∧ y ∉ visited)
    (hsorted : next.Pairwise fun a b => place walk a ≤ place walk b) : Along walk (cur :: visited) (next ++ work) := by
  rcases h with ⟨more, rfl⟩ | ⟨ahead, x, hwalk, hx⟩
  · exact .inl ⟨cur :: more, rfl⟩
  obtain rfl : cur = x := Option.some.inj ((front_visit hcur).symm.trans hx)
  rcases List.eq_nil_or_concat ahead with rfl | ⟨ahead, z, rfl⟩
  · exact .inl ⟨[], hwalk.symm⟩
  rw [List.concat_eq_append, List.append_assoc] at hwalk
  replace hwalk : walk = ahead ++ z :: cur :: visited := hwalk
  obtain ⟨hedge, hz⟩ : E cur z ∧ z ∉ cur :: visited := Walk.edge ahead (hwalk ▸ hw)
  have hzn : z ∈ next := (hnext z).2 ⟨hedge, fun hv => hz (List.mem_cons_of_mem _ hv)⟩
  refine .inr ⟨ahead, z, hwalk, ?_⟩
  have hsome : (next.find? fun x => decide (x ∉ cur :: visited)).isSome = true :=
    List.find?_isSome.2 ⟨z, hzn, by simpa using hz⟩
  obtain ⟨u, hu⟩ := Option.isSome_iff_exists.1 hsome
  rw [front, List.find?_append, hu, Option.some_or]
  -- what is listed before `z` lies on the walk no farther than `z`, and so has been visited
  obtain ⟨hunseen, as, bs, rfl, has⟩ := List.find?_eq_some_iff_append.1 hu
  replace hunseen : u ∉ cur :: visited := by simpa using hunseen
  have hle : place walk u ≤ place walk z := by
    rcases List.mem_append.1 hzn with hza | hzb
    · have := has z hza
      simp [hz] at this
    · rcases List.mem_cons.1 hzb with rfl | hzb
      · exact Nat.le_refl _
      · exact (List.pairwise_cons.1 (List.pairwise_append.1 hsorted).2.1).1 z hzb
  rw [hwalk] at hle
  exact congrArg some ((List.mem_cons.1 (mem_of_place_le hz hle)).resolve_right hunseen)

end

/-- Of a list with all edges, the edges out of one node and those out of the others. -/
theorem length_edges_of [DecidableEq α] {edges : List (α × α)} (hn : next.Nodup) (hE : ∀ x ∈ next, (cur, x) ∈ edges) :
    next.length + (edges.filter fun e => e.1 ≠ cur).length ≤ edges.length := by
  have hsub : (next.map fun x => (cur, x)) ⊆ edges.filter fun e => e.1 = cur := by
    intro e he
    obtain ⟨x, hx, rfl⟩ := List.mem_map.1 he
    exact List.mem_filter.2 ⟨hE x hx, by simp⟩
  have hle := ((hn.map fun x y h => (Prod.mk.inj h).2).subperm hsub).length_le
  have hsplit := edges.length_eq_length_filter_add fun e => decide (e.1 = cur)
  simp only [List.length_map] at hle
  simp only [ne_eq, decide_not]
  omega

end Worklist
