/-
The ready queue (`internal/queue/queue.go`), as the map it presents to the scheduler: the queued
items in dispatch order, each job ID at most once. The order and the uniqueness are fields of the
type, so every value of it is a queue the scheduler can hold. The heap behind it is in `Queue/Heap.lean`.
-/
import Distsched.Store.Types
import Mathlib.Data.List.Basic
import Mathlib.Data.List.Nodup
import Mathlib.Data.String.Basic

namespace Distsched.Scheduler

structure Item where
  jobID : String
  priority : Int
  createdAt : Int
  deriving DecidableEq, Repr

/-- Higher priority first, then older, then by job ID. -/
def Item.Less (a b : Item) : Prop :=
  if a.priority ≠ b.priority then b.priority < a.priority
  else if a.createdAt ≠ b.createdAt then a.createdAt < b.createdAt
  else a.jobID < b.jobID

instance (a b : Item) : Decidable (a.Less b) := by
  unfold Item.Less; infer_instance

theorem Item.Less.trans {a b c : Item} (hab : a.Less b) (hbc : b.Less c) : a.Less c := by
  unfold Item.Less at *
  split at hab <;> split at hbc <;> split
  all_goals first
    | omega
    | skip
  split at hab <;> split at hbc <;> split
  all_goals first
    | omega
    | skip
  exact lt_trans hab hbc

theorem Item.not_less_self (a : Item) : ¬ a.Less a := by
  unfold Item.Less
  rw [if_neg (not_not.2 rfl), if_neg (not_not.2 rfl)]
  exact lt_irrefl _

/-- Items of different jobs are ordered one way or the other. -/
theorem Item.less_or_less {a b : Item} (h : a.jobID ≠ b.jobID) : a.Less b ∨ b.Less a := by
  unfold Item.Less
  by_cases hp : a.priority = b.priority
  · rw [if_neg (not_not.2 hp), if_neg (not_not.2 hp.symm)]
    by_cases hc : a.createdAt = b.createdAt
    · rw [if_neg (not_not.2 hc), if_neg (not_not.2 hc.symm)]
      exact lt_or_gt_of_ne h
    · rw [if_pos hc, if_pos (Ne.symm hc)]
      omega
  · rw [if_pos hp, if_pos (Ne.symm hp)]
    omega

/-- Places an item among items in dispatch order. -/
def insertItem (it : Item) : List Item → List Item
  | [] => [it]
  | a :: l => if it.Less a then it :: a :: l else a :: insertItem it l

theorem insertItem_perm (it : Item) : ∀ l, (insertItem it l).Perm (it :: l)
  | [] => .refl _
  | a :: l => by
    unfold insertItem
    split
    · exact .refl _
    · exact ((insertItem_perm it l).cons a).trans (.swap ..)

theorem insertItem_sorted {it : Item} : ∀ {l : List Item}, (∀ a ∈ l, a.jobID ≠ it.jobID) →
    l.Pairwise Item.Less → (insertItem it l).Pairwise Item.Less
  | [], _, _ => List.pairwise_singleton ..
  | a :: l, hne, hl => by
    obtain ⟨ha, hl'⟩ := List.pairwise_cons.1 hl
    unfold insertItem
    split
    · rename_i hlt
      refine List.pairwise_cons.2 ⟨?_, hl⟩
      rintro b (_ | ⟨_, hb⟩)
      · exact hlt
      · exact hlt.trans (ha b hb)
    · rename_i hlt
      have hai : a.Less it := (Item.less_or_less (hne a (List.mem_cons_self ..))).resolve_right hlt
      refine List.pairwise_cons.2 ⟨fun b hb => ?_, insertItem_sorted (fun b hb => hne b (List.mem_cons_of_mem _ hb)) hl'⟩
      rcases List.mem_cons.1 ((insertItem_perm it l).subset hb) with rfl | hb
      · exact hai
      · exact ha b hb

/-- The queue: its items in dispatch order, each job once. -/
structure PriorityQueue where
  items : List Item
  sorted : items.Pairwise Item.Less
  nodup : (items.map Item.jobID).Nodup

namespace PriorityQueue

def empty : PriorityQueue := ⟨[], List.Pairwise.nil, List.nodup_nil⟩

def contains (q : PriorityQueue) (jobID : String) : Bool := q.items.any (·.jobID = jobID)

/-- Whether a job is queued. -/
def Holds (q : PriorityQueue) (jobID : String) : Prop := jobID ∈ q.items.map Item.jobID

theorem contains_iff (q : PriorityQueue) (jobID : String) : q.contains jobID = true ↔ q.Holds jobID := by
  simp [contains, Holds]

instance (q : PriorityQueue) (jobID : String) : Decidable (q.Holds jobID) :=
  decidable_of_iff _ (q.contains_iff jobID)

/-- Returns whether the job was added; a job already queued is left as it is. -/
def push (q : PriorityQueue) (jobID : String) (priority createdAt : Int) : Bool × PriorityQueue :=
  if h : q.Holds jobID then (false, q)
  else (true, ⟨insertItem ⟨jobID, priority, createdAt⟩ q.items,
    insertItem_sorted (fun _ ha he => h (List.mem_map.2 ⟨_, ha, he⟩)) q.sorted,
    (((insertItem_perm ⟨jobID, priority, createdAt⟩ q.items).map Item.jobID).nodup_iff).2
      (List.nodup_cons.2 ⟨h, q.nodup⟩)⟩)

/-- Removes the first item and returns its job. -/
def pop (q : PriorityQueue) : Option String × PriorityQueue := match q with
  | ⟨[], hs, hn⟩ => (none, ⟨[], hs, hn⟩)
  | ⟨a :: l, hs, hn⟩ => (some a.jobID, ⟨l, hs.of_cons, (List.nodup_cons.1 hn).2⟩)

/-- Returns whether the job was queued. -/
def remove (q : PriorityQueue) (jobID : String) : Bool × PriorityQueue :=
  (q.contains jobID, ⟨q.items.filter (·.jobID ≠ jobID), q.sorted.filter _,
    q.nodup.sublist (List.filter_sublist.map _)⟩)

@[simp] theorem not_holds_empty (x : String) : ¬ empty.Holds x := List.not_mem_nil

@[simp] theorem holds_push (q : PriorityQueue) (id : String) (p c : Int) (x : String) :
    (q.push id p c).2.Holds x ↔ x = id ∨ q.Holds x := by
  unfold push
  split
  · rename_i h
    constructor
    · exact Or.inr
    · rintro (rfl | hx)
      · exact h
      · exact hx
  · unfold Holds
    rw [((insertItem_perm ⟨id, p, c⟩ q.items).map Item.jobID).mem_iff]
    exact List.mem_cons

@[simp] theorem holds_remove (q : PriorityQueue) (id x : String) : (q.remove id).2.Holds x ↔ x ≠ id ∧ q.Holds x := by
  unfold Holds remove
  simp only [List.mem_map, List.mem_filter, decide_eq_true_eq]
  constructor
  · rintro ⟨a, ⟨ha, hne⟩, rfl⟩
    exact ⟨hne, a, ha, rfl⟩
  · rintro ⟨hne, a, ha, rfl⟩
    exact ⟨a, ⟨ha, hne⟩, rfl⟩

theorem mem_push {q : PriorityQueue} {id : String} {p c : Int} {it : Item} (h : it ∈ (q.push id p c).2.items) :
    it = ⟨id, p, c⟩ ∨ it ∈ q.items := by
  unfold push at h
  split at h
  · exact .inr h
  · exact List.mem_cons.1 ((insertItem_perm _ _).mem_iff.1 h)

theorem mem_push_of_mem {q : PriorityQueue} {id : String} {p c : Int} {it : Item} (h : it ∈ q.items) :
    it ∈ (q.push id p c).2.items := by
  unfold push
  split
  · exact h
  · exact (insertItem_perm _ _).mem_iff.2 (List.mem_cons_of_mem _ h)

theorem mem_push_self {q : PriorityQueue} {id : String} {p c : Int} (h : ¬ q.Holds id) :
    ⟨id, p, c⟩ ∈ (q.push id p c).2.items := by
  unfold push
  rw [dif_neg h]
  exact (insertItem_perm _ _).mem_iff.2 List.mem_cons_self

theorem mem_remove {q : PriorityQueue} {id : String} {it : Item} (h : it ∈ (q.remove id).2.items) : it ∈ q.items :=
  List.mem_of_mem_filter h

theorem mem_pop {q : PriorityQueue} {it : Item} (h : it ∈ q.pop.2.items) : it ∈ q.items := by
  obtain ⟨_ | ⟨a, l⟩, hs, hn⟩ := q
  · exact h
  · exact List.mem_cons_of_mem _ h

theorem pop_none {q : PriorityQueue} (h : q.pop.1 = none) : q.pop.2 = q ∧ q.items = [] := by
  obtain ⟨_ | ⟨a, l⟩, hs, hn⟩ := q
  · exact ⟨rfl, rfl⟩
  · cases h

theorem pop_some {q : PriorityQueue} {id : String} (h : q.pop.1 = some id) :
    ∃ it : Item, it.jobID = id ∧ q.items = it :: q.pop.2.items := by
  obtain ⟨_ | ⟨a, l⟩, hs, hn⟩ := q
  · cases h
  · cases h
    exact ⟨a, rfl, rfl⟩

theorem holds_of_pop {q : PriorityQueue} {id : String} (h : q.pop.1 = some id) : q.Holds id := by
  obtain ⟨_ | ⟨a, l⟩, hs, hn⟩ := q
  · cases h
  · cases h
    exact List.mem_cons_self ..

/-- The popped job is no longer queued; every other one still is. -/
theorem holds_pop {q : PriorityQueue} {id : String} (h : q.pop.1 = some id) (x : String) :
    q.pop.2.Holds x ↔ x ≠ id ∧ q.Holds x := by
  obtain ⟨_ | ⟨a, l⟩, hs, hn⟩ := q
  · cases h
  · cases h
    have ha : a.jobID ∉ l.map Item.jobID := (List.nodup_cons.1 hn).1
    constructor
    · intro hx
      exact ⟨fun he => ha (he ▸ hx), List.mem_cons_of_mem _ hx⟩
    · rintro ⟨hne, hx⟩
      exact (List.mem_cons.1 hx).resolve_left hne

theorem pop_length {q : PriorityQueue} {id : String} (h : q.pop.1 = some id) :
    q.pop.2.items.length + 1 = q.items.length := by
  obtain ⟨_ | ⟨a, l⟩, hs, hn⟩ := q
  · cases h
  · rfl

end PriorityQueue

end Distsched.Scheduler
