/-
What the ready queue is for: a finite map from job ID to priority and creation time, of which `Pop` takes the least entry
in the order of dispatch. The heap of `Queue/Heap.lean` answers every sequence of operations as this map does.

The proof goes through the queue the scheduler's model holds (`Scheduler/Queue.lean`), a list in the order of dispatch, so
that model is itself one the heap refines.
-/
import Distsched.Lib.Steps
import Distsched.Queue.Heap

namespace Distsched.Queue

open Std (ExtTreeMap)
open Steps (Simulates answers)

/-! ## The operations -/

inductive Op
  | push (jobID : String) (priority createdAt : Int)
  | pop
  | remove (jobID : String)
  | contains (jobID : String)
  | len
  | clear
  deriving DecidableEq, Repr

inductive Answer
  | ok (ok : Bool)
  | job (jobID : String) (ok : Bool)
  | len (n : Nat)
  | done
  deriving DecidableEq, Repr

def PriorityQueue.step (q : PriorityQueue) : Op → Answer × PriorityQueue
  | .push id p c => (.ok (q.push id p c).1, (q.push id p c).2)
  | .pop => (.job q.pop.1.1 q.pop.1.2, q.pop.2)
  | .remove id => (.ok (q.remove id).1, (q.remove id).2)
  | .contains id => (.ok (q.contains id), q)
  | .len => (.len q.len, q)
  | .clear => (.done, q.clear)

/-- The operations on the queue of the scheduler's model. -/
def sortedStep (q : Scheduler.PriorityQueue) : Op → Answer × Scheduler.PriorityQueue
  | .push id p c => (.ok (q.push id p c).1, (q.push id p c).2)
  | .pop => (match q.pop.1 with
      | none => .job "" false
      | some id => .job id true, q.pop.2)
  | .remove id => (.ok (q.remove id).1, (q.remove id).2)
  | .contains id => (.ok (q.contains id), q)
  | .len => (.len q.items.length, q)
  | .clear => (.done, .empty)

/-- A finite map from job ID to priority and creation time. -/
abbrev Registry := ExtTreeMap String (Int × Int)

def entries (m : Registry) : List Scheduler.Item := m.toList.map fun e => ⟨e.1, e.2.1, e.2.2⟩

/-- The entry before every other in the order of dispatch. -/
def least (m : Registry) : Option Scheduler.Item :=
  (entries m).find? fun a => (entries m).all fun b => decide (b = a ∨ a.Less b)

/-- The operations on the map. -/
def mapStep (m : Registry) : Op → Answer × Registry
  | .push id p c => if id ∈ m then (.ok false, m) else (.ok true, m.insert id (p, c))
  | .pop => match least m with
    | none => (.job "" false, m)
    | some it => (.job it.jobID true, m.erase it.jobID)
  | .remove id => (.ok (m.contains id), m.erase id)
  | .contains id => (.ok (m.contains id), m)
  | .len => (.len m.size, m)
  | .clear => (.done, ∅)

/-! ## The heap answers as the list in order -/

/-- The heap holds the items of the list, in some order. -/
structure Represents (q : PriorityQueue) (l : Scheduler.PriorityQueue) : Prop where
  wf : q.WF
  perm : q.contents.Perm l.items

namespace Represents

variable {q : PriorityQueue} {l : Scheduler.PriorityQueue}

theorem mem_iff (h : Represents q l) {it : Scheduler.Item} : it ∈ l.items ↔ ∃ r ∈ q.h.slice, (q.h.mem r).toItem = it :=
  h.perm.mem_iff.symm.trans List.mem_map

theorem len (h : Represents q l) : q.len = l.items.length := by
  rw [← h.perm.length_eq]
  exact (List.length_map _).symm

theorem byID_isSome_iff (h : Represents q l) (id : String) : q.byID[id]?.isSome = true ↔ l.Holds id := by
  rw [Option.isSome_iff_exists]
  constructor
  · rintro ⟨r, hr⟩
    obtain ⟨hmem, rfl⟩ := (h.wf.registered id r).1 hr
    exact List.mem_map.2 ⟨_, h.mem_iff.2 ⟨r, hmem, rfl⟩, rfl⟩
  · intro hid
    obtain ⟨it, hit, rfl⟩ := List.mem_map.1 hid
    obtain ⟨r, hr, rfl⟩ := h.mem_iff.1 hit
    exact ⟨r, (h.wf.registered _ r).2 ⟨hr, rfl⟩⟩

theorem contains (h : Represents q l) (id : String) : q.contains id = l.contains id := by
  rw [Bool.eq_iff_iff, l.contains_iff]
  exact h.byID_isSome_iff id

/-- The first item of the list is at the root of the heap. -/
theorem root (h : Represents q l) {a : Scheduler.Item} {as : List Scheduler.Item} (hl : l.items = a :: as) :
    0 < q.h.len ∧ (q.h.item 0).toItem = a := by
  have hlen : 0 < q.h.len := by
    have hlen : q.h.len = l.items.length := h.len
    rw [hlen, hl]
    exact Nat.succ_pos _
  have hroot : (q.h.item 0).toItem ∈ a :: as :=
    hl ▸ h.mem_iff.2 ⟨_, InnerHeap.mem_slice_iff.2 ⟨0, hlen, rfl⟩, rfl⟩
  obtain ⟨r, hr, hra⟩ := h.mem_iff.1 (hl ▸ List.mem_cons_self ..)
  refine ⟨hlen, (List.mem_cons.1 hroot).resolve_right fun hlater => ?_⟩
  -- the root is not after the first item, which is before all others
  have hle := h.wf.valid.root hr
  rw [hra] at hle
  have hlt := (List.pairwise_cons.1 (hl ▸ l.sorted)).1 _ hlater
  exact absurd ((less_iff_rank _ _).1 hlt) (not_lt.2 hle)

theorem push (h : Represents q l) (id : String) (p c : Int) :
    (q.push id p c).1 = (l.push id p c).1 ∧ Represents (q.push id p c).2 (l.push id p c).2 := by
  cases hb : q.byID[id]? with
  | some r =>
    have hid : l.Holds id := (h.byID_isSome_iff id).1 (by rw [hb]; rfl)
    rw [PriorityQueue.push_old hb, Scheduler.PriorityQueue.push, dif_pos hid]
    exact ⟨rfl, h⟩
  | none =>
    have hid : ¬ l.Holds id := fun hid => by
      have := (h.byID_isSome_iff id).2 hid
      rw [hb] at this
      cases this
    obtain ⟨hwf, hperm⟩ := h.wf.push hb p c
    rw [Scheduler.PriorityQueue.push, dif_neg hid]
    refine ⟨by rw [PriorityQueue.push_new hb], hwf, hperm.trans ?_⟩
    exact (h.perm.cons _).trans (Scheduler.insertItem_perm _ _).symm

theorem pop (h : Represents q l) : (q.step .pop).1 = (sortedStep l .pop).1 ∧ Represents (q.step .pop).2 (sortedStep l .pop).2 := by
  obtain ⟨_ | ⟨a, as⟩, hs, hn⟩ := l
  · have hempty : q.h.len = 0 := h.len
    have hpop : q.pop = (("", false), q) := if_pos hempty
    simp only [PriorityQueue.step, hpop]
    exact ⟨rfl, h⟩
  · obtain ⟨hlen, hroot⟩ := h.root rfl
    obtain ⟨hjob, hwf, hperm⟩ := h.wf.pop hlen
    rw [hroot] at hperm
    simp only [PriorityQueue.step, hjob, hroot]
    exact ⟨rfl, hwf, (List.perm_cons a).1 (hperm.symm.trans h.perm)⟩

/-- The list without the item of one job. -/
theorem filter_perm {as : List Scheduler.Item} (hn : (l.items.map Scheduler.Item.jobID).Nodup) {it : Scheduler.Item}
    (hp : l.items.Perm (it :: as)) : as.Perm (l.items.filter (·.jobID ≠ it.jobID)) := by
  have hnodup := ((hp.map Scheduler.Item.jobID).nodup_iff.1 hn)
  have hkeep : as.filter (·.jobID ≠ it.jobID) = as := by
    refine List.filter_eq_self.2 fun b hb => decide_eq_true fun he => ?_
    exact (List.nodup_cons.1 hnodup).1 (he ▸ List.mem_map_of_mem hb)
  have hfilter := hp.filter (·.jobID ≠ it.jobID)
  rw [List.filter_cons_of_neg (by simp), hkeep] at hfilter
  exact hfilter.symm

theorem remove (h : Represents q l) (id : String) :
    (q.remove id).1 = (l.remove id).1 ∧ Represents (q.remove id).2 (l.remove id).2 := by
  have hcontains := h.contains id
  cases hb : q.byID[id]? with
  | none =>
    have hrem : q.remove id = (false, q) := by
      simp only [PriorityQueue.remove, hb]
    rw [PriorityQueue.contains, hb] at hcontains
    have hkeep : (l.remove id).2.items = l.items := by
      refine List.filter_eq_self.2 fun b hb => decide_eq_true fun he => ?_
      have hid : l.contains id = true := (l.contains_iff id).2 (List.mem_map.2 ⟨b, hb, he⟩)
      rw [hid] at hcontains
      cases hcontains
    rw [hrem]
    exact ⟨hcontains, h.wf, hkeep ▸ h.perm⟩
  | some r =>
    obtain ⟨-, hjob⟩ := (h.wf.registered id r).1 hb
    obtain ⟨htrue, hwf, hperm⟩ := h.wf.remove hb
    rw [PriorityQueue.contains, hb] at hcontains
    subst hjob
    exact ⟨htrue.trans hcontains, hwf, filter_perm l.nodup (h.perm.symm.trans hperm)⟩

end Represents

theorem heap_simulates : Simulates Represents PriorityQueue.step sortedStep := by
  intro q l op h
  cases op with
  | push id p c => exact ⟨congrArg Answer.ok (h.push id p c).1, (h.push id p c).2⟩
  | pop => exact h.pop
  | remove id => exact ⟨congrArg Answer.ok (h.remove id).1, (h.remove id).2⟩
  | contains id => exact ⟨congrArg Answer.ok (h.contains id), h⟩
  | len => exact ⟨congrArg Answer.len h.len, h⟩
  | clear => exact ⟨rfl, .clear, .refl _⟩

/-! ## The list answers as the map -/

/-- The list has the entries of the map. -/
def Lists (l : Scheduler.PriorityQueue) (m : Registry) : Prop :=
  ∀ it : Scheduler.Item, it ∈ l.items ↔ m[it.jobID]? = some (it.priority, it.createdAt)

theorem mem_entries {m : Registry} {it : Scheduler.Item} :
    it ∈ entries m ↔ m[it.jobID]? = some (it.priority, it.createdAt) := by
  rw [← ExtTreeMap.mem_toList_iff_getElem?_eq_some, entries, List.mem_map]
  constructor
  · rintro ⟨e, he, rfl⟩
    exact he
  · intro h
    exact ⟨_, h, rfl⟩

theorem nodup_entries (m : Registry) : (entries m).Nodup := by
  refine List.Pairwise.map _ (fun a b hab he => hab ?_) m.distinct_keys_toList
  exact Std.LawfulEqCmp.compare_eq_iff_eq.2 (congrArg Scheduler.Item.jobID he)

namespace Lists

variable {l : Scheduler.PriorityQueue} {m : Registry}

theorem perm (h : Lists l m) : l.items.Perm (entries m) := by
  refine (List.perm_ext_iff_of_nodup (List.Nodup.of_map _ l.nodup) (nodup_entries m)).2 fun it => ?_
  rw [h it, mem_entries]

theorem len (h : Lists l m) : l.items.length = m.size := by
  rw [h.perm.length_eq, entries, List.length_map, ExtTreeMap.length_toList]

theorem holds_iff (h : Lists l m) (id : String) : l.Holds id ↔ id ∈ m := by
  rw [ExtTreeMap.mem_iff_isSome_getElem?, Option.isSome_iff_exists]
  constructor
  · intro hid
    obtain ⟨it, hit, rfl⟩ := List.mem_map.1 hid
    exact ⟨_, (h it).1 hit⟩
  · rintro ⟨⟨p, c⟩, hv⟩
    exact List.mem_map.2 ⟨⟨id, p, c⟩, (h ⟨id, p, c⟩).2 hv, rfl⟩

theorem contains (h : Lists l m) (id : String) : l.contains id = m.contains id := by
  rw [Bool.eq_iff_iff, l.contains_iff, h.holds_iff, ExtTreeMap.mem_iff_contains]

/-- The first item of the list is the map's least entry, and the only one. -/
theorem least (h : Lists l m) {a : Scheduler.Item} {as : List Scheduler.Item} (hl : l.items = a :: as) :
    Queue.least m = some a := by
  have hfirst : ∀ b ∈ entries m, b = a ∨ a.Less b := fun b hb => by
    have hb' : b ∈ a :: as := hl ▸ h.perm.mem_iff.2 hb
    exact (List.mem_cons.1 hb').imp_right ((List.pairwise_cons.1 (hl ▸ l.sorted)).1 b)
  have ha : a ∈ entries m := h.perm.mem_iff.1 (hl ▸ List.mem_cons_self ..)
  unfold Queue.least
  cases hf : (entries m).find? fun a => (entries m).all fun b => decide (b = a ∨ a.Less b) with
  | none =>
    refine absurd ?_ (List.find?_eq_none.1 hf a ha)
    exact List.all_eq_true.2 fun b hb => decide_eq_true (hfirst b hb)
  | some x =>
    have hall := List.find?_some hf
    have hx := of_decide_eq_true (List.all_eq_true.1 hall a ha)
    refine congrArg some ((hfirst x (List.mem_of_find?_eq_some hf)).resolve_right fun hax => ?_)
    rcases hx with rfl | hxa
    · exact Scheduler.Item.not_less_self _ hax
    · exact Scheduler.Item.not_less_self _ (hax.trans hxa)

theorem push (h : Lists l m) (id : String) (p c : Int) :
    Answer.ok (l.push id p c).1 = (mapStep m (.push id p c)).1 ∧ Lists (l.push id p c).2 (mapStep m (.push id p c)).2 := by
  simp only [mapStep, Scheduler.PriorityQueue.push]
  by_cases hid : l.Holds id
  · rw [dif_pos hid, if_pos ((h.holds_iff id).1 hid)]
    exact ⟨rfl, h⟩
  · rw [dif_neg hid, if_neg fun hm => hid ((h.holds_iff id).2 hm)]
    refine ⟨rfl, fun it => ?_⟩
    rw [(Scheduler.insertItem_perm _ _).mem_iff, List.mem_cons, ExtTreeMap.getElem?_insert]
    split
    · rename_i he
      obtain rfl : id = it.jobID := Std.LawfulEqCmp.compare_eq_iff_eq.1 he
      rw [or_iff_left fun hit => hid (List.mem_map.2 ⟨it, hit, rfl⟩)]
      obtain ⟨id, p', c'⟩ := it
      simp [eq_comm]
    · rename_i he
      have hne : it ≠ ⟨id, p, c⟩ := fun hit => he (Std.LawfulEqCmp.compare_eq_iff_eq.2 (hit ▸ rfl))
      rw [or_iff_right hne]
      exact h it

/-- The list and the map without one job. -/
theorem erase (h : Lists l m) {l' : Scheduler.PriorityQueue} {id : String}
    (hl : ∀ it : Scheduler.Item, it ∈ l'.items ↔ it ∈ l.items ∧ it.jobID ≠ id) : Lists l' (m.erase id) := by
  intro it
  rw [hl, h it, ExtTreeMap.getElem?_erase]
  split
  · rename_i he
    have : it.jobID = id := (Std.LawfulEqCmp.compare_eq_iff_eq.1 he).symm
    simp [this]
  · rename_i he
    have : it.jobID ≠ id := fun hid => he (Std.LawfulEqCmp.compare_eq_iff_eq.2 hid.symm)
    simp [this]

theorem remove (h : Lists l m) (id : String) : (l.remove id).1 = m.contains id ∧ Lists (l.remove id).2 (m.erase id) := by
  refine ⟨h.contains id, h.erase fun it => ?_⟩
  simp [Scheduler.PriorityQueue.remove]

theorem pop (h : Lists l m) : (sortedStep l .pop).1 = (mapStep m .pop).1 ∧ Lists (sortedStep l .pop).2 (mapStep m .pop).2 := by
  obtain ⟨_ | ⟨a, as⟩, hs, hn⟩ := l
  · have hnil : Queue.least m = none := by
      have hempty : entries m = [] := List.nil_perm.1 h.perm
      rw [Queue.least, hempty]
      rfl
    simp only [mapStep, hnil]
    exact ⟨rfl, h⟩
  · have ha : a.jobID ∉ as.map Scheduler.Item.jobID := (List.nodup_cons.1 hn).1
    simp only [mapStep, h.least rfl]
    refine ⟨rfl, h.erase fun it => ⟨fun hit => ⟨List.mem_cons_of_mem _ hit, fun he => ?_⟩, fun hit => ?_⟩⟩
    · exact ha (he ▸ List.mem_map_of_mem hit)
    · exact (List.mem_cons.1 hit.1).resolve_left fun he => hit.2 (he ▸ rfl)

end Lists

theorem list_simulates : Simulates Lists sortedStep mapStep := by
  intro l m op h
  cases op with
  | push id p c => exact h.push id p c
  | pop => exact h.pop
  | remove id => exact ⟨congrArg Answer.ok (h.remove id).1, (h.remove id).2⟩
  | contains id => exact ⟨congrArg Answer.ok (h.contains id), h⟩
  | len => exact ⟨congrArg Answer.len h.len, h⟩
  | clear => exact ⟨rfl, fun it => by simp [mapStep, sortedStep, Scheduler.PriorityQueue.empty]⟩

/-! ## The queue refines the map -/

/-- Over every sequence of operations the queue gives the answers of the map; after it, every item's index is its
position in the slice, and `byID` has exactly the slice's items. -/
theorem queue_refines_map (ops : List Op) :
    (answers PriorityQueue.step .new ops).1 = (answers mapStep ∅ ops).1 ∧
      (answers PriorityQueue.step .new ops).2.h.Indexed ∧ (answers PriorityQueue.step .new ops).2.Registered := by
  have hnew : ∃ l, Represents .new l ∧ Lists l ∅ :=
    ⟨.empty, ⟨.new, .refl _⟩, fun it => by simp [Scheduler.PriorityQueue.empty]⟩
  obtain ⟨hanswers, l, hq, -⟩ := (heap_simulates.trans list_simulates).answers ops hnew
  exact ⟨hanswers, hq.wf.valid.indexed, hq.wf.registered⟩

-- a job pushed twice, one taken out of the middle, and a queue run empty
example : (answers PriorityQueue.step .new [.push "a" 0 5, .push "b" 1 9, .push "c" 1 7, .push "b" 5 0, .remove "c", .pop, .pop,
    .pop, .len]).1 = [.ok true, .ok true, .ok true, .ok false, .ok true, .job "b" true, .job "a" true, .job "" false,
    .len 0] := by decide +kernel

end Distsched.Queue
