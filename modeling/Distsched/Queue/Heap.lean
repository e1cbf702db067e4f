/-
The ready queue as `internal/queue/queue.go` has it: items behind pointers, each with the position it thinks it has, a
slice of pointers kept as a heap by `container/heap`, and a map from job ID to pointer.

Every operation keeps three things together: the slice is in heap order, every item's `index` is its position in it, and
`byID` holds exactly its items. `Remove` needs the second to find the position, and `Push` and `Remove` the third.
-/
import Distsched.Lib.Heap
import Distsched.Scheduler.Queue
import Mathlib.Data.Prod.Lex
import Mathlib.Data.List.Perm.Basic
import Mathlib.Logic.Function.Basic
import Std.Data.ExtTreeMap

namespace Distsched.Queue

open Std (ExtTreeMap)

/-! ## The order of dispatch -/

/-- Priority descending, then creation time ascending, then job ID ascending. -/
def rank (it : Scheduler.Item) : ℤᵒᵈ ×ₗ ℤ ×ₗ String := toLex (OrderDual.toDual it.priority, toLex (it.createdAt, it.jobID))

theorem less_iff_rank (a b : Scheduler.Item) : a.Less b ↔ rank a < rank b := by
  unfold Scheduler.Item.Less rank
  rw [Prod.Lex.toLex_lt_toLex, Prod.Lex.toLex_lt_toLex, OrderDual.toDual_lt_toDual, OrderDual.toDual_inj]
  by_cases hp : a.priority = b.priority
  · rw [if_neg (not_not.2 hp)]
    by_cases hc : a.createdAt = b.createdAt
    · rw [if_neg (not_not.2 hc)]
      simp [hp, hc]
    · rw [if_pos hc]
      simp [hp, hc]
  · rw [if_pos hp]
    simp [hp]

/-! ## The items -/

/-- An item, with the position it has in the slice. -/
structure Item extends Scheduler.Item where
  index : Int
  deriving DecidableEq, Repr

instance : Inhabited Item := ⟨⟨⟨"", 0, 0⟩, 0⟩⟩

/-- A pointer to an item. -/
abbrev Ref := Nat

/-- The slice of pointers, with what they point to. -/
structure InnerHeap where
  mem : Ref → Item
  slice : List Ref

namespace InnerHeap

def len (h : InnerHeap) : Nat := h.slice.length

def ref (h : InnerHeap) (i : Nat) : Ref := h.slice.getD i 0

def item (h : InnerHeap) (i : Nat) : Item := h.mem (h.ref i)

def less (h : InnerHeap) (i j : Nat) : Bool := decide ((h.item i).toItem.Less (h.item j).toItem)

def setIndex (h : InnerHeap) (r : Ref) (i : Int) : InnerHeap :=
  { h with mem := Function.update h.mem r { h.mem r with index := i } }

def swap (h : InnerHeap) (i j : Nat) : InnerHeap :=
  let h' : InnerHeap := { h with slice := (h.slice.set i (h.ref j)).set j (h.ref i) }
  (h'.setIndex (h'.ref i) i).setIndex (h'.ref j) j

def push (h : InnerHeap) (r : Ref) : InnerHeap := { h.setIndex r h.len with slice := h.slice ++ [r] }

def pop (h : InnerHeap) : Ref × InnerHeap :=
  let r := h.ref (h.len - 1)
  (r, { h.setIndex r (-1) with slice := h.slice.dropLast })

def methods : BinaryHeap.Interface InnerHeap Ref where
  len := len
  less := less
  swap := swap
  push := push
  pop := pop

/-- The rank of the item at a position. -/
def key (h : InnerHeap) (i : Nat) : ℤᵒᵈ ×ₗ ℤ ×ₗ String := rank (h.item i).toItem

/-! ### What a swap does -/

@[simp] theorem toItem_setIndex (h : InnerHeap) (r : Ref) (i : Int) (x : Ref) :
    ((h.setIndex r i).mem x).toItem = (h.mem x).toItem := by
  unfold setIndex
  by_cases hx : x = r
  · subst hx
    simp
  · simp [Function.update_of_ne hx]

@[simp] theorem index_setIndex (h : InnerHeap) (r : Ref) (i : Int) (x : Ref) :
    ((h.setIndex r i).mem x).index = if x = r then i else (h.mem x).index := by
  unfold setIndex
  by_cases hx : x = r
  · subst hx
    simp
  · simp [hx]

@[simp] theorem slice_setIndex (h : InnerHeap) (r : Ref) (i : Int) : (h.setIndex r i).slice = h.slice := rfl

theorem ref_eq {h : InnerHeap} {i : Nat} (hi : i < h.slice.length) : h.ref i = h.slice[i] := by
  simp [ref, hi]

theorem mem_slice_iff {h : InnerHeap} {r : Ref} : r ∈ h.slice ↔ ∃ i, i < h.len ∧ h.ref i = r := by
  rw [List.mem_iff_getElem]
  constructor
  · rintro ⟨i, hi, rfl⟩
    exact ⟨i, hi, ref_eq hi⟩
  · rintro ⟨i, hi, rfl⟩
    exact ⟨i, hi, (ref_eq hi).symm⟩

@[simp] theorem len_swap (h : InnerHeap) (i j : Nat) : (h.swap i j).len = h.len := by
  simp [swap, len]

@[simp] theorem toItem_swap (h : InnerHeap) (i j : Nat) (x : Ref) : ((h.swap i j).mem x).toItem = (h.mem x).toItem := by
  simp [swap]

theorem ref_swap {h : InnerHeap} {i j : Nat} (hi : i < h.len) (hj : j < h.len) (k : Nat) :
    (h.swap i j).ref k = if k = j then h.ref i else if k = i then h.ref j else h.ref k := by
  have hi' : i < h.slice.length := hi
  have hj' : j < h.slice.length := hj
  simp only [swap, ref, slice_setIndex, List.getD_eq_getElem?_getD, List.getElem?_set, List.length_set]
  by_cases hkj : j = k
  · simp [hkj, hkj ▸ hj']
  · by_cases hki : i = k
    · simp [hkj, hki, Ne.symm hkj, hki ▸ hi']
    · simp [hkj, hki, Ne.symm hkj, Ne.symm hki]

theorem slice_swap_perm {h : InnerHeap} {i j : Nat} (hi : i < h.len) (hj : j < h.len) :
    (h.swap i j).slice.Perm h.slice := by
  simp only [swap, slice_setIndex, ref_eq hi, ref_eq hj]
  exact List.set_set_perm hi hj

theorem lawful : BinaryHeap.Lawful methods key where
  len_swap := len_swap
  less_iff h i j := by
    simp only [methods, less, key, decide_eq_true_eq]
    exact less_iff_rank _ _
  swap h i j hi hj := by
    constructor
    · by_cases hij : i = j
      · subst hij
        simp [methods, key, item, ref_swap hi hj]
      · simp [methods, key, item, ref_swap hi hj, hij]
    · simp [methods, key, item, ref_swap hi hj]
    · intro k hki hkj
      simp [methods, key, item, ref_swap hi hj, hki, hkj]

/-- Every item's index field is its position. -/
def Indexed (h : InnerHeap) : Prop := ∀ i, i < h.len → (h.item i).index = i

/-- No pointer stands twice in the slice. -/
theorem Indexed.ref_inj {h : InnerHeap} (hh : h.Indexed) {i j : Nat} (hi : i < h.len) (hj : j < h.len)
    (he : h.ref i = h.ref j) : i = j := by
  have hi' := hh i hi
  rw [item, he, ← item, hh j hj] at hi'
  omega

theorem Indexed.nodup {h : InnerHeap} (hh : h.Indexed) : h.slice.Nodup := by
  rw [List.nodup_iff_injective_get]
  rintro ⟨i, hi⟩ ⟨j, hj⟩ he
  refine Fin.ext (hh.ref_inj hi hj ?_)
  rw [ref_eq hi, ref_eq hj]
  exact he

theorem ref_inj_of_nodup {h : InnerHeap} (hn : h.slice.Nodup) {i j : Nat} (hi : i < h.len) (hj : j < h.len)
    (he : h.ref i = h.ref j) : i = j := by
  rw [ref_eq hi, ref_eq hj] at he
  exact (List.Nodup.getElem_inj_iff hn).1 he

theorem index_swap (h : InnerHeap) (i j : Nat) (x : Ref) : ((h.swap i j).mem x).index =
    if x = (h.swap i j).ref j then (j : Int) else if x = (h.swap i j).ref i then (i : Int) else (h.mem x).index := by
  simp only [swap, index_setIndex]
  rfl

theorem Indexed.swap {h : InnerHeap} (hh : h.Indexed) {i j : Nat} (hi : i < h.len) (hj : j < h.len) :
    (h.swap i j).Indexed := by
  intro k hk
  have hinj : ∀ {m : Nat}, m < h.len → (h.swap i j).ref k = (h.swap i j).ref m → k = m := fun hm he =>
    ref_inj_of_nodup ((slice_swap_perm hi hj).nodup_iff.2 hh.nodup) hk ((len_swap h i j).symm ▸ hm) he
  rw [item, index_swap]
  split
  · rename_i he
    rw [hinj hj he]
  · rename_i hj'
    split
    · rename_i he
      rw [hinj hi he]
    · rename_i hi'
      -- a pointer that has not moved
      have hkj : k ≠ j := fun he => hj' (he ▸ rfl)
      have hki : k ≠ i := fun he => hi' (he ▸ rfl)
      rw [ref_swap hi hj, if_neg hkj, if_neg hki]
      exact hh k (len_swap h i j ▸ hk)

/-- The same items in another order, from the position `n` on in the same one. -/
structure Rearranged (n : Nat) (h h' : InnerHeap) : Prop where
  perm : h'.slice.Perm h.slice
  items : ∀ r, (h'.mem r).toItem = (h.mem r).toItem
  tail : ∀ k, n ≤ k → h'.ref k = h.ref k
  indexed : h'.Indexed

theorem Rearranged.len {n : Nat} {h h' : InnerHeap} (hr : Rearranged n h h') : h'.len = h.len := hr.perm.length_eq

theorem Rearranged.kept {n : Nat} {h : InnerHeap} (hn : n ≤ h.len) : BinaryHeap.Kept methods n (Rearranged n h) := by
  intro h' i j hi hj hr
  have hi' : i < h'.len := hr.len ▸ hi.trans_le hn
  have hj' : j < h'.len := hr.len ▸ hj.trans_le hn
  refine ⟨(slice_swap_perm hi' hj').trans hr.perm, fun r => ?_, fun k hk => ?_, hr.indexed.swap hi' hj'⟩
  · exact (toItem_swap h' i j r).trans (hr.items r)
  · refine (ref_swap hi' hj' k).trans ?_
    rw [if_neg (by omega), if_neg (by omega)]
    exact hr.tail k hk

/-! ### The heap's operations -/

/-- The slice is in heap order, and every item knows its position. -/
structure Valid (h : InnerHeap) : Prop where
  ordered : BinaryHeap.Ordered h.key h.len
  indexed : h.Indexed

/-- The heap `h'` is `h` without the pointer `r`. -/
structure Without (h : InnerHeap) (r : Ref) (h' : InnerHeap) : Prop where
  perm : h.slice.Perm (r :: h'.slice)
  items : ∀ x, (h'.mem x).toItem = (h.mem x).toItem

theorem ref_pop {h : InnerHeap} {k : Nat} (hk : k < h.len - 1) : h.pop.2.ref k = h.ref k := by
  simp only [pop, ref, List.getD_eq_getElem?_getD, List.getElem?_dropLast]
  rw [if_pos (show k < h.slice.length - 1 from hk)]

theorem len_pop (h : InnerHeap) : h.pop.2.len = h.len - 1 := List.length_dropLast

theorem slice_eq_pop {h : InnerHeap} (hlen : 0 < h.len) : h.slice = h.pop.2.slice ++ [h.pop.1] := by
  have hne : h.slice ≠ [] := List.ne_nil_of_length_pos hlen
  have hlast : h.pop.1 = h.slice.getLast hne := by
    rw [List.getLast_eq_getElem]
    exact ref_eq (Nat.sub_lt hlen Nat.one_pos)
  rw [hlast]
  exact (List.dropLast_append_getLast hne).symm

/-- Taking the last pointer off a slice whose other pointers are in heap order. -/
theorem pop_spec {h : InnerHeap} (hlen : 0 < h.len) (hord : BinaryHeap.Ordered h.key (h.len - 1)) (hh : h.Indexed) :
    Without h h.pop.1 h.pop.2 ∧ h.pop.2.Valid := by
  have hitems : ∀ x, (h.pop.2.mem x).toItem = (h.mem x).toItem := toItem_setIndex h _ _
  refine ⟨⟨?_, hitems⟩, fun k h0 hk => ?_, fun k hk => ?_⟩
  · conv_lhs => rw [slice_eq_pop hlen]
    exact List.perm_append_singleton _ _
  · rw [len_pop] at hk
    simp only [key, item, ref_pop hk, ref_pop (show (k - 1) / 2 < h.len - 1 by omega), hitems]
    exact hord k h0 hk
  · rw [len_pop] at hk
    have hne : h.ref k ≠ h.ref (h.len - 1) := fun he => by
      have := hh.ref_inj (by omega) (by omega) he
      omega
    rw [item, ref_pop hk]
    refine (index_setIndex h _ _ _).trans ?_
    rw [if_neg hne]
    exact hh k (by omega)

/-- What `heap.Pop` and `heap.Remove` have in common: the pointer at `i` is brought to the end, the moves among the
others restore their order, and the last pointer is taken off. -/
theorem pop_of_rearranged {h h' : InnerHeap} {i : Nat} (hi : i < h.len)
    (hr : Rearranged (h.len - 1) (h.swap i (h.len - 1)) h') (hord : BinaryHeap.Ordered h'.key (h.len - 1)) :
    h'.pop.1 = h.ref i ∧ Without h (h.ref i) h'.pop.2 ∧ h'.pop.2.Valid := by
  have hlast : h.len - 1 < h.len := by omega
  have hlen : h'.len = h.len := hr.len.trans (len_swap h i _)
  have hpop : h'.pop.1 = h.ref i := by
    refine (congrArg h'.ref (congrArg (· - 1) hlen)).trans ((hr.tail _ le_rfl).trans ?_)
    rw [ref_swap hi hlast, if_pos rfl]
  obtain ⟨hw, hv⟩ := pop_spec (by omega) (hlen.symm ▸ hord) hr.indexed
  rw [hpop] at hw
  refine ⟨hpop, ⟨?_, fun x => ?_⟩, hv⟩
  · exact ((hr.perm.trans (slice_swap_perm hi hlast)).symm).trans hw.perm
  · rw [hw.items, hr.items, toItem_swap]

theorem Valid.pop {h : InnerHeap} (hv : h.Valid) (hlen : 0 < h.len) :
    (BinaryHeap.pop methods h).1 = h.ref 0 ∧ Without h (h.ref 0) (BinaryHeap.pop methods h).2 ∧
      (BinaryHeap.pop methods h).2.Valid := by
  have hlast : h.len - 1 < h.len := by omega
  refine pop_of_rearranged hlen ?_ (lawful.pop_ordered hlen hv.ordered)
  refine BinaryHeap.Kept.downFrom (Rearranged.kept ?_) _ 0 ?_
  · rw [len_swap]
    exact Nat.sub_le _ 1
  · exact ⟨.refl _, fun _ => rfl, fun _ _ => rfl, hv.indexed.swap hlen hlast⟩

theorem Valid.remove {h : InnerHeap} (hv : h.Valid) {i : Nat} (hi : i < h.len) :
    (BinaryHeap.remove methods h i).1 = h.ref i ∧ Without h (h.ref i) (BinaryHeap.remove methods h i).2 ∧
      (BinaryHeap.remove methods h i).2.Valid := by
  have hlast : h.len - 1 < h.len := by omega
  refine pop_of_rearranged hi ?_ (lawful.detach_ordered hi hv.ordered)
  refine BinaryHeap.Kept.detach (Rearranged.kept ?_) hi (fun he => ⟨?_, fun r => ?_, fun k hk => ?_, hv.indexed⟩) ?_
  · rw [len_swap]
    exact Nat.sub_le _ 1
  · exact (slice_swap_perm hi hlast).symm
  · exact (toItem_swap h _ _ r).symm
  · rw [ref_swap hi hlast, ← show i = h.len - 1 from he]
    split
    · rename_i hki
      rw [hki]
    · rfl
  · exact ⟨.refl _, fun _ => rfl, fun _ _ => rfl, hv.indexed.swap hi hlast⟩

theorem len_push (h : InnerHeap) (r : Ref) : (h.push r).len = h.len + 1 := by
  simp [push, len]

theorem ref_push (h : InnerHeap) (r : Ref) {k : Nat} (hk : k < h.len) : (h.push r).ref k = h.ref k := by
  simp only [push, ref, List.getD_eq_getElem?_getD]
  rw [List.getElem?_append_left hk]

theorem ref_push_len (h : InnerHeap) (r : Ref) : (h.push r).ref h.len = r := by
  simp [push, ref, len]

theorem toItem_push (h : InnerHeap) (r x : Ref) : ((h.push r).mem x).toItem = (h.mem x).toItem := toItem_setIndex h r _ x

theorem index_push (h : InnerHeap) (r x : Ref) : ((h.push r).mem x).index = if x = r then (h.len : Int) else (h.mem x).index :=
  index_setIndex h r _ x

theorem Indexed.push {h : InnerHeap} (hh : h.Indexed) {r : Ref} (hr : r ∉ h.slice) : (h.push r).Indexed := by
  intro k hk
  rw [len_push] at hk
  rw [item, index_push]
  rcases Nat.lt_succ_iff_lt_or_eq.1 hk with hk | rfl
  · have hne : h.ref k ≠ r := fun he => hr (mem_slice_iff.2 ⟨k, hk, he⟩)
    rw [ref_push h r hk, if_neg hne]
    exact hh k hk
  · rw [ref_push_len, if_pos rfl]

/-- `heap.Push` of a pointer that is not there. -/
theorem Valid.push {h : InnerHeap} (hv : h.Valid) {r : Ref} (hr : r ∉ h.slice) :
    Without (BinaryHeap.push methods h r) r h ∧ (BinaryHeap.push methods h r).Valid := by
  have hpos : 0 < (h.push r).len := by
    rw [len_push]
    exact Nat.succ_pos _
  have hmoved : Rearranged (h.push r).len (h.push r) (BinaryHeap.push methods h r) := by
    refine BinaryHeap.Kept.up (Rearranged.kept le_rfl) _ _ ?_ ⟨.refl _, fun _ => rfl, fun _ _ => rfl, hv.indexed.push hr⟩
    exact Nat.sub_lt hpos Nat.one_pos
  have hord : BinaryHeap.Ordered (key (BinaryHeap.push methods h r)) (h.len + 1) := by
    refine lawful.push_ordered (len_push h r) (fun k hk => ?_) hv.ordered
    show rank ((h.push r).mem ((h.push r).ref k)).toItem = rank (h.mem (h.ref k)).toItem
    rw [ref_push h r hk, toItem_push]
  refine ⟨⟨?_, fun x => ?_⟩, ?_, hmoved.indexed⟩
  · exact hmoved.perm.trans (List.perm_append_singleton _ _)
  · rw [hmoved.items, toItem_push]
  · rw [hmoved.len, len_push]
    exact hord

/-- The root of a valid heap is before every other item. -/
theorem Valid.root {h : InnerHeap} (hv : h.Valid) {r : Ref} (hr : r ∈ h.slice) :
    rank (h.item 0).toItem ≤ rank (h.mem r).toItem := by
  obtain ⟨k, hk, rfl⟩ := mem_slice_iff.1 hr
  exact hv.ordered.root_le k hk

end InnerHeap

/-! ## The queue -/

/-- The heap, the pointer the next item will have, and the items by job ID. -/
structure PriorityQueue where
  h : InnerHeap
  next : Ref
  byID : ExtTreeMap String Ref

namespace PriorityQueue

def new : PriorityQueue := ⟨⟨fun _ => default, []⟩, 0, ∅⟩

/-- The allocation of an item, its index not yet set. -/
def alloc (q : PriorityQueue) (it : Scheduler.Item) : InnerHeap :=
  { q.h with mem := Function.update q.h.mem q.next ⟨it, 0⟩ }

/-- Returns whether the job was added; a job already queued is left as it is. -/
def push (q : PriorityQueue) (jobID : String) (priority createdAt : Int) : Bool × PriorityQueue :=
  match q.byID[jobID]? with
  | some _ => (false, q)
  | none => (true, ⟨BinaryHeap.push InnerHeap.methods (q.alloc ⟨jobID, priority, createdAt⟩) q.next, q.next + 1,
      q.byID.insert jobID q.next⟩)

/-- Removes the first item and returns its job, and whether there was one. -/
def pop (q : PriorityQueue) : (String × Bool) × PriorityQueue :=
  if q.h.len = 0 then (("", false), q)
  else
    let (r, h') := BinaryHeap.pop InnerHeap.methods q.h
    (((h'.mem r).jobID, true), { q with h := h', byID := q.byID.erase (h'.mem r).jobID })

/-- Returns whether the job was queued. -/
def remove (q : PriorityQueue) (jobID : String) : Bool × PriorityQueue :=
  match q.byID[jobID]? with
  | none => (false, q)
  | some r => (true, { q with
      h := (BinaryHeap.remove InnerHeap.methods q.h (q.h.mem r).index.toNat).2,
      byID := q.byID.erase jobID })

def contains (q : PriorityQueue) (jobID : String) : Bool := q.byID[jobID]?.isSome

def len (q : PriorityQueue) : Nat := q.h.len

def clear (q : PriorityQueue) : PriorityQueue := { q with h := { q.h with slice := [] }, byID := ∅ }

/-- The items of the slice are the ones `byID` has, under their job IDs. -/
def Registered (q : PriorityQueue) : Prop := ∀ x r, q.byID[x]? = some r ↔ r ∈ q.h.slice ∧ (q.h.mem r).jobID = x

/-- What every operation keeps. -/
structure WF (q : PriorityQueue) : Prop where
  valid : q.h.Valid
  registered : q.Registered
  allocated : ∀ r ∈ q.h.slice, r < q.next

/-- The queued items, without their positions. -/
def contents (q : PriorityQueue) : List Scheduler.Item := q.h.slice.map fun r => (q.h.mem r).toItem

theorem WF.of_empty {q : PriorityQueue} (hs : q.h.slice = []) (hb : q.byID = ∅) : q.WF := by
  have hlen : ∀ k, ¬ k < q.h.len := fun k hk => by simp [InnerHeap.len, hs] at hk
  constructor
  · exact ⟨fun k _ hk => absurd hk (hlen k), fun k hk => absurd hk (hlen k)⟩
  · intro x r
    simp [hs, hb]
  · simp [hs]

theorem WF.new : new.WF := .of_empty rfl rfl

theorem WF.clear {q : PriorityQueue} : q.clear.WF := .of_empty rfl rfl

/-- A queued job stands behind one pointer only. -/
theorem WF.unique {q : PriorityQueue} (hq : q.WF) {r s : Ref} (hr : r ∈ q.h.slice) (hs : s ∈ q.h.slice)
    (he : (q.h.mem r).jobID = (q.h.mem s).jobID) : r = s := by
  have hr' := (hq.registered _ r).2 ⟨hr, rfl⟩
  have hs' := (hq.registered _ s).2 ⟨hs, rfl⟩
  rw [he, hs'] at hr'
  exact (Option.some.inj hr').symm

/-- Taking one pointer out of the slice, and its job out of the map. -/
theorem WF.without {q : PriorityQueue} (hq : q.WF) {r : Ref} {h' : InnerHeap} (hw : InnerHeap.Without q.h r h')
    (hv : h'.Valid) {x : String} (hx : (q.h.mem r).jobID = x) :
    PriorityQueue.WF { q with h := h', byID := q.byID.erase x } ∧
      q.contents.Perm ((q.h.mem r).toItem :: PriorityQueue.contents { q with h := h', byID := q.byID.erase x }) := by
  have hmem : ∀ s, s ∈ q.h.slice ↔ s = r ∨ s ∈ h'.slice := fun s => hw.perm.mem_iff.trans List.mem_cons
  have hr : r ∉ h'.slice := (List.nodup_cons.1 (hw.perm.nodup_iff.1 hq.valid.indexed.nodup)).1
  have hjob : ∀ s, (h'.mem s).jobID = (q.h.mem s).jobID := fun s => congrArg Scheduler.Item.jobID (hw.items s)
  refine ⟨⟨hv, fun y s => ?_, fun s hs => hq.allocated s ((hmem s).2 (.inr hs))⟩, ?_⟩
  · rw [ExtTreeMap.getElem?_erase, hjob]
    split
    · rename_i hxy
      obtain rfl : x = y := Std.LawfulEqCmp.compare_eq_iff_eq.1 hxy
      refine ⟨fun h => absurd h (by simp), fun ⟨hs, he⟩ => ?_⟩
      have : s = r := hq.unique ((hmem s).2 (.inr hs)) ((hmem r).2 (.inl rfl)) (he.trans hx.symm)
      exact absurd (this ▸ hs) hr
    · rename_i hxy
      rw [hq.registered, hmem]
      refine ⟨fun ⟨hs, he⟩ => ⟨hs.resolve_left ?_, he⟩, fun ⟨hs, he⟩ => ⟨.inr hs, he⟩⟩
      rintro rfl
      exact hxy (Std.LawfulEqCmp.compare_eq_iff_eq.2 (hx.symm.trans he))
  · have hp := hw.perm.map fun s => (q.h.mem s).toItem
    refine hp.trans (.of_eq ?_)
    simp only [List.map_cons, contents, hw.items]

theorem WF.next_notMem {q : PriorityQueue} (hq : q.WF) : q.next ∉ q.h.slice := fun h => lt_irrefl _ (hq.allocated _ h)

theorem mem_alloc {q : PriorityQueue} {it : Scheduler.Item} {r : Ref} (hr : r ≠ q.next) :
    (q.alloc it).mem r = q.h.mem r := Function.update_of_ne hr _ _

theorem mem_alloc_next (q : PriorityQueue) (it : Scheduler.Item) : (q.alloc it).mem q.next = ⟨it, 0⟩ :=
  Function.update_self ..

/-- The items of the slice are where they were. -/
theorem WF.alloc {q : PriorityQueue} (hq : q.WF) (it : Scheduler.Item) : (q.alloc it).Valid := by
  have hitem : ∀ k, k < q.h.len → (q.alloc it).item k = q.h.item k := by
    intro k hk
    refine mem_alloc fun he => hq.next_notMem ?_
    exact InnerHeap.mem_slice_iff.2 ⟨k, hk, he⟩
  refine ⟨fun k h0 hk => ?_, fun k hk => ?_⟩
  · have hk' : k < q.h.len := hk
    rw [InnerHeap.key, InnerHeap.key, hitem k hk', hitem _ (by omega)]
    exact hq.valid.ordered k h0 hk'
  · rw [hitem k hk]
    exact hq.valid.indexed k hk

theorem push_old {q : PriorityQueue} {id : String} {r : Ref} (h : q.byID[id]? = some r) (p c : Int) :
    q.push id p c = (false, q) := by
  simp only [push, h]

theorem push_new {q : PriorityQueue} {id : String} (h : q.byID[id]? = none) (p c : Int) :
    q.push id p c = (true, ⟨BinaryHeap.push InnerHeap.methods (q.alloc ⟨id, p, c⟩) q.next, q.next + 1,
      q.byID.insert id q.next⟩) := by
  simp only [push, h]

theorem WF.push {q : PriorityQueue} (hq : q.WF) {id : String} (hid : q.byID[id]? = none) (p c : Int) :
    (q.push id p c).2.WF ∧ (q.push id p c).2.contents.Perm (⟨id, p, c⟩ :: q.contents) := by
  obtain ⟨hw, hv⟩ := (hq.alloc ⟨id, p, c⟩).push hq.next_notMem
  rw [push_new hid]
  obtain ⟨h', hh⟩ : ∃ h', h' = BinaryHeap.push InnerHeap.methods (q.alloc ⟨id, p, c⟩) q.next := ⟨_, rfl⟩
  simp only [← hh] at hw hv ⊢
  have hmem : ∀ s, s ∈ h'.slice ↔ s = q.next ∨ s ∈ q.h.slice := fun s => hw.perm.mem_iff.trans List.mem_cons
  have hnew : (h'.mem q.next).toItem = ⟨id, p, c⟩ := by
    rw [← hw.items, mem_alloc_next]
  have hold : ∀ s ∈ q.h.slice, (h'.mem s).toItem = (q.h.mem s).toItem := fun s hs => by
    rw [← hw.items, mem_alloc (ne_of_mem_of_not_mem hs hq.next_notMem)]
  refine ⟨⟨hv, fun y s => ?_, fun s hs => ?_⟩, ?_⟩
  · rw [ExtTreeMap.getElem?_insert, hmem]
    split
    · rename_i hy
      obtain rfl : id = y := Std.LawfulEqCmp.compare_eq_iff_eq.1 hy
      refine ⟨fun h => ?_, fun ⟨hs, he⟩ => ?_⟩
      · cases h
        exact ⟨.inl rfl, congrArg Scheduler.Item.jobID hnew⟩
      · rcases hs with rfl | hs
        · rfl
        · rw [hold s hs] at he
          have := (hq.registered id s).2 ⟨hs, he⟩
          rw [hid] at this
          cases this
    · rename_i hy
      have hne : id ≠ y := fun he => hy (Std.LawfulEqCmp.compare_eq_iff_eq.2 he)
      rw [hq.registered]
      refine ⟨fun ⟨hs, he⟩ => ⟨.inr hs, by rw [hold s hs]; exact he⟩, fun ⟨hs, he⟩ => ?_⟩
      rcases hs with rfl | hs
      · exact absurd ((congrArg Scheduler.Item.jobID hnew).symm.trans he) hne
      · rw [hold s hs] at he
        exact ⟨hs, he⟩
  · rcases (hmem s).1 hs with rfl | hs
    · exact Nat.lt_succ_self _
    · exact (hq.allocated s hs).trans (Nat.lt_succ_self _)
  · refine (hw.perm.map fun s => (h'.mem s).toItem).trans (.of_eq ?_)
    rw [List.map_cons, hnew]
    exact congrArg _ (List.map_congr_left hold)

theorem WF.pop {q : PriorityQueue} (hq : q.WF) (hlen : 0 < q.h.len) :
    q.pop.1 = ((q.h.item 0).jobID, true) ∧ q.pop.2.WF ∧ q.contents.Perm ((q.h.item 0).toItem :: q.pop.2.contents) := by
  obtain ⟨hr, hw, hv⟩ := hq.valid.pop hlen
  have hjob : ((BinaryHeap.pop InnerHeap.methods q.h).2.mem (BinaryHeap.pop InnerHeap.methods q.h).1).jobID =
      (q.h.item 0).jobID := by
    rw [hr]
    exact congrArg Scheduler.Item.jobID (hw.items _)
  simp only [PriorityQueue.pop, if_neg (Nat.ne_of_gt hlen), hjob]
  exact ⟨trivial, hq.without hw hv rfl⟩

theorem WF.remove {q : PriorityQueue} (hq : q.WF) {id : String} {r : Ref} (hid : q.byID[id]? = some r) :
    (q.remove id).1 = true ∧ (q.remove id).2.WF ∧ q.contents.Perm ((q.h.mem r).toItem :: (q.remove id).2.contents) := by
  obtain ⟨hr, hjob⟩ := (hq.registered id r).1 hid
  obtain ⟨k, hk, rfl⟩ := InnerHeap.mem_slice_iff.1 hr
  -- the index field leads back to the position
  have hindex : (q.h.mem (q.h.ref k)).index.toNat = k := by
    rw [← InnerHeap.item, hq.valid.indexed k hk]
    rfl
  obtain ⟨-, hw, hv⟩ := hq.valid.remove hk
  simp only [PriorityQueue.remove, hid, hindex]
  exact ⟨trivial, hq.without hw hv hjob⟩

end PriorityQueue

end Distsched.Queue
