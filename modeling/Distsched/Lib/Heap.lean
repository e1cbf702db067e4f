/-
The binary heap of Go's `container/heap`, over any type that offers the methods of `heap.Interface`: `up` and `down` move
an element by swaps of positions, and `push`, `pop` and `remove` are made of them.

What a caller has to show of its methods is that they are those of a sequence of keys (`Lawful`): `less` compares the keys
at two positions, and `swap` exchanges them. Whatever else a swap keeps, the operations keep. The order of the heap is
lost at one position at a time. `OffAt` says what holds then, with the children of that position already in order with its
parent; a move takes the position with it.
-/
import Mathlib.Order.Nat
import Mathlib.Order.Lattice

namespace BinaryHeap

/-- The methods of `heap.Interface`, for elements of type `β`. -/
structure Interface (σ β : Type) where
  len : σ → Nat
  less : σ → Nat → Nat → Bool
  swap : σ → Nat → Nat → σ
  push : σ → β → σ
  pop : σ → β × σ

section Operations

variable {σ β : Type} (I : Interface σ β)

def up (s : σ) (j : Nat) : σ :=
  if (j - 1) / 2 = j ∨ I.less s j ((j - 1) / 2) = false then s else up (I.swap s ((j - 1) / 2) j) ((j - 1) / 2)
termination_by j
decreasing_by omega

/-- The child of `i` that is to be compared with it, if both are among the first `n`. -/
def child (s : σ) (i n : Nat) : Nat :=
  if 2 * i + 1 + 1 < n ∧ I.less s (2 * i + 1 + 1) (2 * i + 1) = true then 2 * i + 1 + 1 else 2 * i + 1

theorem lt_child (s : σ) (i n : Nat) : i < child I s i n := by
  unfold child
  split <;> omega

theorem child_lt {s : σ} {i n : Nat} (h : ¬ 2 * i + 1 ≥ n) : child I s i n < n := by
  unfold child
  split <;> omega

theorem parent_child (s : σ) (i n : Nat) : (child I s i n - 1) / 2 = i := by
  unfold child
  split <;> omega

/-- The loop of `down`, with the position it has come to. -/
def downFrom (s : σ) (i n : Nat) : Nat × σ :=
  if 2 * i + 1 ≥ n then (i, s)
  else if I.less s (child I s i n) i = false then (i, s)
  else downFrom (I.swap s i (child I s i n)) (child I s i n) n
termination_by n - i
decreasing_by
  have := lt_child I s i n
  omega

/-- Returns whether the element has moved. -/
def down (s : σ) (i n : Nat) : Bool × σ := (decide ((downFrom I s i n).1 > i), (downFrom I s i n).2)

def push (s : σ) (x : β) : σ := up I (I.push s x) (I.len (I.push s x) - 1)

def pop (s : σ) : β × σ := I.pop (down I (I.swap s 0 (I.len s - 1)) 0 (I.len s - 1)).2

/-- Moves the element at `i` down among the first `n`, or up where it cannot go down. -/
def settle (s : σ) (i n : Nat) : σ := if (down I s i n).1 = true then (down I s i n).2 else up I (down I s i n).2 i

/-- What `remove` does before it takes the last element off. -/
def detach (s : σ) (i : Nat) : σ :=
  if I.len s - 1 = i then s else settle I (I.swap s i (I.len s - 1)) i (I.len s - 1)

def remove (s : σ) (i : Nat) : β × σ := I.pop (detach I s i)

end Operations

/-! ## What swaps keep -/

section Swaps

variable {σ β : Type} {I : Interface σ β} {P : σ → Prop} {n : Nat}

/-- A property that swaps among the first `n` positions keep. -/
def Kept (I : Interface σ β) (n : Nat) (P : σ → Prop) : Prop := ∀ s i j, i < n → j < n → P s → P (I.swap s i j)

theorem Kept.up (h : Kept I n P) (s : σ) (j : Nat) (hj : j < n) (hs : P s) : P (up I s j) := by
  induction s, j using BinaryHeap.up.induct I with
  | case1 s j hstop =>
    rw [BinaryHeap.up, if_pos hstop]
    exact hs
  | case2 s j hmove ih =>
    have hi : (j - 1) / 2 < n := by omega
    rw [BinaryHeap.up, if_neg hmove]
    exact ih hi (h s _ j hi hj hs)

theorem Kept.downFrom (h : Kept I n P) (s : σ) (i : Nat) (hs : P s) : P (downFrom I s i n).2 := by
  induction s, i using BinaryHeap.downFrom.induct I n with
  | case1 s i hend =>
    rw [BinaryHeap.downFrom, if_pos hend]
    exact hs
  | case2 s i hend hstop =>
    rw [BinaryHeap.downFrom, if_neg hend, if_pos hstop]
    exact hs
  | case3 s i hend hmove ih =>
    have hc : child I s i n < n := child_lt I hend
    rw [BinaryHeap.downFrom, if_neg hend, if_neg hmove]
    exact ih (h s i _ ((lt_child I s i n).trans hc) hc hs)

theorem Kept.detach {s : σ} {i : Nat} (h : Kept I (I.len s - 1) P) (hi : i < I.len s) (hstay : i = I.len s - 1 → P s)
    (hswap : P (I.swap s i (I.len s - 1))) : P (detach I s i) := by
  have hdown := h.downFrom _ i hswap
  unfold BinaryHeap.detach
  by_cases he : I.len s - 1 = i
  · rw [if_pos he]
    exact hstay he.symm
  · rw [if_neg he, settle]
    by_cases hm : (down I (I.swap s i (I.len s - 1)) i (I.len s - 1)).1 = true
    · rw [if_pos hm]
      exact hdown
    · rw [if_neg hm]
      exact h.up _ i (by omega) hdown

end Swaps

/-! ## The order -/

section Order

variable {α : Type} [LinearOrder α] {key : Nat → α} {n i j : Nat}

/-- The first `n` keys form a heap: none is below its parent. -/
def Ordered (key : Nat → α) (n : Nat) : Prop := ∀ k, 0 < k → k < n → key ((k - 1) / 2) ≤ key k

theorem Ordered.mono {m : Nat} (h : Ordered key n) (hm : m ≤ n) : Ordered key m :=
  fun k h0 hk => h k h0 (hk.trans_le hm)

theorem Ordered.root_le (h : Ordered key n) (k : Nat) (hk : k < n) : key 0 ≤ key k := by
  induction k using Nat.strongRecOn with
  | ind k ih =>
    rcases Nat.eq_zero_or_pos k with rfl | h0
    · exact le_rfl
    · exact (ih _ (by omega) (by omega)).trans (h k h0 hk)

/-- The first `n` keys form a heap but for the one at `i`, which may be out of order with its parent and its children. -/
structure OffAt (key : Nat → α) (n i : Nat) : Prop where
  apart : ∀ k, 0 < k → k < n → k ≠ i → (k - 1) / 2 ≠ i → key ((k - 1) / 2) ≤ key k
  across : ∀ k, 0 < k → k < n → (k - 1) / 2 = i → 0 < i → key ((i - 1) / 2) ≤ key k

/-- A new key at one position of a heap. -/
theorem Ordered.offAt (h : Ordered key n) {key' : Nat → α} (he : ∀ k, k < n → k ≠ i → key' k = key k) :
    OffAt key' n i where
  apart k h0 hk hki hpi := by
    rw [he k hk hki, he _ (by omega) hpi]
    exact h k h0 hk
  across k h0 hk hp hi := by
    rw [he k hk (by omega), he _ (by omega) (by omega)]
    have hpk := h k h0 hk
    rw [hp] at hpk
    exact (h i hi (by omega)).trans hpk

/-- Off at `i`, and in order with its children: only the parent of `i` is left. -/
def Above (key : Nat → α) (n i : Nat) : Prop := OffAt key n i ∧ ∀ k, 0 < k → k < n → (k - 1) / 2 = i → key i ≤ key k

/-- Off at `i`, and in order with its parent: only the children of `i` are left. -/
def Beneath (key : Nat → α) (n i : Nat) : Prop := OffAt key n i ∧ (0 < i → key ((i - 1) / 2) ≤ key i)

theorem Above.ordered (h : Above key n i) (hp : 0 < i → key ((i - 1) / 2) ≤ key i) : Ordered key n := by
  intro k h0 hk
  by_cases hki : k = i
  · subst hki
    exact hp h0
  · by_cases hpi : (k - 1) / 2 = i
    · rw [hpi]
      exact h.2 k h0 hk hpi
    · exact h.1.apart k h0 hk hki hpi

theorem Beneath.ordered (h : Beneath key n i) (hc : ∀ k, 0 < k → k < n → (k - 1) / 2 = i → key i ≤ key k) :
    Ordered key n :=
  Above.ordered ⟨h.1, hc⟩ h.2

/-- The keys at two positions have changed places. -/
structure Exchanged (key key' : Nat → α) (i j : Nat) : Prop where
  left : key' i = key j
  right : key' j = key i
  rest : ∀ k, k ≠ i → k ≠ j → key' k = key k

variable {key' : Nat → α}

/-- A key moved to its parent's position is out of order there upwards only. -/
theorem Above.move (h : Above key n j) (hx : Exchanged key key' ((j - 1) / 2) j) (hj : 0 < j) (hjn : j < n)
    (hlt : key j < key ((j - 1) / 2)) : Above key' n ((j - 1) / 2) := by
  obtain ⟨i, hi⟩ : ∃ i, i = (j - 1) / 2 := ⟨_, rfl⟩
  rw [← hi] at hx hlt ⊢
  have hij : i < j := by omega
  -- what stood at the parent is below whatever was below it
  have hparent : ∀ k, 0 < k → k < n → k ≠ j → (k - 1) / 2 = i → key i ≤ key k := by
    intro k h0 hk hkj hp
    have := h.1.apart k h0 hk hkj (by omega)
    rwa [hp] at this
  refine ⟨⟨fun k h0 hk hki hpi => ?_, fun k h0 hk hp hi0 => ?_⟩, fun k h0 hk hp => ?_⟩
  · have hkj : k ≠ j := by omega
    rw [hx.rest k hki hkj]
    by_cases hpj : (k - 1) / 2 = j
    · rw [hpj, hx.right, hi]
      exact h.1.across k h0 hk hpj hj
    · rw [hx.rest _ hpi hpj]
      exact h.1.apart k h0 hk hkj hpj
  · have hgrand : key ((i - 1) / 2) ≤ key i := h.1.apart i hi0 (by omega) (by omega) (by omega)
    rw [hx.rest _ (by omega) (by omega)]
    by_cases hkj : k = j
    · rw [hkj, hx.right]
      exact hgrand
    · rw [hx.rest k (by omega) hkj]
      exact hgrand.trans (hparent k h0 hk hkj hp)
  · rw [hx.left]
    by_cases hkj : k = j
    · rw [hkj, hx.right]
      exact hlt.le
    · rw [hx.rest k (by omega) hkj]
      exact hlt.le.trans (hparent k h0 hk hkj hp)

/-- A least child moved up puts its parent's key in its own place, out of order there downwards only. -/
theorem OffAt.move (h : OffAt key n i) (hx : Exchanged key key' i j) (hj : 0 < j) (hjn : j < n) (hp : (j - 1) / 2 = i)
    (hlt : key j < key i) (hleast : ∀ k, 0 < k → k < n → (k - 1) / 2 = i → key j ≤ key k) : Beneath key' n j := by
  have hij : i < j := by omega
  refine ⟨⟨fun k h0 hk hkj hpj => ?_, fun k h0 hk hpk _ => ?_⟩, fun _ => ?_⟩
  · by_cases hpi : (k - 1) / 2 = i
    · rw [hpi, hx.left, hx.rest k (by omega) hkj]
      exact hleast k h0 hk hpi
    · rw [hx.rest _ hpi hpj]
      by_cases hki : k = i
      · -- the child is in order with the parent of its parent
        subst hki
        rw [hx.left]
        exact h.across j hj hjn hp h0
      · rw [hx.rest k hki hkj]
        exact h.apart k h0 hk hki hpi
  · rw [hp, hx.left, hx.rest k (by omega) (by omega)]
    have := h.apart k h0 hk (by omega) (by omega)
    rwa [hpk] at this
  · rw [hp, hx.left, hx.right]
    exact hlt.le

end Order

/-! ## The operations restore it -/

/-- The methods are those of a sequence of keys. -/
structure Lawful {σ β α : Type} [LinearOrder α] (I : Interface σ β) (key : σ → Nat → α) : Prop where
  len_swap : ∀ s i j, I.len (I.swap s i j) = I.len s
  less_iff : ∀ s i j, I.less s i j = true ↔ key s i < key s j
  swap : ∀ s i j, i < I.len s → j < I.len s → Exchanged (key s) (key (I.swap s i j)) i j

section Restore

variable {σ β α : Type} [LinearOrder α] {I : Interface σ β} {key : σ → Nat → α} {n : Nat}

theorem Lawful.less_false (hI : Lawful I key) {s : σ} {i j : Nat} (h : I.less s i j = false) : key s j ≤ key s i := by
  refine not_lt.1 fun hlt => ?_
  rw [(hI.less_iff s i j).2 hlt] at h
  cases h

theorem Lawful.up_ordered (hI : Lawful I key) (s : σ) (j : Nat) (hn : n ≤ I.len s) (hj : j < n)
    (h : Above (key s) n j) : Ordered (key (up I s j)) n := by
  induction s, j using up.induct I with
  | case1 s j hstop =>
    rw [up, if_pos hstop]
    refine h.ordered fun h0 => ?_
    exact hI.less_false (hstop.resolve_left (by omega))
  | case2 s j hmove ih =>
    obtain ⟨hne, hless⟩ := not_or.1 hmove
    have hlt : key s j < key s ((j - 1) / 2) := (hI.less_iff s _ _).1 (Bool.of_not_eq_false hless)
    have hx := hI.swap s ((j - 1) / 2) j (by omega) (by omega)
    rw [up, if_neg hmove]
    rw [hI.len_swap] at ih
    exact ih hn (by omega) (h.move hx (by omega) hj hlt)

/-- The child `down` picks is a least one. -/
theorem Lawful.child_least (hI : Lawful I key) {s : σ} {i k : Nat} (h0 : 0 < k) (hk : k < n) (hp : (k - 1) / 2 = i) :
    key s (child I s i n) ≤ key s k := by
  have hk' : k = 2 * i + 1 ∨ k = 2 * i + 1 + 1 := by omega
  unfold child
  split
  · rename_i h
    rcases hk' with rfl | rfl
    · exact ((hI.less_iff s _ _).1 h.2).le
    · exact le_rfl
  · rename_i h
    rcases hk' with rfl | rfl
    · exact le_rfl
    · exact hI.less_false (Bool.eq_false_iff.2 fun hl => h ⟨hk, hl⟩)

/-- Where `down` stops at once, nothing below is out of order. -/
theorem Lawful.le_children (hI : Lawful I key) {s : σ} {i : Nat}
    (h : 2 * i + 1 ≥ n ∨ I.less s (child I s i n) i = false) :
    ∀ k, 0 < k → k < n → (k - 1) / 2 = i → key s i ≤ key s k := by
  intro k h0 hk hp
  exact (hI.less_false (h.resolve_left (by omega))).trans (hI.child_least h0 hk hp)

theorem Lawful.move_child (hI : Lawful I key) {s : σ} {i : Nat} (hn : n ≤ I.len s) (h : OffAt (key s) n i)
    (hend : ¬ 2 * i + 1 ≥ n) (hmove : ¬ I.less s (child I s i n) i = false) :
    Beneath (key (I.swap s i (child I s i n))) n (child I s i n) := by
  have hlt := lt_child I s i n
  have hc := child_lt I hend (s := s)
  exact h.move (hI.swap s i _ (by omega) (by omega)) (by omega) hc (parent_child I s i n)
    ((hI.less_iff s _ _).1 (Bool.of_not_eq_false hmove)) (fun k h0 hk hp => hI.child_least h0 hk hp)

theorem Lawful.downFrom_ordered (hI : Lawful I key) (s : σ) (i : Nat) (hn : n ≤ I.len s) (h : Beneath (key s) n i) :
    Ordered (key (downFrom I s i n).2) n := by
  induction s, i using downFrom.induct I n with
  | case1 s i hend =>
    rw [downFrom, if_pos hend]
    exact h.ordered (hI.le_children (.inl hend))
  | case2 s i hend hstop =>
    rw [downFrom, if_neg hend, if_pos hstop]
    exact h.ordered (hI.le_children (.inr hstop))
  | case3 s i hend hmove ih =>
    rw [downFrom, if_neg hend, if_neg hmove]
    rw [hI.len_swap] at ih
    exact ih hn (hI.move_child hn h.1 hend hmove)

/-- The loop of `down` never comes back to where it started. -/
theorem le_downFrom (I : Interface σ β) (s : σ) (i : Nat) : i ≤ (downFrom I s i n).1 := by
  induction s, i using downFrom.induct I n with
  | case1 s i hend => rw [downFrom, if_pos hend]
  | case2 s i hend hstop => rw [downFrom, if_neg hend, if_pos hstop]
  | case3 s i hend hmove ih =>
    rw [downFrom, if_neg hend, if_neg hmove]
    exact (lt_child I s i n).le.trans ih

/-- One position off is what `settle` puts right: moving down, the element leaves a child in order with its parent;
where it does not move, only its parent is left. -/
theorem Lawful.settle_ordered (hI : Lawful I key) {s : σ} {i : Nat} (hn : n ≤ I.len s) (hi : i < n)
    (h : OffAt (key s) n i) : Ordered (key (settle I s i n)) n := by
  by_cases hstop : 2 * i + 1 ≥ n ∨ I.less s (child I s i n) i = false
  · have hd : downFrom I s i n = (i, s) := by
      rw [downFrom]
      rcases hstop with hend | hless
      · rw [if_pos hend]
      · rw [if_pos hless, ite_self]
    simp only [settle, down, hd, gt_iff_lt, lt_self_iff_false, decide_false, Bool.false_eq_true, if_false]
    exact hI.up_ordered s i hn hi ⟨h, hI.le_children hstop⟩
  · obtain ⟨hend, hmove⟩ := not_or.1 hstop
    have hd : downFrom I s i n = downFrom I (I.swap s i (child I s i n)) (child I s i n) n := by
      rw [downFrom, if_neg hend, if_neg hmove]
    have hmoved : (down I s i n).1 = true := by
      refine decide_eq_true ?_
      rw [hd]
      exact (lt_child I s i n).trans_le (le_downFrom I _ _)
    rw [settle, if_pos hmoved, down, hd]
    exact hI.downFrom_ordered _ _ (by rw [hI.len_swap]; exact hn) (hI.move_child hn h hend hmove)

theorem Lawful.offAt_swap (hI : Lawful I key) {s : σ} {i : Nat} (hi : i < I.len s) (h : Ordered (key s) (I.len s)) :
    OffAt (key (I.swap s i (I.len s - 1))) (I.len s - 1) i :=
  (h.mono (Nat.sub_le _ 1)).offAt fun k hk hki =>
    (hI.swap s i (I.len s - 1) hi (by omega)).rest k hki (by omega)

theorem Lawful.detach_ordered (hI : Lawful I key) {s : σ} {i : Nat} (hi : i < I.len s)
    (h : Ordered (key s) (I.len s)) : Ordered (key (detach I s i)) (I.len s - 1) := by
  unfold detach
  by_cases he : I.len s - 1 = i
  · rw [if_pos he]
    exact h.mono (Nat.sub_le _ 1)
  · rw [if_neg he]
    exact hI.settle_ordered (by rw [hI.len_swap]; omega) (by omega) (hI.offAt_swap hi h)

/-- The root has no parent to be out of order with. -/
theorem Lawful.pop_ordered (hI : Lawful I key) {s : σ} (hs : 0 < I.len s) (h : Ordered (key s) (I.len s)) :
    Ordered (key (down I (I.swap s 0 (I.len s - 1)) 0 (I.len s - 1)).2) (I.len s - 1) :=
  hI.downFrom_ordered _ 0 (by rw [hI.len_swap]; omega)
    ⟨hI.offAt_swap hs h, fun h0 => absurd h0 (Nat.lt_irrefl 0)⟩

/-- An element added at the end has no children to be out of order with. -/
theorem Lawful.push_ordered (hI : Lawful I key) {s : σ} {x : β} (hlen : I.len (I.push s x) = I.len s + 1)
    (hkey : ∀ k, k < I.len s → key (I.push s x) k = key s k) (h : Ordered (key s) (I.len s)) :
    Ordered (key (push I s x)) (I.len s + 1) := by
  unfold push
  rw [hlen, Nat.add_sub_cancel]
  refine hI.up_ordered _ _ hlen.ge (Nat.lt_succ_self _) ⟨⟨fun k h0 hk hke _ => ?_, fun k _ hk hp _ => ?_⟩, ?_⟩
  · rw [hkey k (by omega), hkey _ (by omega)]
    exact h k h0 (by omega)
  · omega
  · intro k _ hk hp
    omega

end Restore

end BinaryHeap
