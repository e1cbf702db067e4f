/-
Programs that run at the same time over one state. The threads of a pool take their operations one at a
time, in any order; each keeps the notes of a protocol. `Reaches` restricts the steps by a guard on the
operation, the notes of the thread that takes it, the notes of all threads, and the state before it.

An invariant relates the state to the notes of all threads. If every permitted and guarded operation keeps it
(`Inductive`), then threads that meet the protocol keep meeting it in every interleaving, and the invariant
holds throughout (`Reaches.sound`). `Stable` is the case of an invariant that speaks of one thread at a time.
-/
import Distsched.Lib.Prog
import Mathlib.Data.List.Basic

namespace Prog

variable {Op : Type} {Resp : Op → Type} {σ γ α : Type}

/-- A program under way, with its notes. -/
structure Thread (Op : Type) (Resp : Op → Type) (γ α : Type) where
  prog : Prog Op Resp α
  notes : γ

structure Pool (Op : Type) (Resp : Op → Type) (σ γ α : Type) where
  state : σ
  threads : List (Thread Op Resp γ α)

namespace Pool

/-- The notes of all threads. -/
def notes (c : Pool Op Resp σ γ α) : List γ := c.threads.map Thread.notes

/-- The result of thread `i`, if it has finished. -/
def result (c : Pool Op Resp σ γ α) (i : Nat) : Option α :=
  match c.threads[i]? with
  | some ⟨.ret a, _⟩ => some a
  | _ => none

/-- Every thread has finished. -/
def idle (c : Pool Op Resp σ γ α) : Bool :=
  c.threads.all fun t => match t.prog with
    | .ret _ => true
    | .call .. => false

/-- No thread is under way: each has finished or is as it was in `c₀`. -/
def AtRest (c₀ c : Pool Op Resp σ γ α) : Prop :=
  ∀ (i : Nat) (t : Thread Op Resp γ α), c.threads[i]? = some t → (∃ a, t.prog = .ret a) ∨ c₀.threads[i]? = some t

theorem atRest_of_idle {c₀ c : Pool Op Resp σ γ α} (h : c.idle = true) : AtRest c₀ c := by
  intro i ⟨p, g⟩ hi
  have hret := List.all_eq_true.1 h _ (List.mem_of_getElem? hi)
  cases p with
  | ret a => exact .inl ⟨a, rfl⟩
  | call op k => cases hret

/-- One thread for each of a list of tasks, about to begin in state `s`. -/
def spawn {ι : Type} (prog : ι → Prog Op Resp α) (notes : ι → γ) (ts : List ι) (s : σ) : Pool Op Resp σ γ α :=
  ⟨s, ts.map fun t => ⟨prog t, notes t⟩⟩

theorem mem_notes_spawn {ι : Type} {prog : ι → Prog Op Resp α} {notes : ι → γ} {ts : List ι} {s : σ} {g : γ}
    (h : g ∈ (spawn prog notes ts s).notes) : ∃ t ∈ ts, g = notes t := by
  obtain ⟨_, hthread, rfl⟩ := List.mem_map.1 h
  obtain ⟨t, ht, rfl⟩ := List.mem_map.1 hthread
  exact ⟨t, ht, rfl⟩

/-- Each task is the thread of its number. -/
theorem thread_spawn {ι : Type} {prog : ι → Prog Op Resp α} {notes : ι → γ} {ts : List ι} {s : σ} {i : Nat}
    {th : Thread Op Resp γ α} (h : (spawn prog notes ts s).threads[i]? = some th) :
    ∃ t, ts[i]? = some t ∧ th = ⟨prog t, notes t⟩ := by
  rw [spawn, List.getElem?_map] at h
  obtain ⟨t, ht, rfl⟩ := Option.map_eq_some_iff.1 h
  exact ⟨t, ht, rfl⟩

theorem thread_of_result {c : Pool Op Resp σ γ α} {i : Nat} {a : α} (h : c.result i = some a) :
    ∃ g, c.threads[i]? = some ⟨.ret a, g⟩ := by
  unfold result at h
  split at h
  · rename_i g hi
    cases h
    exact ⟨g, hi⟩
  · cases h

variable (h : Handler Op Resp σ) (P : Protocol Op Resp γ)

/-- The next operation of thread `i`, if it has not finished. -/
def step (c : Pool Op Resp σ γ α) (i : Nat) : Option (Pool Op Resp σ γ α) :=
  match c.threads[i]? with
  | some ⟨.call op k, g⟩ =>
    some ⟨(h op c.state).2, c.threads.set i ⟨k (h op c.state).1, P.next op (h op c.state).1 g⟩⟩
  | _ => none

/-- A guard: a condition on an operation about to be taken, the notes of its thread, the notes of all threads
and the state. -/
abbrev Guard (Op : Type) (σ γ : Type) := Op → γ → List γ → σ → Prop

/-- The operation that thread `i` is about to take meets the guard. -/
def Allows (ok : Guard Op σ γ) (c : Pool Op Resp σ γ α) (i : Nat) : Prop :=
  ∀ op k g, c.threads[i]? = some ⟨.call op k, g⟩ → ok op g c.notes c.state

/-- The pools reached from `c₀` by steps that all meet the guard. -/
inductive Reaches (ok : Guard Op σ γ) (c₀ : Pool Op Resp σ γ α) : Pool Op Resp σ γ α → Prop
  | refl : Reaches ok c₀ c₀
  | step {c c' : Pool Op Resp σ γ α} {i : Nat} : Reaches ok c₀ c → c.Allows ok i → c.step h P i = some c' →
    Reaches ok c₀ c'

/-- No condition. -/
def free : Guard Op σ γ := fun _ _ _ _ => True

/-- The pool after the threads of a schedule have taken their turns, if each of these passes a test. -/
def run (test : Op → γ → List γ → σ → Bool) : Pool Op Resp σ γ α → List Nat → Option (Pool Op Resp σ γ α)
  | c, [] => some c
  | c, i :: schedule =>
    match c.threads[i]? with
    | some ⟨.call op _, g⟩ => if test op g c.notes c.state then (c.step h P i).bind (run test · schedule) else none
    | _ => none

variable {h P} {ok : Guard Op σ γ} {c₀ c c' : Pool Op Resp σ γ α}

/-- What a step is. -/
theorem step_eq_some {i : Nat} (hs : c.step h P i = some c') : ∃ op k g, c.threads[i]? = some ⟨.call op k, g⟩ ∧
    c' = ⟨(h op c.state).2, c.threads.set i ⟨k (h op c.state).1, P.next op (h op c.state).1 g⟩⟩ := by
  unfold step at hs
  split at hs
  · rename_i op k g hi
    exact ⟨op, k, g, hi, (Option.some.inj hs).symm⟩
  · cases hs

theorem Reaches.trans (h₁ : Reaches h P ok c₀ c) (h₂ : Reaches h P ok c c') : Reaches h P ok c₀ c' := by
  induction h₂ with
  | refl => exact h₁
  | step _ hok hs ih => exact ih.step hok hs

/-- A schedule whose steps pass a test that implies the guard. -/
theorem reaches_of_run {test : Op → γ → List γ → σ → Bool} (ht : ∀ op g gs s, test op g gs s = true → ok op g gs s) :
    ∀ {schedule : List Nat} {c c' : Pool Op Resp σ γ α}, c.run h P test schedule = some c' → Reaches h P ok c c'
  | [], c, c', hs => by
    cases hs
    exact .refl
  | i :: schedule, c, c', hs => by
    unfold run at hs
    split at hs
    · rename_i op k g hi
      split at hs
      · rename_i hp
        obtain ⟨c₁, h₁, h₂⟩ := Option.bind_eq_some_iff.1 hs
        refine (Reaches.step .refl ?_ h₁).trans (reaches_of_run ht h₂)
        intro op' k' g' hi'
        cases hi.symm.trans hi'
        exact ht _ _ _ _ hp
      · cases hs
    · cases hs

/-! ## Notes that can be computed -/

/-- The same threads in the same state, with other notes. -/
structure Alike {γ' : Type} (R : γ' → γ → Prop) (c' : Pool Op Resp σ γ' α) (c : Pool Op Resp σ γ α) : Prop where
  state : c.state = c'.state
  thread : ∀ (i : Nat) (p : Prog Op Resp α) (g' : γ'), c'.threads[i]? = some ⟨p, g'⟩ →
    ∃ g, c.threads[i]? = some ⟨p, g⟩ ∧ R g' g

theorem Alike.spawn {γ' : Type} {R : γ' → γ → Prop} {ι : Type} (prog : ι → Prog Op Resp α) {notes' : ι → γ'} {notes : ι → γ}
    (hR : ∀ t, R (notes' t) (notes t)) (ts : List ι) (s : σ) : Alike R (spawn prog notes' ts s) (spawn prog notes ts s) := by
  refine ⟨rfl, fun i p g' hi => ?_⟩
  obtain ⟨t, ht, he⟩ := thread_spawn hi
  cases he
  refine ⟨notes t, ?_, hR t⟩
  rw [Pool.spawn, List.getElem?_map, ht]
  rfl

theorem Alike.step {γ' : Type} {R : γ' → γ → Prop} {P' : Protocol Op Resp γ'} {c' d' : Pool Op Resp σ γ' α} {i : Nat}
    (hR : ∀ op r g' g, R g' g → R (P'.next op r g') (P.next op r g)) (h' : Alike R c' c) (hs : c'.step h P' i = some d') :
    ∃ d, c.step h P i = some d ∧ Alike R d' d := by
  obtain ⟨op, k, g', hi, rfl⟩ := step_eq_some hs
  obtain ⟨g, hi', hg⟩ := h'.thread i _ g' hi
  refine ⟨⟨(h op c.state).2, c.threads.set i ⟨k (h op c.state).1, P.next op (h op c.state).1 g⟩⟩, ?_, ?_, ?_⟩
  · rw [Pool.step, hi']
  · rw [h'.state]
  · intro n p g₁ hn
    rw [List.getElem?_set] at hn ⊢
    split at hn
    · split at hn
      · cases hn
        obtain ⟨hlt, -⟩ := List.getElem?_eq_some_iff.1 hi'
        rw [if_pos ‹_›, if_pos hlt, h'.state]
        exact ⟨_, rfl, hR op _ g' g hg⟩
      · cases hn
    · rw [if_neg ‹_›]
      exact h'.thread n p g₁ hn

/-- A schedule whose steps pass a test on computed notes, where the test implies the guard on the notes these stand for. -/
theorem reaches_of_shadow {γ' : Type} {R : γ' → γ → Prop} {P' : Protocol Op Resp γ'} {test : Op → γ' → List γ' → σ → Bool}
    (hR : ∀ op r g' g, R g' g → R (P'.next op r g') (P.next op r g))
    (ht : ∀ op g' gs' g gs s, R g' g → test op g' gs' s = true → ok op g gs s) :
    ∀ {schedule : List Nat} {c' d' : Pool Op Resp σ γ' α} {c : Pool Op Resp σ γ α},
      c'.run h P' test schedule = some d' → Alike R c' c → ∃ d, Reaches h P ok c d ∧ Alike R d' d
  | [], c', d', c, hs, halike => by
    cases hs
    exact ⟨c, .refl, halike⟩
  | i :: schedule, c', d', c, hs, halike => by
    unfold run at hs
    split at hs
    · rename_i op k g' hi
      split at hs
      · rename_i hp
        obtain ⟨c₁', h₁, h₂⟩ := Option.bind_eq_some_iff.1 hs
        obtain ⟨c₁, hstep, halike₁⟩ := halike.step hR h₁
        obtain ⟨d, hreach, hd⟩ := reaches_of_shadow hR ht h₂ halike₁
        refine ⟨d, (Reaches.step .refl ?_ hstep).trans hreach, hd⟩
        intro op₁ k₁ g₁ hi₁
        obtain ⟨g, hi', hg⟩ := halike.thread i _ g' hi
        cases hi'.symm.trans hi₁
        rw [halike.state]
        exact ht _ _ _ _ _ _ hg hp
      · cases hs
    · cases hs

theorem Alike.result {γ' : Type} {R : γ' → γ → Prop} {c' : Pool Op Resp σ γ' α} (h' : Alike R c' c) {i : Nat} {a : α}
    (hi : c'.result i = some a) : c.result i = some a := by
  obtain ⟨g', hi⟩ := thread_of_result hi
  obtain ⟨g, hi', -⟩ := h'.thread i _ g' hi
  rw [Pool.result, hi']

/-! ## Invariants of a pool -/

/-- What some thread's notes satisfy, they still do after a step, if those of the stepping thread keep it. -/
theorem exists_mem_set {gs : List γ} {i : Nat} {g g' : γ} {p : γ → Prop} (hi : gs[i]? = some g)
    (h : ∃ a ∈ gs, p a) (hp : p g → p g') : ∃ a ∈ gs.set i g', p a := by
  obtain ⟨a, ha, hpa⟩ := h
  obtain ⟨k, hk⟩ := List.mem_iff_getElem?.1 ha
  by_cases he : i = k
  · subst he
    cases hi.symm.trans hk
    obtain ⟨hlt, _⟩ := List.getElem?_eq_some_iff.1 hi
    exact ⟨g', List.mem_set hlt g', hp hpa⟩
  · refine ⟨a, List.mem_of_getElem? (i := k) ?_, hpa⟩
    rw [List.getElem?_set_ne he]
    exact hk

/-- A thread whose notes stay as they are. -/
theorem set_self {gs : List γ} {i : Nat} {g : γ} (hi : gs[i]? = some g) : gs.set i g = gs := by
  obtain ⟨hlt, rfl⟩ := List.getElem?_eq_some_iff.1 hi
  exact List.set_getElem_self hlt

/-- What some thread's notes satisfy after a step, some did before, if those of the stepping thread have not gained it. -/
theorem exists_mem_of_set {gs : List γ} {i : Nat} {g g' : γ} {p : γ → Prop} (hi : gs[i]? = some g)
    (h : ∃ a ∈ gs.set i g', p a) (hp : p g' → p g) : ∃ a ∈ gs, p a := by
  obtain ⟨a, ha, hpa⟩ := h
  rcases List.mem_or_eq_of_mem_set ha with ha | rfl
  · exact ⟨a, ha, hpa⟩
  · exact ⟨g, List.mem_of_getElem? hi, hp hpa⟩

/-- Every permitted operation that meets the guard answers within the protocol and keeps the invariant. -/
def Inductive (h : Handler Op Resp σ) (P : Protocol Op Resp γ) (ok : Guard Op σ γ) (G : σ → List γ → Prop) : Prop :=
  ∀ op g gs s i, gs[i]? = some g → G s gs → P.permits op g → ok op g gs s →
    P.answers op (h op s).1 g ∧ G (h op s).2 (gs.set i (P.next op (h op s).1 g))

/-- The invariant holds, and every thread meets the protocol to its own end. -/
structure Sound (P : Protocol Op Resp γ) (G : σ → List γ → Prop) (Q : Nat → α → γ → Prop)
    (c : Pool Op Resp σ γ α) : Prop where
  inv : G c.state c.notes
  threads : ∀ i t, c.threads[i]? = some t → Meets P t.prog t.notes (Q i)

variable {G : σ → List γ → Prop} {Q : Nat → α → γ → Prop}

theorem Sound.step (hG : Inductive h P ok G) (hc : Sound P G Q c) {i : Nat} (hok : c.Allows ok i)
    (hs : c.step h P i = some c') : Sound P G Q c' := by
  obtain ⟨op, k, g, hi, rfl⟩ := step_eq_some hs
  have hg : c.notes[i]? = some g := by rw [notes, List.getElem?_map, hi]; rfl
  obtain ⟨hperm, hrest⟩ := hc.threads i _ hi
  obtain ⟨hans, hinv⟩ := hG op g c.notes c.state i hg hc.inv hperm (hok op k g hi)
  refine ⟨?_, fun n t ht => ?_⟩
  · unfold notes
    rw [List.map_set]
    exact hinv
  · -- the stepping thread has moved on, the others are as they were
    rw [List.getElem?_set] at ht
    split at ht
    · rename_i he
      subst he
      split at ht
      · cases ht
        exact hrest _ hans
      · cases ht
    · exact hc.threads n t ht

theorem Reaches.sound (hG : Inductive h P ok G) (hc : Sound P G Q c₀) (hr : Reaches h P ok c₀ c) : Sound P G Q c := by
  induction hr with
  | refl => exact hc
  | step _ hok hs ih => exact ih.step hG hok hs

/-- The state is changed from outside. -/
theorem Sound.outside (hc : Sound P G Q c) {s : σ} (hs : G s c.notes) : Sound P G Q { c with state := s } :=
  ⟨hs, hc.threads⟩

/-- One more thread, about to begin. -/
def enter (c : Pool Op Resp σ γ α) (p : Prog Op Resp α) (g : γ) : Pool Op Resp σ γ α :=
  { c with threads := c.threads ++ [⟨p, g⟩] }

theorem Sound.enter (hc : Sound P G Q c) {p : Prog Op Resp α} {g : γ} (hG : G c.state (c.notes ++ [g]))
    (hp : Meets P p g (Q c.threads.length)) : Sound P G Q (c.enter p g) := by
  refine ⟨?_, fun i t ht => ?_⟩
  · rw [notes, Pool.enter, List.map_append]
    exact hG
  · rw [Pool.enter, List.getElem?_append] at ht
    split at ht
    · exact hc.threads i t ht
    · rename_i hi
      obtain ⟨hlt, rfl⟩ := List.getElem?_eq_some_iff.1 ht
      obtain rfl : i = c.threads.length := by
        have : i - c.threads.length < 1 := hlt
        omega
      simpa using hp

/-- A finished thread has its postcondition. -/
theorem Sound.finished (hc : Sound P G Q c) {i : Nat} {a : α} (hf : c.result i = some a) :
    ∃ g ∈ c.notes, Q i a g := by
  obtain ⟨g, hi⟩ := thread_of_result hf
  refine ⟨g, ?_, hc.threads i _ hi⟩
  have : c.notes[i]? = some g := by rw [notes, List.getElem?_map, hi]; rfl
  exact List.mem_of_getElem? this

/-- While no thread is under way, the notes are those of the start and those with which threads ended. -/
theorem Sound.atRest (hc : Sound P G Q c) (hr : AtRest c₀ c) {g : γ} (hg : g ∈ c.notes) :
    (∃ i a, Q i a g) ∨ g ∈ c₀.notes := by
  obtain ⟨⟨p, g⟩, ht, rfl⟩ := List.mem_map.1 hg
  obtain ⟨i, hi⟩ := List.mem_iff_getElem?.1 ht
  rcases hr i _ hi with ⟨a, rfl⟩ | hstart
  · exact .inl ⟨i, a, hc.threads i _ hi⟩
  · exact .inr (List.mem_map.2 ⟨_, List.mem_of_getElem? hstart, rfl⟩)

/-- Once every thread has finished, the notes are those with which they ended. -/
theorem Sound.ended (hc : Sound P G Q c) (hf : c.idle = true) {g : γ} (hg : g ∈ c.notes) : ∃ i a, Q i a g := by
  have hrest : AtRest ⟨c.state, []⟩ c := atRest_of_idle hf
  rcases hc.atRest hrest hg with h | h
  · exact h
  · cases h

/-! ## Other notes

The notes of a pool do not bear on its run, so a pool that keeps the notes of one protocol can be followed with those of
another.
-/

section Tracked

variable {γ' : Type} {P' : Protocol Op Resp γ'} {G' : σ → List γ' → Prop} {Q' : α → γ' → Prop}

/-- With suitable notes in place of its own, the invariant holds of the pool and every thread meets the protocol. -/
structure Tracks (P' : Protocol Op Resp γ') (G' : σ → List γ' → Prop) (Q' : α → γ' → Prop) (c : Pool Op Resp σ γ α)
    (gs : List γ') : Prop where
  inv : G' c.state gs
  length : gs.length = c.threads.length
  threads : ∀ (i : Nat) t g, c.threads[i]? = some t → gs[i]? = some g → Meets P' t.prog g Q'

/-- Lists of one length have an element at the same places. -/
theorem exists_getElem?_of_length {β δ : Type} {l : List β} {l' : List δ} (h : l.length = l'.length) {i : Nat} {b : β}
    (hi : l[i]? = some b) : ∃ d, l'[i]? = some d := by
  obtain ⟨hlt, -⟩ := List.getElem?_eq_some_iff.1 hi
  exact ⟨_, List.getElem?_eq_getElem (h ▸ hlt)⟩

def Tracked (P' : Protocol Op Resp γ') (G' : σ → List γ' → Prop) (Q' : α → γ' → Prop) (c : Pool Op Resp σ γ α) : Prop :=
  ∃ gs, Tracks P' G' Q' c gs

/-- The guard has to hold for whatever notes the thread may have in place of its own. -/
theorem Tracked.step {ok' : Guard Op σ γ'} (hG : Inductive h P' ok' G') (hc : Tracked P' G' Q' c) {i : Nat}
    (hok : ∀ op k g g' gs, c.threads[i]? = some ⟨.call op k, g⟩ → gs[i]? = some g' → G' c.state gs → ok' op g' gs c.state)
    (hs : c.step h P i = some c') : Tracked P' G' Q' c' := by
  obtain ⟨op, k, g, hi, rfl⟩ := step_eq_some hs
  obtain ⟨gs, hinv, hlen, hthreads⟩ := hc
  obtain ⟨g', hg⟩ := exists_getElem?_of_length hlen.symm hi
  obtain ⟨hperm, hrest⟩ := hthreads i _ g' hi hg
  obtain ⟨hans, hinv'⟩ := hG op g' gs c.state i hg hinv hperm (hok op k g g' gs hi hg hinv)
  refine ⟨gs.set i (P'.next op (h op c.state).1 g'), hinv', by simpa using hlen, fun n t g₁ ht hg₁ => ?_⟩
  by_cases hn : i = n
  · subst hn
    rw [List.getElem?_set_self' , hi] at ht
    rw [List.getElem?_set_self', hg] at hg₁
    cases ht
    cases hg₁
    exact hrest _ hans
  · rw [List.getElem?_set_ne hn] at ht hg₁
    exact hthreads n t g₁ ht hg₁

/-- The state is changed from outside, and so may be what is said of it. -/
theorem Tracked.outside {G₁ : σ → List γ' → Prop} (hc : Tracked P' G' Q' c) {s : σ} (hs : ∀ gs, G' c.state gs → G₁ s gs) :
    Tracked P' G₁ Q' { c with state := s } := by
  obtain ⟨gs, hinv, hlen, hthreads⟩ := hc
  exact ⟨gs, hs gs hinv, hlen, hthreads⟩

/-- One more thread, and the state changed as it enters. -/
theorem Tracked.enter (hc : Tracked P' G' Q' c) {p : Prog Op Resp α} (g : γ) {g' : γ'} {s : σ}
    (hG : ∀ gs, G' c.state gs → G' s (gs ++ [g'])) (hp : Meets P' p g' Q') :
    Tracked P' G' Q' (Pool.enter { c with state := s } p g) := by
  obtain ⟨gs, hinv, hlen, hthreads⟩ := hc
  refine ⟨gs ++ [g'], hG gs hinv, by simp [Pool.enter, hlen], fun n t g₁ ht hg₁ => ?_⟩
  rw [Pool.enter, List.getElem?_append] at ht
  rw [List.getElem?_append, hlen] at hg₁
  split at ht
  · rename_i hn
    rw [if_pos hn] at hg₁
    exact hthreads n t g₁ ht hg₁
  · rename_i hn
    rw [if_neg hn] at hg₁
    rw [List.getElem?_singleton] at ht hg₁
    split at ht
    · rename_i hlast
      rw [if_pos hlast] at hg₁
      cases ht
      cases hg₁
      exact hp
    · cases ht

/-- Once every thread has finished, the notes are those with which they ended. -/
theorem Tracks.ended {gs : List γ'} (hc : Tracks P' G' Q' c gs) (hf : c.idle = true) {g : γ'} (hg : g ∈ gs) :
    ∃ a, Q' a g := by
  obtain ⟨i, hi⟩ := List.mem_iff_getElem?.1 hg
  obtain ⟨⟨p, g₀⟩, ht⟩ := exists_getElem?_of_length hc.length hi
  have hret := List.all_eq_true.1 hf _ (List.mem_of_getElem? ht)
  have hmeets := hc.threads i _ g ht hi
  cases p with
  | ret a => exact ⟨a, hmeets⟩
  | call op k => cases hret

end Tracked

/-- A permitted and guarded operation answers within the protocol, keeps a condition `G` on the state, makes the
notes of its thread true after it and keeps the notes of the others true. -/
structure Stable (h : Handler Op Resp σ) (P : Protocol Op Resp γ) (ok : Guard Op σ γ) (A : γ → σ → Prop)
    (G : σ → Prop) : Prop where
  answers : ∀ op g gs s, A g s → G s → P.permits op g → ok op g gs s → P.answers op (h op s).1 g
  own : ∀ op g gs s, A g s → G s → P.permits op g → ok op g gs s → A (P.next op (h op s).1 g) (h op s).2
  other : ∀ op g g' gs s, A g s → A g' s → G s → P.permits op g → ok op g gs s → A g' (h op s).2
  kept : ∀ op g gs s, A g s → G s → P.permits op g → ok op g gs s → G (h op s).2

theorem Stable.inductive_ {A : γ → σ → Prop} {G : σ → Prop} (hst : Stable h P ok A G) :
    Inductive h P ok fun s gs => G s ∧ ∀ g ∈ gs, A g s := by
  rintro op g gs s i hi ⟨hG, hA⟩ hperm hok
  have hg : A g s := hA g (List.mem_of_getElem? hi)
  refine ⟨hst.answers op g gs s hg hG hperm hok, hst.kept op g gs s hg hG hperm hok, fun g' hg' => ?_⟩
  rcases List.mem_or_eq_of_mem_set hg' with hg' | rfl
  · exact hst.other op g g' gs s hg (hA g' hg') hG hperm hok
  · exact hst.own op g gs s hg hG hperm hok

end Pool

end Prog
