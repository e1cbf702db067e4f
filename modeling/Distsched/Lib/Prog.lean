/-
Programs over a signature of atomic operations, and what it means to run one alone.

A program is a tree of calls: it performs an operation of the signature, and goes on with what the
operation answered. A handler says what each operation answers in a state and which state it
leaves. `exec` runs a program to its end with no other program in between; `Sat` is the weakest
precondition of such a run.

`Meets` is the syntactic counterpart, independent of any state: a protocol keeps a ghost value, says
which operations are permitted at a ghost value, which answers may come back and how the ghost value
moves, and a program meets it when every operation it can perform is permitted. One proof that a
program meets a protocol serves every handler that honours the protocol (`Meets.exec`), whether the
program runs alone or among others.
-/
import Mathlib.Data.List.Chain
import Mathlib.Logic.Relation

/-- A program over the operations `Op`, where `Resp op` is the type of the answers to `op`. -/
inductive Prog (Op : Type) (Resp : Op → Type) (α : Type) : Type
  | ret (a : α) : Prog Op Resp α
  | call (op : Op) (k : Resp op → Prog Op Resp α) : Prog Op Resp α

namespace Prog

variable {Op : Type} {Resp : Op → Type} {σ γ α β : Type}

protected def bind : Prog Op Resp α → (α → Prog Op Resp β) → Prog Op Resp β
  | .ret a, f => f a
  | .call op k, f => .call op fun r => (k r).bind f

instance : Monad (Prog Op Resp) where
  pure := .ret
  bind := Prog.bind

/-- One operation. -/
def perform (op : Op) : Prog Op Resp (Resp op) := .call op .ret

theorem call_bind (op : Op) (k : Resp op → Prog Op Resp α) (f : α → Prog Op Resp β) :
    (Prog.call op k >>= f) = .call op fun r => k r >>= f := rfl

theorem bind_ret : ∀ p : Prog Op Resp α, (p >>= Prog.ret) = p
  | .ret _ => rfl
  | .call op k => by rw [call_bind]; congr; funext r; exact bind_ret (k r)

theorem bind_assoc' {δ : Type} : ∀ (p : Prog Op Resp α) (f : α → Prog Op Resp β) (g : β → Prog Op Resp δ),
    (p >>= f >>= g) = p >>= fun a => f a >>= g
  | .ret _, _, _ => rfl
  | .call op k, f, g => by
    rw [call_bind, call_bind, call_bind]; congr; funext r; exact bind_assoc' (k r) f g

instance : LawfulMonad (Prog Op Resp) :=
  LawfulMonad.mk' (Prog Op Resp) (fun p => bind_ret p) (fun _ _ => rfl) bind_assoc'

/-! ## Running alone -/

/-- What each operation answers in a state, and the state it leaves. -/
abbrev Handler (Op : Type) (Resp : Op → Type) (σ : Type) := (op : Op) → σ → Resp op × σ

/-- The result and the final state of a run with no interference. -/
def exec (h : Handler Op Resp σ) : Prog Op Resp α → σ → α × σ
  | .ret a, s => (a, s)
  | .call op k, s => exec h (k (h op s).1) (h op s).2

section Exec

variable (h : Handler Op Resp σ)

@[simp] theorem exec_perform (op : Op) (s : σ) : exec h (perform op) s = h op s := rfl

@[simp] theorem exec_bind : ∀ (p : Prog Op Resp α) (f : α → Prog Op Resp β) (s : σ),
    exec h (p >>= f) s = exec h (f (exec h p s).1) (exec h p s).2
  | .ret _, _, _ => rfl
  | .call op k, f, s => exec_bind (k (h op s).1) f (h op s).2

/-- The state in which a run is broken off after at most `n` operations. -/
def execFor (h : Handler Op Resp σ) : Nat → Prog Op Resp α → σ → σ
  | 0, _, s => s
  | _ + 1, .ret _, s => s
  | n + 1, .call op k, s => execFor h n (k (h op s).1) (h op s).2

section

variable {R : σ → σ → Prop} (hr : ∀ s, R s s) (ht : ∀ s₁ s₂ s₃, R s₁ s₂ → R s₂ s₃ → R s₁ s₃)
  (hop : ∀ op s, R s (h op s).2)

include hr ht hop

/-- A relation along which every operation moves the state. -/
theorem exec_rel : ∀ (p : Prog Op Resp α) (s : σ), R s (exec h p s).2
  | .ret _, s => hr s
  | .call op k, s => ht _ _ _ (hop op s) (exec_rel (k (h op s).1) (h op s).2)

theorem execFor_rel : ∀ (n : Nat) (p : Prog Op Resp α) (s : σ), R s (execFor h n p s)
  | 0, _, s => hr s
  | _ + 1, .ret _, s => hr s
  | n + 1, .call op k, s => ht _ _ _ (hop op s) (execFor_rel n (k (h op s).1) (h op s).2)

end

/-- The operations of a run, each with the state in which it is performed. -/
def trace (h : Handler Op Resp σ) : Prog Op Resp α → σ → List (Op × σ)
  | .ret _, _ => []
  | .call op k, s => (op, s) :: trace h (k (h op s).1) (h op s).2

theorem trace_bind : ∀ (p : Prog Op Resp α) (f : α → Prog Op Resp β) (s : σ),
    trace h (p >>= f) s = trace h p s ++ trace h (f (exec h p s).1) (exec h p s).2
  | .ret _, _, _ => rfl
  | .call op k, f, s => congrArg ((op, s) :: ·) (trace_bind (k (h op s).1) f (h op s).2)

/-- The run of `p` from `s` ends with a result and a state satisfying `Q`. -/
def Sat (p : Prog Op Resp α) (s : σ) (Q : α → σ → Prop) : Prop := Q (exec h p s).1 (exec h p s).2

theorem sat_bind {p : Prog Op Resp α} {f : α → Prog Op Resp β} {s : σ} {Q : β → σ → Prop} :
    Sat h (p >>= f) s Q ↔ Sat h p s fun a s' => Sat h (f a) s' Q := by
  unfold Sat; rw [exec_bind]

variable {h}

theorem Sat.mono {p : Prog Op Resp α} {s : σ} {Q Q' : α → σ → Prop} (hp : Sat h p s Q) (hQ : ∀ a s', Q a s' → Q' a s') :
    Sat h p s Q' := hQ _ _ hp

theorem Sat.bind {p : Prog Op Resp α} {f : α → Prog Op Resp β} {s : σ} {Q : α → σ → Prop} {Q' : β → σ → Prop}
    (hp : Sat h p s Q) (hf : ∀ a s', Q a s' → Sat h (f a) s' Q') : Sat h (p >>= f) s Q' :=
  (sat_bind h).2 (hf _ _ hp)

/-- Two continuations that agree on every outcome a run can have. -/
theorem Sat.exec_congr {p : Prog Op Resp α} {f g : α → Prog Op Resp β} {s : σ} {Q : α → σ → Prop} (hp : Sat h p s Q)
    (hfg : ∀ a s', Q a s' → exec h (f a) s' = exec h (g a) s') : exec h (p >>= f) s = exec h (p >>= g) s := by
  rw [exec_bind, exec_bind]
  exact hfg _ _ hp

/-- A loop over a list in which each round does its own, and the later ones do not undo it. -/
theorem sat_forM {ι : Type} {f : ι → Prog Op Resp PUnit} {R : σ → σ → Prop} {D : ι → σ → Prop} (hrefl : ∀ s, R s s)
    (htrans : ∀ s₁ s₂ s₃, R s₁ s₂ → R s₂ s₃ → R s₁ s₃) (hkeep : ∀ a s s', R s s' → D a s → D a s') :
    ∀ {l : List ι} {s : σ}, (∀ a ∈ l, ∀ s, Sat h (f a) s fun _ s' => R s s' ∧ D a s') →
      Sat h (l.forM f) s fun _ s' => R s s' ∧ ∀ a ∈ l, D a s'
  | [], s, _ => ⟨hrefl s, fun _ ha => absurd ha List.not_mem_nil⟩
  | a :: l, s, hf => by
    refine (hf a List.mem_cons_self s).bind fun _ s₁ h₁ => ?_
    have hrest : Sat h (l.forM f) s₁ fun _ s' => R s₁ s' ∧ ∀ a ∈ l, D a s' :=
      sat_forM hrefl htrans hkeep fun b hb => hf b (List.mem_cons_of_mem a hb)
    refine hrest.mono fun _ s' h' => ⟨htrans _ _ _ h₁.1 h'.1, fun b hb => ?_⟩
    rcases List.mem_cons.1 hb with rfl | hb
    · exact hkeep _ _ _ h'.1 h₁.2
    · exact h'.2 b hb

/-- What every round of a loop keeps, the loop keeps. -/
theorem Sat.forM {ι : Type} {f : ι → Prog Op Resp PUnit} {I : σ → Prop} :
    ∀ {l : List ι} {s : σ}, (∀ a ∈ l, ∀ s, I s → Sat h (f a) s fun _ => I) → I s → Sat h (l.forM f) s fun _ => I
  | [], _, _, hs => hs
  | a :: _, _, hf, hs => by
    refine (hf a List.mem_cons_self _ hs).bind fun _ s₁ h₁ => ?_
    exact Sat.forM (fun b hb => hf b (List.mem_cons_of_mem a hb)) h₁

/-- If every operation of the run of `p` from `s` is as `C` has it, the run ends with a result and a state satisfying
`Q`. -/
def SatIf (h : Handler Op Resp σ) (C : Op × σ → Prop) (p : Prog Op Resp α) (s : σ) (Q : α → σ → Prop) : Prop :=
  (∀ e ∈ trace h p s, C e) → Sat h p s Q

variable {C : Op × σ → Prop}

theorem Sat.satIf {p : Prog Op Resp α} {s : σ} {Q : α → σ → Prop} (hp : Sat h p s Q) : SatIf h C p s Q := fun _ => hp

theorem SatIf.bind {p : Prog Op Resp α} {f : α → Prog Op Resp β} {s : σ} {Q : α → σ → Prop} {Q' : β → σ → Prop}
    (hp : SatIf h C p s Q) (hf : ∀ a s', Q a s' → SatIf h C (f a) s' Q') : SatIf h C (p >>= f) s Q' := by
  intro hc
  rw [trace_bind] at hc
  have hq := hp fun e he => hc e (List.mem_append_left _ he)
  exact (sat_bind h).2 (hf _ _ hq fun e he => hc e (List.mem_append_right _ he))

/-- A loop over a list keeps an invariant. -/
theorem satIf_forM {ι : Type} {f : ι → Prog Op Resp PUnit} {I : σ → Prop} :
    ∀ {l : List ι} {s : σ}, (∀ a ∈ l, ∀ s, I s → SatIf h C (f a) s fun _ => I) → I s → SatIf h C (l.forM f) s fun _ => I
  | [], _, _, hi => fun _ => hi
  | a :: _, s, hf, hi => (hf a List.mem_cons_self s hi).bind fun _ _ hi' =>
    satIf_forM (fun b hb => hf b (List.mem_cons_of_mem a hb)) hi'

/-- The run of `p` from `s` ends with a result and a state satisfying `Q`, which also speaks of whether some operation of
the run was as `B` has it, or had been before (`d`). -/
def Watch (h : Handler Op Resp σ) (B : Op × σ → Prop) (d : Prop) (p : Prog Op Resp α) (s : σ)
    (Q : α → Prop → σ → Prop) : Prop :=
  Q (exec h p s).1 (d ∨ ∃ e ∈ trace h p s, B e) (exec h p s).2

section Watch

variable {B : Op × σ → Prop} {d : Prop} {p : Prog Op Resp α} {s : σ} {Q : α → Prop → σ → Prop}

theorem Watch.mono {Q' : α → Prop → σ → Prop} (hp : Watch h B d p s Q) (hQ : ∀ a d' s', Q a d' s' → Q' a d' s') :
    Watch h B d p s Q' := hQ _ _ _ hp

theorem watch_pure {a : α} (hq : Q a d s) : Watch h B d (pure a) s Q := by
  have hnone : (d ∨ ∃ e ∈ trace h (pure a : Prog Op Resp α) s, B e) = d := by simp [pure, trace]
  unfold Watch
  rw [hnone]
  exact hq

theorem Watch.bind {f : α → Prog Op Resp β} {Q' : β → Prop → σ → Prop} (hp : Watch h B d p s Q)
    (hf : ∀ a d' s', Q a d' s' → Watch h B d' (f a) s' Q') : Watch h B d (p >>= f) s Q' := by
  have hsplit : (d ∨ ∃ e ∈ trace h (p >>= f) s, B e) =
      ((d ∨ ∃ e ∈ trace h p s, B e) ∨ ∃ e ∈ trace h (f (exec h p s).1) (exec h p s).2, B e) := by
    simp only [trace_bind, List.mem_append, or_and_right, exists_or, or_assoc]
  unfold Watch
  rw [hsplit, exec_bind]
  exact hf _ _ _ hp

/-- A run of operations none of which is watched for. -/
theorem Sat.watch {Q : α → σ → Prop} (hp : Sat h p s Q) (hB : ∀ e ∈ trace h p s, ¬ B e) :
    Watch h B d p s fun a d' s' => d' = d ∧ Q a s' := by
  have hnone : (d ∨ ∃ e ∈ trace h p s, B e) = d := by
    rw [eq_iff_iff, or_iff_left]
    exact fun ⟨e, he, hb⟩ => hB e he hb
  exact ⟨hnone, hp⟩

theorem watch_perform {op : Op} {Q : Resp op → Prop → σ → Prop} (hq : Q (h op s).1 (d ∨ B (op, s)) (h op s).2) :
    Watch h B d (perform op) s Q := by
  have honce : (∃ e ∈ trace h (perform op) s, B e) = B (op, s) := by simp [perform, trace]
  unfold Watch
  rw [honce]
  exact hq

/-- A single operation that is not watched for. -/
theorem watch_unseen {op : Op} {Q : Resp op → Prop → σ → Prop} (hB : ¬ B (op, s)) (hq : Q (h op s).1 d (h op s).2) :
    Watch h B d (perform op) s Q :=
  watch_perform ((or_iff_left hB).symm.eq ▸ hq)

end Watch

end Exec

/-! ## Runs seen through an abstraction -/

/-- Run from any state that `A` relates to `b`, the program ends in a state related to some `b'`, and
its result and `b'` satisfy `Q`. -/
def Does (h : Handler Op Resp σ) (A : γ → σ → Prop) (p : Prog Op Resp α) (b : γ) (Q : α → γ → Prop) : Prop :=
  ∀ s, A b s → Sat h p s fun a s' => ∃ b', A b' s' ∧ Q a b'

section Does

variable {h : Handler Op Resp σ} {A : γ → σ → Prop}

theorem Does.pure {a : α} {b : γ} {Q : α → γ → Prop} (hq : Q a b) : Does h A (pure a) b Q :=
  fun _ hs => ⟨b, hs, hq⟩

theorem Does.mono {p : Prog Op Resp α} {b : γ} {Q Q' : α → γ → Prop} (hp : Does h A p b Q)
    (hQ : ∀ a b', Q a b' → Q' a b') : Does h A p b Q' := by
  intro s hs
  obtain ⟨b', hb', hq⟩ := hp s hs
  exact ⟨b', hb', hQ _ _ hq⟩

theorem Does.bind {p : Prog Op Resp α} {f : α → Prog Op Resp β} {b : γ} {Q : α → γ → Prop} {Q' : β → γ → Prop}
    (hp : Does h A p b Q) (hf : ∀ a b', Q a b' → Does h A (f a) b' Q') : Does h A (p >>= f) b Q' := by
  intro s hs
  obtain ⟨b', hb', hq⟩ := hp s hs
  exact (sat_bind h).2 (hf _ b' hq _ hb')

/-- A loop over a list keeps an invariant indexed by the part of the list already done. -/
theorem Does.forM {ι : Type} {f : ι → Prog Op Resp PUnit} (I : List ι → γ → Prop) {l : List ι} {b : γ}
    (hf : ∀ d a r b, l = d ++ a :: r → I d b → Does h A (f a) b fun _ b' => I (d ++ [a]) b') (hi : I [] b) :
    Does h A (l.forM f) b fun _ b' => I l b' := by
  suffices ∀ (r d : List ι) (b : γ), l = d ++ r → I d b → Does h A (r.forM f) b fun _ b' => I l b' from
    this l [] b rfl hi
  intro r
  induction r with
  | nil =>
    intro d b hl hi
    rw [List.append_nil] at hl
    exact Does.pure (hl ▸ hi)
  | cons a r ih =>
    intro d b hl hi
    show Does h A (f a >>= fun _ => r.forM f) b _
    refine Does.bind (hf d a r b hl hi) fun _ b' hb' => ih (d ++ [a]) b' ?_ hb'
    rw [hl, List.append_assoc]
    rfl

end Does

/-! ## Protocols -/

/-- A protocol over a ghost value: the operations permitted at a value, the answers that may come
back, and the value after an answer. -/
structure Protocol (Op : Type) (Resp : Op → Type) (γ : Type) where
  permits : Op → γ → Prop
  answers : (op : Op) → Resp op → γ → Prop
  next : (op : Op) → Resp op → γ → γ

/-- Started at ghost value `g`, every operation of the program is permitted, and it ends with a
result and a ghost value satisfying `Q`. -/
def Meets (P : Protocol Op Resp γ) : Prog Op Resp α → γ → (α → γ → Prop) → Prop
  | .ret a, g, Q => Q a g
  | .call op k, g, Q => P.permits op g ∧ ∀ r, P.answers op r g → Meets P (k r) (P.next op r g) Q

section Meets

variable {P : Protocol Op Resp γ}

theorem meets_pure {a : α} {g : γ} {Q : α → γ → Prop} : Meets P (pure a) g Q ↔ Q a g := Iff.rfl

theorem Meets.mono : ∀ {p : Prog Op Resp α} {g : γ} {Q Q' : α → γ → Prop},
    Meets P p g Q → (∀ a g', Q a g' → Q' a g') → Meets P p g Q'
  | .ret _, _, _, _, hp, hQ => hQ _ _ hp
  | .call _ _, _, _, _, hp, hQ => ⟨hp.1, fun r hr => (hp.2 r hr).mono hQ⟩

/-- What every step adds to, a whole program adds to. -/
theorem Meets.grows {R : γ → γ → Prop} (hrefl : ∀ g, R g g) (htrans : ∀ {g₁ g₂ g₃}, R g₁ g₂ → R g₂ g₃ → R g₁ g₃)
    (hnext : ∀ op r g, R g (P.next op r g)) : ∀ {p : Prog Op Resp α} {g : γ} {Q : α → γ → Prop},
      Meets P p g Q → Meets P p g fun a g' => Q a g' ∧ R g g'
  | .ret _, g, _, h => ⟨h, hrefl g⟩
  | .call a _, g, _, h => ⟨h.1, fun r hr =>
    (Meets.grows hrefl htrans hnext (h.2 r hr)).mono fun _ _ hq => ⟨hq.1, htrans (hnext a r g) hq.2⟩⟩

theorem meets_bind : ∀ {p : Prog Op Resp α} {f : α → Prog Op Resp β} {g : γ} {Q : β → γ → Prop},
    Meets P (p >>= f) g Q ↔ Meets P p g fun a g' => Meets P (f a) g' Q
  | .ret _, _, _, _ => Iff.rfl
  | .call _ _, _, _, _ => and_congr_right fun _ => forall_congr' fun _ => imp_congr_right fun _ => meets_bind

theorem Meets.bind {p : Prog Op Resp α} {f : α → Prog Op Resp β} {g : γ} {Q : α → γ → Prop} {Q' : β → γ → Prop}
    (hp : Meets P p g Q) (hf : ∀ a g', Q a g' → Meets P (f a) g' Q') : Meets P (p >>= f) g Q' :=
  meets_bind.2 (hp.mono hf)

/-- A loop over a list keeps an invariant indexed by the part of the list already done. -/
theorem Meets.forM {ι : Type} {f : ι → Prog Op Resp PUnit} (I : List ι → γ → Prop) {l : List ι} {g : γ}
    (hf : ∀ d a r g, l = d ++ a :: r → I d g → Meets P (f a) g fun _ g' => I (d ++ [a]) g') (hi : I [] g) :
    Meets P (l.forM f) g fun _ g' => I l g' := by
  suffices ∀ (r d : List ι) (g : γ), l = d ++ r → I d g → Meets P (r.forM f) g fun _ g' => I l g' from
    this l [] g rfl hi
  intro r
  induction r with
  | nil =>
    intro d g hl hi
    rw [List.append_nil] at hl
    exact meets_pure.2 (hl ▸ hi)
  | cons a r ih =>
    intro d g hl hi
    show Meets P (f a >>= fun _ => r.forM f) g _
    refine Meets.bind (hf d a r g hl hi) fun _ g' hg' => ih (d ++ [a]) g' ?_ hg'
    rw [hl, List.append_assoc]
    rfl

/-- The case of an invariant that does not depend on what is done. -/
theorem meets_forM {ι : Type} (f : ι → Prog Op Resp PUnit) (I : γ → Prop) (l : List ι) (g : γ)
    (hf : ∀ a g, a ∈ l → I g → Meets P (f a) g fun _ g' => I g') (hi : I g) :
    Meets P (l.forM f) g fun _ g' => I g' :=
  Meets.forM (fun _ => I) (fun d a r g hl hi => hf a g (by rw [hl]; simp) hi) hi

/-- Two protocols at once. -/
def Protocol.both {γ' : Type} (P : Protocol Op Resp γ) (P' : Protocol Op Resp γ') : Protocol Op Resp (γ × γ') where
  permits op g := P.permits op g.1 ∧ P'.permits op g.2
  answers op r g := P.answers op r g.1 ∧ P'.answers op r g.2
  next op r g := (P.next op r g.1, P'.next op r g.2)

theorem Meets.both {γ' : Type} {P' : Protocol Op Resp γ'} : ∀ {p : Prog Op Resp α} {g : γ} {g' : γ'} {Q : α → γ → Prop}
    {Q' : α → γ' → Prop}, Meets P p g Q → Meets P' p g' Q' → Meets (P.both P') p (g, g') fun a g => Q a g.1 ∧ Q' a g.2
  | .ret _, _, _, _, _, hp, hp' => ⟨hp, hp'⟩
  | .call _ _, _, _, _, _, hp, hp' => ⟨⟨hp.1, hp'.1⟩, fun r hr => (hp.2 r hr.1).both (hp'.2 r hr.2)⟩

/-- The protocol permits the operation and takes no note of it. -/
def Silent (P : Protocol Op Resp γ) (op : Op) : Prop :=
  ∀ g, P.permits op g ∧ ∀ r, P.answers op r g → P.next op r g = g

theorem Silent.meets {op : Op} (h : Silent P op) (g : γ) : Meets P (perform op) g fun _ g' => g' = g := h g

/-- A handler honours a protocol through `A`, which relates ghost values to states: from related
values a permitted operation answers within the protocol, leads to related values, and moves the
state along `R`. -/
structure Honours (h : Handler Op Resp σ) (P : Protocol Op Resp γ) (A : γ → σ → Prop) (R : σ → σ → Prop) : Prop where
  refl : ∀ s, R s s
  trans : ∀ s₁ s₂ s₃, R s₁ s₂ → R s₂ s₃ → R s₁ s₃
  step : ∀ op g s, A g s → P.permits op g →
    P.answers op (h op s).1 g ∧ A (P.next op (h op s).1 g) (h op s).2 ∧ R s (h op s).2

/-- A run alone of a program that meets the protocol. -/
theorem Meets.exec {h : Handler Op Resp σ} {A : γ → σ → Prop} {R : σ → σ → Prop} (hh : Honours h P A R) :
    ∀ {p : Prog Op Resp α} {g : γ} {Q : α → γ → Prop} {s : σ}, Meets P p g Q → A g s →
      Sat h p s fun a s' => (∃ g', A g' s' ∧ Q a g') ∧ R s s'
  | .ret _, g, _, s, hp, ha => ⟨⟨g, ha, hp⟩, hh.refl s⟩
  | .call op _, g, _, s, hp, ha => by
    obtain ⟨h1, h2, h3⟩ := hh.step op g s ha hp.1
    obtain ⟨h4, h5⟩ := Meets.exec hh (hp.2 _ h1) h2
    exact ⟨h4, hh.trans _ _ _ h3 h5⟩

/-- A run broken off has moved along the relation as well. -/
theorem Meets.execFor {h : Handler Op Resp σ} {A : γ → σ → Prop} {R : σ → σ → Prop} (hh : Honours h P A R) :
    ∀ {n : Nat} {p : Prog Op Resp α} {g : γ} {Q : α → γ → Prop} {s : σ}, Meets P p g Q → A g s →
      R s (Prog.execFor h n p s)
  | 0, _, _, _, s, _, _ => hh.refl s
  | _ + 1, .ret _, _, _, s, _, _ => hh.refl s
  | _ + 1, .call op _, g, _, s, hp, ha => by
    obtain ⟨h1, h2, h3⟩ := hh.step op g s ha hp.1
    exact hh.trans _ _ _ h3 (Meets.execFor hh (hp.2 _ h1) h2)

/-- Every operation of a run is permitted at a ghost value related to the state it finds. -/
theorem Meets.trace {h : Handler Op Resp σ} {A : γ → σ → Prop} {R : σ → σ → Prop} (hh : Honours h P A R) :
    ∀ {p : Prog Op Resp α} {g : γ} {Q : α → γ → Prop} {s : σ}, Meets P p g Q → A g s →
      ∀ e ∈ Prog.trace h p s, ∃ g', A g' e.2 ∧ P.permits e.1 g'
  | .ret _, _, _, _, _, _, _, he => absurd he List.not_mem_nil
  | .call op k, g, _, s, hp, ha, e, he => by
    rcases List.mem_cons.1 he with rfl | he
    · exact ⟨g, ha, hp.1⟩
    · obtain ⟨h1, h2, -⟩ := hh.step op g s ha hp.1
      exact Meets.trace hh (hp.2 _ h1) h2 e he

/-- A run alone of a program that meets the protocol. `A` relates ghost values and states to the operations performed so
far, each with the state it found, so that the ghost value may tell which of them failed. -/
theorem Meets.history {h : Handler Op Resp σ} {A : γ → List (Op × σ) → σ → Prop}
    (hstep : ∀ op g tr s, A g tr s → P.permits op g →
      P.answers op (h op s).1 g ∧ A (P.next op (h op s).1 g) (tr ++ [(op, s)]) (h op s).2) :
    ∀ {p : Prog Op Resp α} {g : γ} {Q : α → γ → Prop} {tr : List (Op × σ)} {s : σ}, Meets P p g Q → A g tr s →
      ∃ g', A g' (tr ++ Prog.trace h p s) (Prog.exec h p s).2 ∧ Q (Prog.exec h p s).1 g'
  | .ret _, g, _, tr, _, hp, ha => ⟨g, (List.append_nil tr).symm ▸ ha, hp⟩
  | .call op k, g, _, tr, s, hp, ha => by
    obtain ⟨h1, h2⟩ := hstep op g tr s ha hp.1
    obtain ⟨g', hg', hq⟩ := Meets.history hstep (hp.2 _ h1) h2
    rw [List.append_assoc] at hg'
    exact ⟨g', hg', hq⟩

/-- A run alone of a program that meets the protocol, where every two successive operations of those that `keep` picks
out are related by `C`. What the ghost value tells of the last one picked out is `B`. -/
theorem Meets.chain {h : Handler Op Resp σ} {keep : Op → Bool} {C : Op × σ → Op × σ → Prop} {B : γ → Op × σ → Prop}
    {R : σ → σ → Prop} (hr : ∀ s, R s s) (ht : ∀ s₁ s₂ s₃, R s₁ s₂ → R s₂ s₃ → R s₁ s₃)
    (hstep : ∀ op g s e, B g e → (keep op = true → C e (op, s)) → P.permits op g →
      P.answers op (h op s).1 g ∧ B (P.next op (h op s).1 g) (if keep op then (op, s) else e) ∧ R s (h op s).2) :
    ∀ {p : Prog Op Resp α} {g : γ} {Q : α → γ → Prop} {s : σ} {e : Op × σ}, Meets P p g Q → B g e →
      List.IsChain C (e :: (Prog.trace h p s).filter fun e => keep e.1) → R s (Prog.exec h p s).2
  | .ret _, _, _, s, _, _, _, _ => hr s
  | .call op k, g, _, s, e, hp, hb, hc => by
    rw [Prog.trace, List.filter_cons] at hc
    cases hk : keep op with
    | true =>
      rw [hk, if_pos rfl] at hc
      obtain ⟨hce, hc⟩ := List.isChain_cons_cons.1 hc
      obtain ⟨h1, h2, h3⟩ := hstep op g s e hb (fun _ => hce) hp.1
      rw [hk, if_pos rfl] at h2
      exact ht _ _ _ h3 (Meets.chain hr ht hstep (hp.2 _ h1) h2 hc)
    | false =>
      rw [hk, if_neg Bool.false_ne_true] at hc
      obtain ⟨h1, h2, h3⟩ := hstep op g s e hb (fun h => absurd (hk.symm.trans h) Bool.false_ne_true) hp.1
      rw [hk, if_neg Bool.false_ne_true] at h2
      exact ht _ _ _ h3 (Meets.chain hr ht hstep (hp.2 _ h1) h2 hc)

end Meets

/-! ## Results among other programs -/

/-- A result that the program can have when anything may happen between its operations: each is answered in some state. -/
inductive Yields (h : Handler Op Resp σ) : Prog Op Resp α → α → Prop
  | ret (a : α) : Yields h (.ret a) a
  | call {op : Op} {k : Resp op → Prog Op Resp α} {a : α} (s : σ) : Yields h (k (h op s).1) a → Yields h (.call op k) a

/-- A program that meets a protocol ends as it says, if the answers are within the protocol in every state. -/
theorem Yields.meets {h : Handler Op Resp σ} {P : Protocol Op Resp γ} (hh : ∀ op s g, P.permits op g → P.answers op (h op s).1 g)
    {p : Prog Op Resp α} {a : α} (hy : Yields h p a) : ∀ {g : γ} {Q : α → γ → Prop}, Meets P p g Q → ∃ g', Q a g' := by
  induction hy with
  | ret a => exact fun hp => ⟨_, hp⟩
  | call s _ ih => exact fun hp => ih (hp.2 _ (hh _ s _ hp.1))

/-! ## Which operations a program uses -/

/-- Every operation the program can perform satisfies `ok`. -/
def Uses (ok : Op → Prop) (p : Prog Op Resp α) : Prop :=
  Meets ⟨fun op (_ : Unit) => ok op, fun _ _ _ => True, fun _ _ _ => ()⟩ p () fun _ _ => True

section Uses

variable {ok : Op → Prop}

theorem Uses.pure (a : α) : Uses ok (pure a : Prog Op Resp α) := trivial

theorem Uses.perform {op : Op} (h : ok op) : Uses ok (perform op : Prog Op Resp (Resp op)) := ⟨h, fun _ _ => trivial⟩

theorem Uses.bind {p : Prog Op Resp α} {f : α → Prog Op Resp β} (hp : Uses ok p) (hf : ∀ a, Uses ok (f a)) :
    Uses ok (p >>= f) := Meets.bind hp fun a _ _ => hf a

theorem Uses.forM {ι : Type} {f : ι → Prog Op Resp PUnit} {l : List ι} (hf : ∀ a, Uses ok (f a)) :
    Uses ok (l.forM f) := meets_forM f (fun _ => True) l () (fun a _ _ _ => hf a) trivial

theorem Uses.mono {ok' : Op → Prop} (h : ∀ op, ok op → ok' op) : ∀ {p : Prog Op Resp α}, Uses ok p → Uses ok' p
  | .ret _, _ => trivial
  | .call op _, hp => ⟨h op hp.1, fun r _ => Uses.mono h (hp.2 r trivial)⟩

/-- A program all of whose operations a protocol permits at the values of some kind, and none of whose operations leads to
a value of another kind. -/
theorem Uses.meets {P : Protocol Op Resp γ} {I : γ → Prop}
    (hP : ∀ op g, ok op → I g → P.permits op g ∧ ∀ r, P.answers op r g → I (P.next op r g)) :
    ∀ {p : Prog Op Resp α} {g : γ}, Uses ok p → I g → Meets P p g fun _ g' => I g'
  | .ret _, _, _, hg => hg
  | .call op _, g, hp, hg => by
    obtain ⟨hperm, hnext⟩ := hP op g hp.1 hg
    exact ⟨hperm, fun r hr => Uses.meets hP (hp.2 r trivial) (hnext r hr)⟩

/-- A program of whose operations a protocol takes no note, where these are known from what the program uses and from the
rules it keeps to. -/
theorem Uses.silent {P : Protocol Op Resp γ} {P₀ : Protocol Op Resp Unit} {Q : α → Unit → Prop}
    (hs : ∀ op, ok op → P₀.permits op () → Silent P op) (ha : ∀ op r g, P.answers op r g → P₀.answers op r ()) :
    ∀ {p : Prog Op Resp α} (g : γ), Uses ok p → Meets P₀ p () Q → Meets P p g fun _ g' => g' = g
  | .ret _, _, _, _ => rfl
  | .call op k, g, hp, hp₀ => by
    obtain ⟨hperm, hnext⟩ := hs op hp.1 hp₀.1 g
    refine ⟨hperm, fun r hr => ?_⟩
    rw [hnext r hr]
    exact Uses.silent hs ha g (hp.2 r trivial) (hp₀.2 r (ha op r g hr))

theorem Uses.trace {h : Handler Op Resp σ} : ∀ {p : Prog Op Resp α} {s : σ}, Uses ok p → ∀ e ∈ Prog.trace h p s, ok e.1
  | .ret _, _, _, _, he => absurd he List.not_mem_nil
  | .call op k, s, hp, e, he => by
    rcases List.mem_cons.1 he with rfl | he
    · exact hp.1
    · exact Uses.trace (hp.2 _ trivial) e he

/-- What every operation of the program keeps, its run keeps. -/
theorem Uses.keeps {h : Handler Op Resp σ} {I : σ → Prop} (hI : ∀ op s, ok op → I s → I (h op s).2) :
    ∀ {p : Prog Op Resp α} {s : σ}, Uses ok p → I s → Sat h p s fun _ => I
  | .ret _, _, _, hs => hs
  | .call op k, s, hp, hs => by
    show Sat h (k (h op s).1) (h op s).2 fun _ => I
    exact Uses.keeps hI (hp.2 _ trivial) (hI op s hp.1 hs)

/-- The second part of a program, after a run of the first. -/
theorem Uses.of_bind {h : Handler Op Resp σ} {f : α → Prog Op Resp β} : ∀ {p : Prog Op Resp α} {s : σ},
    Uses ok (p >>= f) → Uses ok (f (exec h p s).1)
  | .ret _, _, hp => hp
  | .call op k, s, hp => by
    have hrest : Uses ok (k (h op s).1 >>= f) := hp.2 _ trivial
    exact hrest.of_bind

/-- What each operation of a run keeps. -/
theorem Uses.keepsIf {h : Handler Op Resp σ} {K : Op × σ → Prop} {I : σ → Prop}
    (hI : ∀ op s, ok op → K (op, s) → I s → I (h op s).2) : ∀ {p : Prog Op Resp α} {s : σ}, Uses ok p →
      (∀ e ∈ Prog.trace h p s, K e) → I s → I (exec h p s).2
  | .ret _, _, _, _, hs => hs
  | .call op k, s, hp, hK, hs => by
    have hnext : I (h op s).2 := hI op s hp.1 (hK _ List.mem_cons_self) hs
    have hrest : Uses ok (k (h op s).1) := hp.2 _ trivial
    exact hrest.keepsIf hI (fun e he => hK e (List.mem_cons_of_mem (op, s) he)) hnext

/-- What holds after an operation of a run and is kept by each later one. -/
theorem Uses.keepsAfter {h : Handler Op Resp σ} {K : Op × σ → Prop} {I : σ → Prop}
    (hI : ∀ op s, ok op → K (op, s) → I s → I (h op s).2) : ∀ {p : Prog Op Resp α} {s : σ} {pre post : List (Op × σ)}
      {e : Op × σ}, Uses ok p → Prog.trace h p s = pre ++ e :: post → (∀ e' ∈ post, K e') → I (h e.1 e.2).2 →
      I (exec h p s).2
  | .ret _, _, [], _, _, _, htr, _, _ => nomatch htr
  | .ret _, _, _ :: _, _, _, _, htr, _, _ => nomatch htr
  | .call op k, s, [], post, e, hp, htr, hK, he => by
    have hrest : Uses ok (k (h op s).1) := hp.2 _ trivial
    obtain ⟨rfl, rfl⟩ := List.cons.inj htr
    exact hrest.keepsIf hI hK he
  | .call op k, s, _ :: pre, post, e, hp, htr, hK, he => by
    have hrest : Uses ok (k (h op s).1) := hp.2 _ trivial
    exact hrest.keepsAfter hI (List.cons.inj htr).2 hK he

/-- What no operation of the program changes, its run does not change. -/
theorem sat_of_uses {h : Handler Op Resp σ} {p : Prog Op Resp α} {Q : α → Unit → Prop}
    (hp : Meets ⟨fun op (_ : Unit) => ok op, fun _ _ _ => True, fun _ _ _ => ()⟩ p () Q) (f : σ → β)
    (hf : ∀ op s, ok op → f (h op s).2 = f s) (s : σ) : Sat h p s fun a s' => f s' = f s ∧ Q a () := by
  have hh : Honours h ⟨fun op (_ : Unit) => ok op, fun _ _ _ => True, fun _ _ _ => ()⟩ (fun _ _ => True)
      fun s s' => f s' = f s :=
    ⟨fun _ => rfl, fun _ _ _ h h' => h'.trans h, fun op _ s _ hop => ⟨trivial, trivial, hf op s hop⟩⟩
  obtain ⟨⟨_, -, hq⟩, hfr⟩ := Meets.exec hh hp trivial
  exact ⟨hfr, hq⟩

theorem Uses.frame {h : Handler Op Resp σ} {p : Prog Op Resp α} (hp : Uses ok p) (f : σ → β)
    (hf : ∀ op s, ok op → f (h op s).2 = f s) (s : σ) : f (exec h p s).2 = f s := (sat_of_uses hp f hf s).1

end Uses

end Prog
