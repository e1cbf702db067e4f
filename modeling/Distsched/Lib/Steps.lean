/-
Runs of a transition function in which every action meets a condition on the state before it, and runs of a machine that
answers every action.
-/
import Mathlib.Logic.Basic

namespace Steps

variable {σ α : Type}

section

variable (act : σ → α → Option σ)

/-- The states of the runs from `s₀` whose actions all meet the condition. -/
inductive Reaches (ok : σ → α → Prop) (s₀ : σ) : σ → Prop
  | refl : Reaches ok s₀ s₀
  | step {s s' : σ} {a : α} : Reaches ok s₀ s → ok s a → act s a = some s' → Reaches ok s₀ s'

/-- The actions, one after the other, if each passes a test. -/
def perform (test : σ → α → Bool) : σ → List α → Option σ
  | s, [] => some s
  | s, a :: as => if test s a then (act s a).bind (perform test · as) else none

end

variable {act : σ → α → Option σ} {ok : σ → α → Prop} {s₀ s : σ}

/-- What holds at first and is kept by every action that meets the condition holds in every state reached. -/
theorem Reaches.invariant {I : σ → Prop} (h₀ : I s₀) (hstep : ∀ s a s', I s → ok s a → act s a = some s' → I s')
    (h : Reaches act ok s₀ s) : I s := by
  induction h with
  | refl => exact h₀
  | step _ hok ha ih => exact hstep _ _ _ ih hok ha

theorem Reaches.trans {s' : σ} (h₁ : Reaches act ok s₀ s) (h₂ : Reaches act ok s s') : Reaches act ok s₀ s' := by
  induction h₂ with
  | refl => exact h₁
  | step _ hok ha ih => exact ih.step hok ha

theorem Reaches.perform {test : σ → α → Bool} (ht : ∀ s a, test s a = true → ok s a) :
    ∀ {as : List α} {s s' : σ}, Reaches act ok s₀ s → perform act test s as = some s' → Reaches act ok s₀ s'
  | [], s, s', h, hp => by
    cases hp
    exact h
  | a :: as, s, s', h, hp => by
    obtain ⟨htest, hp⟩ := Option.ite_none_right_eq_some.1 hp
    obtain ⟨s₁, h₁, h₂⟩ := Option.bind_eq_some_iff.1 hp
    exact Reaches.perform ht (h.step (ht s a htest) h₁) h₂

/-! ## Machines that answer -/

section Answers

variable {τ υ ω : Type}

/-- The answers to the actions in turn, and the state after them. -/
def answers (step : σ → α → ω × σ) : σ → List α → List ω × σ
  | s, [] => ([], s)
  | s, a :: as => ((step s a).1 :: (answers step (step s a).2 as).1, (answers step (step s a).2 as).2)

/-- Related states answer alike, and stay related. -/
def Simulates (R : σ → τ → Prop) (step : σ → α → ω × σ) (step' : τ → α → ω × τ) : Prop :=
  ∀ s t a, R s t → (step s a).1 = (step' t a).1 ∧ R (step s a).2 (step' t a).2

variable {R : σ → τ → Prop} {R' : τ → υ → Prop} {step : σ → α → ω × σ} {step' : τ → α → ω × τ} {step'' : υ → α → ω × υ}

theorem Simulates.trans (h : Simulates R step step') (h' : Simulates R' step' step'') :
    Simulates (fun s u => ∃ t, R s t ∧ R' t u) step step'' := by
  rintro s u a ⟨t, hst, htu⟩
  obtain ⟨he, hr⟩ := h s t a hst
  obtain ⟨he', hr'⟩ := h' t u a htu
  exact ⟨he.trans he', _, hr, hr'⟩

theorem Simulates.answers (h : Simulates R step step') :
    ∀ (as : List α) {s : σ} {t : τ}, R s t →
      (answers step s as).1 = (Steps.answers step' t as).1 ∧ R (answers step s as).2 (Steps.answers step' t as).2
  | [], _, _, hr => ⟨rfl, hr⟩
  | a :: as, s, t, hr => by
    obtain ⟨he, hr'⟩ := h s t a hr
    obtain ⟨hes, hrs⟩ := h.answers as hr'
    refine ⟨?_, hrs⟩
    simp only [Steps.answers, he, hes]

end Answers

end Steps
