/-
A cluster of replicas that share one member list, as a step function over the events of a run:
start, crash, `startElection`, the delivery of a vote request to its peer, the receipt or loss of
an answer, and calls of `HandleVote`, `ObserveLeader` and `MaybeStepDown` with arbitrary arguments
(a heartbeat, or a vote request whose caller has given up, is such a call).

A vote request is delivered at any later time or never, and an answer is received at any later
time or lost, in any order; each call carries at most one answer. `startElection` may run at any
moment and several elections of one node may be under way, which covers the run loop of the source
(one at a time, on an election timeout). Saves succeed. The increment of a term is a parameter (`inc`).
-/
import Distsched.Cluster.Node
import Mathlib.Data.List.Induction
import Mathlib.Logic.Function.Basic

namespace Distsched.Cluster

/-- A replica: stopped, with what it had saved, or running with the elections it has under way. -/
inductive Replica
  | down (saved : Saved)
  | up (node : Node) (elections : List Election)

def Replica.saved : Replica → Saved
  | .down sv => sv
  | .up n _ => n.saved

/-- The replicas by ID. -/
abbrev Net := String → Replica

inductive Event
  | start (i : String)
  | crash (i : String)
  | startElection (i : String)
  /-- the `k`-th outstanding call of election `e` of `i` reaches its peer -/
  | deliver (i : String) (e k : Nat)
  /-- the answer to that call is received -/
  | receive (i : String) (e k : Nat)
  /-- the call fails or times out -/
  | lose (i : String) (e k : Nat)
  | handleVote (i : String) (term : Int) (candidateID : String)
  | observeLeader (i : String) (term : Int) (leaderID : String)
  | maybeStepDown (i : String) (peerTerm : Int)
  deriving DecidableEq, Repr

/-- The `k`-th outstanding call of the `e`-th election in `es`. -/
def callAt (es : List Election) (e k : Nat) : Option (Election × Call) :=
  es[e]?.bind fun el => el.calls[k]?.map fun c => (el, c)

/-- The elections after election `e` has taken the result of its `k`-th call out of the channel and
the vote loop has come back with `o`. -/
def afterCall (es : List Election) (e k : Nat) : Option Election → List Election
  | some el => es.set e { el with calls := el.calls.eraseIdx k }
  | none => es.eraseIdx e

section

variable (inc : Int → Int)

/-- One event of a run; `none` if it is not possible in `s`. -/
def step (members : List String) (s : Net) : Event → Option Net
  | .start i => match s i with
    | .down sv =>
      if i ∈ members ∧ i ≠ "" then
        some (Function.update s i (.up (Node.start inc ⟨i, members⟩ true .all sv) []))
      else none
    | .up .. => none
  | .crash i => match s i with
    | .up n _ => some (Function.update s i (.down n.saved))
    | .down _ => none
  | .startElection i => match s i with
    | .up n es =>
      let r := n.startElection inc ⟨i, members⟩ .all
      some (Function.update s i (.up r.1 (es ++ [r.2])))
    | .down _ => none
  | .deliver i e k => match s i with
    | .up n es => match callAt es e k with
      | some (el, c) => match c.reply, s c.peer with
        | none, .up m ms =>
          let r := m.handleVote .all el.term i
          let c' : Call := { c with reply := some r.2 }
          some (Function.update (Function.update s c.peer (.up r.1 ms)) i
            (.up n (es.set e { el with calls := el.calls.set k c' })))
        | _, _ => none
      | none => none
    | .down _ => none
  | .receive i e k => match s i with
    | .up n es => match callAt es e k with
      | some (el, ⟨_, some (granted, peerTerm)⟩) =>
        let r := n.countVote ⟨i, members⟩ .all ⟨granted, peerTerm, true⟩ el
        some (Function.update s i (.up r.1 (afterCall es e k r.2)))
      | _ => none
    | .down _ => none
  | .lose i e k => match s i with
    | .up n es => match callAt es e k with
      | some (el, _) =>
        let r := n.countVote ⟨i, members⟩ .all ⟨false, 0, false⟩ el
        some (Function.update s i (.up r.1 (afterCall es e k r.2)))
      | none => none
    | .down _ => none
  | .handleVote i term candidateID => match s i with
    | .up n es => some (Function.update s i (.up (n.handleVote .all term candidateID).1 es))
    | .down _ => none
  | .observeLeader i term leaderID => match s i with
    | .up n es => some (Function.update s i (.up (n.observeLeader .all term leaderID).1 es))
    | .down _ => none
  | .maybeStepDown i peerTerm => match s i with
    | .up n es => some (Function.update s i (.up (n.maybeStepDown .all peerTerm) es))
    | .down _ => none

/-- A run of any length. -/
def run (members : List String) (s : Net) (evs : List Event) : Option Net := evs.foldlM (step inc members) s

/-- Every replica is stopped; what it had saved is arbitrary. -/
def Stopped (s : Net) : Prop := ∀ i, ∃ sv, s i = .down sv

/-- The states of the runs from a stopped cluster. -/
def Reachable (members : List String) (s : Net) : Prop :=
  ∃ s₀ evs, Stopped s₀ ∧ run inc members s₀ evs = some s

/-- A term that the event increments becomes greater: the counter does not overflow. -/
def Grows (members : List String) (s : Net) : Event → Prop
  | .start i => ∀ sv, s i = .down sv → Config.majority ⟨i, members⟩ ≤ 1 → sv.term < inc sv.term
  | .startElection i => ∀ n es, s i = .up n es → n.currentTerm < inc n.currentTerm
  | _ => True

end

/-- `i` runs in role Leader with current term `t`. -/
def Leads (s : Net) (i : String) (t : Int) : Prop :=
  ∃ n es, s i = .up n es ∧ n.role = .leader ∧ n.currentTerm = t

/-- The term a replica leads, if it does. -/
def leaderTerm (s : Net) (i : String) : Option Int := match s i with
  | .up n _ => if n.role = .leader then some n.currentTerm else none
  | .down _ => none

theorem leads_iff (s : Net) (i : String) (t : Int) : Leads s i t ↔ leaderTerm s i = some t := by
  unfold Leads leaderTerm
  cases hi : s i with
  | down sv => simp
  | up n es => simp only [Replica.up.injEq]; aesop

variable {inc : Int → Int}

theorem grows_succ (members : List String) (s : Net) (ev : Event) : Grows (· + 1) members s ev := by
  cases ev with
  | start i => exact fun sv _ _ => Int.lt_add_one_of_le (Int.le_refl _)
  | startElection i => exact fun n es _ => Int.lt_add_one_of_le (Int.le_refl _)
  | _ => trivial

theorem run_nil (members : List String) (s : Net) : run inc members s [] = some s := rfl

theorem run_append (members : List String) (s : Net) (evs evs' : List Event) :
    run inc members s (evs ++ evs') = (run inc members s evs).bind fun s' => run inc members s' evs' := by
  simp [run, List.foldlM_append]

/-- A property of all stopped states kept by every event holds in every reachable state. -/
theorem Reachable.induction {members : List String} {P : Net → Prop} (h0 : ∀ s, Stopped s → P s)
    (hstep : ∀ s s' ev, P s → step inc members s ev = some s' → P s') {s : Net} (h : Reachable inc members s) : P s := by
  obtain ⟨s₀, evs, hs, hr⟩ := h
  induction evs using List.reverseRecOn generalizing s with
  | nil => rw [run_nil] at hr; cases hr; exact h0 _ hs
  | append_singleton evs ev ih =>
    rw [run_append] at hr
    obtain ⟨s₁, h1, h2⟩ := Option.bind_eq_some_iff.1 hr
    refine hstep s₁ s ev (ih h1) ?_
    simpa [run] using h2

end Distsched.Cluster
