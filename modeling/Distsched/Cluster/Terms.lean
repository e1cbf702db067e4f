/-
The terms of one replica over its whole life, restarts included, while its saves and loads succeed. A term is adopted from
any message that carries a larger one, and counted up by an election or by the start of a replica that is alone. The count
is a 64-bit one without a check: once a message has planted the largest term, the next election falls back to the smallest,
and saves it.

If no replica counts on from the largest term, terms never go back, and the saved term is always the current one.
-/
import Distsched.Cluster.Vote

namespace Distsched.Cluster

/-- The save and load calls of the action succeed. -/
def VoterAction.Persists : VoterAction → Prop
  | .handleVote sv _ _ | .startElection sv | .countVote sv _ _ | .observeLeader sv _ _ | .maybeStepDown sv _ => sv = .all
  | .restart load sv => load = true ∧ sv = .all

variable (c : Config)

/-- The action does not count on from the largest 64-bit term. -/
def InRange (v : Voter) : VoterAction → Prop
  | .startElection _ => v.node.currentTerm ≠ 2 ^ 63 - 1
  | .restart .. => c.majority ≤ 1 → v.node.saved.term ≠ 2 ^ 63 - 1
  | _ => True

/-- The runs of a replica whose saves and loads succeed. -/
abbrev Voter.Persisting (ok : Voter → VoterAction → Prop) : Voter → Voter → Prop :=
  Voter.Reaches inc64 c fun v a => a.Persists ∧ ok v a

variable {c}

/-! ## The methods -/

namespace Node

variable {n : Node}

/-- The saved term is the current one. -/
def Recorded (n : Node) : Prop := n.saved.term = n.currentTerm

theorem recorded_persistLocked (n : Node) : (persistLocked true n).Recorded := rfl

theorem Recorded.becomeFollowerLocked (h : n.Recorded) (t : Int) : (becomeFollowerLocked true t n).Recorded := by
  have hadopt : (if t > n.currentTerm then persistLocked true { n with currentTerm := t, votedFor := "" } else n).Recorded := by
    split
    · exact recorded_persistLocked _
    · exact h
  unfold Node.becomeFollowerLocked
  simp only
  split <;> exact hadopt

theorem Recorded.maybeStepDown (h : n.Recorded) (t : Int) : (n.maybeStepDown .all t).Recorded := by
  unfold Node.maybeStepDown
  split
  · exact h.becomeFollowerLocked t
  · exact h

theorem Recorded.handleVote (h : n.Recorded) (t : Int) (cand : String) : (n.handleVote .all t cand).1.Recorded := by
  unfold Node.handleVote
  split
  · exact h
  -- the node after it has adopted the requested term
  obtain ⟨m, hm⟩ : ∃ m, m = if t > n.currentTerm then Node.becomeFollowerLocked (Saves.all 0) t n else n := ⟨_, rfl⟩
  have hadopt : m.Recorded := by
    rw [hm]
    split
    · exact h.becomeFollowerLocked t
    · exact h
  simp only [← hm]
  split
  · exact recorded_persistLocked _
  · exact hadopt

theorem Recorded.observeLeader (h : n.Recorded) (t : Int) (l : String) : (n.observeLeader .all t l).1.Recorded := by
  unfold Node.observeLeader
  split
  · exact h
  split
  · exact h.becomeFollowerLocked t
  · split <;> exact h

theorem Recorded.countVote (h : n.Recorded) (r : VoteResult) (e : Election) : (n.countVote c .all r e).1.Recorded := by
  unfold Node.countVote
  split
  · exact h
  split
  · exact h
  split
  · exact h.becomeFollowerLocked r.peerTerm
  split
  · simp only
    split <;> exact h
  · exact h

theorem recorded_start (inc : Int → Int) (saved : Saved) : (start inc c true .all saved).Recorded := by
  rw [start_eq_launch, launch]
  simp only [if_true]
  split
  · exact recorded_persistLocked _
  · rfl

/-- A term that the memory has kept up with is no smaller. -/
theorem Moves.term_le {n n' : Node} (h : n.Moves n') : n.currentTerm ≤ n'.currentTerm := by
  rcases h.cast with hlt | ⟨heq, _⟩
  · exact Int.le_of_lt hlt
  · exact Int.le_of_eq heq

end Node

theorem lt_inc64 {t : Int} (h : t ≠ 2 ^ 63 - 1) : t < inc64 t := by
  rw [inc64, if_neg h]
  omega

/-! ## Runs -/

theorem recorded_act {v : Voter} (h : v.node.Recorded) {a : VoterAction} (ha : a.Persists) :
    (v.act inc64 c a).node.Recorded := by
  cases a with
  | handleVote sv t cand =>
    obtain rfl : sv = .all := ha
    exact h.handleVote t cand
  | startElection sv =>
    obtain rfl : sv = .all := ha
    exact Node.recorded_persistLocked _
  | countVote sv r e =>
    obtain rfl : sv = .all := ha
    exact h.countVote r e
  | observeLeader sv t l =>
    obtain rfl : sv = .all := ha
    exact h.observeLeader t l
  | maybeStepDown sv t =>
    obtain rfl : sv = .all := ha
    exact h.maybeStepDown t
  | restart load sv =>
    obtain ⟨rfl, rfl⟩ := ha
    exact Node.recorded_start inc64 v.node.saved

theorem term_le_act {v : Voter} (h : v.node.Recorded) {a : VoterAction} (ha : a.Persists) (hok : InRange c v a) :
    v.node.currentTerm ≤ (v.act inc64 c a).node.currentTerm := by
  cases a with
  | handleVote sv t cand => exact (Node.handleVote_moves sv t cand).1.term_le
  | startElection sv =>
    obtain rfl : sv = .all := ha
    exact (Node.startElection_moves (c := c) rfl (lt_inc64 hok)).1.term_le
  | countVote sv r e => exact (Node.countVote_moves sv r e).term_le
  | observeLeader sv t l => exact (Node.observeLeader_moves sv t l).term_le
  | maybeStepDown sv t => exact (Node.maybeStepDown_moves sv t).term_le
  | restart load sv =>
    obtain ⟨rfl, rfl⟩ := ha
    -- the new process takes over the saved term, which was the current one
    obtain ⟨hle, -⟩ := Node.start_moves .all v.node.saved fun hone => lt_inc64 (hok hone)
    have hrec : (Node.start inc64 c true .all v.node.saved).Recorded := Node.recorded_start inc64 _
    show v.node.currentTerm ≤ (Node.start inc64 c true .all v.node.saved).currentTerm
    rw [← h, ← hrec]
    rcases hle with hlt | ⟨heq, _⟩ <;> omega

/-- Between any two moments of a run in which no increment starts from the largest 64-bit term, the term has not gone
back, and it is saved. -/
theorem term_never_back {saved : Saved} {v v' : Voter}
    (h : Voter.Persisting c (InRange c) (Voter.started inc64 c .all saved) v) (h' : Voter.Persisting c (InRange c) v v') :
    v.node.currentTerm ≤ v'.node.currentTerm ∧ v.node.saved.term = v.node.currentTerm := by
  have hrec : v.node.Recorded := by
    refine h.invariant (I := fun v => v.node.Recorded) (Node.recorded_start inc64 saved) ?_
    rintro v a _ hv ⟨ha, -⟩ ⟨⟩
    exact recorded_act hv ha
  have hinv : v.node.currentTerm ≤ v'.node.currentTerm ∧ v'.node.Recorded := by
    refine h'.invariant (I := fun v' => v.node.currentTerm ≤ v'.node.currentTerm ∧ v'.node.Recorded)
      ⟨Int.le_refl _, hrec⟩ ?_
    rintro v₁ a _ ⟨hle, hv⟩ ⟨ha, hok⟩ ⟨⟩
    exact ⟨Int.le_trans hle (term_le_act hv ha hok), recorded_act hv ha⟩
  exact ⟨hinv.1, hrec⟩

/-- A replica that adopts term 7 from a heartbeat, restarts and stands for election. -/
theorem term_never_back_restarted :
    ∃ v v' : Voter, Voter.Persisting memberA (InRange memberA) (Voter.started inc64 memberA .all {}) v ∧
      Voter.Persisting memberA (InRange memberA) v v' ∧ v.node.currentTerm = 7 ∧ v'.node.currentTerm = 8 ∧
      (v.node.currentTerm ≤ v'.node.currentTerm ∧ v.node.saved.term = v.node.currentTerm) := by
  let v₀ := Voter.started inc64 memberA .all {}
  let v := v₀.act inc64 memberA (.observeLeader .all 7 "b")
  let v₁ := v.act inc64 memberA (.restart true .all)
  let v' := v₁.act inc64 memberA (.startElection .all)
  have h : Voter.Persisting memberA (InRange memberA) v₀ v :=
    Steps.Reaches.refl.step (a := .observeLeader .all 7 "b") ⟨rfl, trivial⟩ rfl
  have h' : Voter.Persisting memberA (InRange memberA) v v' := by
    refine (Steps.Reaches.refl.step (a := .restart true .all) ?_ rfl).step (a := .startElection .all) ?_ rfl
    · exact ⟨⟨rfl, rfl⟩, fun hone => absurd hone (by decide)⟩
    · exact ⟨rfl, by show (7 : Int) ≠ _; decide⟩
  exact ⟨v, v', h, h', rfl, rfl, term_never_back h h'⟩

/-- A vote request in the largest term is answered, and the next election is held in the smallest. -/
theorem term_wraps :
    ∃ v v' : Voter, Voter.Persisting memberA (fun _ _ => True) (Voter.started inc64 memberA .all {}) v ∧
      Voter.Persisting memberA (fun _ _ => True) v v' ∧
      v.node.currentTerm = 2 ^ 63 - 1 ∧ v'.node.currentTerm = -2 ^ 63 ∧ v'.node.saved.term = -2 ^ 63 := by
  let v := (Voter.started inc64 memberA .all {}).act inc64 memberA (.handleVote .all (2 ^ 63 - 1) "b")
  refine ⟨v, v.act inc64 memberA (.startElection .all), ?_, ?_, by decide, by decide, by decide⟩
  · exact Steps.Reaches.refl.step (a := .handleVote .all (2 ^ 63 - 1) "b") ⟨rfl, trivial⟩ rfl
  · exact Steps.Reaches.refl.step (a := .startElection .all) ⟨rfl, trivial⟩ rfl

end Distsched.Cluster
