/-
Whom a replica names as the leader. `leaderID` is set on winning an election and on a heartbeat, and stepping down leaves
it as it is. So a leader that is deposed by a vote request or by the answer of a peer goes on naming itself, as a follower
and as a candidate, and sends its clients back to itself until a heartbeat of another leader, or a restart.

A replica that does not lead names itself exactly then: when it has led in this process and has accepted no heartbeat
since.
-/
import Distsched.Cluster.Vote

namespace Distsched.Cluster

/-- A replica, and whether it has led in this process and has accepted no heartbeat since, other than as the leader. -/
structure Tenure where
  voter : Voter
  lingers : Bool

abbrev Tenure.node (t : Tenure) : Node := t.voter.node

variable (inc : Int → Int) (c : Config)

/-- A process started on any durable state. -/
def Tenure.start (load : Bool) (sv : Saves) (saved : Saved) : Tenure where
  voter := { node := Node.start inc c load sv saved }
  lingers := (Node.start inc c load sv saved).isLeader

def Tenure.act (t : Tenure) (a : VoterAction) : Tenure where
  voter := t.voter.act inc c a
  lingers := (t.voter.act inc c a).node.isLeader || match a with
    | .observeLeader sv term leaderID => t.lingers && !(t.node.observeLeader sv term leaderID).2.1
    | .restart .. => false
    | _ => t.lingers

/-- A heartbeat comes from another member. -/
def Foreign : Tenure → VoterAction → Prop
  | _, .observeLeader _ _ leaderID => leaderID ≠ c.nodeID
  | _, _ => True

/-- The runs of a replica. -/
abbrev Tenure.Reaches (ok : Tenure → VoterAction → Prop) : Tenure → Tenure → Prop :=
  Steps.Reaches (fun t a => some (t.act inc c a)) ok

variable {inc c}

/-! ## What the methods do to the name of the leader -/

namespace Node

variable {n : Node}

/-- The replica has come to lead, and names itself, or it names whom it has named before and leads only if it did. -/
def Renames (c : Config) (n n' : Node) : Prop :=
  (n'.role = .leader ∧ n'.leaderID = c.nodeID) ∨ (n'.leaderID = n.leaderID ∧ (n'.role = .leader → n.role = .leader))

theorem Renames.refl (n : Node) : Renames c n n := .inr ⟨rfl, id⟩

theorem persistLocked_leaderID (ok : Bool) (n : Node) :
    (persistLocked ok n).leaderID = n.leaderID ∧ (persistLocked ok n).role = n.role := by
  unfold persistLocked
  split <;> exact ⟨rfl, rfl⟩

/-- Stepping down does not touch the name of the leader. -/
theorem becomeFollowerLocked_leaderID (ok : Bool) (t : Int) (n : Node) :
    (becomeFollowerLocked ok t n).leaderID = n.leaderID ∧ (becomeFollowerLocked ok t n).role = .follower := by
  unfold becomeFollowerLocked
  simp only
  split <;> split <;> first | exact ⟨rfl, rfl⟩ | exact ⟨(persistLocked_leaderID ok _).1, rfl⟩

theorem becomeFollowerLocked_renames (ok : Bool) (t : Int) : Renames c n (becomeFollowerLocked ok t n) := by
  obtain ⟨hname, hrole⟩ := becomeFollowerLocked_leaderID ok t n
  refine .inr ⟨hname, fun h => ?_⟩
  rw [hrole] at h
  cases h

theorem maybeStepDown_renames (sv : Saves) (t : Int) : Renames c n (n.maybeStepDown sv t) := by
  unfold maybeStepDown
  split
  · exact becomeFollowerLocked_renames _ _
  · exact .refl n

theorem handleVote_renames (sv : Saves) (t : Int) (cand : String) : Renames c n (n.handleVote sv t cand).1 := by
  unfold handleVote
  split
  · exact .refl n
  · -- the node after it has adopted the requested term
    obtain ⟨m, hm⟩ : ∃ m, m = if t > n.currentTerm then becomeFollowerLocked (sv 0) t n else n := ⟨_, rfl⟩
    have hadopt : Renames c n m := by
      rw [hm]
      split
      · exact becomeFollowerLocked_renames _ _
      · exact .refl n
    simp only [← hm]
    split
    · obtain ⟨hname, hrole⟩ := persistLocked_leaderID (sv 1) { m with votedFor := cand }
      simp only [Renames, hname, hrole]
      exact hadopt
    · exact hadopt

theorem startElection_renames (sv : Saves) : Renames c n (n.startElection inc c sv).1 := by
  obtain ⟨hname, hrole⟩ := persistLocked_leaderID (sv 0)
    { n with role := .candidate, currentTerm := inc n.currentTerm, votedFor := c.nodeID }
  refine .inr ⟨hname, fun h => ?_⟩
  rw [startElection, hrole] at h
  cases h

theorem countVote_renames (sv : Saves) (r : VoteResult) (e : Election) : Renames c n (n.countVote c sv r e).1 := by
  unfold countVote
  split
  · exact .refl n
  split
  · exact .refl n
  split
  · exact becomeFollowerLocked_renames _ _
  split
  · simp only
    split
    · exact .inl ⟨rfl, rfl⟩
    · exact .refl n
  · exact .refl n

/-- A heartbeat that is accepted, other than by a leader of its term, names the leader. -/
theorem observeLeader_names (sv : Saves) (t : Int) (l : String) :
    ((n.observeLeader sv t l).1 = n ∧ ((n.observeLeader sv t l).2.1 = true → n.role = .leader)) ∨
    ((n.observeLeader sv t l).1.leaderID = l ∧ (n.observeLeader sv t l).1.role ≠ .leader ∧
      (n.observeLeader sv t l).2.1 = true) := by
  unfold observeLeader
  split
  · exact .inl ⟨rfl, nofun⟩
  split
  · obtain ⟨-, hrole⟩ := becomeFollowerLocked_leaderID (sv 0) t n
    refine .inr ⟨rfl, ?_, rfl⟩
    show (becomeFollowerLocked (sv 0) t n).role ≠ .leader
    rw [hrole]
    decide
  · split
    · exact .inr ⟨rfl, nofun, rfl⟩
    · rename_i hrole
      exact .inl ⟨rfl, fun _ => hrole⟩
    · rename_i hrole
      refine .inr ⟨rfl, ?_, rfl⟩
      show n.role ≠ .leader
      rw [hrole]
      decide

end Node

/-! ## Runs -/

/-- A leader names itself, and a replica names itself exactly if it leads or lingers. -/
structure Tenure.Names (c : Config) (t : Tenure) : Prop where
  leads : t.node.role = .leader → t.node.leaderID = c.nodeID
  lingers : t.node.leaderID = c.nodeID ↔ t.lingers = true

theorem Tenure.Names.start (hc : c.nodeID ≠ "") (load : Bool) (sv : Saves) (saved : Saved) :
    (Tenure.start inc c load sv saved).Names c := by
  by_cases hone : c.majority ≤ 1
  · have hrole : (Node.start inc c load sv saved).role = .leader := by
      simp only [Node.start_eq_launch, Node.launch, if_pos hone]
      rfl
    have hname : (Node.start inc c load sv saved).leaderID = c.nodeID := by
      simp only [Node.start_eq_launch, Node.launch, if_pos hone]
      rfl
    exact ⟨fun _ => hname, iff_of_true hname (decide_eq_true hrole)⟩
  · have hrole : (Node.start inc c load sv saved).role = .follower := by
      simp only [Node.start_eq_launch, Node.launch, if_neg hone]
      split <;> rfl
    have hname : (Node.start inc c load sv saved).leaderID = "" := by
      simp only [Node.start_eq_launch, Node.launch, if_neg hone]
      split <;> rfl
    refine ⟨fun h => ?_, iff_of_false ?_ ?_⟩
    · cases hrole.symm.trans h
    · exact fun h => hc (h.symm.trans hname)
    · exact fun h => Role.noConfusion (hrole.symm.trans (of_decide_eq_true h))

/-- A method other than `ObserveLeader`. -/
theorem Tenure.Names.renames {t : Tenure} (h : t.Names c) {n : Node} {ballots : List (Int × String)}
    (hn : t.node.Renames c n) : Tenure.Names c ⟨⟨n, ballots⟩, n.isLeader || t.lingers⟩ := by
  rcases hn with ⟨hrole, hname⟩ | ⟨hname, hrole⟩
  · exact ⟨fun _ => hname, iff_of_true hname (by rw [Node.isLeader, decide_eq_true hrole, Bool.true_or])⟩
  · refine ⟨fun hl => hname.trans (h.leads (hrole hl)), ?_⟩
    show n.leaderID = c.nodeID ↔ (n.isLeader || t.lingers) = true
    rw [hname, h.lingers, Bool.or_eq_true]
    -- if it leads now, it has led before and named itself
    refine ⟨.inr, fun hl => hl.elim (fun hl => ?_) id⟩
    exact h.lingers.1 (h.leads (hrole (of_decide_eq_true hl)))

theorem Tenure.Names.act (hc : c.nodeID ≠ "") {t : Tenure} (h : t.Names c) {a : VoterAction} (hok : Foreign c t a) :
    (t.act inc c a).Names c := by
  cases a with
  | handleVote sv term cand => exact h.renames (Node.handleVote_renames sv term cand)
  | startElection sv => exact h.renames (Node.startElection_renames sv)
  | countVote sv r e => exact h.renames (Node.countVote_renames sv r e)
  | maybeStepDown sv term => exact h.renames (Node.maybeStepDown_renames sv term)
  | restart load sv =>
    have hstart : (Tenure.start inc c load sv t.node.saved).Names c := .start hc load sv t.node.saved
    refine ⟨hstart.leads, hstart.lingers.trans ?_⟩
    show _ ↔ (_ || false) = true
    rw [Bool.or_false]
    rfl
  | observeLeader sv term l =>
    show Tenure.Names c ⟨⟨(t.node.observeLeader sv term l).1, _⟩,
      (t.node.observeLeader sv term l).1.isLeader || (t.lingers && !(t.node.observeLeader sv term l).2.1)⟩
    rcases Node.observeLeader_names (n := t.node) sv term l with ⟨hsame, hlead⟩ | ⟨hname, hrole, hacc⟩
    · rw [hsame]
      cases hacc : (t.node.observeLeader sv term l).2.1 with
      | false =>
        rw [Bool.not_false, Bool.and_true]
        exact h.renames (.refl _)
      | true =>
        have hrole := hlead hacc
        exact ⟨h.leads, iff_of_true (h.leads hrole) (by rw [Node.isLeader, decide_eq_true hrole, Bool.true_or])⟩
    · rw [hacc, Bool.not_true, Bool.and_false, Bool.or_false]
      refine ⟨fun hl => absurd hl hrole, iff_of_false (fun he => hok (hname.symm.trans he)) fun hl => ?_⟩
      exact hrole (of_decide_eq_true hl)

/-- In every run in which heartbeats come from other members, a replica that does not lead names another than itself
as the leader, or none, exactly if it has not led in this process or has accepted a heartbeat since. -/
theorem names_other (hc : c.nodeID ≠ "") {load : Bool} {sv : Saves} {saved : Saved} {t : Tenure}
    (h : Tenure.Reaches inc c (Foreign c) (Tenure.start inc c load sv saved) t) (hrole : t.node.role ≠ .leader) :
    t.node.leader c ≠ c.nodeID ↔ t.lingers = false := by
  have hinv : t.Names c := by
    refine h.invariant (I := Tenure.Names c) (Tenure.Names.start hc load sv saved) ?_
    rintro t a _ ht hok ⟨⟩
    exact ht.act hc hok
  rw [Node.leader, if_neg hrole, ne_eq, hinv.lingers, Bool.not_eq_true]

/-- Of three replicas, "a" wins an election, is deposed by a vote request, and hears from the new leader. -/
def deposed : List VoterAction :=
  [.startElection .all, .countVote .all ⟨true, 1, true⟩ ⟨1, 1, [⟨"b", some (true, 1)⟩, ⟨"c", none⟩]⟩, .handleVote .all 2 "b",
    .observeLeader .all 2 "b"]

theorem names_other_deposed : ∃ t, Tenure.Reaches inc64 memberA (Foreign memberA) (Tenure.start inc64 memberA true .all {}) t ∧
    t.node.role ≠ .leader ∧ t.node.leader memberA ≠ "a" := by
  have hrun : Tenure.Reaches inc64 memberA (Foreign memberA) (Tenure.start inc64 memberA true .all {})
      (deposed.foldl (Tenure.act inc64 memberA) (Tenure.start inc64 memberA true .all {})) := by
    refine (((Steps.Reaches.refl.step ?_ rfl).step ?_ rfl).step ?_ rfl).step ?_ rfl
    · trivial
    · trivial
    · trivial
    · show "b" ≠ "a"
      decide
  have hrole : (deposed.foldl (Tenure.act inc64 memberA) (Tenure.start inc64 memberA true .all {})).node.role ≠ .leader := by
    decide
  exact ⟨_, hrun, hrole, (names_other (by decide) hrun hrole).2 (by decide)⟩

/-- A leader deposed by the answer of a peer, by a vote request, or first by an answer and then by its own next election. -/
def lingering : List (List VoterAction) :=
  let won : List VoterAction := [.startElection .all, .countVote .all ⟨true, 1, true⟩ ⟨1, 1, [⟨"b", some (true, 1)⟩, ⟨"c", none⟩]⟩]
  [won ++ [.maybeStepDown .all 2], won ++ [.handleVote .all 2 "b"], won ++ [.maybeStepDown .all 2, .startElection .all]]

/-- The replica does not lead and names itself as the leader. -/
def NamesItself (as : List VoterAction) : Prop :=
  Voter.Reaches inc64 memberA (fun _ _ => True) (Voter.started inc64 memberA .all {}) (Voter.ran as) ∧
    (Voter.ran as).node.role ≠ .leader ∧ (Voter.ran as).node.leader memberA = memberA.nodeID

theorem names_itself : lingering.Forall NamesItself := by
  have hout : ∀ as ∈ lingering, (Voter.ran as).node.role ≠ .leader ∧ (Voter.ran as).node.leader memberA = memberA.nodeID := by
    decide +kernel
  exact List.forall_iff_forall_mem.2 fun as has => ⟨Voter.reaches_ran as, hout as has⟩

end Distsched.Cluster
