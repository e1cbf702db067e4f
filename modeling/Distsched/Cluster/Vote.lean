/-
The vote of one replica across failures. A failed `SaveState` is logged and the vote is granted all the same, and a
failed `LoadState` is logged and the node starts on term zero, so a restart can forget a vote. A candidate without a
name is no vote to the next one, and past the largest 64-bit term the counter starts from the smallest.

If the save of each vote and each load succeeds, candidates have names and no counter overflows, then all votes of a
term, granted or solicited, are for one candidate. Saves of a term without a vote may fail.
-/
import Distsched.Cluster.Safety
import Distsched.Lib.Steps

namespace Distsched.Cluster

/-- What the replica does; each method comes with the outcomes of its saves. -/
inductive VoterAction
  | handleVote (sv : Saves) (term : Int) (candidateID : String)
  | startElection (sv : Saves)
  /-- the vote loop of any election takes a result -/
  | countVote (sv : Saves) (r : VoteResult) (e : Election)
  | observeLeader (sv : Saves) (term : Int) (leaderID : String)
  | maybeStepDown (sv : Saves) (peerTerm : Int)
  /-- a crash, and `Start` in a new process; `load` says whether `LoadState` succeeds -/
  | restart (load : Bool) (sv : Saves)

/-- A replica, and the votes it has granted and solicited so far, the last one first. -/
structure Voter where
  node : Node
  ballots : List (Int × String) := []

variable (inc : Int → Int) (c : Config)

def Voter.act (v : Voter) : VoterAction → Voter
  | .handleVote sv term candidateID => {
      node := (v.node.handleVote sv term candidateID).1
      ballots := if (v.node.handleVote sv term candidateID).2.1 then (term, candidateID) :: v.ballots else v.ballots }
  | .startElection sv => {
      node := (v.node.startElection inc c sv).1
      ballots := ((v.node.startElection inc c sv).2.term, c.nodeID) :: v.ballots }
  | .countVote sv r e => { v with node := (v.node.countVote c sv r e).1 }
  | .observeLeader sv term leaderID => { v with node := (v.node.observeLeader sv term leaderID).1 }
  | .maybeStepDown sv peerTerm => { v with node := v.node.maybeStepDown sv peerTerm }
  | .restart load sv => { v with node := Node.start inc c load sv v.node.saved }

/-- Candidates have names, the save of a vote succeeds, every load succeeds, and the counter does not overflow. -/
def Durable (v : Voter) : VoterAction → Prop
  | .handleVote sv term candidateID => candidateID ≠ "" ∧
    ((v.node.handleVote sv term candidateID).2.1 = true → sv 1 = true)
  | .startElection sv => sv 0 = true ∧ v.node.currentTerm < inc v.node.currentTerm
  | .restart load _ => load = true ∧ (c.majority ≤ 1 → v.node.saved.term < inc v.node.saved.term)
  | _ => True

/-- The runs of a replica. -/
abbrev Voter.Reaches (ok : Voter → VoterAction → Prop) : Voter → Voter → Prop :=
  Steps.Reaches (fun v a => some (v.act inc c a)) ok

/-! ## The durable pair keeps the last ballot -/

/-- The term and the vote in memory. -/
def Node.cast (n : Node) : Saved := ⟨n.currentTerm, n.votedFor⟩

/-- The memory may follow the durable pair, and the ballots are of terms up to it, in its own term for its vote. -/
structure Voter.Remembers (v : Voter) : Prop where
  behind : v.node.saved.Le v.node.cast
  named : ∀ t, (t, "") ∉ v.ballots
  past : ∀ t cand, (t, cand) ∈ v.ballots → t ≤ v.node.saved.term
  last : ∀ cand, (v.node.saved.term, cand) ∈ v.ballots → cand = v.node.saved.votedFor
  unique : ∀ t cand cand', (t, cand) ∈ v.ballots → (t, cand') ∈ v.ballots → cand = cand'

variable {inc c} {v : Voter} {n n' : Node}

/-- The durable pair moves on, and so does the memory. -/
theorem Voter.Remembers.moves (h : v.Remembers) (hle : v.node.saved.Le n'.saved) (hb : n'.saved.Le n'.cast) :
    Voter.Remembers { v with node := n' } := by
  refine ⟨hb, h.named, fun t cand ht => ?_, fun cand ht => ?_, h.unique⟩
  · have := h.past t cand ht
    show t ≤ n'.saved.term
    rcases hle with hlt | ⟨heq, _⟩ <;> omega
  · replace ht : (n'.saved.term, cand) ∈ v.ballots := ht
    have hpast := h.past _ cand ht
    -- a ballot of the new term is one of the old durable term, which has kept its vote
    obtain ⟨heq, hvote⟩ := hle.resolve_left (by omega)
    rw [← heq] at ht
    obtain rfl := h.last cand ht
    rcases hvote with hvote | hvote
    · rw [hvote] at ht
      exact absurd ht (h.named _)
    · exact hvote.symm

/-- The vote in the durable pair is granted or solicited. -/
theorem Voter.Remembers.ballot (h : v.Remembers) (hne : v.node.saved.votedFor ≠ "") :
    Voter.Remembers { v with ballots := (v.node.saved.term, v.node.saved.votedFor) :: v.ballots } := by
  have hmem : ∀ {t cand}, (t, cand) ∈ (v.node.saved.term, v.node.saved.votedFor) :: v.ballots →
      (t = v.node.saved.term ∧ cand = v.node.saved.votedFor) ∨ (t, cand) ∈ v.ballots := by
    intro t cand hb
    rcases List.mem_cons.1 hb with he | hb
    · exact .inl (Prod.mk.inj he)
    · exact .inr hb
  refine ⟨h.behind, fun t hb => ?_, fun t cand hb => ?_, fun cand hb => ?_, fun t cand cand' hb hb' => ?_⟩
  · rcases hmem hb with ⟨_, he⟩ | hb
    · exact hne he.symm
    · exact h.named t hb
  · rcases hmem hb with ⟨rfl, _⟩ | hb
    · exact Int.le_refl _
    · exact h.past t cand hb
  · rcases hmem hb with ⟨_, rfl⟩ | hb
    · rfl
    · exact h.last cand hb
  · rcases hmem hb with ⟨rfl, rfl⟩ | hb <;> rcases hmem hb' with ⟨ht, rfl⟩ | hb'
    · rfl
    · exact (h.last cand' hb').symm
    · subst ht
      exact h.last cand hb
    · exact h.unique t cand cand' hb hb'

/-! ## What the methods do to the vote -/

/-- The vote of a term is kept in memory. What is saved is what was saved, or what the memory has been since. -/
structure Node.Moves (n n' : Node) : Prop where
  cast : n.cast.Le n'.cast
  saved : n'.saved = n.saved ∨ n.cast.Le n'.saved ∧ n'.saved.Le n'.cast

theorem Voter.Remembers.method (h : v.Remembers) (hm : v.node.Moves n') : Voter.Remembers { v with node := n' } := by
  rcases hm.saved with hs | ⟨hs, hb⟩
  · exact h.moves (hs ▸ Saved.Le.refl _) (hs ▸ h.behind.trans hm.cast)
  · exact h.moves (h.behind.trans hs) hb

namespace Node

theorem Moves.refl (n : Node) : n.Moves n := ⟨Saved.Le.refl _, .inl rfl⟩

theorem becomeFollowerLocked_moves (ok : Bool) {t : Int} (h : t > n.currentTerm) :
    n.Moves (becomeFollowerLocked ok t n) ∧ (becomeFollowerLocked ok t n).currentTerm = t := by
  have hle : ∀ cand, n.cast.Le ⟨t, cand⟩ := fun _ => .inl h
  unfold becomeFollowerLocked persistLocked
  simp only [if_pos h]
  cases ok with
  | true =>
    rw [if_pos rfl]
    split <;> exact ⟨⟨hle _, .inr ⟨hle _, Saved.Le.refl _⟩⟩, rfl⟩
  | false =>
    rw [if_neg Bool.false_ne_true]
    split <;> exact ⟨⟨hle _, .inl rfl⟩, rfl⟩

theorem maybeStepDown_moves (sv : Saves) (t : Int) : n.Moves (n.maybeStepDown sv t) := by
  unfold maybeStepDown
  split
  · rename_i h
    exact (becomeFollowerLocked_moves _ h).1
  · exact .refl n

theorem observeLeader_moves (sv : Saves) (t : Int) (l : String) : n.Moves (n.observeLeader sv t l).1 := by
  unfold observeLeader
  split
  · exact .refl n
  split
  · rename_i h
    obtain ⟨hcast, hsaved⟩ := (becomeFollowerLocked_moves (sv 0) h).1
    exact ⟨hcast, hsaved⟩
  · split <;> exact ⟨Saved.Le.refl _, .inl rfl⟩

theorem countVote_moves (sv : Saves) (r : VoteResult) (e : Election) : n.Moves (n.countVote c sv r e).1 := by
  unfold countVote
  split
  · exact .refl n
  split
  · exact .refl n
  split
  · rename_i h
    exact (becomeFollowerLocked_moves _ h).1
  split
  · simp only
    split <;> exact ⟨Saved.Le.refl _, .inl rfl⟩
  · exact .refl n

/-- A granted vote is the vote in memory, and is saved if its save succeeds. -/
theorem handleVote_moves (sv : Saves) (t : Int) (cand : String) :
    n.Moves (n.handleVote sv t cand).1 ∧ ((n.handleVote sv t cand).2.1 = true → sv 1 = true →
      (n.handleVote sv t cand).1.saved = ⟨t, cand⟩) := by
  unfold handleVote
  split
  · exact ⟨.refl n, nofun⟩
  · rename_i hge
    -- the node after it has adopted the requested term
    obtain ⟨m, hm⟩ : ∃ m, m = if t > n.currentTerm then becomeFollowerLocked (sv 0) t n else n := ⟨_, rfl⟩
    have hmoves : n.Moves m ∧ m.currentTerm = t := by
      rw [hm]
      split
      · rename_i h
        exact becomeFollowerLocked_moves (sv 0) h
      · exact ⟨.refl n, by omega⟩
    obtain ⟨⟨hcast, hsaved⟩, hterm⟩ := hmoves
    simp only [← hm]
    split
    · rename_i hvote
      have hle : m.cast.Le ⟨m.currentTerm, cand⟩ := .inr ⟨rfl, hvote.imp_right Eq.symm⟩
      unfold persistLocked
      split
      · refine ⟨⟨hcast.trans hle, .inr ⟨hcast.trans hle, Saved.Le.refl _⟩⟩, fun _ _ => ?_⟩
        show Saved.mk m.currentTerm cand = ⟨t, cand⟩
        rw [hterm]
      · rename_i hno
        exact ⟨⟨hcast.trans hle, hsaved.imp_right fun h => ⟨h.1, h.2.trans hle⟩⟩, fun _ h => absurd h hno⟩
    · exact ⟨⟨hcast, hsaved⟩, nofun⟩

/-- The vote a node solicits for itself is saved if its save succeeds. -/
theorem startElection_moves {sv : Saves} (hsv : sv 0 = true) (h : n.currentTerm < inc n.currentTerm) :
    n.Moves (n.startElection inc c sv).1 ∧ (n.startElection inc c sv).1.saved = ⟨inc n.currentTerm, c.nodeID⟩ ∧
      (n.startElection inc c sv).2.term = inc n.currentTerm := by
  have hle : n.cast.Le ⟨inc n.currentTerm, c.nodeID⟩ := .inl h
  unfold startElection persistLocked
  rw [hsv]
  exact ⟨⟨hle, .inr ⟨hle, Saved.Le.refl _⟩⟩, rfl, rfl⟩

/-- A node started on what it had saved. -/
theorem start_moves (sv : Saves) (saved : Saved) (h : c.majority ≤ 1 → saved.term < inc saved.term) :
    saved.Le (start inc c true sv saved).saved ∧ (start inc c true sv saved).saved.Le (start inc c true sv saved).cast := by
  rw [start_eq_launch]
  unfold launch persistLocked becomeLeaderLocked
  simp only [if_true]
  split
  · rename_i hone
    have hle : saved.Le ⟨inc saved.term, c.nodeID⟩ := .inl (h hone)
    split
    · exact ⟨hle, Saved.Le.refl _⟩
    · exact ⟨Saved.Le.refl _, hle⟩
  · exact ⟨Saved.Le.refl _, Saved.Le.refl _⟩

end Node

/-! ## Runs -/

theorem Voter.Remembers.act (hc : c.nodeID ≠ "") (h : v.Remembers) {a : VoterAction} (hok : Durable inc c v a) :
    (v.act inc c a).Remembers := by
  cases a with
  | handleVote sv t cand =>
    obtain ⟨hname, hsv⟩ := hok
    obtain ⟨hm, hgrant⟩ := Node.handleVote_moves (n := v.node) sv t cand
    have h' := h.method hm
    show Voter.Remembers ⟨_, if _ then _ else _⟩
    split
    · rename_i hg
      have hsaved := hgrant hg (hsv hg)
      have := h'.ballot (by show Saved.votedFor (Node.saved _) ≠ ""; rw [hsaved]; exact hname)
      simpa only [hsaved] using this
    · exact h'
  | startElection sv =>
    obtain ⟨hsv, hlt⟩ := hok
    obtain ⟨hm, hsaved, hterm⟩ := Node.startElection_moves (c := c) hsv hlt
    have := (h.method hm).ballot (by show Saved.votedFor (Node.saved _) ≠ ""; rw [hsaved]; exact hc)
    show Voter.Remembers ⟨_, _ :: _⟩
    rw [hterm]
    simpa only [hsaved] using this
  | countVote sv r e => exact h.method (Node.countVote_moves sv r e)
  | observeLeader sv t l => exact h.method (Node.observeLeader_moves sv t l)
  | maybeStepDown sv t => exact h.method (Node.maybeStepDown_moves sv t)
  | restart load sv =>
    obtain ⟨rfl, hlt⟩ := hok
    obtain ⟨hle, hb⟩ := Node.start_moves sv v.node.saved hlt
    exact h.moves hle hb

/-- A replica started on any durable state. -/
def Voter.started (inc : Int → Int) (c : Config) (sv : Saves) (saved : Saved) : Voter :=
  { node := Node.start inc c true sv saved }

theorem Voter.remembers_started (sv : Saves) (saved : Saved) (h : c.majority ≤ 1 → saved.term < inc saved.term) :
    (Voter.started inc c sv saved).Remembers where
  behind := (Node.start_moves sv saved h).2
  named _ hb := nomatch hb
  past _ _ hb := nomatch hb
  last _ hb := nomatch hb
  unique _ _ _ hb := nomatch hb

/-- In every run in which candidates have names, the save of each vote and each load succeeds and the counter does not
overflow: the votes a replica has granted or solicited in a term are all for one candidate. -/
theorem vote_kept (hc : c.nodeID ≠ "") {sv : Saves} {saved : Saved} (h₀ : c.majority ≤ 1 → saved.term < inc saved.term)
    (h : Voter.Reaches inc c (Durable inc c) (Voter.started inc c sv saved) v) {t : Int} {cand cand' : String}
    (hb : (t, cand) ∈ v.ballots) (hb' : (t, cand') ∈ v.ballots) : cand = cand' := by
  have hinv : v.Remembers := by
    refine h.invariant (I := Voter.Remembers) (Voter.remembers_started sv saved h₀) ?_
    rintro v a _ hv hok ⟨⟩
    exact hv.act hc hok
  exact hinv.unique t cand cand' hb hb'

/-! ## Five runs -/

/-- One of three replicas. -/
def memberA : Config := ⟨"a", ["a", "b", "c"]⟩

/-- No save succeeds. -/
def Saves.none : Saves := fun _ => false

/-- The replica after a run. -/
def Voter.ran (as : List VoterAction) : Voter := as.foldl (Voter.act inc64 memberA) (Voter.started inc64 memberA .all {})

theorem Voter.reaches_ran (as : List VoterAction) :
    Voter.Reaches inc64 memberA (fun _ _ => True) (Voter.started inc64 memberA .all {}) (Voter.ran as) := by
  have : ∀ (as : List VoterAction) (v₀ v : Voter), Voter.Reaches inc64 memberA (fun _ _ => True) v₀ v →
      Voter.Reaches inc64 memberA (fun _ _ => True) v₀ (as.foldl (Voter.act inc64 memberA) v) := by
    intro as
    induction as with
    | nil => exact fun _ _ h => h
    | cons a as ih => exact fun v₀ v h => ih v₀ _ (h.step trivial rfl)
  exact this as _ _ .refl

/-- A vote for "b", an election, a restart, and a vote in a later term, of which only the vote itself is saved. -/
def faithful : List VoterAction :=
  [.handleVote .all 1 "b", .startElection .all, .restart true .all, .handleVote (fun i => i = 1) 3 "b"]

theorem vote_kept_restarted : Voter.Reaches inc64 memberA (Durable inc64 memberA) (Voter.started inc64 memberA .all {})
    (Voter.ran faithful) ∧
    (2, "a") ∈ (Voter.ran faithful).ballots ∧ ∀ cand, (2, cand) ∈ (Voter.ran faithful).ballots → cand = "a" := by
  have hrun : Voter.Reaches inc64 memberA (Durable inc64 memberA) (Voter.started inc64 memberA .all {}) (Voter.ran faithful) := by
    refine (((Steps.Reaches.refl.step (a := .handleVote .all 1 "b") ?_ rfl).step (a := .startElection .all) ?_ rfl).step
      (a := .restart true .all) ?_ rfl).step (a := .handleVote (fun i => i = 1) 3 "b") ?_ rfl
    · exact ⟨by decide, fun _ => rfl⟩
    · exact ⟨rfl, by decide⟩
    · exact ⟨rfl, fun h => absurd h (by decide)⟩
    · exact ⟨by decide, fun _ => rfl⟩
  have ha : (2, "a") ∈ (Voter.ran faithful).ballots := by decide
  exact ⟨hrun, ha, fun cand hb => vote_kept (by decide) (fun h => absurd h (by decide)) hrun hb ha⟩

/-- Each of these lets the replica vote for "b" and for "c" in one term: the save of the first vote fails and is followed
by a restart; the load after a restart fails; or the first candidate has no name; or the counter overflows. -/
def forgetful : List (List VoterAction) :=
  [[.handleVote .none 1 "b", .restart true .all, .handleVote .all 1 "c"],
    [.handleVote .all 1 "b", .restart false .all, .handleVote .all 1 "c"],
    [.handleVote .all 1 "", .handleVote .all 1 "c"],
    [.handleVote .all (2 ^ 63 - 1) "b", .startElection .all, .handleVote .all (2 ^ 63 - 1) "c"]]

/-- The run grants the votes of one term to two candidates. -/
def Forgets (as : List VoterAction) : Prop :=
  Voter.Reaches inc64 memberA (fun _ _ => True) (Voter.started inc64 memberA .all {}) (Voter.ran as) ∧
    ∃ t cand, cand ≠ "c" ∧ (t, cand) ∈ (Voter.ran as).ballots ∧ (t, "c") ∈ (Voter.ran as).ballots

theorem vote_forgotten : forgetful.Forall Forgets := by
  have hout : ∀ as ∈ forgetful,
    ((Voter.ran as).ballots.any fun p => p.2 ≠ "c" && (Voter.ran as).ballots.contains (p.1, "c")) = true := by
    decide +kernel
  refine List.forall_iff_forall_mem.2 fun as has => ⟨Voter.reaches_ran as, ?_⟩
  obtain ⟨⟨t, cand⟩, hmem, hp⟩ := List.any_eq_true.1 (hout as has)
  obtain ⟨hne, hc⟩ := Bool.and_eq_true_iff.1 hp
  exact ⟨t, cand, of_decide_eq_true hne, hmem, List.contains_iff_mem.1 hc⟩

end Distsched.Cluster
