/-
The election state machine of one scheduler replica (`internal/cluster/cluster.go`): the role,
the current term, the vote cast in it and the leader recognised, together with the durable
(term, votedFor) pair behind the `StateStore`.

Each method of `Node` that takes the mutex is one function here. `SaveState` may fail, so a method
that persists takes an outcome for each of its saves; a failed save is only logged by the source
and leaves the durable pair as it was. The increment of a term is a parameter (`inc`), so that
terms can be read as mathematical integers or as wrapping 64-bit ones. Election timers only decide
when `startElection` runs and are left out.
-/
import Mathlib.Data.List.Basic
import Mathlib.Algebra.Group.Int.Defs
import Mathlib.Algebra.Group.Nat.Defs

namespace Distsched.Cluster

/-! ## State -/

inductive Role
  | follower
  | candidate
  | leader
  deriving DecidableEq, Repr

/-- The identity of a replica and the full member list, which includes it. -/
structure Config where
  nodeID : String
  members : List String

/-- An empty member list stands for the node alone. -/
def Config.withDefaults (c : Config) : Config :=
  if c.members.isEmpty then { c with members := [c.nodeID] } else c

theorem Config.nodeID_withDefaults (c : Config) : c.withDefaults.nodeID = c.nodeID := by
  unfold withDefaults
  split <;> rfl

def Config.majority (c : Config) : Nat := c.members.length / 2 + 1

theorem Config.majority_withDefaults (c : Config) : c.withDefaults.majority = c.majority := by
  unfold withDefaults
  split
  · rename_i h
    simp [majority, List.isEmpty_iff.1 h]
  · rfl

def Config.peers (c : Config) : List String := c.members.filter (· ≠ c.nodeID)

/-- What `SaveState` writes and `LoadState` reads; `(0, "")` if never set. -/
structure Saved where
  term : Int := 0
  votedFor : String := ""
  deriving DecidableEq, Repr

/-- A callback started on a goroutine of its own. -/
inductive Callback
  | onLeader (term : Int)
  | onStepDown (term : Int)
  deriving DecidableEq, Repr

/-- The mutable fields of `Node`, its durable store and the callbacks it has started. -/
structure Node where
  role : Role := .follower
  currentTerm : Int := 0
  votedFor : String := ""
  leaderID : String := ""
  saved : Saved := {}
  spawned : List Callback := []
  deriving DecidableEq, Repr

/-! ## Methods -/

/-- Outcomes of the saves a method makes, in order: `true` is success. -/
abbrev Saves := Nat → Bool

/-- Every save succeeds. -/
def Saves.all : Saves := fun _ => true

namespace Node

def persistLocked (ok : Bool) (n : Node) : Node :=
  if ok then { n with saved := ⟨n.currentTerm, n.votedFor⟩ } else n

def becomeFollowerLocked (ok : Bool) (term : Int) (n : Node) : Node :=
  let n' := if term > n.currentTerm then persistLocked ok { n with currentTerm := term, votedFor := "" } else n
  let n' := { n' with role := .follower }
  if n.role = .leader then { n' with spawned := n'.spawned ++ [.onStepDown n'.currentTerm] } else n'

def becomeLeaderLocked (c : Config) (term : Int) (n : Node) : Node :=
  { n with role := .leader, leaderID := c.nodeID, spawned := n.spawned ++ [.onLeader term] }

/-- Returns whether the vote is granted and the term after the call. -/
def handleVote (sv : Saves) (term : Int) (candidateID : String) (n : Node) : Node × Bool × Int :=
  if term < n.currentTerm then (n, false, n.currentTerm)
  else
    let n := if term > n.currentTerm then becomeFollowerLocked (sv 0) term n else n
    if n.votedFor = "" ∨ n.votedFor = candidateID then
      let n := persistLocked (sv 1) { n with votedFor := candidateID }
      (n, true, n.currentTerm)
    else (n, false, n.currentTerm)

/-- Returns whether the heartbeat is accepted and the term after the call. -/
def observeLeader (sv : Saves) (term : Int) (leaderID : String) (n : Node) : Node × Bool × Int :=
  if term < n.currentTerm then (n, false, n.currentTerm)
  else if term > n.currentTerm then
    let n := { becomeFollowerLocked (sv 0) term n with leaderID := leaderID }
    (n, true, n.currentTerm)
  else match n.role with
    | .candidate => ({ n with role := .follower, leaderID := leaderID }, true, n.currentTerm)
    -- the source ignores a same-term heartbeat in role Leader, but answers that it was accepted
    | .leader => (n, true, n.currentTerm)
    | .follower => ({ n with leaderID := leaderID }, true, n.currentTerm)

def maybeStepDown (sv : Saves) (peerTerm : Int) (n : Node) : Node :=
  if peerTerm > n.currentTerm then becomeFollowerLocked (sv 0) peerTerm n else n

def isLeader (n : Node) : Bool := n.role = .leader

/-- The leader this node recognises: itself if it leads, `""` if unknown. -/
def leader (c : Config) (n : Node) : String := if n.role = .leader then c.nodeID else n.leaderID

/-- `Start`: a fresh follower takes over the durable state, unless `LoadState` fails; a node that is
its own majority leads a new term at once. -/
def launch (inc : Int → Int) (c : Config) (load : Bool) (sv : Saves) (saved : Saved) : Node :=
  let n : Node := { saved := saved }
  let n := if load then { n with currentTerm := saved.term, votedFor := saved.votedFor } else n
  if c.majority ≤ 1 then
    let n := persistLocked (sv 0) { n with currentTerm := inc n.currentTerm, votedFor := c.nodeID }
    becomeLeaderLocked c n.currentTerm n
  else n

/-- `New` followed by `Start`. -/
def start (inc : Int → Int) (c : Config) (load : Bool) (sv : Saves) (saved : Saved) : Node :=
  launch inc c.withDefaults load sv saved

theorem start_eq_launch (inc : Int → Int) (c : Config) (load : Bool) (sv : Saves) (saved : Saved) :
    start inc c load sv saved = launch inc c load sv saved := by
  simp only [start, launch, becomeLeaderLocked, Config.majority_withDefaults, Config.nodeID_withDefaults]

end Node

/-- A 64-bit increment. -/
def inc64 (t : Int) : Int := if t = 2 ^ 63 - 1 then -2 ^ 63 else t + 1

/-! ## Elections -/

/-- What a `SendVote` call delivered to the vote channel. -/
structure VoteResult where
  granted : Bool
  peerTerm : Int
  ok : Bool
  deriving DecidableEq, Repr

/-- One `SendVote` call in flight: the peer asked and, once the peer has handled the request, its
answer (granted, the peer's term). -/
structure Call where
  peer : String
  reply : Option (Bool × Int) := none
  deriving DecidableEq, Repr

/-- A running `startElection`: the term it solicits for, the votes counted so far (its own
included) and the calls whose result it has not yet received. -/
structure Election where
  term : Int
  votes : Nat
  calls : List Call
  deriving DecidableEq, Repr

namespace Node

/-- The locked first part of `startElection`, and the election it leaves running. -/
def startElection (inc : Int → Int) (c : Config) (sv : Saves) (n : Node) : Node × Election :=
  let n := persistLocked (sv 0)
    { n with role := .candidate, currentTerm := inc n.currentTerm, votedFor := c.nodeID }
  (n, { term := n.currentTerm, votes := 1, calls := c.peers.map fun p => { peer := p } })

/-- One turn of the vote loop of `startElection` on a received result. The election is `none` once
the loop has returned. -/
def countVote (c : Config) (sv : Saves) (r : VoteResult) (n : Node) (e : Election) : Node × Option Election :=
  if !r.ok then (n, some e)
  else if n.role ≠ .candidate ∨ n.currentTerm ≠ e.term then (n, none)
  else if r.peerTerm > n.currentTerm then (becomeFollowerLocked (sv 0) r.peerTerm n, none)
  else if r.granted then
    let e := { e with votes := e.votes + 1 }
    if e.votes ≥ c.majority then (becomeLeaderLocked c e.term n, none) else (n, some e)
  else (n, some e)

end Node

end Distsched.Cluster
