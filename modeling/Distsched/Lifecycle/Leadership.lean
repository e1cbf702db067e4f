/-
The callbacks of the election node: `onLeader` rebuilds the scheduling state and seeds the replication log, `onStepDown`
clears the scheduling state. Each is started on a goroutine of its own, so that callbacks run in any order and at the
same time as later ones. A clear left over from an old term can then empty the queue of a new one, and a rebuild can
go on after the step-down, writing to the store and arming timers on a node that no longer leads.

If callbacks run in the order in which they were started, one at a time, and the node steps down only once they have
all finished, then each finds the node as it was when it was started, and the last one decides what is left.
-/
import Distsched.Cluster.Vote
import Distsched.Lifecycle.Turn
import Distsched.Scheduler.Aloof

namespace Distsched.Lifecycle

open Scheduler Prog
open Cluster (Node VoterAction)

/-- A callback of the election node, as a program of the scheduler. -/
def callback (ps : Cron) : Cluster.Callback → M Unit
  | .onLeader _ => onBecomeLeader ps
  | .onStepDown _ => onStepDown

structure Leadership where
  server : Server
  /-- What each callback has yet to do, in the order in which they were started. -/
  callbacks : List (M Unit) := []
  /-- The jobs that callbacks have written since the node last stepped down. -/
  written : List Job := []

inductive Leadership.Action
  /-- A method of the election node. -/
  | method (a : VoterAction)
  /-- The callback of this number performs its next operation. -/
  | turn (i : Nat)

/-- A callback that has nothing left to do. -/
def isOver (p : M Unit) : Bool := match p with
  | .ret _ => true
  | .call .. => false

/-- The jobs an operation has written, from its answer. -/
def writtenBy : (op : Op) → op.Resp → List Job
  | .putJob job, .ok _ => [job]
  | _, _ => []

/-- The election node after a method. It does not start an election while it leads, and does not start anew. -/
def electionStep (env : Env) (inc : Int → Int) (n : Node) (a : VoterAction) : Option Node :=
  let n' := (Cluster.Voter.act inc ⟨env.cfg.nodeID, env.cfg.members.map Prod.fst⟩ ⟨n, []⟩ a).node
  match a with
  | .restart .. => none
  | .startElection _ => if n.isLeader then none else some n'
  | _ => some n'

namespace Leadership

/-- The node changes, and the callbacks it starts by that begin to run. -/
def become (ps : Cron) (c : Leadership) (n : Node) : Leadership where
  server := { c.server with node := n }
  callbacks := c.callbacks ++ (n.spawned.drop c.server.node.spawned.length).map (callback ps)
  written := if c.server.node.isLeader && !n.isLeader then [] else c.written

def act (env : Env) (inc : Int → Int) (ps : Cron) (c : Leadership) : Action → Option Leadership
  | .method a => (electionStep env inc c.server.node a).map (c.become ps)
  | .turn i => match c.callbacks[i]? with
    | some (.call op k) => some {
        server := (handle env op c.server).2
        callbacks := c.callbacks.set i (k (handle env op c.server).1)
        written := c.written ++ writtenBy op (handle env op c.server).1 }
    | _ => none

/-- A callback runs only when those started before it have finished, and the node steps down only when all have. -/
def InTurn (env : Env) (inc : Int → Int) (c : Leadership) : Action → Prop
  | .method a => ∀ n, electionStep env inc c.server.node a = some n → c.server.node.isLeader = true →
    n.isLeader = false → ∀ p ∈ c.callbacks, isOver p = true
  | .turn i => ∀ p ∈ c.callbacks.take i, isOver p = true

/-- A process that has not led yet, on a store of any content. -/
def begun (store : Store) (node : Node) : Leadership := { server := { Server.off store 0 0 with node := node } }

end Leadership

/-! ## What a method of the election node starts -/

/-- The node leads as before and starts nothing, or it gains or loses the lead and starts the callback for that. -/
inductive Elects (n n' : Node) : Prop
  | stays (hl : n'.isLeader = n.isLeader) (hs : n'.spawned = n.spawned)
  | gains (term : Int) (hl : n.isLeader = false) (hl' : n'.isLeader = true) (hs : n'.spawned = n.spawned ++ [.onLeader term])
  | loses (term : Int) (hl : n.isLeader = true) (hl' : n'.isLeader = false)
    (hs : n'.spawned = n.spawned ++ [.onStepDown term])

theorem Elects.congr {n n₁ n₂ : Node} (h : Elects n n₁) (hl : n₂.isLeader = n₁.isLeader) (hs : n₂.spawned = n₁.spawned) :
    Elects n n₂ := by
  rcases h with ⟨h₁, h₂⟩ | ⟨t, h₀, h₁, h₂⟩ | ⟨t, h₀, h₁, h₂⟩
  · exact .stays (hl.trans h₁) (hs.trans h₂)
  · exact .gains t h₀ (hl.trans h₁) (hs.trans h₂)
  · exact .loses t h₀ (hl.trans h₁) (hs.trans h₂)

theorem persistLocked_frame (ok : Bool) (n : Node) :
    (n.persistLocked ok).isLeader = n.isLeader ∧ (n.persistLocked ok).spawned = n.spawned := by
  unfold Node.persistLocked
  cases ok <;> exact ⟨rfl, rfl⟩

theorem elects_becomeFollowerLocked (ok : Bool) (term : Int) (n : Node) : Elects n (n.becomeFollowerLocked ok term) := by
  have hrole : (n.becomeFollowerLocked ok term).isLeader = false := by
    unfold Node.isLeader
    rw [Node.becomeFollowerLocked_role]
    rfl
  -- the term of the callback is that after the step
  have hterm : (if term > n.currentTerm then Node.persistLocked ok { n with currentTerm := term, votedFor := "" }
      else n).spawned = n.spawned := by
    split
    · exact (persistLocked_frame ok _).2
    · rfl
  by_cases hl : n.role = .leader
  · refine .loses (n.becomeFollowerLocked ok term).currentTerm (decide_eq_true hl) hrole ?_
    unfold Node.becomeFollowerLocked
    simp only [if_pos hl]
    rw [hterm]
  · refine .stays (hrole.trans (decide_eq_false hl).symm) ?_
    unfold Node.becomeFollowerLocked
    simp only [if_neg hl]
    exact hterm

theorem elects_countVote (c : Cluster.Config) (sv : Cluster.Saves) (r : Cluster.VoteResult) (n : Node)
    (e : Cluster.Election) : Elects n (n.countVote c sv r e).1 := by
  unfold Node.countVote
  split
  · exact .stays rfl rfl
  · split
    · exact .stays rfl rfl
    · rename_i hsame
      push Not at hsame
      split
      · exact elects_becomeFollowerLocked _ _ n
      · dsimp only
        split
        · split
          · refine .gains e.term ?_ rfl rfl
            unfold Node.isLeader
            rw [hsame.1]
            rfl
          · exact .stays rfl rfl
        · exact .stays rfl rfl

theorem elects_electionStep {env : Env} {inc : Int → Int} {n n' : Node} {a : VoterAction}
    (h : electionStep env inc n a = some n') : Elects n n' := by
  cases a with
  | restart => cases h
  | startElection sv =>
    obtain ⟨hl, ⟨⟩⟩ := Option.ite_none_left_eq_some.1 h
    obtain ⟨h₁, h₂⟩ := persistLocked_frame (sv 0)
      { n with role := .candidate, currentTerm := inc n.currentTerm, votedFor := env.cfg.nodeID }
    exact .stays (h₁.trans (Bool.eq_false_of_not_eq_true hl).symm) h₂
  | countVote sv r e =>
    cases h
    exact elects_countVote _ sv r n e
  | handleVote sv term candidateID =>
    cases h
    show Elects n (n.handleVote sv term candidateID).1
    have hstep : Elects n (if term > n.currentTerm then n.becomeFollowerLocked (sv 0) term else n) := by
      split
      · exact elects_becomeFollowerLocked _ _ n
      · exact .stays rfl rfl
    unfold Node.handleVote
    split
    · exact .stays rfl rfl
    · dsimp only
      generalize (if term > n.currentTerm then n.becomeFollowerLocked (sv 0) term else n) = n₁ at hstep ⊢
      split
      · obtain ⟨h₁, h₂⟩ := persistLocked_frame (sv 1) { n₁ with votedFor := candidateID }
        exact hstep.congr h₁ h₂
      · exact hstep
  | observeLeader sv term leaderID =>
    cases h
    show Elects n (n.observeLeader sv term leaderID).1
    unfold Node.observeLeader
    split
    · exact .stays rfl rfl
    · split
      · exact (elects_becomeFollowerLocked (sv 0) term n).congr rfl rfl
      · split
        · rename_i hrole
          refine .stays ?_ rfl
          unfold Node.isLeader
          rw [hrole]
          rfl
        · exact .stays rfl rfl
        · exact .stays rfl rfl
  | maybeStepDown sv peerTerm =>
    cases h
    show Elects n (n.maybeStepDown sv peerTerm)
    unfold Node.maybeStepDown
    split
    · exact elects_becomeFollowerLocked _ _ n
    · exact .stays rfl rfl

/-! ## How far the callbacks have come -/

/-- Nothing is queued, leased or armed. -/
def Halted (s : Server) : Prop := s.queue = .empty ∧ s.leases = ∅ ∧ s.retryTimers = ∅

/-- The operations of a clear. -/
def Clears : Op → Prop
  | .clearQueue | .clearDispatch | .clearIndex => True
  | _ => False

theorem Clears.aloof {op : Op} (h : Clears op) : Aloof op := by
  cases op <;> first | exact h.elim | trivial

/-- The node would serve if it led. -/
structure Fit (env : Env) (s : Server) : Prop where
  opened : s.closed = false
  traced : ∀ τ l, s.leases[τ]? = some l → τ ∈ (view env s).issued

variable {env : Env} {ps : Cron} {s : Server} {written : List Job} {rest : List (M Unit)}

theorem Fit.of_halted (ho : s.closed = false) (h : Halted s) : Fit env s := by
  refine ⟨ho, fun τ l hl => ?_⟩
  rw [h.2.1, Std.ExtTreeMap.getElem?_empty] at hl
  cases hl

theorem Fit.clears {op : Op} (h : Fit env s) (hop : Clears op) :
    Fit env (handle env op s).2 ∧ writtenBy op (handle env op s).1 = [] := by
  cases op with
  | clearQueue | clearIndex => exact ⟨⟨h.opened, h.traced⟩, rfl⟩
  | clearDispatch =>
    refine ⟨⟨h.opened, fun τ l hl => ?_⟩, rfl⟩
    have : (∅ : Std.ExtTreeMap String Lease)[τ]? = some l := hl
    rw [Std.ExtTreeMap.getElem?_empty] at this
    cases this
  | _ => exact hop.elim

theorem uses_onStepDown : Uses Clears onStepDown :=
  Uses.bind (Uses.perform trivial) fun _ => Uses.bind (Uses.perform trivial) fun _ => Uses.perform trivial

/-- What the callbacks that may be unfinished are, and what they will achieve: a rebuild that runs while the node leads,
with a clear before it at most, or a clear that runs while it does not. -/
inductive Phase (env : Env) (ps : Cron) (s : Server) (written : List Job) : List (M Unit) → Prop
  | rebuilt (hs : Serving env s) (hb : Rebuilt (view env s)) : Phase env ps s written []
  | rebuilding {p : M Unit} (hl : s.node.isLeader = true) (hu : Uses Aloof p)
    (hp : Sat (handle env) p s fun _ s' => Serving env s' ∧ Rebuilt (view env s')) : Phase env ps s written [p]
  | superseded {q : M Unit} (hs : Serving env s) (hu : Uses Clears q) : Phase env ps s written [q, onBecomeLeader ps]
  | halted (hl : s.node.isLeader = false) (ho : s.closed = false) (hh : Halted s) (hw : written = []) :
    Phase env ps s written []
  | halting {q : M Unit} (hl : s.node.isLeader = false) (hf : Fit env s) (hu : Uses Clears q)
    (hq : Sat (handle env) q s fun _ s' => s'.closed = false ∧ Halted s') (hw : written = []) : Phase env ps s written [q]

/-- A rebuild that begins while the node leads. -/
theorem phase_rebuild (he : Sound env) (hs : Serving env s) : Phase env ps s written [onBecomeLeader ps] := by
  obtain ⟨b', ⟨hs', rfl⟩, hr⟩ := does_onBecomeLeader he ps s ⟨hs, rfl⟩
  exact .rebuilding hs.leads (aloof_onBecomeLeader ps) ⟨hs', hr⟩

theorem Phase.stays (h : Phase env ps s written rest) {n : Node} (hn : n.isLeader = s.node.isLeader) :
    Phase env ps { s with node := n } written rest := by
  have hserve : ∀ {s' : Server}, Serving env s' → n.isLeader = true → Serving env { s' with node := n } :=
    fun hs hl => ⟨hl, hs.opened, hs.traced⟩
  cases h with
  | rebuilt hs hb => exact .rebuilt (hserve hs (hn.trans hs.leads)) hb
  | rebuilding hl hu hp =>
    refine .rebuilding (hn.trans hl) hu (sat_node hu hn (hp.mono ?_))
    rintro _ s' ⟨hs', hr⟩
    exact ⟨hserve hs' (hn.trans hl), hr⟩
  | superseded hs hu => exact .superseded (hserve hs (hn.trans hs.leads)) hu
  | halted hl ho hh hw => exact .halted (hn.trans hl) ho hh hw
  | halting hl hf hu hq hw =>
    refine .halting (hn.trans hl) ⟨hf.opened, hf.traced⟩ hu ?_ hw
    exact sat_node (hu.mono fun _ hop => hop.aloof) hn hq

theorem Phase.gains (he : Sound env) (h : Phase env ps s written rest) (hl : s.node.isLeader = false) {n : Node}
    (hn : n.isLeader = true) : Phase env ps { s with node := n } written (rest ++ [onBecomeLeader ps]) := by
  have hlead : ∀ {P : Prop}, s.node.isLeader = true → P := by
    intro P h
    rw [hl] at h
    cases h
  cases h with
  | rebuilt hs => exact hlead hs.leads
  | rebuilding hl' => exact hlead hl'
  | superseded hs => exact hlead hs.leads
  | halted _ ho hh _ =>
    have hf : Fit env s := .of_halted ho hh
    exact phase_rebuild he ⟨hn, hf.opened, hf.traced⟩
  | halting _ hf hu => exact .superseded ⟨hn, hf.opened, hf.traced⟩ hu

/-- Once the callbacks have finished, a node that leads has its scheduling state rebuilt, and one that does not has none. -/
theorem Phase.ended (h : Phase env ps s written rest) (hover : ∀ p ∈ rest, isOver p = true) :
    (Serving env s ∧ Rebuilt (view env s)) ∨ (s.node.isLeader = false ∧ Halted s ∧ written = []) := by
  cases h with
  | rebuilt hs hb => exact .inl ⟨hs, hb⟩
  | @rebuilding p _ _ hp =>
    cases p with
    | ret => exact .inl hp
    | call => cases hover _ (List.mem_singleton_self _)
  | superseded => cases hover _ (List.mem_cons_of_mem _ (List.mem_singleton_self _))
  | halted hl _ hh hw => exact .inr ⟨hl, hh, hw⟩
  | @halting q hl _ _ hq hw =>
    cases q with
    | ret => exact .inr ⟨hl, hq.2, hw⟩
    | call => cases hover _ (List.mem_singleton_self _)

theorem Phase.loses (h : Phase env ps s written rest) (hover : ∀ p ∈ rest, isOver p = true)
    (hl : s.node.isLeader = true) {n : Node} (hn : n.isLeader = false) : Phase env ps { s with node := n } [] [onStepDown] := by
  rcases h.ended hover with ⟨hs, _⟩ | ⟨hl', _⟩
  · exact .halting hn ⟨hs.opened, hs.traced⟩ uses_onStepDown ⟨hs.opened, rfl, rfl, rfl⟩ rfl
  · rw [hl] at hl'
    cases hl'

/-- A callback takes its turn. Those before it, which have finished, are not looked at again. -/
theorem Phase.turn (he : Sound env) (h : Phase env ps s written rest) {m : Nat} {op : Op} {k : op.Resp → M Unit}
    (hm : rest[m]? = some (.call op k)) (hover : ∀ p ∈ rest.take m, isOver p = true) :
    ∃ fin rest', rest.set m (k (handle env op s).1) = fin ++ rest' ∧ (∀ p ∈ fin, isOver p = true) ∧
      Phase env ps (handle env op s).2 (written ++ writtenBy op (handle env op s).1) rest' := by
  have hnone : ∀ p ∈ ([] : List (M Unit)), isOver p = true := by simp
  have hrebuild : ∀ {p : M Unit}, p = .call op k → Phase env ps s written [p] → s.node.isLeader = true →
      Phase env ps (handle env op s).2 (written ++ writtenBy op (handle env op s).1) [k (handle env op s).1] := by
    rintro _ rfl h hl
    cases h with
    | rebuilding _ hu hp => exact .rebuilding (by rw [node_handle hu.1, hl]) (hu.2 _ trivial) hp
    | halting hl' =>
      rw [hl] at hl'
      cases hl'
  cases h with
  | rebuilt | halted => cases hm
  | @rebuilding p hl hu hp =>
    cases m with
    | zero => exact ⟨[], _, rfl, hnone, hrebuild (Option.some.inj hm) (.rebuilding hl hu hp) hl⟩
    | succ m => cases hm
  | @superseded q hs hu =>
    cases m with
    | zero =>
      cases Option.some.inj hm
      have hfit : Fit env s := ⟨hs.opened, hs.traced⟩
      obtain ⟨hf, -⟩ := hfit.clears hu.1
      refine ⟨[], _, rfl, hnone, .superseded ⟨?_, hf.opened, hf.traced⟩ (hu.2 _ trivial)⟩
      rw [node_handle hu.1.aloof]
      exact hs.leads
    | succ m =>
      cases m with
      | zero =>
        refine ⟨[q], _, rfl, fun p hp => hover p hp, ?_⟩
        exact hrebuild (Option.some.inj hm) (phase_rebuild he hs) hs.leads
      | succ m => cases hm
  | @halting q hl hf hu hq hw =>
    cases m with
    | zero =>
      cases Option.some.inj hm
      obtain ⟨hf', hw'⟩ := hf.clears hu.1
      refine ⟨[], _, rfl, hnone, .halting ?_ hf' (hu.2 _ trivial) hq (by rw [hw, hw']; rfl)⟩
      rw [node_handle hu.1.aloof]
      exact hl
    | succ m => cases hm

/-! ## Runs -/

namespace Leadership

variable {c c' : Leadership} {inc : Int → Int}

/-- The callbacks are some that have finished, and then those of a phase. -/
def InPhases (env : Env) (ps : Cron) (c : Leadership) : Prop :=
  ∃ fin rest, c.callbacks = fin ++ rest ∧ (∀ p ∈ fin, isOver p = true) ∧ Phase env ps c.server c.written rest

theorem InPhases.become (he : Sound env) (h : InPhases env ps c) {n : Node} (hn : Elects c.server.node n)
    (hover : c.server.node.isLeader = true → n.isLeader = false → ∀ p ∈ c.callbacks, isOver p = true) :
    InPhases env ps (c.become ps n) := by
  obtain ⟨fin, rest, hc, hfin, hphase⟩ := h
  have hstarted : ∀ {cbs : List Cluster.Callback}, n.spawned = c.server.node.spawned ++ cbs →
      (c.become ps n).callbacks = c.callbacks ++ cbs.map (callback ps) := by
    intro cbs hs
    show c.callbacks ++ (n.spawned.drop _).map (callback ps) = _
    rw [hs, List.drop_left]
  have hwritten : ¬ (c.server.node.isLeader = true ∧ n.isLeader = false) → (c.become ps n).written = c.written := by
    intro hnot
    refine if_neg fun h => hnot ?_
    simpa using h
  rcases hn with ⟨hl, hs⟩ | ⟨t, hl, hl', hs⟩ | ⟨t, hl, hl', hs⟩
  · refine ⟨fin, rest, ?_, hfin, ?_⟩
    · have hsame : n.spawned = c.server.node.spawned ++ [] := by rw [hs, List.append_nil]
      rw [hstarted hsame, hc]
      exact List.append_nil _
    · rw [hwritten (by rw [hl]; simp)]
      exact hphase.stays hl
  · refine ⟨fin, rest ++ [onBecomeLeader ps], ?_, hfin, ?_⟩
    · rw [hstarted hs, hc, List.append_assoc]
      rfl
    · rw [hwritten (by rw [hl]; simp)]
      exact hphase.gains he hl hl'
  · have hall := hover hl hl'
    refine ⟨c.callbacks, [onStepDown], hstarted hs, hall, ?_⟩
    have hw : (c.become ps n).written = [] := if_pos (by rw [hl, hl']; rfl)
    rw [hw]
    exact hphase.loses (fun p hp => hall p (hc ▸ List.mem_append_right _ hp)) hl hl'

theorem InPhases.act (he : Sound env) (h : InPhases env ps c) {a : Action} (hok : c.InTurn env inc a)
    (ha : c.act env inc ps a = some c') : InPhases env ps c' := by
  cases a with
  | method a =>
    obtain ⟨n, hn, rfl⟩ := Option.map_eq_some_iff.1 ha
    exact h.become he (elects_electionStep hn) (hok n hn)
  | turn i =>
    simp only [Leadership.act] at ha
    split at ha
    · rename_i op k hi
      cases ha
      obtain ⟨fin, rest, hc, hfin, hphase⟩ := h
      -- the callback at hand is not one of those that have finished
      have hle : fin.length ≤ i := by
        by_contra hlt
        rw [hc, List.getElem?_append_left (by omega)] at hi
        cases hfin _ (List.mem_of_getElem? hi)
      rw [hc, List.getElem?_append_right hle] at hi
      have hover : ∀ p ∈ rest.take (i - fin.length), isOver p = true := by
        intro p hp
        refine hok p ?_
        rw [hc, List.take_append]
        exact List.mem_append_right _ hp
      obtain ⟨fin', rest', hset, hfin', hphase'⟩ := hphase.turn he hi hover
      refine ⟨fin ++ fin', rest', ?_, ?_, hphase'⟩
      · show c.callbacks.set i _ = _
        rw [hc, List.set_append_right _ _ hle, hset, List.append_assoc]
      · intro p hp
        rcases List.mem_append.1 hp with hp | hp
        · exact hfin p hp
        · exact hfin' p hp
    · cases ha

/-- A node that has not led yet is elected and steps down any number of times. If its callbacks run in order and the node
does not step down before they have finished, then whenever all have finished, a leader has every QUEUED job in its ready
queue or armed, and any other node has nothing queued, leased or armed and its callbacks have written no job since it
stepped down. -/
theorem callbacks_in_turn (he : Sound env) {store : Store} {node : Node} (hn : node.isLeader = false)
    (h : Steps.Reaches (Leadership.act env inc ps) (Leadership.InTurn env inc) (begun store node) c)
    (hover : ∀ p ∈ c.callbacks, isOver p = true) :
    (c.server.node.isLeader = true → ∀ x j, c.server.store.jobs.get x = some j → j.state = .queued →
      c.server.queue.Holds x ∨ x ∈ c.server.retryTimers) ∧
    (c.server.node.isLeader = false → Halted c.server ∧ c.written = []) := by
  have hbegun : InPhases env ps (begun store node) := ⟨[], [], rfl, by simp, .halted hn rfl ⟨rfl, rfl, rfl⟩ rfl⟩
  obtain ⟨fin, rest, hc, _, hphase⟩ := h.invariant (I := InPhases env ps) hbegun fun _ _ _ h hok ha => h.act he hok ha
  rcases hphase.ended fun p hp => hover p (hc ▸ List.mem_append_right _ hp) with ⟨hs, hr⟩ | ⟨hl, hh, hw⟩
  · refine ⟨fun _ x j hj hq => hr.settled.armed x j hj hq, fun hl => ?_⟩
    rw [hs.leads] at hl
    cases hl
  · refine ⟨fun hl' => ?_, fun _ => ⟨hh, hw⟩⟩
    rw [hl] at hl'
    cases hl'

/-! ## In turn and out of turn -/

/-- A test for steps in turn. -/
def inTurn (c : Leadership) : Action → Bool
  | .method a => match electionStep .steady (· + 1) c.server.node a with
    | some n => !c.server.node.isLeader || n.isLeader || c.callbacks.all isOver
    | none => true
  | .turn i => (c.callbacks.take i).all isOver

theorem inTurn_sound (c : Leadership) (a : Action) (h : inTurn c a = true) : c.InTurn .steady (· + 1) a := by
  cases a with
  | method a =>
    intro n hn hl hl'
    simp only [inTurn, hn, hl, hl'] at h
    exact List.all_eq_true.1 h
  | turn i => exact List.all_eq_true.1 h

/-- The node stands for a term and wins. -/
def election (term : Int) : List Action :=
  [.method (.startElection .all), .method (.countVote .all ⟨true, 0, true⟩ ⟨term, 1, []⟩)]

/-- The node learns of a term. -/
def stepDown (term : Int) : List Action := [.method (.maybeStepDown .all term)]

/-- A callback takes a number of turns. -/
def turns (i n : Nat) : List Action := List.replicate n (.turn i)

/-- The run of a node on a store that holds the job. -/
def ran (job : Job) (test : Leadership → Action → Bool) (as : List Action) : Option Leadership :=
  Steps.perform (Leadership.act .steady (· + 1) noCron) test (begun { Store.empty with jobs := .put .empty job } {}) as

/-- The node is elected, steps down and is elected again before the clear has run; then the clear runs, and after it the
second rebuild. -/
def reelected : Option Leadership :=
  ran { id := "a", state := .queued } inTurn (election 1 ++ turns 0 10 ++ stepDown 2 ++ election 3 ++ turns 1 3 ++ turns 2 10)

theorem callbacks_in_turn_reelected : ∃ c, reelected = some c ∧ c.server.node.isLeader = true ∧
    (c.server.queue.Holds "a" ∨ "a" ∈ c.server.retryTimers) := by
  have hend : reelected.map (fun c => (c.callbacks.all isOver, c.server.node.isLeader,
      (c.server.store.jobs.get "a").map Job.state)) = some (true, true, some .queued) := by
    decide +kernel
  obtain ⟨c, hc, hfacts⟩ := Option.map_eq_some_iff.1 hend
  simp only [Prod.mk.injEq] at hfacts
  obtain ⟨hover, hl, hstate⟩ := hfacts
  obtain ⟨j, hj, hs⟩ := Option.map_eq_some_iff.1 hstate
  have hrun := Steps.Reaches.perform inTurn_sound .refl hc
  exact ⟨c, hc, hl, (callbacks_in_turn steady_sound rfl hrun (List.all_eq_true.1 hover)).1 hl "a" j hj hs⟩

/-- The same, but the second rebuild runs before the clear. -/
def cleared : Option Leadership :=
  ran { id := "a", state := .queued } (fun _ _ => true)
    (election 1 ++ turns 0 10 ++ stepDown 2 ++ election 3 ++ turns 2 10 ++ turns 1 3)

/-- The node steps down in the middle of a rebuild that reclaims a RUNNING job, the clear runs, and then the rest of the
rebuild. -/
def reclaimed : Option Leadership :=
  ran { id := "a", state := .running, attempt := 1 } (fun _ _ => true)
    (election 1 ++ turns 0 5 ++ stepDown 2 ++ turns 1 3 ++ turns 0 8)

/-- With callbacks in any order, all finished, a leader may have a QUEUED job in neither place, and a node that does not
lead may have an armed timer and a job that its callbacks have written since it stepped down. -/
theorem callbacks_out_of_turn :
    (∃ c, Steps.Reaches (Leadership.act .steady (· + 1) noCron) (fun _ _ => True)
        (begun { Store.empty with jobs := .put .empty { id := "a", state := .queued } } {}) c ∧
      (∀ p ∈ c.callbacks, isOver p = true) ∧ c.server.node.isLeader = true ∧
      (c.server.store.jobs.get "a").map Job.state = some .queued ∧
      ¬ (c.server.queue.Holds "a" ∨ "a" ∈ c.server.retryTimers)) ∧
    ∃ c, Steps.Reaches (Leadership.act .steady (· + 1) noCron) (fun _ _ => True)
        (begun { Store.empty with jobs := .put .empty { id := "a", state := .running, attempt := 1 } } {}) c ∧
      (∀ p ∈ c.callbacks, isOver p = true) ∧ c.server.node.isLeader = false ∧ "a" ∈ c.server.retryTimers ∧
      c.written.map Job.id = ["a"] := by
  have hleader : cleared.map (fun c => (c.callbacks.all isOver, c.server.node.isLeader,
      (c.server.store.jobs.get "a").map Job.state, decide (c.server.queue.Holds "a" ∨ "a" ∈ c.server.retryTimers))) =
        some (true, true, some .queued, false) := by
    decide +kernel
  have hother : reclaimed.map (fun c => (c.callbacks.all isOver, c.server.node.isLeader,
      decide ("a" ∈ c.server.retryTimers), c.written.map Job.id)) = some (true, false, true, ["a"]) := by
    decide +kernel
  constructor
  · obtain ⟨c, hc, hfacts⟩ := Option.map_eq_some_iff.1 hleader
    simp only [Prod.mk.injEq, decide_eq_false_iff_not] at hfacts
    obtain ⟨hover, hl, hstate, hnot⟩ := hfacts
    exact ⟨c, .perform (fun _ _ _ => trivial) .refl hc, List.all_eq_true.1 hover, hl, hstate, hnot⟩
  · obtain ⟨c, hc, hfacts⟩ := Option.map_eq_some_iff.1 hother
    simp only [Prod.mk.injEq, decide_eq_true_eq] at hfacts
    obtain ⟨hover, hl, hin, hw⟩ := hfacts
    exact ⟨c, .perform (fun _ _ _ => trivial) .refl hc, List.all_eq_true.1 hover, hl, hin, hw⟩

end Leadership

end Distsched.Lifecycle
