/-
Elections in time: the election timer of each replica (`resetElectionTimerLocked`) and the loop that campaigns when it has
run out (`run`), laid over the events of `Network`. What a timed run does to the replicas is a run of `Network`, in which a
replica campaigns only as its loop has it. The loop takes the mutex to look at the timer and once more to campaign, and a
heartbeat or a vote in between does not hold it back.

A replica that does not lead has a deadline that lies, from the last time it reset its timer, within the bounds of the
configuration. So its loop does not go for a campaign before the lower bound has passed and does once the upper one has; and
a leader that every replica hears from within the lower bound, and whose term is the highest there is, leads on.
-/
import Distsched.Cluster.Electable

namespace Distsched.Cluster

/-! ## The timer -/

/-- The bounds of the randomized election timeout. -/
structure Timeouts where
  electionTimeoutMin : Int := 0
  electionTimeoutMax : Int := 0

def Timeouts.withDefaults (c : Timeouts) : Timeouts where
  electionTimeoutMin := if c.electionTimeoutMin = 0 then 800 * 1000000 else c.electionTimeoutMin
  electionTimeoutMax := if c.electionTimeoutMax = 0 then 1600 * 1000000 else c.electionTimeoutMax

/-- The deadline that `resetElectionTimerLocked` sets. `rand.Int63n` draws a number below the span, which is here the rest of
an arbitrary one. -/
def Timeouts.resetElectionTimer (c : Timeouts) (now draw : Int) : Int :=
  let span := c.electionTimeoutMax - c.electionTimeoutMin
  let timeout := if span > 0 then c.electionTimeoutMin + draw % span else c.electionTimeoutMin
  now + timeout

theorem Timeouts.le_resetElectionTimer (c : Timeouts) (now draw : Int) :
    now + c.electionTimeoutMin ≤ c.resetElectionTimer now draw := by
  unfold resetElectionTimer
  simp only
  split
  · have := Int.emod_nonneg draw (b := c.electionTimeoutMax - c.electionTimeoutMin) (by omega)
    omega
  · omega

theorem Timeouts.resetElectionTimer_le (c : Timeouts) (now draw : Int) :
    c.resetElectionTimer now draw ≤ now + max c.electionTimeoutMin c.electionTimeoutMax := by
  unfold resetElectionTimer
  simp only
  split
  · have := Int.emod_lt_of_pos draw (b := c.electionTimeoutMax - c.electionTimeoutMin) (by omega)
    omega
  · omega

/-! ## Which calls reset it -/

namespace Node

def handleVoteResets (term : Int) (candidateID : String) (n : Node) : Bool :=
  !decide (term < n.currentTerm) && (decide (term > n.currentTerm) || (n.handleVote .all term candidateID).2.1)

/-- A leader that hears of a leader of its own term ignores it. -/
def observeLeaderResets (term : Int) (n : Node) : Bool :=
  !decide (term < n.currentTerm) && !(decide (term = n.currentTerm) && n.isLeader)

def maybeStepDownResets (peerTerm : Int) (n : Node) : Bool := decide (peerTerm > n.currentTerm)

/-- The election steps down on the result. -/
def countVoteResets (r : VoteResult) (n : Node) (e : Election) : Bool :=
  r.ok && decide (n.role = .candidate) && decide (n.currentTerm = e.term) && decide (r.peerTerm > n.currentTerm)

end Node

/-- A running replica for which the test holds. -/
def Net.test (s : Net) (i : String) (p : Node → Bool) : Bool := match s i with
  | .up n _ => p n
  | .down _ => false

theorem Net.test_iff {s : Net} {i : String} {p : Node → Bool} :
    s.test i p = true ↔ ∃ n es, s i = .up n es ∧ p n = true := by
  unfold test
  cases hi : s i with
  | down sv => simp
  | up n es => simp

/-- The call of a running election. -/
def Net.callAt (s : Net) (i : String) (e k : Nat) : Option (Election × Call) := match s i with
  | .up _ es => Cluster.callAt es e k
  | .down _ => none

/-- Whether the event resets the timer of replica `j`. A node that is its own majority starts without one. -/
def resets (members : List String) (s : Net) (ev : Event) (j : String) : Bool := match ev with
  | .start i => i = j && decide (1 < Config.majority ⟨i, members⟩)
  | .startElection i => i = j
  | .deliver i e k => match s.callAt i e k with
    | some (el, c) => c.peer = j && s.test j (·.handleVoteResets el.term i)
    | none => false
  | .receive i e k => match s.callAt i e k with
    | some (el, ⟨_, some (granted, peerTerm)⟩) => i = j && s.test j (·.countVoteResets ⟨granted, peerTerm, true⟩ el)
    | _ => false
  | .handleVote i term candidateID => i = j && s.test j (·.handleVoteResets term candidateID)
  | .observeLeader i term _ => i = j && s.test j (·.observeLeaderResets term)
  | .maybeStepDown i peerTerm => i = j && s.test j (·.maybeStepDownResets peerTerm)
  | .crash _ | .lose .. => false

/-! ## The cluster in time -/

/-- A campaign: when the loop looked at the timer and when it was last reset then, and when the election started. -/
structure Campaign where
  replica : String
  reset : Int
  checked : Int
  started : Int
  deriving DecidableEq, Repr

structure Clocked where
  net : Net
  electionDeadline : String → Int
  now : Int
  /-- When each replica last reset its timer. -/
  lastReset : String → Int
  /-- The loops that have found the timer run out and are to campaign: the last reset they saw, and when they looked. -/
  decided : String → Option (Int × Int)
  campaigns : List Campaign := []

/-- The event is a campaign. -/
def Event.campaigns : Event → Bool
  | .startElection _ => true
  | _ => false

inductive Act
  /-- the election loop of a replica looks at the timer -/
  | check (i : String)
  /-- the loop calls `startElection` -/
  | campaign (i : String)
  /-- any event but a campaign -/
  | event (ev : Event)

/-- The loop finds that the timer has run out. -/
def Clocked.due (s : Clocked) (i : String) (now : Int) : Bool :=
  s.net.test i fun n => decide (n.role ≠ .leader) && decide (now > s.electionDeadline i)

section

variable (inc : Int → Int) (c : Timeouts) (members : List String)

/-- An event of the replicas at a time, with the number drawn for a timer it resets. A crash ends the loop of the process
with it. -/
def Clocked.happen (s : Clocked) (now draw : Int) (ev : Event) : Option Clocked :=
  (step inc members s.net ev).map fun net =>
    { s with
      net := net, now := now
      electionDeadline := fun j => if resets members s.net ev j then c.resetElectionTimer now draw else s.electionDeadline j
      lastReset := fun j => if resets members s.net ev j then now else s.lastReset j
      decided := match ev with
        | .crash i => Function.update s.decided i none
        | _ => s.decided }

/-- One step, no earlier than the last one. -/
def Clocked.act (s : Clocked) : Int × Int × Act → Option Clocked
  | (now, _, .check i) =>
    if now < s.now ∨ s.decided i ≠ none then none
    else some { s with
      now := now
      decided := if s.due i now then Function.update s.decided i (some (s.lastReset i, now)) else s.decided }
  | (now, draw, .campaign i) =>
    if now < s.now then none
    else match s.decided i with
      | some (reset, checked) => (s.happen inc c members now draw (.startElection i)).map fun s' =>
        { s' with decided := Function.update s.decided i none, campaigns := s.campaigns ++ [⟨i, reset, checked, now⟩] }
      | none => none
  | (now, draw, .event ev) => if now < s.now ∨ ev.campaigns then none else s.happen inc c members now draw ev

/-- A cluster none of whose replicas has started. -/
def Clocked.stopped (net : Net) (now : Int) : Clocked where
  net := net
  electionDeadline := fun _ => 0
  now := now
  lastReset := fun _ => 0
  decided := fun _ => none

/-- The states of the timed runs from a stopped cluster. -/
def Clocked.Reachable (s : Clocked) : Prop :=
  ∃ net now, Stopped net ∧ Steps.Reaches (Clocked.act inc c members) (fun _ _ => True) (.stopped net now) s

end

variable {inc : Int → Int} {c : Timeouts} {members : List String} {s s' : Clocked} {now draw : Int} {i : String} {n n' : Node}
  {es es' : List Election}

/-! ## Timed runs are runs -/

theorem Clocked.happen_net {ev : Event} (h : s.happen inc c members now draw ev = some s') :
    step inc members s.net ev = some s'.net := by
  obtain ⟨net, hstep, rfl⟩ := Option.map_eq_some_iff.1 h
  exact hstep

/-- What an event leaves of the loops and the campaigns. -/
theorem Clocked.happen_loops {ev : Event} (h : s.happen inc c members now draw ev = some s') :
    s'.now = now ∧ s'.campaigns = s.campaigns ∧ ∀ j d, s'.decided j = some d → s.decided j = some d := by
  obtain ⟨net, -, rfl⟩ := Option.map_eq_some_iff.1 h
  refine ⟨rfl, rfl, fun j d hd => ?_⟩
  cases ev with
  | crash i =>
    replace hd : Function.update s.decided i none j = some d := hd
    rw [Function.update_apply] at hd
    split at hd
    · cases hd
    · exact hd
  | _ => exact hd

/-- What a step is: a look at a timer, a campaign that such a look has led to, or an event that is no campaign. -/
inductive Clocked.Moves (inc : Int → Int) (c : Timeouts) (members : List String) (s : Clocked) (now draw : Int) :
    Act → Clocked → Prop
  | passed {i : String} : s.decided i = none → s.due i now = false →
    Moves inc c members s now draw (.check i) { s with now := now }
  | found {i : String} : s.decided i = none → s.due i now = true → Moves inc c members s now draw (.check i)
      { s with now := now, decided := Function.update s.decided i (some (s.lastReset i, now)) }
  | campaign {i : String} {reset checked : Int} {s₁ : Clocked} : s.decided i = some (reset, checked) →
      s.happen inc c members now draw (.startElection i) = some s₁ →
      Moves inc c members s now draw (.campaign i)
        { s₁ with decided := Function.update s.decided i none, campaigns := s.campaigns ++ [⟨i, reset, checked, now⟩] }
  | event {ev : Event} {s' : Clocked} : ev.campaigns = false → s.happen inc c members now draw ev = some s' →
      Moves inc c members s now draw (.event ev) s'

theorem Clocked.act_moves {a : Act} (h : s.act inc c members (now, draw, a) = some s') :
    s.now ≤ now ∧ Moves inc c members s now draw a s' := by
  cases a with
  | check i =>
    simp only [act] at h
    split at h
    · cases h
    · rename_i hok
      obtain ⟨hnow, hd⟩ := not_or.1 hok
      cases h
      refine ⟨Int.not_lt.1 hnow, ?_⟩
      cases hdue : s.due i now with
      | true => exact .found (not_not.1 hd) hdue
      | false => exact .passed (not_not.1 hd) hdue
  | campaign i =>
    simp only [act] at h
    split at h
    · cases h
    · rename_i hnow
      split at h
      · rename_i reset checked hd
        obtain ⟨s₁, h₁, rfl⟩ := Option.map_eq_some_iff.1 h
        exact ⟨by omega, .campaign hd h₁⟩
      · cases h
  | event ev =>
    simp only [act] at h
    split at h
    · cases h
    · rename_i hok
      obtain ⟨hnow, hev⟩ := not_or.1 hok
      exact ⟨Int.not_lt.1 hnow, .event (by simpa using hev) h⟩

/-- The replicas of a timed run are those of a run. -/
theorem Clocked.Reachable.net (h : s.Reachable inc c members) : Cluster.Reachable inc members s.net := by
  obtain ⟨net, now, hst, hr⟩ := h
  refine hr.invariant (I := fun s => Cluster.Reachable inc members s.net) ⟨net, [], hst, rfl⟩ ?_
  rintro s ⟨now, draw, a⟩ s' hs _ ha
  have hstep : ∀ {ev s₁}, s.happen inc c members now draw ev = some s₁ → Cluster.Reachable inc members s₁.net := by
    intro ev s₁ h₁
    have hone : Steps.Reaches (step inc members) (fun _ _ => True) s.net s₁.net := .step .refl trivial (happen_net h₁)
    exact hs.reaches hone
  cases (act_moves ha).2 with
  | passed => exact hs
  | found => exact hs
  | campaign _ h₁ =>
    have := hstep h₁
    exact this
  | event _ h₁ => exact hstep h₁

/-! ## Deadlines -/

namespace Node

/-- A leader that a vote request deposes has reset its timer. -/
theorem handleVote_demotes {t : Int} {cand : String} (hl : n.role = .leader)
    (h : (n.handleVote .all t cand).1.role ≠ .leader) : n.handleVoteResets t cand = true := by
  by_cases hlt : t < n.currentTerm
  · rw [handleVote, if_pos hlt] at h
    exact absurd hl h
  · by_cases hgt : t > n.currentTerm
    · simp [handleVoteResets, hlt, hgt]
    · refine absurd ?_ h
      rw [handleVote, if_neg hlt]
      simp only [if_neg hgt]
      split <;> exact hl

theorem observeLeader_demotes {t : Int} {l : String} (hl : n.role = .leader)
    (h : (n.observeLeader .all t l).1.role ≠ .leader) : n.observeLeaderResets t = true := by
  by_cases hlt : t < n.currentTerm
  · rw [observeLeader, if_pos hlt] at h
    exact absurd hl h
  · by_cases hgt : t > n.currentTerm
    · have : ¬ t = n.currentTerm := by omega
      simp [observeLeaderResets, hlt, this]
    · refine absurd ?_ h
      rw [observeLeader, if_neg hlt, if_neg hgt]
      simp only [hl]

theorem maybeStepDown_demotes {t : Int} (hl : n.role = .leader) (h : (n.maybeStepDown .all t).role ≠ .leader) :
    n.maybeStepDownResets t = true := by
  by_cases hgt : t > n.currentTerm
  · simp [maybeStepDownResets, hgt]
  · rw [maybeStepDown, if_neg hgt] at h
    exact absurd hl h

theorem countVote_leader {cfg : Config} {r : VoteResult} {e : Election} (hl : n.role = .leader) :
    (n.countVote cfg .all r e).1 = n := by
  unfold countVote
  split
  · rfl
  · simp [hl]

end Node

theorem update_eq_up {s : Net} {j : String} {r : Replica} (h : Function.update s j r i = .up n es) :
    (j = i ∧ r = .up n es) ∨ s i = .up n es := by
  by_cases hi : i = j
  · subst hi
    rw [Function.update_self] at h
    exact .inl ⟨rfl, h⟩
  · rw [Function.update_of_ne hi] at h
    exact .inr h

/-- A replica that does not lead has reset its timer just now, or did not lead before. -/
theorem resets_or {s s' : Net} {ev : Event} (h : step inc members s ev = some s') (hi : s' i = .up n' es')
    (hr : n'.role ≠ .leader) : resets members s ev i = true ∨ ∃ n es, s i = .up n es ∧ n.role ≠ .leader := by
  -- a method of replica `i` that has turned `n` into `n'`
  have hmethod : ∀ {b : Bool} {n : Node} {es : List Election}, s i = .up n es → (n.role = .leader → b = true) →
      b = true ∨ ∃ n es, s i = .up n es ∧ n.role ≠ .leader := by
    intro b n es hn hb
    by_cases hl : n.role = .leader
    · exact .inl (hb hl)
    · exact .inr ⟨n, es, hn, hl⟩
  cases ev with
  | start j =>
    simp only [step] at h
    split at h
    · obtain ⟨-, ⟨⟩⟩ := Option.ite_none_right_eq_some.1 h
      rcases update_eq_up hi with ⟨rfl, he⟩ | hi
      · cases he
        left
        by_cases hmaj : Config.majority ⟨j, members⟩ ≤ 1
        · simp only [Node.start_eq_launch, Node.launch, if_true, if_pos hmaj] at hr
          exact absurd rfl hr
        · simpa [resets] using hmaj
      · exact .inr ⟨_, _, hi, hr⟩
    · cases h
  | crash j =>
    simp only [step] at h
    split at h
    · cases h
      rcases update_eq_up hi with ⟨-, he⟩ | hi
      · cases he
      · exact .inr ⟨_, _, hi, hr⟩
    · cases h
  | startElection j =>
    simp only [step] at h
    split at h
    · cases h
      rcases update_eq_up hi with ⟨rfl, -⟩ | hi
      · left
        simp [resets]
      · exact .inr ⟨_, _, hi, hr⟩
    · cases h
  | deliver j e k =>
    simp only [step] at h
    split at h
    · rename_i n es hj
      split at h
      · rename_i el c hc
        split at h
        · rename_i m ms _ hp
          cases h
          rcases update_eq_up hi with ⟨rfl, he⟩ | hi
          · cases he
            exact .inr ⟨_, _, hj, hr⟩
          · rcases update_eq_up hi with ⟨rfl, he⟩ | hi
            · cases he
              refine hmethod hp fun hl => ?_
              simpa [resets, Net.callAt, hj, hc, Net.test, hp] using Node.handleVote_demotes hl hr
            · exact .inr ⟨_, _, hi, hr⟩
        · cases h
      · cases h
    · cases h
  | receive j e k =>
    simp only [step] at h
    split at h
    · rename_i n es hj
      split at h
      · cases h
        rcases update_eq_up hi with ⟨rfl, he⟩ | hi
        · cases he
          refine hmethod hj fun hl => ?_
          rw [Node.countVote_leader hl] at hr
          exact absurd hl hr
        · exact .inr ⟨_, _, hi, hr⟩
      · cases h
    · cases h
  | lose j e k =>
    simp only [step] at h
    split at h
    · rename_i n es hj
      split at h
      · cases h
        rcases update_eq_up hi with ⟨rfl, he⟩ | hi
        · cases he
          exact .inr ⟨_, _, hj, hr⟩
        · exact .inr ⟨_, _, hi, hr⟩
      · cases h
    · cases h
  | handleVote j t cand =>
    simp only [step] at h
    split at h
    · rename_i n es hj
      cases h
      rcases update_eq_up hi with ⟨rfl, he⟩ | hi
      · cases he
        refine hmethod hj fun hl => ?_
        simpa [resets, Net.test, hj] using Node.handleVote_demotes hl hr
      · exact .inr ⟨_, _, hi, hr⟩
    · cases h
  | observeLeader j t l =>
    simp only [step] at h
    split at h
    · rename_i n es hj
      cases h
      rcases update_eq_up hi with ⟨rfl, he⟩ | hi
      · cases he
        refine hmethod hj fun hl => ?_
        simpa [resets, Net.test, hj] using Node.observeLeader_demotes hl hr
      · exact .inr ⟨_, _, hi, hr⟩
    · cases h
  | maybeStepDown j t =>
    simp only [step] at h
    split at h
    · rename_i n es hj
      cases h
      rcases update_eq_up hi with ⟨rfl, he⟩ | hi
      · cases he
        refine hmethod hj fun hl => ?_
        simpa [resets, Net.test, hj] using Node.maybeStepDown_demotes hl hr
      · exact .inr ⟨_, _, hi, hr⟩
    · cases h

/-- The timer of a replica that does not lead was set when it was last reset. -/
def Clocked.Wound (c : Timeouts) (s : Clocked) : Prop :=
  ∀ i n es, s.net i = .up n es → n.role ≠ .leader →
    ∃ draw, s.electionDeadline i = c.resetElectionTimer (s.lastReset i) draw

theorem Clocked.Wound.happen (h : s.Wound c) {ev : Event} (hs : s.happen inc c members now draw ev = some s') :
    s'.Wound c := by
  intro i n' es' hi hr
  have hor := resets_or (happen_net hs) hi hr
  obtain ⟨net, -, rfl⟩ := Option.map_eq_some_iff.1 hs
  by_cases hreset : resets members s.net ev i = true
  · refine ⟨draw, ?_⟩
    simp [hreset]
  · obtain ⟨n, es, hn, hr⟩ := hor.resolve_left hreset
    simpa [hreset] using h i n es hn hr

theorem Clocked.due_iff (hi : s.net i = .up n es) :
    s.due i now = true ↔ n.role ≠ .leader ∧ s.electionDeadline i < now := by
  simp [due, Net.test, hi]

/-- A timer found run out was reset more than the lower bound ago. -/
theorem Clocked.Wound.due (h : s.Wound c) (hd : s.due i now = true) : s.lastReset i + c.electionTimeoutMin < now := by
  obtain ⟨n, es, hi, -⟩ := Net.test_iff.1 hd
  obtain ⟨hr, hlate⟩ := (Clocked.due_iff hi).1 hd
  obtain ⟨draw, hset⟩ := h i n es hi hr
  have := c.le_resetElectionTimer (s.lastReset i) draw
  omega

/-- The loop went for the campaign after the lower bound had passed. -/
def Campaign.Patient (c : Timeouts) (k : Campaign) : Prop := k.reset + c.electionTimeoutMin < k.checked ∧ k.checked ≤ k.started

/-- The timers are wound, and the loops have been patient. -/
structure Clocked.Orderly (c : Timeouts) (s : Clocked) : Prop where
  wound : s.Wound c
  decided : ∀ i reset checked, s.decided i = some (reset, checked) → reset + c.electionTimeoutMin < checked ∧ checked ≤ s.now
  campaigns : ∀ k ∈ s.campaigns, k.Patient c

theorem Clocked.Orderly.happen (h : s.Orderly c) (hnow : s.now ≤ now) {ev : Event}
    (hs : s.happen inc c members now draw ev = some s') : s'.Orderly c := by
  obtain ⟨hn, hcamp, hdec⟩ := happen_loops hs
  refine ⟨h.wound.happen hs, fun i reset checked hd => ?_, fun k hk => h.campaigns k (hcamp ▸ hk)⟩
  obtain ⟨hlow, hup⟩ := h.decided i reset checked (hdec i _ hd)
  exact ⟨hlow, by omega⟩

theorem Clocked.Orderly.act (h : s.Orderly c) {a : Act} (hs : s.act inc c members (now, draw, a) = some s') :
    s'.Orderly c := by
  obtain ⟨hnow, hm⟩ := act_moves hs
  have hlater : ∀ i reset checked, s.decided i = some (reset, checked) →
      reset + c.electionTimeoutMin < checked ∧ checked ≤ now := by
    intro i reset checked hd
    obtain ⟨hlow, hup⟩ := h.decided i reset checked hd
    exact ⟨hlow, by omega⟩
  cases hm with
  | passed _ _ => exact ⟨h.wound, hlater, h.campaigns⟩
  | @found i _ hdue =>
    refine ⟨h.wound, fun j reset checked hd => ?_, h.campaigns⟩
    replace hd : Function.update s.decided i (some (s.lastReset i, now)) j = some (reset, checked) := hd
    rw [Function.update_apply] at hd
    split at hd
    · cases hd
      exact ⟨h.wound.due hdue, Int.le_refl _⟩
    · exact hlater j reset checked hd
  | @campaign i reset checked s₁ hd h₁ =>
    have h' := h.happen hnow h₁
    have hn : s₁.now = now := (happen_loops h₁).1
    refine ⟨h'.wound, fun j reset checked hj => ?_, fun k hk => ?_⟩
    · replace hj : Function.update s.decided i none j = some (reset, checked) := hj
      rw [Function.update_apply] at hj
      split at hj
      · cases hj
      · show _ ∧ checked ≤ s₁.now
        rw [hn]
        exact hlater j reset checked hj
    · rcases List.mem_append.1 hk with hk | hk
      · exact h.campaigns k hk
      · rw [List.mem_singleton.1 hk]
        exact hlater i reset checked hd
  | event _ h₁ => exact h.happen hnow h₁

theorem Clocked.Reachable.orderly (h : s.Reachable inc c members) : s.Orderly c := by
  obtain ⟨net, now, hst, hr⟩ := h
  refine hr.invariant (I := fun s => s.Orderly c) ?_ ?_
  · refine ⟨fun i n es hi _ => ?_, fun i reset checked hd => ?_, fun k hk => ?_⟩
    · obtain ⟨sv, hd⟩ := hst i
      cases hd.symm.trans hi
    · cases hd
    · cases hk
  · rintro s ⟨now, draw, a⟩ s' hs _ ha
    exact hs.act ha

/-- In every timed run, every campaign goes back to a look at the timer, not later than the campaign, at which more than the
lower bound had passed since its last reset. And whenever a loop looks: it goes for a campaign only if the replica does not
lead and more than the lower bound has passed, and does so if the replica does not lead and more than the upper one has. -/
theorem campaign_window (h : s.Reachable inc c members) :
    (∀ k ∈ s.campaigns, k.Patient c) ∧
    ∀ i n es now draw s', s.net i = .up n es → s.act inc c members (now, draw, .check i) = some s' →
      (s'.decided i ≠ none → n.role ≠ .leader ∧ s.lastReset i + c.electionTimeoutMin < now) ∧
      (n.role ≠ .leader → s.lastReset i + max c.electionTimeoutMin c.electionTimeoutMax < now →
        s'.decided i = some (s.lastReset i, now)) := by
  have horderly := h.orderly
  refine ⟨horderly.campaigns, fun i n es now draw s' hi hs => ?_⟩
  cases (Clocked.act_moves hs).2 with
  | passed hnone hdue =>
    constructor
    · intro hd
      exact absurd hnone hd
    · intro hr hlate
      obtain ⟨draw₀, hd⟩ := horderly.wound i n es hi hr
      have hmax := c.resetElectionTimer_le (s.lastReset i) draw₀
      have hover : s.electionDeadline i < now := by omega
      rw [(Clocked.due_iff hi).2 ⟨hr, hover⟩] at hdue
      cases hdue
  | found _ hdue =>
    constructor
    · intro _
      exact ⟨((Clocked.due_iff hi).1 hdue).1, horderly.wound.due hdue⟩
    · intro _ _
      exact Function.update_self ..

/-- The defaults, in nanoseconds. -/
def Timeouts.default : Timeouts := Timeouts.withDefaults {}

/-- Milliseconds. -/
def ms (t : Int) : Int := t * 1000000

/-- Two replicas have started. -/
def pairStarted : List (Int × Int × Act) := [(0, 0, .event (.start "a")), (0, 0, .event (.start "b"))]

/-- The timer of `a` runs out, and it campaigns although a heartbeat comes in before that. -/
def heartbeatLate : List (Int × Int × Act) :=
  pairStarted ++ [(ms 900, 0, .check "a"), (ms 950, 0, .event (.observeLeader "a" 0 "b")), (ms 960, 0, .campaign "a")]

/-- `b`, which has heard of nothing, then goes for a campaign as well. -/
theorem campaign_window_pair : ∃ s s' : Clocked, s.Reachable inc64 .default ["a", "b"] ∧
    s.campaigns = [⟨"a", 0, ms 900, ms 960⟩] ∧ s.campaigns.Forall (Campaign.Patient .default) ∧
    s.act inc64 .default ["a", "b"] (ms 1700, 0, .check "b") = some s' ∧ s'.decided "b" = some (0, ms 1700) := by
  obtain ⟨s, hs, hcamp, hup, hreset, hact⟩ : ∃ s, Steps.perform (Clocked.act inc64 .default ["a", "b"])
      (fun _ _ => true) (.stopped (fun _ => .down {}) 0) heartbeatLate = some s ∧
      s.campaigns = [⟨"a", 0, ms 900, ms 960⟩] ∧ s.net.test "b" (fun n => decide (n.role ≠ .leader)) = true ∧
      s.lastReset "b" = 0 ∧ (s.act inc64 .default ["a", "b"] (ms 1700, 0, .check "b")).isSome = true :=
    ⟨_, rfl, by decide, by decide, by decide, by decide⟩
  obtain ⟨n, es, hi, hr⟩ := Net.test_iff.1 hup
  obtain ⟨s', hs'⟩ := Option.isSome_iff_exists.1 hact
  have hreach : s.Reachable inc64 .default ["a", "b"] :=
    ⟨_, _, fun _ => ⟨_, rfl⟩, Steps.Reaches.perform (fun _ _ _ => trivial) .refl hs⟩
  obtain ⟨hpatient, hcheck⟩ := campaign_window hreach
  refine ⟨s, s', hreach, hcamp, List.forall_iff_forall_mem.2 hpatient, hs', ?_⟩
  rw [(hcheck "b" n es _ _ s' hi hs').2 (by simpa using hr) (by rw [hreset]; decide), hreset]

/-! ## A leader that is heard -/

/-- No term above `T` is known to the replica, and if it is to reign, it leads term `T`. -/
structure Node.Quiet (T : Int) (reigns : Prop) (n : Node) : Prop where
  term : n.currentTerm ≤ T
  saved : n.saved.term ≤ T
  reigns : reigns → n.role = .leader ∧ n.currentTerm = T

namespace Node.Quiet

variable {T t : Int} {p : Prop}

/-- A replica that is to reign knows no newer term. -/
theorem becomeFollowerLocked (h : n.Quiet T p) (ht : t ≤ T) (hgt : t > n.currentTerm) :
    (becomeFollowerLocked true t n).Quiet T p := by
  obtain ⟨hterm, -, hsaved⟩ := becomeFollowerLocked_newer hgt
  constructor
  · rw [hterm]
    exact ht
  · rw [hsaved]
    exact ht
  · intro hp
    have := (h.reigns hp).2
    omega

theorem maybeStepDown (h : n.Quiet T p) (ht : t ≤ T) : (n.maybeStepDown .all t).Quiet T p := by
  unfold Node.maybeStepDown
  split
  · rename_i hgt
    exact h.becomeFollowerLocked ht hgt
  · exact h

theorem observeLeader (h : n.Quiet T p) (ht : t ≤ T) (l : String) : (n.observeLeader .all t l).1.Quiet T p := by
  unfold Node.observeLeader
  split
  · exact h
  split
  · rename_i hgt
    obtain ⟨h1, h2, h3⟩ := h.becomeFollowerLocked ht hgt
    exact ⟨h1, h2, h3⟩
  split
  · rename_i hr
    refine ⟨h.term, h.saved, fun hp => ?_⟩
    rw [(h.reigns hp).1] at hr
    cases hr
  · exact h
  · exact ⟨h.term, h.saved, h.reigns⟩

theorem handleVote (h : n.Quiet T p) (ht : t ≤ T) (cand : String) :
    (n.handleVote .all t cand).1.Quiet T p ∧ (n.handleVote .all t cand).2.2 ≤ T := by
  unfold Node.handleVote
  split
  · exact ⟨h, h.term⟩
  · -- the node after it has adopted the requested term
    obtain ⟨m, hm⟩ : ∃ m, m = if t > n.currentTerm then Node.becomeFollowerLocked (Saves.all 0) t n else n := ⟨_, rfl⟩
    have hq : m.Quiet T p := by
      rw [hm]
      split
      · rename_i hgt
        exact h.becomeFollowerLocked ht hgt
      · exact h
    simp only [← hm]
    split
    · exact ⟨⟨hq.term, hq.term, hq.reigns⟩, hq.term⟩
    · exact ⟨hq, hq.term⟩

theorem countVote (h : n.Quiet T p) {cfg : Config} {r : VoteResult} (hr : r.peerTerm ≤ T) (e : Election) :
    (n.countVote cfg .all r e).1.Quiet T p := by
  unfold Node.countVote
  split
  · exact h
  split
  · exact h
  split
  · rename_i hgt
    exact h.becomeFollowerLocked hr hgt
  split
  · simp only
    split
    · refine ⟨h.term, h.saved, fun hp => ⟨rfl, (h.reigns hp).2⟩⟩
    · exact h
  · exact h

end Node.Quiet

/-- No term above `T` occurs in the election. -/
def Election.AtMost (T : Int) (e : Election) : Prop :=
  e.term ≤ T ∧ ∀ c ∈ e.calls, ∀ r, c.reply = some r → r.2 ≤ T

theorem Election.AtMost.answer {T : Int} {e : Election} (h : e.AtMost T) {k : Nat} {c : Call} {r : Bool × Int} (hr : r.2 ≤ T) :
    Election.AtMost T { e with calls := e.calls.set k { c with reply := some r } } := by
  constructor
  · exact h.1
  · intro c' hc' r' hr'
    rcases List.mem_or_eq_of_mem_set hc' with hc' | rfl
    · exact h.2 c' hc' r' hr'
    · cases hr'
      exact hr

theorem Election.AtMost.afterCall {T : Int} (h : ∀ e ∈ es, e.AtMost T) {e k : Nat} {el : Election} (hel : el.AtMost T)
    {cfg : Config} {r : VoteResult} :
    ∀ x ∈ afterCall es e k (n.countVote cfg .all r el).2, x.AtMost T := by
  intro x hx
  rcases mem_afterCall hx with hx | ⟨el', ho, rfl⟩
  · exact h x hx
  · rcases Node.countVote_some ho with rfl | ⟨-, rfl⟩
    · exact ⟨hel.1, fun c hc => hel.2 c (List.mem_of_mem_eraseIdx hc)⟩
    · exact ⟨hel.1, fun c hc => hel.2 c (List.mem_of_mem_eraseIdx hc)⟩

/-- No replica knows a term above `T`, and the one that is to reign leads term `T`. -/
def Replica.Quiet (T : Int) (reigns : Prop) : Replica → Prop
  | .down sv => sv.term ≤ T ∧ ¬ reigns
  | .up n es => n.Quiet T reigns ∧ ∀ e ∈ es, e.AtMost T

/-- The calls from outside carry no term above `T`. -/
def Event.AtMost (T : Int) : Event → Prop
  | .handleVote _ t _ | .observeLeader _ t _ | .maybeStepDown _ t => t ≤ T
  | _ => True

section Quiet

variable {s s' : Net} {T : Int} {L : String}

theorem Replica.Quiet.update (h : ∀ j, (s j).Quiet T (j = L)) {r : Replica} (hr : r.Quiet T (i = L)) :
    ∀ j, (Function.update s i r j).Quiet T (j = L) := by
  intro j
  by_cases hj : j = i
  · subst hj
    rw [Function.update_self]
    exact hr
  · rw [Function.update_of_ne hj]
    exact h j

/-- Without a campaign, no term above `T` comes up, and the leader of term `T` leads on. -/
theorem quiet_step (hL : L ∈ members) (h : ∀ j, (s j).Quiet T (j = L)) {ev : Event} (hev : ev.AtMost T)
    (hc : ev.campaigns = false) (hL' : ev ≠ .crash L) (hs : step inc members s ev = some s') :
    ∀ j, (s' j).Quiet T (j = L) := by
  have hup : ∀ {i n es}, s i = .up n es → n.Quiet T (i = L) ∧ ∀ e ∈ es, e.AtMost T := by
    intro i n es hi
    have := h i
    rw [hi] at this
    exact this
  cases ev with
  | startElection j => cases hc
  | start j =>
    simp only [step] at hs
    split at hs
    · rename_i sv hj
      obtain ⟨⟨hmem, -⟩, ⟨⟩⟩ := Option.ite_none_right_eq_some.1 hs
      have hq := h j
      rw [hj] at hq
      -- in a cluster of one, the only member is the one that leads
      have hmaj : ¬ Config.majority ⟨j, members⟩ ≤ 1 := by
        intro hle
        have hlen : members.length ≤ 1 := by
          simp only [Config.majority] at hle
          omega
        obtain ⟨a, rfl⟩ := List.length_eq_one_iff.1 (Nat.le_antisymm hlen (List.length_pos_of_mem hL))
        rw [List.mem_singleton] at hL hmem
        exact hq.2 (hmem.trans hL.symm)
      refine Replica.Quiet.update h ⟨?_, by simp⟩
      simp only [Node.start_eq_launch, Node.launch, if_true, if_neg hmaj]
      exact ⟨hq.1, hq.1, fun hp => absurd hp hq.2⟩
    · cases hs
  | crash j =>
    simp only [step] at hs
    split at hs
    · rename_i n es hj
      cases hs
      refine Replica.Quiet.update h ⟨(hup hj).1.saved, ?_⟩
      rintro rfl
      exact hL' rfl
    · cases hs
  | deliver j e k =>
    simp only [step] at hs
    split at hs
    · rename_i n es hj
      split at hs
      · rename_i el c hcall
        split at hs
        · rename_i m ms _ hp
          cases hs
          obtain ⟨he, -⟩ := callAt_some hcall
          have hel := (hup hj).2 el (List.mem_of_getElem? he)
          have hvote := (hup hp).1.handleVote hel.1 j
          have hpeer : (Replica.up (m.handleVote .all el.term j).1 ms).Quiet T (c.peer = L) := ⟨hvote.1, (hup hp).2⟩
          refine Replica.Quiet.update (Replica.Quiet.update h hpeer) ⟨(hup hj).1, fun x hx => ?_⟩
          rcases List.mem_or_eq_of_mem_set hx with hx | rfl
          · exact (hup hj).2 x hx
          · exact hel.answer hvote.2
        · cases hs
      · cases hs
    · cases hs
  | receive j e k =>
    simp only [step] at hs
    split at hs
    · rename_i n es hj
      split at hs
      · rename_i el p granted peerTerm hcall
        cases hs
        obtain ⟨he, hk⟩ := callAt_some hcall
        have hel := (hup hj).2 el (List.mem_of_getElem? he)
        have hreply : peerTerm ≤ T := hel.2 _ (List.mem_of_getElem? hk) _ rfl
        exact Replica.Quiet.update h ⟨(hup hj).1.countVote hreply el, Election.AtMost.afterCall (hup hj).2 hel⟩
      · cases hs
    · cases hs
  | lose j e k =>
    simp only [step] at hs
    split at hs
    · rename_i n es hj
      split at hs
      · rename_i el c hcall
        cases hs
        obtain ⟨he, -⟩ := callAt_some hcall
        have hel := (hup hj).2 el (List.mem_of_getElem? he)
        exact Replica.Quiet.update h ⟨(hup hj).1, Election.AtMost.afterCall (hup hj).2 hel⟩
      · cases hs
    · cases hs
  | handleVote j t cand =>
    simp only [step] at hs
    split at hs
    · rename_i n es hj
      cases hs
      exact Replica.Quiet.update h ⟨((hup hj).1.handleVote hev cand).1, (hup hj).2⟩
    · cases hs
  | observeLeader j t l =>
    simp only [step] at hs
    split at hs
    · rename_i n es hj
      cases hs
      exact Replica.Quiet.update h ⟨(hup hj).1.observeLeader hev l, (hup hj).2⟩
    · cases hs
  | maybeStepDown j t =>
    simp only [step] at hs
    split at hs
    · rename_i n es hj
      cases hs
      exact Replica.Quiet.update h ⟨(hup hj).1.maybeStepDown hev, (hup hj).2⟩
    · cases hs

end Quiet

/-- The leader does not crash, no call brings a newer term, and every look of the loop of another replica finds its timer
reset within the lower bound. -/
def InTime (c : Timeouts) (T : Int) (L : String) (s : Clocked) : Int × Int × Act → Prop
  | (now, _, .check i) => i = L ∨ now ≤ s.lastReset i + c.electionTimeoutMin
  | (_, _, .campaign _) => True
  | (_, _, .event ev) => ev ≠ .crash L ∧ ev.AtMost T

/-- `L` leads the highest term there is, no loop is past its look at the timer, and nobody has campaigned any more. -/
structure Clocked.Calm (T : Int) (L : String) (campaigns : List Campaign) (s : Clocked) : Prop where
  quiet : ∀ j, (s.net j).Quiet T (j = L)
  undecided : ∀ j, s.decided j = none
  campaigns : s.campaigns = campaigns

theorem Clocked.Calm.act {T : Int} {L : String} {ks : List Campaign} (hL : L ∈ members) (horderly : s.Orderly c)
    (h : s.Calm T L ks) {a : Int × Int × Act} (hok : InTime c T L s a) (hs : s.act inc c members a = some s') :
    s'.Calm T L ks := by
  obtain ⟨now, draw, a⟩ := a
  cases (act_moves hs).2 with
  | passed _ _ => exact ⟨h.quiet, h.undecided, h.campaigns⟩
  | @found i _ hdue =>
    -- the timer of a replica that does not lead has not run out
    exfalso
    obtain ⟨n, es, hi, -⟩ := Net.test_iff.1 hdue
    rcases hok with rfl | hok
    · have := h.quiet i
      rw [hi] at this
      exact ((due_iff hi).1 hdue).1 (this.1.reigns rfl).1
    · have := horderly.wound.due hdue
      omega
  | @campaign i reset checked _ hd _ =>
    rw [h.undecided i] at hd
    cases hd
  | @event ev _ hnot hev =>
    obtain ⟨-, hcamp, hdec⟩ := happen_loops hev
    refine ⟨quiet_step hL h.quiet hok.2 hnot hok.1 (happen_net hev), fun j => ?_, hcamp.trans h.campaigns⟩
    cases hd : s'.decided j with
    | none => rfl
    | some d =>
      have := hdec j d hd
      rw [h.undecided j] at this
      cases this

/-- From any state of a timed run in which `L` leads the highest term there is and no loop is about to campaign: as long as
the others hear of `L` in time, no replica campaigns, no newer term comes up, and `L` leads on, alone in its term. -/
theorem leader_undisturbed {T : Int} {L : String} (h : s.Reachable (· + 1) c members) (hL : L ∈ members)
    (hq : ∀ j, (s.net j).Quiet T (j = L)) (hidle : ∀ j, s.decided j = none)
    (hr : Steps.Reaches (Clocked.act (· + 1) c members) (InTime c T L) s s') :
    s'.campaigns = s.campaigns ∧ Leads s'.net L T ∧ (∀ j t, Leads s'.net j t → t ≤ T) ∧
      ∀ j, Leads s'.net j T → j = L := by
  obtain ⟨hreach, hcalm⟩ : s'.Reachable (· + 1) c members ∧ s'.Calm T L s.campaigns := by
    refine hr.invariant (I := fun s' => s'.Reachable (· + 1) c members ∧ s'.Calm T L s.campaigns)
      ⟨h, hq, hidle, rfl⟩ ?_
    rintro s₁ a s₂ ⟨h₁, hc₁⟩ hok ha
    refine ⟨?_, hc₁.act hL h₁.orderly hok ha⟩
    obtain ⟨net, now, hst, hreach⟩ := h₁
    exact ⟨net, now, hst, hreach.step trivial ha⟩
  have hlead : Leads s'.net L T := by
    have := hcalm.quiet L
    cases hs : s'.net L with
    | down sv =>
      rw [hs] at this
      exact absurd rfl this.2
    | up n es =>
      rw [hs] at this
      exact ⟨n, es, hs, this.1.reigns rfl⟩
  refine ⟨hcalm.campaigns, hlead, ?_, ?_⟩
  · rintro j t ⟨n, es, hj, -, rfl⟩
    have := hcalm.quiet j
    rw [hj] at this
    exact this.1.term
  · intro j hj
    obtain ⟨B, hB⟩ := agrees_reachable hreach.net
    exact (hB.leads j T hj).unique (hB.leads L T hlead)

/-- The condition as a test, for a run in which nobody crashes. -/
def inTime (c : Timeouts) (T : Int) (L : String) (s : Clocked) : Int × Int × Act → Bool
  | (now, _, .check i) => i = L || now ≤ s.lastReset i + c.electionTimeoutMin
  | (_, _, .campaign _) => true
  | (_, _, .event (.observeLeader _ t _)) => t ≤ T
  | (_, _, .event _) => false

theorem inTime_sound (c : Timeouts) (T : Int) (L : String) (s : Clocked) (a : Int × Int × Act)
    (h : inTime c T L s a = true) : InTime c T L s a := by
  unfold inTime at h
  split at h
  · simpa [InTime] using h
  · trivial
  · exact ⟨nofun, by simpa [Event.AtMost] using h⟩
  · cases h

/-- The first of two replicas is elected with the vote of the second. -/
def pairElected : List (Int × Int × Act) :=
  pairStarted ++ [(ms 900, 0, .check "a"), (ms 900, 0, .campaign "a"), (ms 910, 0, .event (.deliver "a" 0 0)),
    (ms 920, 0, .event (.receive "a" 0 0))]

/-- The second replica looks at its timer, hears from the first, which looks at its own, and looks again. -/
def pairBeating : List (Int × Int × Act) :=
  [(ms 1700, 0, .check "b"), (ms 1705, 0, .event (.observeLeader "b" 1 "a")), (ms 2000, 0, .check "a"),
    (ms 2500, 0, .check "b")]

theorem leader_undisturbed_pair : ∃ s s' : Clocked, s.Reachable (· + 1) .default ["a", "b"] ∧
    Steps.Reaches (Clocked.act (· + 1) .default ["a", "b"]) (InTime .default 1 "a") s s' ∧ s'.now = ms 2500 ∧
    s'.campaigns = s.campaigns ∧ Leads s'.net "a" 1 := by
  obtain ⟨s, hs, hq, hidle, hact⟩ : ∃ s, Steps.perform (Clocked.act (· + 1) .default ["a", "b"]) (fun _ _ => true)
      (.stopped (fun _ => .down {}) 0) pairElected = some s ∧ (∀ j, (s.net j).Quiet 1 (j = "a")) ∧
      (∀ j, s.decided j = none) ∧
      (Steps.perform (Clocked.act (· + 1) .default ["a", "b"]) (inTime .default 1 "a") s pairBeating).map Clocked.now =
        some (ms 2500) := by
    refine ⟨_, rfl, fun j => ?_, fun j => ?_, by decide⟩
    · by_cases ha : j = "a"
      · subst ha
        exact ⟨⟨by decide, by decide, fun _ => by decide⟩, fun _ he => absurd he List.not_mem_nil⟩
      · by_cases hb : j = "b"
        · subst hb
          exact ⟨⟨by decide, by decide, fun h => absurd h ha⟩, fun _ he => absurd he List.not_mem_nil⟩
        · simp only [Function.update_of_ne ha, Function.update_of_ne hb]
          exact ⟨by decide, ha⟩
    · show Function.update (Function.update (fun _ => none) "a" (some (0, ms 900))) "a" none j = none
      rw [Function.update_idem, Function.update_eq_self]
  have hreach : s.Reachable (· + 1) .default ["a", "b"] :=
    ⟨_, _, fun _ => ⟨_, rfl⟩, Steps.Reaches.perform (fun _ _ _ => trivial) .refl hs⟩
  obtain ⟨s', hs', hnow⟩ := Option.map_eq_some_iff.1 hact
  have hrun : Steps.Reaches (Clocked.act (· + 1) .default ["a", "b"]) (InTime .default 1 "a") s s' :=
    Steps.Reaches.perform (inTime_sound .default 1 "a") .refl hs'
  obtain ⟨hcamp, hlead, -⟩ := leader_undisturbed hreach (by decide) hq hidle hrun
  exact ⟨s, s', hreach, hrun, hnow, hcamp, hlead⟩

end Distsched.Cluster
