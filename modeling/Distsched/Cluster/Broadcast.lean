/-
Replicate requests as a leader sends them (`replicationLoop` and `broadcastReplicate` of
`internal/scheduler/cluster.go`), on top of the elections of `Network`. The loop takes the node's mutex twice, once
to ask whether it leads and once to read the term it puts into its requests; anything may happen to the node
in between. A request is right if its sender was elected in the term it carries. That takes terms which grow: after the
counter has overflowed, a term may be that of an earlier election.
-/
import Distsched.Cluster.Safety
import Distsched.Lib.Steps

namespace Distsched.Cluster.Broadcast

/-! ## The system -/

/-- The heading of a Replicate request. -/
structure Replicate where
  leaderID : String
  peer : String
  term : Int
  deriving DecidableEq, Repr

/-- Where the replication loop of a replica stands. -/
inductive Loop
  | idle
  /-- `IsLeader` has returned true -/
  | checked
  /-- `Term` has been read; the requests to `peers` are still to be sent -/
  | sending (term : Int) (peers : List String)
  deriving DecidableEq, Repr

def Loop.next (term : Int) (peers : List String) : Loop := if peers.isEmpty then .idle else .sending term peers

structure System where
  net : Net
  loops : String → Loop
  /-- Every request ever sent. -/
  sent : List Replicate
  /-- The terms in which each replica has been in role Leader so far. -/
  elected : List (String × Int)

/-- The replicas in role Leader, with their terms. -/
def leaders (members : List String) (net : Net) : List (String × Int) :=
  members.filterMap fun i => (leaderTerm net i).map fun t => (i, t)

inductive Action
  /-- an event of the election, as `Network` has them -/
  | elect (ev : Event)
  /-- the loop's timer fires and `IsLeader` is called -/
  | check (i : String)
  /-- `broadcastReplicate` calls `Term` -/
  | readTerm (i : String)
  | send (i peer : String)
  /-- the `k`-th request sent reaches its peer -/
  | deliver (k : Nat)
  deriving DecidableEq, Repr

section

variable (inc : Int → Int) (members : List String)

/-- An event of the election. A crash ends the loop of the process with it. -/
def elect (s : System) (ev : Event) : Option System :=
  (Cluster.step inc members s.net ev).map fun net =>
    { s with
      net := net, elected := s.elected ++ leaders members net,
      loops := match ev with
        | .crash i => Function.update s.loops i .idle
        | _ => s.loops }

def act (s : System) : Action → Option System
  | .elect ev => elect inc members s ev
  | .check i => match s.net i, s.loops i with
    | .up n _, .idle => some { s with loops := Function.update s.loops i (if n.isLeader then .checked else .idle) }
    | _, _ => none
  | .readTerm i => match s.net i, s.loops i with
    | .up n _, .checked =>
      let peers := (Config.peers ⟨i, members⟩).dedup
      some { s with loops := Function.update s.loops i (.next n.currentTerm peers) }
    | _, _ => none
  | .send i peer => match s.loops i with
    | .sending term peers =>
      if peer ∈ peers then
        some { s with
          loops := Function.update s.loops i (.next term (peers.erase peer)), sent := s.sent ++ [⟨i, peer, term⟩] }
      else none
    | _ => none
  | .deliver k => match s.sent[k]? with
    | some r => elect inc members s (.observeLeader r.peer r.term r.leaderID)
    | none => none

/-- A cluster none of whose replicas has started. -/
def stopped (net : Net) : System := ⟨net, fun _ => .idle, [], []⟩

/-- The states of the runs from a stopped cluster whose actions all meet a condition on the state before them. -/
def Runs (ok : System → Action → Prop) (s : System) : Prop :=
  ∃ net, Stopped net ∧ Steps.Reaches (act inc members) ok (stopped net) s

/-- The replica still leads when `broadcastReplicate` reads its term, and no counter of terms overflows. -/
def StillLeads (s : System) : Action → Prop
  | .readTerm i => ∃ t, Leads s.net i t
  | .elect ev => Grows inc members s.net ev
  | _ => True

end

/-! ## Requests are fenced -/

structure Fenced (members : List String) (s : System) (B : Box) : Prop where
  agrees : Agrees members s.net B
  won : ∀ i t, (i, t) ∈ s.elected → Quorum.Won B members i t
  leads : ∀ i t, Leads s.net i t → (i, t) ∈ s.elected
  loops : ∀ i t peers, s.loops i = .sending t peers → (i, t) ∈ s.elected
  sent : ∀ r ∈ s.sent, (r.leaderID, r.term) ∈ s.elected

variable {inc : Int → Int} {members : List String} {s s' : System} {B : Box}

theorem mem_leaders {net : Net} {i : String} {t : Int} :
    (i, t) ∈ leaders members net ↔ i ∈ members ∧ Leads net i t := by
  simp [leaders, leads_iff]

theorem fenced_stopped {net : Net} (h : Stopped net) : ∃ B, Fenced members (stopped net) B := by
  obtain ⟨B, hB⟩ := agrees_stopped members h
  refine ⟨B, hB, by simp [stopped], fun i t hl => ?_, by simp [stopped], by simp [stopped]⟩
  obtain ⟨n, es, hi, _⟩ := hl
  obtain ⟨sv, hd⟩ := h i
  cases hd.symm.trans hi

theorem Fenced.elect (h : Fenced members s B) {ev : Event} (hgrow : Grows inc members s.net ev)
    (hs : elect inc members s ev = some s') : ∃ B', Fenced members s' B' := by
  obtain ⟨net, hnet, rfl⟩ := Option.map_eq_some_iff.1 hs
  obtain ⟨B', hB, hag⟩ := agrees_step h.agrees hgrow hnet
  refine ⟨B', hag, fun i t hi => ?_, fun i t hl => ?_, fun i t peers hi => ?_, fun r hr => ?_⟩
  · rcases List.mem_append.1 hi with hi | hi
    · exact (h.won i t hi).mono hB
    · exact hag.leads i t (mem_leaders.1 hi).2
  · obtain ⟨n, es, hup, _⟩ := id hl
    exact List.mem_append_right _ (mem_leaders.2 ⟨(hag.member i n es hup).1, hl⟩)
  · refine List.mem_append_left _ (h.loops i t peers ?_)
    cases ev with
    | crash j =>
      replace hi : Function.update s.loops j .idle i = .sending t peers := hi
      rw [Function.update_apply] at hi
      split at hi
      · cases hi
      · exact hi
    | _ => exact hi
  · exact List.mem_append_left _ (h.sent r hr)

/-- Only the loop of one replica has moved. -/
theorem Fenced.loop (h : Fenced members s B) {i : String} {l : Loop}
    (hl : ∀ t peers, l = .sending t peers → (i, t) ∈ s.elected) :
    Fenced members { s with loops := Function.update s.loops i l } B := by
  refine { h with loops := fun j t peers hj => ?_ }
  replace hj : Function.update s.loops i l j = .sending t peers := hj
  rw [Function.update_apply] at hj
  split at hj
  · rename_i he
    rw [he]
    exact hl t peers hj
  · exact h.loops j t peers hj

theorem Loop.next_eq_sending {t t' : Int} {peers peers' : List String} (h : Loop.next t peers = .sending t' peers') :
    t' = t := by
  unfold Loop.next at h
  split at h
  · cases h
  · cases h
    rfl

theorem fenced_act (h : Fenced members s B) {a : Action} (hok : StillLeads inc members s a)
    (hs : act inc members s a = some s') : ∃ B', Fenced members s' B' := by
  cases a with
  | elect ev => exact h.elect hok hs
  | check i =>
    simp only [act] at hs
    split at hs
    · cases hs
      refine ⟨B, h.loop fun t peers he => ?_⟩
      split at he <;> cases he
    · cases hs
  | readTerm i =>
    simp only [act] at hs
    split at hs
    · rename_i n es hi _
      cases hs
      refine ⟨B, h.loop fun t peers he => ?_⟩
      -- the term just read is the one the replica leads
      obtain ⟨t', hl⟩ := hok
      obtain ⟨n', es', hi', _, ht⟩ := id hl
      cases hi.symm.trans hi'
      rw [Loop.next_eq_sending he, ht]
      exact h.leads i t' hl
    · cases hs
  | send i peer =>
    simp only [act] at hs
    split at hs
    · rename_i t peers hi
      split at hs
      · cases hs
        have ht := h.loops i t peers hi
        refine ⟨B, { h.loop (i := i) (l := .next t (peers.erase peer)) ?_ with sent := ?_ }⟩
        · intro t' peers' he
          rw [Loop.next_eq_sending he]
          exact ht
        · intro r hr
          rcases List.mem_append.1 hr with hr | hr
          · exact h.sent r hr
          · rw [List.mem_singleton.1 hr]
            exact ht
      · cases hs
    · cases hs
  | deliver k =>
    simp only [act] at hs
    split at hs
    · rename_i r _
      have hgrow : Grows inc members s.net (.observeLeader r.peer r.term r.leaderID) := trivial
      exact h.elect hgrow hs
    · cases hs

/-- In a run in which replicas still lead when they read the term to send, and no counter overflows, every request was sent
by a replica that was elected in its term, and no other replica leads that term. -/
theorem replicate_fenced (h : Runs inc members (StillLeads inc members) s) :
    (∀ r ∈ s.sent, (r.leaderID, r.term) ∈ s.elected) ∧
      ∀ r ∈ s.sent, ∀ p, Leads s.net p r.term → p = r.leaderID := by
  obtain ⟨net, hst, hrun⟩ := h
  obtain ⟨B, hB⟩ : ∃ B, Fenced members s B := by
    refine hrun.invariant (I := fun s => ∃ B, Fenced members s B) (fenced_stopped hst) ?_
    rintro s a s' ⟨B, hB⟩ hok hs
    exact fenced_act hB hok hs
  refine ⟨hB.sent, fun r hr p hp => ?_⟩
  exact (hB.agrees.leads p r.term hp).unique (hB.won _ _ (hB.sent r hr))

/-! ## Runs of given actions -/

/-- The condition on a run with 64-bit terms, as a test. -/
def stillLeads (s : System) : Action → Bool
  | .readTerm i => (leaderTerm s.net i).isSome
  | .elect (.start i) => match s.net i with
    | .down sv => sv.term < inc64 sv.term
    | .up .. => true
  | .elect (.startElection i) => match s.net i with
    | .up n _ => n.currentTerm < inc64 n.currentTerm
    | .down _ => true
  | _ => true

theorem stillLeads_sound (s : System) (a : Action) (h : stillLeads s a = true) : StillLeads inc64 members s a := by
  cases a with
  | readTerm i =>
    obtain ⟨t, ht⟩ := Option.isSome_iff_exists.1 h
    exact ⟨t, (leads_iff _ _ _).2 ht⟩
  | elect ev =>
    cases ev with
    | start i =>
      intro sv hi _
      simpa [stillLeads, hi] using h
    | startElection i =>
      intro n es hi
      simpa [stillLeads, hi] using h
    | _ => trivial
  | _ => trivial

/-- The replicas `a`, `b` and `c`, none of them started. -/
def abc : System := stopped fun _ => .down {}

/-- `a` is elected in term 1 with the vote of `b`, and its loop finds that it leads. -/
def electA : List Action :=
  [.elect (.start "a"), .elect (.start "b"), .elect (.startElection "a"), .elect (.deliver "a" 0 0),
    .elect (.receive "a" 0 0), .check "a"]

/-- `a` sends to `b`, which then is elected in term 2 with the vote of `a` and sends as well. -/
def succession : List Action :=
  electA ++ [.readTerm "a", .send "a" "b", .deliver 0, .elect (.startElection "b"), .elect (.deliver "b" 0 0),
    .elect (.receive "b" 0 0), .check "b", .readTerm "b", .send "b" "a"]

theorem replicate_fenced_sent : ∃ s, Runs inc64 ["a", "b", "c"] (StillLeads inc64 ["a", "b", "c"]) s ∧
    s.sent = [⟨"a", "b", 1⟩, ⟨"b", "a", 2⟩] ∧ ("a", 1) ∈ s.elected ∧ ("b", 2) ∈ s.elected ∧
    ∀ p, Leads s.net p 2 → p = "b" := by
  obtain ⟨s, hs, hsent⟩ : ∃ s, Steps.perform (act inc64 ["a", "b", "c"]) stillLeads abc succession = some s ∧
      s.sent = [⟨"a", "b", 1⟩, ⟨"b", "a", 2⟩] := Option.map_eq_some_iff.1 (by decide +kernel)
  have hrun : Runs inc64 ["a", "b", "c"] (StillLeads inc64 ["a", "b", "c"]) s :=
    ⟨_, fun _ => ⟨_, rfl⟩, Steps.Reaches.perform stillLeads_sound .refl hs⟩
  obtain ⟨helected, honly⟩ := replicate_fenced hrun
  rw [hsent] at helected honly
  exact ⟨s, hrun, hsent, helected ⟨"a", "b", 1⟩ (by simp), helected ⟨"b", "a", 2⟩ (by simp), honly ⟨"b", "a", 2⟩ (by simp)⟩

/-- The loop of `a` finds that `a` leads; `a` then grants its vote in term 2 to `b`, reads term 2 and sends; `b` wins
term 2 and accepts the request of `a` as one of a leader of its own term. -/
theorem deposed_sends : ∃ s, Runs inc64 ["a", "b", "c"] (fun _ _ => True) s ∧ ∃ r ∈ s.sent,
    (r.leaderID, r.term) ∉ s.elected ∧ r.peer ≠ r.leaderID ∧ Leads s.net r.peer r.term ∧
      ∃ n es, s.net r.peer = .up n es ∧ (n.observeLeader .all r.term r.leaderID).2.1 = true := by
  have hrun : (Steps.perform (act inc64 ["a", "b", "c"]) (fun _ _ => true) abc (electA ++
      [.elect (.startElection "b"), .elect (.deliver "b" 0 0), .readTerm "a", .send "a" "b",
        .elect (.receive "b" 0 0)])).map (fun s => (s.sent, s.elected.contains ("a", 2), leaderTerm s.net "b")) =
      some ([⟨"a", "b", 2⟩], false, some 2) := by decide +kernel
  obtain ⟨s, hs, hout⟩ := Option.map_eq_some_iff.1 hrun
  obtain ⟨hsent, hout⟩ := Prod.mk.inj hout
  obtain ⟨hnot, hlead⟩ := Prod.mk.inj hout
  have hl : Leads s.net "b" 2 := (leads_iff _ _ _).2 hlead
  refine ⟨s, ⟨_, fun _ => ⟨_, rfl⟩, Steps.Reaches.perform (fun _ _ _ => trivial) .refl hs⟩, ⟨"a", "b", 2⟩,
    by simp [hsent], by simpa using hnot, by decide, hl, ?_⟩
  obtain ⟨n, es, hn, hr, ht⟩ := hl
  refine ⟨n, es, hn, ?_⟩
  simp [Node.observeLeader, hr, ht]

end Distsched.Cluster.Broadcast
