/-
Who can be elected. A replica counts its own vote once, however often the member list has its ID, and gets one more from
each entry of another replica. From every reachable state of a cluster it can be brought to lead exactly if these make a
majority of the list.

To lead it campaigns until its term is past those of its peers; then each of them grants its vote, in whichever state the
cluster was before. A replica on its own has no peer to ask and comes to lead only when it starts: once deposed, it does not
lead again before a restart.
-/
import Distsched.Cluster.Safety
import Distsched.Lib.Steps

namespace Distsched.Cluster

/-- The entries of the member list that can vote for `i`: those of other replicas, which have a name. -/
def voters (members : List String) (i : String) : List String := (Config.peers ⟨i, members⟩).filter (· ≠ "")

/-! ## What an event does to one replica -/

/-- How a running replica goes on. -/
inductive Turn (inc : Int → Int) (members : List String) (s : Net) (i : String) (n : Node) (es : List Election) :
    Node → List Election → Prop
  | campaign : Turn inc members s i n es (n.startElection inc ⟨i, members⟩ .all).1
      (es ++ [(n.startElection inc ⟨i, members⟩ .all).2])
  /-- a call of a method that does not concern its elections -/
  | follow {n' : Node} : (n.Synced → n.Continues n') → Turn inc members s i n es n' es
  /-- one of its vote requests is answered -/
  | answer {e k : Nat} {el : Election} {c : Call} {m : Node} {ms : List Election} (r : Bool × Int) :
      callAt es e k = some (el, c) → s c.peer = .up m ms →
      Turn inc members s i n es n (es.set e { el with calls := el.calls.set k { c with reply := some r } })
  /-- one of its elections takes a result -/
  | count {e k : Nat} {el : Election} {c : Call} (r : VoteResult) : callAt es e k = some (el, c) →
      (r.granted = true → c.reply.isSome = true) →
      Turn inc members s i n es (n.countVote ⟨i, members⟩ .all r el).1
        (afterCall es e k (n.countVote ⟨i, members⟩ .all r el).2)

/-- What an event can do to replica `i`. -/
inductive Change (inc : Int → Int) (members : List String) (s : Net) (ev : Event) (i : String) : Replica → Replica → Prop
  | still {r : Replica} : Change inc members s ev i r r
  | start {sv : Saved} : ev = .start i → i ≠ "" →
      Change inc members s ev i (.down sv) (.up (Node.start inc ⟨i, members⟩ true .all sv) [])
  | crash {n : Node} {es : List Election} : Change inc members s ev i (.up n es) (.down n.saved)
  | turn {n n' : Node} {es es' : List Election} : Turn inc members s i n es n' es' →
      Change inc members s ev i (.up n es) (.up n' es')

variable {inc : Int → Int} {members : List String} {s s' : Net} {ev : Event} {i : String} {n n' : Node} {es es' : List Election}

theorem Change.update {j : String} {r : Replica} (h : Change inc members s ev j (s j) r) (i : String) :
    Change inc members s ev i (s i) (Function.update s j r i) := by
  by_cases hi : i = j
  · subst hi
    rw [Function.update_self]
    exact h
  · rw [Function.update_of_ne hi]
    exact .still

theorem Change.turn_of (hi : s i = .up n es) (ht : Turn inc members s i n es n' es') :
    Change inc members s ev i (s i) (.up n' es') := by
  rw [hi]
  exact .turn ht

theorem step_change (h : step inc members s ev = some s') (i : String) : Change inc members s ev i (s i) (s' i) := by
  cases ev with
  | start j =>
    simp only [step] at h
    split at h
    · rename_i sv hj
      obtain ⟨⟨-, hne⟩, ⟨⟩⟩ := Option.ite_none_right_eq_some.1 h
      refine Change.update ?_ i
      rw [hj]
      exact .start rfl hne
    · cases h
  | crash j =>
    simp only [step] at h
    split at h
    · rename_i n es hj
      cases h
      refine Change.update ?_ i
      rw [hj]
      exact .crash
    · cases h
  | startElection j =>
    simp only [step] at h
    split at h
    · rename_i n es hj
      cases h
      exact (Change.turn_of hj .campaign).update i
    · cases h
  | deliver j e k =>
    simp only [step] at h
    split at h
    · rename_i n es hj
      split at h
      · rename_i el c hc
        split at h
        · rename_i m ms _ hp
          cases h
          -- the candidate takes down the answer, the peer has voted
          by_cases hi : i = j
          · subst hi
            rw [Function.update_self]
            exact .turn_of hj (.answer _ hc hp)
          · rw [Function.update_of_ne hi]
            exact (Change.turn_of hp (.follow fun hs => (Node.handleVote_follows hs el.term j).1)).update i
        · cases h
      · cases h
    · cases h
  | receive j e k =>
    simp only [step] at h
    split at h
    · rename_i n es hj
      split at h
      · rename_i el p granted peerTerm hc
        cases h
        exact (Change.turn_of hj (.count ⟨granted, peerTerm, true⟩ hc fun _ => rfl)).update i
      · cases h
    · cases h
  | lose j e k =>
    simp only [step] at h
    split at h
    · rename_i n es hj
      split at h
      · rename_i el c hc
        cases h
        exact (Change.turn_of hj (.count ⟨false, 0, false⟩ hc fun hg => by cases hg)).update i
      · cases h
    · cases h
  | handleVote j t c =>
    simp only [step] at h
    split at h
    · rename_i n es hj
      cases h
      exact (Change.turn_of hj (.follow fun hs => (Node.handleVote_follows hs t c).1)).update i
    · cases h
  | observeLeader j t l =>
    simp only [step] at h
    split at h
    · rename_i n es hj
      cases h
      exact (Change.turn_of hj (.follow fun hs => Node.observeLeader_follows hs t l)).update i
    · cases h
  | maybeStepDown j t =>
    simp only [step] at h
    split at h
    · rename_i n es hj
      cases h
      exact (Change.turn_of hj (.follow fun hs => Node.maybeStepDown_follows hs t)).update i
    · cases h

/-! ## The votes a replica can count -/

/-- The votes counted and those still to come are one and those of the voters; an entry without a name does not answer. -/
structure Tally (members : List String) (i : String) (e : Election) : Prop where
  own : 1 ≤ e.votes
  bound : e.votes + e.calls.countP (fun c => c.peer ≠ "") ≤ 1 + (voters members i).length
  silent : ∀ c ∈ e.calls, c.peer = "" → c.reply = none

theorem tally_startElection (n : Node) (i : String) :
    Tally members i (n.startElection inc ⟨i, members⟩ .all).2 where
  own := Nat.le_refl 1
  bound := by
    show 1 + ((Config.peers ⟨i, members⟩).map fun p => ({ peer := p } : Call)).countP _ ≤ _
    rw [List.countP_map, voters, ← List.countP_eq_length_filter]
    exact Nat.le_refl _
  silent := by
    intro c hc _
    obtain ⟨p, -, rfl⟩ := List.mem_map.1 hc
    rfl

theorem Tally.answer {e : Election} (h : Tally members i e) {k : Nat} {c : Call} (hk : e.calls[k]? = some c)
    (hne : c.peer ≠ "") (r : Bool × Int) :
    Tally members i { e with calls := e.calls.set k { c with reply := some r } } := by
  obtain ⟨hlt, hget⟩ := List.getElem?_eq_some_iff.1 hk
  refine ⟨h.own, ?_, fun c' hc' he => ?_⟩
  · have hcount : (e.calls.set k { c with reply := some r }).countP (fun c => c.peer ≠ "") =
        e.calls.countP fun c => c.peer ≠ "" := by
      have hpos : 0 < e.calls.countP fun c => c.peer ≠ "" :=
        List.countP_pos_iff.2 ⟨c, List.mem_of_getElem? hk, by simpa using hne⟩
      rw [List.countP_set hlt, hget, if_pos (by simpa using hne)]
      exact Nat.sub_add_cancel hpos
    simp only [hcount]
    exact h.bound
  · rcases List.mem_or_eq_of_mem_set hc' with hc' | rfl
    · exact h.silent c' hc' he
    · exact absurd he hne

/-- A result is taken; a vote comes from a voter. -/
theorem Tally.take {e : Election} (h : Tally members i e) {k : Nat} {c : Call} (hk : e.calls[k]? = some c) {v : Nat}
    (hv : v = e.votes ∨ (v = e.votes + 1 ∧ c.peer ≠ "")) :
    Tally members i { e with votes := v, calls := e.calls.eraseIdx k } := by
  obtain ⟨hlt, hget⟩ := List.getElem?_eq_some_iff.1 hk
  have hperm : (e.calls[k] :: e.calls.eraseIdx k).Perm e.calls :=
    ((List.erase_getElem hlt).symm.cons _).trans (List.perm_cons_erase (List.getElem_mem hlt)).symm
  have hcount := hperm.countP_eq fun c => c.peer ≠ ""
  rw [List.countP_cons, hget] at hcount
  have hbound := h.bound
  have hown := h.own
  refine ⟨?_, ?_, fun c' hc' => h.silent c' (List.mem_of_mem_eraseIdx hc')⟩
  · rcases hv with rfl | ⟨rfl, -⟩ <;> simp only <;> omega
  · rcases hv with rfl | ⟨rfl, hne⟩
    · simp only
      omega
    · rw [if_pos (by simpa using hne)] at hcount
      simp only
      omega

/-- Winning takes a vote of a voter, and a majority of the votes there are. -/
theorem Turn.leads (h : Turn inc members s i n es n' es') (hs : n.Synced) (ht : ∀ e ∈ es, Tally members i e)
    (hl : n'.role = .leader) :
    n.role = .leader ∨ (voters members i ≠ [] ∧ Config.majority ⟨i, members⟩ ≤ 1 + (voters members i).length) := by
  cases h with
  | campaign => cases hl
  | follow hf => exact .inl ((hf hs).leads hl).1
  | answer r hc hp => exact .inl hl
  | @count e k el c r hc hr =>
    obtain ⟨he, hk⟩ := callAt_some hc
    have htally := ht el (List.mem_of_getElem? he)
    unfold Node.countVote at hl
    split at hl
    · exact .inl hl
    split at hl
    · exact .inl hl
    split at hl
    · rw [Node.becomeFollowerLocked_role] at hl
      cases hl
    split at hl
    · rename_i hg
      simp only at hl
      split at hl
      · rename_i hmaj
        -- the vote that decides is an answer, and only a voter answers
        have hne : c.peer ≠ "" := by
          intro hempty
          have := hr hg
          rw [htally.silent c (List.mem_of_getElem? hk) hempty] at this
          cases this
        have hown := htally.own
        have hbound := (htally.take hk (.inr ⟨rfl, hne⟩)).bound
        replace hbound : el.votes + 1 + (el.calls.eraseIdx k).countP (fun c => c.peer ≠ "") ≤
          1 + (voters members i).length := hbound
        refine .inr ⟨fun h0 => ?_, by omega⟩
        rw [h0, List.length_nil] at hbound
        omega
      · exact .inl hl
    · exact .inl hl

theorem Node.countVote_synced {cfg : Config} {r : VoteResult} {e : Election} (hs : n.Synced) :
    (n.countVote cfg .all r e).1.Synced := by
  unfold Node.countVote
  split
  · exact hs
  split
  · exact hs
  split
  · rename_i h
    exact (becomeFollowerLocked_follows hs h).synced
  split
  · simp only
    split <;> exact hs
  · exact hs

/-- What a running replica has in memory is saved. -/
def Replica.Synced : Replica → Prop
  | .down _ => True
  | .up n _ => n.Synced

theorem Turn.synced (h : Turn inc members s i n es n' es') (hs : n.Synced) : n'.Synced := by
  cases h with
  | campaign => rfl
  | follow hf => exact (hf hs).synced
  | answer r hc hp => exact hs
  | count r hc hr => exact Node.countVote_synced hs

/-- A running replica has a name, its elections are tallied, and it leads only where it can get a majority. -/
def Bounded (members : List String) (i : String) : Replica → Prop
  | .down _ => True
  | .up n es => i ≠ "" ∧ (∀ e ∈ es, Tally members i e) ∧
    (n.role = .leader → Config.majority ⟨i, members⟩ ≤ 1 + (voters members i).length)

/-- The election that goes on has counted the vote, if it was one. -/
theorem Node.countVote_some {cfg : Config} {sv : Saves} {r : VoteResult} {el el' : Election}
    (h : (n.countVote cfg sv r el).2 = some el') :
    el' = el ∨ (r.granted = true ∧ el' = { el with votes := el.votes + 1 }) := by
  unfold Node.countVote at h
  split at h
  · exact .inl (Option.some.inj h).symm
  split at h
  · cases h
  split at h
  · cases h
  split at h
  · rename_i hg
    simp only at h
    split at h
    · cases h
    · exact .inr ⟨hg, (Option.some.inj h).symm⟩
  · exact .inl (Option.some.inj h).symm

theorem Turn.tally (h : Turn inc members s i n es n' es') (hall : ∀ j, Bounded members j (s j))
    (ht : ∀ e ∈ es, Tally members i e) : ∀ e ∈ es', Tally members i e := by
  intro x hx
  cases h with
  | campaign =>
    rcases List.mem_append.1 hx with hx | hx
    · exact ht x hx
    · rw [List.mem_singleton.1 hx]
      exact tally_startElection n i
  | follow hf => exact ht x hx
  | @answer e k el c m ms r hc hp =>
    obtain ⟨he, hk⟩ := callAt_some hc
    rcases List.mem_or_eq_of_mem_set hx with hx | rfl
    · exact ht x hx
    · have hpeer := hall c.peer
      rw [hp] at hpeer
      exact (ht el (List.mem_of_getElem? he)).answer hk hpeer.1 r
  | @count e k el c r hc hr =>
    obtain ⟨he, hk⟩ := callAt_some hc
    have htally := ht el (List.mem_of_getElem? he)
    rcases mem_afterCall hx with hx | ⟨el', ho, rfl⟩
    · exact ht x hx
    · have hgo := Node.countVote_some ho
      rcases hgo with rfl | ⟨hg, rfl⟩
      · exact htally.take hk (.inl rfl)
      · refine htally.take hk (.inr ⟨rfl, fun hempty => ?_⟩)
        have := hr hg
        rw [htally.silent c (List.mem_of_getElem? hk) hempty] at this
        cases this

theorem Bounded.change (hall : ∀ j, Bounded members j (s j)) {r : Replica} (hc : Change inc members s ev i (s i) r)
    (hs : ∀ n es, s i = .up n es → n.Synced) : Bounded members i r := by
  have hi := hall i
  generalize hsi : s i = r₀ at hc hi
  cases hc with
  | still => exact hi
  | start _ hne =>
    refine ⟨hne, by simp, fun hl => ?_⟩
    rw [Node.start_eq_launch, Node.launch] at hl
    simp only at hl
    split at hl
    · rename_i hmaj
      omega
    · cases hl
  | crash => trivial
  | turn ht =>
    obtain ⟨hne, htally, hlead⟩ := hi
    refine ⟨hne, ht.tally hall htally, fun hl => ?_⟩
    rcases ht.leads (hs _ _ hsi) htally hl with hl | ⟨-, hmaj⟩
    · exact hlead hl
    · exact hmaj

theorem Change.synced {r r' : Replica} (h : Change inc members s ev i r r') (hr : r.Synced) : r'.Synced := by
  cases h with
  | still => exact hr
  | start _ _ =>
    show Node.Synced _
    rw [Node.start_eq_launch, Node.launch]
    simp only [if_true]
    split <;> rfl
  | crash => trivial
  | turn ht => exact ht.synced hr

/-- In every reachable state, of terms with any increment. -/
theorem bounded_reachable (h : Reachable inc members s) (i : String) : (s i).Synced ∧ Bounded members i (s i) := by
  refine h.induction (P := fun s => ∀ i, (s i).Synced ∧ Bounded members i (s i)) (fun s hst i => ?_) ?_ i
  · obtain ⟨sv, hd⟩ := hst i
    rw [hd]
    exact ⟨trivial, trivial⟩
  · intro s s' ev hs hstep i
    have hc := step_change hstep i
    refine ⟨hc.synced (hs i).1, Bounded.change (fun j => (hs j).2) hc fun n es hi => ?_⟩
    have := (hs i).1
    rw [hi] at this
    exact this

/-! ## Bringing a replica to lead -/

/-- What the replicas do on their own accord: no call comes from outside, and no leader campaigns. -/
def Sincere (s : Net) : Event → Prop
  | .startElection i => leaderTerm s i = none
  | .handleVote .. | .observeLeader .. | .maybeStepDown .. => False
  | _ => True

/-- The states that the cluster can get to from `s` on its own. -/
abbrev Continues (members : List String) (s : Net) : Net → Prop := Steps.Reaches (step (· + 1) members) Sincere s

/-- Everything that runs goes on as it is. -/
def KeepsUp (s s' : Net) : Prop := ∀ j n es, s j = .up n es → s' j = .up n es

/-- The stopped replicas of a list are started. -/
theorem wake : ∀ (l : List String) (s : Net), (∀ p ∈ l, p ∈ members ∧ p ≠ "") →
    ∃ s', Continues members s s' ∧ KeepsUp s s' ∧ ∀ p ∈ l, ∃ m ms, s' p = .up m ms
  | [], s, _ => ⟨s, .refl, fun _ _ _ h => h, fun _ hp => absurd hp List.not_mem_nil⟩
  | p :: l, s, hl => by
    obtain ⟨hp, hl⟩ := List.forall_mem_cons.1 hl
    obtain ⟨s₁, h₁, hu₁, hup⟩ : ∃ s₁, Continues members s s₁ ∧ KeepsUp s s₁ ∧ ∃ m ms, s₁ p = .up m ms := by
      cases hsp : s p with
      | up m ms => exact ⟨s, .refl, fun _ _ _ h => h, m, ms, hsp⟩
      | down sv =>
        refine ⟨Function.update s p (.up (Node.start (· + 1) ⟨p, members⟩ true .all sv) []), ?_, fun j n es hj => ?_, _, _,
          Function.update_self ..⟩
        · refine Steps.Reaches.step (a := .start p) .refl trivial ?_
          simp only [step, hsp, if_pos hp]
        · have hne : j ≠ p := by
            rintro rfl
            rw [hsp] at hj
            cases hj
          rw [Function.update_of_ne hne]
          exact hj
    obtain ⟨s₂, h₂, hu₂, hall⟩ := wake l s₁ hl
    obtain ⟨m, ms, hm⟩ := hup
    exact ⟨s₂, h₁.trans h₂, fun j n es hj => hu₂ j n es (hu₁ j n es hj),
      List.forall_mem_cons.2 ⟨⟨m, ms, hu₂ p m ms hm⟩, hall⟩⟩

theorem leaderTerm_eq_none (hi : s i = .up n es) (hr : n.role ≠ .leader) : leaderTerm s i = none := by
  simp [leaderTerm, hi, hr]

/-- A replica that does not lead campaigns a number of times. -/
theorem campaigns (i : String) : ∀ (k : Nat) (s : Net) (n : Node) (es : List Election), s i = .up n es →
    n.role ≠ .leader → ∃ s' n' es', Continues members s s' ∧ s' i = .up n' es' ∧ n'.role ≠ .leader ∧
      n'.currentTerm = n.currentTerm + k ∧ ∀ j, j ≠ i → s' j = s j
  | 0, s, n, es, hi, hr => ⟨s, n, es, .refl, hi, hr, by simp, fun _ _ => rfl⟩
  | k + 1, s, n, es, hi, hr => by
    have hstep : step (· + 1) members s (.startElection i) = some (Function.update s i
        (.up (n.startElection (· + 1) ⟨i, members⟩ .all).1 (es ++ [(n.startElection (· + 1) ⟨i, members⟩ .all).2]))) := by
      simp only [step, hi]
    have hreach : Continues members s _ := Steps.Reaches.step (a := .startElection i) .refl (leaderTerm_eq_none hi hr) hstep
    have hrole : (n.startElection (· + 1) ⟨i, members⟩ .all).1.role ≠ .leader := by rintro ⟨⟩
    obtain ⟨s', n', es', h', hi', hr', ht', hsame⟩ := campaigns i k _ _ _ (Function.update_self ..) hrole
    refine ⟨s', n', es', hreach.trans h', hi', hr', ?_, fun j hj => ?_⟩
    · rw [ht']
      show n.currentTerm + 1 + k = _
      push_cast
      omega
    · rw [hsame j hj, Function.update_of_ne hj]

/-- The replica runs, and has not voted in term `t` or has voted for `i`. -/
def Ready (s : Net) (i : String) (t : Int) (p : String) : Prop :=
  ∃ m ms, s p = .up m ms ∧ (m.currentTerm < t ∨ (m.currentTerm = t ∧ m.votedFor = i))

theorem handleVote_ready {m : Node} {t : Int} (h : m.currentTerm < t ∨ (m.currentTerm = t ∧ m.votedFor = i)) :
    (m.handleVote .all t i).2 = (true, t) ∧ (m.handleVote .all t i).1.currentTerm = t ∧
      (m.handleVote .all t i).1.votedFor = i := by
  unfold Node.handleVote
  rw [if_neg (by omega)]
  rcases h with hlt | ⟨heq, hv⟩
  · obtain ⟨hterm, hvote, -⟩ := Node.becomeFollowerLocked_newer hlt
    simp only [if_pos hlt, Saves.all, hvote, true_or, if_true]
    exact ⟨Prod.ext rfl hterm, hterm, rfl⟩
  · have hnot : ¬ t > m.currentTerm := by omega
    simp only [if_neg hnot, hv, or_true, if_true]
    exact ⟨Prod.ext rfl heq, heq, rfl⟩

theorem callAt_last (pre : List Election) (t : Int) (v : Nat) (c : Call) (cs : List Call) :
    callAt (pre ++ [⟨t, v, c :: cs⟩]) pre.length 0 = some (⟨t, v, c :: cs⟩, c) := by
  simp [callAt]

theorem set_last (pre : List Election) (e e' : Election) : (pre ++ [e]).set pre.length e' = pre ++ [e'] := by
  simp

/-- A candidate whose last election has asked some peers, with a number of votes. -/
structure Soliciting (s : Net) (i : String) (n : Node) (pre : List Election) (t : Int) (v : Nat) (cs : List Call) : Prop where
  up : s i = .up n (pre ++ [⟨t, v, cs⟩])
  role : n.role = .candidate
  term : n.currentTerm = t

section

variable {pre : List Election} {t : Int} {v : Nat} {c : Call} {cs : List Call}

/-- The first call fails. -/
theorem Soliciting.lose (members : List String) (h : Soliciting s i n pre t v (c :: cs)) :
    ∃ s', Continues members s s' ∧ Soliciting s' i n pre t v cs ∧ ∀ p, p ≠ i → Ready s i t p → Ready s' i t p := by
  refine ⟨Function.update s i (.up n (pre ++ [⟨t, v, cs⟩])), ?_, ⟨Function.update_self .., h.role, h.term⟩, fun p hp hr => ?_⟩
  · refine Steps.Reaches.step (a := .lose i pre.length 0) .refl trivial ?_
    simp only [step, h.up, callAt_last, Node.countVote, afterCall, Bool.not_false, if_true, set_last]
    rfl
  · unfold Ready
    rw [Function.update_of_ne hp]
    exact hr

/-- The first call reaches its peer, which grants its vote. -/
theorem Soliciting.deliver (members : List String) (h : Soliciting s i n pre t v (c :: cs)) (hreply : c.reply = none)
    (hready : Ready s i t c.peer) :
    ∃ s', Continues members s s' ∧ Soliciting s' i n pre t v ({ c with reply := some (true, t) } :: cs) ∧
      ∀ p, p ≠ i → Ready s i t p → Ready s' i t p := by
  obtain ⟨m, ms, hm, hvote⟩ := hready
  obtain ⟨hgrant, hmterm, hmvote⟩ := handleVote_ready hvote
  refine ⟨Function.update (Function.update s c.peer (.up (m.handleVote .all t i).1 ms)) i
    (.up n (pre ++ [⟨t, v, { c with reply := some (true, t) } :: cs⟩])), ?_,
    ⟨Function.update_self .., h.role, h.term⟩, fun p hpi hr => ?_⟩
  · refine Steps.Reaches.step (a := .deliver i pre.length 0) .refl trivial ?_
    simp only [step, h.up, callAt_last, hreply, hm, hgrant, set_last]
    rfl
  · unfold Ready
    rw [Function.update_of_ne hpi]
    by_cases hsame : p = c.peer
    · rw [hsame, Function.update_self]
      exact ⟨_, _, rfl, .inr ⟨hmterm, hmvote⟩⟩
    · rw [Function.update_of_ne hsame]
      exact hr

/-- A vote is counted: the candidate leads, or goes on with one vote more. -/
theorem Soliciting.receive (members : List String) (h : Soliciting s i n pre t v (c :: cs))
    (hreply : c.reply = some (true, t)) :
    ∃ s', Continues members s s' ∧
      (Leads s' i t ∨ (v + 1 < Config.majority ⟨i, members⟩ ∧ Soliciting s' i n pre t (v + 1) cs)) ∧
      ∀ p, p ≠ i → Ready s i t p → Ready s' i t p := by
  have hcount : n.countVote ⟨i, members⟩ .all ⟨true, t, true⟩ ⟨t, v, c :: cs⟩ =
      if v + 1 ≥ Config.majority ⟨i, members⟩ then (n.becomeLeaderLocked ⟨i, members⟩ t, none)
      else (n, some ⟨t, v + 1, c :: cs⟩) := by
    simp [Node.countVote, h.role, h.term]
  obtain ⟨p, rfl⟩ : ∃ p, c = ⟨p, some (true, t)⟩ := ⟨c.peer, by rw [← hreply]⟩
  have hstep : step (· + 1) members s (.receive i pre.length 0) = some (Function.update s i
      (.up (n.countVote ⟨i, members⟩ .all ⟨true, t, true⟩ ⟨t, v, ⟨p, some (true, t)⟩ :: cs⟩).1
        (afterCall (pre ++ [⟨t, v, ⟨p, some (true, t)⟩ :: cs⟩]) pre.length 0
          (n.countVote ⟨i, members⟩ .all ⟨true, t, true⟩ ⟨t, v, ⟨p, some (true, t)⟩ :: cs⟩).2))) := by
    simp only [step, h.up, callAt_last]
  rw [hcount] at hstep
  refine ⟨_, Steps.Reaches.step (a := .receive i pre.length 0) .refl trivial hstep, ?_, fun q hq hr => ?_⟩
  · by_cases hmaj : v + 1 ≥ Config.majority ⟨i, members⟩
    · rw [if_pos hmaj]
      exact .inl ⟨_, _, Function.update_self .., rfl, h.term⟩
    · rw [if_neg hmaj]
      refine .inr ⟨by omega, ?_, h.role, h.term⟩
      rw [Function.update_self, afterCall, set_last]
      rfl
  · unfold Ready
    rw [Function.update_of_ne hq]
    exact hr

end

/-- A candidate whose peers are ready hears from each of them in turn, until it has a majority. -/
theorem Soliciting.wins {pre : List Election} {t : Int} : ∀ {cs : List Call} {v : Nat} {s : Net},
    Soliciting s i n pre t v cs → (∀ c ∈ cs, c.reply = none ∧ c.peer ≠ i ∧ (c.peer ≠ "" → Ready s i t c.peer)) →
    v < Config.majority ⟨i, members⟩ → Config.majority ⟨i, members⟩ ≤ v + cs.countP (fun c => c.peer ≠ "") →
    ∃ s', Continues members s s' ∧ Leads s' i t
  | [], v, s, _, _, hlt, hle => by
    rw [List.countP_nil] at hle
    omega
  | c :: cs, v, s, h, hcs, hlt, hle => by
    obtain ⟨⟨hreply, hpi, hready⟩, hcs⟩ := List.forall_mem_cons.1 hcs
    rw [List.countP_cons] at hle
    by_cases hname : c.peer = ""
    · -- nobody answers under the empty name
      obtain ⟨s₁, h₁, hs₁, hr₁⟩ := h.lose members
      obtain ⟨s', h', hl⟩ := hs₁.wins
        (fun c' hc' => ⟨(hcs c' hc').1, (hcs c' hc').2.1, fun hne => hr₁ _ (hcs c' hc').2.1 ((hcs c' hc').2.2 hne)⟩)
        hlt (by simpa [hname] using hle)
      exact ⟨s', h₁.trans h', hl⟩
    · rw [if_pos (by simpa using hname)] at hle
      obtain ⟨s₁, h₁, hs₁, hr₁⟩ := h.deliver members hreply (hready hname)
      obtain ⟨s₂, h₂, hs₂, hr₂⟩ := hs₁.receive members rfl
      rcases hs₂ with hl | ⟨hlt₂, hs₂⟩
      · exact ⟨s₂, h₁.trans h₂, hl⟩
      · obtain ⟨s', h', hl⟩ := hs₂.wins
          (fun c' hc' => ⟨(hcs c' hc').1, (hcs c' hc').2.1,
            fun hne => hr₂ _ (hcs c' hc').2.1 (hr₁ _ (hcs c' hc').2.1 ((hcs c' hc').2.2 hne))⟩)
          hlt₂ (by omega)
        exact ⟨s', (h₁.trans h₂).trans h', hl⟩

/-- The terms of running replicas are bounded. -/
theorem exists_term (s : Net) : ∀ l : List String, ∃ t : Int, ∀ p ∈ l, ∀ m ms, s p = .up m ms → m.currentTerm ≤ t
  | [] => ⟨0, fun _ hp => absurd hp List.not_mem_nil⟩
  | p :: l => by
    obtain ⟨t, ht⟩ := exists_term s l
    cases hp : s p with
    | down sv =>
      refine ⟨t, List.forall_mem_cons.2 ⟨fun m ms hm => ?_, ht⟩⟩
      rw [hp] at hm
      cases hm
    | up m ms =>
      refine ⟨max t m.currentTerm, List.forall_mem_cons.2 ⟨fun m' ms' hm => ?_, fun q hq m' ms' hm => ?_⟩⟩
      · rw [hp] at hm
        cases hm
        exact Int.le_max_right ..
      · exact Int.le_trans (ht q hq m' ms' hm) (Int.le_max_left ..)

/-- A running replica that does not lead, and with its voters makes a majority, can come to lead. -/
theorem can_win (hi : s i = .up n es) (hr : n.role ≠ .leader) (hmany : 1 < Config.majority ⟨i, members⟩)
    (hmaj : Config.majority ⟨i, members⟩ ≤ 1 + (voters members i).length) :
    ∃ s' t, Continues members s s' ∧ Leads s' i t := by
  have hmem : ∀ p ∈ voters members i, p ∈ members ∧ p ≠ "" ∧ p ≠ i := by
    intro p hp
    obtain ⟨hp, hne⟩ := List.mem_filter.1 hp
    obtain ⟨hp, hi⟩ := List.mem_filter.1 hp
    exact ⟨hp, by simpa using hne, by simpa using hi⟩
  -- the voters run
  obtain ⟨s₁, h₁, hu₁, hup⟩ := wake (voters members i) s fun p hp => ⟨(hmem p hp).1, (hmem p hp).2.1⟩
  -- the replica campaigns until it has the highest term
  obtain ⟨t, ht⟩ := exists_term s₁ (voters members i)
  obtain ⟨s₂, n₂, es₂, h₂, hi₂, hr₂, hterm, hsame⟩ :=
    campaigns i (t - n.currentTerm).toNat s₁ n es (hu₁ i n es hi) hr
  obtain ⟨s₃, h₃, hs₃, hsame₃⟩ : ∃ s₃, Continues members s₂ s₃ ∧
      Soliciting s₃ i (n₂.startElection (· + 1) ⟨i, members⟩ .all).1 es₂ (n₂.currentTerm + 1) 1
        ((Config.peers ⟨i, members⟩).map fun p => { peer := p }) ∧ ∀ j, j ≠ i → s₃ j = s₂ j := by
    refine ⟨Function.update s₂ i (.up (n₂.startElection (· + 1) ⟨i, members⟩ .all).1
      (es₂ ++ [(n₂.startElection (· + 1) ⟨i, members⟩ .all).2])), ?_, ⟨Function.update_self .., rfl, rfl⟩,
      fun j hj => Function.update_of_ne hj ..⟩
    refine Steps.Reaches.step (a := .startElection i) .refl (leaderTerm_eq_none hi₂ hr₂) ?_
    simp only [step, hi₂]
  have hready : ∀ c ∈ (Config.peers ⟨i, members⟩).map (fun p => ({ peer := p } : Call)),
      c.reply = none ∧ c.peer ≠ i ∧ (c.peer ≠ "" → Ready s₃ i (n₂.currentTerm + 1) c.peer) := by
    intro c hc
    obtain ⟨p, hp, rfl⟩ := List.mem_map.1 hc
    have hpi : p ≠ i := by simpa using (List.mem_filter.1 hp).2
    refine ⟨rfl, hpi, fun hne => ?_⟩
    have hv : p ∈ voters members i := List.mem_filter.2 ⟨hp, by simpa using hne⟩
    obtain ⟨m, ms, hm⟩ := hup p hv
    have hle := ht p hv m ms hm
    exact ⟨m, ms, ((hsame₃ p hpi).trans (hsame p hpi)).trans hm, .inl (by omega)⟩
  have henough : Config.majority ⟨i, members⟩ ≤
      1 + ((Config.peers ⟨i, members⟩).map fun p => ({ peer := p } : Call)).countP fun c => c.peer ≠ "" := by
    rw [voters, ← List.countP_eq_length_filter] at hmaj
    rw [List.countP_map]
    exact hmaj
  obtain ⟨s', h', hl⟩ := hs₃.wins hready hmany henough
  exact ⟨s', _, ((h₁.trans h₂).trans h₃).trans h', hl⟩

/-- What the cluster can get to from a reachable state is reachable. -/
theorem Reachable.reaches {ok : Net → Event → Prop} (h : Reachable inc members s)
    (hs : Steps.Reaches (step inc members) ok s s') : Reachable inc members s' := by
  induction hs with
  | refl => exact h
  | @step _ _ ev _ _ hstep ih =>
    obtain ⟨s₀, evs, hst, hrun⟩ := ih
    refine ⟨s₀, evs ++ [ev], hst, ?_⟩
    rw [run_append, hrun]
    simpa [run] using hstep

/-- From every reachable state of a cluster, whatever has happened before, a member can come to lead by what the
replicas do on their own if, and only if, its own vote and those of the other entries make a majority of the member
list. -/
theorem electable_iff (h : Reachable (· + 1) members s) (hi : i ∈ members) (hne : i ≠ "") :
    (∃ s' t, Continues members s s' ∧ Leads s' i t) ↔ Config.majority ⟨i, members⟩ ≤ 1 + (voters members i).length := by
  constructor
  · rintro ⟨s', t, hs', n, es, hn, hl, -⟩
    have hb := (bounded_reachable (h.reaches hs') i).2
    rw [hn] at hb
    exact hb.2.2 hl
  · intro hmaj
    by_cases hsole : Config.majority ⟨i, members⟩ ≤ 1
    · -- a replica on its own leads once it has started anew
      obtain ⟨s₁, sv, h₁, hd⟩ : ∃ s₁ sv, Continues members s s₁ ∧ s₁ i = .down sv := by
        cases hsi : s i with
        | down sv => exact ⟨s, sv, .refl, hsi⟩
        | up n es =>
          refine ⟨Function.update s i (.down n.saved), n.saved, ?_, Function.update_self ..⟩
          refine Steps.Reaches.step (a := .crash i) .refl trivial ?_
          simp only [step, hsi]
      have hstep : step (· + 1) members s₁ (.start i) = some (Function.update s₁ i
          (.up (Node.start (· + 1) ⟨i, members⟩ true .all sv) [])) := by
        simp only [step, hd, if_pos (And.intro hi hne)]
      refine ⟨_, _, h₁.step (a := .start i) trivial hstep, _, _, Function.update_self .., ?_, rfl⟩
      simp only [Node.start_eq_launch, Node.launch, if_true, if_pos hsole]
      rfl
    · obtain ⟨s₁, h₁, -, hup⟩ := wake [i] s (List.forall_mem_singleton.2 ⟨hi, hne⟩)
      obtain ⟨n, es, hn⟩ := hup i (List.mem_singleton_self i)
      by_cases hr : n.role = .leader
      · exact ⟨s₁, n.currentTerm, h₁, n, es, hn, hr, rfl⟩
      · obtain ⟨s', t, h', hl⟩ := can_win hn hr (by omega) hmaj
        exact ⟨s', t, h₁.trans h', hl⟩

/-- `b` was elected in term 1 with the vote of `c`, which has denied `a` its vote, and has crashed; `c` campaigns in
term 2. -/
def pastElection : List Event :=
  [.start "a", .start "b", .start "c", .startElection "b", .deliver "b" 0 1, .receive "b" 0 1, .startElection "a",
    .deliver "a" 0 1, .crash "b", .startElection "c"]

/-- `a` can come to lead all the same. -/
theorem electable_iff_three : ∃ s, run (· + 1) ["a", "b", "c"] (fun _ => .down {}) pastElection = some s ∧
    ∃ s' t, Continues ["a", "b", "c"] s s' ∧ Leads s' "a" t := by
  obtain ⟨s, hs⟩ : ∃ s, run (· + 1) ["a", "b", "c"] (fun _ => .down {}) pastElection = some s :=
    Option.isSome_iff_exists.1 (by decide)
  exact ⟨s, hs, (electable_iff ⟨_, _, fun _ => ⟨_, rfl⟩, hs⟩ (by decide) (by decide)).2 (by decide)⟩

/-- The entries of the member list count, not the replicas: where one ID fills most of the list, its own replica never
leads. -/
example : ¬ Config.majority ⟨"a", ["a", "a", "a", "b"]⟩ ≤ 1 + (voters ["a", "a", "a", "b"] "a").length := by decide

/-! ## A replica on its own -/

/-- A replica that no other can vote for, once it runs without leading, does not lead before it is started again,
whatever calls reach it. -/
theorem deposed_for_good (h : Reachable inc members s) (hnone : voters members i = []) (hn : ∀ t, ¬ Leads s i t)
    (hr : Steps.Reaches (step inc members) (fun _ ev => ev ≠ .start i) s s') : ∀ t, ¬ Leads s' i t := by
  induction hr with
  | refl => exact hn
  | @step s₁ s₂ ev h₁ hok hstep ih =>
    rintro t ⟨n', es', hn', hl, -⟩
    obtain ⟨hsync, hbi⟩ := bounded_reachable (h.reaches h₁) i
    have hc := step_change hstep i
    generalize hs₁ : s₁ i = r at hc hbi hsync
    rw [hn'] at hc
    cases hc with
    | still => exact ih _ ⟨n', es', hs₁, hl, rfl⟩
    | start hev => exact hok hev
    | turn ht =>
      rcases ht.leads hsync hbi.2.1 hl with hl | ⟨hv, -⟩
      · exact ih _ ⟨_, _, hs₁, hl, rfl⟩
      · exact hv hnone

/-- A cluster of one: the replica is deposed by a vote request of a newer term, and its election goes nowhere. -/
theorem deposed_for_good_alone : ∃ s s', Reachable inc64 ["a"] s ∧ step inc64 ["a"] s (.startElection "a") = some s' ∧
    ∀ t, ¬ Leads s' "a" t := by
  obtain ⟨s, hs, hnot⟩ : ∃ s, run inc64 ["a"] (fun _ => .down {}) [.start "a", .handleVote "a" 5 "b"] = some s ∧
      leaderTerm s "a" = none := Option.map_eq_some_iff.1 (by decide)
  have hr : Reachable inc64 ["a"] s := ⟨_, _, fun _ => ⟨_, rfl⟩, hs⟩
  have hn : ∀ t, ¬ Leads s "a" t := by simp [leads_iff, hnot]
  obtain ⟨s', hs'⟩ : ∃ s', step inc64 ["a"] s (.startElection "a") = some s' := by
    have : (run inc64 ["a"] (fun _ => .down {}) [.start "a", .handleVote "a" 5 "b", .startElection "a"]).isSome = true := by
      decide
    rw [show [Event.start "a", .handleVote "a" 5 "b", .startElection "a"] =
      [.start "a", .handleVote "a" 5 "b"] ++ [.startElection "a"] from rfl, run_append, hs] at this
    simpa [run, Option.isSome_iff_exists] using this
  exact ⟨s, s', hr, hs', deposed_for_good hr (by decide) hn (Steps.Reaches.step .refl (by decide) hs')⟩

end Distsched.Cluster
