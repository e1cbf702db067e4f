/-
Election safety: no two replicas lead the same term, in any run of the network model.

The network is related to a ballot box (`Quorum.Ballots`) that remembers every vote ever cast, also
those of terms a voter has left and of voters that are down. The box and the state agree when the
durable pair of each replica is the last ballot it cast (`Records`), when each election under way
has counted only ballots in the box, one for each call that has been answered (`Counts`), and when
every leader has won its term in the box. Each event extends the box by at most one ballot and
keeps the agreement, so two leaders of one term would be two winners of it.
-/
import Distsched.Cluster.Network
import Distsched.Lib.Quorum

namespace Distsched.Cluster

open Quorum

/-! ## What a node does to its vote -/

/-- `b` may follow `a`: the term only grows, and a vote cast in a term stays for the term. -/
def Saved.Le (a b : Saved) : Prop :=
  a.term < b.term ∨ (a.term = b.term ∧ (a.votedFor = "" ∨ b.votedFor = a.votedFor))

theorem Saved.Le.refl (a : Saved) : a.Le a := .inr ⟨rfl, .inr rfl⟩

theorem Saved.Le.trans {a b c : Saved} (h₁ : a.Le b) (h₂ : b.Le c) : a.Le c := by
  rcases h₁ with h | ⟨ht, hv⟩ <;> rcases h₂ with h' | ⟨ht', hv'⟩
  · exact .inl (by omega)
  · exact .inl (by omega)
  · exact .inl (by omega)
  · refine .inr ⟨ht.trans ht', ?_⟩
    rcases hv with hv | hv
    · exact .inl hv
    · rcases hv' with hv' | hv'
      · exact .inl (hv ▸ hv')
      · exact .inr (hv'.trans hv)

namespace Node

/-- The durable pair is the node's own term and vote. -/
def Synced (n : Node) : Prop := n.saved = ⟨n.currentTerm, n.votedFor⟩

/-- What every method other than winning an election does to a node: the durable pair follows the
memory, the vote of a term is kept, and the node leads only if it led the same term before. -/
structure Continues (n n' : Node) : Prop where
  synced : n'.Synced
  le : n.saved.Le n'.saved
  leads : n'.role = .leader → n.role = .leader ∧ n'.currentTerm = n.currentTerm

theorem Continues.refl {n : Node} (h : n.Synced) : n.Continues n := ⟨h, Saved.Le.refl _, fun hl => ⟨hl, rfl⟩⟩

theorem persistLocked_synced (n : Node) : (persistLocked true n).Synced := rfl

theorem becomeFollowerLocked_role (ok : Bool) (t : Int) (n : Node) :
    (becomeFollowerLocked ok t n).role = .follower := by
  unfold becomeFollowerLocked
  simp only
  split <;> rfl

/-- Stepping down to a newer term forgets the vote and saves that. -/
theorem becomeFollowerLocked_newer {t : Int} {n : Node} (h : t > n.currentTerm) :
    (becomeFollowerLocked true t n).currentTerm = t ∧ (becomeFollowerLocked true t n).votedFor = "" ∧
      (becomeFollowerLocked true t n).saved = ⟨t, ""⟩ := by
  unfold becomeFollowerLocked
  simp only [if_pos h]
  split <;> exact ⟨rfl, rfl, rfl⟩

theorem becomeFollowerLocked_follows {t : Int} {n : Node} (hs : n.Synced) (h : t > n.currentTerm) :
    n.Continues (becomeFollowerLocked true t n) := by
  obtain ⟨h1, h2, h3⟩ := becomeFollowerLocked_newer h
  refine ⟨?_, .inl ?_, fun hl => ?_⟩
  · unfold Synced; rw [h1, h2, h3]
  · rw [h3, hs]; exact h
  · rw [becomeFollowerLocked_role] at hl; cases hl

theorem maybeStepDown_follows {n : Node} (hs : n.Synced) (t : Int) : n.Continues (n.maybeStepDown .all t) := by
  unfold maybeStepDown
  split
  · rename_i h; exact becomeFollowerLocked_follows hs h
  · exact .refl hs

theorem observeLeader_follows {n : Node} (hs : n.Synced) (t : Int) (l : String) :
    n.Continues (n.observeLeader .all t l).1 := by
  unfold observeLeader
  split
  · exact .refl hs
  split
  · rename_i h
    obtain ⟨h1, h2, h3⟩ := becomeFollowerLocked_follows hs h
    exact ⟨h1, h2, h3⟩
  · split
    · exact ⟨hs, Saved.Le.refl _, fun hl => by cases hl⟩
    · exact .refl hs
    · rename_i hr
      refine ⟨hs, Saved.Le.refl _, fun hl => ?_⟩
      change n.role = .leader at hl
      rw [hr] at hl; cases hl

/-- `HandleVote` follows, and a granted vote is the node's durable vote of the requested term. -/
theorem handleVote_follows {n : Node} (hs : n.Synced) (t : Int) (c : String) :
    n.Continues (n.handleVote .all t c).1 ∧
      ((n.handleVote .all t c).2.1 = true → (n.handleVote .all t c).1.saved = ⟨t, c⟩) := by
  unfold handleVote
  split
  · exact ⟨.refl hs, fun h => by cases h⟩
  · rename_i hge
    -- the node after it has adopted the requested term
    obtain ⟨m, hm⟩ : ∃ m, m = if t > n.currentTerm then becomeFollowerLocked (Saves.all 0) t n else n := ⟨_, rfl⟩
    have hf : n.Continues m ∧ m.currentTerm = t := by
      rw [hm]
      split
      · rename_i h
        exact ⟨becomeFollowerLocked_follows hs h, (becomeFollowerLocked_newer h).1⟩
      · exact ⟨.refl hs, by omega⟩
    simp only [← hm]
    split
    · rename_i hv
      have hsaved : (persistLocked (Saves.all 1) { m with votedFor := c }).saved = ⟨t, c⟩ := by
        change Saved.mk m.currentTerm c = ⟨t, c⟩
        rw [hf.2]
      refine ⟨⟨persistLocked_synced _, ?_, hf.1.leads⟩, fun _ => hsaved⟩
      refine hf.1.le.trans ?_
      rw [hsaved, hf.1.synced]
      exact .inr ⟨hf.2, hv.imp id Eq.symm⟩
    · exact ⟨hf.1, fun h => by cases h⟩

end Node

/-! ## Agreement with a ballot box -/

/-- The ballots of the box by one voter in one term. -/
abbrev Box := Ballots String Int String

/-- The durable pair of `i` is the last ballot it cast; `""` is no candidate. -/
structure Records (B : Box) (i : String) (sv : Saved) : Prop where
  named : ∀ t, B i t ≠ some ""
  past : ∀ t c, B i t = some c → t ≤ sv.term
  last : ∀ c, B i sv.term = some c → sv.votedFor = c
  cast : sv.votedFor ≠ "" → B i sv.term = some sv.votedFor

theorem Records.other {B B' : Box} {i : String} {sv : Saved} (h : Records B i sv) (hb : ∀ t, B' i t = B i t) :
    Records B' i sv :=
  ⟨fun t => by rw [hb]; exact h.named t, fun t c hc => h.past t c (hb t ▸ hc), fun c hc => h.last c (hb _ ▸ hc),
    fun hv => by rw [hb]; exact h.cast hv⟩

/-- A replica that moves on to `b` casts at most one new ballot. -/
theorem Records.next {B : Box} {i : String} {a b : Saved} (h : Records B i a) (hle : a.Le b) :
    ∃ B', B.Extends B' ∧ Records B' i b ∧ ∀ v, v ≠ i → ∀ t, B' v t = B v t := by
  -- a ballot of `b`'s term already in the box is `b`'s
  have hlast : ∀ c, B i b.term = some c → b.votedFor = c := by
    intro c hc
    rcases hle with hlt | ⟨he, hu⟩
    · have := h.past _ c hc; omega
    · rw [← he] at hc
      have hac := h.last c hc
      rcases hu with hu | hu
      · rw [hu] at hac; subst hac; exact absurd hc (h.named _)
      · rw [hu, hac]
  have hpast : ∀ t c, B i t = some c → t ≤ b.term := by
    intro t c hc
    have := h.past t c hc
    rcases hle with hlt | ⟨he, -⟩ <;> omega
  by_cases hv : b.votedFor = ""
  · exact ⟨B, Ballots.Extends.refl B, ⟨h.named, hpast, hlast, fun hn => absurd hv hn⟩, fun _ _ _ => rfl⟩
  · refine ⟨B.cast i b.term b.votedFor, Ballots.extends_cast fun c' hc' => (hlast c' hc').symm,
      ⟨fun t hc => ?_, fun t c hc => ?_, fun c hc => ?_, fun _ => Ballots.cast_self ..⟩,
      fun v hne t => Ballots.cast_other_voter B b.term t b.votedFor hne⟩
    · unfold Ballots.cast at hc
      split at hc
      · exact hv (Option.some.inj hc)
      · exact h.named t hc
    · unfold Ballots.cast at hc
      split at hc
      · rename_i ht; omega
      · exact hpast t c hc
    · rw [Ballots.cast_self] at hc
      exact Option.some.inj hc

/-- The peers whose answers election `e` of `i` has taken hold at least the votes it has counted
beyond its own, and every granted answer still in flight stands for a ballot. -/
structure Counts (B : Box) (members : List String) (i : String) (e : Election) : Prop where
  self : B i e.term = some i
  count : ∃ got : List String, (got ++ e.calls.map (·.peer)).Perm (Config.peers ⟨i, members⟩) ∧
    e.votes ≤ 1 + votes B i e.term got
  replies : ∀ c ∈ e.calls, ∀ t, c.reply = some (true, t) → B c.peer e.term = some i

theorem Counts.mono {B B' : Box} (hB : B.Extends B') {members : List String} {i : String} {e : Election}
    (h : Counts B members i e) : Counts B' members i e := by
  obtain ⟨got, hp, hv⟩ := h.count
  have := votes_mono hB i e.term got
  exact ⟨hB _ _ _ h.self, ⟨got, hp, by omega⟩, fun c hc t hr => hB _ _ _ (h.replies c hc t hr)⟩

/-- A cluster state and a ballot box agree. -/
structure Agrees (members : List String) (s : Net) (B : Box) : Prop where
  records : ∀ i, Records B i (s i).saved
  synced : ∀ i n es, s i = .up n es → n.Synced
  member : ∀ i n es, s i = .up n es → i ∈ members ∧ i ≠ ""
  counts : ∀ i n es, s i = .up n es → ∀ e ∈ es, Counts B members i e
  leads : ∀ i t, Leads s i t → Won B members i t

/-! ## Each event keeps the agreement -/

/-- One replica moves on to a running state: its vote follows, and once its new vote is in the box
it leads only a term it led before or has won, and its elections are backed by the box. -/
theorem Agrees.move {members : List String} {s : Net} {B : Box} (h : Agrees members s B) {i : String} {n : Node}
    {es : List Election} (hm : i ∈ members ∧ i ≠ "") (hs : n.Synced) (hle : (s i).saved.Le n.saved)
    (hlead : ∀ B', B.Extends B' → Records B' i n.saved → n.role = .leader →
      Leads s i n.currentTerm ∨ Won B' members i n.currentTerm)
    (hel : ∀ B', B.Extends B' → Records B' i n.saved → ∀ e ∈ es, Counts B' members i e) :
    ∃ B', B.Extends B' ∧ Agrees members (Function.update s i (.up n es)) B' := by
  obtain ⟨B', hB, hr, hother⟩ := (h.records i).next hle
  refine ⟨B', hB, fun j => ?_, fun j m ms hj => ?_, fun j m ms hj => ?_, fun j m ms hj => ?_, fun j t hj => ?_⟩
  · by_cases hji : j = i
    · subst hji; rw [Function.update_self]; exact hr
    · rw [Function.update_of_ne hji]; exact (h.records j).other (hother j hji)
  · by_cases hji : j = i
    · subst hji; rw [Function.update_self] at hj; cases hj; exact hs
    · rw [Function.update_of_ne hji] at hj; exact h.synced j m ms hj
  · by_cases hji : j = i
    · subst hji; exact hm
    · rw [Function.update_of_ne hji] at hj; exact h.member j m ms hj
  · by_cases hji : j = i
    · subst hji; rw [Function.update_self] at hj; cases hj; exact hel B' hB hr
    · rw [Function.update_of_ne hji] at hj
      exact fun e he => (h.counts j m ms hj e he).mono hB
  · obtain ⟨m, ms, hj, hrole, rfl⟩ := hj
    by_cases hji : j = i
    · subst hji
      rw [Function.update_self] at hj; cases hj
      rcases hlead B' hB hr hrole with hl | hw
      · exact (h.leads j _ hl).mono hB
      · exact hw
    · rw [Function.update_of_ne hji] at hj
      exact (h.leads j _ ⟨m, ms, hj, hrole, rfl⟩).mono hB

/-- A method that only follows keeps the agreement, whatever elections go on that were backed. -/
theorem Agrees.follows {members : List String} {s : Net} {B : Box} (h : Agrees members s B) {i : String} {n n' : Node}
    {es es' : List Election} (hi : s i = .up n es) (hf : n.Continues n')
    (hel : ∀ e ∈ es', Counts B members i e) :
    ∃ B', B.Extends B' ∧ Agrees members (Function.update s i (.up n' es')) B' := by
  refine h.move (h.member i n es hi) hf.synced (by rw [hi]; exact hf.le) (fun _ _ _ hl => .inl ?_)
    fun _ hB _ e he => (hel e he).mono hB
  obtain ⟨h1, h2⟩ := hf.leads hl
  exact ⟨n, es, hi, h1, h2.symm⟩

theorem Agrees.start {inc : Int → Int} {members : List String} {s : Net} {B : Box} (h : Agrees members s B) {i : String}
    {sv : Saved} (hi : s i = .down sv) (hm : i ∈ members ∧ i ≠ "") (hgrow : Grows inc members s (.start i)) :
    ∃ B', B.Extends B' ∧
      Agrees members (Function.update s i (.up (Node.start inc ⟨i, members⟩ true .all sv) [])) B' := by
  rw [Node.start_eq_launch, Node.launch]
  simp only [if_true]
  split
  · rename_i hmaj
    refine h.move hm rfl (.inl ?_) (fun B' _ hr _ => .inr ?_) (by simp)
    · rw [hi]; exact hgrow sv hi hmaj
    · -- a majority of one: the node is the whole member list, and has voted for itself
      have hc := hr.cast hm.2
      unfold Won
      change members.length / 2 + 1 ≤ 1 at hmaj
      have := votes_filter_ne B' hc members hm.1
      change B' i (inc sv.term) = some i at hc
      change members.length / 2 + 1 ≤ votes B' i (inc sv.term) members
      change _ ≤ votes B' i (inc sv.term) members at this
      omega
  · refine h.move hm rfl (by rw [hi]; exact Saved.Le.refl sv) (fun _ _ _ hl => by cases hl) (by simp)

theorem Agrees.crash {members : List String} {s : Net} {B : Box} (h : Agrees members s B) {i : String} {n : Node}
    {es : List Election} (hi : s i = .up n es) : Agrees members (Function.update s i (.down n.saved)) B := by
  have hup : ∀ j m ms, Function.update s i (.down n.saved) j = .up m ms → s j = .up m ms := by
    intro j m ms hj
    by_cases hji : j = i
    · subst hji; rw [Function.update_self] at hj; cases hj
    · rwa [Function.update_of_ne hji] at hj
  refine ⟨fun j => ?_, fun j m ms hj => h.synced j m ms (hup j m ms hj), fun j m ms hj => h.member j m ms (hup j m ms hj),
    fun j m ms hj => h.counts j m ms (hup j m ms hj), fun j t ⟨m, ms, hj, hl, ht⟩ => h.leads j t ⟨m, ms, hup j m ms hj, hl, ht⟩⟩
  by_cases hji : j = i
  · subst hji
    rw [Function.update_self]
    have := h.records j
    rw [hi] at this; exact this
  · rw [Function.update_of_ne hji]; exact h.records j

theorem Agrees.startElection {inc : Int → Int} {members : List String} {s : Net} {B : Box} (h : Agrees members s B)
    {i : String} {n : Node} {es : List Election} (hi : s i = .up n es)
    (hgrow : Grows inc members s (.startElection i)) :
    ∃ B', B.Extends B' ∧ Agrees members (Function.update s i
      (.up (n.startElection inc ⟨i, members⟩ .all).1 (es ++ [(n.startElection inc ⟨i, members⟩ .all).2]))) B' := by
  have hm := h.member i n es hi
  refine h.move hm rfl (.inl ?_) (fun _ _ _ hl => by cases hl) fun B' hB hr e he => ?_
  · rw [hi]
    change n.saved.term < inc n.currentTerm
    rw [h.synced i n es hi]
    exact hgrow n es hi
  · rcases List.mem_append.1 he with he | he
    · exact (h.counts i n es hi e he).mono hB
    · rw [List.mem_singleton] at he
      subst he
      refine ⟨hr.cast hm.2, ⟨[], ?_, by simp [Node.startElection, votes]⟩, fun c hc t hrep => ?_⟩
      · simp [Node.startElection, Function.comp_def]
      · obtain ⟨p, -, rfl⟩ := List.mem_map.1 hc
        cases hrep

/-! ## Calls of an election -/

theorem callAt_some {es : List Election} {e k : Nat} {el : Election} {c : Call} (h : callAt es e k = some (el, c)) :
    es[e]? = some el ∧ el.calls[k]? = some c := by
  unfold callAt at h
  obtain ⟨el', h1, h2⟩ := Option.bind_eq_some_iff.1 h
  obtain ⟨c', h3, h4⟩ := Option.map_eq_some_iff.1 h2
  cases h4
  exact ⟨h1, h3⟩

/-- The peers asked by an election are never the node itself. -/
theorem Counts.peer_ne {B : Box} {members : List String} {i : String} {el : Election} (h : Counts B members i el)
    {c : Call} (hc : c ∈ el.calls) : c.peer ≠ i := by
  obtain ⟨got, hp, -⟩ := h.count
  have : c.peer ∈ Config.peers ⟨i, members⟩ :=
    hp.mem_iff.1 (List.mem_append_right _ (List.mem_map.2 ⟨c, hc, rfl⟩))
  simpa [Config.peers] using (List.mem_filter.1 this).2

/-- The answer of a call is filled in. -/
theorem Counts.answer {B : Box} {members : List String} {i : String} {el : Election} (h : Counts B members i el)
    {k : Nat} {c : Call} (hk : el.calls[k]? = some c) {r : Bool × Int} (hr : r.1 = true → B c.peer el.term = some i) :
    Counts B members i { el with calls := el.calls.set k { c with reply := some r } } := by
  obtain ⟨got, hp, hv⟩ := h.count
  refine ⟨h.self, ⟨got, ?_, hv⟩, fun c' hc' t ht => ?_⟩
  · have hset : (el.calls.set k { c with reply := some r }).map (·.peer) = el.calls.map (·.peer) := by
      rw [List.map_set]
      apply List.ext_getElem?
      intro m
      rw [List.getElem?_set]
      split
      · rename_i hm
        subst hm
        simp only [List.length_map, List.getElem?_map, hk, Option.map_some]
        exact if_pos (List.getElem?_eq_some_iff.1 hk).1
      · rfl
    simp only [hset]; exact hp
  · rcases List.mem_or_eq_of_mem_set hc' with hc' | rfl
    · exact h.replies c' hc' t ht
    · simp only [Option.some.injEq] at ht
      exact hr (by rw [ht])

/-- The result of a call is taken: the election goes on with one call less and, if the answer was a
vote, one vote more. -/
theorem Counts.take {B : Box} {members : List String} {i : String} {el : Election} (h : Counts B members i el)
    {k : Nat} {c : Call} (hk : el.calls[k]? = some c) {v : Nat}
    (hv : v = el.votes ∨ (v = el.votes + 1 ∧ B c.peer el.term = some i)) :
    Counts B members i { el with votes := v, calls := el.calls.eraseIdx k } := by
  obtain ⟨got, hp, hle⟩ := h.count
  obtain ⟨hlt, hget⟩ := List.getElem?_eq_some_iff.1 hk
  refine ⟨h.self, ⟨c.peer :: got, ?_, ?_⟩, fun c' hc' t ht => h.replies c' (List.mem_of_mem_eraseIdx hc') t ht⟩
  · refine List.Perm.trans ?_ hp
    have hperm : (el.calls[k] :: el.calls.eraseIdx k).Perm el.calls :=
      ((List.erase_getElem hlt).symm.cons _).trans (List.perm_cons_erase (List.getElem_mem hlt)).symm
    have := hperm.map (·.peer)
    rw [hget, List.map_cons] at this
    refine List.Perm.trans ?_ (List.Perm.append_left got this)
    exact List.perm_middle.symm
  · rcases hv with rfl | ⟨rfl, hb⟩
    · have := votes_le_cons B i el.term c.peer got
      simp only
      omega
    · rw [votes_cons B i el.term c.peer got hb]
      simp only
      omega

/-- A candidate that has counted a majority has won: its own vote and one ballot for each counted
answer lie on different entries of the member list. -/
theorem Counts.won {B : Box} {members : List String} {i : String} {e : Election} (h : Counts B members i e)
    (hm : i ∈ members) (hv : Config.majority ⟨i, members⟩ ≤ e.votes) : Won B members i e.term := by
  obtain ⟨got, hp, hle⟩ := h.count
  have h1 : votes B i e.term got ≤ votes B i e.term (Config.peers ⟨i, members⟩) := by
    unfold votes
    rw [← hp.countP_eq, List.countP_append]
    omega
  have h2 := votes_filter_ne B h.self members hm
  unfold Won
  unfold Config.majority at hv
  simp only [Config.peers] at h1 hv
  omega

theorem mem_afterCall {es : List Election} {e k : Nat} {o : Option Election} {x : Election}
    (h : x ∈ afterCall es e k o) : x ∈ es ∨ ∃ el, o = some el ∧ x = { el with calls := el.calls.eraseIdx k } := by
  cases o with
  | none => exact .inl (List.mem_of_mem_eraseIdx h)
  | some el => exact (List.mem_or_eq_of_mem_set h).imp id fun hx => ⟨el, rfl, hx⟩

/-- A received result keeps the agreement, if a granted one stands for a ballot of the peer asked. -/
theorem Agrees.countVote {members : List String} {s : Net} {B : Box} (h : Agrees members s B) {i : String} {n : Node}
    {es : List Election} (hi : s i = .up n es) {e k : Nat} {el : Election} {c : Call}
    (hc : callAt es e k = some (el, c)) (r : VoteResult) (hr : r.granted = true → B c.peer el.term = some i) :
    ∃ B', B.Extends B' ∧ Agrees members (Function.update s i (.up (n.countVote ⟨i, members⟩ .all r el).1
      (afterCall es e k (n.countVote ⟨i, members⟩ .all r el).2))) B' := by
  obtain ⟨he, hk⟩ := callAt_some hc
  have hs := h.synced i n es hi
  have hes := h.counts i n es hi
  have hel := hes el (List.mem_of_getElem? he)
  -- the loop returned, or goes on with `v` votes
  have hend : ∀ x ∈ afterCall es e k none, Counts B members i x := fun x hx =>
    hes x ((mem_afterCall hx).resolve_right fun ⟨_, ho, _⟩ => by cases ho)
  have hgo : ∀ v, (v = el.votes ∨ (v = el.votes + 1 ∧ B c.peer el.term = some i)) →
      ∀ x ∈ afterCall es e k (some { el with votes := v }), Counts B members i x := by
    intro v hv x hx
    rcases mem_afterCall hx with hx | ⟨el', ho, rfl⟩
    · exact hes x hx
    · cases ho; exact hel.take hk hv
  unfold Node.countVote
  split
  · exact h.follows hi (.refl hs) (hgo _ (.inl rfl))
  split
  · exact h.follows hi (.refl hs) hend
  · rename_i hcand
    split
    · rename_i hnew
      exact h.follows hi (Node.becomeFollowerLocked_follows hs hnew) hend
    · split
      · rename_i hg
        simp only
        have hb := hr hg
        have htake := hel.take hk (.inr ⟨rfl, hb⟩)
        split
        · rename_i hmaj
          refine h.move (h.member i n es hi) hs (by rw [hi]; exact Saved.Le.refl _) (fun B' hB _ _ => .inr ?_)
            fun B' hB _ x hx => (hend x hx).mono hB
          have hterm : n.currentTerm = el.term := by
            by_contra hne; exact hcand (.inr hne)
          have := (htake.won (h.member i n es hi).1 hmaj).mono hB
          change Won B' members i n.currentTerm
          rw [hterm]; exact this
        · exact h.follows hi (.refl hs) (hgo _ (.inr ⟨rfl, hb⟩))
      · exact h.follows hi (.refl hs) (hgo _ (.inl rfl))

/-- A vote request reaches its peer: the peer votes, and the answer it gives stands for its ballot. -/
theorem Agrees.deliver {members : List String} {s : Net} {B : Box} (h : Agrees members s B) {i : String} {n : Node}
    {es : List Election} (hi : s i = .up n es) {e k : Nat} {el : Election} {c : Call}
    (hc : callAt es e k = some (el, c)) {m : Node} {ms : List Election} (hp : s c.peer = .up m ms) :
    ∃ B', B.Extends B' ∧ Agrees members
      (Function.update (Function.update s c.peer (.up (m.handleVote .all el.term i).1 ms)) i
        (.up n (es.set e { el with calls := el.calls.set k { c with reply := some (m.handleVote .all el.term i).2 } }))) B' := by
  obtain ⟨he, hk⟩ := callAt_some hc
  have hel := h.counts i n es hi el (List.mem_of_getElem? he)
  have hne : i ≠ c.peer := (hel.peer_ne (List.mem_of_getElem? hk)).symm
  obtain ⟨hf, hgrant⟩ := Node.handleVote_follows (h.synced _ m ms hp) el.term i
  obtain ⟨B₁, hB₁, h₁⟩ := h.follows hp hf (h.counts _ m ms hp)
  have hi₁ : Function.update s c.peer (.up (m.handleVote .all el.term i).1 ms) i = .up n es := by
    rw [Function.update_of_ne hne, hi]
  have hes : ∀ x ∈ es.set e { el with calls := el.calls.set k { c with reply := some (m.handleVote .all el.term i).2 } },
      Counts B₁ members i x := by
    intro x hx
    rcases List.mem_or_eq_of_mem_set hx with hx | rfl
    · exact (h.counts i n es hi x hx).mono hB₁
    · refine (hel.mono hB₁).answer hk fun hg => ?_
      have hrec := h₁.records c.peer
      rw [Function.update_self] at hrec
      change Records B₁ c.peer (m.handleVote .all el.term i).1.saved at hrec
      rw [hgrant hg] at hrec
      exact hrec.cast (h.member i n es hi).2
  obtain ⟨B₂, hB₂, h₂⟩ := h₁.follows hi₁ (.refl (h.synced i n es hi)) hes
  exact ⟨B₂, hB₁.trans hB₂, h₂⟩

/-- Each event by which no counter overflows extends the box and keeps the agreement. -/
theorem agrees_step {inc : Int → Int} {members : List String} {s s' : Net} {B : Box} {ev : Event}
    (h : Agrees members s B) (hgrow : Grows inc members s ev) (hs : step inc members s ev = some s') :
    ∃ B', B.Extends B' ∧ Agrees members s' B' := by
  cases ev with
  | start i =>
    simp only [step] at hs
    split at hs
    · rename_i sv hi
      split at hs
      · rename_i hm; cases hs; exact h.start hi hm hgrow
      · cases hs
    · cases hs
  | crash i =>
    simp only [step] at hs
    split at hs
    · rename_i n es hi; cases hs; exact ⟨B, Ballots.Extends.refl B, h.crash hi⟩
    · cases hs
  | startElection i =>
    simp only [step] at hs
    split at hs
    · rename_i n es hi; cases hs; exact h.startElection hi hgrow
    · cases hs
  | deliver i e k =>
    simp only [step] at hs
    split at hs
    · rename_i n es hi
      split at hs
      · rename_i el c hc
        split at hs
        · rename_i m ms hr hp; cases hs; exact h.deliver hi hc hp
        · cases hs
      · cases hs
    · cases hs
  | receive i e k =>
    simp only [step] at hs
    split at hs
    · rename_i n es hi
      split at hs
      · rename_i el p granted peerTerm hc
        cases hs
        refine h.countVote hi hc ⟨granted, peerTerm, true⟩ fun hg => ?_
        obtain ⟨he, hk⟩ := callAt_some hc
        exact (h.counts i n es hi el (List.mem_of_getElem? he)).replies _ (List.mem_of_getElem? hk) peerTerm
          (by simp only at hg ⊢; rw [hg])
      · cases hs
    · cases hs
  | lose i e k =>
    simp only [step] at hs
    split at hs
    · rename_i n es hi
      split at hs
      · rename_i el c hc; cases hs; exact h.countVote hi hc _ fun hg => by cases hg
      · cases hs
    · cases hs
  | handleVote i t c =>
    simp only [step] at hs
    split at hs
    · rename_i n es hi; cases hs
      exact h.follows hi (Node.handleVote_follows (h.synced i n es hi) t c).1 (h.counts i n es hi)
    · cases hs
  | observeLeader i t l =>
    simp only [step] at hs
    split at hs
    · rename_i n es hi; cases hs
      exact h.follows hi (Node.observeLeader_follows (h.synced i n es hi) t l) (h.counts i n es hi)
    · cases hs
  | maybeStepDown i t =>
    simp only [step] at hs
    split at hs
    · rename_i n es hi; cases hs
      exact h.follows hi (Node.maybeStepDown_follows (h.synced i n es hi) t) (h.counts i n es hi)
    · cases hs

/-! ## Election safety -/

/-- A stopped cluster agrees with the box of the votes it has saved. -/
theorem agrees_stopped (members : List String) {s : Net} (h : Stopped s) : ∃ B, Agrees members s B := by
  have hup : ∀ i n es, s i ≠ .up n es := by
    intro i n es hi
    obtain ⟨sv, hd⟩ := h i
    rw [hd] at hi; cases hi
  refine ⟨fun i t => if t = (s i).saved.term ∧ (s i).saved.votedFor ≠ "" then some (s i).saved.votedFor else none,
    fun i => ⟨fun t hc => ?_, fun t c hc => ?_, fun c hc => ?_, fun hv => by simp [hv]⟩, fun i n es hi => absurd hi (hup i n es),
    fun i n es hi => absurd hi (hup i n es), fun i n es hi => absurd hi (hup i n es),
    fun i t ⟨n, es, hi, _⟩ => absurd hi (hup i n es)⟩
  · split at hc
    · rename_i hv; exact hv.2 (Option.some.inj hc)
    · cases hc
  · split at hc
    · rename_i hv; omega
    · cases hc
  · split at hc
    · exact Option.some.inj hc
    · cases hc

theorem agrees_reachable {members : List String} {s : Net} (h : Reachable (· + 1) members s) :
    ∃ B, Agrees members s B :=
  h.induction (fun _ hs => agrees_stopped members hs) fun s _ ev ⟨_, hB⟩ hst =>
    (agrees_step hB (grows_succ members s ev) hst).imp fun _ h => h.2

/-- Election safety: in every reachable state of a cluster with any member list, two running
replicas in role Leader with the same current term are the same replica. -/
theorem leader_unique {members : List String} {s : Net} (h : Reachable (· + 1) members s) {i j : String} {t : Int}
    (hi : Leads s i t) (hj : Leads s j t) : i = j := by
  obtain ⟨B, hB⟩ := agrees_reachable h
  exact (hB.leads i t hi).unique (hB.leads j t hj)

/-- Three replicas, of which `a` and `b` run; `a` is elected with `b`'s vote and is the only leader
of term 1. -/
theorem leader_unique_elected :
    ∃ s, Reachable (· + 1) ["a", "b", "c"] s ∧ Leads s "a" 1 ∧ ∀ j, Leads s j 1 → "a" = j := by
  obtain ⟨s, hs, ha⟩ : ∃ s, run (· + 1) ["a", "b", "c"] (fun _ => .down {})
      [.start "a", .start "b", .startElection "a", .deliver "a" 0 0, .receive "a" 0 0] = some s ∧
      leaderTerm s "a" = some 1 := Option.map_eq_some_iff.1 (by decide)
  have hr : Reachable (· + 1) ["a", "b", "c"] s := ⟨_, _, fun _ => ⟨_, rfl⟩, hs⟩
  have hl := (leads_iff s "a" 1).2 ha
  exact ⟨s, hr, hl, fun j hj => leader_unique hr hl hj⟩

end Distsched.Cluster
