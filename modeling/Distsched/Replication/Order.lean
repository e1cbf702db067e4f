/-
The order of the entries that a follower stores. The follower keeps no cursor of what it has applied, so a delayed request
can put an older value back after a newer one was acknowledged, and so can a request that repeats two entries of one key.
If the requests of a term are accepted in the order in which they were sent, one at a time, and what one repeats of another
are entries of different keys, then values never regress and an acknowledged log has been stored in full.
-/
import Distsched.Replication.Stream
import Mathlib.Data.Prod.Lex
import Mathlib.Tactic.Push

namespace Distsched.Replication

open Scheduler Journal

variable {me : String} {s s' : System} {r : Request} {rest : List ReplicationEntry}

/-! ## Requests in order -/

/-- The value an entry gives its key. -/
def valueOf (e : ReplicationEntry) : Option Value := e.mutation.bind fun m => (writeOf m).value

/-- The entry last stored for a key, with the term of its request. -/
def Follower.latest (f : Follower) (k : Key) : Option (Int × ReplicationEntry) := f.stored.find? fun p => keyOf p.2 = some k

/-- Entries are compared by term, then by seq. -/
def stamp (p : Int × ReplicationEntry) : Int ×ₗ Int := toLex (p.1, p.2.seq)

/-- The entries of a request that another one has too. -/
def Request.shared (r r' : Request) : List ReplicationEntry := r.entries.filter (· ∈ r'.entries)

/-- A request carries the term for which its sender's log was seeded. It is accepted only while no other handler is
under way, after no request of its term that was sent later, and if the entries it repeats of one accepted before are of
different keys. Writes succeed. A response is counted only in the leadership whose request it answers. The follower's
term does not go back. -/
def InSequence (s : System) : Action → Prop
  | .send i term => (s.leaders i).term = some term
  | .deliver k saved => ∀ r, s.sent[k]? = some r → (s.follower.observe saved r).2.1 = true →
    s.follower.handlers = [] ∧ ∀ r' ∈ s.follower.accepted, r'.term = r.term →
      (r' = r ∨ [r', r].Sublist s.requests) ∧ ((r.shared r').map keyOf).Nodup
  | .apply _ ok => ok = true
  | .ack k => ∀ a, s.responses[k]? = some a → (s.leaders a.request.leaderID).term = some a.request.term
  | .elect node | .restart node => s.follower.node.currentTerm ≤ node.currentTerm
  | _ => True

/-- A request is a stretch of the log of its term: what precedes an entry of it there is in it too, or acknowledged. What
the sender has logged since is of no concern, nor is a log seeded since. -/
structure Stretch (me : String) (s : System) (r : Request) : Prop where
  seeded : r.term ∈ s.seeded
  logged : ∀ i, (s.leaders i).term = some r.term → ∀ e ∈ r.entries, e ∈ s.log i
  behind : ∀ i, (s.leaders i).term = some r.term → ∀ e ∈ s.log i, ∀ f ∈ r.entries, e.seq ≤ f.seq →
    e ∈ r.entries ∨ e.seq ≤ (s.leaders i).acked me

/-- A request whose entries up to `rest` have been stored, and so has whatever precedes them in the log. -/
structure Ships (me : String) (s : System) (r : Request) (rest : List ReplicationEntry) : Prop extends Stretch me s r where
  sorted : r.entries.Pairwise fun e e' => e.seq < e'.seq
  sender : ∀ i, (s.leaders i).term = some r.term → i = r.leaderID
  covered : ∀ i, (s.leaders i).term = some r.term → ∀ e ∈ s.log i, ∀ f ∈ r.entries, e.seq ≤ f.seq →
    e ∈ rest ∨ (r.term, e) ∈ s.follower.stored

theorem Stretch.logsGrow (h : Stretch me s r) (he : LogsGrow me s s') : Stretch me s' r where
  seeded := he.seeded _ h.seeded
  logged i hi e hin := he.logged i _ h.seeded hi e (h.logged i (he.terms i _ h.seeded hi) e hin)
  behind i hi e hin f hf hle := by
    have hi₀ := he.terms i _ h.seeded hi
    rcases he.appended i _ h.seeded hi e hin with hold | hnew
    · exact (h.behind i hi₀ e hold f hf hle).imp_right fun hack => hack.trans (he.acked i _ h.seeded hi)
    · have := hnew f (h.logged i hi₀ f hf)
      omega

theorem Ships.logsGrow (h : Ships me s r rest) (he : LogsGrow me s s') : Ships me s' r rest where
  toStretch := h.toStretch.logsGrow he
  sorted := h.sorted
  sender i hi := h.sender i (he.terms i _ h.seeded hi)
  covered i hi e hin f hf hle := by
    have hi₀ := he.terms i _ h.seeded hi
    rcases he.appended i _ h.seeded hi e hin with hold | hnew
    · exact (h.covered i hi₀ e hold f hf hle).imp_right fun hst => he.stored _ hst
    · have := hnew f (h.logged i hi₀ f hf)
      omega

/-- What holds of the logs. -/
structure Logs (me : String) (s : System) : Prop where
  ordered : ∀ i, Ordered (s.leaders i).repl
  cursor : ∀ i, (s.leaders i).acked me ≤ (s.leaders i).repl.replSeq
  seeded : ∀ i t, (s.leaders i).term = some t → t ∈ s.seeded
  unique : ∀ i i' t, (s.leaders i).term = some t → (s.leaders i').term = some t → i = i'

/-- The first request was sent before the second one. If they are of one term, and the second goes back to before the end
of the first, then they have the same entries there. -/
def Before (r r' : Request) : Prop :=
  r.term = r'.term → ∀ e ∈ r.entries, ∀ e' ∈ r'.entries, e'.seq ≤ e.seq → e ∈ r'.entries ∧ e' ∈ r.entries

/-- What holds of the requests sent so far, and of those accepted. -/
structure Posted (me : String) (s : System) : Prop where
  stretch : ∀ r ∈ s.requests, Stretch me s r
  order : s.requests.Pairwise Before
  reached : ∀ r ∈ s.follower.accepted, r.term ≤ s.follower.node.currentTerm
  origin : ∀ p ∈ s.follower.stored, ∃ r ∈ s.follower.accepted, r.term = p.1 ∧ p.2 ∈ r.entries

/-- What holds of a handler under way: the entries it has yet to apply are in order, and none is older than what is stored
for its key. -/
structure Handles (me : String) (s : System) (h : Handling) : Prop where
  ships : Ships me s h.request h.todo
  counts : LastOf h.request h.last
  sub : ∀ e ∈ h.todo, e ∈ h.request.entries
  sorted : h.todo.Pairwise fun e e' => e.seq < e'.seq
  accepted : h.request ∈ s.follower.accepted
  newer : ∀ e ∈ h.todo, ∀ p ∈ s.follower.stored, keyOf p.2 = keyOf e → stamp p ≤ stamp (h.request.term, e)

structure Streaming (me : String) (store₀ : Store) (s : System) : Prop where
  logs : Logs me s
  posted : Posted me s
  sent : ∀ r ∈ s.sent, Ships me s r r.entries
  single : s.follower.handlers.length ≤ 1
  handling : ∀ h ∈ s.follower.handlers, Handles me s h
  responses : ∀ a ∈ s.responses, Ships me s a.request [] ∧ LastOf a.request a.appliedThrough
  /-- What is stored comes from a log. -/
  origin : ∀ p ∈ s.follower.stored, p.1 ∈ s.seeded ∧ ∀ i, (s.leaders i).term = some p.1 → p.2 ∈ s.log i
  /-- It was stored in order, key by key. -/
  sorted : s.follower.stored.Pairwise fun p q => keyOf q.2 = keyOf p.2 → stamp q ≤ stamp p
  /-- What is acknowledged is stored. -/
  acked : ∀ i t, (s.leaders i).term = some t → ∀ e ∈ s.log i, e.seq ≤ (s.leaders i).acked me → (t, e) ∈ s.follower.stored
  /-- The store holds the latest entry of each key. -/
  holds : ∀ k, contents s.follower.store k = match s.follower.latest k with
    | some p => valueOf p.2
    | none => contents store₀ k

variable {store₀ : Store}

theorem Handles.logsGrow {h : Handling} (hh : Handles me s h) (he : LogsGrow me s s')
    (hst : s'.follower.stored = s.follower.stored) : Handles me s' h :=
  ⟨hh.ships.logsGrow he, hh.counts, hh.sub, hh.sorted, he.accepted _ hh.accepted, hst ▸ hh.newer⟩

theorem Posted.logsGrow (h : Posted me s) (he : LogsGrow me s s') (hreq : s'.requests = s.requests)
    (hreach : ∀ r ∈ s'.follower.accepted, r.term ≤ s'.follower.node.currentTerm)
    (hst : s'.follower.stored = s.follower.stored) : Posted me s' where
  stretch r hr := (h.stretch r (hreq ▸ hr)).logsGrow he
  order := hreq ▸ h.order
  reached := hreach
  origin p hp := by
    obtain ⟨r, hr, hp⟩ := h.origin p (hst ▸ hp)
    exact ⟨r, he.accepted r hr, hp⟩

/-- An action on the messages and handlers alone. -/
theorem Streaming.mail (h : Streaming me store₀ s) (hl : s'.leaders = s.leaders) (hseed : s'.seeded = s.seeded)
    (hstore : s'.follower.store = s.follower.store) (hst : s'.follower.stored = s.follower.stored)
    (hacc : ∀ r ∈ s.follower.accepted, r ∈ s'.follower.accepted) (hposted : Posted me s')
    (hsent : ∀ r ∈ s'.sent, r ∈ s.sent ∨ Ships me s r r.entries) (hone : s'.follower.handlers.length ≤ 1)
    (hhand : ∀ d ∈ s'.follower.handlers, d ∈ s.follower.handlers ∨ Handles me s' d)
    (hresp : ∀ a ∈ s'.responses, a ∈ s.responses ∨ (Ships me s a.request [] ∧ LastOf a.request a.appliedThrough)) :
    Streaming me store₀ s' := by
  have hlog : s'.log = s.log := by
    funext i
    unfold System.log
    rw [hl]
  have hev : LogsGrow me s s' := .of_leaders hl hseed hacc (hst ▸ fun _ => id)
  constructor
  · exact ⟨hl ▸ h.logs.ordered, hl ▸ h.logs.cursor, by rw [hl, hseed]; exact h.logs.seeded, hl ▸ h.logs.unique⟩
  · exact hposted
  · exact fun r hr => ((hsent r hr).elim (h.sent r) id).logsGrow hev
  · exact hone
  · exact fun d hd => (hhand d hd).elim (fun hold => (h.handling d hold).logsGrow hev hst) id
  · intro a ha
    have := (hresp a ha).elim (h.responses a) id
    exact ⟨this.1.logsGrow hev, this.2⟩
  · rw [hst, hseed, hl, hlog]
    exact h.origin
  · rw [hst]
    exact h.sorted
  · rw [hl, hlog, hst]
    exact h.acked
  · unfold Follower.latest
    rw [hstore, hst]
    exact h.holds

/-- An action on the log of one node. -/
theorem Streaming.lead (h : Streaming me store₀ s) {i : String} {l : Leader} (hren : Renews me s i l)
    (hl : s'.leaders = Function.update s.leaders i l) (hseed : ∀ t ∈ s.seeded, t ∈ s'.seeded)
    (hf : s'.follower = s.follower) (hsent : s'.sent = s.sent) (hreq : s'.requests = s.requests)
    (hresp : ∀ a ∈ s'.responses, a ∈ s.responses)
    (hord : Ordered l.repl) (hcur : l.acked me ≤ l.repl.replSeq) (hterm : ∀ t, l.term = some t → t ∈ s'.seeded)
    (hacked : ∀ t, l.term = some t → ∀ e ∈ l.repl.replLog, e.seq ≤ l.acked me → (t, e) ∈ s.follower.stored) :
    Streaming me store₀ s' := by
  have hev : LogsGrow me s s' := hren.logsGrow hl hseed hf
  have hnode : ∀ i', s'.leaders i' = l ∧ i' = i ∨ s'.leaders i' = s.leaders i' := by
    intro i'
    rw [hl]
    by_cases hii : i' = i
    · subst hii
      exact .inl ⟨Function.update_self .., rfl⟩
    · exact .inr (Function.update_of_ne hii ..)
  -- two logs of one term: neither is new, so they were of that term before
  have hbefore : ∀ i' i'' t, i' ≠ i'' → (s'.leaders i').term = some t → (s'.leaders i'').term = some t → t ∈ s.seeded := by
    intro i' i'' t hne h' h''
    rcases hnode i' with ⟨_, rfl⟩ | he
    · rcases hnode i'' with ⟨_, rfl⟩ | he
      · exact absurd rfl hne
      · exact h.logs.seeded i'' t (he ▸ h'')
    · exact h.logs.seeded i' t (he ▸ h')
  constructor
  · refine ⟨fun i' => ?_, fun i' => ?_, fun i' t ht => ?_, fun i' i'' t h' h'' => ?_⟩
    · rcases hnode i' with ⟨he, _⟩ | he <;> rw [he]
      · exact hord
      · exact h.logs.ordered i'
    · rcases hnode i' with ⟨he, _⟩ | he <;> rw [he]
      · exact hcur
      · exact h.logs.cursor i'
    · rcases hnode i' with ⟨he, _⟩ | he <;> rw [he] at ht
      · exact hterm t ht
      · exact hseed t (h.logs.seeded i' t ht)
    · by_contra hne
      have ht := hbefore i' i'' t hne h' h''
      exact hne (h.logs.unique i' i'' t (hev.terms i' t ht h') (hev.terms i'' t ht h''))
  · exact h.posted.logsGrow hev hreq (by rw [hf]; exact h.posted.reached) (by rw [hf])
  · rw [hsent]
    exact fun r hr => (h.sent r hr).logsGrow hev
  · rw [hf]
    exact h.single
  · intro d hd
    rw [hf] at hd
    exact (h.handling d hd).logsGrow hev (by rw [hf])
  · exact fun a ha => ⟨(h.responses a (hresp a ha)).1.logsGrow hev, (h.responses a (hresp a ha)).2⟩
  · rw [hf]
    intro p hp
    obtain ⟨hin, hlog⟩ := h.origin p hp
    exact ⟨hev.seeded _ hin, fun i' hi' => hev.logged i' _ hin hi' _ (hlog i' (hev.terms i' _ hin hi'))⟩
  · rw [hf]
    exact h.sorted
  · rw [hf]
    intro i' t ht e he hle
    unfold System.log at he
    rcases hnode i' with ⟨hii, _⟩ | hii <;> rw [hii] at ht he hle
    · exact hacked t ht e he hle
    · exact h.acked i' t ht e he hle
  · rw [hf]
    exact h.holds

/-- A node writes to its own store, or lists it. -/
theorem Streaming.aside (h : Streaming me store₀ s) {i : String} {l : Leader} (hr : l.repl = (s.leaders i).repl)
    (ht : l.term = (s.leaders i).term) : Streaming me store₀ (s.lead i l) := by
  have hcur : l.acked me = (s.leaders i).acked me := by
    unfold Leader.acked
    rw [hr]
  refine h.lead (.refl hr ht) rfl (fun _ => id) rfl rfl rfl (fun _ => id) ?_ ?_ ?_ ?_
  · rw [hr]
    exact h.logs.ordered i
  · rw [hcur, hr]
    exact h.logs.cursor i
  · rw [ht]
    exact h.logs.seeded i
  · rw [ht, hr, hcur]
    exact h.acked i

theorem Streaming.seed (h : Streaming me store₀ s) (i : String) (k : Nat) {t : Int} (ht : t ∉ s.seeded) (jobs : List Job)
    (workers : List WorkerInfo) : Streaming me store₀
      { s.lead i ((s.leaders i).seed k t jobs workers) with seeded := t :: s.seeded } := by
  have hord : Ordered (Repl.seed jobs workers) := ordered_seed jobs workers
  have hzero : ((s.leaders i).seed k t jobs workers).acked me = 0 := acked_seed ..
  refine h.lead (.seed ht k jobs workers) rfl (fun _ => List.mem_cons_of_mem _) rfl rfl rfl (fun _ => id) hord ?_ ?_ ?_
  · rw [hzero]
    exact hord.start
  · rintro _ ⟨⟩
    exact List.mem_cons_self ..
  · intro _ _ e he hle
    rw [hzero] at hle
    have := hord.pos e he
    omega

/-- What is logged is not acknowledged yet. -/
theorem Streaming.append (h : Streaming me store₀ s) (i : String) (m : Mutation) :
    Streaming me store₀ (s.lead i { s.leaders i with repl := (s.leaders i).repl.append m }) := by
  have hord := h.logs.ordered i
  have hcur := h.logs.cursor i
  refine h.lead (.append hord m) rfl (fun _ => id) rfl rfl rfl (fun _ => id) (hord.append m) ?_
    (fun t ht => h.logs.seeded i t ht) ?_
  · show (s.leaders i).acked me ≤ (s.leaders i).repl.replSeq + 1
    omega
  · intro t ht e he hle
    replace hle : e.seq ≤ (s.leaders i).acked me := hle
    rcases List.mem_append.1 he with he | he
    · exact h.acked i t ht e he hle
    · rw [List.mem_singleton.1 he] at hle
      replace hle : (s.leaders i).repl.replSeq + 1 ≤ (s.leaders i).acked me := hle
      omega

/-- What is below the cursor is stored. -/
theorem Streaming.ships_send (h : Streaming me store₀ s) {i : String} {t : Int} (ht : (s.leaders i).term = some t) :
    Ships me s ⟨i, t, (s.leaders i).repl.entriesForPeer me⟩ ((s.leaders i).repl.entriesForPeer me) where
  seeded := h.logs.seeded i t ht
  sorted := (h.logs.ordered i).sorted.filter _
  sender i' hi' := h.logs.unique i' i t hi' ht
  logged i' hi' e he := by
    cases h.logs.unique i' i t hi' ht
    exact (mem_entriesForPeer.1 he).1
  behind i' hi' e he f _ _ := by
    obtain rfl : i' = i := h.logs.unique i' i t hi' ht
    rw [mem_entriesForPeer]
    exact (lt_or_ge ((s.leaders i').acked me) e.seq).imp_left (⟨he, ·⟩)
  covered i' hi' e he f _ _ := by
    obtain rfl : i' = i := h.logs.unique i' i t hi' ht
    rw [mem_entriesForPeer]
    exact (lt_or_ge ((s.leaders i').acked me) e.seq).imp (⟨he, ·⟩) (h.acked i' t ht e he)

/-- A new request begins where the cursor is, which no earlier request of the term has passed over. -/
theorem Streaming.before_send (h : Streaming me store₀ s) {i : String} {t : Int} (ht : (s.leaders i).term = some t)
    (hr : r ∈ s.requests) : Before r ⟨i, t, (s.leaders i).repl.entriesForPeer me⟩ := by
  intro hterm e he e' he' hle
  obtain ⟨hlog, hnew⟩ := mem_entriesForPeer.1 he'
  have hstretch := h.posted.stretch r hr
  have hi : (s.leaders i).term = some r.term := by rw [ht, hterm]
  refine ⟨mem_entriesForPeer.2 ⟨hstretch.logged i hi e he, by omega⟩, ?_⟩
  exact (hstretch.behind i hi e' hlog e he hle).resolve_right (not_le.2 hnew)

theorem Streaming.send (h : Streaming me store₀ s) {i : String} {t : Int} (ht : (s.leaders i).term = some t) :
    Streaming me store₀ { s with
      sent := s.sent ++ [⟨i, t, (s.leaders i).repl.entriesForPeer me⟩]
      requests := s.requests ++ [⟨i, t, (s.leaders i).repl.entriesForPeer me⟩] } := by
  have hships := h.ships_send ht
  refine h.mail rfl rfl rfl rfl (fun _ => id) ⟨fun r hr => ?_, ?_, h.posted.reached, h.posted.origin⟩ (fun r hr => ?_)
    h.single (fun _ => .inl) fun _ => .inl
  · refine Stretch.logsGrow (s := s) ?_ (.of_leaders rfl rfl (fun _ => id) fun _ => id)
    rcases List.mem_append.1 hr with hr | hr
    · exact h.posted.stretch r hr
    · rw [List.mem_singleton.1 hr]
      exact hships.toStretch
  · refine List.pairwise_append.2 ⟨h.posted.order, List.pairwise_singleton .., fun r hr r' hr' => ?_⟩
    rw [List.mem_singleton.1 hr']
    exact h.before_send ht hr
  · rcases List.mem_append.1 hr with hr | hr
    · exact .inl hr
    · rw [List.mem_singleton.1 hr]
      exact .inr hships

/-- The follower's term after `ObserveLeader`, and before it if the leader is accepted. -/
theorem Follower.observe_term (f : Follower) (saved : Bool) (r : Request) :
    (f.observe saved r).1.currentTerm = max f.node.currentTerm r.term ∧
      ((f.observe saved r).2.1 = true → f.node.currentTerm ≤ r.term) := by
  unfold Follower.observe Cluster.Node.observeLeader
  split
  · rename_i hlt
    exact ⟨(max_eq_left hlt.le).symm, nofun⟩
  · rename_i hge
    refine ⟨?_, fun _ => not_lt.1 hge⟩
    split
    · rename_i hgt
      rw [max_eq_right (not_lt.1 hge)]
      unfold Cluster.Node.becomeFollowerLocked Cluster.Node.persistLocked
      simp only [if_pos hgt]
      split <;> split <;> rfl
    · rename_i hngt
      have hle : r.term ≤ f.node.currentTerm := not_lt.1 hngt
      rw [max_eq_left hle]
      split <;> rfl

/-- What a follower has stored for a key is not newer than what an accepted request has for it: an entry of an older term
is older, and of its own term the request would repeat two entries of the key. -/
theorem Streaming.newer (h : Streaming me store₀ s) (hterm : s.follower.node.currentTerm ≤ r.term)
    (hok : ∀ r' ∈ s.follower.accepted, r'.term = r.term →
      (r' = r ∨ [r', r].Sublist s.requests) ∧ ((r.shared r').map keyOf).Nodup) :
    ∀ e ∈ r.entries, ∀ p ∈ s.follower.stored, keyOf p.2 = keyOf e → stamp p ≤ stamp (r.term, e) := by
  rintro e he ⟨t, e'⟩ hp hkey
  obtain ⟨r', hr', rfl, he'⟩ := h.posted.origin _ hp
  replace he' : e' ∈ r'.entries := he'
  have hreached : r'.term ≤ r.term := (h.posted.reached r' hr').trans hterm
  refine Prod.Lex.toLex_le_toLex.2 ?_
  rcases lt_or_eq_of_le hreached with hlt | heq
  · exact .inl hlt
  · refine .inr ⟨heq, ?_⟩
    obtain ⟨hsent, hnodup⟩ := hok r' hr' heq
    have hbefore : Before r' r := by
      rcases hsent with rfl | hsent
      · exact fun _ e he e' he' _ => ⟨he, he'⟩
      · exact List.rel_of_pairwise_cons (h.posted.order.sublist hsent) (List.mem_singleton_self r)
    by_contra hlt
    obtain ⟨hin', hin⟩ := hbefore heq e' he' e he (not_le.1 hlt).le
    have hsame : e' = e := List.inj_on_of_nodup_map hnodup (List.mem_filter.2 ⟨hin', decide_eq_true he'⟩)
      (List.mem_filter.2 ⟨he, decide_eq_true hin⟩) hkey
    exact hlt (hsame ▸ le_rfl)

theorem Streaming.deliver (h : Streaming me store₀ s) {k : Nat} {saved : Bool} (hr : s.sent[k]? = some r)
    (hok : InSequence s (.deliver k saved)) : Streaming me store₀ { s with
      sent := s.sent.eraseIdx k
      follower := s.follower.deliver saved r } := by
  have hships : Ships me s r r.entries := h.sent r (List.mem_of_getElem? hr)
  obtain ⟨hafter, hbefore⟩ := s.follower.observe_term saved r
  have hle : s.follower.node.currentTerm ≤ (s.follower.observe saved r).1.currentTerm := hafter ▸ le_max_left ..
  have hold : ∀ r' ∈ s.follower.accepted, r'.term ≤ (s.follower.observe saved r).1.currentTerm :=
    fun r' hr' => (h.posted.reached r' hr').trans hle
  unfold Follower.deliver
  split
  · rename_i hacc
    obtain ⟨hnone, hord⟩ := hok r hr hacc
    have hev : LogsGrow me s { s with
        sent := s.sent.eraseIdx k
        follower := { s.follower with
          node := (s.follower.observe saved r).1
          handlers := s.follower.handlers ++ [⟨r, r.entries, 0⟩]
          accepted := r :: s.follower.accepted } } :=
      .of_leaders rfl rfl (fun _ => List.mem_cons_of_mem _) fun _ => id
    refine h.mail rfl rfl rfl rfl (fun _ => List.mem_cons_of_mem _) (h.posted.logsGrow hev rfl (fun r' hr' => ?_) rfl)
      (fun r' hr' => .inl (List.mem_of_mem_eraseIdx hr')) ?_ (fun d hd => ?_) fun _ => .inl
    · rcases List.mem_cons.1 hr' with rfl | hr'
      · exact hafter ▸ le_max_right ..
      · exact hold r' hr'
    · rw [hnone]
      exact le_rfl
    · rcases List.mem_append.1 hd with hd | hd
      · exact .inl hd
      · rw [List.mem_singleton.1 hd]
        exact .inr ⟨hships.logsGrow hev, .inl rfl, fun _ => id, hships.sorted, List.mem_cons_self,
          h.newer (hbefore hacc) hord⟩
  · refine h.mail rfl rfl rfl rfl (fun _ => id) (h.posted.logsGrow ?_ rfl hold rfl)
      (fun r' hr' => .inl (List.mem_of_mem_eraseIdx hr')) h.single (fun _ => .inl) fun _ => .inl
    exact .of_leaders rfl rfl (fun _ => id) fun _ => id

/-- The election state of the follower changes, and handlers may be lost. -/
theorem Streaming.elect (h : Streaming me store₀ s) {node : Cluster.Node} {handlers : List Handling}
    (hterm : s.follower.node.currentTerm ≤ node.currentTerm) (hone : handlers.length ≤ 1)
    (hsub : ∀ d ∈ handlers, d ∈ s.follower.handlers) :
    Streaming me store₀ { s with follower := { s.follower with node := node, handlers := handlers } } := by
  refine h.mail rfl rfl rfl rfl (fun _ => id) (h.posted.logsGrow ?_ rfl (fun r hr => ?_) rfl) (fun _ => .inl) hone
    (fun d hd => .inl (hsub d hd)) fun _ => .inl
  · exact .of_leaders rfl rfl (fun _ => id) fun _ => id
  · exact (h.posted.reached r hr).trans hterm

/-- The one handler under way. -/
theorem Streaming.handler (h : Streaming me store₀ s) {k : Nat} {d : Handling}
    (hd : s.follower.handlers[k]? = some d) : k = 0 ∧ s.follower.handlers = [d] := by
  have hone := h.single
  obtain ⟨hlt, hd⟩ := List.getElem?_eq_some_iff.1 hd
  obtain rfl : k = 0 := by omega
  obtain ⟨d', hd'⟩ := List.length_eq_one_iff.1 (show s.follower.handlers.length = 1 by omega)
  refine ⟨rfl, ?_⟩
  simp only [hd', List.getElem_cons_zero] at hd
  rw [hd', hd]

theorem latest_write (f : Follower) (t : Int) (e : ReplicationEntry) (k : Key) :
    (f.write true t e).latest k = if keyOf e = some k then some (t, e) else f.latest k := by
  show ((t, e) :: f.stored).find? (fun p => decide (keyOf p.2 = some k)) = _
  rw [List.find?_cons]
  by_cases hk : keyOf e = some k <;> simp [hk, Follower.latest]

theorem contents_write (f : Follower) (t : Int) (e : ReplicationEntry) (k : Key) :
    contents (f.write true t e).store k = if keyOf e = some k then valueOf e else contents f.store k := by
  show contents (applyEntry f.store e) k = _
  rw [contents_applyEntry]
  obtain ⟨seq, m⟩ := e
  cases m with
  | none => rfl
  | some m =>
    show Function.update (contents f.store) (writeOf m).key (writeOf m).value k = _
    rw [Function.update_apply]
    simp only [keyOf, valueOf, Option.map_some, Option.bind_some, Option.some.injEq, eq_comm]

/-- An entry is written that is not older than what is stored for its key. -/
theorem Streaming.apply (h : Streaming me store₀ s) {e : ReplicationEntry} {last : Int}
    (hd : s.follower.handlers = [⟨r, e :: rest, last⟩]) : Streaming me store₀ { s with
      follower := { s.follower.write true r.term e with handlers := [⟨r, rest, seen last e⟩] } } := by
  have hh : Handles me s ⟨r, e :: rest, last⟩ := h.handling _ (by rw [hd]; exact List.mem_singleton_self _)
  have hin : e ∈ r.entries := hh.sub e (List.mem_cons_self ..)
  have hnewer : ∀ p ∈ s.follower.stored, keyOf p.2 = keyOf e → stamp p ≤ stamp (r.term, e) :=
    hh.newer e (List.mem_cons_self ..)
  obtain ⟨hfirst, hsorted⟩ := List.pairwise_cons.1 hh.sorted
  have hev : LogsGrow me s { s with
      follower := { s.follower.write true r.term e with handlers := [⟨r, rest, seen last e⟩] } } :=
    .of_leaders rfl rfl (fun _ => id) fun _ => List.mem_cons_of_mem _
  constructor
  · exact ⟨h.logs.ordered, h.logs.cursor, h.logs.seeded, h.logs.unique⟩
  · refine ⟨fun r hr => (h.posted.stretch r hr).logsGrow hev, h.posted.order, h.posted.reached, fun p hp => ?_⟩
    rcases List.mem_cons.1 hp with rfl | hp
    · exact ⟨r, hh.accepted, rfl, hin⟩
    · exact h.posted.origin p hp
  · exact fun r hr => (h.sent r hr).logsGrow hev
  · exact le_rfl
  · intro d hd
    rw [List.mem_singleton.1 hd]
    refine ⟨?_, lastOf_seen hh.counts hin, fun e' he' => hh.sub e' (List.mem_cons_of_mem _ he'), hsorted, hh.accepted,
      ?_⟩
    · have hships := hh.ships.logsGrow hev
      refine { hships with covered := fun i hi e' he' f hf hle => ?_ }
      rcases hships.covered i hi e' he' f hf hle with hmem | hst
      · rcases List.mem_cons.1 hmem with rfl | hmem
        · exact .inr (List.mem_cons_self ..)
        · exact .inl hmem
      · exact .inr hst
    · intro e' he' p hp hkey
      rcases List.mem_cons.1 hp with rfl | hp
      · exact Prod.Lex.toLex_le_toLex.2 (.inr ⟨rfl, (hfirst e' he').le⟩)
      · exact hh.newer e' (List.mem_cons_of_mem _ he') p hp hkey
  · exact fun a ha => ⟨(h.responses a ha).1.logsGrow hev, (h.responses a ha).2⟩
  · intro p hp
    rcases List.mem_cons.1 hp with rfl | hp
    · exact ⟨hh.ships.seeded, fun i hi => hh.ships.logged i hi e hin⟩
    · exact h.origin p hp
  · exact List.pairwise_cons.2 ⟨hnewer, h.sorted⟩
  · exact fun i t ht e' he' hle => List.mem_cons_of_mem _ (h.acked i t ht e' he' hle)
  · intro k
    show contents (s.follower.write true r.term e).store k = match (s.follower.write true r.term e).latest k with
      | some p => valueOf p.2
      | none => contents store₀ k
    rw [latest_write, contents_write, h.holds]
    split <;> rfl

theorem Streaming.respond (h : Streaming me store₀ s) {last : Int} (hd : s.follower.handlers = [⟨r, [], last⟩]) :
    Streaming me store₀ { s with
      follower := { s.follower with handlers := [] }
      responses := s.responses ++ [⟨r, last⟩] } := by
  have hh : Handles me s ⟨r, [], last⟩ := h.handling _ (by rw [hd]; exact List.mem_singleton_self _)
  refine h.mail rfl rfl rfl rfl (fun _ => id) (h.posted.logsGrow ?_ rfl h.posted.reached rfl) (fun _ => .inl) (Nat.zero_le _)
    (fun _ hd => nomatch hd) fun a ha => ?_
  · exact .of_leaders rfl rfl (fun _ => id) fun _ => id
  · rcases List.mem_append.1 ha with ha | ha
    · exact .inl ha
    · rw [List.mem_singleton.1 ha]
      exact .inr ⟨hh.ships, hh.counts⟩

/-- A response counts what has been stored. -/
theorem Streaming.ack (h : Streaming me store₀ s) {k : Nat} {a : Response} (ha : s.responses[k]? = some a)
    (ht : (s.leaders a.request.leaderID).term = some a.request.term) : Streaming me store₀
      { s.lead a.request.leaderID { s.leaders a.request.leaderID with
          repl := (s.leaders a.request.leaderID).repl.ackPeer me a.appliedThrough } with
        responses := s.responses.eraseIdx k } := by
  obtain ⟨hships, hcounts⟩ := h.responses a (List.mem_of_getElem? ha)
  have hord := h.logs.ordered a.request.leaderID
  have hlog := log_ackPeer (s.leaders a.request.leaderID).repl me a.appliedThrough
  -- a positive count is the seq of an entry of the request
  have hcount : 0 < a.appliedThrough → ∃ f ∈ a.request.entries, f.seq = a.appliedThrough := fun hpos =>
    hcounts.resolve_left (by omega)
  refine h.lead (.ack _ a.appliedThrough) rfl (fun _ => id) rfl rfl rfl (fun _ hb => List.mem_of_mem_eraseIdx hb)
    (hord.ackPeer me _) ?_ (fun t ht => h.logs.seeded _ t ht) ?_
  · rw [hlog.2]
    rcases acked_ackPeer me (s.leaders a.request.leaderID) a.appliedThrough with he | ⟨he, hpos, -⟩ <;> rw [he]
    · exact h.logs.cursor _
    · obtain ⟨f, hf, hfs⟩ := hcount hpos
      rw [← hfs]
      exact hord.bound f (hships.logged _ ht f hf)
  · intro t ht' e he hle
    rw [hlog.1] at he
    cases ht.symm.trans ht'
    rcases acked_ackPeer me (s.leaders a.request.leaderID) a.appliedThrough with heq | ⟨heq, hpos, -⟩ <;>
      rw [heq] at hle
    · exact h.acked _ _ ht e he hle
    · obtain ⟨f, hf, hfs⟩ := hcount hpos
      rcases hships.covered _ ht e he f hf (hfs ▸ hle) with hnil | hst
      · cases hnil
      · exact hst

theorem Streaming.step {a : Action} (h : Streaming me store₀ s) (hok : InSequence s a) (ha : act me s a = some s') :
    Streaming me store₀ s' := by
  cases a with
  | put i m | listJobs i term ok =>
    cases ha
    exact h.aside rfl rfl
  | listWorkers i k ok =>
    obtain ⟨seedings, rfl⟩ := act_listWorkers ha
    exact h.aside rfl rfl
  | seed i k =>
    obtain ⟨t, jobs, workers, ht, rfl⟩ := act_seed ha
    exact h.seed i k ht jobs workers
  | append i m =>
    cases ha
    exact h.append i m
  | send i t =>
    cases ha
    exact h.send hok
  | deliver k saved =>
    obtain ⟨r, hr, rfl⟩ := Option.map_eq_some_iff.1 ha
    exact h.deliver hr hok
  | apply k ok =>
    obtain ⟨r, e, rest, last, hd, rfl⟩ := act_apply ha
    obtain ⟨rfl, hone⟩ := h.handler hd
    cases (hok : ok = true)
    rw [hone]
    exact h.apply hone
  | respond k =>
    obtain ⟨r, last, hd, rfl⟩ := act_respond ha
    obtain ⟨rfl, hone⟩ := h.handler hd
    rw [hone]
    exact h.respond hone
  | ack k =>
    obtain ⟨a, hk, rfl⟩ := Option.map_eq_some_iff.1 ha
    exact h.ack hk (hok a hk)
  | elect node =>
    cases ha
    exact h.elect hok h.single fun _ => id
  | restart node =>
    cases ha
    exact h.elect hok (Nat.zero_le _) fun _ hd => nomatch hd

end Distsched.Replication
