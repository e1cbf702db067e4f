/-
The acknowledgement cursors of a leader (`peerAcked`). A response carries a seq and no term, `ackPeer` counts it
against whatever log the node has by then, and a follower reports an entry whether or not its write succeeded. So a
cursor can run ahead of what the follower has stored, and what it has passed is never sent again.

If requests go out of seeded logs only, and a response is counted only against the log its request was read from and
only when all its entries were stored, then everything up to the cursor has been stored.
-/
import Distsched.Replication.Stream

namespace Distsched.Replication

open Scheduler Journal

/-- A broadcast begins after the log was seeded for the term it reads. A response is counted only while the log is
that of its request's term, and only if every entry of the request was stored. -/
def Counted (s : System) : Action → Prop
  | .send _ term => term ∈ s.seeded
  | .ack k => ∀ a, s.responses[k]? = some a → (s.leaders a.request.leaderID).term = some a.request.term ∧
    ∀ e ∈ a.request.entries, (a.request.term, e) ∈ s.follower.stored
  | _ => True

variable {me : String} {s s' : System} {r : Request}

/-- While the sender's log is still that of the request's term, it has the entries of the request; and what precedes
one of these in the log is in the request too, or was stored before. -/
structure Carries (s : System) (r : Request) : Prop where
  seeded : r.term ∈ s.seeded
  logged : (s.leaders r.leaderID).term = some r.term → ∀ e ∈ r.entries, e ∈ s.log r.leaderID
  covered : (s.leaders r.leaderID).term = some r.term → ∀ e ∈ s.log r.leaderID, ∀ f ∈ r.entries, e.seq ≤ f.seq →
    e ∈ r.entries ∨ (r.term, e) ∈ s.follower.stored

theorem Carries.logsGrow (h : Carries s r) (he : LogsGrow me s s') : Carries s' r where
  seeded := he.seeded _ h.seeded
  logged ht e hin := he.logged _ _ h.seeded ht e (h.logged (he.terms _ _ h.seeded ht) e hin)
  covered ht e hin f hf hle := by
    have ht₀ := he.terms _ _ h.seeded ht
    rcases he.appended _ _ h.seeded ht e hin with hold | hnew
    · exact (h.covered ht₀ e hold f hf hle).imp_right fun hst => he.stored _ hst
    · have := hnew f (h.logged ht₀ f hf)
      omega

/-- The log and the cursor of a node: in order, and stored up to the cursor. -/
structure Cursor (me : String) (stored : List (Int × ReplicationEntry)) (l : Leader) : Prop where
  ordered : Ordered l.repl
  bound : l.acked me ≤ l.repl.replSeq
  acked : ∀ t, l.term = some t → ∀ e ∈ l.repl.replLog, e.seq ≤ l.acked me → (t, e) ∈ stored

theorem Cursor.mono {stored stored' : List (Int × ReplicationEntry)} {l : Leader} (h : Cursor me stored l)
    (hst : ∀ p ∈ stored, p ∈ stored') : Cursor me stored' l :=
  ⟨h.ordered, h.bound, fun t ht e he hle => hst _ (h.acked t ht e he hle)⟩

structure Cursors (me : String) (s : System) : Prop where
  logs : ∀ i, Cursor me s.follower.stored (s.leaders i)
  seeded : ∀ i t, (s.leaders i).term = some t → t ∈ s.seeded
  sent : ∀ r ∈ s.sent, Carries s r
  handling : ∀ d ∈ s.follower.handlers, Carries s d.request ∧ LastOf d.request d.last ∧ ∀ e ∈ d.todo, e ∈ d.request.entries
  responses : ∀ a ∈ s.responses, Carries s a.request ∧ LastOf a.request a.appliedThrough

variable {stored : List (Int × ReplicationEntry)} {l : Leader}

/-- A new log has nothing acknowledged. -/
theorem cursor_seed (l : Leader) (k : Nat) (t : Int) (jobs : List Job) (workers : List WorkerInfo) :
    Cursor me stored (l.seed k t jobs workers) := by
  have hzero : (l.seed k t jobs workers).acked me = 0 := acked_seed ..
  have hord : Ordered (Repl.seed jobs workers) := ordered_seed jobs workers
  refine ⟨hord, hzero ▸ hord.start, fun _ _ e he hle => ?_⟩
  have := hord.pos e he
  omega

/-- The store of the node and what it lists of it are of no concern. -/
theorem Cursor.aside {l' : Leader} (h : Cursor me stored l) (hr : l'.repl = l.repl) (ht : l'.term = l.term) :
    Cursor me stored l' := by
  have hcur : l'.acked me = l.acked me := by
    unfold Leader.acked
    rw [hr]
  constructor
  · rw [hr]
    exact h.ordered
  · rw [hcur, hr]
    exact h.bound
  · rw [ht, hr, hcur]
    exact h.acked

theorem Cursor.append (h : Cursor me stored l) (m : Mutation) : Cursor me stored { l with repl := l.repl.append m } := by
  have hbound : l.acked me ≤ l.repl.replSeq := h.bound
  refine ⟨h.ordered.append m, ?_, fun t ht e he hle => ?_⟩
  · show l.acked me ≤ l.repl.replSeq + 1
    omega
  · replace hle : e.seq ≤ l.acked me := hle
    rcases List.mem_append.1 he with he | he
    · exact h.acked t ht e he hle
    · rw [List.mem_singleton.1 he] at hle
      replace hle : l.repl.replSeq + 1 ≤ l.acked me := hle
      omega

/-- The cursor moves to the seq of an entry of the request; all that precedes it in the log is stored. -/
theorem Cursor.ack {a : Response} (h : Cursor me s.follower.stored (s.leaders a.request.leaderID)) (hc : Carries s a.request)
    (hn : LastOf a.request a.appliedThrough) (ht : (s.leaders a.request.leaderID).term = some a.request.term)
    (hall : ∀ e ∈ a.request.entries, (a.request.term, e) ∈ s.follower.stored) :
    Cursor me s.follower.stored { s.leaders a.request.leaderID with
      repl := (s.leaders a.request.leaderID).repl.ackPeer me a.appliedThrough } := by
  obtain ⟨hlog, hseq⟩ := log_ackPeer (s.leaders a.request.leaderID).repl me a.appliedThrough
  have hcount : 0 < a.appliedThrough → ∃ f ∈ a.request.entries, f.seq = a.appliedThrough := fun hpos =>
    hn.resolve_left (by omega)
  refine ⟨h.ordered.ackPeer me _, ?_, fun t ht' e he hle => ?_⟩
  · show _ ≤ ((s.leaders a.request.leaderID).repl.ackPeer me a.appliedThrough).replSeq
    rw [hseq]
    rcases acked_ackPeer me (s.leaders a.request.leaderID) a.appliedThrough with heq | ⟨heq, hpos, -⟩ <;> rw [heq]
    · exact h.bound
    · obtain ⟨f, hf, hfs⟩ := hcount hpos
      rw [← hfs]
      exact h.ordered.bound f (hc.logged ht f hf)
  · cases ht.symm.trans ht'
    replace he : e ∈ ((s.leaders a.request.leaderID).repl.ackPeer me a.appliedThrough).replLog := he
    rw [hlog] at he
    rcases acked_ackPeer me (s.leaders a.request.leaderID) a.appliedThrough with heq | ⟨heq, hpos, -⟩ <;>
      rw [heq] at hle
    · exact h.acked _ ht e he hle
    · obtain ⟨f, hf, hfs⟩ := hcount hpos
      rcases hc.covered ht e he f hf (hfs ▸ hle) with hin | hst
      · exact hall e hin
      · exact hst

/-- A request read from the log of its term has what the log has beyond the cursor. Read from another one, it will never
be counted. -/
theorem Cursors.carries_send (h : Cursors me s) {i : String} {t : Int} (hseed : t ∈ s.seeded) :
    Carries s ⟨i, t, (s.leaders i).repl.entriesForPeer me⟩ where
  seeded := hseed
  logged _ e he := (mem_entriesForPeer.1 he).1
  covered ht e he f _ _ := by
    rw [mem_entriesForPeer]
    exact (lt_or_ge ((s.leaders i).acked me) e.seq).imp (⟨he, ·⟩) ((h.logs i).acked t ht e he)

/-- The logs after an action, and the terms they were seeded for. -/
theorem Cursors.logs_act (h : Cursors me s) {a : Action} (hok : Counted s a) (ha : act me s a = some s') (i : String) :
    Cursor me s'.follower.stored (s'.leaders i) ∧ ∀ t, (s'.leaders i).term = some t → t ∈ s'.seeded := by
  have hev : LogsGrow me s s' := logsGrow_act (fun i => (h.logs i).ordered) ha
  have hkept : s'.leaders i = s.leaders i →
      Cursor me s'.follower.stored (s'.leaders i) ∧ ∀ t, (s'.leaders i).term = some t → t ∈ s'.seeded := by
    intro he
    rw [he]
    exact ⟨(h.logs i).mono hev.stored, fun t ht => hev.seeded t (h.seeded i t ht)⟩
  -- only the node that acts can have a new log or cursor
  have hset : ∀ (j : String) (l : Leader), s'.leaders = Function.update s.leaders j l → Cursor me s'.follower.stored l →
      (∀ t, l.term = some t → t ∈ s'.seeded) →
      Cursor me s'.follower.stored (s'.leaders i) ∧ ∀ t, (s'.leaders i).term = some t → t ∈ s'.seeded := by
    intro j l hl hcur hterm
    by_cases hij : i = j
    · subst hij
      rw [hl, Function.update_self]
      exact ⟨hcur, hterm⟩
    · exact hkept (by rw [hl, Function.update_of_ne hij])
  cases a with
  | put j m | listJobs j term ok =>
    cases ha
    exact hset j _ rfl ((h.logs j).aside rfl rfl) (h.seeded j)
  | listWorkers j k ok =>
    obtain ⟨seedings, rfl⟩ := act_listWorkers ha
    exact hset j _ rfl ((h.logs j).aside rfl rfl) (h.seeded j)
  | seed j k =>
    obtain ⟨t, jobs, workers, _, rfl⟩ := act_seed ha
    refine hset j _ rfl (cursor_seed _ k t jobs workers) ?_
    rintro _ ⟨⟩
    exact List.mem_cons_self ..
  | append j m =>
    cases ha
    exact hset j _ rfl ((h.logs j).append m) (h.seeded j)
  | ack k =>
    obtain ⟨a, hk, rfl⟩ := Option.map_eq_some_iff.1 ha
    obtain ⟨ht, hall⟩ := hok a hk
    obtain ⟨hc, hn⟩ := h.responses a (List.mem_of_getElem? hk)
    exact hset _ _ rfl ((h.logs _).ack hc hn ht hall) (h.seeded a.request.leaderID)
  | deliver k saved =>
    obtain ⟨r, _, rfl⟩ := Option.map_eq_some_iff.1 ha
    exact hkept rfl
  | apply k ok =>
    obtain ⟨r, e, rest, last, _, rfl⟩ := act_apply ha
    exact hkept rfl
  | respond k =>
    obtain ⟨r, last, _, rfl⟩ := act_respond ha
    exact hkept rfl
  | send | elect | restart =>
    cases ha
    exact hkept rfl

/-- The messages and handlers after an action. -/
theorem Cursors.step (h : Cursors me s) {a : Action} (hok : Counted s a) (ha : act me s a = some s') : Cursors me s' := by
  have hev : LogsGrow me s s' := logsGrow_act (fun i => (h.logs i).ordered) ha
  have hlogs := h.logs_act hok ha
  suffices hmail : (∀ r ∈ s'.sent, r ∈ s.sent ∨ Carries s r) ∧
      (∀ d ∈ s'.follower.handlers, Carries s d.request ∧ LastOf d.request d.last ∧ ∀ e ∈ d.todo, e ∈ d.request.entries) ∧
      ∀ a ∈ s'.responses, Carries s a.request ∧ LastOf a.request a.appliedThrough by
    obtain ⟨hsent, hhand, hresp⟩ := hmail
    refine ⟨fun i => (hlogs i).1, fun i => (hlogs i).2, fun r hr => ?_, fun d hd => ?_, fun a ha => ?_⟩
    · exact ((hsent r hr).elim (h.sent r) id).logsGrow hev
    · exact ⟨(hhand d hd).1.logsGrow hev, (hhand d hd).2⟩
    · exact ⟨(hresp a ha).1.logsGrow hev, (hresp a ha).2⟩
  cases a with
  | listWorkers i k ok =>
    obtain ⟨_, rfl⟩ := act_listWorkers ha
    exact ⟨fun _ => .inl, h.handling, h.responses⟩
  | seed i k =>
    obtain ⟨_, _, _, _, rfl⟩ := act_seed ha
    exact ⟨fun _ => .inl, h.handling, h.responses⟩
  | send i t =>
    cases ha
    refine ⟨fun r hr => ?_, h.handling, h.responses⟩
    rcases List.mem_append.1 hr with hr | hr
    · exact .inl hr
    · rw [List.mem_singleton.1 hr]
      exact .inr (h.carries_send hok)
  | deliver k saved =>
    obtain ⟨r, hr, rfl⟩ := Option.map_eq_some_iff.1 ha
    refine ⟨fun r' hr' => .inl (List.mem_of_mem_eraseIdx hr'), fun d hd => ?_, h.responses⟩
    replace hd : d ∈ (s.follower.deliver saved r).handlers := hd
    unfold Follower.deliver at hd
    split at hd
    · rcases List.mem_append.1 hd with hd | hd
      · exact h.handling d hd
      · rw [List.mem_singleton.1 hd]
        exact ⟨h.sent r (List.mem_of_getElem? hr), .inl rfl, fun _ => id⟩
    · exact h.handling d hd
  | apply k ok =>
    obtain ⟨r, e, rest, last, hk, rfl⟩ := act_apply ha
    refine ⟨fun _ => .inl, fun d hd => ?_, h.responses⟩
    rcases List.mem_or_eq_of_mem_set hd with hd | rfl
    · exact h.handling d hd
    · obtain ⟨hc, hn, hsub⟩ := h.handling _ (List.mem_of_getElem? hk)
      exact ⟨hc, lastOf_seen hn (hsub e (List.mem_cons_self ..)), fun e' he' => hsub e' (List.mem_cons_of_mem _ he')⟩
  | respond k =>
    obtain ⟨r, last, hk, rfl⟩ := act_respond ha
    refine ⟨fun _ => .inl, fun d hd => h.handling d (List.mem_of_mem_eraseIdx hd), fun a ha => ?_⟩
    rcases List.mem_append.1 ha with ha | ha
    · exact h.responses a ha
    · rw [List.mem_singleton.1 ha]
      obtain ⟨hc, hn, _⟩ := h.handling _ (List.mem_of_getElem? hk)
      exact ⟨hc, hn⟩
  | ack k =>
    obtain ⟨a, _, rfl⟩ := Option.map_eq_some_iff.1 ha
    exact ⟨fun _ => .inl, h.handling, fun a' ha' => h.responses a' (List.mem_of_mem_eraseIdx ha')⟩
  | restart node =>
    cases ha
    exact ⟨fun _ => .inl, (fun _ hd => nomatch hd), h.responses⟩
  | put | listJobs | append | elect =>
    cases ha
    exact ⟨fun _ => .inl, h.handling, h.responses⟩

/-- The node leads in term 1, and the response is late. Meanwhile the node has lost the lead, another leader has sent it a
job whose id sorts before that of its own, and it leads again in term 3: the old response is counted against the new log. -/
def late : List Action :=
  .put "a" (.upsertJob (jobX .queued)) :: seeding "a" 1 ++
  [.send "a" 1, .deliver 0 true, .apply 0 true, .respond 0, .put "a" (.upsertJob { id := "b" })] ++ seeding "a" 3 ++ [.ack 0]

/-- The follower's write fails, and it reports the entry nevertheless. -/
def failed : List Action :=
  .put "a" (.upsertJob (jobX .queued)) :: seeding "a" 1 ++ [.send "a" 1, .deliver 0 true, .apply 0 false, .respond 0, .ack 0]

end Distsched.Replication
