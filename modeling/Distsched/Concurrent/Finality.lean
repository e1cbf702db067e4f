/-
Handlers that run at the same time: submissions, cancellations, polls, reports, requeued leases and promotions,
interleaved at their store calls and locked sections. A handler that writes a job back from a stale record can
undo a cancellation. If every write finds the job as the handler has read it, no final state is ever replaced.
-/
import Distsched.Concurrent.Handlers
import Distsched.Lifecycle.History

namespace Distsched.Concurrent

open Scheduler Lifecycle Prog

/-- The notes with which a handler begins. -/
def Request.notes : Request → Notes
  | .submitJob job => submission job
  | _ => {}

/-- The pools reached from `c` by steps that meet the guard. -/
abbrev Interleaves (env : Env) (ok : Pool.Guard Op Server Notes) (c c' : Pool Op Op.Resp Server Notes Reply) : Prop :=
  Pool.Reaches (handle env) (bookkeeping false) ok c c'

/-- What a finished handler has seen to: a cancellation that reports success has read or written the job
CANCELED. -/
def Request.Ends : Request → Reply → Notes → Prop
  | .cancelJob x, .canceled (.ok _), g => .canceled ∈ g.ended x
  | _, _, _ => True

theorem keeping_request (cfg : Config) (ps : Cron) (r : Request) :
    Keeping false (r.prog cfg ps) r.notes r.Ends := by
  cases r with
  | submitJob job => exact Meets.bind (keeping_submitJob cfg ps job) fun _ _ _ => trivial
  | cancelJob x =>
    refine Meets.bind (keeping_cancelJob cfg x rfl) fun r g' h => ?_
    cases r with
    | error e => exact trivial
    | ok j => exact h j rfl
  | pollTask w n => exact Meets.bind (keeping_pollTask cfg w n rfl) fun _ _ _ => trivial
  | reportTask τ result error => exact Meets.bind (keeping_reportTask cfg ps τ result error rfl) fun _ _ _ => trivial
  | requeueLease τ reason => exact Meets.bind (keeping_requeueLease ps τ reason rfl) fun _ _ _ => trivial
  | tryPromote x => exact Meets.bind (keeping_tryPromote ps rfl within_univ trivial) fun _ _ _ => trivial

/-! ## Writes that find the job as it was read -/

/-- A job is written only if it is stored as every record the handler has read of it since its own last write of
it, and placed only under an ID that is not stored. -/
def Undisturbed : Pool.Guard Op Server Notes := fun op g _ s => ∀ j, op = .putJob j →
  (∀ j₀ ∈ g.seen j.id, s.store.jobs.get j.id = some j₀) ∧ (g.placing = some j.id → s.store.jobs.get j.id = none)

variable {env : Env} {g : Notes} {gs : List Notes} {s : Server} {j : Job}

/-- Such a write goes to a place that holds no final record. -/
theorem Undisturbed.unfinished (hok : Undisturbed (.putJob j) g gs s) (ha : g.Accounts j) : Unfinished (table s j.id) := by
  obtain ⟨hseen, hplace⟩ := hok j rfl
  intro j' hj'
  rcases ha with ⟨j₀, hj₀, hr, _⟩ | ⟨hp, _⟩
  · cases (hseen j₀ hj₀).symm.trans hj'
    exact hr.not_terminal
  · rw [table, hplace hp] at hj'
    cases hj'

/-- The final states a handler knows of are stored, and the dependency index is as others leave it. -/
structure Knows (g : Notes) (s : Server) : Prop where
  ended : ∀ x st, st ∈ g.ended x → ∃ j, table s x = some j ∧ j.state = st ∧ terminal st = true
  indexed : g.indexed = none

/-- `x` is stored in state `st`. -/
def StoredAs (x : String) (st : JobState) (s : Server) : Prop := ∃ j, table s x = some j ∧ j.state = st

/-- No guarded operation replaces a final record. -/
theorem handle_final {op : Op} (hperm : g.Permits false op) (hok : Undisturbed op g gs s) {x : String} {j' : Job}
    (hx : table s x = some j') (ht : terminal j'.state = true) : table (handle env op s).2 x = some j' := by
  by_cases hop : ∃ j, op = .putJob j
  · obtain ⟨j, rfl⟩ := hop
    have hu : Unfinished (table s j.id) := hok.unfinished hperm.2
    simp only [handle, Server.write]
    split
    · exact hx
    · show (s.store.jobs.put j).get x = some j'
      rw [table_put, Function.update_of_ne]
      · exact hx
      · rintro rfl
        rw [hu j' hx] at ht
        cases ht
  · rw [table_handle fun j hj => hop ⟨j, hj⟩]
    exact hx

theorem Knows.other {g' : Notes} {op : Op} (h : Knows g' s) (hperm : g.Permits false op) (hok : Undisturbed op g gs s) :
    Knows g' (handle env op s).2 where
  ended x st hst := by
    obtain ⟨j, hj, rfl, ht⟩ := h.ended x st hst
    exact ⟨j, handle_final hperm hok hj ht, rfl, ht⟩
  indexed := h.indexed

theorem Knows.own {op : Op} (h : Knows g s) (hperm : g.Permits false op) (hok : Undisturbed op g gs s) :
    Knows (g.next op (handle env op s).1) (handle env op s).2 := by
  have hkept : Knows g (handle env op s).2 := h.other hperm hok
  cases op with
  | getJob id =>
    simp only [handle] at hkept ⊢
    split
    · exact hkept
    · split
      · exact hkept
      · rename_i j hj
        refine ⟨fun x st hst => ?_, hkept.indexed⟩
        rcases hst with hst | ⟨rfl, rfl, ht⟩
        · exact hkept.ended x st hst
        · refine ⟨j, ?_, rfl, ht⟩
          rw [Bucket.get_id hj]
          exact hj
  | listJobs =>
    simp only [handle] at hkept ⊢
    split <;> exact ⟨hkept.ended, hkept.indexed⟩
  | putJob j =>
    simp only [handle, Server.write] at hkept ⊢
    split at hkept
    · exact hkept
    · refine ⟨fun x st hst => ?_, hkept.indexed⟩
      rcases hst with hst | ⟨rfl, rfl, ht⟩
      · exact hkept.ended x st hst
      · refine ⟨j, ?_, rfl, ht⟩
        show (s.store.jobs.put j).get j.id = some j
        rw [table_put, Function.update_self]
  | newID kind =>
    show Knows (if kind = "job" then _ else g) _
    split <;> exact ⟨hkept.ended, hkept.indexed⟩
  | addDeps j => exact ⟨hkept.ended, by show g.indexed.map _ = none; rw [h.indexed]; rfl⟩
  | clearIndex => cases hperm
  | _ => exact hkept

theorem stable_knows (env : Env) {G : Server → Prop}
    (hG : ∀ op g gs s, G s → g.Permits false op → Undisturbed op g gs s → G (handle env op s).2) :
    Pool.Stable (handle env) (bookkeeping false) Undisturbed Knows G where
  answers op g _ s h _ _ _ := answers_handle op fun S hS => by
    rw [h.indexed] at hS
    cases hS
  own _ _ _ _ h _ hperm hok := h.own hperm hok
  other _ _ _ _ _ _ h' _ hperm hok := h'.other hperm hok
  kept op g gs s _ hs hperm hok := hG op g gs s hs hperm hok

/-- Every request has the notes and the end that its handler is entitled to, in any state reached. -/
theorem sound_handlers {ps : Cron} {rs : List Request} {s₀ : Server} {c : Pool Op Op.Resp Server Notes Reply}
    (h : Interleaves env Undisturbed (handlers env.cfg ps Request.notes rs s₀) c) :
    Pool.Sound (bookkeeping false) (fun s gs => True ∧ ∀ g ∈ gs, Knows g s)
      (fun i a g => ∀ r, rs[i]? = some r → r.Ends a g) c := by
  refine Pool.Reaches.sound (stable_knows env fun _ _ _ _ _ _ _ => trivial).inductive_ ⟨⟨trivial, ?_⟩, ?_⟩ h
  · intro g hg
    obtain ⟨r, _, rfl⟩ := Pool.mem_notes_spawn hg
    cases r with
    | submitJob job =>
      cases job with
      | none => exact ⟨fun _ _ h => h.elim, rfl⟩
      | some job =>
        show Knows (if job.id = "" then _ else _) s₀
        split <;> exact ⟨fun _ _ h => h.elim, rfl⟩
    | _ => exact ⟨fun _ _ h => h.elim, rfl⟩
  · intro i t ht
    obtain ⟨r, hr, rfl⟩ := Pool.thread_spawn ht
    refine (keeping_request env.cfg ps r).mono fun a g' h r' hr' => ?_
    cases hr.symm.trans hr'
    exact h

/-- If every write finds the job as its handler has read it, then a job once stored in a final state is stored in that
state ever after; and once a cancellation has reported success, the job is stored CANCELED ever after. -/
theorem no_lost_end {ps : Cron} {rs : List Request} {s₀ : Server} {c c' : Pool Op Op.Resp Server Notes Reply}
    (h : Interleaves env Undisturbed (handlers env.cfg ps Request.notes rs s₀) c) (h' : Interleaves env Undisturbed c c') :
    (∀ (x : String) (j : Job), c.state.store.jobs.get x = some j → terminal j.state = true →
      ∃ j', c'.state.store.jobs.get x = some j' ∧ j'.state = j.state) ∧
    ∀ (i : Nat) (x : String) (j : Job), rs[i]? = some (.cancelJob x) → c.result i = some (.canceled (.ok j)) →
      ∃ j', c'.state.store.jobs.get x = some j' ∧ j'.state = .canceled := by
  have hc := sound_handlers h
  have hstay : ∀ (x : String) (j : Job), table c.state x = some j → terminal j.state = true →
      StoredAs x j.state c'.state := by
    intro x j hj ht
    have hkept : ∀ op g gs s, StoredAs x j.state s → g.Permits false op → Undisturbed op g gs s →
        StoredAs x j.state (handle env op s).2 := by
      rintro op g gs s ⟨j', hj', hs⟩ hperm hok
      exact ⟨j', handle_final hperm hok hj' (by rw [hs]; exact ht), hs⟩
    exact (Pool.Reaches.sound (stable_knows env hkept).inductive_
      ⟨⟨⟨j, hj, rfl⟩, hc.inv.2⟩, hc.threads⟩ h').inv.1
  refine ⟨hstay, fun i x j hi hf => ?_⟩
  obtain ⟨g, hg, hend⟩ := hc.finished hf
  obtain ⟨j', hj', hs, ht⟩ := (hc.inv.2 g hg).ended x _ (hend _ hi)
  obtain ⟨j'', hj'', hs''⟩ := hstay x j' hj' (by rw [hs]; exact ht)
  exact ⟨j'', hj'', hs''.trans hs⟩

/-! ## Handlers one after another -/

/-- A handler that runs alone is undisturbed. -/
theorem undisturbed_alone {α : Type} {Q : α → Notes → Prop} : ∀ {p : M α} {g : Notes} {s : Server}, Keeping false p g Q →
    Faithful env Vacant g s → ∃ g', Pool.Reaches (handle env) (bookkeeping false) Undisturbed ⟨s, [⟨p, g⟩]⟩
      ⟨(exec (handle env) p s).2, [⟨.ret (exec (handle env) p s).1, g'⟩]⟩
  | .ret a, g, s, _, _ => ⟨g, .refl⟩
  | .call op k, g, s, hp, hf => by
    have hperm : g.Permits true op := by
      cases op <;> first | exact hp.1 | rfl
    obtain ⟨hans, hf', _⟩ := (honours env Vacant.unfinished).step op g s hf hperm
    obtain ⟨g', hg'⟩ := undisturbed_alone (hp.2 _ hans) hf'
    refine ⟨g', Pool.Reaches.trans (.step (i := 0) .refl ?_ rfl) hg'⟩
    rintro _ _ _ ⟨⟩ j rfl
    exact ⟨fun j₀ hj₀ => hf.seen _ j₀ hj₀, fun hplace => hf.placing _ hplace⟩

/-! ## Two schedules -/

/-- The notes that `Undisturbed` speaks of, as lists. -/
structure Sheet where
  seen : List Job := []
  placing : Option String := none

/-- The sheet after the answer to an operation. -/
def Sheet.next (g : Sheet) : (op : Op) → op.Resp → Sheet
  | .getJob _, .ok j => { g with seen := j :: g.seen }
  | .listJobs, .ok js => { g with seen := js ++ g.seen }
  | .putJob j, .ok _ => { seen := g.seen.filter (·.id ≠ j.id), placing := none }
  | .newID kind, id => if kind = "job" then { g with placing := some id } else g
  | _, _ => g

def sheets : Protocol Op Op.Resp Sheet where
  permits _ _ := True
  answers _ _ _ := True
  next op r g := g.next op r

/-- Every record in the notes is on the sheet. -/
structure Sheet.Covers (p : Sheet) (g : Notes) : Prop where
  seen : ∀ x j, j ∈ g.seen x → j ∈ p.seen ∧ j.id = x
  placing : g.placing = p.placing

theorem Sheet.Covers.next {p : Sheet} (h : p.Covers g) (op : Op) (r : op.Resp) : (p.next op r).Covers (g.next op r) := by
  cases op with
  | getJob id =>
    cases r with
    | error e => exact h
    | ok j =>
      refine ⟨fun x j' hj' => ?_, h.placing⟩
      have hold : ∀ {y}, j' ∈ g.seen y → j' ∈ j :: p.seen ∧ j'.id = y := fun hy =>
        ⟨List.mem_cons_of_mem _ (h.seen _ _ hy).1, (h.seen _ _ hy).2⟩
      by_cases hx : x = j.id
      · subst hx
        have hmem : j' ∈ insert j (g.seen j.id) := by simpa [Notes.next, Notes.read] using hj'
        rcases hmem with rfl | hmem
        · exact ⟨List.mem_cons_self, rfl⟩
        · exact hold hmem
      · refine hold ?_
        simpa [Notes.next, Notes.read, Function.update_of_ne hx] using hj'
  | listJobs =>
    cases r with
    | error e => exact h
    | ok js =>
      refine ⟨fun x j' hj' => ?_, h.placing⟩
      rcases hj' with hj' | ⟨hj', hx⟩
      · exact ⟨List.mem_append_right _ (h.seen _ _ hj').1, (h.seen _ _ hj').2⟩
      · exact ⟨List.mem_append_left _ hj', hx⟩
  | putJob j =>
    cases r with
    | error e => exact h
    | ok u =>
      refine ⟨fun x j' hj' => ?_, rfl⟩
      by_cases hx : x = j.id
      · subst hx
        simp [Notes.next, Notes.wrote] at hj'
      · have hseen : j' ∈ g.seen x := by simpa [Notes.next, Notes.wrote, Function.update_of_ne hx] using hj'
        obtain ⟨hmem, hid⟩ := h.seen _ _ hseen
        exact ⟨List.mem_filter.2 ⟨hmem, decide_eq_true (hid ▸ hx)⟩, hid⟩
  | newID kind =>
    show Sheet.Covers (if kind = "job" then _ else p) (if kind = "job" then _ else g)
    split
    · exact ⟨h.seen, rfl⟩
    · exact h
  | _ => exact ⟨h.seen, h.placing⟩

/-- Whether an operation meets `Undisturbed`, by the sheet of its handler. -/
def undisturbed (op : Op) (p : Sheet) (_ : List Sheet) (s : Server) : Bool :=
  match op with
  | .putJob j => p.seen.all (fun j₀ => j₀.id ≠ j.id || s.store.jobs.get j.id = some j₀) &&
      (p.placing ≠ some j.id || (s.store.jobs.get j.id).isNone)
  | _ => true

theorem undisturbed_sound (op : Op) (p : Sheet) (ps : List Sheet) (g : Notes) (gs : List Notes) (s : Server)
    (hp : p.Covers g) (h : undisturbed op p ps s = true) : Undisturbed op g gs s := by
  rintro j rfl
  obtain ⟨hseen, hplace⟩ := Bool.and_eq_true_iff.1 h
  constructor
  · intro j₀ hj₀
    obtain ⟨hmem, hid⟩ := hp.seen _ _ hj₀
    simpa [hid] using List.all_eq_true.1 hseen j₀ hmem
  · intro hpl
    rw [hp.placing] at hpl
    simpa [hpl] using hplace

/-- The sheet a handler begins with. -/
def Request.sheet : Request → Sheet
  | .submitJob (some job) => { placing := if job.id = "" then none else some job.id }
  | _ => {}

theorem Request.sheet_covers (r : Request) : r.sheet.Covers r.notes := by
  cases r with
  | submitJob job =>
    cases job with
    | none => exact ⟨fun _ _ h => h.elim, rfl⟩
    | some job =>
      show Sheet.Covers { placing := if job.id = "" then none else some job.id } (if job.id = "" then _ else _)
      split <;> exact ⟨fun _ _ h => h.elim, rfl⟩
  | _ => exact ⟨fun _ _ h => h.elim, rfl⟩

/-- A worker has registered and jobs are QUEUED. -/
def queued (ids : List String) : Server :=
  (Call.registerWorker (some { id := "w" }) :: ids.map fun id => submitting id []).foldl (after .steady noCron)
    (started .steady noCron .empty leading)

/-- The job in the reply of a cancellation that reports success. -/
def Reply.canceledJob : Reply → Option Job
  | .canceled (.ok j) => some j
  | _ => none

theorem Reply.eq_canceled {r : Reply} {j : Job} (h : r.canceledJob = some j) : r = .canceled (.ok j) := by
  unfold canceledJob at h
  split at h
  · cases h
    rfl
  · cases h

/-- A poll has taken "a" from the queue when the whole cancellation of "a" comes in between. It then reads "a" CANCELED,
passes it over, and leases "b". -/
theorem no_lost_end_canceled : ∃ c c', Interleaves .steady Undisturbed
      (handlers {} noCron Request.notes [.cancelJob "a", .pollTask "w" 2] (queued ["a", "b"])) c ∧
    Interleaves .steady Undisturbed c c' ∧ (∃ j, c.result 0 = some (.canceled (.ok j))) ∧
    (c.state.store.jobs.get "b").map Job.state = some .queued ∧ (c'.state.store.jobs.get "b").map Job.state = some .running ∧
    ∃ j', c'.state.store.jobs.get "a" = some j' ∧ j'.state = .canceled := by
  let start := handlers {} noCron Request.sheet [.cancelJob "a", .pollTask "w" 2] (queued ["a", "b"])
  have hfirst : (start.run (handle .steady) sheets undisturbed (List.replicate 5 1 ++ List.replicate 12 0)).map
      (fun c => (((c.result 0).bind Reply.canceledJob).isSome, (c.state.store.jobs.get "b").map Job.state)) =
      some (true, some .queued) := by decide +kernel
  have hthen : ((start.run (handle .steady) sheets undisturbed (List.replicate 5 1 ++ List.replicate 12 0)).bind
      fun c => c.run (handle .steady) sheets undisturbed (List.replicate 8 1)).map
      (fun c => (c.state.store.jobs.get "b").map Job.state) = some (some .running) := by decide +kernel
  obtain ⟨c₁, hc₁, hout⟩ := Option.map_eq_some_iff.1 hfirst
  obtain ⟨c₂, hc₂, hrun⟩ := Option.map_eq_some_iff.1 hthen
  rw [hc₁] at hc₂
  obtain ⟨hreply, hqueued⟩ := Prod.mk.inj hout
  obtain ⟨j, hj⟩ := Option.isSome_iff_exists.1 hreply
  obtain ⟨r, hr, hj⟩ := Option.bind_eq_some_iff.1 hj
  rw [Reply.eq_canceled hj] at hr
  have hstart : Pool.Alike Sheet.Covers start
      (handlers {} noCron Request.notes [.cancelJob "a", .pollTask "w" 2] (queued ["a", "b"])) :=
    Pool.Alike.spawn _ Request.sheet_covers _ _
  have hnext : ∀ op r p g, Sheet.Covers p g → Sheet.Covers (sheets.next op r p) ((bookkeeping false).next op r g) :=
    fun op r _ _ h => h.next op r
  obtain ⟨c, hreach, hc⟩ := Pool.reaches_of_shadow hnext undisturbed_sound hc₁ hstart
  obtain ⟨c', hreach', hc'⟩ := Pool.reaches_of_shadow hnext undisturbed_sound hc₂ hc
  refine ⟨c, c', hreach, hreach', ⟨j, hc.result hr⟩, ?_, ?_, ?_⟩
  · rw [hc.state, hqueued]
  · rw [hc'.state, hrun]
  · exact (no_lost_end hreach hreach').2 0 "a" j rfl (hc.result hr)

/-- A poll that has read the job QUEUED writes it RUNNING after a cancellation has reported success. -/
theorem cancellation_lost : ∃ c c', Interleaves .steady Pool.free
      (handlers {} noCron Request.notes [.cancelJob "a", .pollTask "w" 1] (queued ["a"])) c ∧ Interleaves .steady Pool.free c c' ∧
    (∃ j, c.result 0 = some (.canceled (.ok j))) ∧ (c.state.store.jobs.get "a").map Job.state = some .canceled ∧
    (c'.state.store.jobs.get "a").map Job.state = some .running := by
  let start := handlers {} noCron Request.notes [.cancelJob "a", .pollTask "w" 1] (queued ["a"])
  let always : Op → Notes → List Notes → Server → Bool := fun _ _ _ _ => true
  have htest : ∀ op g gs s, always op g gs s = true → Pool.free op g gs s := fun _ _ _ _ _ => trivial
  -- the poll up to its write, the whole cancellation, then the write of the poll
  have hfirst : (start.run (handle .steady) (bookkeeping false) always (List.replicate 7 1 ++ List.replicate 12 0)).map
      (fun c => ((c.state.store.jobs.get "a").map Job.state, ((c.result 0).bind Reply.canceledJob).isSome)) =
      some (some .canceled, true) := by decide +kernel
  have hthen : ((start.run (handle .steady) (bookkeeping false) always (List.replicate 7 1 ++ List.replicate 12 0)).bind
      fun c => c.run (handle .steady) (bookkeeping false) always [1]).map (fun c => (c.state.store.jobs.get "a").map Job.state) =
      some (some .running) := by decide +kernel
  obtain ⟨c, hc, hout⟩ := Option.map_eq_some_iff.1 hfirst
  obtain ⟨c', hc', hrun⟩ := Option.map_eq_some_iff.1 hthen
  rw [hc] at hc'
  obtain ⟨j, hj⟩ := Option.isSome_iff_exists.1 (congrArg Prod.snd hout)
  obtain ⟨r, hr, hj⟩ := Option.bind_eq_some_iff.1 hj
  refine ⟨c, c', Pool.reaches_of_run htest hc, Pool.reaches_of_run htest hc', ⟨j, ?_⟩, congrArg Prod.fst hout, hrun⟩
  rw [hr, Reply.eq_canceled hj]

end Distsched.Concurrent
