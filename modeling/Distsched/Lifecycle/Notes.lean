/-
What a handler knows while it runs. A handler keeps notes on the jobs it has read and on what it may
place, and `bookkeeping` is the protocol under which it writes: a stored job is revised only from the
record read, promoted only after its dependencies were all read SUCCEEDED, and placed only by the
submission it belongs to. The handlers are proved to meet the protocol once, whatever the store answers,
so the result serves runs with store failures, with crashes, and with other handlers in between.
-/
import Distsched.Lifecycle.Writes
import Distsched.Scheduler.Silent

namespace Distsched.Lifecycle

open Scheduler Prog

/-! ## Notes -/

structure Notes where
  /-- The records read of each job since the handler's own last write of it. -/
  seen : String → Set Job := fun _ => ∅
  /-- The final states in which a job was read or written. -/
  ended : String → Set JobState := fun _ => ∅
  /-- The jobs whose last record was written RUNNING by this handler. -/
  ran : Set String := ∅
  /-- The jobs registered in the dependency index since it was cleared, if it was. -/
  indexed : Option (Set String) := none
  /-- The ID a submission may place. -/
  placing : Option String := none
  /-- A submission is yet to draw its ID. -/
  drawing : Bool := false

namespace Notes

/-- The final states known once the record has been read or written. -/
def endedBy (g : Notes) (j : Job) (x : String) : Set JobState :=
  g.ended x ∪ { st | x = j.id ∧ st = j.state ∧ terminal st = true }

def read (g : Notes) (j : Job) : Notes :=
  { g with
    seen := Function.update g.seen j.id (insert j (g.seen j.id))
    ended := g.endedBy j }

def listed (g : Notes) (js : List Job) : Notes :=
  { g with seen := fun x => g.seen x ∪ { j | j ∈ js ∧ j.id = x } }

def wrote (g : Notes) (j : Job) : Notes :=
  { g with
    seen := Function.update g.seen j.id ∅
    ended := g.endedBy j
    ran := if j.state = .running then insert j.id g.ran else g.ran \ {j.id}
    placing := none }

/-- The notes after the answer to an operation. -/
def next (g : Notes) : (op : Op) → op.Resp → Notes
  | .getJob _, .ok j => g.read j
  | .listJobs, .ok js => g.listed js
  | .putJob j, .ok _ => g.wrote j
  | .newID kind, id => if kind = "job" then { g with placing := some id, drawing := false } else g
  | .clearIndex, _ => { g with indexed := some ∅ }
  | .addDeps j, _ => { g with indexed := g.indexed.map (insert j.id) }
  | _, _ => g

/-- Every dependency of the job was read SUCCEEDED. -/
def Satisfied (g : Notes) (j : Job) : Prop := ∀ d ∈ j.dependsOn, .succeeded ∈ g.ended d

/-- A write the notes account for. -/
def Accounts (g : Notes) (j : Job) : Prop :=
  (∃ j₀ ∈ g.seen j.id, Revision j₀ j ∧ (j₀.state = .pending → j.state = .queued → g.Satisfied j)) ∨
    (g.placing = some j.id ∧ j.attempt = 0 ∧
      (j.state = .pending ∨ j.state = .canceled ∨ (j.state = .queued ∧ g.Satisfied j)))

def Permits (alone : Bool) (g : Notes) : Op → Prop
  | .putJob j => g.drawing = false ∧ g.Accounts j
  | .newID kind => kind = "job" ↔ g.drawing = true
  | .clearIndex => alone = true
  | _ => True

def Answers (g : Notes) : (op : Op) → op.Resp → Prop
  | .getJob id, .ok j => j.id = id
  | .listJobs, .ok js => (js.map Job.id).Nodup
  | .dependentsOf _, xs => ∀ S, g.indexed = some S → ∀ x ∈ xs, x ∈ S
  | _, _ => True

end Notes

/-- The protocol of the handlers. A handler that runs `alone` may also clear the dependency index. -/
def bookkeeping (alone : Bool) : Protocol Op Op.Resp Notes where
  permits op g := g.Permits alone op
  answers op r g := g.Answers op r
  next op r g := g.next op r

/-- `p`, begun with notes `g`, meets the protocol and ends with a result and notes satisfying `Q`. -/
abbrev Keeping {α : Type} (alone : Bool) (p : M α) (g : Notes) (Q : α → Notes → Prop) : Prop :=
  Meets (bookkeeping alone) p g Q

/-- The operations a handler takes no note of. -/
def Unnoted : Op → Prop
  | .getJob _ | .putJob _ | .listJobs | .newID _ | .clearIndex | .addDeps _ | .dependentsOf _ => False
  | _ => True

variable {alone : Bool} {g : Notes}

theorem silent_unnoted {op : Op} (h : Unnoted op) : Prog.Silent (bookkeeping alone) op := by
  cases op <;> first | exact h.elim | exact fun _ => ⟨trivial, fun _ _ => rfl⟩

theorem keeping_unnoted (op : Op) (h : Unnoted op) : Keeping alone (act op) g fun _ g' => g' = g :=
  (silent_unnoted h).meets g

/-! ## Records in hand -/

/-- Between `g` and `g'` the records read stay in hand, except those of jobs in `S`. -/
structure InHand (S : Set String) (g g' : Notes) : Prop where
  seen : ∀ x, x ∉ S → g.seen x ⊆ g'.seen x
  ended : ∀ x, g.ended x ⊆ g'.ended x
  indexed : g'.indexed = g.indexed
  drawing : g'.drawing = g.drawing

namespace InHand

variable {S : Set String} {g g' g'' : Notes}

theorem refl : InHand S g g := ⟨fun _ _ => subset_rfl, fun _ => subset_rfl, rfl, rfl⟩

theorem of_eq (h : g' = g) : InHand S g g' := h ▸ refl

theorem trans (h : InHand S g g') (h' : InHand S g' g'') : InHand S g g'' where
  seen x hx := (h.seen x hx).trans (h'.seen x hx)
  ended x := (h.ended x).trans (h'.ended x)
  indexed := h'.indexed.trans h.indexed
  drawing := h'.drawing.trans h.drawing

end InHand

namespace Notes

theorem inHand_read (j : Job) {S : Set String} : InHand S g (g.read j) := by
  refine ⟨fun x _ j' hj' => ?_, fun x => Set.subset_union_left, rfl, rfl⟩
  show j' ∈ Function.update g.seen j.id (insert j (g.seen j.id)) x
  rw [Function.update_apply]
  split
  · rename_i he
    exact Set.mem_insert_of_mem _ (he ▸ hj')
  · exact hj'

theorem inHand_wrote {S : Set String} {j : Job} (hx : j.id ∈ S) : InHand S g (g.wrote j) := by
  refine ⟨fun x hxS => ?_, fun x => Set.subset_union_left, rfl, rfl⟩
  have hne : x ≠ j.id := by
    rintro rfl
    exact hxS hx
  show g.seen x ⊆ Function.update g.seen j.id ∅ x
  rw [Function.update_of_ne hne]

/-- After a write, or an attempt at one. -/
theorem inHand_put {S : Set String} {j : Job} (hx : j.id ∈ S) (r : Except String Unit) :
    InHand S g (g.next (.putJob j) r) := by
  cases r with
  | error e => exact .refl
  | ok u => exact inHand_wrote hx

theorem seen_read (j : Job) : j ∈ (g.read j).seen j.id := by
  show j ∈ Function.update g.seen j.id (insert j (g.seen j.id)) j.id
  rw [Function.update_self]
  exact Set.mem_insert _ _

theorem mem_endedBy {j : Job} (h : terminal j.state = true) : j.state ∈ g.endedBy j j.id := .inr ⟨rfl, rfl, h⟩

/-- A revision of a record in hand. -/
theorem accounts_revision {j₀ j : Job} (hj : j₀ ∈ g.seen j₀.id) (hr : Revision j₀ j)
    (hm : j₀.state = .pending → j.state = .queued → g.Satisfied j) : g.Accounts j :=
  .inl ⟨j₀, hr.id_eq ▸ hj, hr, hm⟩

end Notes

/-! ## Reading and writing -/

section

variable {S : Set String} {j : Job}

theorem keeping_getJob (id : String) : Keeping alone (Db.getJob id) g fun r g' =>
    g' = g.next (.getJob id) r ∧ ∀ j, r = .ok j → j.id = id := by
  refine ⟨trivial, fun r hr => ⟨rfl, ?_⟩⟩
  rintro j rfl
  exact hr

/-- A write the notes account for, with its replication. -/
theorem keeping_putJob (hd : g.drawing = false) (ha : g.Accounts j) :
    Keeping alone (putJob j) g fun r g' => g' = g.next (.putJob j) r := by
  have hput : Keeping alone (Db.putJob j) g fun r g' => g' = g.next (.putJob j) r := ⟨⟨hd, ha⟩, fun _ _ => rfl⟩
  refine hput.bind ?_
  rintro r _ rfl
  cases r with
  | error e => exact rfl
  | ok u =>
    refine (meets_appendRepl _ (silent_unnoted trivial) (silent_unnoted trivial)).bind ?_
    rintro _ _ rfl
    exact rfl

/-- Reading a job loses nothing. -/
theorem keeping_enqueueJob (x : String) : Keeping alone (enqueueJob x) g fun _ g' => InHand S g g' := by
  refine Meets.bind (keeping_unnoted .isClosed trivial) ?_
  rintro closed g rfl
  cases closed with
  | true => exact InHand.refl
  | false =>
    refine Meets.bind (keeping_unnoted .isLeader trivial) ?_
    rintro leads g rfl
    cases leads with
    | false => exact InHand.refl
    | true =>
      refine (keeping_getJob x).bind ?_
      rintro r _ ⟨rfl, -⟩
      cases r with
      | error e => exact InHand.refl
      | ok j =>
        dsimp only
        split
        · exact Notes.inHand_read j
        · exact (keeping_unnoted (.push ..) trivial).bind fun _ _ hg => hg ▸ Notes.inHand_read j

theorem keeping_armEnqueue (x : String) (delay : Int) :
    Keeping alone (armEnqueue x delay) g fun _ g' => InHand S g g' := by
  unfold armEnqueue
  split
  · exact keeping_enqueueJob x
  · exact (keeping_unnoted (.startTimer ..) trivial).mono fun _ _ => InHand.of_eq

/-- The dependencies found satisfied were all read SUCCEEDED. -/
theorem keeping_depsSatisfied : ∀ (deps : List String) (g : Notes), Keeping alone (depsSatisfied deps) g fun r g' =>
    InHand S g g' ∧ g'.placing = g.placing ∧ (r.1 = true → ∀ d ∈ deps, .succeeded ∈ g'.ended d)
  | [], g => ⟨.refl, rfl, fun _ _ h => nomatch h⟩
  | d :: rest, g => by
    refine (keeping_getJob d).bind ?_
    rintro r _ ⟨rfl, hid⟩
    cases r with
    | error e => exact ⟨.refl, rfl, fun h => nomatch h⟩
    | ok dep =>
      have hread : InHand S g (g.read dep) := Notes.inHand_read dep
      dsimp only
      cases hs : dep.state
      case succeeded =>
        refine (keeping_depsSatisfied rest (g.read dep)).mono ?_
        rintro r g' ⟨hg', hp, hrest⟩
        refine ⟨hread.trans hg', hp, fun hr d' hd' => ?_⟩
        rcases List.mem_cons.1 hd' with rfl | hd'
        · have hended : dep.state ∈ g.endedBy dep dep.id := Notes.mem_endedBy (by rw [hs]; rfl)
          rw [hs, hid dep rfl] at hended
          exact hg'.ended d' hended
        · exact hrest hr d' hd'
      all_goals exact ⟨hread, rfl, fun h => nomatch h⟩

end

end Distsched.Lifecycle
