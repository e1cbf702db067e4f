/-
What callers learn from the answers of a node, whatever happens between the steps of the call: where the leader is
(`GetClusterStatus`, `cluster.go`, which every node answers), under which ID a worker is registered, and how many tasks a
poll hands out.
-/
import Distsched.Scheduler.Handlers
import Mathlib.Data.List.Dedup

namespace Distsched.Scheduler

open Prog

/-! ## The status of the cluster -/

inductive SchedulerRole
  | follower
  | leader
  deriving DecidableEq

structure SchedulerNode where
  id : String
  address : String
  role : SchedulerRole
  deriving DecidableEq

structure ClusterStatus where
  /-- the holder of the lease -/
  holderId : String
  term : Int
  schedulers : List SchedulerNode
  workers : List WorkerInfo

/-- The entries of the map from the ID of a member to its address, of which the last one counts that names the ID. -/
def Config.memberMap (cfg : Config) : List (String × String) :=
  (cfg.members.map Prod.fst).dedup.filterMap fun id => (cfg.members.reverse.lookup id).map fun addr => (id, addr)

/-- The members come in the order in which the map yields them; the term is that of the node when it is read, after the
leader. -/
def getClusterStatus (cfg : Config) (order : List (String × String) → List (String × String)) (term : Int) :
    M (Except Status ClusterStatus) := do
  let leaderID ← act .leaderID
  let nodes := (order cfg.memberMap).map fun m => ⟨m.1, m.2, if m.1 = leaderID then .leader else .follower⟩
  match ← act .listWorkers with
  | .error e => pure (.error ⟨.internal, "list workers: " ++ e⟩)
  | .ok workers => pure (.ok ⟨leaderID, term, nodes, workers⟩)

theorem mem_memberMap {cfg : Config} {m : String × String} (h : m ∈ cfg.memberMap) :
    cfg.members.reverse.lookup m.1 = some m.2 := by
  obtain ⟨id, -, hid⟩ := List.mem_filterMap.1 h
  obtain ⟨addr, haddr, rfl⟩ := Option.map_eq_some_iff.1 hid
  exact haddr

/-- The schedulers of a status are members at the addresses they are configured with, whatever happens between the reads of
the call. -/
theorem getClusterStatus_members {env : Env} {cfg : Config} {order : List (String × String) → List (String × String)}
    (horder : ∀ l, (order l).Perm l) {term : Int} {st : ClusterStatus}
    (h : Yields (handle env) (getClusterStatus cfg order term) (.ok st)) :
    ∀ n ∈ st.schedulers, cfg.members.reverse.lookup n.id = some n.address := by
  have hmeets : Meets ⟨fun _ (_ : Unit) => True, fun _ _ _ => True, fun _ _ _ => ()⟩ (getClusterStatus cfg order term) ()
      fun r _ => ∀ st, r = .ok st → ∀ n ∈ st.schedulers, cfg.members.reverse.lookup n.id = some n.address := by
    refine ⟨trivial, fun leaderID _ => ⟨trivial, fun r _ => ?_⟩⟩
    cases r with
    | error e => exact fun st hst => (by cases hst)
    | ok workers =>
      intro st hst n hn
      cases hst
      obtain ⟨m, hm, rfl⟩ := List.mem_map.1 hn
      exact mem_memberMap ((horder _).mem_iff.1 hm)
  obtain ⟨-, hst⟩ := h.meets (fun _ _ _ _ => trivial) hmeets
  exact hst st rfl

/-- What is known of the answers when nothing is known of the states: a new ID starts with its kind. -/
def naming : Protocol Op Op.Resp Unit where
  permits _ _ := True
  answers
    | .newID kind, r, _ => ∃ u, r = kind ++ "-" ++ u
    | _, _, _ => True
  next _ _ _ := ()

theorem naming_answers (env : Env) (op : Op) (s : Server) : naming.answers op (handle env op s).1 () := by
  cases op
  case newID kind => exact ⟨_, rfl⟩
  all_goals trivial

theorem naming_any {α : Type} : ∀ p : M α, Meets naming p () fun _ _ => True
  | .ret _ => trivial
  | .call _ k => ⟨trivial, fun r _ => naming_any (k r)⟩

theorem naming_meets (op : Op) : Meets naming (act op) () fun r _ => naming.answers op r () :=
  ⟨trivial, fun _ hr => hr⟩

/-- A registration answers with the ID that it was given, or with a new one that is not empty, whatever happens between its
steps. -/
theorem registerWorker_id {env : Env} {cfg : Config} {w : WorkerInfo} {r : String × String}
    (h : Yields (handle env) (registerWorker cfg (some w)) (.ok r)) : r.1 ≠ "" ∧ (w.id ≠ "" → r.1 = w.id) := by
  have hid : Meets naming (workerIDFor w) () fun id _ => id ≠ "" ∧ (w.id ≠ "" → id = w.id) := by
    unfold workerIDFor
    split
    · rename_i hempty
      refine (naming_meets (.newID "worker")).mono ?_
      rintro id _ ⟨u, rfl⟩
      refine ⟨?_, fun hne => absurd hempty hne⟩
      simp
    · rename_i hne
      exact ⟨hne, fun _ => rfl⟩
  have hmeets : Meets naming (registerWorker cfg (some w)) () fun r _ =>
      ∀ p, r = .ok p → p.1 ≠ "" ∧ (w.id ≠ "" → p.1 = w.id) := by
    refine (naming_any (requireLeader cfg)).bind fun e _ _ => ?_
    cases e with
    | some e => exact fun p hp => (by cases hp)
    | none =>
      refine hid.bind fun id _ hid => (naming_any timeNow).bind fun now _ _ => (naming_any (putWorker _)).bind fun r _ _ => ?_
      cases r with
      | error e => exact fun p hp => (by cases hp)
      | ok u =>
        intro p hp
        cases hp
        exact hid
  obtain ⟨-, hr⟩ := h.meets (fun op s _ _ => naming_answers env op s) hmeets
  exact hr r rfl

/-- A poll hands out no more tasks than its batch size, whatever happens between its steps. -/
theorem meets_pollLoop_length (cfg : Config) (w : String) (now : Int) (n : Nat) :
    ∀ (fuel : Nat) (out : List TaskAssignment), out.length ≤ n →
      Meets naming (pollLoop cfg w now n fuel out) () fun out' _ => out'.length ≤ n
  | 0, _, h => h
  | fuel + 1, out, h => by
    unfold pollLoop
    split
    · rename_i hlt
      refine (naming_any Queue.pop).bind fun r _ _ => ?_
      cases r with
      | none => exact h
      | some x =>
        refine (naming_any (Db.getJob x)).bind fun r _ _ => ?_
        cases r with
        | error e => exact meets_pollLoop_length cfg w now n fuel out h
        | ok job =>
          dsimp only
          split
          · exact meets_pollLoop_length cfg w now n fuel out h
          · refine (naming_any (newID "task")).bind fun τ _ _ => (naming_any (putJob _)).bind fun r _ _ => ?_
            cases r with
            | error e => exact (naming_any (Queue.push _ _ _)).bind fun _ _ _ => h
            | ok u =>
              refine (naming_any (addLease _)).bind fun _ _ _ => meets_pollLoop_length cfg w now n fuel _ ?_
              rw [List.length_append]
              exact hlt
    · exact h

theorem pollTask_batch {env : Env} {cfg : Config} {w : String} {maxTasks : Int} {out : List TaskAssignment}
    (h : Yields (handle env) (pollTask cfg w maxTasks) (.ok out)) : out.length ≤ batchSize maxTasks := by
  have hmeets : Meets naming (pollTask cfg w maxTasks) () fun r _ => ∀ out, r = .ok out → out.length ≤ batchSize maxTasks := by
    refine (naming_any (requireLeader cfg)).bind fun e _ _ => ?_
    cases e with
    | some e => exact fun out hout => (by cases hout)
    | none =>
      refine (naming_any (act (.getCached w))).bind fun r _ _ => ?_
      cases r with
      | none => exact fun out hout => (by cases hout)
      | some i =>
        refine (naming_any timeNow).bind fun now _ _ => (naming_any (act .queueBound)).bind fun bound _ _ => ?_
        refine (meets_pollLoop_length cfg w now.ns _ _ [] (Nat.zero_le _)).bind fun out _ hlen => ?_
        intro out' hout
        cases hout
        exact hlen
  obtain ⟨-, hout⟩ := h.meets (fun op s _ _ => naming_answers env op s) hmeets
  exact hout out rfl

end Distsched.Scheduler
