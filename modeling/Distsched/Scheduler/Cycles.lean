/-
The cycle check of a submission is exact: the depth-first search from a job meets a node on its own path if and only if a
cycle of the graph can be reached from the job, whatever the graph.

The path of a search is a path of the graph, so an edge back to it closes a cycle. Conversely, a node is left when all its
edges lead to nodes left before it; so no edge leads out of the nodes left so far, and none of them is on a cycle.
-/
import Distsched.Lib.Acyclic
import Distsched.Scheduler.Deps
import Mathlib.Data.List.Perm.Subperm

namespace Distsched.Scheduler

open Relation (ReflTransGen TransGen)

variable {graph : String → List String} {sources : List String}

/-- The edges of a graph given by its adjacency lists. -/
def Edge (graph : String → List String) (x d : String) : Prop := d ∈ graph x

/-! ## Folds that may fail -/

/-- An invariant of a fold that may fail, indexed by the part of the list already done. -/
theorem foldlM_invariant {α β : Type} {f : β → α → Option β} (I : List α → β → Prop) {l : List α}
    (hf : ∀ done a b b', a ∈ l → I done b → f b a = some b' → I (done ++ [a]) b') {b b' : β} (hi : I [] b)
    (h : l.foldlM f b = some b') : I l b' := by
  suffices ∀ (r done : List α) (b : β), (∀ a ∈ r, a ∈ l) → I done b → r.foldlM f b = some b' → I (done ++ r) b' from
    this l [] b (fun _ ha => ha) hi h
  intro r
  induction r with
  | nil =>
    intro done b _ hi h
    cases h
    rwa [List.append_nil]
  | cons a r ih =>
    intro done b hr hi h
    rw [List.foldlM_cons] at h
    obtain ⟨b₁, h₁, h₂⟩ := Option.bind_eq_some_iff.1 h
    have := ih (done ++ [a]) b₁ (fun e he => hr e (List.mem_cons_of_mem _ he))
      (hf done a b b₁ (hr a (List.mem_cons_self ..)) hi h₁) h₂
    rwa [List.append_assoc] at this

theorem exists_of_foldlM_none {α β : Type} {f : β → α → Option β} : ∀ {l : List α} {b : β}, l.foldlM f b = none →
    ∃ a ∈ l, ∃ b', f b' a = none
  | [], _, h => nomatch h
  | a :: l, b, h => by
    rw [List.foldlM_cons] at h
    cases hf : f b a with
    | none => exact ⟨a, List.mem_cons_self, b, hf⟩
    | some b' =>
      rw [hf] at h
      obtain ⟨a', ha', hnone⟩ := exists_of_foldlM_none (l := l) h
      exact ⟨a', List.mem_cons_of_mem _ ha', hnone⟩

theorem foldlM_congr {α β : Type} {f f' : β → α → Option β} : ∀ {l : List α}, (∀ a ∈ l, ∀ b, f b a = f' b a) →
    ∀ b, l.foldlM f b = l.foldlM f' b
  | [], _, _ => rfl
  | a :: l, h, b => by
    rw [List.foldlM_cons, List.foldlM_cons, h a List.mem_cons_self b]
    congr 1
    funext b'
    exact foldlM_congr (fun a' ha' => h a' (List.mem_cons_of_mem _ ha')) b'

/-! ## The search -/

/-- A path of distinct nodes with edges is no longer than the fuel allows. -/
theorem depth_bounded {stack : List String} {n : String} (hn : (n :: stack).Nodup) (hs : ∀ r ∈ stack, r ∈ sources) :
    stack.length ≤ sources.length := ((List.nodup_cons.1 hn).2.subperm hs).length_le

/-- The search from `n` with the nodes of `stack` on its path has the same outcome with any more fuel. -/
theorem dfs_succ (hsrc : ∀ m, graph m ≠ [] → m ∈ sources) :
    ∀ (fuel : Nat) (stack : List String) (n : String) (visited : List String), (n :: stack).Nodup →
      (∀ r ∈ stack, r ∈ sources) → sources.length < fuel + stack.length →
      dfs graph (fuel + 1) stack n visited = dfs graph fuel stack n visited
  | 0, stack, n, visited, hn, hs, hfuel => by
    have := depth_bounded hn hs
    omega
  | fuel + 1, stack, n, visited, hn, hs, hfuel => by
    show (graph n).foldlM _ _ = (graph n).foldlM _ _
    refine foldlM_congr (fun d hd v => ?_) _
    split
    · rfl
    · rename_i hpath
      have hs' : ∀ r ∈ n :: stack, r ∈ sources := List.forall_mem_cons.2 ⟨hsrc n (List.ne_nil_of_mem hd), hs⟩
      rw [dfs_succ hsrc fuel (n :: stack) d v (List.nodup_cons.2 ⟨hpath, hn⟩) hs' (by rw [List.length_cons]; omega)]

theorem dfs_fuel (hsrc : ∀ m, graph m ≠ [] → m ∈ sources) {fuel : Nat} (hfuel : sources.length < fuel) (n : String) :
    dfs graph fuel [] n [] = dfs graph (sources.length + 1) [] n [] := by
  induction fuel, hfuel using Nat.le_induction with
  | base => rfl
  | succ fuel hle ih => rw [← ih, dfs_succ hsrc fuel [] n [] (List.nodup_singleton n) (by simp) hle]

/-- A search that fails has found an edge back to its path, and so a cycle. -/
theorem cyclic_of_dfs : ∀ (fuel : Nat) (stack : List String) (n : String) (visited : List String),
    (∀ r ∈ stack, ReflTransGen (Edge graph) r n) → dfs graph fuel stack n visited = none →
      ∃ x, ReflTransGen (Edge graph) n x ∧ TransGen (Edge graph) x x
  | 0, _, _, _, _, h => nomatch h
  | fuel + 1, stack, n, visited, hstack, h => by
    obtain ⟨d, hd, v, hnone⟩ := exists_of_foldlM_none h
    have hedge : Edge graph n d := hd
    split at hnone
    · rename_i hpath
      refine ⟨n, .refl, ?_⟩
      rcases List.mem_cons.1 hpath with rfl | hpath
      · exact .single hedge
      · exact .head' hedge (hstack d hpath)
    · split at hnone
      · cases hnone
      · have hpath : ∀ r ∈ n :: stack, ReflTransGen (Edge graph) r d :=
          List.forall_mem_cons.2 ⟨.single hedge, fun r hr => (hstack r hr).tail hedge⟩
        obtain ⟨x, hx, hcycle⟩ := cyclic_of_dfs fuel (n :: stack) d v hpath hnone
        exact ⟨x, hx.head hedge, hcycle⟩

/-- The nodes a search has left: visited, and not on its path. -/
def Left (visited path : List String) (x : String) : Prop := x ∈ visited ∧ x ∉ path

/-- The search from `n`, with the nodes of `stack` on its path and fuel for a path through all nodes with edges. -/
theorem dfs_settles (hsrc : ∀ m, graph m ≠ [] → m ∈ sources) :
    ∀ (fuel : Nat) (stack : List String) (n : String) (visited visited' : List String), (n :: stack).Nodup →
      (∀ r ∈ stack, r ∈ sources) → sources.length < fuel + stack.length → n ∉ visited →
      Graph.Settled (Edge graph) (Left visited stack) → dfs graph fuel stack n visited = some visited' →
        n ∈ visited' ∧ visited ⊆ visited' ∧ Graph.Settled (Edge graph) (Left visited' stack)
  | 0, stack, n, visited, visited', hn, hs, hfuel, _, _, _ => by
    have := depth_bounded hn hs
    omega
  | fuel + 1, stack, n, visited, visited', hn, hs, hfuel, hnew, hset, h => by
    have hns : n ∉ stack := (List.nodup_cons.1 hn).1
    -- after some edges of `n`: they lead to nodes left
    have hfold := foldlM_invariant
      (fun done v => n :: visited ⊆ v ∧ Graph.Settled (Edge graph) (Left v (n :: stack)) ∧
        ∀ d ∈ done, Left v (n :: stack) d) ?_ ⟨List.Subset.refl _, ?_, by simp⟩ h
    · obtain ⟨hkept, hset', hdone⟩ := hfold
      have hleft : ∀ x, Left visited' stack x ↔ x = n ∨ Left visited' (n :: stack) x := by
        intro x
        unfold Left
        rw [List.mem_cons]
        by_cases hx : x = n
        · subst hx
          exact iff_of_true ⟨hkept List.mem_cons_self, hns⟩ (.inl rfl)
        · simp [hx]
      refine ⟨hkept List.mem_cons_self, fun y hy => hkept (List.mem_cons_of_mem _ hy), ?_⟩
      rw [show Left visited' stack = fun x => x = n ∨ Left visited' (n :: stack) x from funext fun x => propext (hleft x)]
      exact hset'.insert (fun hl => hl.2 List.mem_cons_self) hdone
    · rintro done d v v' hmem ⟨hkept, hset', hdone⟩ hstep
      obtain ⟨hpath, hstep⟩ := Option.ite_none_left_eq_some.1 hstep
      have hgrow : d ∈ v' ∧ v ⊆ v' ∧ Graph.Settled (Edge graph) (Left v' (n :: stack)) := by
        split at hstep
        · rename_i hv
          cases hstep
          exact ⟨hv, List.Subset.refl _, hset'⟩
        · rename_i hv
          have hs' : ∀ r ∈ n :: stack, r ∈ sources := List.forall_mem_cons.2 ⟨hsrc n (List.ne_nil_of_mem hmem), hs⟩
          exact dfs_settles hsrc fuel (n :: stack) d v v' (List.nodup_cons.2 ⟨hpath, hn⟩) hs'
            (by rw [List.length_cons]; omega) hv hset' hstep
      obtain ⟨hd, hsub, hset''⟩ := hgrow
      refine ⟨List.Subset.trans hkept hsub, hset'', fun e he => ?_⟩
      rcases List.mem_append.1 he with he | he
      · exact ⟨hsub (hdone e he).1, (hdone e he).2⟩
      · rw [List.mem_singleton.1 he]
        exact ⟨hd, hpath⟩
    · -- nothing but `n` has joined
      rw [show Left (n :: visited) (n :: stack) = Left visited stack from funext fun x => propext ?_]
      · exact hset
      · unfold Left
        rw [List.mem_cons, List.mem_cons]
        by_cases hx : x = n
        · subst hx
          simp [hnew]
        · simp [hx]

/-- The search fails exactly if a cycle can be reached from its root. -/
theorem dfs_eq_none_iff (hsrc : ∀ m, graph m ≠ [] → m ∈ sources) {fuel : Nat} (hfuel : sources.length < fuel) (n : String) :
    dfs graph fuel [] n [] = none ↔ ∃ x, ReflTransGen (Edge graph) n x ∧ TransGen (Edge graph) x x := by
  refine ⟨cyclic_of_dfs fuel [] n [] (by simp), ?_⟩
  rintro ⟨x, hx, hcycle⟩
  rw [Option.eq_none_iff_forall_not_mem]
  intro visited h
  have hempty : Graph.Settled (Edge graph) (Left [] []) :=
    ⟨fun _ _ h => absurd h.1 List.not_mem_nil, fun _ h => absurd h.1 List.not_mem_nil⟩
  obtain ⟨hn, -, hset⟩ := dfs_settles hsrc fuel [] n [] visited (List.nodup_singleton n) (by simp) hfuel (by simp) hempty h
  exact hset.acyclic x (hset.reach ⟨hn, List.not_mem_nil⟩ hx) hcycle

/-! ## The graph of a check -/

/-- The nodes of the check's graph that can have edges. -/
def depSources (jobs : List Job) (newID : String) (deps : List String) : List String :=
  (if deps = [] then [] else [newID]) ++ (jobs.filter fun j => j.dependsOn ≠ []).map Job.id

theorem mem_depSources {jobs : List Job} {newID : String} {deps : List String} (m : String)
    (h : depGraph jobs newID deps m ≠ []) : m ∈ depSources jobs newID deps := by
  unfold depGraph at h
  unfold depSources
  split at h
  · rename_i hm
    rw [if_neg h, hm]
    exact List.mem_append_left _ (List.mem_singleton_self _)
  · cases hf : jobs.find? (·.id = m) with
    | none =>
      rw [hf] at h
      exact absurd rfl h
    | some j =>
      rw [hf] at h
      have hid : j.id = m := by simpa using List.find?_some hf
      refine List.mem_append_right _ (List.mem_map.2 ⟨j, List.mem_filter.2 ⟨List.mem_of_find?_eq_some hf, ?_⟩, hid⟩)
      simpa using h

theorem length_depSources (jobs : List Job) (newID : String) (deps : List String) :
    (depSources jobs newID deps).length ≤ (jobs.map fun j => j.dependsOn.length).sum + deps.length := by
  have hjobs : (jobs.filter fun j => j.dependsOn ≠ []).length ≤ (jobs.map fun j => j.dependsOn.length).sum := by
    induction jobs with
    | nil => exact Nat.le_refl _
    | cons j jobs ih =>
      rw [List.map_cons, List.sum_cons, List.filter_cons]
      split
      · rename_i hj
        have hpos : 0 < j.dependsOn.length := List.length_pos_iff.2 (by simpa using hj)
        rw [List.length_cons]
        omega
      · omega
  have hnew : (if deps = [] then [] else [newID]).length ≤ deps.length := by
    split
    · exact Nat.zero_le _
    · rename_i hd
      exact List.length_pos_iff.2 hd
  unfold depSources
  rw [List.length_append, List.length_map]
  omega

/-- The bound on the depth of the check's search is large enough, and any larger one gives the same result. -/
theorem check_fuel (jobs : List Job) (newID : String) (deps : List String) {fuel : Nat}
    (hfuel : (jobs.map fun j => j.dependsOn.length).sum + deps.length < fuel) :
    dfs (depGraph jobs newID deps) fuel [] newID [] = dfs (depGraph jobs newID deps)
      ((jobs.map fun j => j.dependsOn.length).sum + deps.length + 1) [] newID [] := by
  have hlen := length_depSources jobs newID deps
  rw [dfs_fuel mem_depSources (hlen.trans_lt hfuel), dfs_fuel mem_depSources (Nat.lt_succ_of_le hlen)]

theorem check_iff (jobs : List Job) (newID : String) (deps : List String) :
    (dfs (depGraph jobs newID deps) ((jobs.map fun j => j.dependsOn.length).sum + deps.length + 1) [] newID []).isNone = true ↔
      ∃ x, ReflTransGen (Edge (depGraph jobs newID deps)) newID x ∧ TransGen (Edge (depGraph jobs newID deps)) x x := by
  rw [Option.isNone_iff_eq_none]
  exact dfs_eq_none_iff mem_depSources (Nat.lt_succ_of_le (length_depSources jobs newID deps)) newID

/-- The check of a submission passes only if the job is on no cycle of the listed jobs and its own dependencies. -/
theorem not_cyclic_of_check {jobs : List Job} {newID : String} {deps : List String}
    (h : (dfs (depGraph jobs newID deps) ((jobs.map fun j => j.dependsOn.length).sum + deps.length + 1) [] newID []).isNone
      = false) : ¬ TransGen (Edge (depGraph jobs newID deps)) newID newID := by
  intro hcycle
  rw [(check_iff jobs newID deps).2 ⟨newID, .refl, hcycle⟩] at h
  cases h

end Distsched.Scheduler
