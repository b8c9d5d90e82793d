import Intelliqx.Graph.Verification

/-!
# Traces and paths

`build_trace_set` moves from a node to all that it reaches, not only to its
successors. So a trace is a path of the merged graph when the moves that the
search makes happen to be edges (`traces_are_paths_iff`).
-/

namespace Intelliqx.Graph

section
variable {index : GraphIndex} {entryPoints : List String} {t : Trace}

theorem prefix_of_mem_dfsTraces (h : t ∈ dfsTraces index index.graph.nodeIds d current path visited) :
    path ++ [current] <+: t := by
  induction d generalizing current path visited with
  | zero => exact List.mem_singleton.mp h ▸ List.prefix_rfl
  | succ d ih =>
    by_cases hv : current ∈ visited
    · rw [dfsTraces, if_pos hv, List.mem_singleton] at h
      exact h ▸ List.prefix_rfl
    · rw [dfsTraces_succ hv] at h
      split at h
      · exact List.mem_singleton.mp h ▸ List.prefix_rfl
      · obtain ⟨s, -, ht⟩ := List.mem_flatMap.mp h
        exact (List.prefix_append _ _).trans (ih ht)

/-- A trace repeats no node but the last one, and is as long as the search is deep. -/
theorem nodup_front_of_mem_dfsTraces (h : t ∈ dfsTraces index index.graph.nodeIds d current path visited)
    (hvisited : ∀ x, x ∈ path → x ∈ visited) (hnodup : path.Nodup) :
    ∃ front last, t = front ++ [last] ∧ front.Nodup ∧ front.length ≤ path.length + d := by
  induction d generalizing current path visited with
  | zero => exact ⟨path, current, List.mem_singleton.mp h, hnodup, Nat.le_refl _⟩
  | succ d ih =>
    by_cases hv : current ∈ visited
    · rw [dfsTraces, if_pos hv, List.mem_singleton] at h
      exact ⟨path, current, h, hnodup, Nat.le_add_right ..⟩
    · rw [dfsTraces_succ hv] at h
      split at h
      · exact ⟨path, current, List.mem_singleton.mp h, hnodup, Nat.le_add_right ..⟩
      · obtain ⟨s, -, ht⟩ := List.mem_flatMap.mp h
        have hcurrent : current ∉ path := fun hp => hv (hvisited current hp)
        have hnodup' : (path ++ [current]).Nodup :=
          hnodup.append (List.nodup_singleton current) (by simpa using hcurrent)
        have hvisited' : ∀ x, x ∈ path ++ [current] → x ∈ current :: visited := by
          intro x hx
          rcases List.mem_append.mp hx with hx | hx
          · exact List.mem_cons_of_mem _ (hvisited x hx)
          · exact List.mem_singleton.mp hx ▸ List.mem_cons_self
        obtain ⟨front, last, rfl, hfront, hlen⟩ := ih ht hvisited' hnodup'
        refine ⟨front, last, rfl, hfront, ?_⟩
        rw [List.length_append, List.length_singleton] at hlen
        omega

/-- The search makes every move that a trace shows. -/
theorem explored_of_mem (h : t ∈ buildTraceSet index entryPoints maxDepth) (hsplit : t = chain ++ a :: b :: rest) :
    ExploredWithin maxDepth index entryPoints a b := by
  have hchain : (chain ++ [a, b]).IsChain fun x y => y ∈ moves index x := by
    have hall := isChain_of_mem_buildTraceSet h
    rw [hsplit, List.append_cons, List.append_cons, List.append_assoc chain] at hall
    exact hall.left_of_append
  obtain ⟨ep, hep, ht⟩ := List.mem_flatMap.mp h
  obtain ⟨hep, hdeclared⟩ := List.mem_filter.mp hep
  have hhead : [ep] <+: t := prefix_of_mem_dfsTraces ht
  obtain ⟨front, last, rfl, hnodup, hlen⟩ := nodup_front_of_mem_dfsTraces ht (by simp) List.nodup_nil
  -- the nodes up to `a` are in front of the last one
  obtain ⟨back, z, hback⟩ := (List.eq_nil_or_concat' (b :: rest)).resolve_left (List.cons_ne_nil b rest)
  rw [hback, ← List.cons_append, ← List.append_assoc] at hsplit
  obtain rfl := (List.append_inj' hsplit rfl).1
  have hsub : (chain ++ [a]).Sublist (chain ++ a :: back) := by simp
  refine ⟨ep, hep, of_decide_eq_true hdeclared, chain, ?_, hsub.nodup hnodup, ?_, hchain⟩
  · obtain ⟨tail, htail⟩ := hhead
    cases chain with
    | nil => exact congrArg List.head? htail.symm
    | cons x chain => exact congrArg List.head? htail.symm
  · simp only [List.length_append, List.length_cons, List.length_nil] at hlen
    omega

theorem head?_of_mem_buildTraceSet (h : t ∈ buildTraceSet index entryPoints maxDepth) :
    ∃ ep ∈ entryPoints, t.head? = some ep := by
  obtain ⟨ep, hep, ht⟩ := List.mem_flatMap.mp h
  obtain ⟨rest, rfl⟩ := prefix_of_mem_dfsTraces ht
  exact ⟨ep, List.mem_of_mem_filter hep, rfl⟩

/-- All traces are paths from an entry point just when every move of the
search is an edge: each of the first ten declared nodes that an expanded node
reaches, as they are listed, is a successor. -/
theorem traces_are_paths_iff (index : GraphIndex) (entryPoints : List String) (maxDepth : Nat) :
    (∀ t ∈ buildTraceSet index entryPoints maxDepth, (∃ ep ∈ entryPoints, t.head? = some ep) ∧
      t.IsChain fun x y => (x, y) ∈ index.graph.edgeKeys) ↔
      ∀ a b, ExploredWithin maxDepth index entryPoints a b → (a, b) ∈ index.graph.edgeKeys := by
  constructor
  · intro h a b he
    obtain ⟨_, ht, chain, rest, rfl⟩ := exists_trace_of_explored he
    exact (List.isChain_append_cons_cons.mp (h _ ht).2.left_of_append).2.1
  · intro h t ht
    refine ⟨head?_of_mem_buildTraceSet ht, ?_⟩
    rw [List.isChain_iff_forall_rel_of_append_cons_cons]
    exact fun a b chain rest hsplit => h a b (explored_of_mem ht hsplit)

end

/-- From `a` the search moves to `c` at once, over the edges `a → b → c`. -/
theorem trace_skips_node :
    ["a", "c"] ∈ buildTraceSet (.build (callGraph ["a", "b", "c"] [("a", "b"), ("b", "c")])) ["a"]
        defaultTraceMaxDepth ∧
      ("a", "c") ∉ (callGraph ["a", "b", "c"] [("a", "b"), ("b", "c")]).edgeKeys := by
  decide +kernel

end Intelliqx.Graph
