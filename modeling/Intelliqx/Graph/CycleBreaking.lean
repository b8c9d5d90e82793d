import Intelliqx.Base.Cycles
import Intelliqx.Graph.Pipeline

/-!
# Dependency cycles are broken

The pass takes one edge out of every elementary cycle of a component. What is
left has no cycle through two nodes: such a cycle would contain an elementary
one, which is one of the cycles the pass has seen, and the edge chosen on it is
gone (`cycles_broken`).
-/

namespace Intelliqx.Graph

open Intelliqx.Digraph

-- ---------------------------------------------------------------------------
-- What networkx enumerates
-- ---------------------------------------------------------------------------

/-- The ends of the edges are nodes, as in every `DiGraph`. -/
def EndsIn (nodes : List String) (edges : List (String × String)) : Prop :=
  ∀ e ∈ edges, e.1 ∈ nodes ∧ e.2 ∈ nodes

structure IsComponent (nodes : List String) (edges : List (String × String)) (scc : List String) : Prop where
  distinct : scc.Nodup
  mutual_reach : ∃ x ∈ nodes, ∀ y, y ∈ scc ↔ y ∈ nodes ∧ Reaches edges x y ∧ Reaches edges y x

/-- `strongly_connected_components` yields the components, every node in one,
and `simple_cycles` the elementary cycles, each from one of its nodes on. -/
structure Networkx.Enumerates (nx : Networkx) : Prop where
  component : ∀ nodes edges, EndsIn nodes edges →
    ∀ scc ∈ nx.stronglyConnectedComponents nodes edges, IsComponent nodes edges scc
  covered : ∀ nodes edges, EndsIn nodes edges →
    ∀ x ∈ nodes, ∃ scc ∈ nx.stronglyConnectedComponents nodes edges, x ∈ scc
  elementary : ∀ nodes edges, EndsIn nodes edges →
    ∀ c ∈ nx.simpleCycles nodes edges, IsElementary edges c
  complete : ∀ nodes edges, EndsIn nodes edges →
    ∀ c, IsElementary edges c → ∃ c' ∈ nx.simpleCycles nodes edges, c' ~r c

-- ---------------------------------------------------------------------------
-- The edge chosen on a cycle
-- ---------------------------------------------------------------------------

section
variable {f : Option (κ × β) → β → Option (κ × β)} {es : List β}

theorem foldl_chosen (h : ∀ best e, f best e = best ∨ ∃ k, f best e = some (k, e))
    (best : Option (κ × β)) :
    es.foldl f best = best ∨ ∃ k, ∃ e ∈ es, es.foldl f best = some (k, e) := by
  induction es generalizing best with
  | nil => exact .inl rfl
  | cons e es ih =>
    rw [List.foldl_cons]
    rcases ih (f best e) with hrest | ⟨k, e', he', hrest⟩
    · rw [hrest]
      rcases h best e with hb | ⟨k, hb⟩
      · exact .inl hb
      · exact .inr ⟨k, e, List.mem_cons_self, hb⟩
    · exact .inr ⟨k, e', List.mem_cons_of_mem e he', hrest⟩

theorem mem_of_foldl_chosen (hs : es.foldl f none = some (k, e))
    (h : ∀ best e, f best e = best ∨ ∃ k, f best e = some (k, e)) : e ∈ es := by
  rcases foldl_chosen h none with hnone | ⟨k', e', he', hs'⟩
  · cases hnone.symm.trans hs
  · cases hs'.symm.trans hs
    exact he'

theorem foldl_isSome {best : Option (κ × β)} (h : ∀ e ∈ es, ∀ best, (f best e).isSome)
    (hs : best.isSome ∨ es ≠ []) : (es.foldl f best).isSome := by
  induction es generalizing best with
  | nil => exact hs.resolve_right (fun hne => hne rfl)
  | cons e es ih =>
    exact ih (fun e' he' => h e' (List.mem_cons_of_mem e he')) (.inl (h e List.mem_cons_self best))

end

section
variable {l : SGIRGraph} {c : List String} {e : String × String}

theorem selectCycleBreakEdge_mem (h : selectCycleBreakEdge l c = some e) : e ∈ hops c := by
  obtain ⟨⟨k, e⟩, hs, rfl⟩ := Option.map_eq_some_iff.mp h
  refine mem_of_foldl_chosen hs ?_
  intro best e
  split
  · exact .inl rfl
  · split
    · exact .inr ⟨_, rfl⟩
    · split
      · exact .inr ⟨_, rfl⟩
      · exact .inl rfl

theorem selectCycleBreakEdge_isSome (hne : c ≠ []) (hc : ∀ x ∈ c, x ∈ l.nodeIds) :
    ∃ e, selectCycleBreakEdge l c = some e := by
  rw [← Option.isSome_iff_exists, selectCycleBreakEdge, Option.isSome_map]
  refine foldl_isSome ?_ (.inr ?_)
  · intro e he best
    obtain ⟨n, hn, hid⟩ := List.mem_map.mp (hc e.1 (List.of_mem_zip he).1)
    split
    · rename_i hnone
      have hno := List.find?_eq_none.mp hnone n (List.mem_reverse.mpr hn)
      exact absurd (decide_eq_true hid) hno
    · split
      · rfl
      · split <;> rfl
  · intro hnil
    apply hne
    rw [← map_fst_hops c]
    exact List.map_eq_nil_iff.mpr hnil

end

-- ---------------------------------------------------------------------------
-- One layer
-- ---------------------------------------------------------------------------

/-- What the pass makes of a layer: no two nodes reach each other any more, and
every edge that is missing lay on a cycle. -/
structure CyclesBroken (l l' : SGIRGraph) : Prop where
  layer : l'.layer = l.layer
  nodes : l'.nodes = l.nodes
  acyclic : ∀ x y, Reaches l'.edgePairs x y → Reaches l'.edgePairs y x → x = y
  edges : ∃ removed : List (String × String),
    l'.edges = (l.edges.filter fun e => (e.source, e.target) ∉ removed) ∧
      ∀ e ∈ removed, ∃ c, IsElementary l.edgePairs c ∧ e ∈ hops c

/-- The nodes of the graph the pass builds: an edge brings its ends along. -/
def graphNodes (l : SGIRGraph) : List String :=
  (l.nodeIds ++ l.edgePairs.map Prod.fst ++ l.edgePairs.map Prod.snd).dedup

def edgesWithin (l : SGIRGraph) (scc : List String) : List (String × String) :=
  l.edgePairs.filter fun e => e.1 ∈ scc ∧ e.2 ∈ scc

def edgesToRemove (nx : Networkx) (l : SGIRGraph) : List (String × String) :=
  (nx.stronglyConnectedComponents (graphNodes l) l.edgePairs).flatMap fun scc =>
    if scc.length < minCycleSccSize then []
    else (nx.simpleCycles scc (edgesWithin l scc)).filterMap (selectCycleBreakEdge l)

section
variable {nx : Networkx} {l : SGIRGraph} {scc c : List String} {e : String × String}

theorem cleanLayer_eq (nx : Networkx) (l : SGIRGraph) : cleanLayer nx l =
    { l with edges := l.edges.filter fun e => (e.source, e.target) ∉ edgesToRemove nx l } := rfl

theorem endsIn_graphNodes (l : SGIRGraph) : EndsIn (graphNodes l) l.edgePairs := by
  intro e he
  have hsource : e.1 ∈ l.edgePairs.map Prod.fst := List.mem_map_of_mem he
  have htarget : e.2 ∈ l.edgePairs.map Prod.snd := List.mem_map_of_mem he
  simp [graphNodes, hsource, htarget]

theorem endsIn_edgesWithin (l : SGIRGraph) (scc : List String) : EndsIn scc (edgesWithin l scc) := by
  intro e he
  exact of_decide_eq_true (List.mem_filter.mp he).2

theorem mem_edgesToRemove : e ∈ edgesToRemove nx l ↔
    ∃ scc ∈ nx.stronglyConnectedComponents (graphNodes l) l.edgePairs, minCycleSccSize ≤ scc.length ∧
      ∃ c ∈ nx.simpleCycles scc (edgesWithin l scc), selectCycleBreakEdge l c = some e := by
  simp only [edgesToRemove, List.mem_flatMap]
  refine exists_congr fun scc => and_congr_right fun _ => ?_
  by_cases h : scc.length < minCycleSccSize
  · simp [h]
  · rw [if_neg h, List.mem_filterMap]
    simp [Nat.not_lt.mp h]

/-- An edge is removed from a cycle it lies on. -/
theorem on_cycle_of_removed (hnx : nx.Enumerates) (h : e ∈ edgesToRemove nx l) :
    ∃ c, IsElementary l.edgePairs c ∧ e ∈ hops c := by
  obtain ⟨scc, -, -, c, hc, he⟩ := mem_edgesToRemove.mp h
  have hcycle := hnx.elementary scc (edgesWithin l scc) (endsIn_edgesWithin l scc) c hc
  exact ⟨c, hcycle.mono fun e _ he => List.mem_of_mem_filter he, selectCycleBreakEdge_mem he⟩

/-- Every elementary cycle of two nodes or more loses one of its edges. -/
theorem removed_of_cycle (hnx : nx.Enumerates) (hl : ∀ e ∈ l.edges, e.source ∈ l.nodeIds ∧ e.target ∈ l.nodeIds)
    (hc : IsElementary l.edgePairs c) (hlen : 2 ≤ c.length) : ∃ e ∈ hops c, e ∈ edgesToRemove nx l := by
  have hends := endsIn_graphNodes l
  have hdeclared : ∀ x ∈ c, x ∈ l.nodeIds := by
    intro x hx
    rw [← map_fst_hops c] at hx
    obtain ⟨e, he, rfl⟩ := List.mem_map.mp hx
    obtain ⟨edge, hedge, rfl⟩ := List.mem_map.mp (hc.along e he)
    exact (hl edge hedge).1
  obtain ⟨x, hx⟩ := List.exists_mem_of_ne_nil c hc.nonempty
  -- all of the cycle is in the component of one of its nodes
  obtain ⟨scc, hscc, hxscc⟩ := hnx.covered _ _ hends x (by simp [graphNodes, hdeclared x hx])
  obtain ⟨-, r, -, hmem⟩ := hnx.component _ _ hends scc hscc
  obtain ⟨-, hrx, hxr⟩ := (hmem x).mp hxscc
  have hsub : c ⊆ scc := by
    intro y hy
    exact (hmem y).mpr ⟨by simp [graphNodes, hdeclared y hy], hrx.trans (hc.reaches hx hy),
      (hc.reaches hy hx).trans hxr⟩
  have hsize : minCycleSccSize ≤ scc.length :=
    hlen.trans (List.subperm_of_subset hc.distinct hsub).length_le
  have hwithin : IsElementary (edgesWithin l scc) c := by
    refine hc.mono ?_
    intro e he hedge
    refine List.mem_filter.mpr ⟨hedge, decide_eq_true ⟨?_, ?_⟩⟩
    · exact hsub (List.of_mem_zip he).1
    · exact hsub (List.mem_rotate.mp (List.of_mem_zip he).2)
  obtain ⟨c', hc', hrot⟩ := hnx.complete _ _ (endsIn_edgesWithin l scc) c hwithin
  have hne : c' ≠ [] := by
    rintro rfl
    exact hc.nonempty (List.isRotated_nil_iff'.mp hrot).symm
  obtain ⟨e, he⟩ := selectCycleBreakEdge_isSome hne fun y hy => hdeclared y (hrot.mem_iff.mp hy)
  exact ⟨e, (mem_hops_of_isRotated hrot).mp (selectCycleBreakEdge_mem he),
    mem_edgesToRemove.mpr ⟨scc, hscc, hsize, c', hc', he⟩⟩

theorem cyclesBroken_cleanLayer (hnx : nx.Enumerates)
    (hl : ∀ e ∈ l.edges, e.source ∈ l.nodeIds ∧ e.target ∈ l.nodeIds) :
    CyclesBroken l (cleanLayer nx l) where
  layer := rfl
  nodes := rfl
  edges := ⟨edgesToRemove nx l, rfl, fun _ he => on_cycle_of_removed hnx he⟩
  acyclic := by
    have hpairs : ∀ e, e ∈ (cleanLayer nx l).edgePairs ↔ e ∈ l.edgePairs ∧ e ∉ edgesToRemove nx l := by
      intro e
      simp only [cleanLayer_eq, SGIRGraph.edgePairs, List.mem_map, List.mem_filter, decide_eq_true_eq]
      constructor
      · rintro ⟨edge, ⟨hedge, hkept⟩, rfl⟩
        exact ⟨⟨edge, hedge, rfl⟩, hkept⟩
      · rintro ⟨⟨edge, hedge, rfl⟩, hkept⟩
        exact ⟨edge, ⟨hedge, hkept⟩, rfl⟩
    intro x y hxy hyx
    by_contra hne
    obtain ⟨c, hc, hlen⟩ := exists_elementary hne hxy hyx
    obtain ⟨e, he, hremoved⟩ :=
      removed_of_cycle hnx hl (hc.mono fun e _ he => ((hpairs e).mp he).1) hlen
    exact ((hpairs e).mp (hc.along e he)).2 hremoved

end

/-- Where every edge of a layer has its ends declared, the pass leaves no cycle
through two nodes, and takes away nothing but edges of cycles. -/
theorem cycles_broken (nx : Networkx) (hnx : nx.Enumerates) (g : SoftwareGraph)
    (hg : ∀ l ∈ g.layers, ∀ e ∈ l.edges, e.source ∈ l.nodeIds ∧ e.target ∈ l.nodeIds) :
    List.Forall₂ CyclesBroken g.layers (cleanDependencyCycles nx g).layers := by
  refine List.forall₂_map_right_iff.mpr (List.forall₂_same.mpr ?_)
  intro l hl
  exact cyclesBroken_cleanLayer hnx (hg l hl)

/-- Components and cycles by exhaustive search. -/
def Networkx.exhaustive : Networkx :=
  { Networkx.acyclic with
    stronglyConnectedComponents := fun nodes edges => components nodes.dedup edges
    simpleCycles := elementaryCycles }

theorem enumerates_exhaustive : Networkx.exhaustive.Enumerates where
  component nodes edges _ scc hscc := by
    obtain ⟨x, hx, rfl⟩ := mem_components.mp hscc
    refine ⟨(List.nodup_dedup nodes).filter _, x, List.mem_dedup.mp hx, ?_⟩
    simp
  covered nodes edges _ x hx :=
    ⟨_, mem_components.mpr ⟨x, List.mem_dedup.mpr hx, rfl⟩,
      List.mem_filter.mpr ⟨List.mem_dedup.mpr hx, decide_eq_true ⟨.refl, .refl⟩⟩⟩
  elementary nodes edges hends c hc := (mem_elementaryCycles fun e he => (hends e he).1).mp hc
  complete nodes edges hends c hc :=
    ⟨c, (mem_elementaryCycles fun e he => (hends e he).1).mpr hc, .refl c⟩

/-- Two modules that import each other, and a third one. -/
def mutualImports : SoftwareGraph where
  repositoryName := "repo"
  layers :=
    [{ layer := .dependency
       nodes := ["a", "b", "c"].map fun n => { id := n, name := n }
       edges := [("a", "b"), ("b", "a"), ("b", "c")].map fun e =>
         { source := e.1, target := e.2, edgeType := .import } }]
  keyed := by decide

theorem cycles_broken_mutualImports :
    List.Forall₂ CyclesBroken mutualImports.layers (cleanDependencyCycles .exhaustive mutualImports).layers :=
  cycles_broken .exhaustive enumerates_exhaustive mutualImports (by decide)

end Intelliqx.Graph
