import Intelliqx.Graph.DeadCode

/-!
# Dead nodes are removed exactly

Deadness is decided on the merged graph, removal goes layer by layer with the
ids of the layer. On well-formed layers both say the same: a layer keeps the
nodes an entry point reaches in the merged graph and the edges between them
(`removal_exact`). Every way to such a node survives, so a second pass finds
nothing to remove.
-/

namespace Intelliqx.Graph

open Intelliqx.Digraph

/-- The layer after the pass: what is reached from an entry point along the
edges of all layers, and the edges whose two ends are. -/
structure ReachedPart (edgeKeys : List (String × String)) (entryPoints : List String)
    (l l' : SGIRGraph) : Prop where
  layer : l'.layer = l.layer
  nodes : ∀ n, n ∈ l'.nodes ↔
    n ∈ l.nodes ∧ (n.id ∈ entryPoints ∨ ∃ ep ∈ entryPoints, Reaches edgeKeys ep n.id)
  ordered : l'.nodes.Sublist l.nodes
  edges : l'.edges = l.edges.filter fun e => e.source ∈ l'.nodeIds ∧ e.target ∈ l'.nodeIds

section
variable {index : GraphIndex} {entryPoints deadIds : List String} {l : SGIRGraph}

-- ---------------------------------------------------------------------------
-- One layer
-- ---------------------------------------------------------------------------

/-- The set of dead ids of the layer is as good as that of the whole graph. -/
theorem removeDeadFromLayer_eq (h : l.WellFormed) :
    removeDeadFromLayer deadIds l =
      { l with
        nodes := l.nodes.filter fun n => n.id ∉ deadIds
        edges := l.edges.filter fun e => e.source ∉ deadIds ∧ e.target ∉ deadIds } := by
  have hids : ∀ x ∈ l.nodeIds, x ∈ deadIds.filter (· ∈ l.nodeIds) ↔ x ∈ deadIds := by
    intro x hx
    simp [hx]
  have hnodes : (l.nodes.filter fun n => n.id ∉ deadIds.filter (· ∈ l.nodeIds)) =
      l.nodes.filter fun n => n.id ∉ deadIds := by
    apply List.filter_congr
    intro n hn
    exact decide_eq_decide.mpr (not_congr (hids n.id (List.mem_map_of_mem hn)))
  have hedges : (l.edges.filter fun e => e.source ∉ deadIds.filter (· ∈ l.nodeIds) ∧
      e.target ∉ deadIds.filter (· ∈ l.nodeIds)) =
        l.edges.filter fun e => e.source ∉ deadIds ∧ e.target ∉ deadIds := by
    apply List.filter_congr
    intro e he
    obtain ⟨hsource, htarget⟩ := h.declared e he
    exact decide_eq_decide.mpr (and_congr (not_congr (hids _ hsource)) (not_congr (hids _ htarget)))
  rw [← hnodes, ← hedges]
  unfold removeDeadFromLayer
  simp only
  split
  · rename_i hempty
    rw [List.isEmpty_iff.mp hempty]
    simp
  · rfl

theorem edges_removeDeadFromLayer (h : l.WellFormed) :
    (removeDeadFromLayer deadIds l).edges = l.edges.filter fun e =>
      e.source ∈ (removeDeadFromLayer deadIds l).nodeIds ∧
        e.target ∈ (removeDeadFromLayer deadIds l).nodeIds := by
  rw [congrArg SGIRGraph.edges (removeDeadFromLayer_eq h)]
  apply List.filter_congr
  intro e he
  obtain ⟨hsource, htarget⟩ := h.declared e he
  simp [mem_nodeIds_removeDeadFromLayer, hsource, htarget]

theorem SGIRGraph.WellFormed.removeDead (h : l.WellFormed) :
    (removeDeadFromLayer deadIds l).WellFormed where
  distinct := by
    rw [removeDeadFromLayer_eq h]
    exact (List.filter_sublist.map _).nodup h.distinct
  declared e he := by
    rw [edges_removeDeadFromLayer h, List.mem_filter, decide_eq_true_eq] at he
    exact he.2

theorem removeDeadFromLayer_of_live (h : ∀ x ∈ l.nodeIds, x ∉ deadIds) :
    removeDeadFromLayer deadIds l = l := by
  have hnone : deadIds.filter (· ∈ l.nodeIds) = [] := by
    rw [List.filter_eq_nil_iff]
    intro x hx hdeclared
    exact h x (of_decide_eq_true hdeclared) hx
  simp [removeDeadFromLayer, hnone]

-- ---------------------------------------------------------------------------
-- Declared nodes and entry points
-- ---------------------------------------------------------------------------

/-- For a declared node it does not matter whether the entry point is a node. -/
theorem live_iff (h : x ∈ index.graph.nodeIds) :
    Live index entryPoints x ↔
      x ∈ entryPoints ∨ ∃ ep ∈ entryPoints, Reaches index.graph.edgeKeys ep x := by
  constructor
  · rintro ⟨ep, hep, -, hr⟩
    exact .inr ⟨ep, hep, hr⟩
  · rintro (hx | ⟨ep, hep, hr⟩)
    · exact ⟨x, hx, GraphIndex.mem_mergedNodes.mpr (.inl h), .refl⟩
    · refine ⟨ep, hep, GraphIndex.mem_mergedNodes.mpr ?_, hr⟩
      obtain rfl | ⟨y, he, -⟩ := hr.cases_head
      · exact .inl h
      · exact .inr ⟨(ep, y), he, .inl rfl⟩

theorem not_mem_findDeadNodes_iff (h : x ∈ index.graph.nodeIds) :
    x ∉ index.findDeadNodes entryPoints ↔ Live index entryPoints x := by
  rw [mem_findDeadNodes_iff, not_and_not_right]
  exact ⟨fun hl => hl (GraphIndex.mem_mergedNodes.mpr (.inl h)), fun hl _ => hl⟩

theorem reachedPart_removeDead (hl : l ∈ index.graph.layers) (h : l.WellFormed) :
    ReachedPart index.graph.edgeKeys entryPoints l
      (removeDeadFromLayer (index.findDeadNodes entryPoints) l) where
  layer := layer_removeDeadFromLayer _ l
  nodes n := by
    rw [removeDeadFromLayer_eq h, List.mem_filter, decide_eq_true_eq]
    refine and_congr_right ?_
    intro hn
    have hdeclared : n.id ∈ index.graph.nodeIds := SoftwareGraph.mem_nodeIds_iff.mpr ⟨l, hl, List.mem_map_of_mem hn⟩
    rw [not_mem_findDeadNodes_iff hdeclared, live_iff hdeclared]
  ordered := by
    rw [removeDeadFromLayer_eq h]
    exact List.filter_sublist
  edges := edges_removeDeadFromLayer h

-- ---------------------------------------------------------------------------
-- A second pass
-- ---------------------------------------------------------------------------

theorem Live.removed {after : GraphIndex} (h : Live index entryPoints x)
    (hafter : after.graph = removeDeadNodes index.graph index entryPoints)
    (hx : x ∈ after.graph.nodeIds) : Live after entryPoints x := by
  obtain ⟨ep, hep, hmerged, hr⟩ := h
  have hlive : Live index entryPoints ep := ⟨ep, hep, hmerged, .refl⟩
  rw [live_iff hx, hafter]
  exact .inr ⟨ep, hep, (reaches_removeDeadNodes_iff hlive).mpr hr⟩

theorem removeDeadNodes_twice {after : GraphIndex}
    (hafter : after.graph = removeDeadNodes index.graph index entryPoints) :
    removeDeadNodes after.graph after entryPoints = after.graph := by
  have hlayer : ∀ l' ∈ after.graph.layers,
      removeDeadFromLayer (after.findDeadNodes entryPoints) l' = l' := by
    intro l' hl'
    apply removeDeadFromLayer_of_live
    intro x hx
    have hdeclared' : x ∈ after.graph.nodeIds := SoftwareGraph.mem_nodeIds_iff.mpr ⟨_, hl', hx⟩
    rw [hafter] at hl'
    obtain ⟨l, hl, rfl⟩ := List.mem_map.mp hl'
    obtain ⟨hx, hlive⟩ := mem_nodeIds_removeDeadFromLayer.mp hx
    have hdeclared : x ∈ index.graph.nodeIds := SoftwareGraph.mem_nodeIds_iff.mpr ⟨_, hl, hx⟩
    exact (((not_mem_findDeadNodes_iff hdeclared).mp hlive).removed hafter hdeclared').not_dead
  have hlayers : after.graph.layers.map (removeDeadFromLayer (after.findDeadNodes entryPoints)) =
      after.graph.layers := (List.map_congr_left hlayer).trans (List.map_id _)
  simp [removeDeadNodes, SoftwareGraph.mapLayers, hlayers]

end

/-- The pass keeps of every layer what the entry points reach, and is done
after one run. -/
theorem removal_exact (index : GraphIndex) (entryPoints : List String)
    (hg : ∀ l ∈ index.graph.layers, l.WellFormed) :
    List.Forall₂ (ReachedPart index.graph.edgeKeys entryPoints) index.graph.layers
        (removeDeadNodes index.graph index entryPoints).layers ∧
      (∀ l ∈ (removeDeadNodes index.graph index entryPoints).layers, l.WellFormed) ∧
      ∀ after : GraphIndex, after.graph = removeDeadNodes index.graph index entryPoints →
        removeDeadNodes after.graph after entryPoints = after.graph := by
  refine ⟨?_, ?_, fun after hafter => removeDeadNodes_twice hafter⟩
  · refine List.forall₂_map_right_iff.mpr (List.forall₂_same.mpr ?_)
    intro l hl
    exact reachedPart_removeDead hl (hg l hl)
  · intro l' hl'
    obtain ⟨l, hl, rfl⟩ := List.mem_map.mp hl'
    exact (hg l hl).removeDead

theorem removal_exact_halfDead :
    List.Forall₂ (ReachedPart halfDead.edgeKeys ["main"]) halfDead.layers
        (removeDeadNodes halfDead (.build halfDead) ["main"]).layers ∧
      (∀ l ∈ (removeDeadNodes halfDead (.build halfDead) ["main"]).layers, l.WellFormed) ∧
      ∀ after : GraphIndex, after.graph = removeDeadNodes halfDead (.build halfDead) ["main"] →
        removeDeadNodes after.graph after ["main"] = after.graph :=
  removal_exact (.build halfDead) ["main"] (by decide)

end Intelliqx.Graph
