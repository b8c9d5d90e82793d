import Intelliqx.Graph.Query

/-!
# Optimisation passes

The four passes that rewrite a graph. A pass works on a copy, layer by layer,
with an index that was built before the first pass. What it notes down on the
nodes it drops (`is_dead`, `optimization_notes`) leaves no trace in its result.
-/

namespace Intelliqx.Graph

/-- What is left to networkx and to the iteration order of sets: the indices
built one after the other, the sets of candidates, components and cycles. -/
structure Networkx where
  index : Nat → SoftwareGraph → GraphIndex
  graph_index : ∀ k g, (index k g).graph = g
  setOrder : GraphLayer → List String → List String
  setOrder_perm : ∀ layer ids, (setOrder layer ids).Perm ids
  stronglyConnectedComponents : List String → List (String × String) → List (List String)
  simpleCycles : List String → List (String × String) → List (List String)

def ComplexityEstimate.order : ComplexityEstimate → Nat
  | .constant => 0
  | .logarithmic => 1
  | .linear => 2
  | .linearithmic => 3
  | .quadratic => 4
  | .cubic => 5
  | .exponential => 6
  | .unknown => 7

def defaultInlineThreshold : Int := 5

def minCycleSccSize : Nat := 2

def defaultSplitParts : Nat := 2

def ComplexityEstimate.aboveSplitThreshold : ComplexityEstimate → Bool
  | .cubic | .exponential => true
  | _ => false

-- ---------------------------------------------------------------------------
-- remove_dead_nodes
-- ---------------------------------------------------------------------------

def removeDeadFromLayer (deadIds : List String) (l : SGIRGraph) : SGIRGraph :=
  let deadInLayer := deadIds.filter (· ∈ l.nodeIds)
  if deadInLayer.isEmpty then l
  else
    { l with
      nodes := l.nodes.filter fun n => n.id ∉ deadInLayer
      edges := l.edges.filter fun e => e.source ∉ deadInLayer ∧ e.target ∉ deadInLayer }

theorem layer_removeDeadFromLayer (deadIds : List String) (l : SGIRGraph) :
    (removeDeadFromLayer deadIds l).layer = l.layer := by
  unfold removeDeadFromLayer
  simp only
  split <;> rfl

def removeDeadNodes (g : SoftwareGraph) (index : GraphIndex) (entryPoints : List String) : SoftwareGraph :=
  g.mapLayers (removeDeadFromLayer (index.findDeadNodes entryPoints)) (layer_removeDeadFromLayer _)

-- ---------------------------------------------------------------------------
-- inline_trivial_nodes
-- ---------------------------------------------------------------------------

def isSimpleNode (node : SGIRNode) (threshold : Int) : Bool :=
  if node.complexity.order > threshold then false
  else node.sideEffects.isEmpty && node.failureModes.isEmpty

def inlineCandidates (index : GraphIndex) (threshold : Int) (l : SGIRGraph) : List String :=
  ((l.nodes.filter fun n => index.fanOut n.id l.layer = 1 ∧ isSimpleNode n threshold).map SGIRNode.id).dedup

/-- The name of the last node with the id, as `node_map` has it. -/
def nameIn (l : SGIRGraph) (nodeId : String) : String :=
  ((l.nodes.reverse.find? fun n => n.id = nodeId).map SGIRNode.name).getD ""

/-- The edges that replace a candidate: from the sources of its incoming edges
that stay, to the target of its first outgoing edge. -/
def inlinedEdges (l : SGIRGraph) (candidates : List String) (cid : String) : List SGIREdge :=
  match l.edges.find? fun e => e.source = cid with
  | none => []
  | some out =>
    (l.edges.filter fun e => e.target = cid ∧ e.source ∉ candidates).map fun e =>
      { source := e.source, target := out.target, edgeType := e.edgeType, weight := e.weight
        label := "inlined:" ++ nameIn l cid }

def inlineLayer (nx : Networkx) (index : GraphIndex) (threshold : Int) (l : SGIRGraph) : SGIRGraph :=
  let candidates := nx.setOrder l.layer (inlineCandidates index threshold l)
  if candidates.isEmpty then l
  else
    { l with
      nodes := l.nodes.filter fun n => n.id ∉ candidates
      edges := (l.edges.filter fun e => e.source ∉ candidates ∧ e.target ∉ candidates) ++
        candidates.flatMap (inlinedEdges l candidates) }

theorem layer_inlineLayer (nx : Networkx) (index : GraphIndex) (threshold : Int) (l : SGIRGraph) :
    (inlineLayer nx index threshold l).layer = l.layer := by
  unfold inlineLayer
  simp only
  split <;> rfl

def inlineTrivialNodes (nx : Networkx) (g : SoftwareGraph) (index : GraphIndex) (threshold : Int) :
    SoftwareGraph :=
  g.mapLayers (inlineLayer nx index threshold) (layer_inlineLayer nx index threshold)

-- ---------------------------------------------------------------------------
-- reduce_complexity
-- ---------------------------------------------------------------------------

def partId (nodeId : String) (i : Nat) : String := nodeId ++ "__part" ++ toString i

def splitPart (node : SGIRNode) (numParts i : Nat) : SGIRNode where
  id := partId node.id i
  name := node.name ++ "_part" ++ toString i
  purpose := node.purpose
  nodeType := node.nodeType
  language := node.language
  sourceLocation := node.sourceLocation
  inputs := if i = 0 then node.inputs else [partId node.id (i - 1)]
  outputs := if i = numParts - 1 then node.outputs else [partId node.id i]
  preconditions := if i = 0 then node.preconditions else []
  postconditions := if i = numParts - 1 then node.postconditions else []
  sideEffects := node.sideEffects
  externalDependencies := node.externalDependencies
  complexity := .linear
  failureModes := node.failureModes
  securityBoundary := node.securityBoundary
  ownership := node.ownership
  testCoverage := node.testCoverage
  documentation := node.documentation

def splitNode (node : SGIRNode) (numParts : Nat) : List SGIRNode :=
  (List.range numParts).map (splitPart node numParts)

def splitIds (l : SGIRGraph) : List String :=
  ((l.nodes.filter fun n => n.complexity.aboveSplitThreshold).map SGIRNode.id).dedup

/-- An edge leaves a split node from its first part and enters it at its last. -/
def redirect (splits : List String) (e : SGIREdge) : SGIREdge :=
  let source := if e.source ∈ splits then partId e.source 0 else e.source
  let target := if e.target ∈ splits then partId e.target (defaultSplitParts - 1) else e.target
  { source, target, edgeType := e.edgeType, weight := e.weight, label := e.label }

def splitChain (nodeId : String) : List SGIREdge :=
  (List.range (defaultSplitParts - 1)).map fun j =>
    { source := partId nodeId j, target := partId nodeId (j + 1), edgeType := .control
      label := "split_chain" }

def reduceLayer (l : SGIRGraph) : SGIRGraph :=
  let splits := splitIds l
  if splits.isEmpty then l
  else
    { l with
      nodes := l.nodes.flatMap fun n =>
        if n.complexity.aboveSplitThreshold then splitNode n defaultSplitParts else [n]
      edges := l.edges.map (redirect splits) ++ splits.flatMap splitChain }

theorem layer_reduceLayer (l : SGIRGraph) : (reduceLayer l).layer = l.layer := by
  unfold reduceLayer
  simp only
  split <;> rfl

def reduceComplexity (g : SoftwareGraph) : SoftwareGraph := g.mapLayers reduceLayer layer_reduceLayer

-- ---------------------------------------------------------------------------
-- clean_dependency_cycles
-- ---------------------------------------------------------------------------

/-- The edge out of the node of highest complexity, the first of these on the
cycle; ids the layer does not declare are passed over. -/
def selectCycleBreakEdge (l : SGIRGraph) (cycle : List String) : Option (String × String) :=
  let worst := (cycle.zip (cycle.rotate 1)).foldl (fun (best : Option (Nat × String × String)) e =>
    match l.nodes.reverse.find? fun n => n.id = e.1 with
    | none => best
    | some node =>
      match best with
      | none => some (node.complexity.order, e)
      | some (c, _) => if node.complexity.order > c then some (node.complexity.order, e) else best) none
  worst.map Prod.snd

def cleanLayer (nx : Networkx) (l : SGIRGraph) : SGIRGraph :=
  let nodes := (l.nodeIds ++ l.edgePairs.map Prod.fst ++ l.edgePairs.map Prod.snd).dedup
  let sccs := nx.stronglyConnectedComponents nodes l.edgePairs
  let edgesToRemove := sccs.flatMap fun scc =>
    if scc.length < minCycleSccSize then []
    else (nx.simpleCycles scc (l.edgePairs.filter fun e => e.1 ∈ scc ∧ e.2 ∈ scc)).filterMap
      (selectCycleBreakEdge l)
  { l with edges := l.edges.filter fun e => (e.source, e.target) ∉ edgesToRemove }

def cleanDependencyCycles (nx : Networkx) (g : SoftwareGraph) : SoftwareGraph :=
  g.mapLayers (cleanLayer nx) fun _ => rfl

-- ---------------------------------------------------------------------------
-- What the passes keep
-- ---------------------------------------------------------------------------

section
variable {nx : Networkx} {g : SoftwareGraph} {index : GraphIndex} {entryPoints : List String}

@[simp] theorem nodeIds_cleanDependencyCycles : (cleanDependencyCycles nx g).nodeIds = g.nodeIds := by
  simp [SoftwareGraph.nodeIds, SoftwareGraph.allNodes, cleanDependencyCycles, SoftwareGraph.mapLayers,
    List.flatMap_map, cleanLayer]

theorem mem_nodeIds_removeDeadFromLayer {deadIds : List String} :
    x ∈ (removeDeadFromLayer deadIds l).nodeIds ↔ x ∈ l.nodeIds ∧ x ∉ deadIds := by
  unfold removeDeadFromLayer
  simp only
  split
  · rename_i hempty
    rw [List.isEmpty_iff, List.filter_eq_nil_iff] at hempty
    refine (and_iff_left_of_imp fun hx hd => ?_).symm
    exact hempty x hd (decide_eq_true hx)
  · simp only [SGIRGraph.nodeIds, List.mem_map, List.mem_filter, decide_eq_true_eq]
    constructor
    · rintro ⟨n, ⟨hn, hlive⟩, rfl⟩
      exact ⟨⟨n, hn, rfl⟩, fun hd => hlive ⟨hd, n, hn, rfl⟩⟩
    · rintro ⟨⟨n, hn, rfl⟩, hlive⟩
      exact ⟨n, ⟨hn, fun hd => hlive hd.1⟩, rfl⟩

theorem mem_nodeIds_removeDeadNodes : n ∈ (removeDeadNodes g index entryPoints).nodeIds ↔
    n ∈ g.nodeIds ∧ n ∉ index.findDeadNodes entryPoints := by
  rw [removeDeadNodes, SoftwareGraph.mem_nodeIds_mapLayers, SoftwareGraph.mem_nodeIds_iff]
  simp only [mem_nodeIds_removeDeadFromLayer]
  exact ⟨fun ⟨l, hl, hn, hlive⟩ => ⟨⟨l, hl, hn⟩, hlive⟩, fun ⟨⟨l, hl, hn⟩, hlive⟩ => ⟨l, hl, hn, hlive⟩⟩

theorem mem_edgeKeys_removeDeadNodes (he : (x, y) ∈ g.edgeKeys)
    (hx : x ∉ index.findDeadNodes entryPoints) (hy : y ∉ index.findDeadNodes entryPoints) :
    (x, y) ∈ (removeDeadNodes g index entryPoints).edgeKeys := by
  obtain ⟨l, hl, e, hedge, rfl, rfl⟩ := SoftwareGraph.mem_edgeKeys.mp he
  refine SoftwareGraph.mem_edgeKeys.mpr ⟨_, List.mem_map_of_mem hl, e, ?_, rfl, rfl⟩
  unfold removeDeadFromLayer
  simp only
  split
  · exact hedge
  · refine List.mem_filter.mpr ⟨hedge, decide_eq_true ⟨?_, ?_⟩⟩
    · intro hd
      exact hx (List.mem_of_mem_filter hd)
    · intro hd
      exact hy (List.mem_of_mem_filter hd)

theorem nodes_reduceLayer (l : SGIRGraph) : (reduceLayer l).nodes = l.nodes.flatMap fun n =>
    if n.complexity.aboveSplitThreshold then splitNode n defaultSplitParts else [n] := by
  unfold reduceLayer
  simp only
  split
  · rename_i hempty
    have hnone : ∀ n ∈ l.nodes, n.complexity.aboveSplitThreshold = false := by
      intro n hn
      by_contra hc
      have hsplit : n.id ∈ splitIds l :=
        List.mem_dedup.mpr (List.mem_map_of_mem (List.mem_filter.mpr ⟨hn, by simpa using hc⟩))
      rw [List.isEmpty_iff.mp hempty] at hsplit
      cases hsplit
    refine (List.flatMap_singleton' l.nodes).symm.trans (List.flatMap_congr fun n hn => ?_)
    simp [hnone n hn]
  · rfl

/-- A node stays, or its parts are declared in its place. -/
theorem mem_nodeIds_reduceComplexity : x ∈ (reduceComplexity g).nodeIds ↔
    (∃ n ∈ g.allNodes, n.id = x ∧ n.complexity.aboveSplitThreshold = false) ∨
      ∃ n ∈ g.allNodes, n.complexity.aboveSplitThreshold = true ∧ ∃ i < defaultSplitParts, partId n.id i = x := by
  rw [reduceComplexity, SoftwareGraph.mem_nodeIds_mapLayers]
  simp only [SGIRGraph.nodeIds, nodes_reduceLayer, List.mem_map, List.mem_flatMap]
  constructor
  · rintro ⟨l, hl, m, ⟨n, hn, hm⟩, rfl⟩
    have hall := SoftwareGraph.mem_allNodes.mpr ⟨l, hl, hn⟩
    split at hm
    · rename_i hcostly
      obtain ⟨i, hi, rfl⟩ := List.mem_map.mp hm
      exact .inr ⟨n, hall, hcostly, i, List.mem_range.mp hi, rfl⟩
    · rename_i hcheap
      obtain rfl := List.mem_singleton.mp hm
      exact .inl ⟨m, hall, rfl, by simpa using hcheap⟩
  · rintro (⟨n, hn, rfl, hcheap⟩ | ⟨n, hn, hcostly, i, hi, rfl⟩)
    · obtain ⟨l, hl, hn⟩ := SoftwareGraph.mem_allNodes.mp hn
      exact ⟨l, hl, n, ⟨n, hn, by simp [hcheap]⟩, rfl⟩
    · obtain ⟨l, hl, hn⟩ := SoftwareGraph.mem_allNodes.mp hn
      refine ⟨l, hl, splitPart n defaultSplitParts i, ⟨n, hn, ?_⟩, rfl⟩
      rw [if_pos hcostly]
      exact List.mem_map_of_mem (List.mem_range.mpr hi)

theorem nodeIds_reduceComplexity (hn : n ∈ g.nodeIds) :
    n ∈ (reduceComplexity g).nodeIds ∨
      ((∀ node ∈ g.allNodes, node.id = n → node.complexity.aboveSplitThreshold = true) ∧
        ∀ i < defaultSplitParts, partId n i ∈ (reduceComplexity g).nodeIds) := by
  by_cases hkept : ∃ node ∈ g.allNodes, node.id = n ∧ node.complexity.aboveSplitThreshold = false
  · exact .inl (mem_nodeIds_reduceComplexity.mpr (.inl hkept))
  · have hall : ∀ node ∈ g.allNodes, node.id = n → node.complexity.aboveSplitThreshold = true := by
      intro node hnode hid
      by_contra hc
      exact hkept ⟨node, hnode, hid, by simpa using hc⟩
    obtain ⟨node, hnode, rfl⟩ := List.mem_map.mp hn
    refine .inr ⟨hall, fun i hi => ?_⟩
    exact mem_nodeIds_reduceComplexity.mpr (.inr ⟨node, hnode, hall node hnode rfl, i, hi, rfl⟩)

end

end Intelliqx.Graph
