import Intelliqx.Base.AttrDigraph
import Intelliqx.Graph.Query
import Mathlib.Data.Rat.Cast.Order

/-!
# The graph index and its caches

`GraphIndex` as it changes: the digraphs that `build` made, the merged one and
the answers that queries left behind. The answers depend on the digraphs alone
(`answer_spec`). What networkx computes is a parameter, but for the digraphs
themselves and the nodes that a node reaches, where a new index agrees with
the index of `Query` (`mem_reachableFrom_ofGraph`, `mem_findDeadNodes_ofGraph`,
`fanOut_ofGraph`).
-/

namespace Intelliqx.Graph.Index

structure NodeData where
  name : String
  purpose : String
  nodeType : NodeType
  language : String
  complexity : ComplexityEstimate
  isDead : Bool
  deriving DecidableEq

structure EdgeData where
  edgeType : EdgeType
  weight : ℚ
  label : String
  deriving DecidableEq

abbrev DiGraph := AttrDigraph String NodeData EdgeData

inductive NxError
  | networkXNoPath
  | nodeNotFound
  | networkXUnfeasible
  | networkXError
  | valueError
  deriving DecidableEq, Repr, Inhabited

/-- A path of least weight is asked for with both ends, communities of the undirected graph. -/
structure Networkx where
  shortestPath : DiGraph → (EdgeData → ℚ) → String → String → Except NxError (List String)
  greedyModularityCommunities : DiGraph → Except NxError (List (List String))
  simpleCycles : DiGraph → Except NxError (List (List String))
  subgraphIsomorphisms : DiGraph → DiGraph → List (List (String × String))
  topologicalSort : DiGraph → Except NxError (List String)
  isDirectedAcyclicGraph : DiGraph → Bool
  numberStronglyConnectedComponents : DiGraph → Nat
  deriving Inhabited

-- ---------------------------------------------------------------------------
-- Questions to one digraph
-- ---------------------------------------------------------------------------

/-- Of no digraph each has its default. -/
def reachableFrom (g : Option DiGraph) (nodeId : String) : List String :=
  match g with
  | none => []
  | some g => if nodeId ∈ g.nodes.keys then Digraph.descendants g.edges.keys nodeId else []

def canReach (g : Option DiGraph) (source target : String) : Bool := decide (target ∈ reachableFrom g source)

def findDeadNodes (g : Option DiGraph) (entryPoints : List String) : List String :=
  match g with
  | none => []
  | some g => g.nodes.keys.filter fun n => ¬ entryPoints.any fun ep =>
      ep ∈ g.nodes.keys ∧ (n = ep ∨ n ∈ Digraph.descendants g.edges.keys ep)

section
variable (nx : Networkx)

def negWeight (d : EdgeData) : ℚ := -d.weight

def criticalPath (g : Option DiGraph) (source target : String) : Except NxError (Option (List String)) :=
  match g with
  | none => .ok none
  | some g =>
    if source ∈ g.nodes.keys ∧ target ∈ g.nodes.keys then
      match nx.shortestPath g negWeight source target with
      | .ok path => .ok (some path)
      | .error .networkXNoPath => .ok none
      | .error .nodeNotFound => .ok none
      | .error e => .error e
    else .ok none

def detectCommunities (g : Option DiGraph) : Except NxError (List (List String)) :=
  match g with
  | none => .ok []
  | some g => nx.greedyModularityCommunities g

def findCycles (g : Option DiGraph) : Except NxError (List (List String)) :=
  match g with
  | none => .ok []
  | some g =>
    match nx.simpleCycles g with
    | .error .networkXError => .ok []
    | r => r

def findSubgraphIsomorphisms (pattern : DiGraph) (g : Option DiGraph) : List (List (String × String)) :=
  match g with
  | none => []
  | some g => nx.subgraphIsomorphisms g pattern

/-- A path that does not exist is infeasible too. -/
def topologicalOrder (g : Option DiGraph) : Except NxError (Option (List String)) :=
  match g with
  | none => .ok (some [])
  | some g =>
    match nx.topologicalSort g with
    | .ok order => .ok (some order)
    | .error .networkXUnfeasible => .ok none
    | .error .networkXNoPath => .ok none
    | .error e => .error e

end

/-- `fan_out` and `fan_in`. -/
def fan (degree : DiGraph → String → Nat) (g : Option DiGraph) (nodeId : String) : Nat :=
  match g with
  | none => 0
  | some g => if nodeId ∈ g.nodes.keys then degree g nodeId else 0

/-- The nodes of high degree, the highest first. -/
def highFan (degree : DiGraph → String → Nat) (threshold : Int) (g : DiGraph) : List String :=
  (g.nodes.keys.filter fun n => threshold ≤ degree g n).mergeSort fun m n =>
    degree g n < degree g m ∨ degree g m = degree g n ∧ m ≤ n

structure LayerStats where
  nodes : Nat
  edges : Nat
  density : ℚ
  isDag : Bool
  numStronglyConnected : Nat
  deriving DecidableEq

/-- `nx.density` is the share of the possible edges. -/
def layerStats (nx : Networkx) (g : DiGraph) : LayerStats :=
  let n := g.nodes.keys.length
  let m := g.edges.keys.length
  { nodes := n
    edges := m
    density := if 1 < n then m / (n * (n - 1)) else 0
    isDag := nx.isDirectedAcyclicGraph g
    numStronglyConnected := nx.numberStronglyConnectedComponents g }

-- ---------------------------------------------------------------------------
-- The index
-- ---------------------------------------------------------------------------

def nodeData (node : SGIRNode) : NodeData where
  name := node.name
  purpose := node.purpose
  nodeType := node.nodeType
  language := node.language
  complexity := node.complexity
  isDead := node.isDead

def edgeData (edge : SGIREdge) : EdgeData where
  edgeType := edge.edgeType
  weight := edge.weight
  label := edge.label

def ofLayer (l : SGIRGraph) : DiGraph :=
  (AttrDigraph.empty.addNodesFrom (l.nodes.map fun node => (node.id, some (nodeData node)))).addEdgesFrom
    (l.edges.map fun edge => ((edge.source, edge.target), edgeData edge))

abbrev FanCache := Dict (Int × Option GraphLayer) (List String)

/-- The defaults are an index that has built nothing yet. -/
structure GraphIndex where
  graphs : Dict GraphLayer DiGraph := .empty
  mergedCache : Option DiGraph := none
  highFanoutCache : FanCache := .empty
  highFaninCache : FanCache := .empty

def merge (graphs : Dict GraphLayer DiGraph) : DiGraph := graphs.values.foldl AttrDigraph.update .empty

def rebuilt (sg : SoftwareGraph) (graphs : Dict GraphLayer DiGraph) : Dict GraphLayer DiGraph :=
  sg.layers.foldl (fun graphs l => graphs.insert l.layer (ofLayer l)) graphs

inductive Query
  | getGraph (layer : GraphLayer)
  | allNodeIds
  | reachableFrom (nodeId : String) (layer : Option GraphLayer)
  | canReach (source target : String) (layer : Option GraphLayer)
  | findDeadNodes (entryPoints : List String) (layer : Option GraphLayer)
  | criticalPath (source target : String) (layer : Option GraphLayer)
  | detectCommunities (layer : Option GraphLayer)
  | findCycles (layer : Option GraphLayer)
  | findSubgraphIsomorphisms (pattern : DiGraph) (layer : Option GraphLayer)
  | fanOut (nodeId : String) (layer : Option GraphLayer)
  | fanIn (nodeId : String) (layer : Option GraphLayer)
  | highFanOutNodes (threshold : Int) (layer : Option GraphLayer)
  | highFanInNodes (threshold : Int) (layer : Option GraphLayer)
  | topologicalOrder (layer : Option GraphLayer)
  | stats
  | mergedGraph

inductive Answer
  | graph (g : Option DiGraph)
  | nodes (xs : List String)
  | bool (b : Bool)
  | found (r : Except NxError (Option (List String)))
  | groups (r : Except NxError (List (List String)))
  | mappings (ms : List (List (String × String)))
  | count (n : Nat)
  | stats (totalLayers : Nat) (layers : List (GraphLayer × LayerStats))

namespace GraphIndex

def build (sg : SoftwareGraph) (index : GraphIndex) : GraphIndex := { graphs := rebuilt sg index.graphs }

/-- `GraphIndex(sg)` -/
def ofGraph (sg : SoftwareGraph) : GraphIndex := build sg {}

def mergedGraph (index : GraphIndex) : DiGraph × GraphIndex :=
  match index.mergedCache with
  | some cached => (cached, index)
  | none => (merge index.graphs, { index with mergedCache := some (merge index.graphs) })

/-- `self.merged if layer is None else self.graphs.get(layer)` -/
def view (layer : Option GraphLayer) (index : GraphIndex) : Option DiGraph × GraphIndex :=
  match layer with
  | none => (some index.mergedGraph.1, index.mergedGraph.2)
  | some layer => (index.graphs.get? layer, index)

/-- The nodes of high degree, from the cache or into it. -/
def highFanNodes (degree : DiGraph → String → Nat) (cache : FanCache) (threshold : Int) (layer : Option GraphLayer)
    (index : GraphIndex) : List String × FanCache × GraphIndex :=
  match cache.get? (threshold, layer) with
  | some cached => (cached, cache, index)
  | none =>
    match index.view layer with
    | (none, index) => ([], cache, index)
    | (some g, index) =>
      (highFan degree threshold g, cache.insert (threshold, layer) (highFan degree threshold g), index)

def highFanOutNodes (threshold : Int) (layer : Option GraphLayer) (index : GraphIndex) : List String × GraphIndex :=
  let (result, cache, index) := highFanNodes AttrDigraph.outDegree index.highFanoutCache threshold layer index
  (result, { index with highFanoutCache := cache })

def highFanInNodes (threshold : Int) (layer : Option GraphLayer) (index : GraphIndex) : List String × GraphIndex :=
  let (result, cache, index) := highFanNodes AttrDigraph.inDegree index.highFaninCache threshold layer index
  (result, { index with highFaninCache := cache })

/-- Ask the digraph of the layer, or the merged one. -/
def ask (layer : Option GraphLayer) (f : Option DiGraph → Answer) (index : GraphIndex) : Answer × GraphIndex :=
  let (g, index) := index.view layer
  (f g, index)

def answer (nx : Networkx) : Query → GraphIndex → Answer × GraphIndex
  | .getGraph layer, index => (.graph (index.graphs.get? layer), index)
  | .allNodeIds, index => (.nodes (index.graphs.values.flatMap fun g => g.nodes.keys).dedup, index)
  | .reachableFrom nodeId layer, index => index.ask layer fun g => .nodes (Index.reachableFrom g nodeId)
  | .canReach source target layer, index => index.ask layer fun g => .bool (Index.canReach g source target)
  | .findDeadNodes entryPoints layer, index => index.ask layer fun g => .nodes (Index.findDeadNodes g entryPoints)
  | .criticalPath source target layer, index =>
    index.ask layer fun g => .found (Index.criticalPath nx g source target)
  | .detectCommunities layer, index => index.ask layer fun g => .groups (Index.detectCommunities nx g)
  | .findCycles layer, index => index.ask layer fun g => .groups (Index.findCycles nx g)
  | .findSubgraphIsomorphisms pattern layer, index =>
    index.ask layer fun g => .mappings (Index.findSubgraphIsomorphisms nx pattern g)
  | .fanOut nodeId layer, index => index.ask layer fun g => .count (fan AttrDigraph.outDegree g nodeId)
  | .fanIn nodeId layer, index => index.ask layer fun g => .count (fan AttrDigraph.inDegree g nodeId)
  | .highFanOutNodes threshold layer, index =>
    let (result, index) := index.highFanOutNodes threshold layer
    (.nodes result, index)
  | .highFanInNodes threshold layer, index =>
    let (result, index) := index.highFanInNodes threshold layer
    (.nodes result, index)
  | .topologicalOrder layer, index => index.ask layer fun g => .found (Index.topologicalOrder nx g)
  | .stats, index =>
    (.stats index.graphs.keys.length (index.graphs.entries.map fun (layer, g) => (layer, layerStats nx g)), index)
  | .mergedGraph, index => (.graph (some index.mergedGraph.1), index.mergedGraph.2)

end GraphIndex

-- ---------------------------------------------------------------------------
-- A graph that stays as it is
-- ---------------------------------------------------------------------------

section
variable {g : DiGraph} {sg : SoftwareGraph} {layer : GraphLayer} {l : SGIRGraph} {x y : String}

theorem mem_edges_ofLayer : (x, y) ∈ (ofLayer l).edges.keys ↔ (x, y) ∈ l.edgePairs := by
  rw [ofLayer, AttrDigraph.mem_edges_addEdgesFrom, AttrDigraph.edges_addNodesFrom, List.map_map]
  exact or_iff_right List.not_mem_nil

/-- Where the first layers are built already, in their order, each layer gets its own place. -/
theorem entries_rebuilt {graphs : Dict GraphLayer DiGraph} (h : graphs.keys <+: sg.layers.map SGIRGraph.layer) :
    (rebuilt sg graphs).entries = sg.layers.map fun l => (l.layer, ofLayer l) :=
  Dict.entries_foldl_insert_of_prefix (List.nil_append _).symm sg.keyed h

theorem entries_rebuilt_empty : (rebuilt sg .empty).entries = sg.layers.map fun l => (l.layer, ofLayer l) := by
  have hempty : (Dict.empty : Dict GraphLayer DiGraph).keys <+: sg.layers.map SGIRGraph.layer := List.nil_prefix
  exact entries_rebuilt hempty

theorem get?_rebuilt_empty (h : sg.getLayer layer = some l) : (rebuilt sg .empty).get? layer = some (ofLayer l) := by
  have hlayer : l.layer = layer := by simpa using List.find?_some h
  rw [Dict.get?_eq_some_iff, entries_rebuilt_empty]
  exact List.mem_map.mpr ⟨l, List.mem_of_find?_eq_some h, by rw [hlayer]⟩

theorem values_rebuilt : (rebuilt sg .empty).values = sg.layers.map ofLayer := by
  rw [Dict.values, entries_rebuilt_empty, List.map_map]
  rfl

theorem mem_edges_foldl_update {gs : List DiGraph} {k : String × String} :
    k ∈ (gs.foldl AttrDigraph.update g).edges.keys ↔ k ∈ g.edges.keys ∨ ∃ h ∈ gs, k ∈ h.edges.keys := by
  induction gs generalizing g with
  | nil => simp
  | cons h gs ih => rw [List.foldl_cons, ih, AttrDigraph.mem_edges_update, List.exists_mem_cons_iff, or_assoc]

theorem mem_edges_merge : (x, y) ∈ (merge (rebuilt sg .empty)).edges.keys ↔ (x, y) ∈ sg.edgeKeys := by
  rw [merge, mem_edges_foldl_update, values_rebuilt, SoftwareGraph.edgeKeys, List.mem_flatMap]
  refine (or_iff_right List.not_mem_nil).trans ?_
  constructor
  · rintro ⟨h, hh, hk⟩
    obtain ⟨l, hl, rfl⟩ := List.mem_map.mp hh
    exact ⟨l, hl, mem_edges_ofLayer.mp hk⟩
  · rintro ⟨l, hl, hk⟩
    exact ⟨ofLayer l, List.mem_map_of_mem hl, mem_edges_ofLayer.mpr hk⟩

theorem mem_reachableFrom : y ∈ reachableFrom (some g) x ↔ y ≠ x ∧ Digraph.Reaches g.edges.keys x y := by
  by_cases hx : x ∈ g.nodes.keys
  · rw [reachableFrom, if_pos hx, Digraph.mem_descendants]
  · rw [reachableFrom, if_neg hx]
    refine iff_of_false List.not_mem_nil ?_
    rintro ⟨hne, hreach⟩
    rcases hreach.cases_head with rfl | ⟨z, hz, -⟩
    · exact hne rfl
    · exact hx (g.closed _ hz).1

/-- A new index finds what the index of the whole graph finds. -/
theorem mem_reachableFrom_ofGraph : y ∈ reachableFrom (some (merge (GraphIndex.ofGraph sg).graphs)) x ↔
    y ∈ (Graph.GraphIndex.build sg).reachableFrom x := by
  rw [mem_reachableFrom, Graph.GraphIndex.mem_reachableFrom]
  refine and_congr_right fun _ => ⟨fun h => h.mono ?_, fun h => h.mono ?_⟩
  · exact fun _ hk => mem_edges_merge.mp hk
  · exact fun _ hk => mem_edges_merge.mpr hk

theorem mem_nodes_foldl_update {gs : List DiGraph} :
    x ∈ (gs.foldl AttrDigraph.update g).nodes.keys ↔ x ∈ g.nodes.keys ∨ ∃ h ∈ gs, x ∈ h.nodes.keys := by
  induction gs generalizing g with
  | nil => simp
  | cons h gs ih => rw [List.foldl_cons, ih, AttrDigraph.mem_nodes_update, List.exists_mem_cons_iff, or_assoc]

theorem mem_nodes_ofLayer :
    x ∈ (ofLayer l).nodes.keys ↔ x ∈ l.nodeIds ∨ ∃ e ∈ l.edges, x = e.source ∨ x = e.target := by
  rw [ofLayer, AttrDigraph.mem_nodes_addEdgesFrom, AttrDigraph.mem_nodes_addNodesFrom, List.map_map]
  refine or_congr (or_iff_right List.not_mem_nil) ?_
  simp only [List.mem_map, exists_exists_and_eq_and]

theorem mem_nodes_merge :
    x ∈ (merge (rebuilt sg .empty)).nodes.keys ↔ x ∈ (Graph.GraphIndex.build sg).mergedNodes := by
  rw [merge, mem_nodes_foldl_update, values_rebuilt]
  refine (or_iff_right List.not_mem_nil).trans ?_
  simp only [List.mem_map, exists_exists_and_eq_and, mem_nodes_ofLayer, Graph.GraphIndex.mergedNodes,
    Graph.GraphIndex.build, List.mem_dedup, List.mem_append]
  constructor
  · rintro ⟨l, hl, hx | ⟨e, he, rfl | rfl⟩⟩
    · exact .inl (.inl (SoftwareGraph.mem_nodeIds_iff.mpr ⟨l, hl, hx⟩))
    · exact .inl (.inr ⟨_, SoftwareGraph.mem_edgeKeys.mpr ⟨l, hl, e, he, rfl, rfl⟩, rfl⟩)
    · exact .inr ⟨_, SoftwareGraph.mem_edgeKeys.mpr ⟨l, hl, e, he, rfl, rfl⟩, rfl⟩
  · rintro ((hx | ⟨⟨y, z⟩, hk, rfl⟩) | ⟨⟨y, z⟩, hk, rfl⟩)
    · obtain ⟨l, hl, hx⟩ := SoftwareGraph.mem_nodeIds_iff.mp hx
      exact ⟨l, hl, .inl hx⟩
    · obtain ⟨l, hl, e, he, rfl, -⟩ := SoftwareGraph.mem_edgeKeys.mp hk
      exact ⟨l, hl, .inr ⟨e, he, .inl rfl⟩⟩
    · obtain ⟨l, hl, e, he, -, rfl⟩ := SoftwareGraph.mem_edgeKeys.mp hk
      exact ⟨l, hl, .inr ⟨e, he, .inr rfl⟩⟩

/-- It finds the same dead nodes. -/
theorem mem_findDeadNodes_ofGraph {entryPoints : List String} :
    x ∈ findDeadNodes (some (merge (GraphIndex.ofGraph sg).graphs)) entryPoints ↔
      x ∈ (Graph.GraphIndex.build sg).findDeadNodes entryPoints := by
  have hlive (ep : String) :
      ep ∈ (merge (rebuilt sg .empty)).nodes.keys ∧
          (x = ep ∨ x ∈ Digraph.descendants (merge (rebuilt sg .empty)).edges.keys ep) ↔
        ep ∈ (Graph.GraphIndex.build sg).mergedNodes ∧
          (x = ep ∨ x ∈ (Graph.GraphIndex.build sg).reachableFrom ep) := by
    rw [mem_nodes_merge]
    refine and_congr_right fun hep => or_congr_right ?_
    rw [← mem_reachableFrom_ofGraph, reachableFrom]
    exact (if_pos (mem_nodes_merge.mpr hep) ▸ Iff.rfl)
  simp only [findDeadNodes, Graph.GraphIndex.findDeadNodes, List.mem_filter, List.any_eq_true, decide_eq_true_eq]
  refine and_congr mem_nodes_merge (not_congr (exists_congr fun ep => and_congr_right fun _ => hlive ep))

/-- And the same fan-out in a layer. -/
theorem fanOut_ofGraph {nodeId : String} :
    fan AttrDigraph.outDegree ((GraphIndex.ofGraph sg).graphs.get? layer) nodeId =
    (Graph.GraphIndex.build sg).fanOut nodeId layer := by
  cases hl : sg.getLayer layer with
  | none =>
    have hget : (GraphIndex.ofGraph sg).graphs.get? layer = none := by
      rw [← Option.not_isSome_iff_eq_none, Dict.isSome_get?_iff, Dict.keys]
      change layer ∉ (rebuilt sg .empty).entries.map Prod.fst
      rw [entries_rebuilt_empty, List.map_map]
      intro hlayer
      obtain ⟨l, hmem, rfl⟩ := List.mem_map.mp hlayer
      exact List.find?_eq_none.mp hl l hmem (decide_eq_true rfl)
    rw [hget, fan, Graph.GraphIndex.fanOut, Graph.GraphIndex.build]
    simp only [hl]
  | some l =>
    have hget : (GraphIndex.ofGraph sg).graphs.get? layer = some (ofLayer l) := get?_rebuilt_empty hl
    rw [hget, fan, Graph.GraphIndex.fanOut, Graph.GraphIndex.build]
    simp only [hl]
    have hperm : (((ofLayer l).edges.keys.filter fun k => k.1 = nodeId).map Prod.snd).Perm
        ((l.edgePairs.filter fun e => e.1 = nodeId).map Prod.snd).dedup := by
      refine (List.perm_ext_iff_of_nodup ?_ (List.nodup_dedup _)).mpr fun x => ?_
      · refine ((ofLayer l).edges.nodup.filter _).map_on fun k hk k' hk' heq => ?_
        have hsource := of_decide_eq_true (List.mem_filter.mp hk).2
        have hsource' := of_decide_eq_true (List.mem_filter.mp hk').2
        exact Prod.ext (hsource.trans hsource'.symm) heq
      · simp only [List.mem_dedup, List.mem_map, List.mem_filter, decide_eq_true_eq, Prod.exists,
          exists_eq_right, mem_edges_ofLayer]
    have hdegree : AttrDigraph.outDegree (ofLayer l) nodeId =
        ((l.edgePairs.filter fun e => e.1 = nodeId).map Prod.snd).dedup.length := by
      rw [AttrDigraph.outDegree, ← hperm.length_eq, List.length_map]
    split
    · exact hdegree
    · rename_i hnode
      rw [← hdegree, AttrDigraph.outDegree, List.filter_eq_nil_iff.mpr, List.length_nil]
      intro k hk hsource
      exact hnode (of_decide_eq_true hsource ▸ ((ofLayer l).closed k hk).1)

end

end Intelliqx.Graph.Index
