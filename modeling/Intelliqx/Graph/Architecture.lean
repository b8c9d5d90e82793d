import Intelliqx.Base.Incidence
import Intelliqx.Graph.Agents
import Intelliqx.Graph.Coherence
import Intelliqx.Graph.Duplicates

/-!
# Architecture analysis

`ArchitectureAgent` measures the coupling of the nodes and of the modules that
networkx finds. Both come down to counting calls at their two ends: the
thresholds of the findings together are at most twice the calls
(`coupling_findings_bound`), and a call is internal to one module or external to
two (`modules_count_calls`). A node belongs to the first layer that declares it,
so an edge of a layer leaves it only towards an earlier one
(`layering_violation_earlier`).
-/

namespace Intelliqx.Graph.Agents

open Index (DiGraph LayerStats NxError callEdge layerStats ofLayer single)

inductive CouplingSeverity
  | low
  | medium
  | high
  | critical
  deriving DecidableEq

structure CouplingFinding where
  nodeId : String
  nodeName : String
  fanIn : Nat
  fanOut : Nat
  totalCoupling : Nat
  severity : CouplingSeverity
  recommendation : String
  deriving DecidableEq

structure LayeringViolation where
  sourceId : String
  targetId : String
  sourceLayer : String
  targetLayer : String
  edgeType : String
  description : String
  deriving DecidableEq

structure ModuleInfo where
  moduleId : Nat
  nodeIds : List String
  nodeCount : Nat
  internalEdges : Nat
  externalEdges : Nat
  cohesion : ℚ
  deriving DecidableEq

structure ArchitectureReport where
  totalNodes : Nat
  totalEdges : Nat
  density : ℚ
  isDag : Bool
  couplingFindings : List CouplingFinding := []
  layeringViolations : List LayeringViolation := []
  modules : List ModuleInfo := []
  cycles : List (List String) := []
  highCouplingNodes : List String := []
  orphanNodes : List String := []

def criticalThreshold : Nat := 20
def highThreshold : Nat := 12
def mediumThreshold : Nat := 7
def fanThreshold : Nat := 10

-- ---------------------------------------------------------------------------
-- The agent
-- ---------------------------------------------------------------------------

def couplingSeverity (fanIn fanOut : Nat) : CouplingSeverity :=
  if criticalThreshold ≤ fanIn + fanOut then .critical
  else if highThreshold ≤ fanIn + fanOut then .high
  else if mediumThreshold ≤ fanIn + fanOut then .medium
  else .low

def couplingRecommendation (fanIn fanOut : Nat) : String :=
  if fanThreshold < fanIn then
    "High fan-in suggests this node is a shared utility; consider extracting into a dedicated module"
  else if fanThreshold < fanOut then
    "High fan-out suggests this node orchestrates too many concerns; consider decomposition"
  else "Moderate coupling; review for potential refactoring opportunities"

def couplingFinding (g : DiGraph) (nodeId : String) : CouplingFinding :=
  let fanIn := Index.fan AttrDigraph.inDegree (some g) nodeId
  let fanOut := Index.fan AttrDigraph.outDegree (some g) nodeId
  { nodeId := nodeId
    nodeName := nodeName g nodeId
    fanIn := fanIn
    fanOut := fanOut
    totalCoupling := fanIn + fanOut
    severity := couplingSeverity fanIn fanOut
    recommendation := couplingRecommendation fanIn fanOut }

def detectCoupling (index : Index.GraphIndex) : List CouplingFinding :=
  match index.graphs.get? .call with
  | none => []
  | some g => sortDesc (fun f => (f.totalCoupling : ℚ)) <|
      (g.nodes.keys.map (couplingFinding g)).filter fun f => mediumThreshold ≤ f.totalCoupling

def GraphLayer.value : GraphLayer → String
  | .call => "call"
  | .dataFlow => "data_flow"
  | .controlFlow => "control_flow"
  | .dependency => "dependency"
  | .stateTransition => "state_transition"
  | .resource => "resource"
  | .security => "security"
  | .deployment => "deployment"

/-- The first layer that declares a node keeps it. -/
def noteLayer (layer : GraphLayer) (nodeLayer : Dict String String) (node : SGIRNode) : Dict String String :=
  if nodeLayer.contains node.id then nodeLayer else nodeLayer.insert node.id (GraphLayer.value layer)

def buildNodeLayerMap (sg : SoftwareGraph) : Dict String String :=
  sg.layers.foldl (fun nodeLayer l => l.nodes.foldl (noteLayer l.layer) nodeLayer) .empty

def layeringViolation (layerMap : Dict String String) (edge : SGIREdge) : Option LayeringViolation :=
  match layerMap.get? edge.source, layerMap.get? edge.target with
  | some sourceLayer, some targetLayer =>
    if sourceLayer ≠ targetLayer ∧ edge.edgeType ∈ [EdgeType.call, .data, .import] then
      some
        { sourceId := edge.source
          targetId := edge.target
          sourceLayer := sourceLayer
          targetLayer := targetLayer
          edgeType := edge.edgeType.value
          description := s!"Cross-layer {edge.edgeType.value} edge from {sourceLayer} to {targetLayer}" }
    else none
  | _, _ => none

def detectLayeringViolations (sg : SoftwareGraph) : List LayeringViolation :=
  sg.layers.flatMap fun l => l.edges.filterMap (layeringViolation (buildNodeLayerMap sg))

def moduleInfo (g : DiGraph) (idx : Nat) (community : List String) : ModuleInfo :=
  let internal := Digraph.inner g.edges.keys community
  let external := Digraph.crossing g.edges.keys community
  { moduleId := idx
    nodeIds := community
    nodeCount := community.length
    internalEdges := internal
    externalEdges := external
    cohesion := if 0 < internal + external then internal / (internal + external : Nat) else 0 }

def detectModules (nx : Networkx) (index : Index.GraphIndex) : Except NxError (List ModuleInfo) := do
  let communities ← Index.detectCommunities nx.toNetworkx (index.graphs.get? .call)
  match index.graphs.get? .call with
  | none => .ok []
  | some g => .ok (sortDesc ModuleInfo.cohesion (communities.mapIdx (moduleInfo g)))

/-- `list(set(high_out) | set(high_in))` -/
def findHighCouplingNodes (index : Index.GraphIndex) : List String × Index.GraphIndex :=
  let (highOut, index) := index.highFanOutNodes fanThreshold (some .call)
  let (highIn, index) := index.highFanInNodes fanThreshold (some .call)
  ((highOut ++ highIn).dedup, index)

def findOrphanNodes (index : Index.GraphIndex) : List String :=
  match index.graphs.get? .call with
  | none => []
  | some g => g.nodes.keys.filter fun n => g.inDegree n = 0 ∧ g.outDegree n = 0

def analyzeArchitecture (nx : Networkx) (sg : SoftwareGraph) (index : Index.GraphIndex) :
    Except NxError (ArchitectureReport × Index.GraphIndex) := do
  let modules ← detectModules nx index
  let cycles ← Index.findCycles nx.toNetworkx (index.graphs.get? .call)
  let stats := index.graphs.values.map (layerStats nx.toNetworkx)
  let callStats := (index.graphs.get? .call).map (layerStats nx.toNetworkx)
  let (highCoupling, index') := findHighCouplingNodes index
  .ok (
    { totalNodes := (stats.map LayerStats.nodes).sum
      totalEdges := (stats.map LayerStats.edges).sum
      density := (callStats.map LayerStats.density).getD 0
      isDag := (callStats.map LayerStats.isDag).getD true
      couplingFindings := detectCoupling index
      layeringViolations := detectLayeringViolations sg
      modules := modules
      cycles := cycles
      highCouplingNodes := highCoupling
      orphanNodes := findOrphanNodes index }, index')

-- ---------------------------------------------------------------------------
-- Coupling
-- ---------------------------------------------------------------------------

section
variable {nx : Networkx} {index : Index.GraphIndex} {g : DiGraph} {sg : SoftwareGraph} {l : SGIRGraph}
  {x y : String} {fanIn fanOut : Nat}

theorem ends_subset_nodes : Digraph.ends g.edges.keys ⊆ g.nodes.keys := by
  intro x hx
  obtain ⟨e, he, rfl | rfl⟩ := Digraph.mem_ends.mp hx
  · exact (g.closed e he).1
  · exact (g.closed e he).2

/-- The degrees add up to twice the edges. -/
theorem sum_degree : (g.nodes.keys.map fun n => g.inDegree n + g.outDegree n).sum = 2 * g.edges.keys.length :=
  Digraph.sum_incident g.nodes.nodup ends_subset_nodes

/-- The least coupling of a severity. -/
def CouplingSeverity.floor : CouplingSeverity → Nat
  | .critical => criticalThreshold
  | .high => highThreshold
  | .medium => mediumThreshold
  | .low => 0

theorem floor_couplingSeverity_le : (couplingSeverity fanIn fanOut).floor ≤ fanIn + fanOut := by
  unfold couplingSeverity
  split
  · assumption
  · split
    · assumption
    · split
      · assumption
      · exact Nat.zero_le _

theorem couplingSeverity_ne_low (h : mediumThreshold ≤ fanIn + fanOut) :
    couplingSeverity fanIn fanOut ≠ .low := by
  unfold couplingSeverity
  rw [if_pos h]
  split
  · exact CouplingSeverity.noConfusion
  · split <;> exact CouplingSeverity.noConfusion

/-- Every finding is about its node. -/
theorem couplingFinding_spec (hx : x ∈ g.nodes.keys) : (couplingFinding g x).nodeId = x ∧
    (couplingFinding g x).totalCoupling = g.inDegree x + g.outDegree x ∧
    (couplingFinding g x).severity = couplingSeverity (g.inDegree x) (g.outDegree x) := by
  simp only [couplingFinding, Index.fan, if_pos hx, and_self]

theorem sum_floor {fs : List CouplingFinding} (h : ∀ f ∈ fs, f.severity ≠ .low) :
    (fs.map fun f => f.severity.floor).sum = 20 * (fs.countP fun f => f.severity = .critical) +
      12 * (fs.countP fun f => f.severity = .high) + 7 * (fs.countP fun f => f.severity = .medium) := by
  induction fs with
  | nil => rfl
  | cons f fs ih =>
    obtain ⟨hf, hfs⟩ := List.forall_mem_cons.mp h
    simp only [List.map_cons, List.sum_cons, ih hfs, List.countP_cons]
    cases hs : f.severity with
    | low => exact absurd hs hf
    | medium => simp [CouplingSeverity.floor, mediumThreshold]; omega
    | high => simp [CouplingSeverity.floor, highThreshold]; omega
    | critical => simp [CouplingSeverity.floor, criticalThreshold]; omega

theorem coupling_findings_bound (hg : index.graphs.get? .call = some g) :
    (detectCoupling index).Pairwise (fun f f' => f'.totalCoupling ≤ f.totalCoupling) ∧
      (∀ f ∈ detectCoupling index, f.severity ≠ .low) ∧
      (∀ x, x ∈ (detectCoupling index).map CouplingFinding.nodeId ↔
        x ∈ g.nodes.keys ∧ 7 ≤ g.inDegree x + g.outDegree x) ∧
      20 * ((detectCoupling index).countP fun f => f.severity = .critical) +
          12 * ((detectCoupling index).countP fun f => f.severity = .high) +
          7 * ((detectCoupling index).countP fun f => f.severity = .medium) ≤ 2 * g.edges.keys.length := by
  have hmem : ∀ f, f ∈ detectCoupling index ↔
      ∃ x ∈ g.nodes.keys, 7 ≤ g.inDegree x + g.outDegree x ∧ couplingFinding g x = f := by
    intro f
    simp only [detectCoupling, hg, mem_sortDesc, List.mem_filter, List.mem_map, decide_eq_true_eq]
    constructor
    · rintro ⟨⟨x, hx, rfl⟩, h⟩
      rw [(couplingFinding_spec hx).2.1] at h
      exact ⟨x, hx, h, rfl⟩
    · rintro ⟨x, hx, h, rfl⟩
      rw [(couplingFinding_spec hx).2.1]
      exact ⟨⟨x, hx, rfl⟩, h⟩
  have hlow : ∀ f ∈ detectCoupling index, f.severity ≠ .low := by
    intro f hf
    obtain ⟨x, hx, h, rfl⟩ := (hmem f).mp hf
    rw [(couplingFinding_spec hx).2.2]
    exact couplingSeverity_ne_low h
  refine ⟨?_, hlow, ?_, ?_⟩
  · have hsorted : (detectCoupling index).Pairwise fun f f' => (f'.totalCoupling : ℚ) ≤ f.totalCoupling := by
      rw [detectCoupling, hg]
      exact pairwise_sortDesc
    exact hsorted.imp Nat.cast_le.mp
  · intro x
    rw [List.mem_map]
    constructor
    · rintro ⟨f, hf, rfl⟩
      obtain ⟨x, hx, h, rfl⟩ := (hmem f).mp hf
      rw [(couplingFinding_spec hx).1]
      exact ⟨hx, h⟩
    · rintro ⟨hx, h⟩
      exact ⟨couplingFinding g x, (hmem _).mpr ⟨x, hx, h, rfl⟩, (couplingFinding_spec hx).1⟩
  · -- the floors are at most the couplings, and these are some of the degrees
    rw [← sum_floor hlow, ← sum_degree]
    have hperm : (detectCoupling index).Perm
        ((g.nodes.keys.map (couplingFinding g)).filter fun f => mediumThreshold ≤ f.totalCoupling) := by
      rw [detectCoupling, hg]
      exact sortDesc_perm
    have htotal : (g.nodes.keys.map (couplingFinding g)).map CouplingFinding.totalCoupling =
        g.nodes.keys.map fun n => g.inDegree n + g.outDegree n := by
      rw [List.map_map]
      exact List.map_congr_left fun x hx => (couplingFinding_spec hx).2.1
    calc ((detectCoupling index).map fun f => f.severity.floor).sum
        ≤ ((detectCoupling index).map CouplingFinding.totalCoupling).sum := by
          refine List.sum_le_sum fun f hf => ?_
          obtain ⟨x, hx, -, rfl⟩ := (hmem f).mp hf
          rw [(couplingFinding_spec hx).2.1, (couplingFinding_spec hx).2.2]
          exact floor_couplingSeverity_le
      _ ≤ ((g.nodes.keys.map (couplingFinding g)).map CouplingFinding.totalCoupling).sum := by
          rw [(hperm.map CouplingFinding.totalCoupling).sum_eq]
          exact (List.filter_sublist.map _).sum_le_sum fun _ _ => Nat.zero_le _
      _ = (g.nodes.keys.map fun n => g.inDegree n + g.outDegree n).sum := by rw [htotal]

/-- Seven callers of one function. -/
def hub : SGIRGraph where
  layer := .call
  nodes := ["hub", "a", "b", "c", "d", "e", "f", "g"].map fun id => { id, name := id }
  edges := ["a", "b", "c", "d", "e", "f", "g"].map fun caller => callEdge caller "hub" 1

theorem coupling_findings_hub : "hub" ∈ (detectCoupling (.ofGraph (single hub))).map CouplingFinding.nodeId :=
  ((coupling_findings_bound (g := ofLayer hub) rfl).2.2.1 "hub").mpr (by decide +kernel)

-- ---------------------------------------------------------------------------
-- Modules
-- ---------------------------------------------------------------------------

theorem cohesion_moduleInfo (i : Nat) (c : List String) :
    0 ≤ (moduleInfo g i c).cohesion ∧ (moduleInfo g i c).cohesion ≤ 1 := by
  simp only [moduleInfo]
  split
  · rename_i hpos
    have hpos' : (0 : ℚ) < (Digraph.inner g.edges.keys c + Digraph.crossing g.edges.keys c : Nat) :=
      Nat.cast_pos.mpr hpos
    refine ⟨div_nonneg (Nat.cast_nonneg _) hpos'.le, div_le_one_of_le₀ ?_ hpos'.le⟩
    exact Nat.cast_le.mpr (Nat.le_add_right _ _)
  · exact ⟨le_rfl, zero_le_one⟩

theorem map_mapIdx_moduleInfo {communities : List (List String)} {f : ModuleInfo → β} {h : List String → β}
    (hf : ∀ i c, f (moduleInfo g i c) = h c) : (communities.mapIdx (moduleInfo g)).map f = communities.map h := by
  refine List.ext_getElem (by simp) fun i hi hi' => ?_
  simp [hf]

/-- A call is internal to one module or external to two. -/
theorem modules_count_calls {communities : List (List String)} (hg : index.graphs.get? .call = some g)
    (hfound : nx.greedyModularityCommunities g = .ok communities) (hperm : communities.flatten.Perm g.nodes.keys) :
    ∃ modules, detectModules nx index = .ok modules ∧
      modules.Pairwise (fun m m' => m'.cohesion ≤ m.cohesion) ∧
      (∀ m ∈ modules, 0 ≤ m.cohesion ∧ m.cohesion ≤ 1) ∧
      (modules.map ModuleInfo.moduleId).Perm (List.range communities.length) ∧
      (modules.map ModuleInfo.nodeCount).sum = g.nodes.keys.length ∧
      (modules.map fun m => 2 * m.internalEdges + m.externalEdges).sum = 2 * g.edges.keys.length := by
  have hmodules : (sortDesc ModuleInfo.cohesion (communities.mapIdx (moduleInfo g))).Perm
      (communities.mapIdx (moduleInfo g)) := sortDesc_perm
  refine ⟨sortDesc ModuleInfo.cohesion (communities.mapIdx (moduleInfo g)), ?_, pairwise_sortDesc, ?_, ?_, ?_, ?_⟩
  · simp only [detectModules, hg, Index.detectCommunities, hfound, bind_ok_eq]
  · intro m hm
    obtain ⟨i, hi, rfl⟩ := List.mem_mapIdx.mp (hmodules.mem_iff.mp hm)
    exact cohesion_moduleInfo i _
  · refine (hmodules.map _).trans (.of_eq ?_)
    refine List.ext_getElem (by simp) fun i hi hi' => ?_
    simp [moduleInfo]
  · rw [(hmodules.map _).sum_eq, map_mapIdx_moduleInfo fun _ _ => rfl, ← hperm.length_eq, List.length_flatten]
  · have hends : Digraph.ends g.edges.keys ⊆ communities.flatten :=
      fun _ hx => hperm.mem_iff.mpr (ends_subset_nodes hx)
    rw [(hmodules.map _).sum_eq, map_mapIdx_moduleInfo
      (h := fun c => 2 * Digraph.inner g.edges.keys c + Digraph.crossing g.edges.keys c) fun _ _ => rfl]
    exact Digraph.sum_inner_crossing (hperm.nodup_iff.mpr g.nodes.nodup) hends

theorem modules_count_pingPong :
    ∃ modules, detectModules pingPongNetworkx (.ofGraph (single pingPong)) = .ok modules ∧
      (modules.map fun m => 2 * m.internalEdges + m.externalEdges).sum = 6 := by
  have hfound : pingPongNetworkx.greedyModularityCommunities (ofLayer pingPong) = .ok _ := rfl
  obtain ⟨modules, h, -, -, -, -, hsum⟩ := modules_count_calls graph_pingPong hfound (by decide +kernel)
  exact ⟨modules, h, hsum.trans (by decide +kernel)⟩

-- ---------------------------------------------------------------------------
-- Layers
-- ---------------------------------------------------------------------------

/-- A node belongs to the first layer that declares it. -/
theorem get?_buildNodeLayerMap : (buildNodeLayerMap sg).get? x =
    (sg.layers.find? fun l => x ∈ l.nodeIds).map fun l => GraphLayer.value l.layer := by
  have hlayers (ls : List SGIRGraph) (m : Dict String String) :
      (ls.foldl (fun nodeLayer l => l.nodes.foldl (noteLayer l.layer) nodeLayer) m).get? x =
        (m.get? x).or ((ls.find? fun l => x ∈ l.nodeIds).map fun l => GraphLayer.value l.layer) := by
    induction ls generalizing m with
    | nil => simp
    | cons l ls ih =>
      have hnodes : (l.nodes.foldl (noteLayer l.layer) m).get? x =
          (m.get? x).or ((l.nodes.find? fun n => n.id = x).map fun _ => GraphLayer.value l.layer) :=
        Dict.get?_insertNew
      rw [List.foldl_cons, ih, hnodes, Option.or_assoc, List.find?_cons]
      congr 1
      by_cases hx : x ∈ l.nodeIds
      · obtain ⟨n, hn, hid⟩ := List.mem_map.mp hx
        obtain ⟨n', hn'⟩ : ∃ n', (l.nodes.find? fun n => n.id = x) = some n' :=
          Option.isSome_iff_exists.mp (List.find?_isSome.mpr ⟨n, hn, decide_eq_true hid⟩)
        simp [hx, hn']
      · have hnone : (l.nodes.find? fun n => n.id = x) = none := by
          refine List.find?_eq_none.mpr fun n hn => ?_
          simpa using fun hid : n.id = x => hx (List.mem_map.mpr ⟨n, hn, hid⟩)
        simp [hx, hnone]
  rw [buildNodeLayerMap, hlayers, Dict.get?_empty, Option.none_or]

theorem GraphLayer.value_injective : Function.Injective GraphLayer.value := by
  intro a b h
  cases a <;> cases b <;> first | rfl | exact absurd h (by decide)

theorem mem_detectLayeringViolations {v : LayeringViolation} : v ∈ detectLayeringViolations sg ↔
    ∃ l ∈ sg.layers, ∃ e ∈ l.edges, layeringViolation (buildNodeLayerMap sg) e = some v := by
  simp only [detectLayeringViolations, List.mem_flatMap, List.mem_filterMap]

/-- Layers behind the one that declares a node do not matter for it. -/
theorem find?_append_cons {before after : List SGIRGraph} (h : x ∈ l.nodeIds) :
    ((before ++ l :: after).find? fun l => x ∈ l.nodeIds) = (before ++ [l]).find? fun l => x ∈ l.nodeIds := by
  simp [List.find?_append, h]

/-- An edge whose ends some layers declare first is a violation if these are not the same. -/
theorem layeringViolation_spec {e : SGIREdge} {s t : SGIRGraph}
    (hs : (sg.layers.find? fun l => e.source ∈ l.nodeIds) = some s)
    (ht : (sg.layers.find? fun l => e.target ∈ l.nodeIds) = some t) :
    (∃ v, layeringViolation (buildNodeLayerMap sg) e = some v ∧ v.sourceId = e.source ∧ v.targetId = e.target) ↔
      s ≠ t ∧ e.edgeType ∈ [EdgeType.call, .data, .import] := by
  have hvalue : GraphLayer.value s.layer ≠ GraphLayer.value t.layer ↔ s ≠ t := by
    refine not_congr ⟨fun h => ?_, fun h => h ▸ rfl⟩
    exact List.inj_on_of_nodup_map sg.keyed (List.mem_of_find?_eq_some hs) (List.mem_of_find?_eq_some ht)
      (GraphLayer.value_injective h)
  simp only [layeringViolation, get?_buildNodeLayerMap, hs, ht, Option.map_some, hvalue]
  split
  · rename_i h
    exact iff_of_true ⟨_, rfl, rfl, rfl⟩ h
  · rename_i h
    refine iff_of_false ?_ h
    rintro ⟨v, hv, -⟩
    cases hv

theorem ids_of_layeringViolation {m : Dict String String} {e : SGIREdge} {v : LayeringViolation}
    (h : layeringViolation m e = some v) : v.sourceId = e.source ∧ v.targetId = e.target := by
  unfold layeringViolation at h
  split at h
  · split at h
    · cases h
      exact ⟨rfl, rfl⟩
    · cases h
  · cases h

/-- In a graph whose layers declare what their edges join, an edge is a violation if up to its layer
different layers declare its ends first. So one end is declared before. -/
theorem layering_violation_earlier
    (hsg : ∀ l ∈ sg.layers, ∀ e ∈ l.edges, e.source ∈ l.nodeIds ∧ e.target ∈ l.nodeIds) :
    (∃ v ∈ detectLayeringViolations sg, v.sourceId = x ∧ v.targetId = y) ↔
      ∃ before l after e, sg.layers = before ++ l :: after ∧ e ∈ l.edges ∧ e.source = x ∧ e.target = y ∧
        e.edgeType ∈ [EdgeType.call, .data, .import] ∧
        ((before ++ [l]).find? fun l => x ∈ l.nodeIds) ≠ ((before ++ [l]).find? fun l => y ∈ l.nodeIds) ∧
        ∃ earlier ∈ before, x ∈ earlier.nodeIds ∨ y ∈ earlier.nodeIds := by
  -- where the ends of an edge are declared first
  have hends : ∀ before l after e, sg.layers = before ++ l :: after → e ∈ l.edges → ∃ s t,
      (sg.layers.find? fun l => e.source ∈ l.nodeIds) = some s ∧
      (sg.layers.find? fun l => e.target ∈ l.nodeIds) = some t ∧
      ((before ++ [l]).find? fun l => e.source ∈ l.nodeIds) = some s ∧
      ((before ++ [l]).find? fun l => e.target ∈ l.nodeIds) = some t := by
    intro before l after e hsplit he
    have hl : l ∈ sg.layers := hsplit ▸ List.mem_append_right before List.mem_cons_self
    have hfound : ∀ z ∈ l.nodeIds, ∃ s, (sg.layers.find? fun l => z ∈ l.nodeIds) = some s :=
      fun z hz => Option.isSome_iff_exists.mp (List.find?_isSome.mpr ⟨l, hl, decide_eq_true hz⟩)
    obtain ⟨hsource, htarget⟩ := hsg l hl e he
    obtain ⟨s, hs⟩ := hfound _ hsource
    obtain ⟨t, ht⟩ := hfound _ htarget
    refine ⟨s, t, hs, ht, ?_, ?_⟩
    · rw [← find?_append_cons hsource, ← hsplit, hs]
    · rw [← find?_append_cons htarget, ← hsplit, ht]
  constructor
  · rintro ⟨v, hv, rfl, rfl⟩
    obtain ⟨l, hl, e, he, hve⟩ := mem_detectLayeringViolations.mp hv
    obtain ⟨hsource, htarget⟩ := ids_of_layeringViolation hve
    obtain ⟨before, after, hsplit⟩ := List.append_of_mem hl
    obtain ⟨s, t, hs, ht, hs', ht'⟩ := hends before l after e hsplit he
    obtain ⟨hne, htype⟩ := (layeringViolation_spec hs ht).mp ⟨v, hve, hsource, htarget⟩
    rw [hsource, htarget]
    refine ⟨before, l, after, e, hsplit, he, rfl, rfl, htype, by simpa [hs', ht'] using hne, ?_⟩
    -- if both were declared first in the layer of the edge, they would be declared in the same
    by_contra hnone
    have hlast : ∀ z s, ((before ++ [l]).find? fun l => z ∈ l.nodeIds) = some s → (∀ b ∈ before, z ∉ b.nodeIds) →
        s = l := by
      intro z s hz hbefore
      rcases List.mem_append.mp (List.mem_of_find?_eq_some hz) with hb | hl
      · have hdeclared := List.find?_some hz
        exact absurd (of_decide_eq_true hdeclared) (hbefore s hb)
      · exact List.mem_singleton.mp hl
    have hnone' : ∀ b ∈ before, e.source ∉ b.nodeIds ∧ e.target ∉ b.nodeIds := by
      intro b hb
      exact not_or.mp fun h => hnone ⟨b, hb, h⟩
    exact hne ((hlast _ s hs' fun b hb => (hnone' b hb).1).trans (hlast _ t ht' fun b hb => (hnone' b hb).2).symm)
  · rintro ⟨before, l, after, e, hsplit, he, rfl, rfl, htype, hne, -⟩
    obtain ⟨s, t, hs, ht, hs', ht'⟩ := hends before l after e hsplit he
    rw [hs', ht'] at hne
    obtain ⟨v, hv, hids⟩ := (layeringViolation_spec hs ht).mpr ⟨fun h => hne (congrArg some h), htype⟩
    have hl : l ∈ sg.layers := hsplit ▸ List.mem_append_right before List.mem_cons_self
    exact ⟨v, mem_detectLayeringViolations.mpr ⟨l, hl, e, he, hv⟩, hids⟩

/-- A function that is called, and what it writes. -/
def writer : SoftwareGraph where
  repositoryName := "repo"
  layers :=
    [{ layer := .call, nodes := [{ id := "f", name := "f" }] },
     { layer := .dataFlow
       nodes := ["f", "row"].map fun id => { id, name := id }
       edges := [{ source := "f", target := "row", edgeType := .data }] }]
  keyed := by decide

theorem layering_violation_writer :
    ∃ v ∈ detectLayeringViolations writer, v.sourceId = "f" ∧ v.targetId = "row" := by
  refine (layering_violation_earlier (by decide)).mpr
    ⟨[{ layer := .call, nodes := [{ id := "f", name := "f" }] }], _, [], _, rfl, List.mem_cons_self, rfl, rfl, ?_⟩
  decide

-- ---------------------------------------------------------------------------
-- Runs
-- ---------------------------------------------------------------------------

/-- What is done with an index between two builds. -/
inductive Use
  | query (q : Index.Query)
  | analyze

inductive Outcome
  | answer (a : Index.Answer)
  | report (r : Except NxError ArchitectureReport)

def useIndex (nx : Networkx) (sg : SoftwareGraph) (index : Index.GraphIndex) : Use → Outcome × Index.GraphIndex
  | .query q => (.answer (index.answer nx.toNetworkx q).1, (index.answer nx.toNetworkx q).2)
  | .analyze =>
    match analyzeArchitecture nx sg index with
    | .error e => (.report (.error e), index)
    | .ok (report, index') => (.report (.ok report), index')

variable {graphs : Dict GraphLayer DiGraph}

theorem findHighCouplingNodes_spec (h : Index.Cached graphs index) :
    (findHighCouplingNodes index).1 = (findHighCouplingNodes { graphs }).1 ∧
      Index.Cached graphs (findHighCouplingNodes index).2 := by
  obtain ⟨hout, hcached⟩ := Index.answer_spec default (.highFanOutNodes fanThreshold (some .call)) h
  obtain ⟨hin, hcached'⟩ := Index.answer_spec default (.highFanInNodes fanThreshold (some .call)) hcached
  obtain ⟨-, hbare⟩ :=
    Index.answer_spec default (.highFanOutNodes fanThreshold (some .call)) (Index.cached_bare graphs)
  obtain ⟨hin', -⟩ := Index.answer_spec default (.highFanInNodes fanThreshold (some .call)) hbare
  refine ⟨?_, hcached'⟩
  have hout' := Index.Answer.nodes.inj hout
  have hin'' := (Index.Answer.nodes.inj hin).trans (Index.Answer.nodes.inj hin').symm
  exact congrArg List.dedup (congrArg₂ (· ++ ·) hout' hin'')

/-- What a use finds depends on the digraphs alone, and it leaves the index as good. -/
theorem useIndex_spec (use : Use) (h : Index.Cached graphs index) :
    (useIndex nx sg index use).1 = (useIndex nx sg { graphs } use).1 ∧
      Index.Cached graphs (useIndex nx sg index use).2 := by
  cases use with
  | query q =>
    obtain ⟨hanswer, hcached⟩ := Index.answer_spec nx.toNetworkx q h
    exact ⟨congrArg Outcome.answer hanswer, hcached⟩
  | analyze =>
    obtain ⟨hcoupling, hcached⟩ := findHighCouplingNodes_spec h
    simp only [useIndex, analyzeArchitecture, detectModules, detectCoupling, findOrphanNodes, h.same]
    cases Index.detectCommunities nx.toNetworkx (graphs.get? .call) with
    | error e => exact ⟨rfl, h⟩
    | ok communities =>
      cases Index.findCycles nx.toNetworkx (graphs.get? .call) with
      | error e => cases graphs.get? .call <;> exact ⟨rfl, h⟩
      | ok cycles => cases graphs.get? .call <;> exact ⟨by simp only [bind_ok_eq, hcoupling], hcached⟩

theorem report_of_run (uses : List Use) : Mealy.outputs (useIndex nx sg) (.ofGraph sg) uses =
    uses.map fun use => (useIndex nx sg (.ofGraph sg) use).1 := by
  have hrun : ∀ index, Index.Cached (Index.rebuilt sg .empty) index →
      Mealy.outputs (useIndex nx sg) index uses = uses.map fun use => (useIndex nx sg (.ofGraph sg) use).1 := by
    induction uses with
    | nil => exact fun _ _ => rfl
    | cons use uses ih =>
      intro index h
      obtain ⟨houtcome, hcached⟩ := useIndex_spec use h
      rw [Mealy.outputs_cons, houtcome, ih _ hcached]
      rfl
  exact hrun _ (Index.cached_bare _)

end

end Intelliqx.Graph.Agents
