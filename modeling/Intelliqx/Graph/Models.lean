import Intelliqx.Base.FirstBy
import Intelliqx.Py.Equality

/-!
# The software graph

Nodes, edges, layers and the multi-layer graph. Layers are filed under their
own `layer`, as `add_layer` files them, so no two layers of a graph have the
same one.
-/

namespace Intelliqx.Graph

inductive EdgeType
  | call
  | data
  | control
  | dependency
  | event
  | network
  | database
  | stateTransition
  | import
  | inherit
  | implement
  | compose
  deriving DecidableEq, Repr

inductive GraphLayer
  | call
  | dataFlow
  | controlFlow
  | dependency
  | stateTransition
  | resource
  | security
  | deployment
  deriving DecidableEq, Repr

inductive NodeType
  | function
  | method
  | «class»
  | module
  | package
  | service
  | endpoint
  | eventHandler
  | middleware
  | datamodel
  | config
  | infrastructure
  | unknown
  deriving DecidableEq, Repr

inductive ComplexityEstimate
  | constant
  | logarithmic
  | linear
  | linearithmic
  | quadratic
  | cubic
  | exponential
  | unknown
  deriving DecidableEq, Repr

inductive SecurityBoundary
  | none
  | authenticated
  | authorized
  | admin
  | internal
  | external
  | sandboxed
  deriving DecidableEq, Repr

structure SourceLocation where
  filePath : String
  lineStart : Int
  lineEnd : Int
  columnStart : Int := 0
  columnEnd : Int := 0
  deriving DecidableEq, Repr

/-- `createdAt` is the time of the clock, which stands still while a graph is built here. -/
structure SGIRNode where
  id : String
  name : String
  purpose : String := ""
  nodeType : NodeType := .unknown
  language : String := "unknown"
  sourceLocation : Option SourceLocation := none
  inputs : List String := []
  outputs : List String := []
  preconditions : List String := []
  postconditions : List String := []
  sideEffects : List String := []
  externalDependencies : List String := []
  resourceUsage : Dict String Py.Json := .empty
  complexity : ComplexityEstimate := .unknown
  failureModes : List String := []
  securityBoundary : SecurityBoundary := .none
  ownership : Option String := none
  testCoverage : ℚ := 0
  documentation : String := ""
  performanceMetrics : Dict String Py.Json := .empty
  createdAt : Int := 0
  isDead : Bool := false
  isDuplicate : Bool := false
  optimizationNotes : List String := []
  deriving DecidableEq

/-- `==` of two nodes: field by field, and dictionaries in any order. -/
def SGIRNode.Same (n m : SGIRNode) : Prop :=
  Py.sameDict n.resourceUsage m.resourceUsage ∧ Py.sameDict n.performanceMetrics m.performanceMetrics ∧
    { n with resourceUsage := m.resourceUsage, performanceMetrics := m.performanceMetrics } = m

theorem SGIRNode.same_refl (n : SGIRNode) : n.Same n := ⟨Py.sameDict_refl _, Py.sameDict_refl _, rfl⟩

structure SGIREdge where
  source : String
  target : String
  edgeType : EdgeType
  weight : ℚ := 1
  label : String := ""
  deriving DecidableEq

structure SGIRGraph where
  layer : GraphLayer
  nodes : List SGIRNode := []
  edges : List SGIREdge := []
  deriving DecidableEq

namespace SGIRGraph

def nodeIds (g : SGIRGraph) : List String := g.nodes.map SGIRNode.id

def edgePairs (g : SGIRGraph) : List (String × String) := g.edges.map fun e => (e.source, e.target)

/-- No id is declared twice and no edge dangles. -/
structure WellFormed (g : SGIRGraph) : Prop where
  distinct : g.nodeIds.Nodup
  declared : ∀ e ∈ g.edges, e.source ∈ g.nodeIds ∧ e.target ∈ g.nodeIds

instance (g : SGIRGraph) : Decidable g.WellFormed :=
  decidable_of_iff (g.nodeIds.Nodup ∧ ∀ e ∈ g.edges, e.source ∈ g.nodeIds ∧ e.target ∈ g.nodeIds)
    ⟨fun ⟨distinct, declared⟩ => ⟨distinct, declared⟩, fun h => ⟨h.distinct, h.declared⟩⟩

def SameNodeIds (g g' : SGIRGraph) : Prop := ∀ x, x ∈ g.nodeIds ↔ x ∈ g'.nodeIds

def SameEdges (g g' : SGIRGraph) : Prop := ∀ e, e ∈ g.edges ↔ e ∈ g'.edges

end SGIRGraph

structure RepositoryMetadata where
  name : String
  languages : List String := []
  frameworks : List String := []
  buildSystems : List String := []
  deriving DecidableEq, Repr

/-- Each layer is filed under its own key, as `add_layer` files it. The layers share no node objects. -/
structure SoftwareGraph where
  repositoryName : String
  layers : List SGIRGraph
  keyed : (layers.map SGIRGraph.layer).Nodup

namespace SoftwareGraph

/-- Rebuild every layer; a rebuilt layer stays the layer it is. -/
def mapLayers (g : SoftwareGraph) (f : SGIRGraph → SGIRGraph) (h : ∀ l, (f l).layer = l.layer) :
    SoftwareGraph where
  repositoryName := g.repositoryName
  layers := g.layers.map f
  keyed := by simpa [Function.comp_def, h] using g.keyed

/-- Add the layer, in the place of the one it replaces. -/
def addLayer (g : SoftwareGraph) (graph : SGIRGraph) : SoftwareGraph where
  repositoryName := g.repositoryName
  layers :=
    if graph.layer ∈ g.layers.map SGIRGraph.layer then g.layers.map fun l => if l.layer = graph.layer then graph else l
    else g.layers ++ [graph]
  keyed := by
    split
    · have hsame : (SGIRGraph.layer ∘ fun l => if l.layer = graph.layer then graph else l) = SGIRGraph.layer := by
        funext l
        by_cases h : l.layer = graph.layer <;> simp [h]
      rw [List.map_map, hsame]
      exact g.keyed
    · rename_i h
      rw [List.map_append]
      exact List.nodup_append.mpr ⟨g.keyed, List.nodup_singleton _, fun x hx y hy => by
        rintro rfl
        exact h (List.mem_singleton.mp hy ▸ hx)⟩

/-- `del layers[layer]` -/
def removeLayer (g : SoftwareGraph) (layer : GraphLayer) : SoftwareGraph where
  repositoryName := g.repositoryName
  layers := g.layers.filter fun l => l.layer ≠ layer
  keyed := g.keyed.sublist (List.filter_sublist.map _)

def getLayer (g : SoftwareGraph) (layer : GraphLayer) : Option SGIRGraph :=
  g.layers.find? fun l => l.layer = layer

def allNodes (g : SoftwareGraph) : List SGIRNode := g.layers.flatMap SGIRGraph.nodes

def findNode (g : SoftwareGraph) (nodeId : String) : Option SGIRNode :=
  g.allNodes.find? fun n => n.id = nodeId

/-- `node_ids`: the ids some layer declares. -/
def nodeIds (g : SoftwareGraph) : List String := g.allNodes.map SGIRNode.id

/-- `edge_keys`: the edges of the merged graph. -/
def edgeKeys (g : SoftwareGraph) : List (String × String) := g.layers.flatMap SGIRGraph.edgePairs

section
variable {g : SoftwareGraph} {f : SGIRGraph → SGIRGraph} {h : ∀ l, (f l).layer = l.layer}

theorem getLayer_of_mem (hl : l ∈ g.layers) : g.getLayer l.layer = some l :=
  (find?_key_iff g.keyed).mpr ⟨hl, rfl⟩

theorem mem_allNodes : n ∈ g.allNodes ↔ ∃ l ∈ g.layers, n ∈ l.nodes := List.mem_flatMap

theorem mem_nodeIds : x ∈ g.nodeIds ↔ ∃ l ∈ g.layers, ∃ n ∈ l.nodes, n.id = x := by
  simp only [nodeIds, List.mem_map, mem_allNodes]
  constructor
  · rintro ⟨n, ⟨l, hl, hn⟩, rfl⟩; exact ⟨l, hl, n, hn, rfl⟩
  · rintro ⟨l, hl, n, hn, rfl⟩; exact ⟨n, ⟨l, hl, hn⟩, rfl⟩

theorem mem_nodeIds_iff : x ∈ g.nodeIds ↔ ∃ l ∈ g.layers, x ∈ l.nodeIds := by
  simp only [mem_nodeIds, SGIRGraph.nodeIds, List.mem_map]

theorem kinds_mapLayers (g : SoftwareGraph) (f : SGIRGraph → SGIRGraph) (h : ∀ l, (f l).layer = l.layer) :
    (g.mapLayers f h).layers.map SGIRGraph.layer = g.layers.map SGIRGraph.layer := by
  simp [mapLayers, Function.comp_def, h]

theorem mem_nodeIds_mapLayers : x ∈ (g.mapLayers f h).nodeIds ↔ ∃ l ∈ g.layers, x ∈ (f l).nodeIds := by
  simp [mem_nodeIds_iff, mapLayers]

theorem mem_edgeKeys : (x, y) ∈ g.edgeKeys ↔ ∃ l ∈ g.layers, ∃ e ∈ l.edges, e.source = x ∧ e.target = y := by
  simp [edgeKeys, SGIRGraph.edgePairs]

end

end SoftwareGraph

end Intelliqx.Graph
