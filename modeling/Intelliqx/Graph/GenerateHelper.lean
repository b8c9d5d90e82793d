import Intelliqx.Base.Dict
import Intelliqx.Base.FirstBy
import Intelliqx.Graph.Models

/-!
# The index of the code generator

`_GenerateHelper.build` gathers the nodes by type and id and the edges by
their ends. What it answers is what the graph says: `mem_childrenOf` and
`mem_parentsOf` read its dictionaries back as edges between declared nodes.
-/

namespace Intelliqx.Graph

structure GenerateHelper where
  nodesByType : Dict NodeType (List SGIRNode)
  nodeById : Dict String SGIRNode
  childrenOfParent : Dict String (List SGIRNode)
  parentsOfChild : Dict String (List SGIRNode)
  importEdges : List SGIREdge

namespace GenerateHelper

/-- An edge with the nodes filed under its two ends. -/
structure Link where
  edge : SGIREdge
  source : SGIRNode
  target : SGIRNode

def resolve (nodeById : Dict String SGIRNode) (edge : SGIREdge) : Option Link := do
  let target ← nodeById.get? edge.target
  let source ← nodeById.get? edge.source
  return ⟨edge, source, target⟩

def build (graph : SoftwareGraph) : GenerateHelper :=
  let nodeById := Dict.index SGIRNode.id id graph.allNodes
  let edges := graph.layers.flatMap SGIRGraph.edges
  let links := edges.filterMap (resolve nodeById)
  { nodesByType := Dict.group SGIRNode.nodeType id graph.allNodes
    nodeById
    childrenOfParent := Dict.group (fun l => l.edge.source) Link.target links
    parentsOfChild := Dict.group (fun l => l.edge.target) Link.source links
    importEdges := edges.filter fun e => e.edgeType = .import }

variable (helper : GenerateHelper)

def ofType (t : NodeType) : List SGIRNode := (helper.nodesByType.get? t).getD []

def findNode (nodeId : String) : Option SGIRNode := helper.nodeById.get? nodeId

def childrenOf (parent : SGIRNode) (candidates : List SGIRNode) : List SGIRNode :=
  let childIds := ((helper.childrenOfParent.get? parent.id).getD []).map SGIRNode.id
  candidates.filter fun c => c.id ∈ childIds

def isChildOf (child parent : SGIRNode) : Bool :=
  ((helper.parentsOfChild.get? child.id).getD []).any fun p => p.id = parent.id

def parentsOf (child : SGIRNode) : List SGIRNode := (helper.parentsOfChild.get? child.id).getD []

/-- The fallback of `is_under_modules`: some module has the node's source file. -/
def inModuleFile (node : SGIRNode) (modules : List SGIRNode) : Bool :=
  match node.sourceLocation with
  | some location =>
    location.filePath ≠ "" &&
      modules.any fun m => m.sourceLocation.any fun l => l.filePath = location.filePath
  | none => false

def isUnderModules (node : SGIRNode) (modules : List SGIRNode) : Bool :=
  (helper.parentsOf node).any (fun p => p.id ∈ modules.map SGIRNode.id) || inModuleFile node modules

end GenerateHelper

namespace SoftwareGraph

def Linked (g : SoftwareGraph) (x y : String) : Prop :=
  (x, y) ∈ g.edgeKeys ∧ x ∈ g.nodeIds ∧ y ∈ g.nodeIds

instance (g : SoftwareGraph) (x y : String) : Decidable (g.Linked x y) :=
  inferInstanceAs (Decidable (_ ∧ _ ∧ _))

end SoftwareGraph

namespace GenerateHelper

variable {g : SoftwareGraph}

theorem ofType_build (t : NodeType) :
    (build g).ofType t = g.allNodes.filter fun n => n.nodeType = t := by
  simp [ofType, build, Dict.getD_group]

theorem mem_links {link : Link} :
    link ∈ (g.layers.flatMap SGIRGraph.edges).filterMap (resolve (build g).nodeById) ↔
      (∃ l ∈ g.layers, link.edge ∈ l.edges) ∧ (build g).findNode link.edge.source = some link.source ∧
        (build g).findNode link.edge.target = some link.target := by
  obtain ⟨edge, source, target⟩ := link
  simp only [List.mem_filterMap, List.mem_flatMap, resolve, findNode]
  constructor
  · rintro ⟨e, he, h⟩
    obtain ⟨t, ht, s, hs, h⟩ : ∃ t, (build g).nodeById.get? e.target = some t ∧
        ∃ s, (build g).nodeById.get? e.source = some s ∧ Link.mk e s t = ⟨edge, source, target⟩ := by
      simpa [Option.bind_eq_some_iff] using h
    cases h
    exact ⟨he, hs, ht⟩
  · rintro ⟨he, hs, ht⟩
    exact ⟨edge, he, by simp [hs, ht]⟩

theorem id_of_findNode (h : (build g).findNode x = some n) : n.id = x := by
  obtain ⟨m, -, hm, rfl⟩ := Dict.exists_of_get?_index h
  exact hm

theorem exists_findNode : (∃ n, (build g).findNode x = some n) ↔ x ∈ g.nodeIds := by
  rw [← Option.isSome_iff_exists]
  exact Dict.isSome_get?_index

theorem exists_link {x y : String} :
    (∃ link ∈ (g.layers.flatMap SGIRGraph.edges).filterMap (resolve (build g).nodeById),
      link.edge.source = x ∧ link.edge.target = y) ↔ g.Linked x y := by
  simp only [mem_links, SoftwareGraph.Linked, SoftwareGraph.mem_edgeKeys, ← exists_findNode]
  constructor
  · rintro ⟨link, ⟨⟨l, hl, he⟩, hs, ht⟩, rfl, rfl⟩
    exact ⟨⟨l, hl, _, he, rfl, rfl⟩, ⟨_, hs⟩, _, ht⟩
  · rintro ⟨⟨l, hl, e, he, rfl, rfl⟩, ⟨s, hs⟩, t, ht⟩
    exact ⟨⟨e, s, t⟩, ⟨⟨l, hl, he⟩, hs, ht⟩, rfl, rfl⟩

theorem childrenOf_build (parent : SGIRNode) (candidates : List SGIRNode) :
    (build g).childrenOf parent candidates = candidates.filter fun c => g.Linked parent.id c.id := by
  have hgroup : ((build g).childrenOfParent.get? parent.id).getD [] =
      (((g.layers.flatMap SGIRGraph.edges).filterMap (resolve (build g).nodeById)).filter
        fun l => l.edge.source = parent.id).map Link.target := Dict.getD_group
  apply List.filter_congr
  intro c _
  apply decide_eq_decide.mpr
  simp only [hgroup, List.mem_map, List.mem_filter, decide_eq_true_eq, ← exists_link]
  constructor
  · rintro ⟨n, ⟨link, ⟨hl, hs⟩, rfl⟩, hc⟩
    exact ⟨link, hl, hs, by rw [← hc, id_of_findNode (mem_links.mp hl).2.2]⟩
  · rintro ⟨link, hl, hs, ht⟩
    exact ⟨link.target, ⟨link, ⟨hl, hs⟩, rfl⟩, by rw [← ht, id_of_findNode (mem_links.mp hl).2.2]⟩

theorem mem_parentsOf_ids : (∃ p ∈ (build g).parentsOf n, p.id = x) ↔ g.Linked x n.id := by
  have hgroup : (build g).parentsOf n =
      (((g.layers.flatMap SGIRGraph.edges).filterMap (resolve (build g).nodeById)).filter
        fun l => l.edge.target = n.id).map Link.source := Dict.getD_group
  simp only [hgroup, List.mem_map, List.mem_filter, decide_eq_true_eq, ← exists_link]
  constructor
  · rintro ⟨p, ⟨link, ⟨hl, ht⟩, rfl⟩, hx⟩
    exact ⟨link, hl, by rw [← hx, id_of_findNode (mem_links.mp hl).2.1], ht⟩
  · rintro ⟨link, hl, hs, ht⟩
    exact ⟨link.source, ⟨link, ⟨hl, ht⟩, rfl⟩, by rw [← hs, id_of_findNode (mem_links.mp hl).2.1]⟩

theorem isUnderModules_build (n : SGIRNode) (modules : List SGIRNode) :
    (build g).isUnderModules n modules = true ↔
      (∃ m ∈ modules, g.Linked m.id n.id) ∨ inModuleFile n modules = true := by
  rw [isUnderModules, Bool.or_eq_true]
  refine or_congr ?_ Iff.rfl
  simp only [List.any_eq_true, decide_eq_true_eq, List.mem_map, ← mem_parentsOf_ids]
  constructor
  · rintro ⟨p, hp, m, hm, hid⟩; exact ⟨m, hm, p, hp, hid.symm⟩
  · rintro ⟨m, hm, p, hp, hid⟩; exact ⟨p, hp, m, hm, hid.symm⟩

theorem isChildOf_build (child parent : SGIRNode) :
    (build g).isChildOf child parent = true ↔ g.Linked parent.id child.id := by
  simp only [← mem_parentsOf_ids, isChildOf, parentsOf, List.any_eq_true, decide_eq_true_eq]

-- ---------------------------------------------------------------------------
-- The index and the graph
-- ---------------------------------------------------------------------------

/-- The index answers as a scan of the graph does. -/
structure Agrees (g : SoftwareGraph) : Prop where
  findNode : ∀ nodeId, Option.Rel SGIRNode.Same ((build g).findNode nodeId) (g.findNode nodeId)
  isChildOf : ∀ child parent, (build g).isChildOf child parent = true ↔ g.Linked parent.id child.id
  childrenOf : ∀ parent candidates,
    (build g).childrenOf parent candidates = candidates.filter fun c => (build g).isChildOf c parent

/-- The first and the last declaration of an id are equal nodes. -/
def FirstIsLast (g : SoftwareGraph) : Prop :=
  ∀ before first between last after, g.allNodes = before ++ first :: (between ++ last :: after) →
    first.id = last.id → (∀ n ∈ before, n.id ≠ first.id) → (∀ n ∈ after, n.id ≠ first.id) → last.Same first

theorem findNode_build (nodeId : String) :
    (build g).findNode nodeId = g.allNodes.reverse.find? fun n => n.id = nodeId := by
  simp [findNode, build, Dict.get?_index]

/-- `a` is declared by two layers with different purposes. -/
def twicePurposed : SoftwareGraph where
  repositoryName := "repo"
  layers := [
    { layer := .call, nodes := [{ id := "a", name := "a", purpose := "old" }] },
    { layer := .security, nodes := [{ id := "a", name := "a", purpose := "new" }] }]
  keyed := by decide

end GenerateHelper

end Intelliqx.Graph
