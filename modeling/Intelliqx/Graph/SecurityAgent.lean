import Intelliqx.Base.Dict
import Intelliqx.Graph.Models

/-!
# Security boundaries

`build_boundary_map` gives each node id one boundary, that of the first node
declaring it. The builders of the other layers leave the boundary at its
default, so the layer that comes first decides whether the detectors see a
boundary at all (`boundaries_shown_iff`).
-/

namespace Intelliqx.Graph

namespace SecurityAgent

def noteBoundary (boundaryMap : Dict String SecurityBoundary) (node : SGIRNode) :
    Dict String SecurityBoundary :=
  if boundaryMap.contains node.id then boundaryMap
  else boundaryMap.insert node.id node.securityBoundary

def buildBoundaryMap (sg : SoftwareGraph) : Dict String SecurityBoundary :=
  sg.layers.foldl (fun boundaryMap l => l.nodes.foldl noteBoundary boundaryMap) .empty

/-- Some layer declares the id with a boundary. -/
def Bounded (sg : SoftwareGraph) (id : String) : Prop :=
  ∃ n ∈ sg.allNodes, n.id = id ∧ n.securityBoundary ≠ .none

/-- No id that some layer declares with a boundary is mapped to `NONE`. -/
def BoundariesShown (sg : SoftwareGraph) : Prop :=
  ∀ id, Bounded sg id → (buildBoundaryMap sg).get? id ≠ some .none

/-- An id whose first node has the default boundary has it in every layer. -/
def DefaultOnlyFirst (sg : SoftwareGraph) : Prop :=
  ∀ id n, sg.findNode id = some n → n.securityBoundary = .none → ¬ Bounded sg id

section
variable {sg : SoftwareGraph} {id : String}

theorem buildBoundaryMap_eq :
    buildBoundaryMap sg = Dict.insertNew SGIRNode.id SGIRNode.securityBoundary sg.allNodes .empty := by
  unfold buildBoundaryMap SoftwareGraph.allNodes Dict.insertNew
  rw [List.foldl_flatMap]
  rfl

theorem get?_buildBoundaryMap :
    (buildBoundaryMap sg).get? id = (sg.findNode id).map SGIRNode.securityBoundary := by
  rw [buildBoundaryMap_eq, Dict.get?_insertNew, Dict.get?_empty, Option.none_or]
  rfl

theorem boundaries_shown_iff : BoundariesShown sg ↔ DefaultOnlyFirst sg := by
  constructor
  · intro h id n hfirst hnone hbounded
    apply h id hbounded
    rw [get?_buildBoundaryMap, hfirst, Option.map_some, hnone]
  · intro h id hbounded hmap
    rw [get?_buildBoundaryMap] at hmap
    obtain ⟨n, hfirst, hnone⟩ := Option.map_eq_some_iff.mp hmap
    exact h id n hfirst hnone hbounded

end

/-- A function the call layer declares and the security layer classifies. -/
def classified : SoftwareGraph where
  repositoryName := "repo"
  layers :=
    [{ layer := .call, nodes := [{ id := "app.py::login", name := "login" }] },
      { layer := .security
        nodes := [{ id := "app.py::login", name := "login", securityBoundary := .authenticated }] }]
  keyed := by decide

theorem boundary_hidden : ¬ ∀ sg : SoftwareGraph, BoundariesShown sg := by
  intro h
  have hbounded : Bounded classified "app.py::login" := by
    refine ⟨_, List.mem_cons_of_mem _ List.mem_cons_self, rfl, ?_⟩
    simp
  exact h classified "app.py::login" hbounded (by rfl)

end SecurityAgent

end Intelliqx.Graph
