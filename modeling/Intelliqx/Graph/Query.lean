import Intelliqx.Base.Digraph
import Intelliqx.Graph.Models

/-!
# Queries on the merged graph

A `GraphIndex` is a graph together with the order in which networkx iterates
the sets of reachable nodes, which is arbitrary: of each set it is some
permutation.
-/

namespace Intelliqx.Graph

open Intelliqx.Digraph

structure GraphIndex where
  graph : SoftwareGraph
  reachableFrom : String → List String
  perm : ∀ x, (reachableFrom x).Perm (descendants graph.edgeKeys x)

namespace GraphIndex

def build (g : SoftwareGraph) : GraphIndex := ⟨g, descendants g.edgeKeys, fun _ => .refl _⟩

/-- The nodes of the merged graph: networkx adds the ends of edges too. -/
def mergedNodes (index : GraphIndex) : List String :=
  (index.graph.nodeIds ++ index.graph.edgeKeys.map Prod.fst ++ index.graph.edgeKeys.map Prod.snd).dedup

def findDeadNodes (index : GraphIndex) (entryPoints : List String) : List String :=
  index.mergedNodes.filter fun n =>
    ¬ entryPoints.any fun ep => ep ∈ index.mergedNodes ∧ (n = ep ∨ n ∈ index.reachableFrom ep)

/-- `fan_out` in one layer; parallel edges count once. -/
def fanOut (index : GraphIndex) (nodeId : String) (layer : GraphLayer) : Nat :=
  match index.graph.getLayer layer with
  | none => 0
  | some l => ((l.edgePairs.filter fun e => e.1 = nodeId).map Prod.snd).dedup.length

section
variable {index : GraphIndex} {x y : String}

theorem mem_reachableFrom :
    y ∈ index.reachableFrom x ↔ y ≠ x ∧ Reaches index.graph.edgeKeys x y := by
  rw [(index.perm x).mem_iff, mem_descendants]

theorem mem_findDeadNodes {entryPoints : List String} (h : x ∈ index.findDeadNodes entryPoints) :
    ∀ ep ∈ entryPoints, ep ∈ index.graph.nodeIds → ¬ Reaches index.graph.edgeKeys ep x := by
  intro ep hep hdeclared hr
  simp only [findDeadNodes, List.mem_filter, List.any_eq_true, decide_eq_true_eq, not_exists,
    not_and, not_or] at h
  have hmerged : ep ∈ index.mergedNodes := by simp [mergedNodes, hdeclared]
  obtain ⟨hne, hnr⟩ := h.2 ep hep hmerged
  exact hnr (mem_reachableFrom.mpr ⟨hne, hr⟩)

end

end GraphIndex

end Intelliqx.Graph
