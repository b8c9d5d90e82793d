import Intelliqx.Base.Ancestors
import Intelliqx.Base.StableSort
import Intelliqx.Graph.CriticalPath
import Intelliqx.Graph.CycleBreaking

/-!
# What the analysis agents share

The agents read the layers of a `GraphIndex` and ask networkx for paths,
descendants and components. A report is sorted by a score, the highest first.
-/

namespace Intelliqx.Graph.Agents

open Index (DiGraph EdgeData NxError callEdge ofLayer weights)
open Weighted (Walk)

/-- The functions of networkx that the agents call themselves. What is a set
there comes in some order. -/
structure Networkx extends Index.Networkx where
  descendants : DiGraph → String → List String
  /-- `shortest_path` without weights -/
  hopPath : DiGraph → String → String → Except NxError (List String)
  stronglyConnectedComponents : DiGraph → List (List String)

def hops (g : DiGraph) : List ((String × String) × Nat) := g.edges.keys.map fun k => (k, 1)

/-- A walk with as few edges as any. -/
def FewestHops (g : DiGraph) (source target : String) (p : List String) : Prop :=
  Bidirectional.Least (hops g) source target p

structure Networkx.Lawful (nx : Networkx) (g : DiGraph) : Prop where
  descendants : ∀ x ∈ g.nodes.keys, (nx.descendants g x).Perm (Digraph.descendants g.edges.keys x)
  hopPath : ∀ x ∈ g.nodes.keys, ∀ y ∈ Digraph.descendants g.edges.keys x,
    ∃ p, nx.hopPath g x y = .ok p ∧ FewestHops g x y p
  component : ∀ scc ∈ nx.stronglyConnectedComponents g, IsComponent g.nodes.keys g.edges.keys scc
  covered : ∀ x ∈ g.nodes.keys, ∃ scc ∈ nx.stronglyConnectedComponents g, x ∈ scc
  isDag : nx.isDirectedAcyclicGraph g = true ↔ Digraph.Acyclic g.edges.keys

/-- What leaves an agent: an error of networkx, or a missing edge. -/
inductive AgentError
  | networkx (e : NxError)
  | keyError (edge : String × String)
  deriving DecidableEq

/-- `sort(key=..., reverse=True)`, which keeps the order of what is equal. -/
def sortDesc (score : α → ℚ) (l : List α) : List α := sortBy (fun a => OrderDual.toDual (score a)) l

/-- `sum(call_graph[u][v].get("weight", 1.0) for u, v in pairwise(path))` -/
def pathWeight (g : DiGraph) : List String → Except AgentError ℚ
  | u :: v :: rest =>
    match g.edges.get? (u, v) with
    | none => .error (.keyError (u, v))
    | some d => (pathWeight g (v :: rest)).map fun w => d.weight + w
  | _ => .ok 0

/-- A node that only an edge declares goes by its id. -/
def nodeName (g : DiGraph) (nodeId : String) : String :=
  ((g.nodes.get? nodeId).join.map Index.NodeData.name).getD nodeId

section
variable {g : DiGraph} {score : α → ℚ} {l : List α} {a b : α} {s t x y : String} {p : List String}

@[simp] theorem mem_sortDesc : a ∈ sortDesc score l ↔ a ∈ l := mem_sortBy

theorem sortDesc_perm : (sortDesc score l).Perm l := sortBy_perm

theorem pairwise_sortDesc : (sortDesc score l).Pairwise fun a b => score b ≤ score a := by
  have h : (sortDesc score l).Pairwise fun a b => OrderDual.toDual (score a) ≤ OrderDual.toDual (score b) :=
    pairwise_sortBy
  exact h.imp OrderDual.toDual_le_toDual.mp

/-- What is cut off from a report has no higher score than what is kept. -/
theorem le_of_mem_take_of_mem_drop {n : Nat} (ha : a ∈ (sortDesc score l).take n)
    (hb : b ∈ (sortDesc score l).drop n) : score b ≤ score a := by
  have hpairwise : (sortDesc score l).Pairwise fun a b => score b ≤ score a := pairwise_sortDesc
  rw [← List.take_append_drop n (sortDesc score l)] at hpairwise
  exact (List.pairwise_append.mp hpairwise).2.2 a ha b hb

theorem mem_hops {c : Nat} : ((x, y), c) ∈ hops g ↔ (x, y) ∈ g.edges.keys ∧ c = 1 := by
  simp only [hops, List.mem_map, Prod.mk.injEq]
  constructor
  · rintro ⟨k, hk, rfl, rfl⟩
    exact ⟨hk, rfl⟩
  · rintro ⟨hk, rfl⟩
    exact ⟨(x, y), hk, rfl, rfl⟩

/-- A walk has a weight, the sum over its edges. -/
theorem pathWeight_of_walk {n : Nat} (h : Walk (hops g) s t p n) :
    ∃ w, pathWeight g p = .ok w ∧ Walk (weights EdgeData.weight g) s t p w := by
  induction h with
  | single s => exact ⟨0, rfl, .single s⟩
  | @cons x y c z p d he hw ih =>
    obtain ⟨w, hweight, hwalk⟩ := ih
    obtain ⟨e, hget⟩ := Option.isSome_iff_exists.mp (Dict.isSome_get?_iff.mpr (mem_hops.mp he).1)
    have hcons : ((x, y), e.weight) ∈ weights EdgeData.weight g :=
      List.mem_map.mpr ⟨((x, y), e), Dict.get?_eq_some_iff.mp hget, rfl⟩
    refine ⟨e.weight + w, ?_, .cons hcons hwalk⟩
    -- the walk goes on at `y`
    obtain ⟨q, rfl⟩ : ∃ q, p = y :: q := by
      cases hw with
      | single => exact ⟨[], rfl⟩
      | cons => exact ⟨_, rfl⟩
    simp only [pathWeight, hget, hweight]
    rfl

/-- An edge has the fewest hops. -/
theorem fewestHops_edge (he : (x, y) ∈ g.edges.keys) (hne : x ≠ y) : FewestHops g x y [x, y] := by
  refine ⟨1, .cons (mem_hops.mpr ⟨he, rfl⟩) (.single y), fun q n hq => ?_⟩
  cases hq with
  | single => exact absurd rfl hne
  | cons he' hw =>
    obtain ⟨-, rfl⟩ := mem_hops.mp he'
    exact Nat.le_add_right 1 _

theorem inDegree_eq_zero_iff : g.inDegree x = 0 ↔ Digraph.IsSource g.edges.keys x := by
  rw [AttrDigraph.inDegree, List.length_eq_zero_iff, List.filter_eq_nil_iff]
  constructor
  · intro h z hz
    exact h _ hz (decide_eq_true rfl)
  · rintro h ⟨z, y⟩ hk hy
    obtain rfl : y = x := of_decide_eq_true hy
    exact h z hk

/-- What reaches a node is one. -/
theorem mem_nodes_of_reaches (hx : x ∈ g.nodes.keys) (h : Digraph.Reaches g.edges.keys y x) :
    y ∈ g.nodes.keys := by
  rcases h.cases_head with rfl | ⟨z, he, -⟩
  · exact hx
  · exact (g.closed _ he).1

theorem mem_nodes_of_reached (hy : y ∈ g.nodes.keys) (h : Digraph.Reaches g.edges.keys y x) :
    x ∈ g.nodes.keys := by
  rcases h.cases_tail with rfl | ⟨z, -, he⟩
  · exact hy
  · exact (g.closed _ he).2

end

/-- Two functions that call each other and that nothing else calls. -/
def pingPong : SGIRGraph where
  layer := .call
  nodes := ["main", "run", "ping", "pong"].map fun id => { id, name := id }
  edges := [callEdge "main" "run" 1, callEdge "ping" "pong" 2, callEdge "pong" "ping" 3]

/-- networkx as it answers about them. -/
def pingPongNetworkx : Networkx where
  toNetworkx :=
    { (default : Index.Networkx) with
      isDirectedAcyclicGraph := fun _ => false
      numberStronglyConnectedComponents := fun _ => 3
      greedyModularityCommunities := fun _ => .ok [["main", "run"], ["ping", "pong"]] }
  descendants g x := Digraph.descendants g.edges.keys x
  hopPath _ source target := .ok [source, target]
  stronglyConnectedComponents _ := [["run"], ["main"], ["pong", "ping"]]

theorem graph_pingPong :
    (Index.GraphIndex.ofGraph (Index.single pingPong)).graphs.get? .call = some (ofLayer pingPong) := rfl

theorem lawful_pingPong : pingPongNetworkx.Lawful (ofLayer pingPong) where
  descendants _ _ := .refl _
  hopPath x hx y hy := by
    have hedge : ∀ x ∈ (ofLayer pingPong).nodes.keys, ∀ y ∈ Digraph.descendants (ofLayer pingPong).edges.keys x,
        (x, y) ∈ (ofLayer pingPong).edges.keys := by decide +kernel
    exact ⟨[x, y], rfl, fewestHops_edge (hedge x hx y hy) (Digraph.mem_descendants.mp hy).1.symm⟩
  component scc hscc := by
    have hcomponent : ∀ scc ∈ pingPongNetworkx.stronglyConnectedComponents (ofLayer pingPong), scc.Nodup ∧
        scc ⊆ (ofLayer pingPong).nodes.keys ∧ ∃ x ∈ scc, ∀ y ∈ (ofLayer pingPong).nodes.keys, y ∈ scc ↔
          Digraph.Reaches (ofLayer pingPong).edges.keys x y ∧ Digraph.Reaches (ofLayer pingPong).edges.keys y x := by
      decide +kernel
    obtain ⟨hnodup, hsub, x, hx, hmem⟩ := hcomponent scc hscc
    refine ⟨hnodup, x, hsub hx, fun y => ⟨fun hy => ⟨hsub hy, (hmem y (hsub hy)).mp hy⟩, ?_⟩⟩
    exact fun ⟨hy, hr⟩ => (hmem y hy).mpr hr
  covered := by decide +kernel
  isDag := by
    refine iff_of_false Bool.false_ne_true fun h => ?_
    exact absurd (h ("ping", "pong")) (by decide +kernel)

end Intelliqx.Graph.Agents
