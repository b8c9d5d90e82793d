import Intelliqx.Base.Dict
import Mathlib.Tactic.Tauto

/-!
# Digraphs with attributes

The digraph that a graph library keeps: at most one edge from a node to
another, and what was added last is what an edge or a node carries. A node
that only an edge declared carries nothing.
-/

namespace Intelliqx

structure AttrDigraph (κ : Type u) (ν : Type v) (ε : Type w) where
  nodes : Dict κ (Option ν)
  edges : Dict (κ × κ) ε
  closed : ∀ k ∈ edges.keys, k.1 ∈ nodes.keys ∧ k.2 ∈ nodes.keys

namespace AttrDigraph

variable {κ : Type u} {ν : Type v} {ε : Type w} [DecidableEq κ]

def empty : AttrDigraph κ ν ε := ⟨.empty, .empty, fun _ h => nomatch h⟩

instance : Inhabited (AttrDigraph κ ν ε) := ⟨empty⟩

/-- Attributes that are given replace the ones there are. -/
def declare (nodes : Dict κ (Option ν)) (n : κ) (a : Option ν) : Dict κ (Option ν) :=
  nodes.insert n (a.or (nodes.get? n).join)

theorem mem_keys_declare {nodes : Dict κ (Option ν)} {n x : κ} {a : Option ν} :
    x ∈ (declare nodes n a).keys ↔ x = n ∨ x ∈ nodes.keys := Dict.mem_keys_insert

def addNode (g : AttrDigraph κ ν ε) (n : κ) (a : Option ν) : AttrDigraph κ ν ε where
  nodes := declare g.nodes n a
  edges := g.edges
  closed k hk :=
    (g.closed k hk).imp (fun h => mem_keys_declare.mpr (.inr h)) fun h => mem_keys_declare.mpr (.inr h)

/-- Ends that are not nodes yet become nodes. -/
def addEdge (g : AttrDigraph κ ν ε) (k : κ × κ) (e : ε) : AttrDigraph κ ν ε where
  nodes := declare (declare g.nodes k.1 none) k.2 none
  edges := g.edges.insert k e
  closed k' hk' := by
    simp only [mem_keys_declare]
    rcases Dict.mem_keys_insert.mp hk' with rfl | hk'
    · exact ⟨.inr (.inl rfl), .inl rfl⟩
    · exact (g.closed k' hk').imp (.inr ∘ .inr) (.inr ∘ .inr)

def addNodesFrom (g : AttrDigraph κ ν ε) (ns : List (κ × Option ν)) : AttrDigraph κ ν ε :=
  ns.foldl (fun g n => g.addNode n.1 n.2) g

def addEdgesFrom (g : AttrDigraph κ ν ε) (es : List ((κ × κ) × ε)) : AttrDigraph κ ν ε :=
  es.foldl (fun g e => g.addEdge e.1 e.2) g

/-- The edges by their sources, in the order of the nodes. -/
def edgeList (g : AttrDigraph κ ν ε) : List ((κ × κ) × ε) :=
  g.nodes.keys.flatMap fun u => g.edges.entries.filter fun e => e.1.1 = u

/-- Add all of `h` to `g`. -/
def update (g h : AttrDigraph κ ν ε) : AttrDigraph κ ν ε := (g.addNodesFrom h.nodes.entries).addEdgesFrom h.edgeList

def outDegree (g : AttrDigraph κ ν ε) (n : κ) : Nat := (g.edges.keys.filter fun k => k.1 = n).length

def inDegree (g : AttrDigraph κ ν ε) (n : κ) : Nat := (g.edges.keys.filter fun k => k.2 = n).length

section
variable {g h : AttrDigraph κ ν ε} {k : κ × κ} {x : κ}

theorem edges_addNodesFrom {ns : List (κ × Option ν)} : (g.addNodesFrom ns).edges = g.edges := by
  induction ns generalizing g with
  | nil => rfl
  | cons n ns ih => exact ih (g := g.addNode n.1 n.2)

theorem mem_edges_addEdgesFrom {es : List ((κ × κ) × ε)} :
    k ∈ (g.addEdgesFrom es).edges.keys ↔ k ∈ g.edges.keys ∨ k ∈ es.map Prod.fst := by
  induction es generalizing g with
  | nil => simp [addEdgesFrom]
  | cons e es ih =>
    have hstep := ih (g := g.addEdge e.1 e.2)
    rw [List.map_cons, List.mem_cons, or_left_comm, ← or_assoc, ← Dict.mem_keys_insert]
    exact hstep

theorem mem_nodes_addNodesFrom {ns : List (κ × Option ν)} :
    x ∈ (g.addNodesFrom ns).nodes.keys ↔ x ∈ g.nodes.keys ∨ x ∈ ns.map Prod.fst := by
  induction ns generalizing g with
  | nil => simp [addNodesFrom]
  | cons n ns ih =>
    have hstep := ih (g := g.addNode n.1 n.2)
    rw [List.map_cons, List.mem_cons, or_left_comm, ← or_assoc, ← mem_keys_declare]
    exact hstep

theorem mem_nodes_addEdgesFrom {es : List ((κ × κ) × ε)} : x ∈ (g.addEdgesFrom es).nodes.keys ↔
    x ∈ g.nodes.keys ∨ ∃ e ∈ es, x = e.1.1 ∨ x = e.1.2 := by
  induction es generalizing g with
  | nil => simp [addEdgesFrom]
  | cons e es ih =>
    have hstep := ih (g := g.addEdge e.1 e.2)
    have hends : x ∈ (g.addEdge e.1 e.2).nodes.keys ↔ x ∈ g.nodes.keys ∨ x = e.1.1 ∨ x = e.1.2 := by
      rw [addEdge, mem_keys_declare, mem_keys_declare]
      tauto
    rw [hends, or_assoc] at hstep
    rwa [List.exists_mem_cons_iff]

theorem mem_edgeList {e : (κ × κ) × ε} : e ∈ g.edgeList ↔ e ∈ g.edges.entries := by
  simp only [edgeList, List.mem_flatMap, List.mem_filter, decide_eq_true_eq]
  constructor
  · rintro ⟨-, -, he, -⟩
    exact he
  · exact fun he => ⟨e.1.1, (g.closed e.1 (List.mem_map_of_mem he)).1, he, rfl⟩

theorem mem_edges_update : k ∈ (g.update h).edges.keys ↔ k ∈ g.edges.keys ∨ k ∈ h.edges.keys := by
  have hlist : k ∈ h.edgeList.map Prod.fst ↔ k ∈ h.edges.keys := by
    simp only [Dict.keys, List.mem_map, mem_edgeList]
  rw [update, mem_edges_addEdgesFrom, edges_addNodesFrom, hlist]

theorem mem_nodes_update : x ∈ (g.update h).nodes.keys ↔ x ∈ g.nodes.keys ∨ x ∈ h.nodes.keys := by
  rw [update, mem_nodes_addEdgesFrom, mem_nodes_addNodesFrom]
  refine or_iff_left_of_imp ?_
  rintro ⟨e, he, hx⟩
  obtain ⟨hsource, htarget⟩ := h.closed e.1 (List.mem_map_of_mem (mem_edgeList.mp he))
  rcases hx with rfl | rfl
  · exact .inr hsource
  · exact .inr htarget

end

end AttrDigraph

end Intelliqx
