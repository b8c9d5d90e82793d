import Intelliqx.Base.Mealy
import Intelliqx.Graph.Index

/-!
# Is the index up to date

`build` empties the caches but not `graphs`: a layer that the graph has lost
stays in the index, and one that was lost and added again keeps its old place
among the layers. Where neither happened an index that was built is the fresh
one (`query_after_build`).
-/

namespace Intelliqx.Graph.Index

-- ---------------------------------------------------------------------------
-- The caches
-- ---------------------------------------------------------------------------

def viewed (graphs : Dict GraphLayer DiGraph) : Option GraphLayer → Option DiGraph
  | none => some (merge graphs)
  | some layer => graphs.get? layer

def highNodes (degree : DiGraph → String → Nat) (graphs : Dict GraphLayer DiGraph) (k : Int × Option GraphLayer) :
    List String :=
  match viewed graphs k.2 with
  | none => []
  | some g => highFan degree k.1 g

def Memo (degree : DiGraph → String → Nat) (graphs : Dict GraphLayer DiGraph) (cache : FanCache) : Prop :=
  ∀ k r, cache.get? k = some r → r = highNodes degree graphs k

/-- What an index remembers is what it would compute. -/
structure Cached (graphs : Dict GraphLayer DiGraph) (index : GraphIndex) : Prop where
  same : index.graphs = graphs
  merged : ∀ g, index.mergedCache = some g → g = merge graphs
  fanOut : Memo AttrDigraph.outDegree graphs index.highFanoutCache
  fanIn : Memo AttrDigraph.inDegree graphs index.highFaninCache

section
variable {graphs : Dict GraphLayer DiGraph} {index : GraphIndex} {degree : DiGraph → String → Nat}
  {cache : FanCache} {layer : Option GraphLayer}

theorem cached_bare (graphs : Dict GraphLayer DiGraph) : Cached graphs { graphs } where
  same := rfl
  merged _ h := nomatch h
  fanOut _ _ h := nomatch h
  fanIn _ _ h := nomatch h

theorem Memo.insert {k : Int × Option GraphLayer} (h : Memo degree graphs cache) :
    Memo degree graphs (cache.insert k (highNodes degree graphs k)) := by
  intro k' r hr
  rw [Dict.get?_insert] at hr
  split at hr
  · rename_i hk
    cases hr
    rw [hk]
  · exact h k' r hr

theorem mergedGraph_spec (h : Cached graphs index) :
    index.mergedGraph.1 = merge graphs ∧ Cached graphs index.mergedGraph.2 := by
  unfold GraphIndex.mergedGraph
  split
  · rename_i hcache
    exact ⟨h.merged _ hcache, h⟩
  · rw [h.same]
    exact ⟨rfl, rfl, fun _ hg => (Option.some.inj hg).symm, h.fanOut, h.fanIn⟩

theorem view_spec (layer : Option GraphLayer) (h : Cached graphs index) :
    (index.view layer).1 = viewed graphs layer ∧ Cached graphs (index.view layer).2 := by
  cases layer with
  | none =>
    obtain ⟨hmerged, hcached⟩ := mergedGraph_spec h
    exact ⟨congrArg some hmerged, hcached⟩
  | some layer => exact ⟨congrArg (Dict.get? · layer) h.same, h⟩

theorem ask_spec (f : Option DiGraph → Answer) (h : Cached graphs index) :
    (index.ask layer f).1 = f (viewed graphs layer) ∧ Cached graphs (index.ask layer f).2 := by
  obtain ⟨hview, hcached⟩ := view_spec layer h
  exact ⟨congrArg f hview, hcached⟩

theorem highFanNodes_spec (threshold : Int) (layer : Option GraphLayer) (hmemo : Memo degree graphs cache)
    (h : Cached graphs index) :
    (index.highFanNodes degree cache threshold layer).1 = highNodes degree graphs (threshold, layer) ∧
      Memo degree graphs (index.highFanNodes degree cache threshold layer).2.1 ∧
      Cached graphs (index.highFanNodes degree cache threshold layer).2.2 := by
  obtain ⟨hview, hcached⟩ := view_spec layer h
  unfold GraphIndex.highFanNodes
  split
  · rename_i hcache
    exact ⟨hmemo _ _ hcache, hmemo, h⟩
  · split
    · rename_i hg
      rw [hg] at hview hcached
      exact ⟨by rw [highNodes, ← hview], hmemo, hcached⟩
    · rename_i g index' hg
      rw [hg] at hview hcached
      have hnodes : highFan degree threshold g = highNodes degree graphs (threshold, layer) := by
        rw [highNodes, ← hview]
      rw [hnodes]
      exact ⟨rfl, hmemo.insert, hcached⟩

theorem answer_spec (nx : Networkx) (q : Query) (h : Cached graphs index) :
    (GraphIndex.answer nx q index).1 = (GraphIndex.answer nx q { graphs }).1 ∧
      Cached graphs (GraphIndex.answer nx q index).2 := by
  have hask (f : Option DiGraph → Answer) (layer : Option GraphLayer) :
      (index.ask layer f).1 = (GraphIndex.ask layer f { graphs }).1 ∧ Cached graphs (index.ask layer f).2 :=
    ⟨(ask_spec f h).1.trans (ask_spec f (cached_bare graphs)).1.symm, (ask_spec f h).2⟩
  cases q with
  | getGraph layer => exact ⟨by simp only [GraphIndex.answer, h.same], h⟩
  | allNodeIds => exact ⟨by simp only [GraphIndex.answer, h.same], h⟩
  | stats => exact ⟨by simp only [GraphIndex.answer, h.same], h⟩
  | mergedGraph =>
    obtain ⟨hmerged, hcached⟩ := mergedGraph_spec h
    exact ⟨congrArg (fun g => Answer.graph (some g)) hmerged, hcached⟩
  | highFanOutNodes threshold layer =>
    obtain ⟨hnodes, hmemo, hcached⟩ := highFanNodes_spec threshold layer h.fanOut h
    have hbare := highFanNodes_spec threshold layer (cached_bare graphs).fanOut
      (cached_bare graphs)
    exact ⟨congrArg Answer.nodes (hnodes.trans hbare.1.symm), hcached.same, hcached.merged, hmemo, hcached.fanIn⟩
  | highFanInNodes threshold layer =>
    obtain ⟨hnodes, hmemo, hcached⟩ := highFanNodes_spec threshold layer h.fanIn h
    have hbare := highFanNodes_spec threshold layer (cached_bare graphs).fanIn
      (cached_bare graphs)
    exact ⟨congrArg Answer.nodes (hnodes.trans hbare.1.symm), hcached.same, hcached.merged, hcached.fanOut, hmemo⟩
  | reachableFrom | canReach | findDeadNodes | criticalPath | detectCommunities | findCycles
  | findSubgraphIsomorphisms | fanOut | fanIn | topologicalOrder => exact hask _ _

end

-- ---------------------------------------------------------------------------
-- Builds
-- ---------------------------------------------------------------------------

section
variable {sg : SoftwareGraph} {graphs : Dict GraphLayer DiGraph} {layer : GraphLayer}

/-- Where the index holds the first layers of the graph, in their order, it is built afresh. -/
theorem rebuilt_eq_fresh (h : graphs.keys <+: sg.layers.map SGIRGraph.layer) :
    rebuilt sg graphs = rebuilt sg .empty := by
  exact Dict.ext ((entries_rebuilt h).trans entries_rebuilt_empty.symm)

theorem get?_rebuilt_of_not_mem (h : layer ∉ sg.layers.map SGIRGraph.layer) :
    (rebuilt sg graphs).get? layer = graphs.get? layer := by
  have hnone : (sg.layers.filter fun l => l.layer = layer) = [] :=
    List.filter_eq_nil_iff.mpr fun l hl he => h (List.mem_map.mpr ⟨l, hl, of_decide_eq_true he⟩)
  rw [rebuilt, Dict.get?_foldl_insert, hnone]
  rfl

end

-- ---------------------------------------------------------------------------
-- Runs
-- ---------------------------------------------------------------------------

/-- A graph and its index. -/
structure System where
  sg : SoftwareGraph
  index : GraphIndex

inductive Op
  | addLayer (graph : SGIRGraph)
  | removeLayer (layer : GraphLayer)
  | build
  | query (q : Query)

section
variable (nx : Networkx)

def step (s : System) : Op → Option Answer × System
  | .addLayer graph => (none, { s with sg := s.sg.addLayer graph })
  | .removeLayer layer => (none, { s with sg := s.sg.removeLayer layer })
  | .build => (none, { s with index := s.index.build s.sg })
  | .query q => (some (s.index.answer nx q).1, { s with index := (s.index.answer nx q).2 })

/-- After the operations `ops`; the first build is that of the constructor. -/
def after (sg : SoftwareGraph) (ops : List Op) : System := Mealy.final (step nx) ⟨sg, {}⟩ ops

/-- Every query is answered as by a new index of the graph. -/
def Coherent (s : System) : Prop := ∀ q, (s.index.answer nx q).1 = ((GraphIndex.ofGraph s.sg).answer nx q).1

end

section
variable {nx : Networkx} {s : System} {graphs : Dict GraphLayer DiGraph}

theorem cached_queries (h : Cached graphs s.index) (queries : List Query) :
    (Mealy.final (step nx) s (queries.map .query)).sg = s.sg ∧
      Cached graphs (Mealy.final (step nx) s (queries.map .query)).index := by
  induction queries generalizing s with
  | nil => exact ⟨rfl, h⟩
  | cons q queries ih => exact ih (answer_spec nx q h).2

theorem coherent_iff (nx : Networkx) (h : Cached graphs s.index) :
    Coherent nx s ↔ ∀ q, (GraphIndex.answer nx q { graphs }).1 = ((GraphIndex.ofGraph s.sg).answer nx q).1 :=
  forall_congr' fun q => by rw [(answer_spec nx q h).1]

end

/-- In every run a query that follows a build, the graph being as it was then, gets the answer of a
new index, if the layers that the index held when it was built were the first ones of the graph,
in the same order. It does not if one of them was no layer of the graph any more. -/
theorem query_after_build (nx : Networkx) (sg : SoftwareGraph) (ops : List Op) (queries : List Query) :
    ((after nx sg ops).index.graphs.keys <+: (after nx sg ops).sg.layers.map SGIRGraph.layer →
        Coherent nx (after nx sg (ops ++ .build :: queries.map .query))) ∧
      (Coherent nx (after nx sg (ops ++ .build :: queries.map .query)) →
        ∀ layer ∈ (after nx sg ops).index.graphs.keys, layer ∈ (after nx sg ops).sg.layers.map SGIRGraph.layer) := by
  have hrun : after nx sg (ops ++ .build :: queries.map .query) =
      Mealy.final (step nx) (step nx (after nx sg ops) .build).2 (queries.map .query) := by
    simp only [after, Mealy.final, List.foldl_append, List.foldl_cons]
  generalize after nx sg ops = s at hrun ⊢
  have hbuilt : Cached (rebuilt s.sg s.index.graphs) (step nx s .build).2.index := cached_bare _
  obtain ⟨hsg, hcached⟩ := cached_queries hbuilt queries
  have hcoherent := coherent_iff nx hcached
  rw [← hrun] at hcoherent hsg
  rw [hcoherent, hsg]
  constructor
  · intro hprefix q
    rw [rebuilt_eq_fresh hprefix]
    rfl
  · intro hsame layer hheld
    by_contra hgone
    have hgraph : (rebuilt s.sg s.index.graphs).get? layer = (rebuilt s.sg .empty).get? layer :=
      Answer.graph.inj (hsame (.getGraph layer))
    rw [get?_rebuilt_of_not_mem hgone, get?_rebuilt_of_not_mem hgone] at hgraph
    have hsome := Dict.isSome_get?_iff.mpr hheld
    rw [hgraph] at hsome
    cases hsome

/-- One call layer with a node. -/
def callOnly : SoftwareGraph where
  repositoryName := "repo"
  layers := [{ layer := .call, nodes := [{ id := "a", name := "a" }] }]
  keyed := by decide

theorem removed_layer_remains :
    ¬Coherent default (after default callOnly ([.build, .removeLayer .call] ++ .build :: [].map .query)) := by
  intro h
  have hgraph := congrArg Option.isSome (Answer.graph.inj (h (.getGraph .call)))
  exact absurd hgraph (by decide)

/-- Removed and added again, the layer is the last of the graph but the first of the index: the
edge of the merged graph is that of the other layer. -/
example :
    let edge (w : ℚ) : SGIREdge := { source := "x", target := "y", edgeType := .call, weight := w }
    let sg : SoftwareGraph :=
      { repositoryName := "repo", keyed := by decide
        layers := [{ layer := .call, edges := [edge 1] }, { layer := .dependency, edges := [edge 2] }] }
    let s := after default sg [.build, .removeLayer .call, .addLayer { layer := .call, edges := [edge 1] }, .build]
    ((merge s.index.graphs).edges.get? ("x", "y")).map EdgeData.weight = some 2 ∧
      ((merge (GraphIndex.ofGraph s.sg).graphs).edges.get? ("x", "y")).map EdgeData.weight = some 1 := by
  decide +kernel

end Intelliqx.Graph.Index
