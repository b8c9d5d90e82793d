import Intelliqx.Graph.Pipeline

/-!
# Inlining trivial nodes

All trivial nodes of a layer go at once, and an edge into one of them is led on
to where its own edge leads. That may be another trivial node, or the node
itself: then the edge dangles. The remaining graph is preserved exactly where
this does not happen (`inlining_preserves_iff`).
-/

namespace Intelliqx.Graph

open Intelliqx.Digraph

/-- The result has no dangling edge, and the nodes that are left reach each
other as before. -/
structure Inlined (l l' : SGIRGraph) : Prop where
  declared : ∀ e ∈ l'.edges, e.source ∈ l'.nodeIds ∧ e.target ∈ l'.nodeIds
  reaches : ∀ u ∈ l'.nodeIds, ∀ v ∈ l'.nodeIds, Reaches l'.edgePairs u v ↔ Reaches l.edgePairs u v

/-- A trivial node that a node which stays has an edge to leads to a node which
stays. -/
def Settles (index : GraphIndex) (threshold : Int) (l : SGIRGraph) : Prop :=
  ∀ e ∈ l.edges, e.source ∉ inlineCandidates index threshold l → e.target ∈ inlineCandidates index threshold l →
    ∀ out ∈ l.edges, out.source = e.target → out.target ∉ inlineCandidates index threshold l

instance (index : GraphIndex) (threshold : Int) (l : SGIRGraph) : Decidable (Settles index threshold l) := by
  unfold Settles
  infer_instance

section
variable {nx : Networkx} {index : GraphIndex} {threshold : Int} {l : SGIRGraph} {x y : String}

-- ---------------------------------------------------------------------------
-- Candidates
-- ---------------------------------------------------------------------------

/-- A fan-out of one is one target, however many parallel edges lead there. -/
theorem target_of_fanOut_one (hl : l ∈ index.graph.layers) (h : index.fanOut x l.layer = 1) :
    ∃ t, ∀ y, (x, y) ∈ l.edgePairs ↔ y = t := by
  simp only [GraphIndex.fanOut, SoftwareGraph.getLayer_of_mem hl] at h
  obtain ⟨t, ht⟩ := List.length_eq_one_iff.mp h
  refine ⟨t, ?_⟩
  intro y
  rw [← List.mem_singleton, ← ht]
  simp

theorem target_of_candidate (hl : l ∈ index.graph.layers) (h : x ∈ inlineCandidates index threshold l) :
    ∃ t, ∀ y, (x, y) ∈ l.edgePairs ↔ y = t := by
  simp only [inlineCandidates, List.mem_dedup, List.mem_map, List.mem_filter, decide_eq_true_eq] at h
  obtain ⟨n, ⟨-, hfan, -⟩, rfl⟩ := h
  exact target_of_fanOut_one hl hfan

-- ---------------------------------------------------------------------------
-- The layer after the pass
-- ---------------------------------------------------------------------------

theorem mem_inlinedEdges (hl : l ∈ index.graph.layers) (hc : c ∈ inlineCandidates index threshold l)
    {candidates : List String} :
    (∃ e ∈ inlinedEdges l candidates c, e.source = x ∧ e.target = y) ↔
      (x, c) ∈ l.edgePairs ∧ x ∉ candidates ∧ (c, y) ∈ l.edgePairs := by
  obtain ⟨t, ht⟩ := target_of_candidate hl hc
  obtain ⟨out, hout, hsource, htarget⟩ : ∃ out ∈ l.edges, out.source = c ∧ out.target = t := by
    simpa [SGIRGraph.edgePairs] using (ht t).mpr rfl
  cases hf : l.edges.find? fun e => e.source = c with
  | none => exact absurd (decide_eq_true hsource) (List.find?_eq_none.mp hf out hout)
  | some first =>
    have hfirst : first.target = t := by
      have hsource : first.source = c := by simpa using List.find?_some hf
      apply (ht _).mp
      exact List.mem_map.mpr ⟨first, List.mem_of_find?_eq_some hf, by rw [hsource]⟩
    simp only [inlinedEdges, hf, hfirst, ht, List.mem_map, List.mem_filter, decide_eq_true_eq]
    constructor
    · rintro ⟨_, ⟨e, ⟨he, rfl, hstays⟩, rfl⟩, rfl, rfl⟩
      exact ⟨List.mem_map_of_mem he, hstays, rfl⟩
    · rintro ⟨hxc, hstays, rfl⟩
      obtain ⟨e, he, heq⟩ := List.mem_map.mp hxc
      cases heq
      exact ⟨_, ⟨e, ⟨he, rfl, hstays⟩, rfl⟩, rfl, rfl⟩

theorem mem_nodeIds_inlineLayer : x ∈ (inlineLayer nx index threshold l).nodeIds ↔
    x ∈ l.nodeIds ∧ x ∉ inlineCandidates index threshold l := by
  have horder : ∀ x, x ∈ nx.setOrder l.layer (inlineCandidates index threshold l) ↔
      x ∈ inlineCandidates index threshold l := fun x => (nx.setOrder_perm _ _).mem_iff
  unfold inlineLayer
  simp only
  split
  · rename_i hempty
    rw [List.isEmpty_iff] at hempty
    simp [← horder, hempty]
  · simp only [SGIRGraph.nodeIds, List.mem_map, List.mem_filter, decide_eq_true_eq, horder]
    constructor
    · rintro ⟨n, ⟨hn, hstays⟩, rfl⟩
      exact ⟨⟨n, hn, rfl⟩, hstays⟩
    · rintro ⟨⟨n, hn, rfl⟩, hstays⟩
      exact ⟨n, ⟨hn, hstays⟩, rfl⟩

/-- An edge of the result was there before, or leads over one trivial node. -/
theorem mem_edgePairs_inlineLayer (hl : l ∈ index.graph.layers) :
    (x, y) ∈ (inlineLayer nx index threshold l).edgePairs ↔ x ∉ inlineCandidates index threshold l ∧
      ((x, y) ∈ l.edgePairs ∧ y ∉ inlineCandidates index threshold l ∨
        ∃ c ∈ inlineCandidates index threshold l, (x, c) ∈ l.edgePairs ∧ (c, y) ∈ l.edgePairs) := by
  have horder : ∀ x, x ∈ nx.setOrder l.layer (inlineCandidates index threshold l) ↔
      x ∈ inlineCandidates index threshold l := fun x => (nx.setOrder_perm _ _).mem_iff
  unfold inlineLayer
  simp only
  split
  · rename_i hempty
    rw [List.isEmpty_iff] at hempty
    simp [← horder, hempty]
  · have hnew : (∃ c ∈ nx.setOrder l.layer (inlineCandidates index threshold l),
          ∃ e ∈ inlinedEdges l (nx.setOrder l.layer (inlineCandidates index threshold l)) c,
            e.source = x ∧ e.target = y) ↔
        x ∉ inlineCandidates index threshold l ∧
          ∃ c ∈ inlineCandidates index threshold l, (x, c) ∈ l.edgePairs ∧ (c, y) ∈ l.edgePairs := by
      constructor
      · rintro ⟨c, hc, he⟩
        obtain ⟨hxc, hx, hcy⟩ := (mem_inlinedEdges hl ((horder c).mp hc)).mp he
        exact ⟨fun h => hx ((horder x).mpr h), c, (horder c).mp hc, hxc, hcy⟩
      · rintro ⟨hx, c, hc, hxc, hcy⟩
        exact ⟨c, (horder c).mpr hc,
          (mem_inlinedEdges hl hc).mpr ⟨hxc, fun h => hx ((horder x).mp h), hcy⟩⟩
    rw [and_or_left, ← hnew]
    simp only [SGIRGraph.edgePairs, List.mem_map, List.mem_append, List.mem_filter, List.mem_flatMap,
      decide_eq_true_eq, horder, Prod.mk.injEq]
    constructor
    · rintro ⟨e, ⟨he, hx, hy⟩ | ⟨c, hc, he⟩, rfl, rfl⟩
      · exact .inl ⟨hx, ⟨e, he, rfl, rfl⟩, hy⟩
      · exact .inr ⟨c, hc, e, he, rfl, rfl⟩
    · rintro (⟨hx, ⟨e, he, rfl, rfl⟩, hy⟩ | ⟨c, hc, e, he, rfl, rfl⟩)
      · exact ⟨e, .inl ⟨he, hx, hy⟩, rfl, rfl⟩
      · exact ⟨e, .inr ⟨c, hc, he⟩, rfl, rfl⟩

-- ---------------------------------------------------------------------------
-- When the remaining graph is preserved
-- ---------------------------------------------------------------------------

theorem settles_iff : Settles index threshold l ↔
    ∀ x c y, x ∉ inlineCandidates index threshold l → (x, c) ∈ l.edgePairs →
      c ∈ inlineCandidates index threshold l → (c, y) ∈ l.edgePairs →
      y ∉ inlineCandidates index threshold l := by
  constructor
  · intro h x c y hx hxc hc hcy
    obtain ⟨e, he, heq⟩ := List.mem_map.mp hxc
    obtain ⟨out, hout, houteq⟩ := List.mem_map.mp hcy
    cases heq
    obtain ⟨hsource, rfl⟩ := Prod.mk.injEq .. ▸ houteq
    exact h e he hx hc out hout hsource
  · intro h e he hsource htarget out hout heq
    exact h e.source e.target out.target hsource (List.mem_map_of_mem he) htarget
      (List.mem_map.mpr ⟨out, hout, by rw [heq]⟩)

theorem inlined_iff (hl : l ∈ index.graph.layers) (hwf : l.WellFormed) :
    Inlined l (inlineLayer nx index threshold l) ↔ Settles index threshold l := by
  have hdeclared : ∀ x y, (x, y) ∈ l.edgePairs → x ∈ l.nodeIds ∧ y ∈ l.nodeIds := by
    intro x y hxy
    obtain ⟨e, he, heq⟩ := List.mem_map.mp hxy
    cases heq
    exact hwf.declared e he
  rw [settles_iff]
  constructor
  · intro h x c y hx hxc hc hcy
    have hnew : (x, y) ∈ (inlineLayer nx index threshold l).edgePairs :=
      (mem_edgePairs_inlineLayer hl).mpr ⟨hx, .inr ⟨c, hc, hxc, hcy⟩⟩
    obtain ⟨e, he, heq⟩ := List.mem_map.mp hnew
    cases heq
    exact (mem_nodeIds_inlineLayer.mp (h.declared e he).2).2
  · intro h
    constructor
    · intro e he
      have hpair : (e.source, e.target) ∈ (inlineLayer nx index threshold l).edgePairs :=
        List.mem_map_of_mem he
      rw [mem_nodeIds_inlineLayer, mem_nodeIds_inlineLayer]
      obtain ⟨hx, ⟨hxy, hy⟩ | ⟨c, hc, hxc, hcy⟩⟩ := (mem_edgePairs_inlineLayer hl).mp hpair
      · exact ⟨⟨(hdeclared _ _ hxy).1, hx⟩, (hdeclared _ _ hxy).2, hy⟩
      · exact ⟨⟨(hdeclared _ _ hxc).1, hx⟩, (hdeclared _ _ hcy).2, h _ c _ hx hxc hc hcy⟩
    · intro u hu v hv
      constructor
      · apply Reaches.simulated
        intro x y hxy
        obtain ⟨-, ⟨hxy, -⟩ | ⟨c, -, hxc, hcy⟩⟩ := (mem_edgePairs_inlineLayer hl).mp hxy
        · exact .single hxy
        · exact .head hxc (.single hcy)
      · apply Reaches.shortcut (· ∈ inlineCandidates index threshold l) ?_ ?_
          (mem_nodeIds_inlineLayer.mp hu).2 (mem_nodeIds_inlineLayer.mp hv).2
        · intro x y hx hxy hy
          exact (mem_edgePairs_inlineLayer hl).mpr ⟨hx, .inl ⟨hxy, hy⟩⟩
        · intro x c y hx hxc hc hcy
          exact ⟨(mem_edgePairs_inlineLayer hl).mpr ⟨hx, .inr ⟨c, hc, hxc, hcy⟩⟩, h x c y hx hxc hc hcy⟩

end

/-- Whatever the threshold, the remaining graph of every layer is preserved
exactly when no edge that stays is led on to a node that goes. -/
theorem inlining_preserves_iff (nx : Networkx) (index : GraphIndex) (threshold : Int)
    (hg : ∀ l ∈ index.graph.layers, l.WellFormed) :
    List.Forall₂ Inlined index.graph.layers (inlineTrivialNodes nx index.graph index threshold).layers ↔
      ∀ l ∈ index.graph.layers, Settles index threshold l := by
  rw [inlineTrivialNodes, SoftwareGraph.mapLayers, List.forall₂_map_right_iff, List.forall₂_same]
  exact forall₂_congr fun l hl => inlined_iff hl (hg l hl)

/-- `a` calls `d` over trivial nodes. -/
def trivialChain (trivial : List String) (edges : List (String × String)) : SoftwareGraph where
  repositoryName := "repo"
  layers :=
    [{ layer := .call
       nodes := (["a", "d"].map fun n => { id := n, name := n }) ++
         trivial.map fun n => { id := n, name := n, complexity := .constant }
       edges := edges.map fun e => { source := e.1, target := e.2, edgeType := .call } }]
  keyed := List.nodup_singleton _

theorem inlining_preserves_one :
    List.Forall₂ Inlined (trivialChain ["b"] [("a", "b"), ("b", "d")]).layers
      (inlineTrivialNodes .acyclic (trivialChain ["b"] [("a", "b"), ("b", "d")])
        (.build (trivialChain ["b"] [("a", "b"), ("b", "d")])) defaultInlineThreshold).layers :=
  (inlining_preserves_iff .acyclic (.build (trivialChain ["b"] [("a", "b"), ("b", "d")]))
    defaultInlineThreshold (by decide)).mpr (by decide)

/-- Of two trivial nodes in a row, the edge is led on to the second. -/
theorem inlining_leaves_dangling :
    ¬ List.Forall₂ Inlined (trivialChain ["b", "c"] [("a", "b"), ("b", "c"), ("c", "d")]).layers
      (inlineTrivialNodes .acyclic (trivialChain ["b", "c"] [("a", "b"), ("b", "c"), ("c", "d")])
        (.build (trivialChain ["b", "c"] [("a", "b"), ("b", "c"), ("c", "d")])) defaultInlineThreshold).layers := by
  intro h
  cases h with
  | cons hl _ => exact absurd hl.declared (by decide)

end Intelliqx.Graph
