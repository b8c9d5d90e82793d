import Intelliqx.Graph.DeadCode
import Intelliqx.Graph.Inlining
import Intelliqx.Graph.Pipeline
import Intelliqx.Graph.Verdict

/-!
# Which passes are accepted

The removal of dead nodes always is. Whether the other passes are is a question
about the live nodes of the graph that the pipeline is given: what is inlined
or split, and which ways are cut where the verification looks.
-/

namespace Intelliqx.Graph

open Intelliqx.Digraph

def withoutDead (index : GraphIndex) (entryPoints : List String) : SoftwareGraph :=
  removeDeadNodes index.graph index entryPoints

def withTrivialInlined (nx : Networkx) (index : GraphIndex) (entryPoints : List String) : SoftwareGraph :=
  inlineTrivialNodes nx (withoutDead index entryPoints) index defaultInlineThreshold

/-- Each live node is declared in a layer that does not inline it, and wherever
the search comes to, its moves are still its moves. -/
structure InliningKept (nx : Networkx) (index : GraphIndex) (entryPoints : List String) : Prop where
  declared : ∀ x ∈ index.graph.nodeIds, Live index entryPoints x →
    ∃ l ∈ index.graph.layers, x ∈ l.nodeIds ∧ x ∉ inlineCandidates index defaultInlineThreshold l
  moves : KeepsMoves (nx.index 0 index.graph) (nx.index 3 (withTrivialInlined nx index entryPoints)) entryPoints

/-- A declaration of the node is cheap enough, or it is called like a part of a
node that is not. -/
def Remains (g : SoftwareGraph) (x : String) : Prop :=
  (∃ n ∈ g.allNodes, n.id = x ∧ n.complexity.aboveSplitThreshold = false) ∨
    ∃ n ∈ g.allNodes, n.complexity.aboveSplitThreshold = true ∧ ∃ i < defaultSplitParts, partId n.id i = x

/-- Splitting leaves something of each node that an entry point reaches, and the
search its moves. -/
structure SplittingKept (nx : Networkx) (g : SoftwareGraph) (entryPoints : List String) : Prop where
  declared : ∀ ep ∈ entryPoints, ∀ x ∈ g.nodeIds, Reaches g.edgeKeys ep x → Remains g x
  moves : KeepsMoves (nx.index 4 g) (nx.index 5 (reduceComplexity g)) entryPoints

/-- The search makes the same moves without the edges that the last pass takes away. -/
def CleaningKept (nx : Networkx) (g : SoftwareGraph) (entryPoints : List String) : Prop :=
  KeepsMoves (nx.index 6 g) (nx.index 7 (cleanDependencyCycles nx g)) entryPoints

/-- The verification of a pass finds the behaviour of its input preserved. -/
def Accepted (nx : Networkx) (k : Nat) (g result : SoftwareGraph) (entryPoints : List String) : Prop :=
  (verify (nx.index (2 * k) g) (nx.index (2 * k + 1) result) entryPoints).behaviorPreserved = true

section
variable {nx : Networkx} {before before' after index : GraphIndex} {g result : SoftwareGraph}
  {entryPoints : List String} {x : String}

-- ---------------------------------------------------------------------------
-- Searches over the live nodes
-- ---------------------------------------------------------------------------

/-- A search from a node of a set that it never leaves comes to the same nodes
in two graphs that agree on the set. -/
theorem Expands.congr (h : Expands before entryPoints x) (before' : GraphIndex) (live : String → Prop)
    (hentry : ∀ ep ∈ entryPoints, ep ∈ before.graph.nodeIds → live ep ∧ ep ∈ before'.graph.nodeIds)
    (hmoves : ∀ x, live x → moves before x = moves before' x ∧ ∀ y ∈ moves before x, live y) :
    live x ∧ Expands before' entryPoints x := by
  obtain ⟨ep, hep, hdeclared, chain, hhead, hnodup, hlen, hchain⟩ := h
  obtain ⟨hlive, hdeclared'⟩ := hentry ep hep hdeclared
  have hall : ∀ y ∈ chain ++ [x], live y := by
    refine hchain.induction live _ (fun y z hz hy => (hmoves y hy).2 z hz) fun hne => ?_
    obtain rfl := Option.some.inj ((List.head?_eq_some_head hne).symm.trans hhead)
    exact hlive
  refine ⟨hall x (by simp), ep, hep, hdeclared', chain, hhead, hnodup, hlen, ?_⟩
  exact hchain.imp_of_mem_imp fun y z hy _ hz => (hmoves y (hall y hy)).1 ▸ hz

theorem keepsMoves_congr (live : String → Prop)
    (hentry : ∀ ep ∈ entryPoints, ep ∈ before.graph.nodeIds → live ep)
    (hentry' : ∀ ep ∈ entryPoints, ep ∈ before.graph.nodeIds ↔ ep ∈ before'.graph.nodeIds)
    (hmoves : ∀ x, live x → moves before x = moves before' x ∧ ∀ y ∈ moves before x, live y) :
    KeepsMoves before after entryPoints ↔ KeepsMoves before' after entryPoints := by
  constructor
  · intro h x hx
    obtain ⟨hlive, hx⟩ := hx.congr before live
      (fun ep hep hd => ⟨hentry ep hep ((hentry' ep hep).mpr hd), (hentry' ep hep).mpr hd⟩)
      (fun x hx => ⟨(hmoves x hx).1.symm, (hmoves x hx).1 ▸ (hmoves x hx).2⟩)
    exact (hmoves x hlive).1 ▸ h x hx
  · intro h x hx
    obtain ⟨hlive, hx⟩ := hx.congr before' live
      (fun ep hep hd => ⟨hentry ep hep hd, (hentry' ep hep).mp hd⟩) hmoves
    exact (hmoves x hlive).1 ▸ h x hx

-- ---------------------------------------------------------------------------
-- What the passes do to live nodes
-- ---------------------------------------------------------------------------

/-- A declared node is live or taken out. -/
theorem mem_nodeIds_withoutDead : x ∈ (withoutDead index entryPoints).nodeIds ↔
    x ∈ index.graph.nodeIds ∧ Live index entryPoints x := by
  refine mem_nodeIds_removeDeadNodes.trans (and_congr_right fun hx => ?_)
  rw [mem_findDeadNodes_iff, not_and_not_right]
  exact ⟨fun h => h (GraphIndex.mem_mergedNodes.mpr (.inl hx)), fun h _ => h⟩

theorem live_iff_reaches : Live index entryPoints x ↔ ∃ ep ∈ entryPoints,
    ep ∈ index.mergedNodes ∧ Reaches (withoutDead index entryPoints).edgeKeys ep x := by
  refine exists_congr fun ep => and_congr_right fun hep => and_congr_right fun hmerged => ?_
  exact (reaches_removeDeadNodes_iff ⟨ep, hep, hmerged, .refl⟩).symm

theorem keepsDeclared_withoutDead :
    KeepsDeclared (withoutDead index entryPoints) g entryPoints ↔
      ∀ x ∈ index.graph.nodeIds, Live index entryPoints x → x ∈ g.nodeIds := by
  constructor
  · intro h x hx hlive
    obtain ⟨ep, hep, -, hr⟩ := live_iff_reaches.mp hlive
    exact h ep hep x (mem_nodeIds_withoutDead.mpr ⟨hx, hlive⟩) hr
  · intro h ep _ x hx _
    obtain ⟨hx, hlive⟩ := mem_nodeIds_withoutDead.mp hx
    exact h x hx hlive

theorem mem_inlineCandidates_removeDeadFromLayer {deadIds : List String} (hx : x ∉ deadIds) :
    x ∈ inlineCandidates index threshold (removeDeadFromLayer deadIds l) ↔
      x ∈ inlineCandidates index threshold l := by
  have hnodes : ∀ n : SGIRNode, n.id = x → (n ∈ (removeDeadFromLayer deadIds l).nodes ↔ n ∈ l.nodes) := by
    rintro n rfl
    unfold removeDeadFromLayer
    simp only
    split
    · rfl
    · refine List.mem_filter.trans (and_iff_left (decide_eq_true fun hd => ?_))
      exact hx (List.mem_of_mem_filter hd)
  simp only [inlineCandidates, List.mem_dedup, List.mem_map, List.mem_filter, layer_removeDeadFromLayer]
  refine exists_congr fun n => ?_
  constructor
  · rintro ⟨⟨hn, hsimple⟩, hid⟩
    exact ⟨⟨(hnodes n hid).mp hn, hsimple⟩, hid⟩
  · rintro ⟨⟨hn, hsimple⟩, hid⟩
    exact ⟨⟨(hnodes n hid).mpr hn, hsimple⟩, hid⟩

theorem mem_nodeIds_withTrivialInlined (hlive : Live index entryPoints x) :
    x ∈ (withTrivialInlined nx index entryPoints).nodeIds ↔
      ∃ l ∈ index.graph.layers, x ∈ l.nodeIds ∧ x ∉ inlineCandidates index defaultInlineThreshold l := by
  simp only [withTrivialInlined, withoutDead, removeDeadNodes, inlineTrivialNodes,
    SoftwareGraph.mem_nodeIds_mapLayers, mem_nodeIds_inlineLayer]
  constructor
  · rintro ⟨l', hl', hx, hstays⟩
    obtain ⟨l, hl, rfl⟩ := List.mem_map.mp hl'
    exact ⟨l, hl, (mem_nodeIds_removeDeadFromLayer.mp hx).1,
      fun h => hstays ((mem_inlineCandidates_removeDeadFromLayer hlive.not_dead).mpr h)⟩
  · rintro ⟨l, hl, hx, hstays⟩
    exact ⟨_, List.mem_map_of_mem hl, mem_nodeIds_removeDeadFromLayer.mpr ⟨hx, hlive.not_dead⟩,
      fun h => hstays ((mem_inlineCandidates_removeDeadFromLayer hlive.not_dead).mp h)⟩

/-- The search makes the same moves whether dead nodes are there or not. -/
theorem moves_withoutDead (hlocal : nx.Local) (hlive : Live index entryPoints x) :
    moves (nx.index j index.graph) x = moves (nx.index k (withoutDead index entryPoints)) x := by
  unfold moves
  rw [nx.graph_index, nx.graph_index, withoutDead, ← hlocal.reachableFrom_removed j k hlive]
  refine congrArg _ (List.filter_congr fun y hy => decide_eq_decide.mpr ?_)
  have hr := (GraphIndex.mem_reachableFrom.mp hy).2
  rw [nx.graph_index] at hr
  exact (mem_nodeIds_removeDeadNodes_iff (hlive.reaches hr)).symm

theorem keepsMoves_withoutDead (hlocal : nx.Local) :
    KeepsMoves (nx.index j index.graph) after entryPoints ↔
      KeepsMoves (nx.index k (withoutDead index entryPoints)) after entryPoints := by
  have hentry : ∀ ep ∈ entryPoints, ep ∈ index.graph.nodeIds → Live index entryPoints ep :=
    fun ep hep hd => ⟨ep, hep, GraphIndex.mem_mergedNodes.mpr (.inl hd), .refl⟩
  refine keepsMoves_congr (Live index entryPoints) ?_ ?_ fun x hlive =>
    ⟨moves_withoutDead hlocal hlive, ?_⟩
  · rwa [nx.graph_index]
  · intro ep hep
    rw [nx.graph_index, nx.graph_index, mem_nodeIds_withoutDead]
    exact ⟨fun hd => ⟨hd, hentry ep hep hd⟩, And.left⟩
  · intro y hy
    have hr := reaches_of_moves hy
    rw [nx.graph_index] at hr
    exact hlive.reaches hr

-- ---------------------------------------------------------------------------
-- Verdicts
-- ---------------------------------------------------------------------------

theorem accepted_iff : Accepted nx k g result entryPoints ↔ KeepsDeclared g result entryPoints ∧
    KeepsMoves (nx.index (2 * k) g) (nx.index (2 * k + 1) result) entryPoints := by
  rw [Accepted, preserved_iff_keeps, nx.graph_index, nx.graph_index]

theorem accepted_removal (hlocal : nx.Local) :
    Accepted nx 0 index.graph (withoutDead index entryPoints) entryPoints :=
  removal_preserved (nx.graph_index ..) (nx.graph_index ..) fun _ h => hlocal.reachableFrom_removed _ _ h

theorem accepted_inlining_iff (hlocal : nx.Local) :
    Accepted nx 1 (withoutDead index entryPoints) (withTrivialInlined nx index entryPoints) entryPoints ↔
      InliningKept nx index entryPoints := by
  rw [accepted_iff, keepsDeclared_withoutDead, ← keepsMoves_withoutDead (j := 0) hlocal]
  constructor
  · rintro ⟨hdeclared, hmoves⟩
    exact ⟨fun x hx hlive => (mem_nodeIds_withTrivialInlined hlive).mp (hdeclared x hx hlive), hmoves⟩
  · rintro ⟨hdeclared, hmoves⟩
    exact ⟨fun x hx hlive => (mem_nodeIds_withTrivialInlined hlive).mpr (hdeclared x hx hlive), hmoves⟩

theorem accepted_splitting_iff : Accepted nx 2 g (reduceComplexity g) entryPoints ↔ SplittingKept nx g entryPoints := by
  rw [accepted_iff]
  constructor
  · rintro ⟨hdeclared, hmoves⟩
    exact ⟨fun ep hep x hx hr => mem_nodeIds_reduceComplexity.mp (hdeclared ep hep x hx hr), hmoves⟩
  · rintro ⟨hdeclared, hmoves⟩
    exact ⟨fun ep hep x hx hr => mem_nodeIds_reduceComplexity.mpr (hdeclared ep hep x hx hr), hmoves⟩

theorem accepted_cleaning_iff :
    Accepted nx 3 g (cleanDependencyCycles nx g) entryPoints ↔ CleaningKept nx g entryPoints := by
  refine accepted_iff.trans (and_iff_right fun ep _ x hx _ => ?_)
  rwa [nodeIds_cleanDependencyCycles]

-- ---------------------------------------------------------------------------
-- The graphs of a run
-- ---------------------------------------------------------------------------

theorem applyPass_of_accepted (h : Accepted nx k g result entryPoints) :
    (applyPass nx k g result entryPoints).2 = result := if_pos h

theorem applyPass_of_not_accepted (h : ¬ Accepted nx k g result entryPoints) :
    (applyPass nx k g result entryPoints).2 = g := if_neg h

theorem afterDead_eq (hlocal : nx.Local) :
    (runPipeline nx index.graph index entryPoints).afterDead = withoutDead index entryPoints :=
  applyPass_of_accepted (accepted_removal hlocal)

theorem afterInline_eq_applyPass (hlocal : nx.Local) :
    (runPipeline nx index.graph index entryPoints).afterInline = (applyPass nx 1 (withoutDead index entryPoints)
      (withTrivialInlined nx index entryPoints) entryPoints).2 := by
  rw [withTrivialInlined, ← afterDead_eq hlocal]
  rfl

theorem afterInline_eq (hlocal : nx.Local) (h : InliningKept nx index entryPoints) :
    (runPipeline nx index.graph index entryPoints).afterInline = withTrivialInlined nx index entryPoints := by
  rw [afterInline_eq_applyPass hlocal]
  exact applyPass_of_accepted ((accepted_inlining_iff hlocal).mpr h)

theorem afterInline_eq_withoutDead (hlocal : nx.Local) (h : ¬ InliningKept nx index entryPoints) :
    (runPipeline nx index.graph index entryPoints).afterInline = withoutDead index entryPoints := by
  rw [afterInline_eq_applyPass hlocal]
  exact applyPass_of_not_accepted fun h' => h ((accepted_inlining_iff hlocal).mp h')

theorem afterReduce_eq
    (h : SplittingKept nx (runPipeline nx index.graph index entryPoints).afterInline entryPoints) :
    (runPipeline nx index.graph index entryPoints).afterReduce =
      reduceComplexity (runPipeline nx index.graph index entryPoints).afterInline :=
  applyPass_of_accepted (accepted_splitting_iff.mpr h)

theorem afterReduce_eq_afterInline
    (h : ¬ SplittingKept nx (runPipeline nx index.graph index entryPoints).afterInline entryPoints) :
    (runPipeline nx index.graph index entryPoints).afterReduce =
      (runPipeline nx index.graph index entryPoints).afterInline :=
  applyPass_of_not_accepted fun h' => h (accepted_splitting_iff.mp h')

end

end Intelliqx.Graph
