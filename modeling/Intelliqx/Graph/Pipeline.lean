import Intelliqx.Graph.Passes
import Intelliqx.Graph.Verification

/-!
# The optimisation pipeline

Four passes one after the other, each kept only when the verification agent
finds the behaviour of its own input preserved. Dead-code removal keeps every
path from an entry point; inlining may cut a path the bounded search does not
see, and then splitting may take the cut-off node apart.
-/

namespace Intelliqx.Graph

open Intelliqx.Digraph

/-- One gated pass: the report, and the graph the pipeline goes on with. -/
def applyPass (nx : Networkx) (k : Nat) (g result : SoftwareGraph) (entryPoints : List String) :
    VerificationReport × SoftwareGraph :=
  let report := verify (nx.index (2 * k) g) (nx.index (2 * k + 1) result) entryPoints
  (report, if report.behaviorPreserved then result else g)

structure PipelineRun where
  before : SoftwareGraph
  afterDead : SoftwareGraph
  afterInline : SoftwareGraph
  afterReduce : SoftwareGraph
  after : SoftwareGraph
  reports : List VerificationReport

def runPipeline (nx : Networkx) (graph : SoftwareGraph) (index : GraphIndex) (entryPoints : List String) :
    PipelineRun :=
  let dead := applyPass nx 0 graph (removeDeadNodes graph index entryPoints) entryPoints
  let inlined :=
    applyPass nx 1 dead.2 (inlineTrivialNodes nx dead.2 index defaultInlineThreshold) entryPoints
  let reduced := applyPass nx 2 inlined.2 (reduceComplexity inlined.2) entryPoints
  let cleaned := applyPass nx 3 reduced.2 (cleanDependencyCycles nx reduced.2) entryPoints
  { before := graph
    afterDead := dead.2
    afterInline := inlined.2
    afterReduce := reduced.2
    after := cleaned.2
    reports := [dead.1, inlined.1, reduced.1, cleaned.1] }

section
variable {nx : Networkx} {g result : SoftwareGraph} {index : GraphIndex} {entryPoints : List String}

structure Needed (ep : String) (g : SoftwareGraph) (n : String) : Prop where
  entry : ep ∈ g.nodeIds
  declared : n ∈ g.nodeIds
  reaches : Reaches g.edgeKeys ep n

theorem applyPass_cases (nx : Networkx) (k : Nat) (g result : SoftwareGraph) (entryPoints : List String) :
    (applyPass nx k g result entryPoints).2 = g ∨
      ((verify (nx.index (2 * k) g) (nx.index (2 * k + 1) result) entryPoints).behaviorPreserved = true ∧
        (applyPass nx k g result entryPoints).2 = result) := by
  unfold applyPass
  simp only
  split
  · rename_i h; exact .inr ⟨h, rfl⟩
  · exact .inl rfl

theorem Needed.declared_of_preserved {before after : GraphIndex} (h : Needed ep before.graph n)
    (hp : (verify before after entryPoints).behaviorPreserved = true) (hep : ep ∈ entryPoints) :
    ep ∈ after.graph.nodeIds ∧ n ∈ after.graph.nodeIds :=
  ⟨Graph.declared_of_preserved hp hep h.entry h.entry .refl,
    Graph.declared_of_preserved hp hep h.entry h.declared h.reaches⟩

theorem Needed.applyPass_declared (h : Needed ep g n) (hep : ep ∈ entryPoints) :
    ep ∈ (applyPass nx k g result entryPoints).2.nodeIds ∧
      n ∈ (applyPass nx k g result entryPoints).2.nodeIds := by
  rcases applyPass_cases nx k g result entryPoints with hk | ⟨hp, hk⟩
  · rw [hk]
    exact ⟨h.entry, h.declared⟩
  · rw [hk]
    have hg : Needed ep (nx.index (2 * k) g).graph n := by rwa [nx.graph_index]
    simpa only [nx.graph_index] using hg.declared_of_preserved hp hep

theorem Needed.removeDeadNodes (h : Needed ep index.graph n) (hep : ep ∈ entryPoints) :
    Needed ep (removeDeadNodes index.graph index entryPoints) n := by
  have hlive : ∀ x, Reaches index.graph.edgeKeys ep x → x ∉ index.findDeadNodes entryPoints :=
    fun x hr hd => GraphIndex.mem_findDeadNodes hd ep hep h.entry hr
  refine ⟨mem_nodeIds_removeDeadNodes.mpr ⟨h.entry, hlive ep .refl⟩,
    mem_nodeIds_removeDeadNodes.mpr ⟨h.declared, hlive n h.reaches⟩, ?_⟩
  have hr := h.reaches
  clear h
  induction hr with
  | refl => exact .refl
  | tail hab he ih =>
    exact ih.tail (mem_edgeKeys_removeDeadNodes he (hlive _ hab) (hlive _ (hab.tail he)))

theorem Needed.afterDead (h : Needed ep index.graph n) (hep : ep ∈ entryPoints) :
    Needed ep (runPipeline nx index.graph index entryPoints).afterDead n := by
  rcases applyPass_cases nx 0 index.graph (Graph.removeDeadNodes index.graph index entryPoints) entryPoints with
    hk | ⟨-, hk⟩
  · simpa only [runPipeline, hk] using h
  · simpa only [runPipeline, hk] using h.removeDeadNodes hep

/-- The node was split: inlining cut it off from the entry point by ways that
the search had not explored, all its declarations were costly enough, and its
parts are declared in its place. -/
structure SplitUp (nx : Networkx) (index : GraphIndex) (entryPoints : List String) (ep n : String) : Prop where
  cut : ¬ Reaches (runPipeline nx index.graph index entryPoints).afterInline.edgeKeys ep n
  costly : ∀ node ∈ (runPipeline nx index.graph index entryPoints).afterInline.allNodes,
    node.id = n → node.complexity.aboveSplitThreshold = true
  parts : ∀ i < defaultSplitParts,
    partId n i ∈ (runPipeline nx index.graph index entryPoints).after.nodeIds
  unexplored : ¬ Relation.ReflTransGen
    (Explored (nx.index 2 (runPipeline nx index.graph index entryPoints).afterDead) entryPoints) ep n

theorem nodeIds_after : (runPipeline nx index.graph index entryPoints).after.nodeIds =
    (runPipeline nx index.graph index entryPoints).afterReduce.nodeIds := by
  rcases applyPass_cases nx 3 (runPipeline nx index.graph index entryPoints).afterReduce
    (cleanDependencyCycles nx (runPipeline nx index.graph index entryPoints).afterReduce) entryPoints with
    hk | ⟨-, hk⟩
  · exact congrArg SoftwareGraph.nodeIds hk
  · exact (congrArg SoftwareGraph.nodeIds hk).trans nodeIds_cleanDependencyCycles

theorem reaches_afterInline (h : Needed ep (runPipeline nx index.graph index entryPoints).afterDead n)
    (he : Relation.ReflTransGen
      (Explored (nx.index 2 (runPipeline nx index.graph index entryPoints).afterDead) entryPoints) ep n) :
    Reaches (runPipeline nx index.graph index entryPoints).afterInline.edgeKeys ep n := by
  rcases applyPass_cases nx 1 (runPipeline nx index.graph index entryPoints).afterDead
    (inlineTrivialNodes nx (runPipeline nx index.graph index entryPoints).afterDead index
      defaultInlineThreshold) entryPoints with hk | ⟨hp, hk⟩
  · have hinline : (runPipeline nx index.graph index entryPoints).afterInline =
        (runPipeline nx index.graph index entryPoints).afterDead := hk
    rw [hinline]
    exact h.reaches
  · have hr := reaches_of_explored_chain hp he
    rw [nx.graph_index] at hr
    have hinline : (runPipeline nx index.graph index entryPoints).afterInline = _ := hk
    rwa [hinline]

/-- Every declared node that a declared entry point reaches is still declared
after the pipeline, or was split. -/
theorem declared_or_split (nx : Networkx) (index : GraphIndex) (entryPoints : List String) :
    ∀ ep ∈ entryPoints, ep ∈ index.graph.nodeIds → ∀ n ∈ index.graph.nodeIds,
      Reaches index.graph.edgeKeys ep n →
        n ∈ (runPipeline nx index.graph index entryPoints).after.nodeIds ∨
          SplitUp nx index entryPoints ep n := by
  intro ep hep hentry n hn hr
  have hdead : Needed ep (runPipeline nx index.graph index entryPoints).afterDead n :=
    Needed.afterDead ⟨hentry, hn, hr⟩ hep
  obtain ⟨hentry', hn'⟩ : ep ∈ (runPipeline nx index.graph index entryPoints).afterInline.nodeIds ∧
      n ∈ (runPipeline nx index.graph index entryPoints).afterInline.nodeIds := hdead.applyPass_declared hep
  rw [nodeIds_after]
  by_cases hkept : n ∈ (runPipeline nx index.graph index entryPoints).afterReduce.nodeIds
  · exact .inl hkept
  · have hcut : ¬ Reaches (runPipeline nx index.graph index entryPoints).afterInline.edgeKeys ep n :=
      fun hr' => hkept (Needed.applyPass_declared ⟨hentry', hn', hr'⟩ hep).2
    rcases applyPass_cases nx 2 (runPipeline nx index.graph index entryPoints).afterInline
      (reduceComplexity (runPipeline nx index.graph index entryPoints).afterInline) entryPoints with
      hk | ⟨-, hk⟩
    · have hreduce : (runPipeline nx index.graph index entryPoints).afterReduce =
          (runPipeline nx index.graph index entryPoints).afterInline := hk
      exact absurd (hreduce ▸ hn') hkept
    · have hreduce : (runPipeline nx index.graph index entryPoints).afterReduce = _ := hk
      rcases nodeIds_reduceComplexity hn' with hn' | ⟨hcostly, hparts⟩
      · exact absurd (hreduce ▸ hn') hkept
      · refine .inr ⟨hcut, hcostly, ?_, fun he => hcut (reaches_afterInline hdead he)⟩
        intro i hi
        rw [nodeIds_after, hreduce]
        exact hparts i hi

/-- Breadth-first orders, and networkx's answers on acyclic layers. -/
def Networkx.acyclic : Networkx where
  index _ g := .build g
  graph_index _ _ := rfl
  setOrder _ ids := ids
  setOrder_perm _ _ := .refl _
  stronglyConnectedComponents nodes _ := nodes.map fun n => [n]
  simpleCycles _ _ := []

theorem declared_or_split_leaf :
    "leaf" ∈ (runPipeline .acyclic (callGraph ["main", "leaf"] [("main", "leaf")])
        (.build (callGraph ["main", "leaf"] [("main", "leaf")])) ["main"]).after.nodeIds ∨
      SplitUp .acyclic (.build (callGraph ["main", "leaf"] [("main", "leaf")])) ["main"] "main" "leaf" :=
  declared_or_split .acyclic (.build (callGraph ["main", "leaf"] [("main", "leaf")])) ["main"]
    "main" (by simp) (by decide) "leaf" (by decide) (.single (by decide))

/-- An entry point with ten leaves and a trivial node on the way to another
one. In a second layer the trivial node is costly. -/
def viaGraph : SoftwareGraph where
  repositoryName := "repo"
  layers :=
    [{ layer := .call
       nodes := ("main" :: leaves.take 10).map (fun n => { id := n, name := n }) ++
         [{ id := "via", name := "via", complexity := .constant }, { id := "end", name := "end" }]
       edges := ((leaves.take 10).map (fun n => ("main", n)) ++ [("main", "via"), ("via", "end")]).map fun e =>
         { source := e.1, target := e.2, edgeType := .call } },
     { layer := .dataFlow
       nodes := [{ id := "via", name := "via", complexity := .cubic }] }]
  keyed := by decide

/-- Inlining cuts the node off where the search does not look, and splitting
then takes it away. -/
theorem deep_node_lost :
    "main" ∈ viaGraph.nodeIds ∧ "via" ∈ viaGraph.nodeIds ∧ Reaches viaGraph.edgeKeys "main" "via" ∧
      "via" ∉ (runPipeline .acyclic viaGraph (.build viaGraph) ["main"]).after.nodeIds :=
  ⟨by decide, by decide, .single (by decide), by decide +kernel⟩

end

end Intelliqx.Graph
