import Intelliqx.Graph.Acceptance
import Intelliqx.Graph.Duplicates
import Intelliqx.Graph.Parallel

/-!
# The report of a run

What `run` returns beside the graph: the duplicate pairs, found behind the
first pass; the parallel branches, found in the index of the original graph;
and a summary, which compares risk levels as strings.
-/

namespace Intelliqx.Graph

open Intelliqx.Digraph

def RiskLevel.value : RiskLevel → String
  | .low => "low"
  | .medium => "medium"
  | .high => "high"
  | .critical => "critical"

/-- `RISK_ORDER` -/
def RiskLevel.order : RiskLevel → Nat
  | .low => 0
  | .medium => 1
  | .high => 2
  | .critical => 3

def defaultRiskLevel : String := RiskLevel.low.value

namespace SoftwareGraph

def totalNodes (g : SoftwareGraph) : Nat := g.layers.foldl (fun n l => n + l.nodes.length) 0

def totalEdges (g : SoftwareGraph) : Nat := g.layers.foldl (fun n l => n + l.edges.length) 0

end SoftwareGraph

structure Summary where
  targetLanguage : String
  nodesBefore : Nat
  nodesAfter : Nat
  edgesBefore : Nat
  edgesAfter : Nat
  nodeReduction : Int
  edgeReduction : Int
  passCount : Nat
  allBehaviorPreserved : Bool
  maxRiskLevel : String
  duplicatePairsFound : Nat
  parallelBranchesFound : Nat

structure OptimizationResult where
  before : SoftwareGraph
  after : SoftwareGraph
  verificationReports : List VerificationReport
  duplicatePairs : List (String × String)
  parallelBranches : List (List String)
  summary : Summary

/-- `max` of the levels of the reports, which are strings. -/
def maxRiskLevel (reports : List VerificationReport) : String :=
  (reports.map fun r => r.riskLevel.value).max?.getD defaultRiskLevel

def buildSummary (targetLanguage : String) (run : PipelineRun) (duplicatePairs : List (String × String))
    (parallelBranches : List (List String)) : Summary where
  targetLanguage := targetLanguage
  nodesBefore := run.before.totalNodes
  nodesAfter := run.after.totalNodes
  edgesBefore := run.before.totalEdges
  edgesAfter := run.after.totalEdges
  nodeReduction := (run.before.totalNodes : Int) - run.after.totalNodes
  edgeReduction := (run.before.totalEdges : Int) - run.after.totalEdges
  passCount := run.reports.length
  allBehaviorPreserved := run.reports.all VerificationReport.behaviorPreserved
  maxRiskLevel := maxRiskLevel run.reports
  duplicatePairsFound := duplicatePairs.length
  parallelBranchesFound := parallelBranches.length

/-- `run`. The index stays the one the pipeline was given. -/
def optimize (nx : Networkx) (targetLanguage : String) (index : GraphIndex) (entryPoints : List String) :
    OptimizationResult :=
  let run := runPipeline nx index.graph index entryPoints
  let duplicatePairs := detectDuplicates run.afterDead index
  let parallelBranches := parallelizeIndependentBranches nx run.after (some index)
  { before := run.before
    after := run.after
    verificationReports := run.reports
    duplicatePairs
    parallelBranches
    summary := buildSummary targetLanguage run duplicatePairs parallelBranches }

-- ---------------------------------------------------------------------------
-- Risk levels
-- ---------------------------------------------------------------------------

/-- The level with this string is at least as severe, by `RISK_ORDER`. -/
def AtLeastAsSevere (level : String) (risk : RiskLevel) : Prop :=
  ∃ top : RiskLevel, top.value = level ∧ risk.order ≤ top.order

section
variable {risk top : RiskLevel} {risks : List RiskLevel} {reports : List VerificationReport}

theorem value_injective : Function.Injective RiskLevel.value := by
  intro a b h
  cases a <;> cases b <;> first | rfl | exact absurd h (by decide)

/-- The strings stand the other way round: the worst level comes first. -/
theorem value_le_iff : risk.value ≤ top.value ↔
    risk = top ∨ risk = .critical ∨ top = .medium ∨ risk = .high ∧ top = .low := by
  rw [String.le_iff_toList_le]
  cases risk <;> cases top <;> decide

/-- A level whose string is no greater is no more severe only among the two
lowest, and by itself. -/
theorem order_le_iff (h : risk.value ≤ top.value) : risk.order ≤ top.order ↔
    risk = top ∨ (risk = .low ∨ risk = .medium) ∧ (top = .low ∨ top = .medium) := by
  rw [value_le_iff] at h
  cases risk <;> cases top <;> revert h <;> decide

theorem exists_maxRiskLevel (hne : reports ≠ []) :
    ∃ top : RiskLevel, top.value = maxRiskLevel reports ∧ (∃ r ∈ reports, r.riskLevel = top) ∧
      ∀ r ∈ reports, r.riskLevel.value ≤ top.value := by
  cases hmax : (reports.map fun r => r.riskLevel.value).max? with
  | none => exact absurd (List.map_eq_nil_iff.mp (List.max?_eq_none_iff.mp hmax)) hne
  | some level =>
    obtain ⟨hmem, hle⟩ := List.max?_eq_some_iff.mp hmax
    obtain ⟨r, hr, rfl⟩ := List.mem_map.mp hmem
    refine ⟨r.riskLevel, by rw [maxRiskLevel, hmax, Option.getD_some], ⟨r, hr, rfl⟩, ?_⟩
    exact fun r' hr' => hle _ (List.mem_map_of_mem hr')

/-- The greatest string is the most severe level only where nothing was found,
or only one thing. -/
theorem maxRiskLevel_severe_iff (hne : reports ≠ []) :
    (∀ r ∈ reports, AtLeastAsSevere (maxRiskLevel reports) r.riskLevel) ↔
      (∀ r ∈ reports, r.riskLevel = .low ∨ r.riskLevel = .medium) ∨
      (∀ r ∈ reports, r.riskLevel = .high) ∨ ∀ r ∈ reports, r.riskLevel = .critical := by
  obtain ⟨top, htop, ⟨r₀, hr₀, hlevel⟩, hmax⟩ := exists_maxRiskLevel hne
  have hsevere : ∀ r : VerificationReport,
      AtLeastAsSevere (maxRiskLevel reports) r.riskLevel ↔ r.riskLevel.order ≤ top.order := by
    intro r
    rw [AtLeastAsSevere, ← htop]
    exact ⟨fun ⟨t, ht, hle⟩ => value_injective ht ▸ hle, fun hle => ⟨top, rfl, hle⟩⟩
  have hpeer : ∀ r ∈ reports, r.riskLevel.order ≤ top.order ↔ r.riskLevel = top ∨
      (r.riskLevel = .low ∨ r.riskLevel = .medium) ∧ (top = .low ∨ top = .medium) :=
    fun r hr => order_le_iff (hmax r hr)
  rw [forall₂_congr fun r _ => hsevere r, forall₂_congr hpeer]
  constructor
  · intro h
    cases top with
    | low => exact .inl fun r hr => (h r hr).elim .inl And.left
    | medium => exact .inl fun r hr => (h r hr).elim .inr And.left
    | high => exact .inr (.inl fun r hr => (h r hr).resolve_right (by simp))
    | critical => exact .inr (.inr fun r hr => (h r hr).resolve_right (by simp))
  · rintro (h | h | h)
    · exact fun r hr => .inr ⟨h r hr, hlevel ▸ h r₀ hr₀⟩
    · exact fun r hr => .inl ((h r hr).trans ((h r₀ hr₀).symm.trans hlevel))
    · exact fun r hr => .inl ((h r hr).trans ((h r₀ hr₀).symm.trans hlevel))

end

section
variable {nx : Networkx} {before after index : GraphIndex} {entryPoints : List String}

theorem riskLevel_cases : (verify before after entryPoints).riskLevel =
    if improperlyRemoved before after entryPoints ≠ [] then .critical
    else if lostTraces before after entryPoints ≠ [] then .high
    else if (verify before after entryPoints).nodesAdded + (verify before after entryPoints).nodesRemoved +
      (verify before after entryPoints).edgesAdded + (verify before after entryPoints).edgesRemoved >
        riskMediumChangeThreshold then .medium
    else .low := by
  simp only [verify, assessRisk]
  by_cases hremoved : improperlyRemoved before after entryPoints = []
  · by_cases hlost : lostTraces before after entryPoints = [] <;> simp [hremoved, hlost]
  · simp [hremoved]

theorem riskLevel_low_or_medium_iff : (verify before after entryPoints).riskLevel = .low ∨
    (verify before after entryPoints).riskLevel = .medium ↔
      (verify before after entryPoints).behaviorPreserved = true := by
  rw [riskLevel_cases, preserved_iff]
  split
  · rename_i hremoved; simp [hremoved]
  · rename_i hkept
    split
    · rename_i hlost; simp [hlost]
    · rename_i hsame
      refine iff_of_true ?_ ⟨not_not.mp hsame, not_not.mp hkept⟩
      split <;> simp

theorem reports_eq : (runPipeline nx index.graph index entryPoints).reports =
    [(applyPass nx 0 index.graph (withoutDead index entryPoints) entryPoints).1,
      (applyPass nx 1 (runPipeline nx index.graph index entryPoints).afterDead (inlineTrivialNodes nx
        (runPipeline nx index.graph index entryPoints).afterDead index defaultInlineThreshold) entryPoints).1,
      (applyPass nx 2 (runPipeline nx index.graph index entryPoints).afterInline
        (reduceComplexity (runPipeline nx index.graph index entryPoints).afterInline) entryPoints).1,
      (applyPass nx 3 (runPipeline nx index.graph index entryPoints).afterReduce
        (cleanDependencyCycles nx (runPipeline nx index.graph index entryPoints).afterReduce) entryPoints).1] := rfl

theorem riskLevel_applyPass_iff : ((applyPass nx k g result entryPoints).1.riskLevel = .low ∨
    (applyPass nx k g result entryPoints).1.riskLevel = .medium) ↔ Accepted nx k g result entryPoints :=
  riskLevel_low_or_medium_iff

/-- No report is worse than medium when each pass in its turn keeps what the
verification looks at. -/
theorem reports_low_or_medium_iff (hnx : nx.Local) :
    (∀ r ∈ (runPipeline nx index.graph index entryPoints).reports, r.riskLevel = .low ∨ r.riskLevel = .medium) ↔
      InliningKept nx index entryPoints ∧
        SplittingKept nx (withTrivialInlined nx index entryPoints) entryPoints ∧
        CleaningKept nx (reduceComplexity (withTrivialInlined nx index entryPoints)) entryPoints := by
  simp only [reports_eq, List.forall_mem_cons, List.not_mem_nil, false_implies, implies_true, and_true,
    riskLevel_applyPass_iff]
  rw [and_iff_right (accepted_removal hnx), afterDead_eq hnx]
  refine (and_congr_left fun _ => accepted_inlining_iff hnx).trans (and_congr_right fun hinline => ?_)
  rw [afterInline_eq hnx hinline]
  refine (and_congr_left fun _ => accepted_splitting_iff).trans (and_congr_right fun hsplit => ?_)
  rw [← afterInline_eq hnx hinline] at hsplit
  rw [afterReduce_eq hsplit, afterInline_eq hnx hinline, accepted_cleaning_iff]

/-- The level of the summary is as severe as all reports say only when no pass
takes from the live nodes what the verification looks at. -/
theorem max_risk_level_severe_iff (nx : Networkx) (hnx : nx.Local) (targetLanguage : String) (index : GraphIndex)
    (entryPoints : List String) :
    (∀ r ∈ (optimize nx targetLanguage index entryPoints).verificationReports,
      AtLeastAsSevere (optimize nx targetLanguage index entryPoints).summary.maxRiskLevel r.riskLevel) ↔
      InliningKept nx index entryPoints ∧
        SplittingKept nx (withTrivialInlined nx index entryPoints) entryPoints ∧
        CleaningKept nx (reduceComplexity (withTrivialInlined nx index entryPoints)) entryPoints := by
  change (∀ r ∈ (runPipeline nx index.graph index entryPoints).reports, AtLeastAsSevere
    (maxRiskLevel (runPipeline nx index.graph index entryPoints).reports) r.riskLevel) ↔ _
  rw [maxRiskLevel_severe_iff (by simp [reports_eq]), ← reports_low_or_medium_iff hnx]
  -- the first pass is accepted, so not all reports are bad
  have hfirst : ∃ r ∈ (runPipeline nx index.graph index entryPoints).reports,
      r.riskLevel = .low ∨ r.riskLevel = .medium :=
    ⟨_, List.mem_cons_self, riskLevel_applyPass_iff.mpr (accepted_removal hnx)⟩
  obtain ⟨r, hr, hlevel⟩ := hfirst
  refine or_iff_left ?_
  rintro (hall | hall) <;> simp [hall r hr] at hlevel

end

/-- Exhaustive searches whose sets are listed in alphabetical order. -/
def Networkx.sorted : Networkx :=
  { Networkx.exhaustive with
    index := fun _ g => .sorted g
    graph_index := fun _ _ => rfl }

theorem local_sortedNetworkx : Networkx.sorted.Local := local_sorted fun _ _ => rfl

theorem findsComponents_sorted : Networkx.sorted.FindsComponents where
  component := findsComponents_exhaustive.component
  covered := findsComponents_exhaustive.covered

theorem max_risk_level_severe_halfDead :
    InliningKept .sorted (.sorted halfDead) ["main"] ∧
      SplittingKept .sorted (withTrivialInlined .sorted (.sorted halfDead) ["main"]) ["main"] ∧
      CleaningKept .sorted (reduceComplexity (withTrivialInlined .sorted (.sorted halfDead) ["main"])) ["main"] := by
  refine (max_risk_level_severe_iff .sorted local_sortedNetworkx "python" (.sorted halfDead) ["main"]).mp ?_
  have hmax : (optimize .sorted "python" (.sorted halfDead) ["main"]).summary.maxRiskLevel = "low" := by
    decide +kernel
  have hlow : ∀ r ∈ (optimize .sorted "python" (.sorted halfDead) ["main"]).verificationReports,
      r.riskLevel = .low := by decide +kernel
  intro r hr
  rw [hmax, hlow r hr]
  exact ⟨.low, rfl, Nat.le_refl _⟩

def costlyMain : SoftwareGraph where
  repositoryName := "repo"
  layers := [{ layer := .call, nodes := [{ id := "main", name := "main", complexity := .cubic }] }]
  keyed := by decide

/-- Splitting `main` removes a reachable node, which is critical; the other
passes change nothing, and their `"low"` is the greatest string. -/
theorem critical_reported_low : Networkx.sorted.Local ∧
    (∃ r ∈ (optimize .sorted "python" (.sorted costlyMain) ["main"]).verificationReports,
      r.riskLevel = .critical) ∧
    (optimize .sorted "python" (.sorted costlyMain) ["main"]).summary.maxRiskLevel = "low" ∧
    ¬ AtLeastAsSevere "low" .critical := by
  refine ⟨local_sortedNetworkx, ?_, ?_, ?_⟩
  · decide +kernel
  · decide +kernel
  · rintro ⟨top, hvalue, hle⟩
    cases top with
    | low => exact absurd hle (by decide)
    | _ => exact absurd hvalue (by decide)

-- ---------------------------------------------------------------------------
-- What the passes leave declared
-- ---------------------------------------------------------------------------

/-- Inlining cuts the node off where the search does not look, so that splitting
takes it out. -/
structure SplitAway (nx : Networkx) (index : GraphIndex) (entryPoints : List String) (x : String) : Prop where
  inlining : InliningKept nx index entryPoints
  splitting : SplittingKept nx (withTrivialInlined nx index entryPoints) entryPoints
  costly : ∀ n ∈ (withTrivialInlined nx index entryPoints).allNodes, n.id = x →
    n.complexity.aboveSplitThreshold = true

/-- The graph that is split. -/
def Given (nx : Networkx) (index : GraphIndex) (entryPoints : List String) (g : SoftwareGraph) : Prop :=
  InliningKept nx index entryPoints ∧ g = withTrivialInlined nx index entryPoints ∨
    ¬ InliningKept nx index entryPoints ∧ g = withoutDead index entryPoints

/-- A part of a split node has the id. -/
def IsPart (nx : Networkx) (index : GraphIndex) (entryPoints : List String) (x : String) : Prop :=
  ∃ g, Given nx index entryPoints g ∧ SplittingKept nx g entryPoints ∧
    ∃ n ∈ g.allNodes, n.complexity.aboveSplitThreshold = true ∧ ∃ i < defaultSplitParts, partId n.id i = x

section
variable {nx : Networkx} {index : GraphIndex} {entryPoints : List String} {g : SoftwareGraph} {x : String}

theorem given_iff (hnx : nx.Local) : Given nx index entryPoints g ↔
    g = (runPipeline nx index.graph index entryPoints).afterInline := by
  by_cases h : InliningKept nx index entryPoints
  · simp [Given, h, afterInline_eq hnx h]
  · simp [Given, h, afterInline_eq_withoutDead hnx h]

theorem live_of_withTrivialInlined (h : x ∈ (withTrivialInlined nx index entryPoints).nodeIds) :
    x ∈ index.graph.nodeIds ∧ Live index entryPoints x := by
  rw [withTrivialInlined, inlineTrivialNodes, SoftwareGraph.mem_nodeIds_mapLayers] at h
  obtain ⟨l, hl, hx⟩ := h
  exact mem_nodeIds_withoutDead.mp
    (SoftwareGraph.mem_nodeIds_iff.mpr ⟨l, hl, (mem_nodeIds_inlineLayer.mp hx).1⟩)

/-- Up to splitting, just the live declared nodes stay declared. -/
theorem mem_nodeIds_afterInline (hnx : nx.Local) :
    x ∈ (runPipeline nx index.graph index entryPoints).afterInline.nodeIds ↔
      x ∈ index.graph.nodeIds ∧ Live index entryPoints x := by
  by_cases h : InliningKept nx index entryPoints
  · rw [afterInline_eq hnx h]
    refine ⟨live_of_withTrivialInlined, fun ⟨hx, hlive⟩ => ?_⟩
    exact (mem_nodeIds_withTrivialInlined hlive).mpr (h.declared x hx hlive)
  · rw [afterInline_eq_withoutDead hnx h, mem_nodeIds_withoutDead]

/-- Where nothing is inlined, splitting is accepted only if it takes out nothing. -/
theorem remains_of_splittingKept (h : SplittingKept nx (withoutDead index entryPoints) entryPoints)
    (hx : x ∈ index.graph.nodeIds) (hlive : Live index entryPoints x) :
    Remains (withoutDead index entryPoints) x := by
  obtain ⟨ep, hep, -, hr⟩ := live_iff_reaches.mp hlive
  exact h.declared ep hep x (mem_nodeIds_withoutDead.mpr ⟨hx, hlive⟩) hr

theorem mem_nodeIds_after (hnx : nx.Local) : x ∈ (runPipeline nx index.graph index entryPoints).after.nodeIds ↔
    (x ∈ index.graph.nodeIds ∧ Live index entryPoints x ∧ ¬ SplitAway nx index entryPoints x) ∨
      IsPart nx index entryPoints x := by
  rw [nodeIds_after]
  by_cases hsplit : SplittingKept nx (runPipeline nx index.graph index entryPoints).afterInline entryPoints
  · rw [afterReduce_eq hsplit]
    refine mem_nodeIds_reduceComplexity.trans ⟨?_, ?_⟩
    · rintro (⟨n, hn, rfl, hcheap⟩ | hpart)
      · obtain ⟨hx, hlive⟩ := (mem_nodeIds_afterInline hnx).mp (List.mem_map_of_mem hn)
        refine .inl ⟨hx, hlive, fun haway => ?_⟩
        rw [afterInline_eq hnx haway.inlining] at hn
        exact absurd (haway.costly n hn rfl) (by simp [hcheap])
      · exact .inr ⟨_, (given_iff hnx).mpr rfl, hsplit, hpart⟩
    · rintro (⟨hx, hlive, hstays⟩ | ⟨g, hg, -, hpart⟩)
      · by_cases hinline : InliningKept nx index entryPoints
        · rw [afterInline_eq hnx hinline] at hsplit ⊢
          have hcheap : ∃ n ∈ (withTrivialInlined nx index entryPoints).allNodes,
              n.id = x ∧ n.complexity.aboveSplitThreshold = false := by
            by_contra hnone
            refine hstays ⟨hinline, hsplit, fun n hn hid => ?_⟩
            by_contra hc
            exact hnone ⟨n, hn, hid, by simpa using hc⟩
          exact .inl hcheap
        · rw [afterInline_eq_withoutDead hnx hinline] at hsplit ⊢
          exact remains_of_splittingKept hsplit hx hlive
      · obtain rfl := (given_iff hnx).mp hg
        exact .inr hpart
  · rw [afterReduce_eq_afterInline hsplit, mem_nodeIds_afterInline hnx]
    constructor
    · rintro ⟨hx, hlive⟩
      refine .inl ⟨hx, hlive, fun haway => hsplit ?_⟩
      rw [afterInline_eq hnx haway.inlining]
      exact haway.splitting
    · rintro (⟨hx, hlive, -⟩ | ⟨g, hg, hkept, -⟩)
      · exact ⟨hx, hlive⟩
      · exact absurd ((given_iff hnx).mp hg ▸ hkept) hsplit

end

-- ---------------------------------------------------------------------------
-- What the report mentions
-- ---------------------------------------------------------------------------

/-- In a layer the node lies on a cycle with another one, or at the same depth
of a layer without cycles. -/
def InBranch (g : SoftwareGraph) (x : String) : Prop :=
  ∃ l ∈ g.layers, ∃ y, x ≠ y ∧ (OnCycleWith l x y ∨ isAcyclic l.edgePairs ∧
    ∃ k, AtDepth (graphNodes l) l.edgePairs k x ∧ AtDepth (graphNodes l) l.edgePairs k y)

/-- The node begins a component that two layers have. -/
def InDuplicate (g : SoftwareGraph) (x : String) : Prop :=
  ∃ y, Repeats g.layers x y ∨ Repeats g.layers y x

def OptimizationResult.Mentions (result : OptimizationResult) (x : String) : Prop :=
  (∃ group ∈ result.parallelBranches, x ∈ group) ∨
    ∃ pair ∈ result.duplicatePairs, x = pair.1 ∨ x = pair.2

section
variable {nx : Networkx} {g : SoftwareGraph} {index : GraphIndex} {entryPoints : List String} {l : SGIRGraph}
  {x : String}

theorem mem_candidate_iff (hnx : nx.FindsComponents) :
    (∃ branch ∈ candidateBranches nx l, minParallelBranchSize ≤ branch.card ∧ x ∈ branch) ↔
      ∃ y, x ≠ y ∧ (OnCycleWith l x y ∨ isAcyclic l.edgePairs ∧
        ∃ k, AtDepth (graphNodes l) l.edgePairs k x ∧ AtDepth (graphNodes l) l.edgePairs k y) := by
  constructor
  · rintro ⟨branch, hb, hsize, hx⟩
    obtain ⟨y, hy, hne⟩ := Finset.exists_mem_ne hsize x
    refine ⟨y, hne.symm, ?_⟩
    rcases candidate_cases hnx hb hx with ⟨hacyclic, k, hmem⟩ | hmem
    · exact .inr ⟨hacyclic, k, (hmem x).mp hx, (hmem y).mp hy⟩
    · exact .inl ((hmem y).mp hy).2
  · rintro ⟨y, hne, hxy | ⟨hacyclic, k, hx, hy⟩⟩
    · have hx := hxy.mem_graphNodes hne
      obtain ⟨branch, hb, hmem⟩ := exists_cycle_candidate hnx hx
      have hxb : x ∈ branch := (hmem x).mpr ⟨hx, .refl, .refl⟩
      exact ⟨branch, hb, card_of_ne hxb ((hmem y).mpr ⟨hxy.graphNodes_right hne hxy, hxy⟩) hne, hxb⟩
    · obtain ⟨branch, hb, hmem⟩ := exists_level_candidate hacyclic hx
      have hxb : x ∈ branch := (hmem x).mpr hx
      exact ⟨branch, hb, card_of_ne hxb ((hmem y).mpr hy) hne, hxb⟩

/-- Graphs with the same kinds of layers look up the same layers of the index. -/
theorem exists_indexedLayer {p : SGIRGraph → Prop}
    (hkinds : g.layers.map SGIRGraph.layer = index.graph.layers.map SGIRGraph.layer) :
    (∃ l ∈ g.layers, p (indexedLayer (some index) l)) ↔ ∃ l ∈ index.graph.layers, p l := by
  have hsame : ∀ l ∈ index.graph.layers, ∀ l', l'.layer = l.layer → indexedLayer (some index) l' = l := by
    intro l hl l' hkind
    rw [indexedLayer, Option.bind_some, GraphIndex.getGraph, hkind, SoftwareGraph.getLayer_of_mem hl,
      Option.getD_some]
  constructor
  · rintro ⟨l', hl', hp⟩
    obtain ⟨l, hl, hkind⟩ := List.mem_map.mp (hkinds ▸ List.mem_map_of_mem (f := SGIRGraph.layer) hl')
    exact ⟨l, hl, hsame l hl l' hkind.symm ▸ hp⟩
  · rintro ⟨l, hl, hp⟩
    obtain ⟨l', hl', hkind⟩ := List.mem_map.mp (hkinds ▸ List.mem_map_of_mem (f := SGIRGraph.layer) hl)
    exact ⟨l', hl', (hsame l hl l' hkind).symm ▸ hp⟩

theorem kinds_applyPass {result : SoftwareGraph}
    (h : result.layers.map SGIRGraph.layer = g.layers.map SGIRGraph.layer) :
    (applyPass nx k g result entryPoints).2.layers.map SGIRGraph.layer = g.layers.map SGIRGraph.layer := by
  rcases applyPass_cases nx k g result entryPoints with hk | ⟨-, hk⟩
  · rw [hk]
  · rw [hk, h]

theorem kinds_after : (runPipeline nx index.graph index entryPoints).after.layers.map SGIRGraph.layer =
    index.graph.layers.map SGIRGraph.layer := by
  refine (kinds_applyPass (SoftwareGraph.kinds_mapLayers ..)).trans ?_
  refine (kinds_applyPass (SoftwareGraph.kinds_mapLayers ..)).trans ?_
  refine (kinds_applyPass (SoftwareGraph.kinds_mapLayers ..)).trans ?_
  exact kinds_applyPass (SoftwareGraph.kinds_mapLayers ..)

theorem mem_group_iff (hnx : nx.FindsComponents)
    (hkinds : g.layers.map SGIRGraph.layer = index.graph.layers.map SGIRGraph.layer) :
    (∃ group ∈ parallelizeIndependentBranches nx g (some index), x ∈ group) ↔ InBranch index.graph x := by
  rw [InBranch, ← exists_indexedLayer hkinds]
  simp only [mem_parallelizeIndependentBranches, ← mem_candidate_iff hnx]
  constructor
  · rintro ⟨group, ⟨l, hl, branch, hb, hsize, rfl⟩, hx⟩
    exact ⟨l, hl, branch, hb, hsize, (Finset.mem_sort _).mp hx⟩
  · rintro ⟨l, hl, branch, hb, hsize, hx⟩
    exact ⟨branch.sort, ⟨l, hl, branch, hb, hsize, rfl⟩, (Finset.mem_sort _).mpr hx⟩

theorem mem_pair_iff (index : GraphIndex) :
    (∃ pair ∈ detectDuplicates g index, x = pair.1 ∨ x = pair.2) ↔ InDuplicate g x := by
  constructor
  · rintro ⟨⟨a, b⟩, hp, rfl | rfl⟩
    · exact ⟨b, .inl (mem_detectDuplicates.mp hp)⟩
    · exact ⟨a, .inr (mem_detectDuplicates.mp hp)⟩
  · rintro ⟨y, hr | hr⟩
    · exact ⟨(x, y), mem_detectDuplicates.mpr hr, .inl rfl⟩
    · exact ⟨(y, x), mem_detectDuplicates.mpr hr, .inr rfl⟩

/-- A mentioned node is declared in the graph of the result when it is declared
and live and is not split away, or is called like a part of a split node. -/
theorem report_consistent_iff (nx : Networkx) (hnx : nx.FindsComponents) (hlocal : nx.Local)
    (targetLanguage : String) (index : GraphIndex) (entryPoints : List String) :
    (∀ x, (optimize nx targetLanguage index entryPoints).Mentions x →
      x ∈ (optimize nx targetLanguage index entryPoints).after.nodeIds) ↔
      ∀ x, InBranch index.graph x ∨ InDuplicate (withoutDead index entryPoints) x →
        (x ∈ index.graph.nodeIds ∧ Live index entryPoints x ∧ ¬ SplitAway nx index entryPoints x) ∨
          IsPart nx index entryPoints x := by
  refine forall_congr' fun x => imp_congr ?_ (mem_nodeIds_after hlocal)
  rw [← afterDead_eq hlocal]
  exact or_congr (mem_group_iff hnx kinds_after) (mem_pair_iff index)

end

theorem mentioned_twoCallees {x : String} (hx : InBranch twoCallees x) : x = "a" ∨ x = "b" := by
  obtain ⟨l, hl, hx⟩ := hx
  obtain ⟨branch, hb, hsize, hx⟩ := (mem_candidate_iff findsComponents_exhaustive).mpr hx
  obtain rfl := branches_twoCallees l hl branch hb hsize
  simpa using hx

theorem inBranch_twoCallees : InBranch twoCallees "a" :=
  ⟨_, List.mem_singleton_self _, (mem_candidate_iff findsComponents_exhaustive).mp
    ⟨{"a", "b"}, by decide +kernel, by decide, by decide⟩⟩

theorem report_consistent_twoCallees :
    ("a" ∈ twoCallees.nodeIds ∧ Live (.sorted twoCallees) ["main"] "a" ∧
        ¬ SplitAway .sorted (.sorted twoCallees) ["main"] "a") ∨
      IsPart .sorted (.sorted twoCallees) ["main"] "a" := by
  refine (report_consistent_iff .sorted findsComponents_sorted local_sortedNetworkx "python" (.sorted twoCallees)
    ["main"]).mp ?_ "a" (.inl inBranch_twoCallees)
  rintro x (⟨group, hg, hx⟩ | ⟨pair, hp, -⟩)
  · have hx : InBranch twoCallees x := (mem_group_iff findsComponents_sorted kinds_after).mp ⟨group, hg, hx⟩
    rcases mentioned_twoCallees hx with rfl | rfl <;> decide +kernel
  · have hnone : (optimize .sorted "python" (.sorted twoCallees) ["main"]).duplicatePairs = [] := by
      decide +kernel
    exact absurd (hnone ▸ hp) List.not_mem_nil

/-- The only level of the original layer has the dead node, which is removed. -/
def unused : SoftwareGraph := callGraph ["main", "dead"] []

theorem dead_node_mentioned : Networkx.sorted.FindsComponents ∧ Networkx.sorted.Local ∧
    (optimize .sorted "python" (.sorted unused) ["main"]).Mentions "dead" ∧
    "dead" ∉ (optimize .sorted "python" (.sorted unused) ["main"]).after.nodeIds := by
  refine ⟨findsComponents_sorted, local_sortedNetworkx, .inl ?_, by decide +kernel⟩
  refine (mem_group_iff findsComponents_sorted kinds_after).mpr ⟨_, List.mem_singleton_self _, ?_⟩
  refine (mem_candidate_iff findsComponents_sorted).mp ⟨{"main", "dead"}, ?_, by decide, by decide⟩
  decide +kernel

end Intelliqx.Graph
