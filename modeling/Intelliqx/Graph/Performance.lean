import Intelliqx.Base.Tally
import Intelliqx.Graph.Agents
import Intelliqx.Graph.CallGraph

/-!
# Performance analysis

`PerformanceAgent` looks for expensive functions and for calls that could run
side by side. Of the functions that one calls it keeps those that lead to no
other of them; no two of these lead to each other, and without cycles each of
the others leads to one of them (`parallel_successors_independent`). Its counts
agree with what it lists (`complexity_counts_agree`).
-/

namespace Intelliqx.Graph.Agents

open Index (DiGraph EdgeData NxError ofLayer single weights)
open Intelliqx.Digraph (Acyclic Reaches)

def maxEntryPoints : Nat := 10
def maxExitPoints : Nat := 10
def maxCriticalPaths : Nat := 20
def minCacheFanIn : Nat := 3
def highCacheFanIn : Nat := 5
def highCacheSpeedupFanIn : Nat := 8
def minParallelSuccessors : Nat := 3
def fanInCostWeight : ℚ := 1 / 10

structure CriticalPathInfo where
  source : String
  target : String
  path : List String
  pathLength : Nat
  totalWeight : ℚ
  deriving DecidableEq

structure ExpensiveComputation where
  nodeId : String
  nodeName : String
  complexity : String
  fanIn : Nat
  fanOut : Nat
  callers : List String := []
  costScore : ℚ := 0
  deriving DecidableEq

structure CachingOpportunity where
  nodeId : String
  nodeName : String
  reason : String
  estimatedSpeedup : String
  fanIn : Nat
  deriving DecidableEq

structure ParallelizationOpportunity where
  nodeIds : List String
  reason : String
  potentialSpeedup : String
  deriving DecidableEq

structure PerformanceReport where
  criticalPaths : List CriticalPathInfo := []
  expensiveComputations : List ExpensiveComputation := []
  cachingOpportunities : List CachingOpportunity := []
  parallelizationOpportunities : List ParallelizationOpportunity := []
  totalNodesAnalyzed : Nat := 0
  highComplexityNodes : Nat := 0
  averageComplexityDistribution : Dict String Nat := .empty

def expensiveComplexities : List String :=
  [ComplexityEstimate.quadratic, .cubic, .exponential].map ComplexityEstimate.value

def complexityCosts : List (String × ℚ) :=
  [("O(2^n)", 100), ("O(n^3)", 50), ("O(n^2)", 20), ("O(n log n)", 3), ("O(n)", 1),
    ("O(log n)", 1 / 2), ("O(1)", 1 / 10)]

-- ---------------------------------------------------------------------------
-- The agent
-- ---------------------------------------------------------------------------

/-- The critical path from one entry to one exit, if it has an edge. -/
def criticalPathInfo (nx : Networkx) (g : DiGraph) (source target : String) :
    Except AgentError (Option CriticalPathInfo) :=
  if source = target then .ok none
  else
    match Index.criticalPath nx.toNetworkx (some g) source target with
    | .error e => .error (.networkx e)
    | .ok none => .ok none
    | .ok (some path) =>
      if path.length < 2 then .ok none
      else (pathWeight g path).map fun weight => some ⟨source, target, path, path.length, weight⟩

def findCriticalPaths (nx : Networkx) (g : DiGraph) : Except AgentError (List CriticalPathInfo) := do
  let entryPoints := g.nodes.keys.filter fun n => g.inDegree n = 0
  let exitPoints := g.nodes.keys.filter fun n => g.outDegree n = 0
  let ends := (entryPoints.take maxEntryPoints).flatMap fun source =>
    (exitPoints.take maxExitPoints).map fun target => (source, target)
  let paths ← ends.mapM fun e => criticalPathInfo nx g e.1 e.2
  .ok ((sortDesc CriticalPathInfo.totalWeight (paths.filterMap id)).take maxCriticalPaths)

def expensiveComputation (sg : SoftwareGraph) (g : DiGraph) (nodeId : String) : Option ExpensiveComputation :=
  match sg.findNode nodeId with
  | none => none
  | some node =>
    if node.complexity.value ∈ expensiveComplexities then
      some
        { nodeId := nodeId
          nodeName := node.name
          complexity := node.complexity.value
          fanIn := g.inDegree nodeId
          fanOut := g.outDegree nodeId
          callers := (g.edges.keys.filter fun k => k.2 = nodeId).map Prod.fst
          costScore :=
            (complexityCosts.lookup node.complexity.value).getD 1 * (1 + g.inDegree nodeId * fanInCostWeight) }
    else none

def findExpensiveComputations (sg : SoftwareGraph) (g : DiGraph) : List ExpensiveComputation :=
  sortDesc ExpensiveComputation.costScore (g.nodes.keys.filterMap (expensiveComputation sg g))

def cachingOpportunity (sg : SoftwareGraph) (g : DiGraph) (nodeId : String) : Option CachingOpportunity :=
  let fi := g.inDegree nodeId
  if fi < minCacheFanIn then none
  else
    match sg.findNode nodeId with
    | none => none
    | some node =>
      let isPure := node.sideEffects = [] ∧ node.failureModes = []
      if isPure ∧ minCacheFanIn ≤ fi then
        let estimated := if fi < highCacheSpeedupFanIn then "moderate" else "significant"
        some
          { nodeId := nodeId
            nodeName := node.name
            reason := s!"Pure function called {fi} times with no side effects"
            estimatedSpeedup := s!"{estimated} speedup by caching results"
            fanIn := fi }
      else if highCacheFanIn ≤ fi then
        some
          { nodeId := nodeId
            nodeName := node.name
            reason := s!"High fan-in ({fi} callers); consider memoizing if inputs are bounded"
            estimatedSpeedup := "variable depending on input distribution"
            fanIn := fi }
      else none

def findCachingOpportunities (sg : SoftwareGraph) (g : DiGraph) : List CachingOpportunity :=
  sortDesc (fun o => (o.fanIn : ℚ)) (g.nodes.keys.filterMap (cachingOpportunity sg g))

def successors (g : DiGraph) (nodeId : String) : List String :=
  (g.edges.keys.filter fun k => k.1 = nodeId).map Prod.snd

/-- The successors that lead to no other. -/
def independent (g : DiGraph) (nodeId : String) : List String :=
  (successors g nodeId).filter fun s =>
    ¬ (successors g nodeId).any fun other => other ≠ s ∧ Reaches g.edges.keys s other

def parallelizationOpportunity (g : DiGraph) (nodeId : String) : Option ParallelizationOpportunity :=
  if (successors g nodeId).length < minParallelSuccessors then none
  else
    let n := (independent g nodeId).length
    if minParallelSuccessors ≤ n then
      some
        { nodeIds := nodeId :: independent g nodeId
          reason := s!"Node {nodeId} fans out to {n} independent successors"
          potentialSpeedup := s!"Up to {n}x parallelism" }
    else none

def findParallelizationOpportunities (g : DiGraph) : List ParallelizationOpportunity :=
  g.nodes.keys.filterMap (parallelizationOpportunity g)

def complexityOf (sg : SoftwareGraph) (nodeId : String) : String :=
  match sg.findNode nodeId with
  | some node => node.complexity.value
  | none => "unknown"

def complexityDistribution (sg : SoftwareGraph) (g : DiGraph) : Dict String Nat :=
  tally (complexityOf sg) g.nodes.keys

def analyzePerformance (nx : Networkx) (sg : SoftwareGraph) (index : Index.GraphIndex) :
    Except AgentError PerformanceReport :=
  match index.graphs.get? .call with
  | none => .ok {}
  | some g => do
    let criticalPaths ← findCriticalPaths nx g
    .ok
      { criticalPaths := criticalPaths
        expensiveComputations := findExpensiveComputations sg g
        cachingOpportunities := findCachingOpportunities sg g
        parallelizationOpportunities := findParallelizationOpportunities g
        totalNodesAnalyzed := g.nodes.keys.length
        highComplexityNodes := total (· ∈ expensiveComplexities) (complexityDistribution sg g)
        averageComplexityDistribution := complexityDistribution sg g }

section
variable {nx : Networkx} {sg : SoftwareGraph} {index : Index.GraphIndex} {report : PerformanceReport} {g : DiGraph}
  {x s t : String}

-- ---------------------------------------------------------------------------
-- Parallelization
-- ---------------------------------------------------------------------------

theorem mem_successors : s ∈ successors g x ↔ (x, s) ∈ g.edges.keys := by
  simp only [successors, List.mem_map, List.mem_filter, decide_eq_true_eq]
  constructor
  · rintro ⟨k, ⟨hk, rfl⟩, rfl⟩
    exact hk
  · exact fun h => ⟨(x, s), ⟨h, rfl⟩, rfl⟩

theorem nodup_successors : (successors g x).Nodup := by
  have hkeys : g.edges.keys.Nodup := g.edges.nodup
  refine (hkeys.filter _).map_on fun k hk k' hk' h => ?_
  have hsource := of_decide_eq_true (List.mem_filter.mp hk).2
  have hsource' := of_decide_eq_true (List.mem_filter.mp hk').2
  exact Prod.ext (hsource.trans hsource'.symm) h

theorem mem_independent : s ∈ independent g x ↔
    (x, s) ∈ g.edges.keys ∧ ∀ t, (x, t) ∈ g.edges.keys → t ≠ s → ¬ Reaches g.edges.keys s t := by
  simp only [independent, List.mem_filter, decide_eq_true_eq, List.any_eq_true, mem_successors]
  refine and_congr_right fun _ => ?_
  constructor
  · exact fun h t ht hne hr => h ⟨t, ht, hne, hr⟩
  · rintro h ⟨t, ht, hne, hr⟩
    exact h t ht hne hr

/-- A successor leads to a last one, which is independent or shares a cycle with another. -/
theorem exists_independent (ht : (x, t) ∈ g.edges.keys) :
    ∃ s, (x, s) ∈ g.edges.keys ∧ Reaches g.edges.keys t s ∧ (s ∈ independent g x ∨
      ∃ u, (x, u) ∈ g.edges.keys ∧ u ≠ s ∧ Reaches g.edges.keys s u ∧ Reaches g.edges.keys u s) := by
  obtain ⟨s, hs, hts, hlast⟩ := Digraph.exists_last g.edges.keys (mem_successors.mpr ht)
  refine ⟨s, mem_successors.mp hs, hts, ?_⟩
  by_cases hind : s ∈ independent g x
  · exact .inl hind
  · obtain ⟨u, hu, hne, hsu⟩ : ∃ u, (x, u) ∈ g.edges.keys ∧ u ≠ s ∧ Reaches g.edges.keys s u := by
      by_contra hnone
      exact hind (mem_independent.mpr ⟨mem_successors.mp hs, fun u hu hne hsu => hnone ⟨u, hu, hne, hsu⟩⟩)
    exact .inr ⟨u, hu, hne, hsu, hlast u (mem_successors.mpr hu) hsu⟩

/-- What is offered to run side by side are three or more callees that lead to no other callee.
Every callee leads to one of them, or to a callee that lies on a cycle with another callee. -/
theorem parallel_successors_independent {o : ParallelizationOpportunity}
    (ho : o ∈ findParallelizationOpportunities g) :
    ∃ x ss, o.nodeIds = x :: ss ∧ 3 ≤ ss.length ∧ ss.Nodup ∧ (∀ s ∈ ss, (x, s) ∈ g.edges.keys) ∧
      (∀ s ∈ ss, ∀ t, (x, t) ∈ g.edges.keys → t ≠ s → ¬ Reaches g.edges.keys s t) ∧
      (∀ t, (x, t) ∈ g.edges.keys → ∃ s, (x, s) ∈ g.edges.keys ∧ Reaches g.edges.keys t s ∧ (s ∈ ss ∨
        ∃ u, (x, u) ∈ g.edges.keys ∧ u ≠ s ∧ Reaches g.edges.keys s u ∧ Reaches g.edges.keys u s)) ∧
      (Acyclic g.edges.keys → ∀ t, (x, t) ∈ g.edges.keys → ∃ s ∈ ss, Reaches g.edges.keys t s) := by
  obtain ⟨x, -, hx⟩ := List.mem_filterMap.mp ho
  unfold parallelizationOpportunity at hx
  split at hx
  · cases hx
  · dsimp only at hx
    split at hx
    · rename_i hmany
      cases hx
      refine ⟨x, independent g x, rfl, hmany, nodup_successors.filter _, fun s hs => (mem_independent.mp hs).1,
        fun s hs => (mem_independent.mp hs).2, fun t ht => exists_independent ht, fun hacyclic t ht => ?_⟩
      obtain ⟨s, -, hts, hs | ⟨u, -, hne, hsu, hus⟩⟩ := exists_independent ht
      · exact ⟨s, hs, hts⟩
      · exact absurd (hacyclic.antisymm hus hsu) hne
    · cases hx

/-- One function that calls three. -/
def fan : SGIRGraph where
  layer := .call
  nodes := ["main", "a", "b", "c"].map fun id => { id, name := id }
  edges := ["a", "b", "c"].map fun callee => Index.callEdge "main" callee 1

theorem parallel_successors_fan : ¬ Reaches (ofLayer fan).edges.keys "a" "b" := by
  obtain ⟨x, ss, hnodes, -, -, -, hnone, -⟩ := parallel_successors_independent (g := ofLayer fan)
    (o := ⟨["main", "a", "b", "c"], "Node main fans out to 3 independent successors", "Up to 3x parallelism"⟩)
    (by decide +kernel)
  obtain ⟨rfl, rfl⟩ := List.cons.inj hnodes
  exact hnone "a" (by decide) "b" (by decide +kernel) (by decide)

-- ---------------------------------------------------------------------------
-- Counts
-- ---------------------------------------------------------------------------

theorem expensiveComputation_eq_some {e : ExpensiveComputation} (h : expensiveComputation sg g x = some e) :
    e.complexity = complexityOf sg x ∧ e.callers.length = e.fanIn := by
  unfold expensiveComputation at h
  unfold complexityOf
  cases hnode : sg.findNode x with
  | none =>
    rw [hnode] at h
    cases h
  | some node =>
    simp only [hnode] at h
    split at h
    · cases h
      exact ⟨rfl, List.length_map _⟩
    · cases h

/-- What is expensive is listed. -/
theorem isSome_expensiveComputation :
    (expensiveComputation sg g x).isSome = decide (complexityOf sg x ∈ expensiveComplexities) := by
  unfold expensiveComputation complexityOf
  have hunknown : "unknown" ∉ expensiveComplexities := by decide
  cases sg.findNode x with
  | none => simp [hunknown]
  | some node => by_cases h : node.complexity.value ∈ expensiveComplexities <;> simp [h]

theorem perm_findExpensiveComputations :
    (findExpensiveComputations sg g).Perm (g.nodes.keys.filterMap (expensiveComputation sg g)) := sortDesc_perm

theorem length_findExpensiveComputations : (findExpensiveComputations sg g).length =
    g.nodes.keys.countP fun x => complexityOf sg x ∈ expensiveComplexities := by
  rw [perm_findExpensiveComputations.length_eq, List.length_filterMap_eq_countP]
  exact List.countP_congr fun x _ => by rw [isSome_expensiveComputation]

theorem countP_findExpensiveComputations {c : String} (hc : c ∈ expensiveComplexities) :
    ((findExpensiveComputations sg g).countP fun e => e.complexity = c) =
      g.nodes.keys.countP fun x => complexityOf sg x = c := by
  rw [perm_findExpensiveComputations.countP_eq, List.countP_filterMap]
  refine List.countP_congr fun x _ => ?_
  cases he : expensiveComputation sg g x with
  | none =>
    have hsome : (expensiveComputation sg g x).isSome = _ := isSome_expensiveComputation
    rw [he] at hsome
    have hnot : complexityOf sg x ∉ expensiveComplexities := of_decide_eq_false hsome.symm
    have hne : complexityOf sg x ≠ c := fun h => hnot (h ▸ hc)
    simp [hne]
  | some e => simp [(expensiveComputation_eq_some he).1]

/-- The counts of a report add up to the nodes, and those of what is expensive to what is listed. -/
theorem complexity_counts_agree (h : analyzePerformance nx sg index = .ok report) :
    report.averageComplexityDistribution.values.sum = report.totalNodesAnalyzed ∧
      report.highComplexityNodes = report.expensiveComputations.length ∧
      (∀ c ∈ expensiveComplexities, (report.averageComplexityDistribution.get? c).getD 0 =
        report.expensiveComputations.countP fun e => e.complexity = c) ∧
      (report.expensiveComputations.Pairwise fun e e' => e'.costScore ≤ e.costScore) ∧
      ∀ e ∈ report.expensiveComputations, e.callers.length = e.fanIn := by
  unfold analyzePerformance at h
  split at h
  · cases h
    exact ⟨rfl, rfl, fun _ _ => rfl, .nil, List.forall_mem_nil _⟩
  · rename_i g hg
    obtain ⟨paths, -, hreport⟩ := bind_eq_ok.mp h
    cases hreport
    have hhigh : total (· ∈ expensiveComplexities) (complexityDistribution sg g) =
        (findExpensiveComputations sg g).length := total_tally.trans length_findExpensiveComputations.symm
    refine ⟨?_, hhigh, ?_, pairwise_sortDesc, ?_⟩
    · have hall : total (fun _ => true) (complexityDistribution sg g) = _ := total_tally
      simpa [total, Dict.values, complexityDistribution] using hall
    · exact fun c hc => getD_tally.trans (countP_findExpensiveComputations hc).symm
    · intro e he
      obtain ⟨x, -, hx⟩ := List.mem_filterMap.mp (perm_findExpensiveComputations.mem_iff.mp he)
      exact (expensiveComputation_eq_some hx).2

/-- A function of quadratic complexity with two callers, one of them costlier still. -/
def called : SGIRGraph where
  layer := .call
  nodes := [{ id := "f", name := "f", complexity := .quadratic }, { id := "g", name := "g" },
    { id := "h", name := "h", complexity := .cubic }]
  edges := [{ source := "g", target := "f", edgeType := .call }, { source := "h", target := "f", edgeType := .call }]

theorem complexity_counts_called :
    ∃ report, analyzePerformance pingPongNetworkx (single called) (.ofGraph (single called)) = .ok report ∧
      report.expensiveComputations.length = 2 ∧ report.highComplexityNodes = report.expensiveComputations.length ∧
      ∀ e ∈ report.expensiveComputations, e.callers.length = e.fanIn := by
  obtain ⟨report, h, htwo⟩ : ∃ report,
      analyzePerformance pingPongNetworkx (single called) (.ofGraph (single called)) = .ok report ∧
      report.expensiveComputations.length = 2 := ⟨_, rfl, by with_unfolding_all rfl⟩
  have hcounts := complexity_counts_agree h
  exact ⟨report, h, htwo, hcounts.2.1, hcounts.2.2.2.2⟩

end

end Intelliqx.Graph.Agents
