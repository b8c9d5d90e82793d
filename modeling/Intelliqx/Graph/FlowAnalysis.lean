import Intelliqx.Graph.Agents
import Intelliqx.Graph.Duplicates

/-!
# Flow analysis

`FlowAnalysisAgent` takes the nodes that nothing calls as entry points, or some
members of the largest component when everything is called. What it reports as
dead is what no entry point reaches. A dead node always lies behind a cycle of
dead nodes, so an acyclic call graph has none (`flow_unreachable_iff`). The
execution paths are cut off at a hundred, the lightest ones (`execution_paths_heaviest`).
-/

namespace Intelliqx.Graph.Agents

open Index (DiGraph EdgeData NxError layerStats ofLayer single weights)
open Intelliqx.Digraph (Acyclic IsSource OnCycle Reaches)
open Weighted (Walk)

def maxFallbackEntryPoints : Nat := 5
def maxExecutionPaths : Nat := 100
def minBottleneckScore : Nat := 8
def bottleneckHighFanIn : Nat := 10
def bottleneckHighFanOut : Nat := 10
def bottleneckCriticalFanOut : Nat := 5

structure ExecutionPath where
  path : List String
  length : Nat
  totalWeight : ℚ
  deriving DecidableEq

structure DeadCodeNode where
  nodeId : String
  nodeName : String
  nodeType : String
  language : String
  sourceFile : Option String := none
  deriving DecidableEq

structure BottleneckNode where
  nodeId : String
  nodeName : String
  fanIn : Nat
  fanOut : Nat
  bottleneckScore : ℚ
  impact : String
  deriving DecidableEq

structure FlowAnalysisReport where
  entryPoints : List String := []
  executionPaths : List ExecutionPath := []
  longestPathLength : Nat := 0
  deadCode : List DeadCodeNode := []
  bottlenecks : List BottleneckNode := []
  unreachableFromAnyEntry : List String := []
  totalReachable : Nat := 0
  totalUnreachable : Nat := 0
  graphIsDag : Bool := true
  stronglyConnectedComponents : Nat := 0

-- ---------------------------------------------------------------------------
-- The agent
-- ---------------------------------------------------------------------------

/-- `max(sccs, key=len)`, the first one of the largest. -/
def largest : List (List String) → Option (List String)
  | [] => none
  | c :: cs => some (cs.foldl (fun best c => if best.length < c.length then c else best) c)

def findEntryPoints (nx : Networkx) (g : DiGraph) : List String :=
  let entryPoints := g.nodes.keys.filter fun n => g.inDegree n = 0
  if entryPoints = [] then
    ((largest (nx.stronglyConnectedComponents g)).getD []).take maxFallbackEntryPoints
  else entryPoints

/-- The path to one target, if networkx finds any. -/
def executionPath (nx : Networkx) (g : DiGraph) (ep target : String) : Except AgentError (Option ExecutionPath) :=
  match nx.hopPath g ep target with
  | .ok path => (pathWeight g path).map fun weight => some ⟨path, path.length, weight⟩
  | .error .networkXNoPath | .error .nodeNotFound => .ok none
  | .error e => .error (.networkx e)

def targets (nx : Networkx) (g : DiGraph) (entryPoints : List String) : List (String × String) :=
  (entryPoints.filter fun ep => ep ∈ g.nodes.keys).flatMap fun ep =>
    (nx.descendants g ep).map fun target => (ep, target)

def findExecutionPaths (nx : Networkx) (g : DiGraph) (entryPoints : List String) :
    Except AgentError (List ExecutionPath) := do
  let paths ← (targets nx g entryPoints).mapM fun t => executionPath nx g t.1 t.2
  .ok ((sortDesc ExecutionPath.totalWeight (paths.filterMap id)).take maxExecutionPaths)

def deadCodeNode (sg : SoftwareGraph) (nodeId : String) : DeadCodeNode :=
  match sg.findNode nodeId with
  | some node =>
    ⟨node.id, node.name, node.nodeType.value, node.language, node.sourceLocation.map SourceLocation.filePath⟩
  | none => ⟨nodeId, nodeId, "unknown", "unknown", none⟩

def findDeadCode (sg : SoftwareGraph) (g : DiGraph) (entryPoints : List String) : List DeadCodeNode :=
  (Index.findDeadNodes (some g) entryPoints).map (deadCodeNode sg)

def bottleneckImpact (fi fo : Nat) : String :=
  if bottleneckHighFanIn < fi ∧ bottleneckCriticalFanOut < fo then
    "Critical: high fan-in and fan-out indicate a central hub"
  else if bottleneckHighFanIn < fi then "High fan-in: many components depend on this node"
  else if bottleneckHighFanOut < fo then "High fan-out: this node depends on many others"
  else "Moderate bottleneck"

def findBottlenecks (g : DiGraph) : List BottleneckNode :=
  sortDesc BottleneckNode.bottleneckScore <|
    (g.nodes.keys.filter fun n => minBottleneckScore ≤ g.inDegree n + g.outDegree n).map fun n =>
      ⟨n, nodeName g n, g.inDegree n, g.outDegree n, (g.inDegree n + g.outDegree n : Nat),
        bottleneckImpact (g.inDegree n) (g.outDegree n)⟩

/-- The nodes that the entry points reach, and the entry points. -/
def reached (g : DiGraph) (entryPoints : List String) : List String :=
  ((entryPoints.filter fun ep => ep ∈ g.nodes.keys).flatMap fun ep => ep :: Index.reachableFrom (some g) ep).dedup

def analyzeFlow (nx : Networkx) (sg : SoftwareGraph) (index : Index.GraphIndex) :
    Except AgentError FlowAnalysisReport :=
  match index.graphs.get? .call with
  | none => .ok {}
  | some g => do
    let entryPoints := findEntryPoints nx g
    let executionPaths ← findExecutionPaths nx g entryPoints
    let unreachable := Index.findDeadNodes (some g) entryPoints
    .ok
      { entryPoints := entryPoints
        executionPaths := executionPaths
        longestPathLength := (executionPaths.map fun p : ExecutionPath => p.path.length).max?.getD 0
        deadCode := findDeadCode sg g entryPoints
        bottlenecks := findBottlenecks g
        unreachableFromAnyEntry := unreachable
        totalReachable := (reached g entryPoints).length
        totalUnreachable := unreachable.length
        graphIsDag := (layerStats nx.toNetworkx g).isDag
        stronglyConnectedComponents := (layerStats nx.toNetworkx g).numStronglyConnected }

/-- Where the analysis starts: at a node that nothing calls or, where everything is called, at a
member of the largest component. -/
def IsStart (nx : Networkx) (g : DiGraph) (x : String) : Prop :=
  x ∈ g.nodes.keys ∧ (IsSource g.edges.keys x ∨ (∀ y ∈ g.nodes.keys, ¬ IsSource g.edges.keys y) ∧
    ∃ c, largest (nx.stronglyConnectedComponents g) = some c ∧ x ∈ c)

-- ---------------------------------------------------------------------------
-- Entry points
-- ---------------------------------------------------------------------------

section
variable {nx : Networkx} {g : DiGraph} {sg : SoftwareGraph} {x y : String} {c : List String}
  {cs : List (List String)}
  {entryPoints : List String}

theorem mem_largest (h : largest cs = some c) : c ∈ cs := by
  cases cs with
  | nil => cases h
  | cons d ds =>
    cases h
    induction ds generalizing d with
    | nil => exact List.mem_cons_self
    | cons e es ih =>
      rw [List.foldl_cons]
      rcases List.mem_cons.mp (ih (if d.length < e.length then e else d)) with hd | hd
      · rw [hd]
        split
        · exact List.mem_cons_of_mem d List.mem_cons_self
        · exact List.mem_cons_self
      · exact List.mem_cons_of_mem d (List.mem_cons_of_mem e hd)

theorem mem_sources : x ∈ (g.nodes.keys.filter fun n => g.inDegree n = 0) ↔
    x ∈ g.nodes.keys ∧ IsSource g.edges.keys x := by
  rw [List.mem_filter, decide_eq_true_eq, inDegree_eq_zero_iff]

section
variable (hnx : nx.Lawful g)
include hnx

theorem mem_nodes_of_mem_entryPoints (h : x ∈ findEntryPoints nx g) : x ∈ g.nodes.keys := by
  rw [findEntryPoints] at h
  split at h
  · cases hc : largest (nx.stronglyConnectedComponents g) with
    | none =>
      rw [hc] at h
      cases h
    | some c =>
      rw [hc] at h
      obtain ⟨z, -, hmem⟩ := (hnx.component c (mem_largest hc)).mutual_reach
      exact ((hmem x).mp (List.mem_of_mem_take h)).1
  · exact (mem_sources.mp h).1

/-- The entry points reach what the starts reach: of a component that is cut off some member is left. -/
theorem exists_entryPoint_iff :
    (∃ ep ∈ findEntryPoints nx g, Reaches g.edges.keys ep x) ↔ ∃ s, IsStart nx g s ∧ Reaches g.edges.keys s x := by
  by_cases hsources : (g.nodes.keys.filter fun n => g.inDegree n = 0) = []
  · have hnone : ∀ y ∈ g.nodes.keys, ¬ IsSource g.edges.keys y := by
      intro y hy hsource
      have hmem := mem_sources.mpr ⟨hy, hsource⟩
      rw [hsources] at hmem
      cases hmem
    rw [findEntryPoints, if_pos hsources]
    constructor
    · rintro ⟨ep, hep, hr⟩
      have hnode : ep ∈ g.nodes.keys := by
        refine mem_nodes_of_mem_entryPoints hnx ?_
        rwa [findEntryPoints, if_pos hsources]
      cases hc : largest (nx.stronglyConnectedComponents g) with
      | none =>
        rw [hc] at hep
        cases hep
      | some c =>
        rw [hc] at hep
        exact ⟨ep, ⟨hnode, .inr ⟨hnone, c, hc, List.mem_of_mem_take hep⟩⟩, hr⟩
    · rintro ⟨s, ⟨hs, hstart⟩, hr⟩
      obtain ⟨-, c, hc, hsc⟩ := hstart.resolve_left (hnone s hs)
      obtain ⟨z, -, hmem⟩ := (hnx.component c (mem_largest hc)).mutual_reach
      cases c with
      | nil => cases hsc
      | cons first rest =>
        refine ⟨first, by rw [hc]; exact List.mem_cons_self, ?_⟩
        exact (((hmem first).mp List.mem_cons_self).2.2.trans ((hmem s).mp hsc).2.1).trans hr
  · rw [findEntryPoints, if_neg hsources]
    constructor
    · rintro ⟨ep, hep, hr⟩
      exact ⟨ep, ⟨(mem_sources.mp hep).1, .inl (mem_sources.mp hep).2⟩, hr⟩
    · rintro ⟨s, ⟨hs, hsource | ⟨hnone, -⟩⟩, hr⟩
      · exact ⟨s, mem_sources.mpr ⟨hs, hsource⟩, hr⟩
      · obtain ⟨y, hy⟩ := List.exists_mem_of_ne_nil _ hsources
        exact absurd (mem_sources.mp hy).2 (hnone y (mem_sources.mp hy).1)

end

-- ---------------------------------------------------------------------------
-- Dead code
-- ---------------------------------------------------------------------------

theorem mem_descendants_or_eq : (x = y ∨ x ∈ Digraph.descendants g.edges.keys y) ↔ Reaches g.edges.keys y x := by
  rw [Digraph.mem_descendants]
  by_cases h : x = y
  · subst h
    exact iff_of_true (.inl rfl) .refl
  · simp [h]

theorem mem_findDeadNodes : x ∈ Index.findDeadNodes (some g) entryPoints ↔
    x ∈ g.nodes.keys ∧ ¬ ∃ ep ∈ entryPoints, ep ∈ g.nodes.keys ∧ Reaches g.edges.keys ep x := by
  simp only [Index.findDeadNodes, List.mem_filter, decide_eq_true_eq, List.any_eq_true, mem_descendants_or_eq]

theorem mem_reached : x ∈ reached g entryPoints ↔
    x ∈ g.nodes.keys ∧ ∃ ep ∈ entryPoints, ep ∈ g.nodes.keys ∧ Reaches g.edges.keys ep x := by
  simp only [reached, List.mem_dedup, List.mem_flatMap, List.mem_filter, decide_eq_true_eq, List.mem_cons,
    Index.mem_reachableFrom]
  constructor
  · rintro ⟨ep, ⟨hep, hnode⟩, rfl | ⟨-, hr⟩⟩
    · exact ⟨hnode, x, hep, hnode, .refl⟩
    · exact ⟨mem_nodes_of_reached hnode hr, ep, hep, hnode, hr⟩
  · rintro ⟨-, ep, hep, hnode, hr⟩
    refine ⟨ep, ⟨hep, hnode⟩, ?_⟩
    by_cases hx : x = ep
    · exact .inl hx
    · exact .inr ⟨hx, hr⟩

/-- Every node is either reached or dead. -/
theorem length_reached_add_length_findDeadNodes :
    (reached g entryPoints).length + (Index.findDeadNodes (some g) entryPoints).length = g.nodes.keys.length := by
  have hnodes : g.nodes.keys.Nodup := g.nodes.nodup
  have hreached : (reached g entryPoints).Nodup := List.nodup_dedup _
  have hdead : (Index.findDeadNodes (some g) entryPoints).Nodup := hnodes.filter _
  have hdisjoint : (reached g entryPoints).Disjoint (Index.findDeadNodes (some g) entryPoints) := by
    intro x hx hx'
    exact (mem_findDeadNodes.mp hx').2 (mem_reached.mp hx).2
  have hperm : (reached g entryPoints ++ Index.findDeadNodes (some g) entryPoints).Perm g.nodes.keys := by
    refine (List.perm_ext_iff_of_nodup (hreached.append hdead hdisjoint) hnodes).mpr fun x => ?_
    rw [List.mem_append, mem_reached, mem_findDeadNodes, ← and_or_left]
    exact and_iff_left (em _)
  rw [← List.length_append, hperm.length_eq]

theorem le_max_getD {l : List Nat} {n : Nat} (h : n ∈ l) : n ≤ l.max?.getD 0 := by
  cases hmax : l.max? with
  | none => rw [List.max?_eq_none_iff.mp hmax] at h; cases h
  | some m => exact (List.max?_eq_some_iff.mp hmax).2 n h

theorem deadCodeNode_nodeId : (deadCodeNode sg x).nodeId = x := by
  rw [deadCodeNode]
  cases h : sg.findNode x with
  | none => rfl
  | some node =>
    have hfind := List.find?_some h
    exact of_decide_eq_true hfind

theorem map_nodeId_findDeadCode :
    (findDeadCode sg g entryPoints).map DeadCodeNode.nodeId = Index.findDeadNodes (some g) entryPoints := by
  simp [findDeadCode, Function.comp_def, deadCodeNode_nodeId]

-- ---------------------------------------------------------------------------
-- Execution paths
-- ---------------------------------------------------------------------------

/-- A walk with as few edges as any, its number of nodes and its weight. -/
structure IsExecutionPath (g : DiGraph) (ep target : String) (p : ExecutionPath) : Prop where
  fewest : FewestHops g ep target p.path
  walk : Walk (weights EdgeData.weight g) ep target p.path p.totalWeight
  length_eq : p.length = p.path.length

section
variable (hnx : nx.Lawful g)
include hnx

theorem mem_targets : (x, y) ∈ targets nx g entryPoints ↔
    (x ∈ entryPoints ∧ x ∈ g.nodes.keys) ∧ y ≠ x ∧ Reaches g.edges.keys x y := by
  simp only [targets, List.mem_flatMap, List.mem_filter, decide_eq_true_eq, List.mem_map, Prod.mk.injEq]
  constructor
  · rintro ⟨ep, ⟨hep, hnode⟩, target, ht, rfl, rfl⟩
    exact ⟨⟨hep, hnode⟩, Digraph.mem_descendants.mp ((hnx.descendants ep hnode).mem_iff.mp ht)⟩
  · rintro ⟨⟨hep, hnode⟩, hy⟩
    have hmem := (hnx.descendants x hnode).mem_iff.mpr (Digraph.mem_descendants.mpr hy)
    exact ⟨x, ⟨hep, hnode⟩, y, hmem, rfl, rfl⟩

theorem executionPath_spec (hx : x ∈ g.nodes.keys) (hy : y ∈ Digraph.descendants g.edges.keys x) :
    ∃ p, executionPath nx g x y = .ok (some p) ∧ IsExecutionPath g x y p := by
  obtain ⟨path, hpath, hfewest⟩ := hnx.hopPath x hx y hy
  obtain ⟨n, hwalk, -⟩ := id hfewest
  obtain ⟨w, hweight, hw⟩ := pathWeight_of_walk hwalk
  refine ⟨⟨path, path.length, w⟩, ?_, hfewest, hw, rfl⟩
  simp only [executionPath, hpath, hweight]
  rfl

/-- The heaviest of one path for each target. -/
theorem findExecutionPaths_spec (hentry : ∀ ep ∈ entryPoints, ep ∈ g.nodes.keys) :
    ∃ paths, findExecutionPaths nx g entryPoints =
        .ok ((sortDesc ExecutionPath.totalWeight paths).take maxExecutionPaths) ∧
      (∀ p ∈ paths, ∃ ep ∈ entryPoints, ∃ target, target ≠ ep ∧ IsExecutionPath g ep target p) ∧
      ∀ ep ∈ entryPoints, ∀ target, target ≠ ep → Reaches g.edges.keys ep target →
        ∃ p ∈ paths, IsExecutionPath g ep target p := by
  have hspec : ∀ t ∈ targets nx g entryPoints,
      ∃ p, executionPath nx g t.1 t.2 = .ok (some p) ∧ IsExecutionPath g t.1 t.2 p := by
    rintro ⟨ep, target⟩ ht
    obtain ⟨⟨-, hnode⟩, hr⟩ := (mem_targets hnx).mp ht
    exact executionPath_spec hnx hnode (Digraph.mem_descendants.mpr hr)
  obtain ⟨found, hfound⟩ : ∃ found,
      ((targets nx g entryPoints).mapM fun t => executionPath nx g t.1 t.2) = .ok found :=
    mapM_isOk_iff.mpr fun t ht => (hspec t ht).elim fun p hp => ⟨some p, hp.1⟩
  refine ⟨found.filterMap id, ?_, ?_, ?_⟩
  · rw [findExecutionPaths, hfound]
    rfl
  · intro p hp
    obtain ⟨o, ho, hop⟩ := List.mem_filterMap.mp hp
    obtain ⟨⟨ep, target⟩, ht, hpath⟩ := (mem_mapM_ok_iff hfound).mp ho
    obtain ⟨p', hp', hspec'⟩ := hspec _ ht
    obtain rfl : o = some p' := Except.ok.inj (hpath.symm.trans hp')
    obtain ⟨⟨hep, -⟩, hne, -⟩ := (mem_targets hnx).mp ht
    obtain rfl : p' = p := Option.some.inj hop
    exact ⟨ep, hep, target, hne, hspec'⟩
  · intro ep hep target hne hr
    have ht := (mem_targets hnx).mpr ⟨⟨hep, hentry ep hep⟩, hne, hr⟩
    obtain ⟨p, hp, hspec'⟩ := hspec _ ht
    obtain ⟨o, ho, heq⟩ := exists_of_mapM_ok hfound ht
    cases hp.symm.trans heq
    exact ⟨p, List.mem_filterMap.mpr ⟨some p, ho, rfl⟩, hspec'⟩

end

-- ---------------------------------------------------------------------------
-- The report
-- ---------------------------------------------------------------------------

variable {index : Index.GraphIndex}

theorem flow_unreachable_iff (hnx : nx.Lawful g) (hg : index.graphs.get? .call = some g) :
    ∃ report, analyzeFlow nx sg index = .ok report ∧
      report.totalReachable + report.totalUnreachable = g.nodes.keys.length ∧
      report.deadCode.map DeadCodeNode.nodeId = report.unreachableFromAnyEntry ∧
      (∀ x, x ∈ report.unreachableFromAnyEntry ↔
        x ∈ g.nodes.keys ∧ ∀ s, IsStart nx g s → ¬ Reaches g.edges.keys s x) ∧
      (∀ x ∈ report.unreachableFromAnyEntry, ∃ y ∈ report.unreachableFromAnyEntry,
        OnCycle g.edges.keys y ∧ Reaches g.edges.keys y x) ∧
      (report.graphIsDag = true → report.unreachableFromAnyEntry = []) := by
  obtain ⟨paths, hpaths, -, -⟩ := findExecutionPaths_spec hnx fun _ => mem_nodes_of_mem_entryPoints hnx
  have hdead : ∀ x, x ∈ Index.findDeadNodes (some g) (findEntryPoints nx g) ↔
      x ∈ g.nodes.keys ∧ ∀ s, IsStart nx g s → ¬ Reaches g.edges.keys s x := by
    intro x
    have hstart := exists_entryPoint_iff hnx (x := x)
    rw [mem_findDeadNodes]
    refine and_congr_right fun _ => ?_
    constructor
    · intro hnone s hs hr
      obtain ⟨ep, hep, hr'⟩ := hstart.mpr ⟨s, hs, hr⟩
      exact hnone ⟨ep, hep, mem_nodes_of_mem_entryPoints hnx hep, hr'⟩
    · rintro hnone ⟨ep, hep, -, hr⟩
      obtain ⟨s, hs, hr'⟩ := hstart.mp ⟨ep, hep, hr⟩
      exact hnone s hs hr'
  -- what an unreachable node comes from is no source, for a source is a start
  have horigin : ∀ x ∈ Index.findDeadNodes (some g) (findEntryPoints nx g),
      ∃ y ∈ Index.findDeadNodes (some g) (findEntryPoints nx g),
        OnCycle g.edges.keys y ∧ Reaches g.edges.keys y x := by
    intro x hx
    obtain ⟨hnode, hnone⟩ := (hdead x).mp hx
    obtain ⟨y, hyx, hsource | hcycle⟩ := Digraph.exists_origin g.edges.keys x
    · exact absurd hyx (hnone y ⟨mem_nodes_of_reaches hnode hyx, .inl hsource⟩)
    · refine ⟨y, (hdead y).mpr ⟨mem_nodes_of_reaches hnode hyx, fun s hs hr => ?_⟩, hcycle, hyx⟩
      exact hnone s hs (hr.trans hyx)
  simp only [analyzeFlow, hg, hpaths, bind_ok_eq]
  refine ⟨_, rfl, length_reached_add_length_findDeadNodes, map_nodeId_findDeadCode, hdead, horigin, fun hdag => ?_⟩
  refine List.eq_nil_iff_forall_not_mem.mpr fun x hx => ?_
  obtain ⟨y, -, hcycle, -⟩ := horigin x hx
  exact (hnx.isDag.mp hdag).not_onCycle hcycle

theorem flow_unreachable_pingPong :
    ∃ report, analyzeFlow pingPongNetworkx (single pingPong)
        (.ofGraph (single pingPong)) = .ok report ∧ report.unreachableFromAnyEntry ≠ [] := by
  obtain ⟨report, h, -, -, hmem, -, -⟩ := flow_unreachable_iff lawful_pingPong graph_pingPong
  refine ⟨report, h, List.ne_nil_of_mem ((hmem "ping").mpr ⟨by decide +kernel, ?_⟩)⟩
  have hnone : ∀ s ∈ (ofLayer pingPong).nodes.keys, Digraph.Reaches (ofLayer pingPong).edges.keys s "ping" →
      (∃ z ∈ (ofLayer pingPong).nodes.keys, (z, s) ∈ (ofLayer pingPong).edges.keys) := by decide +kernel
  rintro s ⟨hs, hsource | ⟨hsource, -⟩⟩ hr
  · obtain ⟨z, -, hz⟩ := hnone s hs hr
    exact hsource z hz
  · refine hsource "main" (by decide +kernel) fun z hz => ?_
    have hmain : ∀ k ∈ (ofLayer pingPong).edges.keys, k.2 ≠ "main" := by decide +kernel
    exact hmain _ hz rfl

theorem execution_paths_heaviest (hnx : nx.Lawful g) (hg : index.graphs.get? .call = some g) :
    ∃ report, analyzeFlow nx sg index = .ok report ∧
      report.executionPaths.Pairwise (fun p q => q.totalWeight ≤ p.totalWeight) ∧
      (∀ p ∈ report.executionPaths,
        ∃ ep ∈ report.entryPoints, ∃ target, target ≠ ep ∧ IsExecutionPath g ep target p) ∧
      (∀ ep ∈ report.entryPoints, ∀ target, target ≠ ep → Reaches g.edges.keys ep target →
        ∃ p, IsExecutionPath g ep target p ∧ (p ∈ report.executionPaths ∨
          report.executionPaths.length = 100 ∧ ∀ q ∈ report.executionPaths, p.totalWeight ≤ q.totalWeight)) ∧
      (∀ p ∈ report.executionPaths, p.length ≤ report.longestPathLength) := by
  obtain ⟨paths, hpaths, hsound, hcomplete⟩ :=
    findExecutionPaths_spec hnx fun _ => mem_nodes_of_mem_entryPoints hnx
  simp only [analyzeFlow, hg, hpaths, bind_ok_eq]
  refine ⟨_, rfl, pairwise_sortDesc.sublist (List.take_sublist _ _), ?_, ?_, ?_⟩
  · exact fun p hp => hsound p (mem_sortDesc.mp (List.mem_of_mem_take hp))
  · intro ep hep target hne hr
    obtain ⟨p, hp, hpath⟩ := hcomplete ep hep target hne hr
    refine ⟨p, hpath, ?_⟩
    have hsplit := List.take_append_drop maxExecutionPaths (sortDesc ExecutionPath.totalWeight paths)
    have hmem : p ∈ sortDesc ExecutionPath.totalWeight paths := mem_sortDesc.mpr hp
    rw [← hsplit, List.mem_append] at hmem
    refine hmem.imp_right fun hdrop => ⟨?_, fun q hq => le_of_mem_take_of_mem_drop hq hdrop⟩
    have hlong := List.length_pos_of_mem hdrop
    rw [List.length_drop] at hlong
    exact List.length_take_of_le (by omega)
  · intro p hp
    obtain ⟨ep, -, target, -, hpath⟩ := hsound p (mem_sortDesc.mp (List.mem_of_mem_take hp))
    rw [hpath.length_eq]
    exact le_max_getD (List.mem_map_of_mem (f := fun p : ExecutionPath => p.path.length) hp)

theorem execution_paths_pingPong :
    ∃ report, analyzeFlow pingPongNetworkx (single pingPong) (.ofGraph (single pingPong)) = .ok report ∧
      ∃ p ∈ report.executionPaths, IsExecutionPath (ofLayer pingPong) "main" "run" p := by
  obtain ⟨report, h, -, -, hall, -⟩ : ∃ report,
      analyzeFlow pingPongNetworkx (single pingPong) (.ofGraph (single pingPong)) = .ok report ∧ _ :=
    execution_paths_heaviest lawful_pingPong graph_pingPong
  cases h
  obtain ⟨p, hp, hmem | ⟨hlength, -⟩⟩ :=
    hall "main" (by decide +kernel) "run" (by decide +kernel) (by decide +kernel)
  · exact ⟨_, rfl, p, hmem, hp⟩
  · exact absurd hlength (by decide +kernel)

end

end Intelliqx.Graph.Agents
