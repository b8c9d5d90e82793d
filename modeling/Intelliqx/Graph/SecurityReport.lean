import Intelliqx.Base.Tally
import Intelliqx.Graph.Agents
import Intelliqx.Graph.Duplicates
import Intelliqx.Graph.SecurityAgent
import Intelliqx.Py.Regex
import Intelliqx.Py.Text
import Mathlib.Tactic.Ring

/-!
# The security report

`SecurityAgent` follows data from sensitive sources and looks for nodes and
edges at risk by the names they have. A sensitive flow takes the shortest way
from a source that nothing flows into (`sensitive_flows_traced`). A
postcondition that names a sanitizer does away with the vulnerabilities of its
node, up to the exposure of sensitive data, and with nothing else
(`sanitizing_deletes_vulnerabilities`).
-/

namespace Intelliqx.Graph

def SecurityBoundary.value : SecurityBoundary → String
  | .none => "none"
  | .authenticated => "authenticated"
  | .authorized => "authorized"
  | .admin => "admin"
  | .internal => "internal"
  | .external => "external"
  | .sandboxed => "sandboxed"

namespace SecurityAgent

open Intelliqx.Graph.Agents (AgentError FewestHops mem_sortDesc sortDesc)
open Intelliqx.Digraph (IsSource Reaches)
open Index (DiGraph EdgeData nodeData ofLayer)
open Py (within)

/-- `str.lower`, `\w`, and how a character is compared where case is ignored. -/
structure Letters where
  lower : String → String
  isWord : Char → Bool
  fold : Char → Char

def maxSensitiveFlows : Nat := 50
def boundaryCrossingWeight : ℚ := 2

inductive VulnerabilityType
  | unsanitizedInput
  | sqlInjection
  | trustBoundaryCrossing
  | unvalidatedDependency
  | sensitiveDataExposure
  | insufficientAuth
  deriving DecidableEq

structure SensitiveDataFlow where
  sourceNode : String
  targetNode : String
  path : List String
  sourceBoundary : String
  targetBoundary : String
  crossesBoundary : Bool
  edgeTypes : List String := []
  deriving DecidableEq, Inhabited

structure TrustBoundaryCrossing where
  sourceId : String
  targetId : String
  sourceBoundary : String
  targetBoundary : String
  edgeType : String
  riskLevel : String
  description : String
  deriving DecidableEq

structure Vulnerability where
  vulnerabilityType : VulnerabilityType
  nodeId : String
  nodeName : String
  severity : String
  description : String
  affectedDataFlow : List String := []
  recommendation : String
  deriving DecidableEq

structure SecurityReport where
  sensitiveDataFlows : List SensitiveDataFlow := []
  trustBoundaryCrossings : List TrustBoundaryCrossing := []
  vulnerabilities : List Vulnerability := []
  nodesByBoundary : Dict String Nat := .empty
  totalNodesAnalyzed : Nat := 0
  boundaryCrossingCount : Nat := 0
  riskScore : ℚ := 0

def sqlPatterns : List String := ["query", "execute", "select", "insert", "update", "delete", "sql", "cursor"]
def sanitizePatterns : List String := ["sanitize", "escape", "validate", "clean", "encode", "parameterize"]
def sensitiveKeywords : List String :=
  ["password", "token", "secret", "key", "credential", "ssn", "email", "auth"]
def inputKeywords : List String := ["receive", "parse", "read", "input", "request", "param"]
def unsafeOutputKeywords : List String := ["html", "response", "exec", "query", "system"]
def riskScores : Dict String ℚ := .ofList [("high", 3), ("medium", 2), ("low", 1)]
def severityValues : Dict String ℚ := .ofList [("high", 10), ("medium", 5), ("low", 1)]

def Vulnerability.score (v : Vulnerability) : ℚ := (severityValues.get? v.severity).getD 0

def TrustBoundaryCrossing.score (c : TrustBoundaryCrossing) : ℚ := (riskScores.get? c.riskLevel).getD 0

def boundaryOf (boundaryMap : Dict String SecurityBoundary) (id : String) : SecurityBoundary :=
  (boundaryMap.get? id).getD .none

def countByBoundary (boundaryMap : Dict String SecurityBoundary) : Dict String Nat :=
  tally SecurityBoundary.value boundaryMap.values

-- ---------------------------------------------------------------------------
-- Names
-- ---------------------------------------------------------------------------

section
variable (p : Letters)

/-- `\b(?:password|secret|token|key)\b` of `re.IGNORECASE` -/
def sensitiveNameRe : Py.Regex :=
  let word (w : String) := Py.Regex.litBy p.fold w.toList
  .seq (.boundary p.isWord)
    (.seq (.alt (word "password") (.alt (word "secret") (.alt (word "token") (word "key")))) (.boundary p.isWord))

def nameMatchesSensitive (name : String) : Bool := !((sensitiveNameRe p).finditer name.toList).1.isEmpty

def namesOneOf (patterns : List String) (text : String) : Bool :=
  patterns.any fun pattern => within pattern (p.lower text)

def hasSanitization (node : SGIRNode) : Bool :=
  namesOneOf p sanitizePatterns node.name || node.postconditions.any (namesOneOf p sanitizePatterns)

def isSqlInjectionRisk (node : SGIRNode) : Bool :=
  namesOneOf p sqlPatterns node.name && node.inputs.any (namesOneOf p ["string", "raw", "text", "input"]) &&
    !hasSanitization p node

def isUnsanitizedInput (node : SGIRNode) : Bool :=
  namesOneOf p inputKeywords node.name && node.outputs.any (namesOneOf p unsafeOutputKeywords) &&
    !hasSanitization p node

def isSensitive (node : SGIRNode) : Bool :=
  namesOneOf p sensitiveKeywords node.name ||
    decide (node.securityBoundary ∈ [SecurityBoundary.authenticated, .authorized, .admin])

-- ---------------------------------------------------------------------------
-- Vulnerabilities
-- ---------------------------------------------------------------------------

def sqlInjection (nodeId : String) (node : SGIRNode) : Vulnerability where
  vulnerabilityType := .sqlInjection
  nodeId := nodeId
  nodeName := node.name
  severity := "high"
  description := s!"Node '{node.name}' may execute SQL with unsanitized input"
  affectedDataFlow := [nodeId]
  recommendation := "Use parameterized queries and input validation"

def unsanitizedInput (nodeId : String) (node : SGIRNode) : Vulnerability where
  vulnerabilityType := .unsanitizedInput
  nodeId := nodeId
  nodeName := node.name
  severity := "medium"
  description := s!"Node '{node.name}' accepts input that may not be sanitized"
  affectedDataFlow := [nodeId]
  recommendation := "Validate and sanitize all external inputs"

def sensitiveDataExposure (nodeId : String) (node : SGIRNode) : Vulnerability where
  vulnerabilityType := .sensitiveDataExposure
  nodeId := nodeId
  nodeName := node.name
  severity := "high"
  description := s!"Node '{node.name}' handles sensitive data without a security boundary"
  affectedDataFlow := [nodeId]
  recommendation := "Apply appropriate security boundaries to sensitive data handlers"

def trustBoundaryCrossing (source target : String) (node : SGIRNode) (targetBoundary : SecurityBoundary) :
    Vulnerability where
  vulnerabilityType := .trustBoundaryCrossing
  nodeId := source
  nodeName := node.name
  severity := "medium"
  description := s!"Untrusted node '{node.name}' feeds into {targetBoundary.value} boundary"
  affectedDataFlow := [source, target]
  recommendation := "Validate and sanitize data crossing trust boundaries"

/-- What is found at one node. -/
def scanNode (sg : SoftwareGraph) (boundaryMap : Dict String SecurityBoundary) (nodeId : String) :
    List Vulnerability :=
  match sg.findNode nodeId with
  | none => []
  | some node =>
    (if isSqlInjectionRisk p node then [sqlInjection nodeId node] else []) ++
      (if isUnsanitizedInput p node then [unsanitizedInput nodeId node] else []) ++
      (if boundaryOf boundaryMap nodeId = .none ∧ nameMatchesSensitive p node.name then
        [sensitiveDataExposure nodeId node] else [])

def scanPerNode (sg : SoftwareGraph) (callGraph : Option DiGraph) (boundaryMap : Dict String SecurityBoundary) :
    List Vulnerability :=
  match callGraph with
  | none => []
  | some g => g.nodes.keys.flatMap (scanNode p sg boundaryMap)

/-- What is found at one edge. -/
def scanEdge (sg : SoftwareGraph) (boundaryMap : Dict String SecurityBoundary) (edge : String × String) :
    Option Vulnerability :=
  let tgtBoundary := boundaryOf boundaryMap edge.2
  if boundaryOf boundaryMap edge.1 = .none ∧ tgtBoundary ≠ .none ∧ tgtBoundary ≠ .external then
    match sg.findNode edge.1 with
    | none => none
    | some node =>
      if hasSanitization p node then none else some (trustBoundaryCrossing edge.1 edge.2 node tgtBoundary)
  else none

def scanPerEdge (sg : SoftwareGraph) (dataFlow : Option DiGraph) (boundaryMap : Dict String SecurityBoundary) :
    List Vulnerability :=
  match dataFlow with
  | none => []
  | some g => (g.edgeList.map Prod.fst).filterMap (scanEdge p sg boundaryMap)

def detectVulnerabilities (sg : SoftwareGraph) (callGraph dataFlow : Option DiGraph)
    (boundaryMap : Dict String SecurityBoundary) : List Vulnerability :=
  sortDesc Vulnerability.score (scanPerNode p sg callGraph boundaryMap ++ scanPerEdge p sg dataFlow boundaryMap)

-- ---------------------------------------------------------------------------
-- Sensitive flows
-- ---------------------------------------------------------------------------

/-- The types of the edges on a path, each where it comes first. -/
def pathEdgeTypes (g : DiGraph) (edgeTypes : List String) : List String → Except AgentError (List String)
  | u :: v :: rest =>
    match g.edges.get? (u, v) with
    | none => .error (.keyError (u, v))
    | some d =>
      pathEdgeTypes g (if d.edgeType.value ∈ edgeTypes then edgeTypes else edgeTypes ++ [d.edgeType.value])
        (v :: rest)
  | _ => .ok edgeTypes

def sensitiveFlow (nx : Agents.Networkx) (g : DiGraph) (boundaryMap : Dict String SecurityBoundary)
    (source target : String) :
    Except AgentError (Option SensitiveDataFlow) :=
  match nx.hopPath g source target with
  | .ok path =>
    let sourceBoundary := (boundaryOf boundaryMap source).value
    let targetBoundary := (boundaryOf boundaryMap target).value
    (pathEdgeTypes g [] path).map fun edgeTypes =>
      some
        { sourceNode := source
          targetNode := target
          path := path
          sourceBoundary := sourceBoundary
          targetBoundary := targetBoundary
          crossesBoundary := decide (sourceBoundary ≠ targetBoundary ∧ sourceBoundary ≠ "none")
          edgeTypes := edgeTypes }
  | .error .networkXNoPath | .error .nodeNotFound => .ok none
  | .error e => .error (.networkx e)

def sensitiveSources (sg : SoftwareGraph) (g : DiGraph) : List String :=
  g.nodes.keys.filter fun n => g.inDegree n = 0 ∧ (sg.findNode n).any (isSensitive p)

def sensitivePairs (nx : Agents.Networkx) (sg : SoftwareGraph) (g : DiGraph) : List (String × String) :=
  (sensitiveSources p sg g).flatMap fun source => (nx.descendants g source).map fun target => (source, target)

def traceSensitiveDataFlows (nx : Agents.Networkx) (sg : SoftwareGraph) (dataFlow : Option DiGraph)
    (boundaryMap : Dict String SecurityBoundary) : Except AgentError (List SensitiveDataFlow) :=
  match dataFlow with
  | none => .ok []
  | some g => do
    let flows ← (sensitivePairs p nx sg g).mapM fun pair => sensitiveFlow nx g boundaryMap pair.1 pair.2
    .ok ((flows.filterMap id).take maxSensitiveFlows)

end

-- ---------------------------------------------------------------------------
-- Crossings and the report
-- ---------------------------------------------------------------------------

def crossingRisk (source target : SecurityBoundary) : String :=
  if (source = .none ∨ source = .external) ∧
      target ∈ [SecurityBoundary.authenticated, .authorized, .admin] then "high"
  else if source = .admin ∧ target ≠ .admin then "high"
  else if source = .internal ∧ target = .external then "medium"
  else "low"

def boundaryCrossing (boundaryMap : Dict String SecurityBoundary) (e : (String × String) × EdgeData) :
    Option TrustBoundaryCrossing :=
  let srcBoundary := boundaryOf boundaryMap e.1.1
  let tgtBoundary := boundaryOf boundaryMap e.1.2
  if srcBoundary = tgtBoundary then none
  else if srcBoundary = .none ∧ tgtBoundary = .none then none
  else some
    { sourceId := e.1.1
      targetId := e.1.2
      sourceBoundary := srcBoundary.value
      targetBoundary := tgtBoundary.value
      edgeType := e.2.edgeType.value
      riskLevel := crossingRisk srcBoundary tgtBoundary
      description := s!"Data flows from {srcBoundary.value} to {tgtBoundary.value} boundary" }

def detectTrustBoundaryCrossings (securityGraph : Option DiGraph) (boundaryMap : Dict String SecurityBoundary) :
    List TrustBoundaryCrossing :=
  match securityGraph with
  | none => []
  | some g => sortDesc TrustBoundaryCrossing.score (g.edgeList.filterMap (boundaryCrossing boundaryMap))

def computeRiskScore (vulns : List Vulnerability) (crossingCount : Nat) : ℚ :=
  (vulns.map Vulnerability.score).sum + crossingCount * boundaryCrossingWeight

/-- A graph without nodes is false. -/
def truthyGraph (g : Option DiGraph) : Option DiGraph := g.filter fun g => g.nodes.keys ≠ []

/-- The layer whose flows are traced: `data_flow_graph or security_graph` -/
def flowGraph (index : Index.GraphIndex) : Option DiGraph :=
  (truthyGraph (index.graphs.get? .dataFlow)).or (index.graphs.get? .security)

def analyze (p : Letters) (nx : Agents.Networkx) (sg : SoftwareGraph) (index : Index.GraphIndex) :
    Except AgentError SecurityReport :=
  let securityGraph := index.graphs.get? .security
  let dataFlowGraph := index.graphs.get? .dataFlow
  if securityGraph = none ∧ dataFlowGraph = none then .ok {}
  else do
    let boundaryMap := buildBoundaryMap sg
    let sensitiveFlows ← traceSensitiveDataFlows p nx sg (flowGraph index) boundaryMap
    let crossings := detectTrustBoundaryCrossings securityGraph boundaryMap
    let vulns := detectVulnerabilities p sg (index.graphs.get? .call) dataFlowGraph boundaryMap
    .ok
      { sensitiveDataFlows := sensitiveFlows
        trustBoundaryCrossings := crossings
        vulnerabilities := vulns
        nodesByBoundary := countByBoundary boundaryMap
        totalNodesAnalyzed :=
          (((truthyGraph securityGraph).or (truthyGraph dataFlowGraph)).map fun g => g.nodes.keys.length).getD 0
        boundaryCrossingCount := crossings.length
        riskScore := computeRiskScore vulns crossings.length }

-- ---------------------------------------------------------------------------
-- Another postcondition
-- ---------------------------------------------------------------------------

/-- The nodes of these ids guarantee something more. -/
def assure (ids : List String) (post : String) (node : SGIRNode) : SGIRNode :=
  if node.id ∈ ids then { node with postconditions := node.postconditions ++ [post] } else node

def assureAll (ids : List String) (post : String) (sg : SoftwareGraph) : SoftwareGraph :=
  sg.mapLayers (fun l => { l with nodes := l.nodes.map (assure ids post) }) fun _ => rfl

/-- What sanitizing the nodes of these ids does away with. -/
def SolvedBy (ids : List String) (v : Vulnerability) : Prop :=
  v.nodeId ∈ ids ∧ v.vulnerabilityType ≠ .sensitiveDataExposure

instance : DecidablePred (SolvedBy ids) := fun _ => inferInstanceAs (Decidable (_ ∧ _))

section
variable {p : Letters} {sg : SoftwareGraph} {ids : List String} {post id : String} {node : SGIRNode}
  {boundaryMap : Dict String SecurityBoundary} {l : SGIRGraph} {v : Vulnerability}

/-- A node keeps everything but its postconditions. -/
theorem assure_eq (ids : List String) (post : String) (node : SGIRNode) :
    ∃ posts, assure ids post node = { node with postconditions := posts } := by
  rw [assure]
  split
  · exact ⟨_, rfl⟩
  · exact ⟨node.postconditions, rfl⟩

@[simp] theorem id_assure : (assure ids post node).id = node.id := by
  obtain ⟨posts, h⟩ := assure_eq ids post node
  rw [h]

@[simp] theorem name_assure : (assure ids post node).name = node.name := by
  obtain ⟨posts, h⟩ := assure_eq ids post node
  rw [h]

theorem id_of_findNode (h : sg.findNode id = some node) : node.id = id := by
  have hid := List.find?_some h
  exact of_decide_eq_true hid

theorem allNodes_assureAll : (assureAll ids post sg).allNodes = sg.allNodes.map (assure ids post) := by
  simp only [assureAll, SoftwareGraph.mapLayers, SoftwareGraph.allNodes, List.flatMap_map, List.map_flatMap]

theorem findNode_assureAll : (assureAll ids post sg).findNode id = (sg.findNode id).map (assure ids post) := by
  rw [SoftwareGraph.findNode, allNodes_assureAll, List.find?_map]
  simp only [Function.comp_def, id_assure]
  rfl

theorem buildBoundaryMap_assureAll : buildBoundaryMap (assureAll ids post sg) = buildBoundaryMap sg := by
  have hnote : (fun d node => noteBoundary d (assure ids post node)) = noteBoundary := by
    funext d node
    obtain ⟨posts, h⟩ := assure_eq ids post node
    rw [h]
    rfl
  simp only [buildBoundaryMap, assureAll, SoftwareGraph.mapLayers, List.foldl_map, hnote]

/-- The digraphs have no postconditions. -/
theorem graphs_assureAll : (Index.GraphIndex.ofGraph (assureAll ids post sg)).graphs =
    (Index.GraphIndex.ofGraph sg).graphs := by
  have hnode : ∀ node, ((assure ids post node).id, some (nodeData (assure ids post node))) =
      (node.id, some (nodeData node)) := by
    intro node
    obtain ⟨posts, h⟩ := assure_eq ids post node
    rw [h]
    rfl
  refine Dict.ext ?_
  show (Index.rebuilt (assureAll ids post sg) .empty).entries = (Index.rebuilt sg .empty).entries
  rw [Index.entries_rebuilt_empty, Index.entries_rebuilt_empty]
  simp only [assureAll, SoftwareGraph.mapLayers, List.map_map]
  refine List.map_congr_left fun l _ => ?_
  simp only [Function.comp_def, ofLayer, List.map_map, hnode]

/-- A name or a sensitivity does not depend on the postconditions. -/
theorem isSensitive_assure : isSensitive p (assure ids post node) = isSensitive p node := by
  obtain ⟨posts, h⟩ := assure_eq ids post node
  rw [h]
  rfl

theorem sensitivePairs_assureAll {nx : Agents.Networkx} {g : DiGraph} :
    sensitivePairs p nx (assureAll ids post sg) g = sensitivePairs p nx sg g := by
  have hany (n : String) : ((assureAll ids post sg).findNode n).any (isSensitive p) =
      (sg.findNode n).any (isSensitive p) := by
    rw [findNode_assureAll]
    cases sg.findNode n with
    | none => rfl
    | some node => exact isSensitive_assure
  simp only [sensitivePairs, sensitiveSources, hany]

section
variable (hpost : namesOneOf p sanitizePatterns post = true)
include hpost

theorem hasSanitization_assure :
    hasSanitization p (assure ids post node) = (decide (node.id ∈ ids) || hasSanitization p node) := by
  rw [assure]
  split
  · rename_i hid
    simp [hasSanitization, hid, hpost]
  · rename_i hid
    simp [hid]

theorem isSqlInjectionRisk_assure :
    isSqlInjectionRisk p (assure ids post node) = (!decide (node.id ∈ ids) && isSqlInjectionRisk p node) := by
  obtain ⟨posts, h⟩ := assure_eq ids post node
  simp only [isSqlInjectionRisk, hasSanitization_assure hpost]
  rw [h, Bool.not_or, Bool.and_left_comm]

theorem isUnsanitizedInput_assure :
    isUnsanitizedInput p (assure ids post node) = (!decide (node.id ∈ ids) && isUnsanitizedInput p node) := by
  obtain ⟨posts, h⟩ := assure_eq ids post node
  simp only [isUnsanitizedInput, hasSanitization_assure hpost]
  rw [h, Bool.not_or, Bool.and_left_comm]

theorem scanNode_assureAll : scanNode p (assureAll ids post sg) boundaryMap id =
    (scanNode p sg boundaryMap id).filter fun v => ¬ SolvedBy ids v := by
  rw [scanNode, scanNode, findNode_assureAll]
  cases hfind : sg.findNode id with
  | none => rfl
  | some node =>
    simp only [Option.map_some, isSqlInjectionRisk_assure hpost, isUnsanitizedInput_assure hpost, sqlInjection,
      unsanitizedInput, sensitiveDataExposure, name_assure, id_of_findNode hfind, List.filter_append,
      apply_ite (List.filter _), List.filter_nil]
    by_cases hid : id ∈ ids <;> simp [hid, SolvedBy]

theorem scanEdge_assureAll {edge : String × String} : scanEdge p (assureAll ids post sg) boundaryMap edge =
    (scanEdge p sg boundaryMap edge).filter fun v => ¬ SolvedBy ids v := by
  simp only [scanEdge, findNode_assureAll]
  split
  · cases hfind : sg.findNode edge.1 with
    | none => rfl
    | some node =>
      simp only [Option.map_some, hasSanitization_assure hpost, trustBoundaryCrossing, name_assure,
        id_of_findNode hfind]
      by_cases hid : edge.1 ∈ ids <;> by_cases hsan : hasSanitization p node <;>
        simp [hid, hsan, SolvedBy, Option.filter]
  · rfl

theorem detectVulnerabilities_assureAll {callGraph dataFlow : Option DiGraph} :
    detectVulnerabilities p (assureAll ids post sg) callGraph dataFlow boundaryMap =
      (detectVulnerabilities p sg callGraph dataFlow boundaryMap).filter fun v => ¬ SolvedBy ids v := by
  have hnodes : scanPerNode p (assureAll ids post sg) callGraph boundaryMap =
      (scanPerNode p sg callGraph boundaryMap).filter fun v => ¬ SolvedBy ids v := by
    cases callGraph with
    | none => rfl
    | some g =>
      simp only [scanPerNode, List.filter_flatMap]
      exact List.flatMap_congr fun id _ => scanNode_assureAll hpost
  have hedges : scanPerEdge p (assureAll ids post sg) dataFlow boundaryMap =
      (scanPerEdge p sg dataFlow boundaryMap).filter fun v => ¬ SolvedBy ids v := by
    cases dataFlow with
    | none => rfl
    | some g =>
      simp only [scanPerEdge, List.filter_filterMap]
      exact List.filterMap_congr fun edge _ => scanEdge_assureAll hpost
  rw [detectVulnerabilities, hnodes, hedges, ← List.filter_append]
  exact sortBy_filter _

end

/-- A sum splits at a filter. -/
theorem sum_score_filter (vs : List Vulnerability) (q : Vulnerability → Prop) [DecidablePred q] :
    ((vs.filter fun v => ¬ q v).map Vulnerability.score).sum =
      (vs.map Vulnerability.score).sum - ((vs.filter fun v => q v).map Vulnerability.score).sum := by
  induction vs with
  | nil => simp
  | cons v vs ih =>
    by_cases hq : q v
    · simp only [List.filter_cons, hq, not_true_eq_false, decide_false, decide_true, if_true,
        Bool.false_eq_true, if_false, List.map_cons, List.sum_cons, ih]
      ring
    · simp only [List.filter_cons, hq, not_false_eq_true, decide_false, decide_true, if_true,
        Bool.false_eq_true, if_false, List.map_cons, List.sum_cons, ih]
      ring

/-- Without the vulnerabilities that sanitizing the nodes of these ids does away with. -/
def SecurityReport.solve (ids : List String) (report : SecurityReport) : SecurityReport :=
  { report with
    vulnerabilities := report.vulnerabilities.filter fun v => ¬ SolvedBy ids v
    riskScore := report.riskScore -
      ((report.vulnerabilities.filter fun v => SolvedBy ids v).map Vulnerability.score).sum }

/-- A postcondition that names a sanitizer solves what it is for at its nodes, and changes nothing else. -/
theorem sanitizing_deletes_vulnerabilities (p : Letters) (nx : Agents.Networkx) (sg : SoftwareGraph)
    (ids : List String) (post : String) (hpost : namesOneOf p sanitizePatterns post = true) :
    analyze p nx (assureAll ids post sg) (.ofGraph (assureAll ids post sg)) =
      (analyze p nx sg (.ofGraph sg)).map (SecurityReport.solve ids) := by
  have hflows : ∀ g boundaryMap, traceSensitiveDataFlows p nx (assureAll ids post sg) g boundaryMap =
      traceSensitiveDataFlows p nx sg g boundaryMap := by
    intro g boundaryMap
    simp only [traceSensitiveDataFlows, sensitivePairs_assureAll]
  simp only [analyze, flowGraph, graphs_assureAll, buildBoundaryMap_assureAll, hflows,
    detectVulnerabilities_assureAll hpost]
  split
  · simp [Except.map, SecurityReport.solve]
  · cases traceSensitiveDataFlows p nx sg
      ((truthyGraph ((Index.GraphIndex.ofGraph sg).graphs.get? .dataFlow)).or
        ((Index.GraphIndex.ofGraph sg).graphs.get? .security)) (buildBoundaryMap sg) with
    | error e => rfl
    | ok flows =>
      simp only [bind_ok_eq, Except.map, SecurityReport.solve, computeRiskScore, sum_score_filter]
      congr 2
      ring

/-- ASCII as Python reads it. -/
def asciiLetters : Letters where
  lower s := .ofList (s.toList.map Char.toLower)
  isWord c := c.isAlphanum || c == '_'
  fold := Char.toLower

/-- `run_query` takes raw text, and data flows from it into `session`. -/
def queried : SoftwareGraph where
  repositoryName := "repo"
  layers :=
    [{ layer := .call,
       nodes := [{ id := "run", name := "run_query", inputs := ["raw: str"] }, { id := "key", name := "key" }] },
      { layer := .dataFlow
        nodes := [{ id := "session", name := "session", securityBoundary := .admin }]
        edges := [{ source := "run", target := "session", edgeType := .data }] }]
  keyed := by decide

theorem sanitizing_deletes_queried : ∃ report,
    analyze asciiLetters Agents.pingPongNetworkx (assureAll ["run", "key"] "input is Validated" queried)
        (.ofGraph (assureAll ["run", "key"] "input is Validated" queried)) =
      .ok (SecurityReport.solve ["run", "key"] report) ∧
      report.vulnerabilities.map Vulnerability.nodeId = ["run", "key", "run"] ∧ report.riskScore = 25 ∧
      (SecurityReport.solve ["run", "key"] report).vulnerabilities.map Vulnerability.nodeId = ["key"] ∧
      (SecurityReport.solve ["run", "key"] report).riskScore = 10 := by
  have h := sanitizing_deletes_vulnerabilities asciiLetters Agents.pingPongNetworkx queried ["run", "key"]
    "input is Validated" (by decide +kernel)
  obtain ⟨report, hreport⟩ : ∃ report, analyze asciiLetters Agents.pingPongNetworkx queried (.ofGraph queried) =
    .ok report := ⟨_, rfl⟩
  rw [hreport] at h
  cases hreport
  exact ⟨_, h, by decide +kernel, by decide +kernel, by decide +kernel, by decide +kernel⟩

end

-- ---------------------------------------------------------------------------
-- What is traced
-- ---------------------------------------------------------------------------

/-- A sensitive node that nothing flows into. -/
def IsSensitiveSource (p : Letters) (sg : SoftwareGraph) (g : DiGraph) (x : String) : Prop :=
  x ∈ g.nodes.keys ∧ IsSource g.edges.keys x ∧ ∃ node, sg.findNode x = some node ∧ isSensitive p node = true

/-- The boundary of the first node that declares the id. -/
def declaredBoundary (sg : SoftwareGraph) (id : String) : SecurityBoundary :=
  ((sg.findNode id).map SGIRNode.securityBoundary).getD .none

/-- The types of the edges along a path. -/
def TypeOn (g : DiGraph) (path : List String) (t : String) : Prop :=
  ∃ k ∈ path.zip path.tail, ∃ d, g.edges.get? k = some d ∧ d.edgeType.value = t

structure IsFlow (sg : SoftwareGraph) (g : DiGraph) (f : SensitiveDataFlow) : Prop where
  fewest : FewestHops g f.sourceNode f.targetNode f.path
  sourceBoundary : f.sourceBoundary = (declaredBoundary sg f.sourceNode).value
  targetBoundary : f.targetBoundary = (declaredBoundary sg f.targetNode).value
  crosses : f.crossesBoundary = true ↔
    declaredBoundary sg f.sourceNode ≠ declaredBoundary sg f.targetNode ∧ declaredBoundary sg f.sourceNode ≠ .none
  edgeTypes : ∀ t, t ∈ f.edgeTypes ↔ TypeOn g f.path t
  distinct : f.edgeTypes.Nodup

section
variable {p : Letters} {nx : Agents.Networkx} {sg : SoftwareGraph} {g : DiGraph} {index : Index.GraphIndex}
  {x y : String} {path : List String}

theorem SecurityBoundary.value_injective : Function.Injective SecurityBoundary.value := by
  intro a b h
  cases a <;> cases b <;> first | rfl | exact absurd h (by decide)

theorem boundaryOf_eq : boundaryOf (buildBoundaryMap sg) x = declaredBoundary sg x := by
  rw [boundaryOf, get?_buildBoundaryMap, declaredBoundary]

theorem pathEdgeTypes_of_walk {n : Nat} (h : Weighted.Walk (Agents.hops g) x y path n) (seen : List String)
    (hseen : seen.Nodup) : ∃ types, pathEdgeTypes g seen path = .ok types ∧
      (∀ t, t ∈ types ↔ t ∈ seen ∨ TypeOn g path t) ∧ types.Nodup := by
  induction h generalizing seen with
  | single s => exact ⟨seen, rfl, by simp [TypeOn], hseen⟩
  | @cons x y c z path d he hw ih =>
    obtain ⟨e, hget⟩ := Option.isSome_iff_exists.mp (Dict.isSome_get?_iff.mpr (Agents.mem_hops.mp he).1)
    -- the walk goes on at `y`
    obtain ⟨q, rfl⟩ : ∃ q, path = y :: q := by
      cases hw with
      | single => exact ⟨[], rfl⟩
      | cons => exact ⟨_, rfl⟩
    have hnew : (if e.edgeType.value ∈ seen then seen else seen ++ [e.edgeType.value]).Nodup ∧
        ∀ t, t ∈ (if e.edgeType.value ∈ seen then seen else seen ++ [e.edgeType.value]) ↔
          t ∈ seen ∨ e.edgeType.value = t := by
      split
      · rename_i hmem
        refine ⟨hseen, fun t => ⟨.inl, ?_⟩⟩
        rintro (ht | rfl)
        · exact ht
        · exact hmem
      · rename_i hmem
        refine ⟨hseen.append (List.nodup_singleton _) (List.disjoint_singleton.mpr hmem), fun t => ?_⟩
        rw [List.mem_append, List.mem_singleton, @eq_comm _ t]
    obtain ⟨types, htypes, hmem, hnodup⟩ := ih _ hnew.1
    refine ⟨types, ?_, fun t => ?_, hnodup⟩
    · simp only [pathEdgeTypes, hget]
      exact htypes
    · have hhead : TypeOn g (x :: y :: q) t ↔ e.edgeType.value = t ∨ TypeOn g (y :: q) t := by
        simp [TypeOn, hget]
      rw [hmem, hnew.2, hhead, or_assoc]

theorem mem_sensitiveSources : x ∈ sensitiveSources p sg g ↔ IsSensitiveSource p sg g x := by
  rw [sensitiveSources, List.mem_filter, decide_eq_true_eq, Agents.inDegree_eq_zero_iff, Option.any_eq_true]
  rfl

section
variable (hnx : nx.Lawful g)
include hnx

theorem mem_sensitivePairs : (x, y) ∈ sensitivePairs p nx sg g ↔
    IsSensitiveSource p sg g x ∧ y ≠ x ∧ Reaches g.edges.keys x y := by
  simp only [sensitivePairs, List.mem_flatMap, mem_sensitiveSources, List.mem_map, Prod.mk.injEq]
  constructor
  · rintro ⟨source, hsource, target, ht, rfl, rfl⟩
    exact ⟨hsource, Digraph.mem_descendants.mp ((hnx.descendants source hsource.1).mem_iff.mp ht)⟩
  · rintro ⟨hsource, hy⟩
    exact ⟨x, hsource, y, (hnx.descendants x hsource.1).mem_iff.mpr (Digraph.mem_descendants.mpr hy), rfl, rfl⟩

theorem nodup_sensitivePairs : (sensitivePairs p nx sg g).Nodup := by
  have hnodes : g.nodes.keys.Nodup := g.nodes.nodup
  refine List.nodup_flatMap.mpr ⟨fun source hsource => ?_, (hnodes.filter _).imp fun hne => ?_⟩
  · have hnode := (mem_sensitiveSources.mp hsource).1
    exact ((hnx.descendants source hnode).nodup_iff.mpr Digraph.nodup_descendants).map
      (Prod.mk_right_injective source)
  · intro pair h h'
    obtain ⟨_, -, rfl⟩ := List.mem_map.mp h
    obtain ⟨_, -, heq⟩ := List.mem_map.mp h'
    exact hne (congrArg Prod.fst heq).symm

theorem sensitiveFlow_spec (hx : x ∈ g.nodes.keys) (hy : y ∈ Digraph.descendants g.edges.keys x) :
    ∃ f, sensitiveFlow nx g (buildBoundaryMap sg) x y = .ok (some f) ∧ IsFlow sg g f ∧
      (f.sourceNode, f.targetNode) = (x, y) := by
  obtain ⟨path, hpath, hfewest⟩ := hnx.hopPath x hx y hy
  obtain ⟨n, hwalk, -⟩ := id hfewest
  obtain ⟨types, htypes, hmem, hnodup⟩ := pathEdgeTypes_of_walk hwalk [] List.nodup_nil
  simp only [sensitiveFlow, hpath, htypes, boundaryOf_eq]
  refine ⟨_, rfl, ⟨hfewest, rfl, rfl, ?_, fun t => ?_, hnodup⟩, rfl⟩
  · have hnone : (declaredBoundary sg x).value ≠ "none" ↔ declaredBoundary sg x ≠ .none :=
      SecurityBoundary.value_injective.ne_iff' rfl
    exact decide_eq_true_iff.trans (and_congr SecurityBoundary.value_injective.ne_iff hnone)
  · rw [hmem]
    simp

/-- One flow for each pair, in the order of the pairs. -/
theorem traceSensitiveDataFlows_spec (p : Letters) (sg : SoftwareGraph) : ∃ flows,
    traceSensitiveDataFlows p nx sg (some g) (buildBoundaryMap sg) = .ok flows ∧ (∀ f ∈ flows, IsFlow sg g f) ∧
      (flows.map fun f => (f.sourceNode, f.targetNode)) = (sensitivePairs p nx sg g).take maxSensitiveFlows := by
  have hspec : ∀ pair ∈ sensitivePairs p nx sg g, ∃ f,
      sensitiveFlow nx g (buildBoundaryMap sg) pair.1 pair.2 = .ok (some f) ∧ IsFlow sg g f ∧
        (f.sourceNode, f.targetNode) = pair := by
    rintro ⟨x, y⟩ h
    obtain ⟨hsource, hreach⟩ := (mem_sensitivePairs hnx).mp h
    exact sensitiveFlow_spec hnx hsource.1 (Digraph.mem_descendants.mpr hreach)
  choose! flow hflow hisFlow hpair using hspec
  have hfound := mapM_eq_ok_map (g := fun pair => some (flow pair)) hflow
  have hflows : ((sensitivePairs p nx sg g).map fun pair => some (flow pair)).filterMap id =
      (sensitivePairs p nx sg g).map flow := by
    rw [List.filterMap_map]
    exact congrFun List.filterMap_eq_map _
  refine ⟨((sensitivePairs p nx sg g).map flow).take maxSensitiveFlows, ?_, fun f hf => ?_, ?_⟩
  · rw [traceSensitiveDataFlows]
    simp only [hfound, bind_ok_eq, hflows]
  · obtain ⟨pair, hmem, rfl⟩ := List.mem_map.mp (List.mem_of_mem_take hf)
    exact hisFlow pair hmem
  · rw [List.map_take, List.map_map]
    congr 1
    exact (List.map_congr_left hpair).trans (List.map_id _)

/-- The flows that are reported lead from a sensitive source along a shortest path, each pair of ends
is reported once, and as many as possible are. -/
theorem sensitive_flows_traced (hg : flowGraph index = some g) : ∃ report, analyze p nx sg index = .ok report ∧
    (∀ f ∈ report.sensitiveDataFlows, IsSensitiveSource p sg g f.sourceNode ∧ f.targetNode ≠ f.sourceNode ∧
      IsFlow sg g f) ∧
    (report.sensitiveDataFlows.map fun f => (f.sourceNode, f.targetNode)).Nodup ∧
    ∀ s t, IsSensitiveSource p sg g s → t ≠ s → Reaches g.edges.keys s t →
      (∃ f ∈ report.sensitiveDataFlows, f.sourceNode = s ∧ f.targetNode = t) ∨
        report.sensitiveDataFlows.length = 50 := by
  obtain ⟨flows, hflows, hisFlow, hpairs⟩ := traceSensitiveDataFlows_spec hnx p sg
  have hgraphs : ¬ (index.graphs.get? .security = none ∧ index.graphs.get? .dataFlow = none) := by
    rintro ⟨hsecurity, hdata⟩
    simp [flowGraph, truthyGraph, hsecurity, hdata] at hg
  simp only [analyze, if_neg hgraphs, hg, hflows, bind_ok_eq]
  have hmem : ∀ f ∈ flows, (f.sourceNode, f.targetNode) ∈ sensitivePairs p nx sg g := by
    intro f hf
    have hpair : (f.sourceNode, f.targetNode) ∈ flows.map fun f => (f.sourceNode, f.targetNode) :=
      List.mem_map_of_mem hf
    rw [hpairs] at hpair
    exact List.mem_of_mem_take hpair
  refine ⟨_, rfl, fun f hf => ?_, ?_, fun s t hs hne hr => ?_⟩
  · obtain ⟨hsource, hne, -⟩ := (mem_sensitivePairs hnx).mp (hmem f hf)
    exact ⟨hsource, hne, hisFlow f hf⟩
  · rw [hpairs]
    exact (nodup_sensitivePairs hnx).sublist (List.take_sublist _ _)
  · show (∃ f ∈ flows, f.sourceNode = s ∧ f.targetNode = t) ∨ flows.length = 50
    have hst : (s, t) ∈ sensitivePairs p nx sg g := (mem_sensitivePairs hnx).mpr ⟨hs, hne, hr⟩
    rw [← List.take_append_drop maxSensitiveFlows (sensitivePairs p nx sg g), ← hpairs, List.mem_append] at hst
    rcases hst with hst | hst
    · obtain ⟨f, hf, heq⟩ := List.mem_map.mp hst
      exact .inl ⟨f, hf, congrArg Prod.fst heq, congrArg Prod.snd heq⟩
    · refine .inr ?_
      have hlong := List.length_pos_of_mem hst
      have hlength := congrArg List.length hpairs
      rw [List.length_drop] at hlong
      rw [List.length_map, List.length_take] at hlength
      simp only [maxSensitiveFlows] at hlong hlength
      omega

end

/-- Data flows as the calls of `pingPong` do, and `main` is about authentication. -/
def authenticated : SoftwareGraph where
  repositoryName := "repo"
  layers :=
    [{ layer := .call, nodes := [{ id := "main", name := "authenticate" }] },
      { Agents.pingPong with layer := .dataFlow }]
  keyed := by decide

theorem sensitive_flows_authenticated : ∃ report,
    analyze asciiLetters Agents.pingPongNetworkx authenticated (.ofGraph authenticated) = .ok report ∧
      ∃ f ∈ report.sensitiveDataFlows, f.sourceNode = "main" ∧ f.targetNode = "run" := by
  obtain ⟨report, h, -, -, hall⟩ : ∃ report,
      analyze asciiLetters Agents.pingPongNetworkx authenticated (.ofGraph authenticated) = .ok report ∧ _ :=
    sensitive_flows_traced Agents.lawful_pingPong rfl
  refine ⟨report, h,
    (hall "main" "run" ⟨by decide +kernel, ?_, _, rfl, by decide +kernel⟩ (by decide) ?_).resolve_right ?_⟩
  · intro z hz
    have hmain : ∀ k ∈ (ofLayer Agents.pingPong).edges.keys, k.2 ≠ "main" := by decide +kernel
    exact hmain _ hz rfl
  · exact .single (by decide +kernel)
  · cases h
    decide +kernel

end

end SecurityAgent

end Intelliqx.Graph
