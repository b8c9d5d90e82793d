import Intelliqx.Layers.Draft

/-!
# The SECURITY layer

`SecurityGraphBuilder.build`: functions, methods and classes with their
security boundary, and edges to the security concerns and the sensitive data
they mention.
-/

namespace Intelliqx.Graph.SecurityGraph

open CallGraph (makeNodeId nodeId nodeType callables)

def authPatterns : List String :=
  ["authenticate", "authorization", "auth", "login", "logout", "token", "jwt", "oauth", "session",
    "permission", "role", "access_control", "csrf", "cors", "sanitize", "escape", "validate", "hash",
    "encrypt", "decrypt", "sign", "verify", "secret", "credential", "api_key", "apikey", "password",
    "passwd"]

def sensitiveDataPatterns : List String :=
  ["password", "secret", "token", "key", "credential", "private", "ssn", "credit_card", "email", "pii",
    "phi"]

/-- `AUTH_PATTERNS` is a set: the order of its iteration is the interpreter's. -/
structure PatternOrder where
  patterns : List String
  perm : patterns.Perm authPatterns

section
variable (lower : String → String) (order : PatternOrder)

def allNames (e : ParsedEntity) : List String := e.calls ++ e.references ++ e.decorators

def classifySecurityBoundary (e : ParsedEntity) : SecurityBoundary :=
  let allText := lower (" ".intercalate (allNames e))
  let mentions := fun patterns => List.any patterns fun p => Py.within p allText
  if mentions ["admin", "superuser", "root"] then .admin
  else if mentions order.patterns then .authenticated
  else if mentions ["internal", "private"] then .internal
  else if mentions ["external", "public", "api"] then .external
  else .none

/-- The first pattern in each name, each pattern once. -/
def detectAuthPatterns (e : ParsedEntity) : List String :=
  firstBy id ((allNames e).filterMap fun name =>
    order.patterns.find? fun pattern => Py.within pattern (lower name))

def isSensitiveData (name : String) : Bool :=
  sensitiveDataPatterns.any fun p => Py.within p (lower name)

def node (e : ParsedEntity) : SGIRNode :=
  { SGIRNode.ofEntity e (nodeType e) with
    securityBoundary := classifySecurityBoundary lower order e
    sideEffects := detectAuthPatterns lower order e }

end

def securityId (pattern : String) : String := makeNodeId "security" pattern

def securityNode (pattern : String) : SGIRNode where
  id := securityId pattern
  name := pattern
  nodeType := .middleware
  securityBoundary := .authenticated
  purpose := "Security concern: " ++ pattern

def securityEdge (e : ParsedEntity) (pattern : String) : SGIREdge where
  source := nodeId e
  target := securityId pattern
  edgeType := .event
  label := pattern

def sensitiveId (ref : String) : String := makeNodeId "sensitive" ref

def sensitiveNode (ref : String) : SGIRNode where
  id := sensitiveId ref
  name := ref
  nodeType := .datamodel
  securityBoundary := .internal
  purpose := "Sensitive data: " ++ ref

def sensitiveEdge (e : ParsedEntity) (ref : String) : SGIREdge where
  source := nodeId e
  target := sensitiveId ref
  edgeType := .data
  label := "accesses:" ++ ref

section
variable (lower : String → String) (order : PatternOrder)

def visit (d : Draft) (e : ParsedEntity) : Draft :=
  let d := d.add (node lower order e)
  let d := d.attachAll (detectAuthPatterns lower order e) securityNode (securityEdge e)
  d.attachAll (e.references.filter (isSensitiveData lower)) sensitiveNode (sensitiveEdge e)

def build (entities : List ParsedEntity) : SGIRGraph :=
  ((callables entities).foldl (visit lower order) .empty).graph .security

/-- What an entity brings to the layer. -/
def ids (e : ParsedEntity) : List String :=
  nodeId e :: (detectAuthPatterns lower order e).map securityId ++
    (e.references.filter (isSensitiveData lower)).map sensitiveId

def links (e : ParsedEntity) : List SGIREdge :=
  (detectAuthPatterns lower order e).map (securityEdge e) ++
    (e.references.filter (isSensitiveData lower)).map (sensitiveEdge e)

end

section
variable {lower : String → String} {order : PatternOrder} {entities : List ParsedEntity}

theorem adds_visit (d : Draft) (e : ParsedEntity) :
    Draft.Adds d (visit lower order d e) (ids lower order e) (links lower order e) := by
  have hnode := Draft.adds_add d (node lower order e)
  exact (hnode.trans (Draft.adds_attachAll _ _ _ _)).trans (Draft.adds_attachAll _ _ _ _)

theorem adds_build : Draft.Adds .empty ((callables entities).foldl (visit lower order) .empty)
    ((callables entities).flatMap (ids lower order))
    ((callables entities).flatMap (links lower order)) :=
  Draft.Adds.foldl id (fun d e _ => adds_visit d e) .empty

theorem mem_nodeIds : x ∈ (build lower order entities).nodeIds ↔
    ∃ e ∈ callables entities, x ∈ ids lower order e := by
  rw [build, Draft.nodeIds_graph, adds_build.mem_nodeIds]
  simp

theorem mem_edges : edge ∈ (build lower order entities).edges ↔
    ∃ e ∈ callables entities, edge ∈ links lower order e := by
  rw [build, Draft.edges_graph, adds_build.mem_edges]
  simp

theorem ends_of_mem_links (h : edge ∈ links lower order e) :
    edge.source ∈ ids lower order e ∧ edge.target ∈ ids lower order e := by
  rcases List.mem_append.mp h with h | h
  · obtain ⟨pattern, hp, rfl⟩ := List.mem_map.mp h
    simp [ids, securityEdge, List.mem_map_of_mem hp]
  · obtain ⟨ref, hr, rfl⟩ := List.mem_map.mp h
    simp [ids, sensitiveEdge, List.mem_map_of_mem hr]

theorem wellFormed : (build lower order entities).WellFormed := by
  constructor
  · exact Draft.distinct _
  · intro edge hedge
    obtain ⟨e, he, hedge⟩ := mem_edges.mp hedge
    obtain ⟨hs, ht⟩ := ends_of_mem_links hedge
    exact ⟨mem_nodeIds.mpr ⟨e, he, hs⟩, mem_nodeIds.mpr ⟨e, he, ht⟩⟩

end

end Intelliqx.Graph.SecurityGraph
