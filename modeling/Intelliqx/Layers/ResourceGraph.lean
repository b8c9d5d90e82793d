import Intelliqx.Layers.Draft

/-!
# The RESOURCE layer

`ResourceGraphBuilder.build`: functions and methods with the input and output
they name, each such name a node of its own.
-/

namespace Intelliqx.Graph.ResourceGraph

open CallGraph (makeNodeId nodeId)

def ioPatterns : List String :=
  ["open", "read", "write", "connect", "send", "recv", "fetch", "request", "urlopen", "socket",
    "database", "query", "execute", "cursor", "connection", "session", "cache", "redis", "mq", "queue",
    "publish", "consume", "subscribe"]

def externalCallPatterns : List String :=
  ["requests", "httpx", "urllib", "aiohttp", "grpc", "websocket", "socket", "subprocess", "os.system"]

def resourceId (name : String) : String := makeNodeId "resource" name

section
variable (lower : String → String)

def mentions (name : String) (patterns : List String) : Bool :=
  patterns.any fun p => Py.within p (lower name)

/-- The names that contain a pattern, each name once. -/
def detectIoOperations (e : ParsedEntity) : List String :=
  firstBy id ((e.calls ++ e.references).filter fun name => mentions lower name ioPatterns)

def buildResourceUsage (e : ParsedEntity) : Dict String Py.Json :=
  let ioOps := detectIoOperations lower e
  let usage :=
    if ioOps = [] then .empty else Dict.empty.insert "io_operations" (.arr (ioOps.map Py.Json.str))
  if e.isAsync then usage.insert "async" (.bool true) else usage

def classifyResource (name : String) : String :=
  if mentions lower name ["database", "query", "cursor", "connection", "execute"] then "database"
  else if mentions lower name ["cache", "redis", "memcache"] then "cache"
  else if mentions lower name ["queue", "mq", "publish", "consume", "subscribe"] then "message_queue"
  else if mentions lower name ["requests", "httpx", "urllib", "aiohttp", "fetch", "socket"] then "http"
  else "file"

def isExternal (name : String) : Bool := mentions lower name externalCallPatterns

def node (e : ParsedEntity) : SGIRNode :=
  { SGIRNode.ofEntity e (functionType e) with
    inputs := e.parameters
    outputs := (Py.truthy e.returnType).toList
    sideEffects := detectIoOperations lower e
    resourceUsage := buildResourceUsage lower e }

def resourceNode (name : String) : SGIRNode where
  id := resourceId name
  name
  nodeType := .service
  resourceUsage := Dict.empty.insert "type" (.str (classifyResource lower name))

def resourceEdge (e : ParsedEntity) (name : String) : SGIREdge where
  source := nodeId e
  target := resourceId name
  edgeType := if isExternal lower name then .network else .database
  label := name

def visit (d : Draft) (e : ParsedEntity) : Draft :=
  if nodeId e ∈ d.nodeIds then d
  else (d.add (node lower e)).attachAll (detectIoOperations lower e) (resourceNode lower)
    (resourceEdge lower e)

def build (entities : List ParsedEntity) : SGIRGraph :=
  ((functions entities).foldl (visit lower) .empty).graph .resource

end

section
variable {lower : String → String} {entities : List ParsedEntity} {e : ParsedEntity} {d : Draft}

theorem visit_old (h : nodeId e ∈ d.nodeIds) : visit lower d e = d := by
  simp [visit, h]

theorem adds_visit (h : nodeId e ∉ d.nodeIds) : Draft.Adds d (visit lower d e)
    (nodeId e :: (detectIoOperations lower e).map resourceId)
    ((detectIoOperations lower e).map (resourceEdge lower e)) := by
  rw [visit, if_neg h]
  exact (Draft.adds_add d (node lower e)).trans (Draft.adds_attachAll _ _ _ _)

theorem Closed.visit (hd : d.Closed) (e : ParsedEntity) : (visit lower d e).Closed := by
  by_cases h : nodeId e ∈ d.nodeIds
  · rwa [visit_old h]
  · refine (adds_visit h).closed hd ?_
    intro edge hedge
    obtain ⟨name, hn, rfl⟩ := List.mem_map.mp hedge
    constructor <;> apply ((adds_visit h).mem_nodeIds _).mpr <;> right
    · exact List.mem_cons_self
    · exact List.mem_cons_of_mem _ (List.mem_map_of_mem hn)

theorem wellFormed : (build lower entities).WellFormed :=
  (Draft.closed_foldl (fun _ hd e _ => Closed.visit hd e) Draft.closed_empty).wellFormed

/-- No function has the id of a resource. -/
def ResourcesApart (entities : List ParsedEntity) : Prop :=
  ∀ e ∈ functions entities, ∀ name, nodeId e ≠ resourceId name

theorem adds_build (h : ResourcesApart entities) :
    Draft.Adds .empty ((functions entities).foldl (visit lower) .empty)
      ((firstBy nodeId (functions entities)).flatMap fun e =>
        nodeId e :: (detectIoOperations lower e).map resourceId)
      ((firstBy nodeId (functions entities)).flatMap fun e =>
        (detectIoOperations lower e).map (resourceEdge lower e)) := by
  refine Draft.Adds.foldl_firstBy (fun _ _ => visit_old) (fun _ _ => adds_visit) ?_
  intro a ha b _ hmem
  obtain ⟨name, -, hname⟩ := List.mem_map.mp hmem
  exact h a ha name hname.symm

end

end Intelliqx.Graph.ResourceGraph
