import Intelliqx.Layers.Draft

/-!
# The DEPLOYMENT layer

`DeploymentGraphBuilder.build`: the repository as a service, and what it
builds with, is configured by and exposes.
-/

namespace Intelliqx.Graph.DeploymentGraph

open CallGraph (makeNodeId nodeId)

def configFilePatterns : List String :=
  ["config", "settings", "env", "yaml", "yml", "toml", "ini", "json", "properties"]

def repoId (r : RepositoryMetadata) : String := makeNodeId "deploy" r.name

def repoNode (r : RepositoryMetadata) : SGIRNode where
  id := repoId r
  name := r.name
  nodeType := .service
  language := ", ".intercalate r.languages
  externalDependencies := r.frameworks

def repoEdge (r : RepositoryMetadata) (label target : String) : SGIREdge where
  source := repoId r
  target
  edgeType := .dependency
  label

def buildId (buildSystem : String) : String := makeNodeId "build" buildSystem

def buildNode (buildSystem : String) : SGIRNode where
  id := buildId buildSystem
  name := buildSystem
  nodeType := .config
  purpose := "Build system: " ++ buildSystem

def addBuildSystem (r : RepositoryMetadata) (d : Draft) (buildSystem : String) : Draft :=
  if buildId buildSystem ∈ d.nodeIds then d
  else d.attach (buildNode buildSystem) (repoEdge r "builds_with" (buildId buildSystem))

def addRepository : Option RepositoryMetadata → Draft
  | none => .empty
  | some r => r.buildSystems.foldl (addBuildSystem r) (Draft.empty.add (repoNode r))

def configNode (e : ParsedEntity) : SGIRNode where
  id := makeNodeId "config" e.name
  name := e.name
  nodeType := .config
  language := e.language
  sourceLocation := some {
    filePath := e.filePath
    lineStart := e.lineStart
    lineEnd := e.lineEnd }
  purpose := (Py.truthy e.docstring).getD ""

def endpointNode (e : ParsedEntity) : SGIRNode where
  id := nodeId e
  name := e.name
  nodeType := .endpoint
  language := e.language
  sourceLocation := some {
    filePath := e.filePath
    lineStart := e.lineStart
    lineEnd := e.lineEnd }

/-- Append the node unless its id is there, with an edge from the repository. -/
def declare (repository : Option RepositoryMetadata) (label : String) (d : Draft) (n : SGIRNode) :
    Draft :=
  if n.id ∈ d.nodeIds then d
  else
    let d := d.add n
    match repository with
    | some r => if repoId r ∈ d.nodeIds then d.link (repoEdge r label n.id) else d
    | none => d

section
variable (lower : String → String)

def isConfigEntity (e : ParsedEntity) : Bool :=
  configFilePatterns.any fun p => Py.within p (lower e.name)

def isDeployable (e : ParsedEntity) : Bool :=
  e.decorators.any fun decorator =>
    ["route", "app", "handler", "entry", "main"].any fun p => Py.within p (lower decorator)

def configNodes (entities : List ParsedEntity) : List SGIRNode :=
  (entities.filter (isConfigEntity lower)).map configNode

def endpointNodes (entities : List ParsedEntity) : List SGIRNode :=
  ((functions entities).filter (isDeployable lower)).map endpointNode

def configured (entities : List ParsedEntity) (repository : Option RepositoryMetadata) : Draft :=
  (configNodes lower entities).foldl (declare repository "configures") (addRepository repository)

def build (entities : List ParsedEntity) (repository : Option RepositoryMetadata) : SGIRGraph :=
  ((endpointNodes lower entities).foldl (declare repository "exposes")
    (configured lower entities repository)).graph .deployment

end

section
variable {lower : String → String} {entities : List ParsedEntity}
  {repository : Option RepositoryMetadata} {r : RepositoryMetadata} {d : Draft} {n : SGIRNode}

def repoEdges (repository : Option RepositoryMetadata) (label target : String) : List SGIREdge :=
  repository.toList.map fun r => repoEdge r label target

/-- The repository, if there is one, is a node of the draft. -/
def HasRepository (repository : Option RepositoryMetadata) (d : Draft) : Prop :=
  ∀ r ∈ repository, repoId r ∈ d.nodeIds

theorem adds_declare (hr : HasRepository repository d) (h : n.id ∉ d.nodeIds) :
    Draft.Adds d (declare repository label d n) [n.id] (repoEdges repository label n.id) := by
  rw [declare, if_neg h]
  cases repository with
  | none => exact Draft.adds_add d n
  | some r =>
    have hmem : repoId r ∈ (d.add n).nodeIds := Draft.mem_nodeIds_add.mpr (.inl (hr r rfl))
    simp only [if_pos hmem]
    exact (Draft.adds_add d n).trans (Draft.adds_link _ _)

theorem adds_declareAll (hr : HasRepository repository d) (nodes : List SGIRNode) :
    Draft.Adds d (nodes.foldl (declare repository label) d) (nodes.map SGIRNode.id)
      (((nodes.map SGIRNode.id).filter (· ∉ d.nodeIds)).flatMap (repoEdges repository label)) := by
  apply Draft.Adds.foldl_new
  · intro d' n h
    rw [declare, if_pos h]
  · intro d' n hsub h
    exact adds_declare (fun r he => hsub (hr r he)) h

theorem closed_declareAll (hr : HasRepository repository d) (hd : d.Closed) (nodes : List SGIRNode) :
    (nodes.foldl (declare repository label) d).Closed := by
  refine (adds_declareAll hr nodes).closed hd ?_
  intro edge hedge
  obtain ⟨x, hx, hedge⟩ := List.mem_flatMap.mp hedge
  obtain ⟨r, he, rfl⟩ := List.mem_map.mp hedge
  constructor <;> apply ((adds_declareAll hr nodes).mem_nodeIds _).mpr
  · exact .inl (hr r (by simpa using he))
  · exact .inr (List.mem_filter.mp hx).1

theorem adds_buildSystems : Draft.Adds (Draft.empty.add (repoNode r)) (addRepository (some r))
    (r.buildSystems.map buildId)
    (((r.buildSystems.map buildId).filter (· ∉ (Draft.empty.add (repoNode r)).nodeIds)).flatMap
      fun x => [repoEdge r "builds_with" x]) := by
  apply Draft.Adds.foldl_new
  · intro d' b h
    rw [addBuildSystem, if_pos h]
  · intro d' b _ h
    rw [addBuildSystem, if_neg h]
    exact Draft.adds_attach _ _ _

theorem hasRepository_add : HasRepository (some r) (Draft.empty.add (repoNode r)) := by
  rintro _ ⟨⟩
  exact Draft.mem_nodeIds_add.mpr (.inr rfl)

theorem hasRepository : HasRepository repository (addRepository repository) := by
  cases repository with
  | none => exact fun _ h => nomatch h
  | some r => exact fun r' h => (adds_buildSystems.mem_nodeIds _).mpr (.inl (hasRepository_add r' h))

theorem closed_addRepository : (addRepository repository).Closed := by
  cases repository with
  | none => exact Draft.closed_empty
  | some r =>
    have hstart : (Draft.empty.add (repoNode r)).Closed := by simp [Draft.Closed]
    refine adds_buildSystems.closed hstart ?_
    intro edge hedge
    obtain ⟨x, hx, hedge⟩ := List.mem_flatMap.mp hedge
    obtain rfl := List.mem_singleton.mp hedge
    refine ⟨hasRepository r rfl, ?_⟩
    exact (adds_buildSystems.mem_nodeIds _).mpr (.inr (List.mem_filter.mp hx).1)

theorem hasRepository_configured : HasRepository repository (configured lower entities repository) :=
  fun r h => ((adds_declareAll hasRepository _).mem_nodeIds _).mpr (.inl (hasRepository r h))

theorem wellFormed : (build lower entities repository).WellFormed :=
  (closed_declareAll hasRepository_configured
    (closed_declareAll hasRepository closed_addRepository _) _).wellFormed

end

end Intelliqx.Graph.DeploymentGraph
