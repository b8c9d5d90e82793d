import Intelliqx.Base.Except
import Intelliqx.Base.FirstBy
import Intelliqx.Graph.Models
import Intelliqx.Graph.Parsers
import Mathlib.Data.List.Basic

/-!
# The CALL layer

`CallGraphBuilder.build`: one node for each id `file::name`, and the calls of
every entity as edges. The id leaves the parent out, so the layer keeps the
definitions apart exactly when their files and names do.
-/

namespace Intelliqx.Graph

structure ValidationError where
  field : String
  value : String
  deriving DecidableEq, Repr

def ComplexityEstimate.value : ComplexityEstimate → String
  | .constant => "O(1)"
  | .logarithmic => "O(log n)"
  | .linear => "O(n)"
  | .linearithmic => "O(n log n)"
  | .quadratic => "O(n^2)"
  | .cubic => "O(n^3)"
  | .exponential => "O(2^n)"
  | .unknown => "unknown"

def ComplexityEstimate.all : List ComplexityEstimate :=
  [.constant, .logarithmic, .linear, .linearithmic, .quadratic, .cubic, .exponential, .unknown]

def ComplexityEstimate.ofValue (s : String) : Except ValidationError ComplexityEstimate :=
  match all.find? fun c => c.value = s with
  | some c => .ok c
  | none => .error ⟨"complexity", s⟩

theorem ComplexityEstimate.ofValue_ok_iff :
    (∃ c, ofValue s = .ok c) ↔ s ∈ all.map ComplexityEstimate.value := by
  unfold ofValue
  cases h : all.find? fun c => c.value = s with
  | some c =>
    have hc := List.find?_some h
    have hm := List.mem_of_find?_eq_some h
    simp only [decide_eq_true_eq] at hc
    exact ⟨fun _ => List.mem_map.mpr ⟨c, hm, hc⟩, fun _ => ⟨c, rfl⟩⟩
  | none =>
    simp only [List.find?_eq_none, decide_eq_true_eq] at h
    refine ⟨fun ⟨_, hc⟩ => (nomatch hc), ?_⟩
    intro hm
    obtain ⟨c, hc, rfl⟩ := List.mem_map.mp hm
    exact absurd rfl (h c hc)

namespace CallGraph

def makeNodeId (filePath name : String) : String := filePath ++ "::" ++ name

theorem takeWhile_to_colon {l r : List Char} (h : ':' ∉ l) :
    (l ++ ':' :: r).takeWhile (· ≠ ':') = l := by
  rw [List.takeWhile_append_of_pos fun c hc => by simpa using fun (he : c = ':') => h (he ▸ hc)]
  simp

/-- Two names free of colons meet in one id only as one name of one file. -/
theorem makeNodeId_inj {f f' n n' : String} (hn : ':' ∉ n.toList) (hn' : ':' ∉ n'.toList)
    (h : makeNodeId f n = makeNodeId f' n') : f = f' ∧ n = n' := by
  -- read backwards, the name ends at the first colon
  have hl : n.toList.reverse ++ ':' :: ':' :: f.toList.reverse =
      n'.toList.reverse ++ ':' :: ':' :: f'.toList.reverse := by
    simpa [makeNodeId] using congrArg (fun s => s.toList.reverse) h
  have hname : n.toList.reverse = n'.toList.reverse := by
    have := congrArg (List.takeWhile (· ≠ ':')) hl
    rwa [takeWhile_to_colon (by simpa using hn), takeWhile_to_colon (by simpa using hn')] at this
  have hfile : f.toList.reverse = f'.toList.reverse := by simpa [hname] using hl
  exact ⟨String.toList_inj.mp (List.reverse_inj.mp hfile), String.toList_inj.mp (List.reverse_inj.mp hname)⟩

def callableTypes : List String := ["function", "method", "class"]

def callables (entities : List ParsedEntity) : List ParsedEntity :=
  entities.filter fun e => e.entityType ∈ callableTypes

def nodeId (e : ParsedEntity) : String := makeNodeId e.filePath e.name

/-- The entities that get a node: the first one of each id. -/
def declared (entities : List ParsedEntity) : List ParsedEntity :=
  firstBy nodeId (callables entities)

def nodeType (e : ParsedEntity) : NodeType :=
  if e.entityType = "method" then .method else if e.entityType = "class" then .class else .function

def buildNode (e : ParsedEntity) : Except ValidationError SGIRNode := do
  let complexity ← ComplexityEstimate.ofValue e.complexity
  return {
    id := nodeId e
    name := e.name
    purpose := (Py.truthy e.docstring).getD ""
    nodeType := nodeType e
    language := e.language
    sourceLocation := some {
      filePath := e.filePath
      lineStart := e.lineStart
      lineEnd := e.lineEnd }
    inputs := e.parameters
    outputs := (Py.truthy e.returnType).toList
    complexity }

def findCallTarget (callName : String) (caller : ParsedEntity) (entities : List ParsedEntity)
    (nodeIds : List String) : Option String :=
  match entities.find? fun e => e.name = callName ∧ nodeId e ∈ nodeIds with
  | some e => some (nodeId e)
  | none => do
    let parent ← Py.truthy caller.parent
    let parentId := makeNodeId caller.filePath (parent ++ "." ++ callName)
    if parentId ∈ nodeIds then some parentId else none

def callEdges (entities : List ParsedEntity) (nodeIds : List String) (caller : ParsedEntity) :
    List SGIREdge :=
  caller.calls.filterMap fun callName =>
    match Py.truthy (findCallTarget callName caller entities nodeIds) with
    | some target =>
      if target ≠ nodeId caller then
        some { source := nodeId caller, target, edgeType := .call, label := callName }
      else none
    | none => none

def build (entities : List ParsedEntity) : Except ValidationError SGIRGraph := do
  let nodes ← (declared entities).mapM buildNode
  let nodeIds := (declared entities).map nodeId
  return {
    layer := .call
    nodes
    edges := (callables entities).flatMap (callEdges entities nodeIds) }

-- ---------------------------------------------------------------------------
-- What a build returns
-- ---------------------------------------------------------------------------

section
variable {entities : List ParsedEntity} {layer : SGIRGraph}

theorem buildNode_id (h : buildNode e = .ok n) : n.id = nodeId e := by
  unfold buildNode at h
  cases hc : ComplexityEstimate.ofValue e.complexity with
  | error err => simp [hc] at h
  | ok c =>
    simp only [hc, bind_ok_eq, pure_eq_ok, Except.ok.injEq] at h
    rw [← h]

theorem buildNode_isOk_iff :
    (∃ n, buildNode e = .ok n) ↔ e.complexity ∈ ComplexityEstimate.all.map ComplexityEstimate.value := by
  rw [← ComplexityEstimate.ofValue_ok_iff, buildNode]
  cases ComplexityEstimate.ofValue e.complexity <;> simp

theorem build_ok (h : build entities = .ok layer) :
    (declared entities).mapM buildNode = .ok layer.nodes ∧
      layer.edges = (callables entities).flatMap (callEdges entities ((declared entities).map nodeId)) := by
  unfold build at h
  cases hn : (declared entities).mapM buildNode with
  | error err => simp [hn] at h
  | ok nodes =>
    simp only [hn, bind_ok_eq, pure_eq_ok, Except.ok.injEq] at h
    subst h
    exact ⟨rfl, rfl⟩

theorem layer_build (h : build entities = .ok layer) : layer.layer = .call := by
  unfold build at h
  cases hn : (declared entities).mapM buildNode with
  | error err => simp [hn] at h
  | ok nodes =>
    simp only [hn, bind_ok_eq, pure_eq_ok, Except.ok.injEq] at h
    rw [← h]

theorem build_isOk_iff : (∃ layer, build entities = .ok layer) ↔
    ∀ e ∈ declared entities, e.complexity ∈ ComplexityEstimate.all.map ComplexityEstimate.value := by
  simp only [← buildNode_isOk_iff, ← mapM_isOk_iff, build]
  cases (declared entities).mapM buildNode <;> simp

variable (hb : build entities = .ok layer)
include hb

theorem nodeIds_build : layer.nodeIds = (declared entities).map nodeId :=
  map_of_mapM_ok (fun _ _ => buildNode_id) (build_ok hb).1

theorem nodup_nodeIds : layer.nodeIds.Nodup := nodeIds_build hb ▸ nodup_firstBy

theorem edges_build :
    layer.edges = (callables entities).flatMap (callEdges entities layer.nodeIds) := by
  rw [nodeIds_build hb, (build_ok hb).2]

theorem node_eq_of_id (hn : n ∈ layer.nodes) (hn' : n' ∈ layer.nodes) (h : n.id = n'.id) : n = n' :=
  List.inj_on_of_nodup_map (nodup_nodeIds hb) hn hn' h

end

-- ---------------------------------------------------------------------------
-- An entity's own node
-- ---------------------------------------------------------------------------

structure Represents (entities : List ParsedEntity) (layer : SGIRGraph) (e : ParsedEntity)
    (n : SGIRNode) : Prop where
  declared : n ∈ layer.nodes
  built : ∃ k ∈ callables entities, k.key = e.key ∧ buildNode k = .ok n

/-- Definitions that differ in file, parent or name have different nodes, and every call starts
at the node of the caller. -/
structure OwnNodes (entities : List ParsedEntity) (layer : SGIRGraph) : Prop where
  separate : ∀ e ∈ callables entities, ∀ e' ∈ callables entities, e.key ≠ e'.key →
    ∃ n n', Represents entities layer e n ∧ Represents entities layer e' n' ∧ n ≠ n'
  source : ∀ e ∈ callables entities, ∀ edge ∈ callEdges entities layer.nodeIds e,
    ∃ n, Represents entities layer e n ∧ edge.source = n.id

section
variable {entities : List ParsedEntity} {layer : SGIRGraph}

theorem nodeId_of_key {e k : ParsedEntity} (h : k.key = e.key) : nodeId k = nodeId e := by
  simp only [ParsedEntity.key, ParsedEntity.Key.mk.injEq] at h
  obtain ⟨hf, -, hn⟩ := h
  rw [nodeId, hf, hn, nodeId]

theorem Represents.id (h : Represents entities layer e n) : n.id = nodeId e := by
  obtain ⟨-, k, -, hk, hn⟩ := h
  rw [buildNode_id hn, nodeId_of_key hk]

theorem source_of_mem_callEdges (h : edge ∈ callEdges entities nodeIds e) :
    edge.source = nodeId e := by
  obtain ⟨call, -, h⟩ := List.mem_filterMap.mp h
  split at h
  · split at h
    · cases h; rfl
    · cases h
  · cases h

theorem findCallTarget_mem (h : findCallTarget callName caller entities nodeIds = some x) :
    x ∈ nodeIds := by
  unfold findCallTarget at h
  split at h
  · rename_i e he
    have hp := List.find?_some he
    simp only [decide_eq_true_eq] at hp
    cases h
    exact hp.2
  · cases hp : Py.truthy caller.parent with
    | none => simp [hp] at h
    | some parent =>
      simp only [hp, Option.bind_eq_bind, Option.bind_some] at h
      split at h
      · cases h; assumption
      · cases h

variable (hb : build entities = .ok layer)
include hb

theorem exists_built (he : e ∈ callables entities) :
    ∃ k ∈ callables entities, nodeId k = nodeId e ∧ ∃ n ∈ layer.nodes, buildNode k = .ok n := by
  obtain ⟨k, hk, hid⟩ := exists_mem_firstBy nodeId he
  obtain ⟨n, hn, hkn⟩ := exists_of_mapM_ok (build_ok hb).1 hk
  exact ⟨k, mem_of_mem_firstBy hk, hid, n, hn, hkn⟩

theorem edge_declared (he : edge ∈ layer.edges) :
    edge.source ∈ layer.nodeIds ∧ edge.target ∈ layer.nodeIds := by
  rw [edges_build hb] at he
  obtain ⟨caller, hc, he⟩ := List.mem_flatMap.mp he
  constructor
  · obtain ⟨k, -, hid, n, hn, hk⟩ := exists_built hb hc
    rw [source_of_mem_callEdges he, ← hid, ← buildNode_id hk]
    exact List.mem_map_of_mem hn
  · obtain ⟨call, -, he⟩ := List.mem_filterMap.mp he
    split at he
    · rename_i x hx
      split at he
      · cases he
        exact findCallTarget_mem (Option.filter_eq_some_iff.mp hx).1
      · cases he
    · cases he

theorem exists_represents
    (hkey : ∀ k ∈ callables entities, nodeId k = nodeId e → k.key = e.key)
    (he : e ∈ callables entities) : ∃ n, Represents entities layer e n := by
  obtain ⟨k, hk, hid, n, hn, hkn⟩ := exists_built hb he
  exact ⟨n, hn, k, hk, hkey k hk hid, hkn⟩

/-- One id is one node, so definitions that share it are merged. -/
theorem not_separate (hid : nodeId e = nodeId e') :
    ¬ ∃ n n', Represents entities layer e n ∧ Represents entities layer e' n' ∧ n ≠ n' := by
  rintro ⟨n, n', hn, hn', hne⟩
  exact hne (node_eq_of_id hb hn.declared hn'.declared (by rw [hn.id, hn'.id, hid]))

theorem ownNodes_iff : OwnNodes entities layer ↔
    ∀ e ∈ callables entities, ∀ e' ∈ callables entities, nodeId e = nodeId e' → e.key = e'.key := by
  constructor
  · intro h e he e' he' hid
    by_contra hkey
    exact not_separate hb hid (h.separate e he e' he' hkey)
  · intro hkey
    have hown : ∀ e ∈ callables entities, ∃ n, Represents entities layer e n := fun e he =>
      exists_represents hb (fun k hk => hkey k hk e he) he
    constructor
    · intro e he e' he' hne
      obtain ⟨n, hn⟩ := hown e he
      obtain ⟨n', hn'⟩ := hown e' he'
      refine ⟨n, n', hn, hn', fun heq => hne (hkey e he e' he' ?_)⟩
      rw [← hn.id, ← hn'.id, heq]
    · intro e he edge hedge
      obtain ⟨n, hn⟩ := hown e he
      exact ⟨n, hn, by rw [source_of_mem_callEdges hedge, hn.id]⟩

end

/-- The layer is built and keeps its definitions apart exactly when every complexity is an
estimate, no two definitions of one file share a name under different parents, and no id reads
as two files or names. -/
theorem built_with_ownNodes_iff (entities : List ParsedEntity) :
    (∃ layer, build entities = .ok layer ∧ OwnNodes entities layer) ↔
      (∀ e ∈ declared entities,
        e.complexity ∈ ComplexityEstimate.all.map ComplexityEstimate.value) ∧
      (∀ e ∈ callables entities, ∀ e' ∈ callables entities,
        e.filePath = e'.filePath → e.name = e'.name → e.parent = e'.parent) ∧
      ∀ e ∈ callables entities, ∀ e' ∈ callables entities,
        nodeId e = nodeId e' → e.filePath = e'.filePath ∧ e.name = e'.name := by
  rw [← build_isOk_iff]
  constructor
  · rintro ⟨layer, hb, hown⟩
    have hkey := (ownNodes_iff hb).mp hown
    refine ⟨⟨layer, hb⟩, ?_, ?_⟩
    · intro e he e' he' hf hn
      have := hkey e he e' he' (by rw [nodeId, nodeId, hf, hn])
      exact congrArg ParsedEntity.Key.parent this
    · intro e he e' he' hid
      have := hkey e he e' he' hid
      exact ⟨congrArg ParsedEntity.Key.filePath this, congrArg ParsedEntity.Key.name this⟩
  · rintro ⟨⟨layer, hb⟩, hparent, hread⟩
    refine ⟨layer, hb, (ownNodes_iff hb).mpr ?_⟩
    intro e he e' he' hid
    obtain ⟨hf, hn⟩ := hread e he e' he' hid
    rw [ParsedEntity.key, ParsedEntity.key, hf, hn, hparent e he e' he' hf hn]

def twoRuns : List ParsedEntity :=
  let entity := fun name entityType parent line => ({
    name, entityType, parent
    filePath := "jobs.py"
    lineStart := line
    lineEnd := line + 1
    language := "python"
    complexity := "O(1)" } : ParsedEntity)
  [entity "Import" "class" none 1, entity "run" "method" (some "Import") 2,
    entity "Export" "class" none 4, entity "run" "method" (some "Export") 5]

theorem equally_named_methods_merged :
    ¬ ∃ layer, build twoRuns = .ok layer ∧ OwnNodes twoRuns layer := by
  rintro ⟨layer, hb, hown⟩
  have hkey := (ownNodes_iff hb).mp hown
  have h := hkey twoRuns[1] (by decide) twoRuns[3] (by decide) rfl
  exact absurd h (by decide)

end CallGraph

end Intelliqx.Graph
