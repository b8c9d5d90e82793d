import Intelliqx.Layers.Draft

/-!
# The CONTROL_FLOW layer

`ControlFlowBuilder.build`: functions, methods and classes, the methods a
class contains, and the calls of entry points.
-/

namespace Intelliqx.Graph.ControlFlow

open CallGraph (nodeId nodeType callables)

def controlFlowDecorators : List String :=
  ["app.route", "route", "get", "post", "put", "delete", "patch", "before_request", "after_request",
    "errorhandler", "middleware"]

section
variable (lower : String → String)

def routes (decorator : String) : Bool :=
  controlFlowDecorators.any fun pattern => Py.within pattern (lower decorator)

def detectSideEffects (e : ParsedEntity) : List String :=
  (if e.isAsync then ["async"] else []) ++ (if e.isGenerator then ["generator"] else []) ++
    (e.decorators.filter (routes lower)).map fun decorator => "route:" ++ decorator

def isEntryPoint (e : ParsedEntity) : Bool := e.decorators.any (routes lower)

def node (e : ParsedEntity) : SGIRNode :=
  { SGIRNode.ofEntity e (nodeType e) with
    inputs := e.parameters
    outputs := (Py.truthy e.returnType).toList
    sideEffects := detectSideEffects lower e }

def containsEdges (entities : List ParsedEntity) (nodeIds : List String) : List SGIREdge :=
  (entities.filter fun e => e.entityType = "class").flatMap fun c =>
    (entities.filter fun child => child.parent = some c.name ∧ child.entityType = "method" ∧
      nodeId c ∈ nodeIds ∧ nodeId child ∈ nodeIds).map fun child =>
        { source := nodeId c, target := nodeId child, edgeType := .control, label := "contains" }

def entryEdges (entities : List ParsedEntity) (nodeIds : List String) : List SGIREdge :=
  ((functions entities).filter fun e => isEntryPoint lower e ∧ nodeId e ∈ nodeIds).flatMap fun e =>
    e.calls.flatMap fun callName =>
      ((resolveIds callName entities nodeIds).filter fun target => target ≠ nodeId e).map fun target =>
        { source := nodeId e, target, edgeType := .control, label := callName }

def build (entities : List ParsedEntity) : Except ValidationError SGIRGraph :=
  let nodeIds := (firstBy nodeId (callables entities)).map nodeId
  declareAll .controlFlow (callables entities) (node lower)
    (containsEdges entities nodeIds ++ entryEdges lower entities nodeIds)

end

section
variable {lower : String → String} {entities : List ParsedEntity} {g : SGIRGraph} {edge : SGIREdge}
  {ids : List String}

theorem mem_containsEdges : edge ∈ containsEdges entities ids ↔
    ∃ c ∈ entities, c.entityType = "class" ∧ ∃ child ∈ entities, child.parent = some c.name ∧
      child.entityType = "method" ∧ nodeId c ∈ ids ∧ nodeId child ∈ ids ∧
      edge = { source := nodeId c, target := nodeId child, edgeType := .control, label := "contains" } := by
  simp only [containsEdges, List.mem_flatMap, List.mem_map, List.mem_filter, decide_eq_true_eq]
  constructor
  · rintro ⟨c, ⟨hc, hclass⟩, child, ⟨hchild, hparent, hmethod, hids⟩, rfl⟩
    exact ⟨c, hc, hclass, child, hchild, hparent, hmethod, hids.1, hids.2, rfl⟩
  · rintro ⟨c, hc, hclass, child, hchild, hparent, hmethod, hcid, hid, rfl⟩
    exact ⟨c, ⟨hc, hclass⟩, child, ⟨hchild, hparent, hmethod, hcid, hid⟩, rfl⟩

theorem mem_entryEdges : edge ∈ entryEdges lower entities ids ↔
    ∃ e ∈ functions entities, isEntryPoint lower e = true ∧ nodeId e ∈ ids ∧ ∃ callName ∈ e.calls,
      ∃ target ∈ resolveIds callName entities ids, target ≠ nodeId e ∧
      edge = { source := nodeId e, target, edgeType := .control, label := callName } := by
  simp only [entryEdges, List.mem_flatMap, List.mem_map, List.mem_filter, decide_eq_true_eq]
  constructor
  · rintro ⟨e, ⟨he, hentry, hid⟩, call, hcall, x, ⟨hx, hne⟩, rfl⟩
    exact ⟨e, he, hentry, hid, call, hcall, x, hx, hne, rfl⟩
  · rintro ⟨e, he, hentry, hid, call, hcall, x, hx, hne, rfl⟩
    exact ⟨e, ⟨he, hentry, hid⟩, call, hcall, x, ⟨hx, hne⟩, rfl⟩

theorem wellFormed (hb : build lower entities = .ok g) : g.WellFormed := by
  refine declareAll_wellFormed (fun _ => rfl) hb ?_
  have hdeclared : ∀ x ∈ (firstBy nodeId (callables entities)).map nodeId,
      ∃ e ∈ callables entities, nodeId e = x := fun x hx => mem_map_firstBy.mp hx
  intro edge he
  rcases List.mem_append.mp he with he | he
  · obtain ⟨c, -, -, child, -, -, -, hc, hchild, rfl⟩ := mem_containsEdges.mp he
    exact ⟨hdeclared _ hc, hdeclared _ hchild⟩
  · obtain ⟨e, -, -, hid, call, -, x, hx, -, rfl⟩ := mem_entryEdges.mp he
    exact ⟨hdeclared _ hid, hdeclared _ (mem_resolveIds.mp hx).1⟩

theorem nodeIds_build (hb : build lower entities = .ok g) :
    x ∈ g.nodeIds ↔ ∃ e ∈ callables entities, nodeId e = x := by
  rw [(declareAll_ok (fun _ => rfl) hb).2.1]
  exact mem_map_firstBy

theorem edges_build (hb : build lower entities = .ok g) : edge ∈ g.edges ↔
    edge ∈ containsEdges entities g.nodeIds ∨ edge ∈ entryEdges lower entities g.nodeIds := by
  obtain ⟨-, hids, hedges⟩ := declareAll_ok (fun _ => rfl) hb
  rw [hedges, hids, List.mem_append]

end

end Intelliqx.Graph.ControlFlow
