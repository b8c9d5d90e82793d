import Intelliqx.Layers.Draft

/-!
# The DATA_FLOW layer

`DataFlowBuilder.build`: functions and methods, and an edge to every declared
function whose name one of them refers to.
-/

namespace Intelliqx.Graph.DataFlow

open CallGraph (nodeId)

def node (e : ParsedEntity) : SGIRNode :=
  { SGIRNode.ofEntity e (functionType e) with
    inputs := e.parameters
    outputs := (Py.truthy e.returnType).toList }

def nameToIds (entities : List ParsedEntity) : Dict String (List String) :=
  Dict.group ParsedEntity.name nodeId (firstBy nodeId (functions entities))

def dataEdges (nameToIds : Dict String (List String)) (e : ParsedEntity) : List SGIREdge :=
  e.references.flatMap fun ref =>
    (((nameToIds.get? ref).getD []).filter fun target => target ≠ nodeId e).map fun target =>
      { source := nodeId e, target, edgeType := .data, label := ref }

def build (entities : List ParsedEntity) : Except ValidationError SGIRGraph :=
  declareAll .dataFlow (functions entities) node
    ((functions entities).flatMap (dataEdges (nameToIds entities)))

section
variable {entities : List ParsedEntity} {g : SGIRGraph} {edge : SGIREdge}

theorem mem_dataEdges : edge ∈ (functions entities).flatMap (dataEdges (nameToIds entities)) ↔
    ∃ e ∈ functions entities, ∃ t ∈ firstBy nodeId (functions entities),
      t.name ∈ e.references ∧ nodeId t ≠ nodeId e ∧
      edge = { source := nodeId e, target := nodeId t, edgeType := .data, label := t.name } := by
  simp only [List.mem_flatMap, dataEdges, nameToIds, Dict.getD_group, List.mem_map, List.mem_filter,
    decide_eq_true_eq]
  constructor
  · rintro ⟨e, he, ref, href, x, ⟨⟨t, ⟨ht, rfl⟩, rfl⟩, hx⟩, rfl⟩
    exact ⟨e, he, t, ht, href, hx, rfl⟩
  · rintro ⟨e, he, t, ht, href, hx, rfl⟩
    exact ⟨e, he, t.name, href, nodeId t, ⟨⟨t, ⟨ht, rfl⟩, rfl⟩, hx⟩, rfl⟩

theorem wellFormed (hb : build entities = .ok g) : g.WellFormed := by
  refine declareAll_wellFormed (fun _ => rfl) hb ?_
  intro edge hedge
  obtain ⟨e, he, t, ht, -, -, rfl⟩ := mem_dataEdges.mp hedge
  exact ⟨⟨e, he, rfl⟩, ⟨t, mem_of_mem_firstBy ht, rfl⟩⟩

theorem nodeIds_build (hb : build entities = .ok g) :
    x ∈ g.nodeIds ↔ ∃ e ∈ functions entities, nodeId e = x := by
  rw [(declareAll_ok (fun _ => rfl) hb).2.1]
  exact mem_map_firstBy

/-- Where an id has one name, it does not matter which function has it first. -/
theorem edges_build (hread : ∀ e ∈ functions entities, ∀ e' ∈ functions entities,
      nodeId e = nodeId e' → e.name = e'.name) (hb : build entities = .ok g) :
    edge ∈ g.edges ↔ ∃ e ∈ functions entities, ∃ t ∈ functions entities,
      t.name ∈ e.references ∧ nodeId t ≠ nodeId e ∧
      edge = { source := nodeId e, target := nodeId t, edgeType := .data, label := t.name } := by
  rw [(declareAll_ok (fun _ => rfl) hb).2.2, mem_dataEdges]
  constructor
  · rintro ⟨e, he, t, ht, h⟩
    exact ⟨e, he, t, mem_of_mem_firstBy ht, h⟩
  · rintro ⟨e, he, t, ht, h⟩
    obtain ⟨t', ht', hid⟩ := exists_mem_firstBy nodeId ht
    have hname := hread t' (mem_of_mem_firstBy ht') t ht hid
    exact ⟨e, he, t', ht', by rwa [hid, hname]⟩

end

end Intelliqx.Graph.DataFlow
