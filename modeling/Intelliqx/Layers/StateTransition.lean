import Intelliqx.Layers.Draft

/-!
# The STATE_TRANSITION layer

`StateTransitionBuilder.build`: classes with their lifecycle and event
methods, the transitions between these, and inheritance. The classes are
declared first; the methods follow class by class, so what a call of an event
handler finds depends on the classes before it.
-/

namespace Intelliqx.Graph.StateTransition

open CallGraph (makeNodeId nodeId)

def lifecycleDecorators : List String :=
  ["init", "__init__", "__post_init__", "__enter__", "__exit__", "__del__", "__new__", "setup",
    "teardown", "before_connect", "after_connect", "on_startup", "on_shutdown"]

def eventDecorators : List String :=
  ["on", "event", "handler", "listener", "subscribe", "signal", "callback"]

def classes (entities : List ParsedEntity) : List ParsedEntity :=
  entities.filter fun e => e.entityType = "class"

/-- The methods that name a class. -/
def methods (entities : List ParsedEntity) : List ParsedEntity :=
  entities.filter fun e => e.entityType = "method" ∧ (Py.truthy e.parent).isSome

def className (m : ParsedEntity) : String := m.parent.getD ""

def classMethods (entities : List ParsedEntity) : Dict String (List ParsedEntity) :=
  Dict.group className id (methods entities)

def classNode (e : ParsedEntity) : SGIRNode :=
  { SGIRNode.ofEntity e .class with preconditions := e.bases }

def declareClasses (entities : List ParsedEntity) : Draft :=
  (classes entities).foldl (fun d e => d.add (classNode e)) .empty

def methodNode (nodeType : NodeType) (m : ParsedEntity) : SGIRNode :=
  { SGIRNode.ofEntity m nodeType with
    inputs := m.parameters
    outputs := (Py.truthy m.returnType).toList }

def lifecycleEdge (name : String) (m : ParsedEntity) : SGIREdge where
  source := makeNodeId m.filePath name
  target := nodeId m
  edgeType := .stateTransition
  label := m.name

def visitLifecycle (name : String) (d : Draft) (m : ParsedEntity) : Draft :=
  let d := d.add (methodNode .method m)
  if makeNodeId m.filePath name ∈ d.nodeIds then d.link (lifecycleEdge name m) else d

def nextEdge (pair : ParsedEntity × ParsedEntity) : SGIREdge where
  source := nodeId pair.1
  target := nodeId pair.2
  edgeType := .stateTransition
  label := "next"

def linkNext (d : Draft) (pair : ParsedEntity × ParsedEntity) : Draft :=
  if nodeId pair.1 ∈ d.nodeIds ∧ nodeId pair.2 ∈ d.nodeIds then d.link (nextEdge pair) else d

def eventEdges (entities : List ParsedEntity) (nodeIds : List String) (m : ParsedEntity) :
    List SGIREdge :=
  m.calls.flatMap fun called =>
    ((resolveIds called entities nodeIds).filter fun target => target ≠ nodeId m).map fun target =>
      { source := nodeId m, target, edgeType := .event, label := called }

def visitEvent (entities : List ParsedEntity) (d : Draft) (m : ParsedEntity) : Draft :=
  let d := d.add (methodNode .eventHandler m)
  d.linkAll (eventEdges entities d.nodeIds m)

def findClassId (name : String) (entities : List ParsedEntity) (nodeIds : List String) :
    Option String :=
  (entities.find? fun e => e.entityType = "class" ∧ e.name = name ∧ nodeId e ∈ nodeIds).map nodeId

def inheritEdges (entities : List ParsedEntity) (nodeIds : List String) : List SGIREdge :=
  (classes entities).flatMap fun e => e.bases.filterMap fun base =>
    match Py.truthy (findClassId base entities nodeIds) with
    | some baseId =>
      if nodeId e ∈ nodeIds then
        some { source := nodeId e, target := baseId, edgeType := .inherit, label := base }
      else none
    | none => none

section
variable (lower : String → String)

def isLifecycle (m : ParsedEntity) : Bool :=
  decide (m.name ∈ lifecycleDecorators) ||
    m.decorators.any fun decorator => lower decorator ∈ lifecycleDecorators

/-- Lifecycle comes first: a method is not both. -/
def isEvent (m : ParsedEntity) : Bool :=
  !isLifecycle lower m && (decide (m.name ∈ eventDecorators) ||
    m.decorators.any fun decorator => lower decorator ∈ eventDecorators)

def visitClass (entities : List ParsedEntity) (d : Draft) (group : String × List ParsedEntity) :
    Draft :=
  let lifecycleMethods := group.2.filter (isLifecycle lower)
  let d := lifecycleMethods.foldl (visitLifecycle group.1) d
  let d := (lifecycleMethods.zip lifecycleMethods.tail).foldl linkNext d
  (group.2.filter (isEvent lower)).foldl (visitEvent entities) d

def visitClasses (entities : List ParsedEntity) (groups : List (String × List ParsedEntity))
    (d : Draft) : Draft :=
  groups.foldl (visitClass lower entities) d

def build (entities : List ParsedEntity) : SGIRGraph :=
  let d := visitClasses lower entities (classMethods entities).entries (declareClasses entities)
  (d.linkAll (inheritEdges entities d.nodeIds)).graph .stateTransition

end

-- ---------------------------------------------------------------------------
-- What each step brings
-- ---------------------------------------------------------------------------

section
variable {lower : String → String} {entities : List ParsedEntity} {d : Draft} {m : ParsedEntity}

theorem adds_visitLifecycle (name : String) (d : Draft) (m : ParsedEntity) :
    Draft.Adds d (visitLifecycle name d m) [nodeId m]
      (if makeNodeId m.filePath name ∈ (d.add (methodNode .method m)).nodeIds then [lifecycleEdge name m]
      else []) := by
  have hadd := Draft.adds_add d (methodNode .method m)
  unfold visitLifecycle
  split
  · rw [if_pos ‹_›]
    exact hadd.trans (Draft.adds_link _ (lifecycleEdge name m))
  · rw [if_neg ‹_›]
    exact hadd

theorem adds_linkNext (d : Draft) (pair : ParsedEntity × ParsedEntity) : Draft.Adds d (linkNext d pair) []
    (if nodeId pair.1 ∈ d.nodeIds ∧ nodeId pair.2 ∈ d.nodeIds then [nextEdge pair] else []) := by
  unfold linkNext
  split
  · exact Draft.adds_link d (nextEdge pair)
  · exact .refl d

theorem adds_visitEvent (entities : List ParsedEntity) (d : Draft) (m : ParsedEntity) :
    Draft.Adds d (visitEvent entities d m) [nodeId m]
      (eventEdges entities (d.add (methodNode .eventHandler m)).nodeIds m) :=
  (Draft.adds_add d (methodNode .eventHandler m)).trans (Draft.adds_linkAll _ _)

theorem mem_eventEdges : edge ∈ eventEdges entities ids m ↔ ∃ called ∈ m.calls,
    ∃ target ∈ resolveIds called entities ids, target ≠ nodeId m ∧
      edge = { source := nodeId m, target, edgeType := .event, label := called } := by
  simp only [eventEdges, List.mem_flatMap, List.mem_map, List.mem_filter, decide_eq_true_eq]
  constructor
  · rintro ⟨called, hc, x, ⟨hx, hne⟩, rfl⟩
    exact ⟨called, hc, x, hx, hne, rfl⟩
  · rintro ⟨called, hc, x, hx, hne, rfl⟩
    exact ⟨called, hc, x, ⟨hx, hne⟩, rfl⟩

theorem grows_visitLifecycle (name : String) (d : Draft) (m : ParsedEntity) :
    Draft.Grows d (visitLifecycle name d m) [nodeId m] := by
  have hstep := adds_visitLifecycle name d m
  refine hstep.grows ?_
  intro edge hedge
  split at hedge
  · rename_i hsource
    obtain rfl := List.mem_singleton.mp hedge
    rw [hstep.mem_nodeIds, hstep.mem_nodeIds]
    exact ⟨(Draft.mem_nodeIds_add.mp hsource).imp id fun h => List.mem_singleton.mpr h, .inr (by simp [lifecycleEdge])⟩
  · cases hedge

theorem grows_linkNext (d : Draft) (pair : ParsedEntity × ParsedEntity) :
    Draft.Grows d (linkNext d pair) [] := by
  have hstep := adds_linkNext d pair
  refine hstep.grows ?_
  intro edge hedge
  split at hedge
  · rename_i hends
    obtain rfl := List.mem_singleton.mp hedge
    rw [hstep.mem_nodeIds, hstep.mem_nodeIds]
    exact ⟨.inl hends.1, .inl hends.2⟩
  · cases hedge

theorem grows_visitEvent (entities : List ParsedEntity) (d : Draft) (m : ParsedEntity) :
    Draft.Grows d (visitEvent entities d m) [nodeId m] := by
  refine (adds_visitEvent entities d m).grows ?_
  intro edge hedge
  obtain ⟨called, -, x, hx, -, rfl⟩ := mem_eventEdges.mp hedge
  exact ⟨Draft.mem_nodeIds_add.mpr (.inr rfl), (mem_resolveIds.mp hx).1⟩

def visitedIds (lower : String → String) (group : String × List ParsedEntity) : List String :=
  (group.2.filter (isLifecycle lower) ++ group.2.filter (isEvent lower)).map nodeId

theorem grows_visitClass (entities : List ParsedEntity) (d : Draft)
    (group : String × List ParsedEntity) :
    Draft.Grows d (visitClass lower entities d group) (visitedIds lower group) := by
  have hlifecycle := Draft.Grows.foldl (l := group.2.filter (isLifecycle lower))
    (fun d m _ => grows_visitLifecycle group.1 d m) d
  have hnext : ∀ (pairs : List (ParsedEntity × ParsedEntity)) d,
      Draft.Grows d (pairs.foldl linkNext d) [] := by
    intro pairs d
    have h := Draft.Grows.foldl (l := pairs) (fun d pair _ => grows_linkNext d pair) d
    rwa [List.flatMap_eq_nil_iff.mpr fun _ _ => rfl] at h
  have hevent := fun d => Draft.Grows.foldl (l := group.2.filter (isEvent lower))
    (fun d m _ => grows_visitEvent entities d m) d
  have hall : Draft.Grows d (visitClass lower entities d group) _ :=
    (hlifecycle.trans (hnext _ _)).trans (hevent _)
  rwa [List.append_nil, ← List.map_eq_flatMap, ← List.map_eq_flatMap, ← List.map_append] at hall

theorem grows_visitClasses (entities : List ParsedEntity) (groups : List (String × List ParsedEntity))
    (d : Draft) :
    Draft.Grows d (visitClasses lower entities groups d) (groups.flatMap (visitedIds lower)) :=
  Draft.Grows.foldl (fun d group _ => grows_visitClass entities d group) d

theorem adds_declareClasses :
    Draft.Adds .empty (declareClasses entities) ((classes entities).map nodeId) [] := by
  have h := Draft.Adds.foldl id (l := classes entities)
    (fun d e _ => Draft.adds_add d (classNode e)) Draft.empty
  rwa [← List.map_eq_flatMap, List.flatMap_eq_nil_iff.mpr fun _ _ => rfl] at h

theorem findClassId_mem (h : findClassId name entities ids = some x) : x ∈ ids := by
  obtain ⟨e, he, rfl⟩ := Option.map_eq_some_iff.mp h
  have hp := List.find?_some he
  simp only [decide_eq_true_eq] at hp
  exact hp.2.2

theorem mem_inheritEdges : edge ∈ inheritEdges entities ids ↔ ∃ e ∈ classes entities, nodeId e ∈ ids ∧
    ∃ base ∈ e.bases, ∃ baseId, Py.truthy (findClassId base entities ids) = some baseId ∧
      edge = { source := nodeId e, target := baseId, edgeType := .inherit, label := base } := by
  simp only [inheritEdges, List.mem_flatMap, List.mem_filterMap]
  constructor
  · rintro ⟨e, he, base, hb, hedge⟩
    split at hedge
    · rename_i baseId hfound
      split at hedge
      · cases hedge
        exact ⟨e, he, ‹_›, base, hb, baseId, hfound, rfl⟩
      · cases hedge
    · cases hedge
  · rintro ⟨e, he, hid, base, hb, baseId, hfound, rfl⟩
    exact ⟨e, he, base, hb, by simp [hfound, hid]⟩

theorem wellFormed : (build lower entities).WellFormed := by
  have hclasses : (declareClasses entities).Closed :=
    adds_declareClasses.closed Draft.closed_empty (fun _ h => nomatch h)
  apply Draft.Closed.wellFormed
  refine (Draft.adds_linkAll _ _).closed ((grows_visitClasses entities _ _).closed hclasses) ?_
  intro edge hedge
  obtain ⟨e, -, hid, base, -, baseId, hfound, rfl⟩ := mem_inheritEdges.mp hedge
  exact ⟨hid, findClassId_mem (Option.filter_eq_some_iff.mp hfound).1⟩

-- ---------------------------------------------------------------------------
-- The ids of the layer
-- ---------------------------------------------------------------------------

theorem mem_declareClasses :
    x ∈ (declareClasses entities).nodeIds ↔ ∃ e ∈ classes entities, nodeId e = x := by
  rw [adds_declareClasses.mem_nodeIds]
  simp

theorem mem_group {group : String × List ParsedEntity} (h : group ∈ (classMethods entities).entries) :
    m ∈ group.2 ↔ m ∈ methods entities ∧ className m = group.1 := by
  rw [Dict.mem_entries_group h]
  simp

theorem mem_visitedIds : x ∈ (classMethods entities).entries.flatMap (visitedIds lower) ↔
    ∃ m ∈ methods entities, (isLifecycle lower m = true ∨ isEvent lower m = true) ∧ nodeId m = x := by
  simp only [List.mem_flatMap, visitedIds, List.mem_map, List.mem_append, List.mem_filter,
    ← and_or_left]
  constructor
  · rintro ⟨group, hg, m, ⟨hm, hkind⟩, hid⟩
    exact ⟨m, ((mem_group hg).mp hm).1, hkind, hid⟩
  · rintro ⟨m, hm, hkind, hid⟩
    obtain ⟨ms, hg, hmem⟩ : ∃ ms, (className m, ms) ∈ (classMethods entities).entries ∧ m ∈ ms :=
      Dict.exists_mem_entries_group hm
    exact ⟨_, hg, m, ⟨hmem, hkind⟩, hid⟩

theorem nodeIds_build : x ∈ (build lower entities).nodeIds ↔ (∃ e ∈ classes entities, nodeId e = x) ∨
    ∃ m ∈ methods entities, (isLifecycle lower m = true ∨ isEvent lower m = true) ∧ nodeId m = x := by
  rw [build, Draft.nodeIds_graph, Draft.nodeIds_linkAll, (grows_visitClasses entities _ _).mem_nodeIds,
    mem_declareClasses, mem_visitedIds]

theorem edges_build : edge ∈ (build lower entities).edges ↔
    edge ∈ (visitClasses lower entities (classMethods entities).entries (declareClasses entities)).edges ∨
    edge ∈ inheritEdges entities (build lower entities).nodeIds := by
  simp [build]

end

end Intelliqx.Graph.StateTransition
