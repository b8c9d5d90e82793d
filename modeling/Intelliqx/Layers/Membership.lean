import Mathlib.Data.Finset.Max
import Intelliqx.Graph.Enclosing
import Intelliqx.Layers.ControlFlow
import Intelliqx.Layers.StateTransition

/-!
# Classes and their methods

Two layers join a class with its methods. A method names its class, and both
layers go by the name: CONTROL_FLOW joins it with every class of that name,
STATE_TRANSITION lines it up with the methods of all of them. The edges stay
within one class definition when no class of another file has the name that a
method goes by, and lifecycle methods that follow each other are of one
definition (`membership_iff`).
-/

namespace Intelliqx.Graph

open CallGraph (makeNodeId nodeId callables)
open Intelliqx.Graph.StateTransition (classes methods classMethods className isLifecycle isEvent visitedIds
  lifecycleEdge nextEdge)

-- ---------------------------------------------------------------------------
-- Class definitions
-- ---------------------------------------------------------------------------

/-- The method belongs to the class definition, the innermost one that may define it. -/
def Defines (entities : List ParsedEntity) (c m : ParsedEntity) : Prop :=
  m.entityType = "method" ∧ MayDefine c m ∧ ∀ c' ∈ entities, MayDefine c' m → c'.lineStart ≤ c.lineStart

/-- The id of a class definition or of one of its methods. -/
def Member (entities : List ParsedEntity) (c : ParsedEntity) (x : String) : Prop :=
  nodeId c = x ∨ ∃ m ∈ entities, Defines entities c m ∧ nodeId m = x

def SameDefinition (entities : List ParsedEntity) (x y : String) : Prop :=
  ∃ c ∈ entities, c.entityType = "class" ∧ Member entities c x ∧ Member entities c y

instance : Decidable (Defines entities c m) := inferInstanceAs (Decidable (_ ∧ _))
instance : Decidable (Member entities c x) := inferInstanceAs (Decidable (_ ∨ _))
instance : Decidable (SameDefinition entities x y) := inferInstanceAs (Decidable (∃ c ∈ entities, _))

-- ---------------------------------------------------------------------------
-- The transitions of the STATE_TRANSITION layer
-- ---------------------------------------------------------------------------

section
variable (lower : String → String) (entities : List ParsedEntity)

def lifecycleMethods (group : String × List ParsedEntity) : List ParsedEntity := group.2.filter (isLifecycle lower)

/-- The ids declared when these groups, and these methods of the next one, were visited. -/
def declaredAfter (front : List (String × List ParsedEntity)) (before : List ParsedEntity) : List String :=
  (classes entities).map nodeId ++ front.flatMap (visitedIds lower) ++ before.map nodeId

/-- When the turn of the lifecycle method comes, the id of its class is declared. -/
def Linked (name : String) (m : ParsedEntity) : Prop :=
  ∃ front group back, (classMethods entities).entries = front ++ group :: back ∧ group.1 = name ∧
    ∃ before m' after, lifecycleMethods lower group = before ++ m' :: after ∧ m' = m ∧
      makeNodeId m.filePath name ∈ declaredAfter lower entities front (before ++ [m])

/-- One after the other among the lifecycle methods that name a class. -/
def Consecutive (m m' : ParsedEntity) : Prop :=
  ∃ group ∈ (classMethods entities).entries,
    (m, m') ∈ (lifecycleMethods lower group).zip (lifecycleMethods lower group).tail

end

section
variable {lower : String → String} {entities : List ParsedEntity} {d : Draft} {edge : SGIREdge}

open Intelliqx.Graph.StateTransition

theorem mem_edges_visitLifecycle : edge ∈ (visitLifecycle name d m).edges ↔
    edge ∈ d.edges ∨
      makeNodeId m.filePath name ∈ (d.add (methodNode .method m)).nodeIds ∧ edge = lifecycleEdge name m := by
  rw [(adds_visitLifecycle name d m).mem_edges]
  split <;> simp [*]

theorem nodeIds_lifecycle (name : String) (ms : List ParsedEntity) (d : Draft) :
    x ∈ (ms.foldl (visitLifecycle name) d).nodeIds ↔ x ∈ d.nodeIds ∨ x ∈ ms.map nodeId := by
  have h := (Draft.Grows.foldl (l := ms) (fun d m _ => grows_visitLifecycle name d m) d).mem_nodeIds x
  rwa [← List.map_eq_flatMap] at h

theorem edgeType_eventEdges (h : edge ∈ eventEdges entities ids m) : edge.edgeType = .event := by
  obtain ⟨_, -, _, -, -, rfl⟩ := mem_eventEdges.mp h
  rfl

theorem mem_edges_events (hedge : edge.edgeType = .stateTransition) (ms : List ParsedEntity) (d : Draft) :
    edge ∈ (ms.foldl (visitEvent entities) d).edges ↔ edge ∈ d.edges := by
  have hstep : ∀ d m, edge ∈ (visitEvent entities d m).edges ↔ edge ∈ d.edges ∨ False := by
    intro d m
    rw [(adds_visitEvent entities d m).mem_edges]
    refine or_congr_right (iff_false_intro fun h => ?_)
    cases hedge.symm.trans (edgeType_eventEdges h)
  rw [Draft.mem_edges_foldl hstep]
  simp

theorem mem_nodeIds_nexts (pairs : List (ParsedEntity × ParsedEntity)) (d : Draft) :
    x ∈ (pairs.foldl linkNext d).nodeIds ↔ x ∈ d.nodeIds := by
  have h := (Draft.Grows.foldl (l := pairs) (fun d pair _ => grows_linkNext d pair) d).mem_nodeIds x
  rw [List.flatMap_eq_nil_iff.mpr fun _ _ => rfl] at h
  simpa using h

/-- Pairs of declared methods are all joined. -/
theorem mem_edges_nexts {pairs : List (ParsedEntity × ParsedEntity)}
    (hids : ∀ pair ∈ pairs, nodeId pair.1 ∈ d.nodeIds ∧ nodeId pair.2 ∈ d.nodeIds) :
    edge ∈ (pairs.foldl linkNext d).edges ↔ edge ∈ d.edges ∨ ∃ pair ∈ pairs, edge = nextEdge pair := by
  have hstep : ∀ d pair, edge ∈ (linkNext d pair).edges ↔
      edge ∈ d.edges ∨ (nodeId pair.1 ∈ d.nodeIds ∧ nodeId pair.2 ∈ d.nodeIds) ∧ edge = nextEdge pair := by
    intro d pair
    rw [(adds_linkNext d pair).mem_edges]
    split <;> simp [*]
  rw [Draft.mem_edges_foldl hstep]
  refine or_congr_right ⟨?_, ?_⟩
  · rintro ⟨before, pair, after, rfl, -, rfl⟩
    exact ⟨pair, by simp, rfl⟩
  · rintro ⟨pair, hpair, rfl⟩
    obtain ⟨before, after, rfl⟩ := List.append_of_mem hpair
    refine ⟨before, pair, after, rfl, ?_, rfl⟩
    rw [mem_nodeIds_nexts, mem_nodeIds_nexts]
    exact hids pair hpair

/-- What the visit of a class brings, event edges apart. -/
theorem mem_edges_visitClass (hedge : edge.edgeType = .stateTransition) (d : Draft)
    (group : String × List ParsedEntity) :
    edge ∈ (visitClass lower entities d group).edges ↔ edge ∈ d.edges ∨
      (∃ before m after, lifecycleMethods lower group = before ++ m :: after ∧
        (makeNodeId m.filePath group.1 ∈ d.nodeIds ∨
          makeNodeId m.filePath group.1 ∈ (before ++ [m]).map nodeId) ∧ edge = lifecycleEdge group.1 m) ∨
      ∃ pair ∈ (lifecycleMethods lower group).zip (lifecycleMethods lower group).tail, edge = nextEdge pair := by
  have hids : ∀ pair ∈ (lifecycleMethods lower group).zip (lifecycleMethods lower group).tail,
      nodeId pair.1 ∈ ((lifecycleMethods lower group).foldl (visitLifecycle group.1) d).nodeIds ∧
        nodeId pair.2 ∈ ((lifecycleMethods lower group).foldl (visitLifecycle group.1) d).nodeIds := by
    intro pair hpair
    obtain ⟨h₁, h₂⟩ := List.of_mem_zip hpair
    rw [nodeIds_lifecycle, nodeIds_lifecycle]
    exact ⟨.inr (List.mem_map_of_mem h₁), .inr (List.mem_map_of_mem (List.mem_of_mem_tail h₂))⟩
  have hlifecycle : ∀ before m, makeNodeId m.filePath group.1 ∈
      ((before.foldl (visitLifecycle group.1) d).add (methodNode .method m)).nodeIds ↔
        makeNodeId m.filePath group.1 ∈ d.nodeIds ∨
          makeNodeId m.filePath group.1 ∈ (before ++ [m]).map nodeId := by
    intro before m
    rw [Draft.mem_nodeIds_add, nodeIds_lifecycle, List.map_append, List.mem_append, or_assoc]
    exact or_congr_right (or_congr_right List.mem_singleton.symm)
  rw [visitClass, mem_edges_events hedge]
  refine (mem_edges_nexts hids).trans ?_
  rw [Draft.mem_edges_foldl fun d m => mem_edges_visitLifecycle, or_assoc]
  simp only [hlifecycle]

/-- The transitions of the layer. -/
theorem mem_transitions (hedge : edge.edgeType = .stateTransition) : edge ∈ (build lower entities).edges ↔
    (∃ name m, Linked lower entities name m ∧ edge = lifecycleEdge name m) ∨
      ∃ m m', Consecutive lower entities m m' ∧ edge = nextEdge (m, m') := by
  have hinherit : edge ∉ inheritEdges entities (build lower entities).nodeIds := by
    intro h
    obtain ⟨_, -, -, _, -, _, -, rfl⟩ := mem_inheritEdges.mp h
    cases hedge
  have hids : ∀ (front : List (String × List ParsedEntity)) x,
      x ∈ (front.foldl (visitClass lower entities) (declareClasses entities)).nodeIds ↔
        x ∈ (classes entities).map nodeId ++ front.flatMap (visitedIds lower) := by
    intro front x
    refine ((grows_visitClasses entities front (declareClasses entities)).mem_nodeIds x).trans ?_
    rw [List.mem_append, mem_declareClasses, List.mem_map]
  have hstart : edge ∉ (declareClasses entities).edges := by
    rw [adds_declareClasses.mem_edges]
    simp
  rw [edges_build, or_iff_left hinherit, visitClasses,
    Draft.mem_edges_foldl fun d group => mem_edges_visitClass hedge d group, or_iff_right hstart]
  simp only [hids]
  constructor
  · rintro ⟨front, group, back, hgroups, ⟨before, m, after, hsplit, hid, rfl⟩ | ⟨⟨m, m'⟩, hpair, rfl⟩⟩
    · refine .inl ⟨group.1, m, ⟨front, group, back, hgroups, rfl, before, m, after, hsplit, rfl, ?_⟩, rfl⟩
      exact List.mem_append.mpr hid
    · exact .inr ⟨m, m', ⟨group, hgroups ▸ by simp, hpair⟩, rfl⟩
  · rintro (⟨_, m, ⟨front, group, back, hgroups, rfl, before, _, after, hsplit, rfl, hid⟩, rfl⟩ |
      ⟨m, m', ⟨group, hgroup, hpair⟩, rfl⟩)
    · exact ⟨front, group, back, hgroups, .inl ⟨before, _, after, hsplit, List.mem_append.mp hid, rfl⟩⟩
    · obtain ⟨front, back, hgroups⟩ := List.append_of_mem hgroup
      exact ⟨front, group, back, hgroups, .inr ⟨(m, m'), hpair, rfl⟩⟩

end

-- ---------------------------------------------------------------------------
-- Edges within a class definition
-- ---------------------------------------------------------------------------

/-- The lifecycle methods that name the class, in the order of the entities. -/
def lifecycleOf (lower : String → String) (entities : List ParsedEntity) (name : String) : List ParsedEntity :=
  entities.filter fun m => m.entityType = "method" ∧ m.parent = some name ∧ isLifecycle lower m

/-- The class definition is of this name, or has a method of this name. -/
def Declares (entities : List ParsedEntity) (c : ParsedEntity) (name : String) : Prop :=
  c.name = name ∨ ∃ m ∈ entities, Defines entities c m ∧ m.name = name

/-- The name that a method has for its class is that of no class of another file, and the names of any two
lifecycle methods that come one after the other are of one definition in its file. -/
structure NamesakesApart (lower : String → String) (entities : List ParsedEntity) : Prop where
  files : ∀ c ∈ entities, ∀ m ∈ entities, c.entityType = "class" → m.entityType = "method" →
    m.parent = some c.name → c.filePath = m.filePath
  definitions : ∀ name ≠ "", ∀ pair ∈ (lifecycleOf lower entities name).zip (lifecycleOf lower entities name).tail,
    ∃ c ∈ entities, c.entityType = "class" ∧ c.filePath = pair.1.filePath ∧
      Declares entities c pair.1.name ∧ Declares entities c pair.2.name

/-- What the parser makes sure of (`mayDefine_of_mem_parsedEntities`, `colons_of_mem_parsedEntities`). -/
structure Parsed (entities : List ParsedEntity) : Prop where
  colons : ∀ e ∈ entities, ':' ∉ e.name.toList
  classes : ∀ m ∈ entities, m.entityType = "method" → ∃ c ∈ entities, MayDefine c m

theorem parsed_parsedEntities {files : List PythonParser.SourceFile}
    (hplaced : ∀ f ∈ files, PythonParser.PlacedAll none f.tree) : Parsed (PythonParser.parsedEntities files) where
  colons _ he := (PythonParser.colons_of_mem_parsedEntities he).2
  classes _ hm := PythonParser.mayDefine_of_mem_parsedEntities hplaced hm

section
variable {lower : String → String} {entities : List ParsedEntity}

/-- Of the definitions around a method one is innermost. -/
theorem Parsed.defines (h : Parsed entities) (hm : m ∈ entities) (hmethod : m.entityType = "method") :
    ∃ c ∈ entities, Defines entities c m := by
  obtain ⟨c₀, hc₀, hmay₀⟩ := h.classes m hm hmethod
  have hmem : ∀ c, c ∈ (entities.filter fun c => MayDefine c m).toFinset ↔ c ∈ entities ∧ MayDefine c m := by
    simp
  obtain ⟨c, hc, hmax⟩ := (entities.filter fun c => MayDefine c m).toFinset.exists_max_image
    ParsedEntity.lineStart ⟨c₀, (hmem c₀).mpr ⟨hc₀, hmay₀⟩⟩
  obtain ⟨hc, hmay⟩ := (hmem c).mp hc
  exact ⟨c, hc, hmethod, hmay, fun c' hc' hmay' => hmax c' ((hmem c').mpr ⟨hc', hmay'⟩)⟩

/-- The members of a definition are of its file. -/
theorem Parsed.member_iff (h : Parsed entities) (hc : c ∈ entities) (hname : ':' ∉ name.toList) :
    Member entities c (makeNodeId filePath name) ↔ c.filePath = filePath ∧ Declares entities c name := by
  constructor
  · rintro (hid | ⟨m, hm, hdefines, hid⟩)
    · obtain ⟨hfile, hc⟩ := CallGraph.makeNodeId_inj (h.colons c hc) hname hid
      exact ⟨hfile, .inl hc⟩
    · obtain ⟨hfile, hm'⟩ := CallGraph.makeNodeId_inj (h.colons m hm) hname hid
      exact ⟨hdefines.2.1.2.1.trans hfile, .inr ⟨m, hm, hdefines, hm'⟩⟩
  · rintro ⟨rfl, rfl | ⟨m, hm, hdefines, rfl⟩⟩
    · exact .inl rfl
    · exact .inr ⟨m, hm, hdefines, congrArg (makeNodeId · m.name) hdefines.2.1.2.1.symm⟩

theorem Parsed.sameDefinition_iff (h : Parsed entities) (hname : ':' ∉ name.toList) (hname' : ':' ∉ name'.toList) :
    SameDefinition entities (makeNodeId filePath name) (makeNodeId filePath' name') ↔
      filePath = filePath' ∧ ∃ c ∈ entities, c.entityType = "class" ∧ c.filePath = filePath ∧
        Declares entities c name ∧ Declares entities c name' := by
  constructor
  · rintro ⟨c, hc, hclass, hx, hy⟩
    obtain ⟨hfile, hx⟩ := (h.member_iff hc hname).mp hx
    obtain ⟨hfile', hy⟩ := (h.member_iff hc hname').mp hy
    exact ⟨hfile.symm.trans hfile', c, hc, hclass, hfile, hx, hy⟩
  · rintro ⟨rfl, c, hc, hclass, hfile, hx, hy⟩
    exact ⟨c, hc, hclass, (h.member_iff hc hname).mpr ⟨hfile, hx⟩, (h.member_iff hc hname').mpr ⟨hfile, hy⟩⟩

/-- A method and the class it names, in its own file. -/
theorem Parsed.sameDefinition_parent (h : Parsed entities) (hm : m ∈ entities) (hmethod : m.entityType = "method")
    (hparent : m.parent = some name) : SameDefinition entities (makeNodeId m.filePath name) (nodeId m) := by
  obtain ⟨c, hc, hdefines⟩ := h.defines hm hmethod
  obtain ⟨hclass, hfile, hc', -⟩ := hdefines.2.1
  obtain rfl : c.name = name := Option.some.inj (hc'.symm.trans hparent)
  exact ⟨c, hc, hclass, .inl (congrArg (makeNodeId · c.name) hfile), .inr ⟨m, hm, hdefines, rfl⟩⟩

theorem mem_methods : m ∈ methods entities ↔
    m ∈ entities ∧ m.entityType = "method" ∧ ∃ name ≠ "", m.parent = some name := by
  rw [methods, List.mem_filter, decide_eq_true_iff]
  cases m.parent <;> simp [Py.truthy]

/-- What the layer groups under a name. -/
theorem lifecycleMethods_eq (lower : String → String) {group : String × List ParsedEntity}
    (hgroup : group ∈ (classMethods entities).entries) :
    group.1 ≠ "" ∧ lifecycleMethods lower group = lifecycleOf lower entities group.1 := by
  have hname : group.1 ≠ "" := by
    obtain ⟨m, hm, hclass⟩ := Dict.mem_keys_group.mp (List.mem_map_of_mem hgroup)
    obtain ⟨-, -, name, hname, hparent⟩ := mem_methods.mp hm
    rwa [← hclass, className, hparent]
  refine ⟨hname, ?_⟩
  rw [lifecycleMethods, Dict.mem_entries_group hgroup, List.map_id, methods, List.filter_filter, List.filter_filter,
    lifecycleOf]
  refine List.filter_congr fun m _ => ?_
  cases hparent : m.parent with
  | none => simp [Py.truthy]
  | some parent =>
    by_cases heq : parent = group.1
    · subst heq
      simp [className, hparent, Py.truthy, hname, Bool.and_comm]
    · simp [className, hparent, heq]

theorem consecutive_iff : Consecutive lower entities m m' ↔ ∃ name ≠ "",
    (m, m') ∈ (lifecycleOf lower entities name).zip (lifecycleOf lower entities name).tail := by
  constructor
  · rintro ⟨group, hgroup, hpair⟩
    obtain ⟨hname, heq⟩ := lifecycleMethods_eq lower hgroup
    exact ⟨group.1, hname, heq ▸ hpair⟩
  · rintro ⟨name, hname, hpair⟩
    obtain ⟨hm, hmethod, hparent, -⟩ := by simpa [lifecycleOf] using (List.of_mem_zip hpair).1
    obtain ⟨ms, hgroup, -⟩ : ∃ ms, (className m, ms) ∈ (classMethods entities).entries ∧ m ∈ ms :=
      Dict.exists_mem_entries_group (mem_methods.mpr ⟨hm, hmethod, name, hname, hparent⟩)
    have hclass : className m = name := congrArg (Option.getD · "") hparent
    refine ⟨(className m, ms), hgroup, ?_⟩
    rw [(lifecycleMethods_eq lower hgroup).2, hclass]
    exact hpair

/-- A method whose class is taken up has that class, in its file, as its parent. -/
theorem Linked.parent (h : Linked lower entities name m) :
    m ∈ entities ∧ m.entityType = "method" ∧ m.parent = some name := by
  obtain ⟨front, group, back, hgroups, rfl, before, m, after, hsplit, rfl, -⟩ := h
  have hm : m ∈ lifecycleMethods lower group := hsplit ▸ List.mem_append_right _ List.mem_cons_self
  rw [(lifecycleMethods_eq lower (hgroups ▸ List.mem_append_right _ List.mem_cons_self)).2] at hm
  obtain ⟨hm, hmethod, hparent, -⟩ := by simpa [lifecycleOf] using hm
  exact ⟨hm, hmethod, hparent⟩

theorem NamesakesApart.consecutive (h : NamesakesApart lower entities) (hparsed : Parsed entities)
    (hnext : Consecutive lower entities m m') : SameDefinition entities (nodeId m) (nodeId m') := by
  obtain ⟨name, hname, hpair⟩ := consecutive_iff.mp hnext
  obtain ⟨hm, hmethod, hparent, -⟩ := by simpa [lifecycleOf] using (List.of_mem_zip hpair).1
  obtain ⟨hm', hmethod', hparent', -⟩ := by simpa [lifecycleOf] using List.mem_of_mem_tail (List.of_mem_zip hpair).2
  -- both are in the file of the class around the second
  obtain ⟨c, hc, -, ⟨hclass, hfile, hc', -⟩, -⟩ := hparsed.defines hm' hmethod'
  have hsame : c.name = name := Option.some.inj (hc'.symm.trans hparent')
  have hfiles : c.filePath = m.filePath := h.files c hc m hm hclass hmethod (hsame ▸ hparent)
  exact (hparsed.sameDefinition_iff (hparsed.colons m hm) (hparsed.colons m' hm')).mpr
    ⟨hfiles.symm.trans hfile, h.definitions name hname _ hpair⟩

end

/-- The layers keep to class definitions exactly when namesakes are apart. -/
theorem membership_iff (lower : String → String) (entities : List ParsedEntity) (hparsed : Parsed entities)
    {control : SGIRGraph} (hcontrol : ControlFlow.build lower entities = .ok control) :
    ((∀ edge ∈ control.edges, edge ∈ ControlFlow.containsEdges entities control.nodeIds →
        SameDefinition entities edge.source edge.target) ∧
      ∀ edge ∈ (StateTransition.build lower entities).edges, edge.edgeType = .stateTransition →
        SameDefinition entities edge.source edge.target) ↔
      NamesakesApart lower entities := by
  have hdeclared : ∀ e ∈ entities, e.entityType = "class" ∨ e.entityType = "method" → nodeId e ∈ control.nodeIds := by
    intro e he htype
    refine (ControlFlow.nodeIds_build hcontrol).mpr ⟨e, List.mem_filter.mpr ⟨he, ?_⟩, rfl⟩
    rcases htype with htype | htype <;> rw [htype] <;> decide
  constructor
  · rintro ⟨hcontains, htransitions⟩
    constructor
    · intro c hc m hm hclass hmethod hparent
      have hmem : _ ∈ ControlFlow.containsEdges entities control.nodeIds :=
        ControlFlow.mem_containsEdges.mpr ⟨c, hc, hclass, m, hm, hparent, hmethod,
          hdeclared c hc (.inl hclass), hdeclared m hm (.inr hmethod), rfl⟩
      have hsame := hcontains _ ((ControlFlow.edges_build hcontrol).mpr (.inl hmem)) hmem
      exact ((hparsed.sameDefinition_iff (hparsed.colons c hc) (hparsed.colons m hm)).mp hsame).1
    · rintro name hname ⟨m, m'⟩ hpair
      obtain ⟨hm, -⟩ := by simpa [lifecycleOf] using (List.of_mem_zip hpair).1
      obtain ⟨hm', -⟩ := by simpa [lifecycleOf] using List.mem_of_mem_tail (List.of_mem_zip hpair).2
      have hnext := consecutive_iff.mpr ⟨name, hname, hpair⟩
      have hsame := htransitions (nextEdge (m, m')) ((mem_transitions rfl).mpr (.inr ⟨m, m', hnext, rfl⟩)) rfl
      exact ((hparsed.sameDefinition_iff (hparsed.colons m hm) (hparsed.colons m' hm')).mp hsame).2
  · intro h
    constructor
    · intro edge _ hmem
      obtain ⟨c, hc, hclass, m, hm, hparent, hmethod, -, -, rfl⟩ := ControlFlow.mem_containsEdges.mp hmem
      have hid : nodeId c = makeNodeId m.filePath c.name :=
        congrArg (makeNodeId · c.name) (h.files c hc m hm hclass hmethod hparent)
      exact hid ▸ hparsed.sameDefinition_parent hm hmethod hparent
    · intro edge he htype
      rcases (mem_transitions htype).mp he with ⟨name, m, hlinked, rfl⟩ | ⟨m, m', hnext, rfl⟩
      · obtain ⟨hm, hmethod, hparent⟩ := hlinked.parent
        exact hparsed.sameDefinition_parent hm hmethod hparent
      · exact h.consecutive hparsed hnext

def classIn (filePath name : String) : ParsedEntity where
  name := name
  entityType := "class"
  filePath := filePath
  lineStart := 1
  lineEnd := 9
  language := "python"

def methodIn (filePath parent name : String) : ParsedEntity where
  name := name
  entityType := "method"
  filePath := filePath
  lineStart := 2
  lineEnd := 5
  language := "python"
  parent := some parent

def oneJob : List ParsedEntity :=
  [classIn "a.py" "Job", methodIn "a.py" "Job" "setup", methodIn "a.py" "Job" "teardown"]

theorem parsed_oneJob : Parsed oneJob := ⟨by decide +kernel, by decide +kernel⟩

theorem membership_oneJob : NamesakesApart id oneJob :=
  (membership_iff id oneJob parsed_oneJob rfl).mp ⟨by decide +kernel, by decide +kernel⟩

/-- Two files with a class `Job`; the method of the one is contained in the other. -/
def twoJobs : List ParsedEntity :=
  [classIn "a.py" "Job", methodIn "a.py" "Job" "setup", classIn "b.py" "Job", methodIn "b.py" "Job" "teardown"]

theorem parsed_twoJobs : Parsed twoJobs := ⟨by decide +kernel, by decide +kernel⟩

theorem jobs_mixed : Parsed twoJobs ∧ ∃ control, ControlFlow.build id twoJobs = .ok control ∧
    (∃ edge ∈ control.edges, edge ∈ ControlFlow.containsEdges twoJobs control.nodeIds ∧
      edge.source = "a.py::Job" ∧ edge.target = "b.py::teardown" ∧
        ¬ SameDefinition twoJobs edge.source edge.target) ∧
    ∃ edge ∈ (StateTransition.build id twoJobs).edges, edge.edgeType = .stateTransition ∧
      edge.source = "a.py::setup" ∧ edge.target = "b.py::teardown" ∧
        ¬ SameDefinition twoJobs edge.source edge.target := by
  refine ⟨parsed_twoJobs, _, rfl, ?_, ?_⟩
  · decide +kernel
  · decide +kernel

end Intelliqx.Graph
