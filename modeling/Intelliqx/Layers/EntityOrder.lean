import Intelliqx.Layers.Registry

/-!
# Entity lists with the same members

Such lists give the same nodes in every layer but RESOURCE, and the same edges
in every layer but RESOURCE and the two that resolve a name to the first entity
that has it, CALL and STATE_TRANSITION. For these two the name must read as one
id.
-/

namespace Intelliqx.Graph

open CallGraph (makeNodeId nodeId callables)

-- ---------------------------------------------------------------------------
-- Entity lists with the same members
-- ---------------------------------------------------------------------------

section
variable {entities entities' : List ParsedEntity} (h : ∀ e, e ∈ entities ↔ e ∈ entities')
  {lower : String → String} {order : SecurityGraph.PatternOrder}
  {repository : Option RepositoryMetadata} {g g' : SGIRGraph}
include h

theorem functions_congr (e : ParsedEntity) : e ∈ functions entities ↔ e ∈ functions entities' := by
  simp only [functions, List.mem_filter, h]

theorem callables_congr (e : ParsedEntity) : e ∈ callables entities ↔ e ∈ callables entities' := by
  simp only [callables, List.mem_filter, h]

theorem resolveIds_congr {ids ids' : List String} (hids : ∀ x, x ∈ ids ↔ x ∈ ids') (x : String) :
    x ∈ resolveIds name entities ids ↔ x ∈ resolveIds name entities' ids' := by
  simp only [mem_resolveIds, h, hids]

theorem CallGraph.sameNodeIds (hb : build entities = .ok g) (hb' : build entities' = .ok g') :
    g.SameNodeIds g' := by
  intro x
  rw [nodeIds_build hb, nodeIds_build hb', declared, declared, mem_map_firstBy, mem_map_firstBy]
  simp only [callables_congr h]

theorem DataFlow.sameNodeIds (hb : build entities = .ok g) (hb' : build entities' = .ok g') :
    g.SameNodeIds g' := by
  intro x
  simp only [nodeIds_build hb, nodeIds_build hb', functions_congr h]

theorem DataFlow.sameEdges (hread : ∀ e ∈ functions entities, ∀ e' ∈ functions entities,
      nodeId e = nodeId e' → e.name = e'.name)
    (hb : build entities = .ok g) (hb' : build entities' = .ok g') : g.SameEdges g' := by
  have hread' : ∀ e ∈ functions entities', ∀ e' ∈ functions entities',
      nodeId e = nodeId e' → e.name = e'.name := fun e he e' he' =>
    hread e ((functions_congr h e).mpr he) e' ((functions_congr h e').mpr he')
  intro edge
  simp only [edges_build hread hb, edges_build hread' hb', functions_congr h]

theorem ControlFlow.sameNodeIds (hb : build lower entities = .ok g)
    (hb' : build lower entities' = .ok g') : g.SameNodeIds g' := by
  intro x
  simp only [nodeIds_build hb, nodeIds_build hb', callables_congr h]

theorem ControlFlow.sameEdges (hb : build lower entities = .ok g)
    (hb' : build lower entities' = .ok g') : g.SameEdges g' := by
  have hids := ControlFlow.sameNodeIds h hb hb'
  intro edge
  simp only [edges_build hb, edges_build hb', mem_containsEdges, mem_entryEdges, h, hids _,
    functions_congr h, resolveIds_congr h hids]

theorem DependencyGraph.imports_congr (e : ParsedEntity) : e ∈ imports entities ↔ e ∈ imports entities' := by
  simp only [imports, List.mem_filter, h]

theorem DependencyGraph.sameNodeIds :
    (build entities repository).SameNodeIds (build entities' repository) := by
  intro x
  simp only [nodeIds_build, mem_modules, imports_congr h]

theorem DependencyGraph.sameEdges :
    (build entities repository).SameEdges (build entities' repository) := by
  intro edge
  simp only [edges_build, edges_modules, mem_modules, imports_congr h]

theorem SecurityGraph.sameNodeIds :
    (build lower order entities).SameNodeIds (build lower order entities') := by
  intro x
  simp only [mem_nodeIds, callables_congr h]

theorem SecurityGraph.sameEdges :
    (build lower order entities).SameEdges (build lower order entities') := by
  intro edge
  simp only [mem_edges, callables_congr h]

theorem DeploymentGraph.configNodes_congr (x : String) :
    x ∈ (configNodes lower entities).map SGIRNode.id ↔ x ∈ (configNodes lower entities').map SGIRNode.id := by
  simp only [configNodes, List.mem_map, List.mem_filter, h]

theorem DeploymentGraph.endpointNodes_congr (x : String) :
    x ∈ (endpointNodes lower entities).map SGIRNode.id ↔
      x ∈ (endpointNodes lower entities').map SGIRNode.id := by
  simp only [endpointNodes, List.mem_map, List.mem_filter, functions_congr h]

theorem DeploymentGraph.configured_congr (x : String) :
    x ∈ (configured lower entities repository).nodeIds ↔
      x ∈ (configured lower entities' repository).nodeIds := by
  simp only [configured, (adds_declareAll hasRepository _).mem_nodeIds, configNodes_congr h]

theorem DeploymentGraph.sameNodeIds :
    (build lower entities repository).SameNodeIds (build lower entities' repository) := by
  intro x
  simp only [build, Draft.nodeIds_graph, (adds_declareAll hasRepository_configured _).mem_nodeIds,
    configured_congr h, endpointNodes_congr h]

theorem DeploymentGraph.configured_edges_congr (edge : SGIREdge) :
    edge ∈ (configured lower entities repository).edges ↔
      edge ∈ (configured lower entities' repository).edges := by
  simp only [configured, (adds_declareAll hasRepository _).mem_edges, List.mem_flatMap, List.mem_filter,
    configNodes_congr h]

theorem DeploymentGraph.sameEdges :
    (build lower entities repository).SameEdges (build lower entities' repository) := by
  intro edge
  simp only [build, Draft.edges_graph, (adds_declareAll hasRepository_configured _).mem_edges,
    List.mem_flatMap, List.mem_filter, configured_congr h, configured_edges_congr h, endpointNodes_congr h]

theorem StateTransition.classes_congr (e : ParsedEntity) : e ∈ classes entities ↔ e ∈ classes entities' := by
  simp only [classes, List.mem_filter, h]

theorem StateTransition.methods_congr (e : ParsedEntity) : e ∈ methods entities ↔ e ∈ methods entities' := by
  simp only [methods, List.mem_filter, h]

theorem StateTransition.sameNodeIds : (build lower entities).SameNodeIds (build lower entities') := by
  intro x
  simp only [nodeIds_build, classes_congr h, methods_congr h]

-- ---------------------------------------------------------------------------
-- Names that resolve to the first match
-- ---------------------------------------------------------------------------

/-- Every called name is the name of functions, methods and classes of one file only. -/
def CallsResolve (entities : List ParsedEntity) : Prop :=
  ∀ caller ∈ callables entities, ∀ t ∈ callables entities, ∀ t' ∈ callables entities,
    t.name ∈ caller.calls → t'.name = t.name → t'.filePath = t.filePath

/-- An id is the id of one name of one file. -/
def ReadsOnce (entities : List ParsedEntity) : Prop :=
  ∀ e ∈ entities, ∀ e' ∈ entities, nodeId e = nodeId e' → e.filePath = e'.filePath ∧ e.name = e'.name

theorem CallGraph.findCallTarget_congr (hread : ReadsOnce entities) (hcalls : CallsResolve entities)
    {ids ids' : List String} (hids : ∀ x, x ∈ ids ↔ ∃ e ∈ callables entities, nodeId e = x)
    (hsame : ∀ x, x ∈ ids ↔ x ∈ ids') (hcaller : caller ∈ callables entities)
    (hcall : call ∈ caller.calls) :
    findCallTarget call caller entities ids = findCallTarget call caller entities' ids' := by
  have hfound : (entities.find? fun e => e.name = call ∧ nodeId e ∈ ids).map nodeId =
      (entities'.find? fun e => e.name = call ∧ nodeId e ∈ ids').map nodeId := by
    apply map_find?_congr
    · intro e
      simp only [h, hsame, decide_eq_true_eq]
    · intro a ha b hb hpa hpb
      simp only [decide_eq_true_eq, hids] at hpa hpb
      obtain ⟨hna, t, ht, hta⟩ := hpa
      obtain ⟨hnb, t', ht', htb⟩ := hpb
      obtain ⟨-, hnt⟩ := hread t (List.mem_filter.mp ht).1 a ha hta
      obtain ⟨-, hnt'⟩ := hread t' (List.mem_filter.mp ht').1 b hb htb
      have hname : t'.name = t.name := by rw [hnt, hnt', hna, hnb]
      have hfile := hcalls caller hcaller t ht t' ht' (by rwa [hnt, hna]) hname
      rw [← hta, ← htb, nodeId, nodeId, hfile, hname]
  unfold findCallTarget
  cases hl : entities.find? fun e => e.name = call ∧ nodeId e ∈ ids with
  | some e =>
    rw [hl] at hfound
    obtain ⟨e', he', hid⟩ := Option.map_eq_some_iff.mp hfound.symm
    simp only [he', hid]
  | none =>
    rw [hl] at hfound
    have hnone := Option.map_eq_none_iff.mp hfound.symm
    simp only [hnone, hsame]

theorem CallGraph.sameEdges (hread : ReadsOnce entities) (hcalls : CallsResolve entities)
    (hb : build entities = .ok g) (hb' : build entities' = .ok g') : g.SameEdges g' := by
  have hids : ∀ x, x ∈ g.nodeIds ↔ ∃ e ∈ callables entities, nodeId e = x := by
    intro x
    rw [nodeIds_build hb]
    exact mem_map_firstBy
  have hedges : ∀ caller ∈ callables entities,
      callEdges entities g.nodeIds caller = callEdges entities' g'.nodeIds caller := by
    intro caller hcaller
    apply List.filterMap_congr
    intro call hcall
    rw [findCallTarget_congr h hread hcalls hids (sameNodeIds h hb hb') hcaller hcall]
  intro edge
  rw [edges_build hb, edges_build hb']
  simp only [List.mem_flatMap, ← callables_congr h]
  exact exists_congr fun caller => and_congr_right fun hc => by rw [hedges caller hc]

/-- Every base is the name of classes of one file only. -/
def BasesResolve (entities : List ParsedEntity) : Prop :=
  ∀ e ∈ StateTransition.classes entities, ∀ c ∈ StateTransition.classes entities,
    ∀ c' ∈ StateTransition.classes entities, c.name ∈ e.bases → c'.name = c.name →
      c'.filePath = c.filePath

theorem StateTransition.mem_inheritEdges_congr (hbases : BasesResolve entities) {ids ids' : List String}
    (hsame : ∀ x, x ∈ ids ↔ x ∈ ids') (edge : SGIREdge) :
    edge ∈ inheritEdges entities ids ↔ edge ∈ inheritEdges entities' ids' := by
  have hfound : ∀ e ∈ classes entities, ∀ base ∈ e.bases,
      findClassId base entities ids = findClassId base entities' ids' := by
    intro e he base hb
    apply map_find?_congr
    · intro c
      simp only [h, hsame, decide_eq_true_eq]
    · intro a ha b hb' hpa hpb
      simp only [decide_eq_true_eq] at hpa hpb
      obtain ⟨hca, hna, -⟩ := hpa
      obtain ⟨hcb, hnb, -⟩ := hpb
      have hfile := hbases e he a (List.mem_filter.mpr ⟨ha, by simpa using hca⟩)
        b (List.mem_filter.mpr ⟨hb', by simpa using hcb⟩) (by rwa [hna]) (by rw [hna, hnb])
      rw [nodeId, nodeId, hfile, hna, hnb]
  simp only [mem_inheritEdges, ← classes_congr h, ← hsame]
  refine exists_congr fun e => and_congr_right fun he => and_congr_right fun _ => ?_
  refine exists_congr fun base => and_congr_right fun hb => ?_
  rw [hfound e he base hb]

end

end Intelliqx.Graph
