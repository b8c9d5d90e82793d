import Intelliqx.Layers.EntityOrder
import Intelliqx.Layers.StateOrder

/-!
# The order of the files

`parse_repository` takes the files as the directory lists them. Their order
does not show in the node ids of any layer; it shows in the edges of CALL and
STATE_TRANSITION, where these resolve a name that two files define.
-/

namespace Intelliqx.Graph

open CallGraph (makeNodeId nodeId callables)

/-- The entities the Python parser returns for one file. -/
structure ParsedFile where
  path : String
  entities : List ParsedEntity
  own : ∀ e ∈ entities, e.filePath = path
  names : ∀ e ∈ entities, ':' ∉ e.name.toList
  parents : ∀ m ∈ entities, m.entityType = "method" →
    ∃ c ∈ entities, c.entityType = "class" ∧ m.parent = some c.name
  complexities : ∀ e ∈ entities, ComplexityEstimate.Accepts e.complexity
  /-- No id of the file begins like the id of a resource. -/
  apart : ¬ "resource::".toList <+: (path ++ "::").toList

def entitiesOf (files : List ParsedFile) : List ParsedEntity := files.flatMap ParsedFile.entities

def DistinctPaths (files : List ParsedFile) : Prop := files.Pairwise fun f f' => f.path ≠ f'.path

/-- What STATE_TRANSITION resolves by name is of one file: the bases, the class
of a method, and what an event handler calls among the lifecycle and event methods. -/
structure StatesResolve (lower : String → String) (entities : List ParsedEntity) : Prop where
  bases : BasesResolve entities
  classes : ∀ m ∈ StateTransition.methods entities, ∀ m' ∈ StateTransition.methods entities,
    StateTransition.className m' = StateTransition.className m → m'.filePath = m.filePath
  events : ∀ m ∈ StateTransition.methods entities, StateTransition.isEvent lower m = true →
    ∀ m' ∈ StateTransition.methods entities,
      (StateTransition.isLifecycle lower m' = true ∨ StateTransition.isEvent lower m' = true) →
      m'.name ∈ m.calls → m'.filePath = m.filePath

section
variable {files files' : List ParsedFile} {lower : String → String}

theorem mem_entitiesOf : e ∈ entitiesOf files ↔ ∃ f ∈ files, e ∈ f.entities := List.mem_flatMap

theorem entitiesOf_perm (hp : files.Perm files') (e : ParsedEntity) :
    e ∈ entitiesOf files ↔ e ∈ entitiesOf files' :=
  (hp.flatMap_right _).mem_iff

theorem DistinctPaths.perm (hd : DistinctPaths files) (hp : files.Perm files') : DistinctPaths files' :=
  hp.pairwise hd fun h => h.symm

theorem readsOnce : ReadsOnce (entitiesOf files) := by
  intro e he e' he' hid
  obtain ⟨f, -, he⟩ := mem_entitiesOf.mp he
  obtain ⟨f', -, he'⟩ := mem_entitiesOf.mp he'
  exact CallGraph.makeNodeId_inj (f.names e he) (f'.names e' he') hid

theorem complexities_entitiesOf : ∀ e ∈ entitiesOf files, ComplexityEstimate.Accepts e.complexity := by
  intro e he
  obtain ⟨f, -, he⟩ := mem_entitiesOf.mp he
  exact f.complexities e he

theorem nodeId_ne_of_path_ne {f f' : ParsedFile} (h : f.path ≠ f'.path) (he : e ∈ f.entities)
    (he' : e' ∈ f'.entities) : nodeId e ≠ nodeId e' := by
  intro hid
  obtain ⟨hpath, -⟩ := CallGraph.makeNodeId_inj (f.names e he) (f'.names e' he') hid
  exact h (by rw [← f.own e he, hpath, f'.own e' he'])

-- ---------------------------------------------------------------------------
-- RESOURCE
-- ---------------------------------------------------------------------------

theorem resourcesApart : ResourceGraph.ResourcesApart (entitiesOf files) := by
  intro e he name hid
  obtain ⟨f, -, he⟩ := mem_entitiesOf.mp (List.mem_filter.mp he).1
  apply f.apart
  have hlist : (f.path ++ "::").toList ++ e.name.toList = "resource::".toList ++ name.toList := by
    have := congrArg String.toList hid
    simpa [nodeId, makeNodeId, ResourceGraph.resourceId, f.own e he] using this
  rcases List.append_eq_append_iff.mp hlist with ⟨rest, hrest, -⟩ | ⟨rest, hrest, -⟩
  · have hnil : rest = [] := by
      by_contra hne
      have hcolon : [':'] <:+ "resource::".toList := ⟨"resource:".toList, rfl⟩
      have hsuffix : rest <:+ "resource::".toList := ⟨_, hrest.symm⟩
      have hlast := List.suffix_of_suffix_length_le hcolon hsuffix (List.length_pos_iff.mpr hne)
      have hpos := List.count_pos_iff.mpr (hlast.subset (List.mem_singleton_self ':'))
      -- both colons of `resource::` stand before the rest
      have hcount : 2 = f.path.toList.count ':' + (rest.count ':' + 1 + 1) := by
        simpa [List.count_append] using congrArg (List.count ':') hrest
      omega
    rw [hnil, List.append_nil] at hrest
    exact hrest ▸ List.prefix_rfl
  · exact ⟨rest, hrest.symm⟩

theorem firstBy_entitiesOf (hd : DistinctPaths files) :
    firstBy nodeId (functions (entitiesOf files)) =
      files.flatMap fun f => firstBy nodeId (functions f.entities) := by
  rw [entitiesOf, functions, List.filter_flatMap]
  apply firstBy_flatMap
  refine hd.imp fun hne e he e' he' => ?_
  exact nodeId_ne_of_path_ne hne (List.mem_filter.mp he).1 (List.mem_filter.mp he').1

theorem ResourceGraph.sameAs (hd : DistinctPaths files) (hp : files.Perm files') :
    (build lower (entitiesOf files)).SameNodeIds (build lower (entitiesOf files')) ∧
      (build lower (entitiesOf files)).SameEdges (build lower (entitiesOf files')) := by
  have hsame : (firstBy nodeId (functions (entitiesOf files))).Perm
      (firstBy nodeId (functions (entitiesOf files'))) := by
    rw [firstBy_entitiesOf hd, firstBy_entitiesOf (hd.perm hp)]
    exact hp.flatMap_right _
  constructor
  · intro x
    simp only [build, Draft.nodeIds_graph, (adds_build resourcesApart).mem_nodeIds, List.mem_flatMap,
      hsame.mem_iff]
  · intro edge
    simp only [build, Draft.edges_graph, (adds_build resourcesApart).mem_edges, List.mem_flatMap,
      hsame.mem_iff]

-- ---------------------------------------------------------------------------
-- STATE_TRANSITION
-- ---------------------------------------------------------------------------

namespace StateTransition

def fileGroups (f : ParsedFile) : List (String × List ParsedEntity) := (classMethods f.entities).entries

theorem methods_entitiesOf : methods (entitiesOf files) = files.flatMap fun f => methods f.entities := by
  rw [entitiesOf, methods, List.filter_flatMap]
  rfl

theorem mem_methods_of_file {f : ParsedFile} (hf : f ∈ files) (hm : m ∈ methods f.entities) :
    m ∈ methods (entitiesOf files) := by
  rw [methods_entitiesOf]
  exact List.mem_flatMap.mpr ⟨f, hf, hm⟩

theorem filePath_of_mem_methods {f : ParsedFile} (hm : m ∈ methods f.entities) : m.filePath = f.path :=
  f.own m (List.mem_filter.mp hm).1

/-- The classes of a file are visited together. -/
theorem entries_classMethods (hd : DistinctPaths files) (hs : StatesResolve lower (entitiesOf files)) :
    (classMethods (entitiesOf files)).entries = files.flatMap fileGroups := by
  rw [classMethods, methods_entitiesOf]
  apply Dict.entries_group_flatMap
  refine hd.imp_of_mem fun hf hf' hne m hm m' hm' hclass => hne ?_
  rw [← filePath_of_mem_methods hm, ← filePath_of_mem_methods hm']
  exact hs.classes m' (mem_methods_of_file hf' hm') m (mem_methods_of_file hf hm) hclass

/-- The ids that the visit of a file tests. -/
inductive Tested (lower : String → String) (files : List ParsedFile) (f : ParsedFile) : String → Prop
  | own (h : m ∈ methods f.entities) : Tested lower files f (makeNodeId m.filePath (className m))
  | method (h : m ∈ methods f.entities) : Tested lower files f (nodeId m)
  | called (h : m ∈ methods f.entities) (hm : isEvent lower m = true) (he : e ∈ entitiesOf files)
      (hcall : e.name ∈ m.calls) : Tested lower files f (nodeId e)

theorem tests_fileGroups {f : ParsedFile} : ∀ group ∈ fileGroups f,
    Tests lower (entitiesOf files) (Tested lower files f) group := by
  intro group hg
  constructor
  · intro m hm
    obtain ⟨hm, hclass⟩ := (mem_group hg).mp hm
    exact hclass ▸ .own hm
  · intro m hm
    exact .method ((mem_group hg).mp hm).1
  · intro m hm hevent e he hcall
    exact .called ((mem_group hg).mp hm).1 hevent he hcall

theorem class_declared {f : ParsedFile} (hf : f ∈ files) (hm : m ∈ methods f.entities) :
    makeNodeId m.filePath (className m) ∈ (declareClasses (entitiesOf files)).nodeIds := by
  obtain ⟨hmem, hmethod⟩ := List.mem_filter.mp hm
  simp only [decide_eq_true_eq] at hmethod
  obtain ⟨c, hc, hclass, hparent⟩ := f.parents m hmem hmethod.1
  refine mem_declareClasses.mpr ⟨c, List.mem_filter.mpr ⟨mem_entitiesOf.mpr ⟨f, hf, hc⟩, ?_⟩, ?_⟩
  · simpa using hclass
  · rw [nodeId, className, hparent, f.own m hmem, f.own c hc]
    rfl

/-- Of what another file brings, the visit of a file tests only what was there before. -/
theorem tested_apart (hs : StatesResolve lower (entitiesOf files)) {f f' : ParsedFile} (hf : f ∈ files)
    (hf' : f' ∈ files) (hne : f.path ≠ f'.path) (hx : Tested lower files f' x)
    (hbrought : x ∈ (fileGroups f).flatMap (visitedIds lower)) :
    x ∈ (declareClasses (entitiesOf files)).nodeIds := by
  obtain ⟨m, hm, hkind, hid⟩ := mem_visitedIds.mp hbrought
  have hmem := (List.mem_filter.mp hm).1
  cases hx with
  | own hm' => exact class_declared hf' hm'
  | method hm' =>
    exact absurd hid (nodeId_ne_of_path_ne hne hmem (List.mem_filter.mp hm').1)
  | called hm' hevent he hcall =>
    obtain ⟨-, hname⟩ := readsOnce m (mem_entitiesOf.mpr ⟨f, hf, hmem⟩) _ he hid
    have hfile := hs.events _ (mem_methods_of_file hf' hm') hevent m (mem_methods_of_file hf hm) hkind
      (hname ▸ hcall)
    rw [filePath_of_mem_methods hm, filePath_of_mem_methods hm'] at hfile
    exact absurd hfile hne

/-- In whatever order the files come, each adds what it adds when it comes first. -/
theorem visited_edges (hd : DistinctPaths files) (hs : StatesResolve lower (entitiesOf files))
    (hs' : StatesResolve lower (entitiesOf files')) (hp : files.Perm files') (edge : SGIREdge) :
    edge ∈ (visitClasses lower (entitiesOf files') (classMethods (entitiesOf files')).entries
      (declareClasses (entitiesOf files'))).edges ↔
    edge ∈ files.flatMap
      (blockEdges lower (entitiesOf files) (declareClasses (entitiesOf files)) fileGroups) := by
  have hstart : ∀ l, (declareClasses l).edges = [] := fun l =>
    List.eq_nil_iff_forall_not_mem.mpr fun e he => by simpa using (adds_declareClasses.mem_edges e).mp he
  have hadds : Draft.Adds (declareClasses (entitiesOf files'))
      (visitClasses lower (entitiesOf files') (files'.flatMap fileGroups)
        (declareClasses (entitiesOf files')))
      ((files'.flatMap fileGroups).flatMap (visitedIds lower))
      (files'.flatMap
        (blockEdges lower (entitiesOf files) (declareClasses (entitiesOf files)) fileGroups)) := by
    refine adds_blocks (R := Tested lower files) [] (entitiesOf_perm hp) (hstart _)
      (fun f _ => tests_fileGroups) ?_ ?_
    · refine (hd.perm hp).imp_of_mem fun hf hf' hne x hx => ?_
      exact tested_apart hs (hp.mem_iff.mpr hf) (hp.mem_iff.mpr hf') hne hx
    · intro x
      simp only [mem_declareClasses, classes_congr (entitiesOf_perm hp), List.not_mem_nil, false_and,
        exists_false, or_false]
  rw [entries_classMethods (hd.perm hp) hs', hadds.mem_edges, hstart]
  simp only [List.not_mem_nil, false_or, List.mem_flatMap, hp.mem_iff]

theorem StatesResolve.perm (hs : StatesResolve lower (entitiesOf files)) (hp : files.Perm files') :
    StatesResolve lower (entitiesOf files') := by
  have hclass := fun e => (classes_congr (entitiesOf_perm hp) e).mpr
  have hmethod := fun m => (methods_congr (entitiesOf_perm hp) m).mpr
  constructor
  · exact fun e he c hc c' hc' => hs.bases e (hclass e he) c (hclass c hc) c' (hclass c' hc')
  · exact fun m hm m' hm' => hs.classes m (hmethod m hm) m' (hmethod m' hm')
  · exact fun m hm hevent m' hm' => hs.events m (hmethod m hm) hevent m' (hmethod m' hm')

theorem sameEdges (hd : DistinctPaths files) (hs : StatesResolve lower (entitiesOf files))
    (hp : files.Perm files') :
    (build lower (entitiesOf files)).SameEdges (build lower (entitiesOf files')) := by
  intro edge
  rw [edges_build, edges_build, visited_edges hd hs hs (.refl files),
    visited_edges hd hs (StatesResolve.perm hs hp) hp,
    mem_inheritEdges_congr (entitiesOf_perm hp) hs.bases (sameNodeIds (entitiesOf_perm hp))]

end StateTransition

-- ---------------------------------------------------------------------------
-- All layers
-- ---------------------------------------------------------------------------

/-- No name that the layer resolves to a first match is of two files. -/
def EdgesResolve (lower : String → String) (entities : List ParsedEntity) : GraphLayer → Prop
  | .call => CallsResolve entities
  | .stateTransition => StatesResolve lower entities
  | _ => True

theorem sameOrder_of_builder (hd : DistinctPaths files) (hp : files.Perm files') {b : LayerBuilder}
    (hb : b ∈ defaultBuilders lower order) (hg : b.build ⟨entitiesOf files, repository⟩ = .ok g)
    (hg' : b.build ⟨entitiesOf files', repository⟩ = .ok g') :
    g.SameNodeIds g' ∧ (EdgesResolve lower (entitiesOf files) b.layer → g.SameEdges g') := by
  have hmem := entitiesOf_perm hp
  have hnames : ∀ e ∈ functions (entitiesOf files), ∀ e' ∈ functions (entitiesOf files),
      nodeId e = nodeId e' → e.name = e'.name := fun e he e' he' hid =>
    (readsOnce e (List.mem_filter.mp he).1 e' (List.mem_filter.mp he').1 hid).2
  simp only [defaultBuilders, List.mem_cons, List.not_mem_nil, or_false] at hb
  rcases hb with rfl | rfl | rfl | rfl | rfl | rfl | rfl | rfl
  · exact ⟨CallGraph.sameNodeIds hmem hg hg', fun h => CallGraph.sameEdges hmem readsOnce h hg hg'⟩
  · exact ⟨DataFlow.sameNodeIds hmem hg hg', fun _ => DataFlow.sameEdges hmem hnames hg hg'⟩
  · exact ⟨ControlFlow.sameNodeIds hmem hg hg', fun _ => ControlFlow.sameEdges hmem hg hg'⟩
  all_goals cases hg; cases hg'
  · exact ⟨DependencyGraph.sameNodeIds hmem, fun _ => DependencyGraph.sameEdges hmem⟩
  · exact ⟨StateTransition.sameNodeIds hmem, fun h => StateTransition.sameEdges hd h hp⟩
  · exact ⟨(ResourceGraph.sameAs hd hp).1, fun _ => (ResourceGraph.sameAs hd hp).2⟩
  · exact ⟨SecurityGraph.sameNodeIds hmem, fun _ => SecurityGraph.sameEdges hmem⟩
  · exact ⟨DeploymentGraph.sameNodeIds hmem, fun _ => DeploymentGraph.sameEdges hmem⟩

end

/-- Two orders of the files give the same ids in every layer, and the same edges where the names
that are resolved to a first match are of one file. -/
theorem file_order_independent (lower : String → String) (order : SecurityGraph.PatternOrder)
    (repository : Option RepositoryMetadata) (files files' : List ParsedFile)
    (hd : DistinctPaths files) (hp : files.Perm files') :
    ∃ layers layers',
      (createDefaultRegistry lower order).buildAll ⟨entitiesOf files, repository⟩ = .ok layers ∧
      (createDefaultRegistry lower order).buildAll ⟨entitiesOf files', repository⟩ = .ok layers' ∧
      layers.keys = GraphLayer.all ∧ layers'.keys = GraphLayer.all ∧
      ∀ layer g g', layers.get? layer = some g → layers'.get? layer = some g' →
        g.SameNodeIds g' ∧ (EdgesResolve lower (entitiesOf files) layer → g.SameEdges g') := by
  obtain ⟨layers, hl, hkeys, hbuilt⟩ :=
    buildAll_default ⟨entitiesOf files, repository⟩ complexities_entitiesOf
  obtain ⟨layers', hl', hkeys', hbuilt'⟩ :=
    buildAll_default ⟨entitiesOf files', repository⟩ complexities_entitiesOf
  refine ⟨layers, layers', hl, hl', hkeys, hkeys', ?_⟩
  intro layer g g' hg hg'
  obtain ⟨b, hb, rfl, hbuild⟩ := hbuilt layer g hg
  obtain ⟨b', hb', hlayer, hbuild'⟩ := hbuilt' _ g' hg'
  obtain rfl := defaultBuilder_unique hb' hb hlayer
  exact sameOrder_of_builder hd hp hb' hbuild hbuild'

/-- `class base` with `setup`, and `f`. -/
def baseEntities (path : String) : List ParsedEntity :=
  [{ name := "base", entityType := "class", filePath := path, lineStart := 1, lineEnd := 3, language := "python" },
    { name := "setup", entityType := "method", filePath := path, lineStart := 2, lineEnd := 3,
      language := "python", parent := some "base" },
    { name := "f", entityType := "function", filePath := path, lineStart := 5, lineEnd := 6,
      language := "python" }]

/-- `class d(base)` with an event handler that calls `setup`, and a call of `f`. -/
def userEntities : List ParsedEntity :=
  [{ name := "d", entityType := "class", filePath := "c.py", lineStart := 1, lineEnd := 3,
      language := "python", bases := ["base"] },
    { name := "on", entityType := "method", filePath := "c.py", lineStart := 2, lineEnd := 3,
      language := "python", parent := some "d", calls := ["setup"] },
    { name := "g", entityType := "function", filePath := "c.py", lineStart := 5, lineEnd := 6,
      language := "python", calls := ["f"] }]

def baseFile (path : String) (apart : ¬ "resource::".toList <+: (path ++ "::").toList) : ParsedFile where
  path
  entities := baseEntities path
  own := by simp [baseEntities]
  names := by simp [baseEntities]
  parents := by simp [baseEntities]
  complexities := by simp [baseEntities, ComplexityEstimate.Accepts, ComplexityEstimate.all, ComplexityEstimate.value]
  apart

def userFile : ParsedFile where
  path := "c.py"
  entities := userEntities
  own := by decide
  names := by decide
  parents := by decide
  complexities := by decide
  apart := by decide

theorem file_order_independent_user :
    ∃ layers layers',
      (createDefaultRegistry id ⟨SecurityGraph.authPatterns, .refl _⟩).buildAll
        ⟨entitiesOf [baseFile "a.py" (by decide), userFile], none⟩ = .ok layers ∧
      (createDefaultRegistry id ⟨SecurityGraph.authPatterns, .refl _⟩).buildAll
        ⟨entitiesOf [userFile, baseFile "a.py" (by decide)], none⟩ = .ok layers' ∧
      layers.keys = GraphLayer.all ∧ layers'.keys = GraphLayer.all ∧
      ∀ layer g g', layers.get? layer = some g → layers'.get? layer = some g' →
        g.SameNodeIds g' ∧
        (EdgesResolve id (entitiesOf [baseFile "a.py" (by decide), userFile]) layer → g.SameEdges g') :=
  file_order_independent _ _ _ _ _ (by simp [DistinctPaths, baseFile, userFile]) (.swap _ _ _)

def visited : List ParsedFile := [baseFile "a.py" (by decide), baseFile "b.py" (by decide), userFile]

theorem distinctPaths_visited : DistinctPaths visited := by
  simp [DistinctPaths, visited, baseFile, userFile]

/-- `f` is called, and `base` inherited from, in the file that comes first; `setup` is called where
it has come before; and the two `setup` follow each other as their files do. -/
theorem reversed_files_disagree : DistinctPaths visited ∧ visited.Perm visited.reverse ∧
    ∃ layers layers',
      (createDefaultRegistry id ⟨SecurityGraph.authPatterns, .refl _⟩).buildAll
        ⟨entitiesOf visited, none⟩ = .ok layers ∧
      (createDefaultRegistry id ⟨SecurityGraph.authPatterns, .refl _⟩).buildAll
        ⟨entitiesOf visited.reverse, none⟩ = .ok layers' ∧
      layers.keys = GraphLayer.all ∧ layers'.keys = GraphLayer.all ∧
      ∀ layer ∈ [GraphLayer.call, .stateTransition], ∀ g g',
        layers.get? layer = some g → layers'.get? layer = some g' → ¬ g.SameEdges g' := by
  refine ⟨distinctPaths_visited, (List.reverse_perm _).symm, ?_⟩
  obtain ⟨layers, hl, hkeys, hbuilt⟩ := buildAll_default ⟨entitiesOf visited, none⟩ complexities_entitiesOf
  obtain ⟨layers', hl', hkeys', hbuilt'⟩ :=
    buildAll_default ⟨entitiesOf visited.reverse, none⟩ complexities_entitiesOf
  refine ⟨layers, layers', hl, hl', hkeys, hkeys', ?_⟩
  intro layer hlayer g g' hg hg' hsame
  obtain ⟨b, hb, rfl, hbuild⟩ := hbuilt layer g hg
  obtain ⟨b', hb', heq, hbuild'⟩ := hbuilt' _ g' hg'
  obtain rfl := defaultBuilder_unique hb' hb heq
  have hcases : b' ∈ [(⟨.call, fun parsed => CallGraph.build parsed.entities⟩ : LayerBuilder),
      ⟨.stateTransition, fun parsed => .ok (StateTransition.build id parsed.entities)⟩] := by
    simp only [defaultBuilders, List.mem_cons, List.not_mem_nil, or_false] at hb
    rcases hb with rfl | rfl | rfl | rfl | rfl | rfl | rfl | rfl <;> simp at hlayer ⊢
  simp only [List.mem_cons, List.not_mem_nil, or_false] at hcases
  rcases hcases with rfl | rfl
  · have hcall := hsame { source := "c.py::g", target := "a.py::f", edgeType := .call, label := "f" }
    rw [(CallGraph.build_ok hbuild).2, (CallGraph.build_ok hbuild').2] at hcall
    exact absurd (hcall.mp (by decide)) (by decide)
  · cases hbuild
    cases hbuild'
    have hinherit := hsame
      { source := "c.py::d", target := "a.py::base", edgeType := .inherit, label := "base" }
    exact absurd (hinherit.mp (by decide)) (by decide)

end Intelliqx.Graph
