import Intelliqx.Layers.Draft

/-!
# The DEPENDENCY layer

`DependencyGraphBuilder.build`: modules and packages, the imports between
them, and the repository that depends on all of them.
-/

namespace Intelliqx.Graph.DependencyGraph

open CallGraph (makeNodeId)

def moduleId (name : String) : String := makeNodeId "module" name

def repoId (r : RepositoryMetadata) : String := makeNodeId "repo" r.name

/-- The draft together with `module_nodes`, which has the id of every node so far. -/
structure ModuleDraft extends Draft where
  moduleNodes : Dict String String
  keyed : ∀ e ∈ moduleNodes.entries, e.2 = moduleId e.1
  tracked : ∀ x, x ∈ moduleNodes.values ↔ x ∈ toDraft.nodeIds

def ModuleDraft.empty : ModuleDraft where
  toDraft := .empty
  moduleNodes := .empty
  keyed := by simp
  tracked := by simp [Dict.values]

theorem ModuleDraft.not_mem_keys (s : ModuleDraft) (h : moduleId name ∉ s.nodeIds) :
    name ∉ s.moduleNodes.keys := by
  intro hk
  obtain ⟨e, he, rfl⟩ := List.mem_map.mp hk
  exact h ((s.tracked _).mp (s.keyed e he ▸ List.mem_map_of_mem he))

def ModuleDraft.declare (s : ModuleDraft) (name : String) (n : SGIRNode) (hid : n.id = moduleId name) :
    ModuleDraft :=
  if h : n.id ∈ s.nodeIds then s
  else
    have hnew := s.not_mem_keys (hid ▸ h)
    { s.toDraft.add n with
      moduleNodes := s.moduleNodes.insert name n.id
      keyed := by
        simp only [Dict.entries_insert_of_not_mem hnew, List.mem_append, List.mem_singleton]
        rintro e (he | rfl)
        · exact s.keyed e he
        · exact hid
      tracked := by
        intro x
        simp only [Dict.values, Dict.entries_insert_of_not_mem hnew, List.map_append, List.map_cons,
          List.map_nil, List.mem_append, List.mem_singleton]
        rw [← Dict.values, s.tracked, Draft.mem_nodeIds_add] }

theorem ModuleDraft.adds_declare (s : ModuleDraft) (hid : n.id = moduleId name) :
    Draft.Adds s.toDraft (s.declare name n hid).toDraft [n.id] [] := by
  unfold declare
  split
  · rename_i h
    refine ⟨?_, by simp⟩
    intro x
    rw [List.mem_singleton]
    exact ⟨.inl, fun hx => hx.elim id fun he => he ▸ h⟩
  · exact Draft.adds_add _ _

def importEdge (e : ParsedEntity) (impName : String) : SGIREdge where
  source := moduleId e.filePath
  target := moduleId impName
  edgeType := .import
  label := impName

def visitImport (e : ParsedEntity) (s : ModuleDraft) (impName : String) : ModuleDraft :=
  let s := s.declare e.filePath {
    id := moduleId e.filePath
    name := e.filePath
    nodeType := .module
    language := e.language
    sourceLocation := some {
      filePath := e.filePath
      lineStart := e.lineStart
      lineEnd := e.lineEnd } } rfl
  let s := s.declare impName {
    id := moduleId impName
    name := impName
    nodeType := if Py.within "." impName then .package else .module
    language := e.language } rfl
  { s with toDraft := s.toDraft.link (importEdge e impName) }

def imports (entities : List ParsedEntity) : List ParsedEntity :=
  entities.filter fun e => e.entityType = "import"

def modules (entities : List ParsedEntity) : ModuleDraft :=
  (imports entities).foldl (fun s e => e.importNames.foldl (visitImport e) s) .empty

def repositoryEdge (r : RepositoryMetadata) (moduleNode : String) : SGIREdge where
  source := repoId r
  target := moduleNode
  edgeType := .dependency

def addRepository (s : ModuleDraft) (r : RepositoryMetadata) : Draft :=
  let d := s.toDraft.add {
    id := repoId r
    name := r.name
    nodeType := .package
    language := ", ".intercalate r.languages
    externalDependencies := r.frameworks }
  d.linkAll ((s.moduleNodes.values.filter fun m => m ≠ repoId r).map (repositoryEdge r))

def build (entities : List ParsedEntity) : Option RepositoryMetadata → SGIRGraph
  | none => (modules entities).graph .dependency
  | some r => (addRepository (modules entities) r).graph .dependency

section
variable {entities : List ParsedEntity} {repository : Option RepositoryMetadata}

theorem adds_visitImport (e : ParsedEntity) (s : ModuleDraft) (impName : String) :
    Draft.Adds s.toDraft (visitImport e s impName).toDraft [moduleId e.filePath, moduleId impName]
      [importEdge e impName] :=
  ((s.adds_declare rfl).trans (ModuleDraft.adds_declare _ rfl)).trans (Draft.adds_link _ _)

theorem adds_modules : Draft.Adds .empty (modules entities).toDraft
    ((imports entities).flatMap fun e => e.importNames.flatMap fun impName =>
      [moduleId e.filePath, moduleId impName])
    ((imports entities).flatMap fun e => e.importNames.flatMap fun impName =>
      [importEdge e impName]) := by
  refine Draft.Adds.foldl ModuleDraft.toDraft ?_ ModuleDraft.empty
  intro s e _
  refine Draft.Adds.foldl ModuleDraft.toDraft ?_ s
  intro s impName _
  exact adds_visitImport e s impName

theorem mem_modules : x ∈ (modules entities).nodeIds ↔ ∃ e ∈ imports entities,
    ∃ impName ∈ e.importNames, x = moduleId e.filePath ∨ x = moduleId impName := by
  rw [adds_modules.mem_nodeIds]
  simp

theorem edges_modules : edge ∈ (modules entities).edges ↔ ∃ e ∈ imports entities,
    ∃ impName ∈ e.importNames, edge = importEdge e impName := by
  rw [adds_modules.mem_edges]
  simp

theorem closed_modules : (modules entities).Closed := by
  intro edge hedge
  obtain ⟨e, he, impName, hn, rfl⟩ := edges_modules.mp hedge
  exact ⟨mem_modules.mpr ⟨e, he, impName, hn, .inl rfl⟩, mem_modules.mpr ⟨e, he, impName, hn, .inr rfl⟩⟩

theorem mem_addRepository {s : ModuleDraft} {r : RepositoryMetadata} :
    x ∈ (addRepository s r).nodeIds ↔ x ∈ s.nodeIds ∨ x = repoId r := by
  simp [addRepository]

theorem edges_addRepository {s : ModuleDraft} {r : RepositoryMetadata} :
    edge ∈ (addRepository s r).edges ↔
      edge ∈ s.edges ∨ ∃ m ∈ s.nodeIds, m ≠ repoId r ∧ edge = repositoryEdge r m := by
  simp only [addRepository, Draft.edges_linkAll, Draft.edges_add, List.mem_append, List.mem_map,
    List.mem_filter, s.tracked, decide_eq_true_eq, and_assoc, eq_comm (a := edge)]

theorem nodeIds_build : x ∈ (build entities repository).nodeIds ↔
    x ∈ (modules entities).nodeIds ∨ ∃ r ∈ repository, x = repoId r := by
  cases repository with
  | none => simp [build]
  | some r => simp [build, mem_addRepository]

theorem edges_build : edge ∈ (build entities repository).edges ↔ edge ∈ (modules entities).edges ∨
    ∃ r ∈ repository, ∃ m ∈ (modules entities).nodeIds, m ≠ repoId r ∧ edge = repositoryEdge r m := by
  cases repository with
  | none => simp [build]
  | some r => simp [build, edges_addRepository]

theorem wellFormed : (build entities repository).WellFormed := by
  cases repository with
  | none => exact closed_modules.wellFormed
  | some r =>
    apply Draft.Closed.wellFormed
    intro edge he
    rcases edges_addRepository.mp he with he | ⟨m, hm, -, rfl⟩
    · obtain ⟨hs, ht⟩ := closed_modules edge he
      exact ⟨mem_addRepository.mpr (.inl hs), mem_addRepository.mpr (.inl ht)⟩
    · exact ⟨mem_addRepository.mpr (.inr rfl), mem_addRepository.mpr (.inl hm)⟩

end

end Intelliqx.Graph.DependencyGraph
