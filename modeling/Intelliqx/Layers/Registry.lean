import Intelliqx.Layers.ControlFlow
import Intelliqx.Layers.DataFlow
import Intelliqx.Layers.DependencyGraph
import Intelliqx.Layers.DeploymentGraph
import Intelliqx.Layers.ResourceGraph
import Intelliqx.Layers.SecurityGraph
import Intelliqx.Layers.StateTransition

/-!
# The builder registry

`LayerBuilderRegistry` and the default registry of eight builders. Every
layer that `build_all` returns is well formed.
-/

namespace Intelliqx.Graph

structure ParsedData where
  entities : List ParsedEntity := []
  repository : Option RepositoryMetadata := none
  deriving DecidableEq

/-- A builder gets an existing graph only for its metadata, and `build_all` has none to give. -/
structure LayerBuilder where
  layer : GraphLayer
  build : ParsedData → Except ValidationError SGIRGraph

abbrev LayerBuilderRegistry := Dict GraphLayer LayerBuilder

namespace LayerBuilderRegistry

def register (builders : LayerBuilderRegistry) (builder : LayerBuilder) : LayerBuilderRegistry :=
  builders.insert builder.layer builder

def buildAll (builders : LayerBuilderRegistry) (parsed : ParsedData) :
    Except ValidationError (Dict GraphLayer SGIRGraph) :=
  builders.entries.foldlM (fun results entry => do
    let graph ← entry.2.build parsed
    return results.insert entry.1 graph) .empty

end LayerBuilderRegistry

section
variable (lower : String → String) (order : SecurityGraph.PatternOrder)

def defaultBuilders : List LayerBuilder :=
  [⟨.call, fun parsed => CallGraph.build parsed.entities⟩,
    ⟨.dataFlow, fun parsed => DataFlow.build parsed.entities⟩,
    ⟨.controlFlow, fun parsed => ControlFlow.build lower parsed.entities⟩,
    ⟨.dependency, fun parsed => .ok (DependencyGraph.build parsed.entities parsed.repository)⟩,
    ⟨.stateTransition, fun parsed => .ok (StateTransition.build lower parsed.entities)⟩,
    ⟨.resource, fun parsed => .ok (ResourceGraph.build lower parsed.entities)⟩,
    ⟨.security, fun parsed => .ok (SecurityGraph.build lower order parsed.entities)⟩,
    ⟨.deployment, fun parsed => .ok (DeploymentGraph.build lower parsed.entities parsed.repository)⟩]

def createDefaultRegistry : LayerBuilderRegistry :=
  (defaultBuilders lower order).foldl LayerBuilderRegistry.register .empty

end

-- ---------------------------------------------------------------------------
-- What `build_all` returns
-- ---------------------------------------------------------------------------

section
variable {parsed : ParsedData} {l : List (GraphLayer × LayerBuilder)}

theorem foldlM_build {results : Dict GraphLayer SGIRGraph}
    (hok : ∀ entry ∈ l, ∃ g, entry.2.build parsed = .ok g)
    (hnew : (results.keys ++ l.map Prod.fst).Nodup) :
    ∃ layers, l.foldlM (fun results entry => do
        let graph ← entry.2.build parsed
        return results.insert entry.1 graph) results = Except.ok layers ∧
      layers.keys = results.keys ++ l.map Prod.fst ∧
      ∀ e ∈ layers.entries, e ∈ results.entries ∨
        ∃ b, (e.1, b) ∈ l ∧ b.build parsed = .ok e.2 := by
  induction l generalizing results with
  | nil => exact ⟨results, rfl, by simp, fun e he => .inl he⟩
  | cons entry l ih =>
    obtain ⟨g, hg⟩ := hok entry List.mem_cons_self
    have hfresh : entry.1 ∉ results.keys := fun hk =>
      (List.nodup_append.mp hnew).2.2 _ hk _ List.mem_cons_self rfl
    have hkeys : (results.insert entry.1 g).keys = results.keys ++ [entry.1] := by
      rw [Dict.keys_insert, if_neg hfresh]
    have hrest : ((results.insert entry.1 g).keys ++ l.map Prod.fst).Nodup := by
      simpa [hkeys] using hnew
    obtain ⟨layers, hl, hlkeys, hentries⟩ := ih (fun e he => hok e (List.mem_cons_of_mem _ he)) hrest
    refine ⟨layers, ?_, ?_, ?_⟩
    · simp only [List.foldlM_cons, hg, bind_ok_eq, pure_eq_ok]
      exact hl
    · simp [hlkeys, hkeys]
    · intro e he
      rcases hentries e he with he | ⟨b, hb, hbuild⟩
      · rw [Dict.entries_insert_of_not_mem hfresh, List.mem_append, List.mem_singleton] at he
        rcases he with he | rfl
        · exact .inl he
        · exact .inr ⟨entry.2, List.mem_cons_self, hg⟩
      · exact .inr ⟨b, List.mem_cons_of_mem _ hb, hbuild⟩

theorem buildAll_ok (builders : LayerBuilderRegistry)
    (hok : ∀ entry ∈ builders.entries, ∃ g, entry.2.build parsed = .ok g) :
    ∃ layers, builders.buildAll parsed = .ok layers ∧ layers.keys = builders.keys ∧
      ∀ e ∈ layers.entries, ∃ b, (e.1, b) ∈ builders.entries ∧ b.build parsed = .ok e.2 := by
  have hnew : ((Dict.empty : Dict GraphLayer SGIRGraph).keys ++ builders.entries.map Prod.fst).Nodup := by
    simpa [Dict.keys] using builders.nodup
  obtain ⟨layers, hl, hkeys, hentries⟩ := foldlM_build hok hnew
  refine ⟨layers, hl, hkeys, ?_⟩
  intro e he
  rcases hentries e he with h | h
  · cases h
  · exact h

end

-- ---------------------------------------------------------------------------
-- The default registry
-- ---------------------------------------------------------------------------

section
variable {lower : String → String} {order : SecurityGraph.PatternOrder}

theorem entries_createDefaultRegistry : (createDefaultRegistry lower order).entries =
    (defaultBuilders lower order).map fun b => (b.layer, b) := rfl

theorem mem_createDefaultRegistry : (layer, b) ∈ (createDefaultRegistry lower order).entries ↔
    b ∈ defaultBuilders lower order ∧ b.layer = layer := by
  simp only [entries_createDefaultRegistry, List.mem_map, Prod.mk.injEq]
  constructor
  · rintro ⟨b, hb, rfl, rfl⟩
    exact ⟨hb, rfl⟩
  · rintro ⟨hb, rfl⟩
    exact ⟨b, hb, rfl, rfl⟩

theorem defaultBuilders_isOk {parsed : ParsedData}
    (h : ∀ e ∈ parsed.entities, ComplexityEstimate.Accepts e.complexity) :
    ∀ b ∈ defaultBuilders lower order, ∃ g, b.build parsed = .ok g := by
  have hfunctions : ∀ e ∈ functions parsed.entities, ComplexityEstimate.Accepts e.complexity :=
    fun e he => h e (List.mem_filter.mp he).1
  have hcallables : ∀ e ∈ CallGraph.callables parsed.entities, ComplexityEstimate.Accepts e.complexity :=
    fun e he => h e (List.mem_filter.mp he).1
  simp only [defaultBuilders, List.forall_mem_cons]
  refine ⟨?_, ?_, ?_, ⟨_, rfl⟩, ⟨_, rfl⟩, ⟨_, rfl⟩, ⟨_, rfl⟩, ⟨_, rfl⟩, fun _ h => nomatch h⟩
  · exact CallGraph.build_isOk_iff.mpr fun e he => hcallables e (mem_of_mem_firstBy he)
  · exact declareAll_isOk hfunctions
  · exact declareAll_isOk hcallables

theorem defaultBuilders_wellFormed {parsed : ParsedData} {b : LayerBuilder}
    (hb : b ∈ defaultBuilders lower order) (h : b.build parsed = .ok g) :
    g.layer = b.layer ∧ g.WellFormed := by
  simp only [defaultBuilders, List.mem_cons, List.not_mem_nil, or_false] at hb
  rcases hb with rfl | rfl | rfl | rfl | rfl | rfl | rfl | rfl
  · exact ⟨CallGraph.layer_build h, CallGraph.nodup_nodeIds h, fun _ => CallGraph.edge_declared h⟩
  · exact ⟨(declareAll_ok (fun _ => rfl) h).1, DataFlow.wellFormed h⟩
  · exact ⟨(declareAll_ok (fun _ => rfl) h).1, ControlFlow.wellFormed h⟩
  · cases h
    refine ⟨?_, DependencyGraph.wellFormed⟩
    cases parsed.repository <;> rfl
  · cases h
    exact ⟨rfl, StateTransition.wellFormed⟩
  · cases h
    exact ⟨rfl, ResourceGraph.wellFormed⟩
  · cases h
    exact ⟨rfl, SecurityGraph.wellFormed⟩
  · cases h
    exact ⟨rfl, DeploymentGraph.wellFormed⟩

end

def GraphLayer.all : List GraphLayer :=
  [.call, .dataFlow, .controlFlow, .dependency, .stateTransition, .resource, .security, .deployment]

section
variable {lower : String → String} {order : SecurityGraph.PatternOrder}

theorem buildAll_default (parsed : ParsedData)
    (h : ∀ e ∈ parsed.entities, ComplexityEstimate.Accepts e.complexity) :
    ∃ layers, (createDefaultRegistry lower order).buildAll parsed = .ok layers ∧
      layers.keys = GraphLayer.all ∧
      ∀ layer g, layers.get? layer = some g →
        ∃ b ∈ defaultBuilders lower order, b.layer = layer ∧ b.build parsed = .ok g := by
  obtain ⟨layers, hl, hkeys, hentries⟩ := buildAll_ok (createDefaultRegistry lower order) fun entry he =>
    defaultBuilders_isOk h _ (mem_createDefaultRegistry.mp he).1
  refine ⟨layers, hl, hkeys, ?_⟩
  intro layer g hg
  obtain ⟨b, hentry, hbuild⟩ := hentries _ (Dict.get?_eq_some_iff.mp hg)
  obtain ⟨hb, hlayer⟩ := mem_createDefaultRegistry.mp hentry
  exact ⟨b, hb, hlayer, hbuild⟩

theorem defaultBuilder_unique {b b' : LayerBuilder} (hb : b ∈ defaultBuilders lower order)
    (hb' : b' ∈ defaultBuilders lower order) (h : b.layer = b'.layer) : b = b' := by
  have hget : (createDefaultRegistry lower order).get? b.layer = some b :=
    Dict.get?_eq_some_iff.mpr (mem_createDefaultRegistry.mpr ⟨hb, rfl⟩)
  have hget' : (createDefaultRegistry lower order).get? b'.layer = some b' :=
    Dict.get?_eq_some_iff.mpr (mem_createDefaultRegistry.mpr ⟨hb', rfl⟩)
  rw [h, hget'] at hget
  exact (Option.some.inj hget).symm

end

/-- Whatever was parsed, every layer is there and none has a duplicate id or a dangling edge. -/
theorem layers_wellFormed (lower : String → String) (order : SecurityGraph.PatternOrder)
    (parsed : ParsedData) (h : ∀ e ∈ parsed.entities, ComplexityEstimate.Accepts e.complexity) :
    ∃ layers, (createDefaultRegistry lower order).buildAll parsed = .ok layers ∧
      layers.keys = GraphLayer.all ∧
      ∀ layer g, layers.get? layer = some g → g.layer = layer ∧ g.WellFormed := by
  obtain ⟨layers, hl, hkeys, hbuilt⟩ := buildAll_default parsed h
  refine ⟨layers, hl, hkeys, ?_⟩
  intro layer g hg
  obtain ⟨b, hb, rfl, hbuild⟩ := hbuilt layer g hg
  exact defaultBuilders_wellFormed hb hbuild

theorem layers_wellFormed_twoRuns :
    ∃ layers, (createDefaultRegistry id ⟨SecurityGraph.authPatterns, .refl _⟩).buildAll
        { entities := CallGraph.twoRuns, repository := some { name := "jobs" } } = .ok layers ∧
      layers.keys = GraphLayer.all ∧
      ∀ layer g, layers.get? layer = some g → g.layer = layer ∧ g.WellFormed :=
  layers_wellFormed _ _ _ (by decide)

end Intelliqx.Graph
