import Intelliqx.Graph.PythonBackend

/-!
# What the backend emits

Which node is defined in which generated file, and when every class,
function and datamodel of the graph is defined exactly once.
-/

namespace Intelliqx.Graph.PythonBackend

section
variable (lower : String → String) (g : SoftwareGraph)

def modules : List SGIRNode := (GenerateHelper.build g).ofType .module

def packages : List SGIRNode := (GenerateHelper.build g).ofType .package

/-- The declarations the backend has to define, in the order a file has them. -/
def definitionNodes : List SGIRNode :=
  (GenerateHelper.build g).ofType .datamodel ++ (GenerateHelper.build g).ofType .class ++
    (GenerateHelper.build g).ofType .function

def declarations (x : String) : List SGIRNode := (definitionNodes g).filter fun n => n.id = x

def emissions : List (SGIRNode × DefinitionKind) :=
  (generateFiles lower g).values.flatMap GeneratedFile.definitions

def kindOf : NodeType → DefinitionKind
  | .function => .defKeyword
  | _ => .classKeyword

/-- Every class, function and datamodel id is defined once in all files, by the keyword of its kind,
and the file of every module is in the result. -/
structure EmitsOnce : Prop where
  once : ∀ n ∈ definitionNodes g, ∃ n', (emissions lower g).filter (fun e => e.1.id = n.id) =
    [(n', kindOf n.nodeType)]
  kept : ∀ m ∈ modules g, (generateFiles lower g).get? (nodeToFilePath lower m) = some (moduleFile g m)

structure ModuleContents where
  purpose : String
  externalDependencies : List String
  datamodels : List SGIRNode
  classes : List (SGIRNode × List SGIRNode)
  functions : List SGIRNode
  deriving DecidableEq

def moduleContents (m : SGIRNode) : ModuleContents :=
  let helper := GenerateHelper.build g
  { purpose := m.purpose
    externalDependencies := m.externalDependencies
    datamodels := helper.childrenOf m (helper.ofType .datamodel)
    classes := (helper.childrenOf m (helper.ofType .class)).map fun c =>
      (c, helper.childrenOf c (helper.childrenOf m (helper.ofType .method)))
    functions := helper.childrenOf m (helper.ofType .function) }

/-- In a graph with modules: a node with a module has one declaration and its modules have one file;
a node without has one declaration outside the files of the modules, is no function, and the
repository's own file is free to take it. -/
def PlacedOnce (n : SGIRNode) : Prop :=
  (∃ m ∈ modules g, g.Linked m.id n.id ∧ (declarations g n.id).length = 1 ∧
    ∀ m' ∈ modules g, g.Linked m'.id n.id → nodeToFilePath lower m' = nodeToFilePath lower m) ∨
  ((∀ m ∈ modules g, ¬ g.Linked m.id n.id) ∧ n.nodeType ≠ .function ∧
    ((declarations g n.id).filter fun d => ¬ GenerateHelper.inModuleFile d (modules g)).length = 1 ∧
    repositoryFile lower g ∉ (modules g).map (nodeToFilePath lower) ∧
    repositoryFile lower g ∉ (packages g).map (initPath lower))

end

-- ---------------------------------------------------------------------------
-- The definitions of a file
-- ---------------------------------------------------------------------------

section
variable {g : SoftwareGraph} {classes functions methods datamodels : List SGIRNode}

def tagged (n : SGIRNode) : SGIRNode × DefinitionKind := (n, kindOf n.nodeType)

@[simp] theorem definition_importSection : (importSection lines).filterMap Section.definition = [] := by
  unfold importSection
  split <;> rfl

@[simp] theorem definition_purposeSection : (purposeSection n).filterMap Section.definition = [] := by
  unfold purposeSection
  split <;> rfl

theorem nodeType_of_mem_ofType (h : n ∈ (GenerateHelper.build g).ofType t) : n.nodeType = t := by
  rw [GenerateHelper.ofType_build] at h
  simpa using (List.mem_filter.mp h).2

theorem filterMap_generateModuleFile {m : SGIRNode} {r : Section → Option β} (hr : r .pass = none) :
    (generateModuleFile g m classes functions methods datamodels).filterMap r =
      (purposeSection m ++ importSection (collectImportsForNode m) ++
        definitionSections g classes functions methods datamodels).filterMap r := by
  unfold generateModuleFile
  simp only
  split
  · rename_i h
    simp [h, hr]
  · rfl

theorem filterMap_definition {f : SGIRNode → Section} {l : List SGIRNode}
    (h : ∀ n ∈ l, (f n).definition = some (tagged n)) :
    (l.map f).filterMap Section.definition = l.map tagged := by
  rw [List.filterMap_map]
  exact List.filterMap_eq_map_iff_forall_eq_some.mpr h

theorem definition_definitionSections (hc : ∀ n ∈ classes, n.nodeType = .class)
    (hf : ∀ n ∈ functions, n.nodeType = .function) (hd : ∀ n ∈ datamodels, n.nodeType = .datamodel) :
    (definitionSections g classes functions methods datamodels).filterMap Section.definition =
      (datamodels ++ classes ++ functions).map tagged := by
  have hkeep : functions.filter (fun f => f.nodeType ≠ .method) = functions :=
    List.filter_eq_self.mpr fun n hn => by simp [hf n hn]
  simp only [definitionSections, hkeep, List.filterMap_append, List.map_append]
  rw [filterMap_definition fun n hn => by simp [Section.definition, tagged, kindOf, hd n hn],
    filterMap_definition fun n hn => by simp [generateClass, Section.definition, tagged, kindOf, hc n hn],
    filterMap_definition fun n hn => by simp [Section.definition, tagged, kindOf, hf n hn]]

theorem definitions_moduleFile (m : SGIRNode) : (moduleFile g m).definitions =
    ((definitionNodes g).filter fun n => g.Linked m.id n.id).map tagged := by
  have hchild : ∀ t, ∀ n ∈ (GenerateHelper.build g).childrenOf m ((GenerateHelper.build g).ofType t),
      n.nodeType = t := fun t n hn => nodeType_of_mem_ofType (List.mem_of_mem_filter hn)
  rw [GeneratedFile.definitions, moduleFile, filterMap_generateModuleFile rfl]
  simp only [List.filterMap_append, definition_purposeSection, definition_importSection, List.nil_append]
  rw [definition_definitionSections (hchild _) (hchild _) (hchild _)]
  simp only [GenerateHelper.childrenOf_build, definitionNodes, List.filter_append]

theorem definitions_wholeFile :
    (generateSingleFile g ((GenerateHelper.build g).ofType .class) ((GenerateHelper.build g).ofType .function)
      ((GenerateHelper.build g).ofType .method) ((GenerateHelper.build g).ofType .datamodel)).definitions =
      (definitionNodes g).map tagged := by
  have htype : ∀ t, ∀ n ∈ (GenerateHelper.build g).ofType t, n.nodeType = t :=
    fun _ _ => nodeType_of_mem_ofType
  simp only [GeneratedFile.definitions, generateSingleFile, List.filterMap_append, definition_importSection,
    List.nil_append]
  exact definition_definitionSections (htype _) (htype _) (htype _)

/-- Orphans are written as classes, whatever they are. -/
theorem definitions_orphanFile : (generateSingleFile g classes [] [] []).definitions =
    classes.map fun n => (n, .classKeyword) := by
  simp [GeneratedFile.definitions, generateSingleFile, definitionSections, generateClass,
    Function.comp_def, Section.definition]

theorem filter_tagged {l : List SGIRNode} : (l.map tagged).filter (fun e => e.1.id = x) =
    (l.filter fun n => n.id = x).map tagged := by
  rw [List.filter_map]
  rfl

theorem moduleFile_of_linked {m : SGIRNode} (h : g.Linked m.id x) :
    (moduleFile g m).definitions.filter (fun e => e.1.id = x) = (declarations g x).map tagged := by
  rw [definitions_moduleFile, filter_tagged, List.filter_filter, declarations]
  congr 1
  apply List.filter_congr
  intro n _
  by_cases hx : n.id = x <;> simp [hx, h]

theorem moduleFile_of_not_linked {m : SGIRNode} (h : ¬ g.Linked m.id x) :
    (moduleFile g m).definitions.filter (fun e => e.1.id = x) = [] := by
  rw [definitions_moduleFile, filter_tagged, List.filter_filter, List.map_eq_nil_iff,
    List.filter_eq_nil_iff]
  rintro n - hn
  simp only [Bool.and_eq_true, decide_eq_true_eq] at hn
  exact h (hn.1 ▸ hn.2)

end

-- ---------------------------------------------------------------------------
-- Where the files are
-- ---------------------------------------------------------------------------

section
variable {lower : String → String} {g : SoftwareGraph}

theorem emissions_filter : (emissions lower g).filter (fun e => e.1.id = x) =
    (generateFiles lower g).values.flatMap fun f => f.definitions.filter fun e => e.1.id = x := by
  rw [emissions, List.filter_flatMap]

theorem generateFiles_whole (h : modules g = [] ∧ packages g = []) :
    generateFiles lower g = Dict.empty.insert (repositoryFile lower g)
      (generateSingleFile g ((GenerateHelper.build g).ofType .class)
        ((GenerateHelper.build g).ofType .function) ((GenerateHelper.build g).ofType .method)
        ((GenerateHelper.build g).ofType .datamodel)) :=
  if_pos h

def orphanFile (g : SoftwareGraph) : GeneratedFile := generateSingleFile g (orphans g) [] [] []

/-- The file of a path: of the last module that has it, else of the first package, else of the
repository when there are orphans. -/
theorem get?_generateFiles (h : ¬ (modules g = [] ∧ packages g = [])) :
    (generateFiles lower g).get? p =
      ((((modules g).filter fun m => nodeToFilePath lower m = p).getLast?.map (moduleFile g)).or
        (((packages g).find? fun k => initPath lower k = p).map generatePackageInit)).or
        (if p = repositoryFile lower g ∧ orphans g ≠ [] then some (orphanFile g) else none) := by
  have hd : generateFiles lower g =
      let files := Dict.insertNew (initPath lower) generatePackageInit (packages g)
        (Dict.index (nodeToFilePath lower) (moduleFile g) (modules g))
      if orphans g = [] ∨ files.contains (repositoryFile lower g) then files
      else files.insert (repositoryFile lower g) (orphanFile g) := if_neg h
  rw [hd, ← Dict.get?_index, ← Dict.get?_insertNew]
  simp only
  split
  · rename_i ho
    rcases ho with ho | ho
    · simp [ho]
    · by_cases hp : p = repositoryFile lower g
      · obtain ⟨f, hf⟩ := Option.isSome_iff_exists.mp (Dict.isSome_get?_iff.mpr (Dict.contains_iff.mp ho))
        simp [hp, hf]
      · simp [hp]
  · rename_i ho
    obtain ⟨ho, hc⟩ := not_or.mp ho
    by_cases hp : p = repositoryFile lower g
    · have hn := Option.not_isSome_iff_eq_none.mp (mt Dict.isSome_get?_iff.mp (mt Dict.contains_iff.mpr hc))
      simp [hp, hn, ho]
    · simp [hp, Dict.get?_insert_ne hp]

variable (h : ¬ (modules g = [] ∧ packages g = []))
include h

theorem get?_module (hm : m ∈ modules g) : ∃ m' ∈ modules g,
    nodeToFilePath lower m' = nodeToFilePath lower m ∧
      (generateFiles lower g).get? (nodeToFilePath lower m) = some (moduleFile g m') := by
  have hne : ((modules g).filter fun m' => nodeToFilePath lower m' = nodeToFilePath lower m) ≠ [] :=
    List.ne_nil_of_mem (List.mem_filter.mpr ⟨hm, by simp⟩)
  obtain ⟨m', hm'⟩ := Option.isSome_iff_exists.mp (List.getLast?_isSome.mpr hne)
  have hmem := List.mem_of_getLast? hm'
  simp only [List.mem_filter, decide_eq_true_eq] at hmem
  refine ⟨m', hmem.1, hmem.2, ?_⟩
  rw [get?_generateFiles h, hm']
  rfl

theorem file_cases (hf : (generateFiles lower g).get? p = some f) :
    (∃ m ∈ modules g, nodeToFilePath lower m = p ∧ moduleFile g m = f) ∨ f.definitions = [] ∨
      (p = repositoryFile lower g ∧ p ∉ (modules g).map (nodeToFilePath lower) ∧
        p ∉ (packages g).map (initPath lower) ∧ f = orphanFile g) := by
  rw [get?_generateFiles h] at hf
  cases hm : ((modules g).filter fun m => nodeToFilePath lower m = p).getLast? with
  | some m =>
    have hmem := List.mem_of_getLast? hm
    simp only [List.mem_filter, decide_eq_true_eq] at hmem
    exact .inl ⟨m, hmem.1, hmem.2, by simpa [hm] using hf⟩
  | none =>
    cases hk : (packages g).find? fun k => initPath lower k = p with
    | some k =>
      have hfile : generatePackageInit k = f := by simpa [hm, hk] using hf
      exact .inr (.inl (hfile ▸ definition_purposeSection))
    | none =>
      obtain ⟨⟨hp, -⟩, hfile⟩ : (p = repositoryFile lower g ∧ orphans g ≠ []) ∧ orphanFile g = f := by
        simpa [hm, hk] using hf
      refine .inr (.inr ⟨hp, ?_, ?_, hfile.symm⟩)
      · intro hmem
        obtain ⟨m, hmem, he⟩ := List.mem_map.mp hmem
        rw [List.getLast?_eq_none_iff, List.filter_eq_nil_iff] at hm
        exact hm m hmem (by simpa using he)
      · intro hmem
        obtain ⟨k, hmem, he⟩ := List.mem_map.mp hmem
        rw [List.find?_eq_none] at hk
        exact hk k hmem (by simpa using he)

theorem get?_repository (hmod : repositoryFile lower g ∉ (modules g).map (nodeToFilePath lower))
    (hpack : repositoryFile lower g ∉ (packages g).map (initPath lower)) (ho : orphans g ≠ []) :
    (generateFiles lower g).get? (repositoryFile lower g) = some (orphanFile g) := by
  have hm : ((modules g).filter fun m => nodeToFilePath lower m = repositoryFile lower g) = [] :=
    List.filter_eq_nil_iff.mpr fun m hm he => hmod (List.mem_map.mpr ⟨m, hm, by simpa using he⟩)
  have hk : ((packages g).find? fun k => initPath lower k = repositoryFile lower g) = none :=
    List.find?_eq_none.mpr fun k hk he => hpack (List.mem_map.mpr ⟨k, hk, by simpa using he⟩)
  rw [get?_generateFiles h, hm, hk]
  simp [ho]

end

-- ---------------------------------------------------------------------------
-- Files with one path
-- ---------------------------------------------------------------------------

section
variable {lower : String → String} {g : SoftwareGraph} {m m' : SGIRNode}

def Section.purpose? : Section → Option String
  | .docstring purpose => some purpose
  | _ => none

def Section.lines? : Section → Option (List String)
  | .imports lines => some lines
  | _ => none

def readContents (file : GeneratedFile) : ModuleContents where
  purpose := (file.filterMap Section.purpose?).headD ""
  externalDependencies := ((file.filterMap Section.lines?).headD []).map fun line =>
    .ofList (line.toList.drop 7)
  datamodels := file.filterMap fun | .datamodel dm => some dm | _ => none
  classes := file.filterMap fun | .classDef cls _ classMethods => some (cls, classMethods) | _ => none
  functions := file.filterMap fun | .function func => some func | _ => none

theorem filterMap_purposeSection {r : Section → Option β} (hr : ∀ p, r (.docstring p) = none) :
    (purposeSection n).filterMap r = [] := by
  unfold purposeSection
  split <;> simp [hr]

theorem filterMap_importSection {r : Section → Option β} (hr : ∀ l, r (.imports l) = none) :
    (importSection lines).filterMap r = [] := by
  unfold importSection
  split <;> simp [hr]

theorem purpose?_purposeSection : ((purposeSection n).filterMap Section.purpose?).headD "" = n.purpose := by
  unfold purposeSection
  split
  · rename_i h; exact h.symm
  · rfl

theorem lines?_importSection : ((importSection lines).filterMap Section.lines?).headD [] = lines := by
  unfold importSection
  split
  · rename_i h; exact h.symm
  · rfl

theorem filterMap_moduleFile {r : Section → Option β} (hr : r .pass = none) :
    (moduleFile g m).filterMap r =
      (purposeSection m).filterMap r ++ (importSection (collectImportsForNode m)).filterMap r ++
        ((moduleContents g m).datamodels.filterMap (fun dm => r (.datamodel dm)) ++
          (moduleContents g m).classes.filterMap (fun c =>
            r (.classDef c.1 (getInheritance c.1 (GenerateHelper.build g)) c.2)) ++
          (moduleContents g m).functions.filterMap fun f => r (.function f)) := by
  have hkeep : ((GenerateHelper.build g).childrenOf m ((GenerateHelper.build g).ofType .function)).filter
      (fun f => f.nodeType ≠ .method) =
        (GenerateHelper.build g).childrenOf m ((GenerateHelper.build g).ofType .function) :=
    List.filter_eq_self.mpr fun n hn => by simp [nodeType_of_mem_ofType (List.mem_of_mem_filter hn)]
  rw [moduleFile, filterMap_generateModuleFile hr, definitionSections, hkeep]
  simp only [List.filterMap_append, List.filterMap_map, Function.comp_def, moduleContents, generateClass]

theorem readContents_moduleFile : readContents (moduleFile g m) = moduleContents g m := by
  have hpurpose : ((moduleFile g m).filterMap Section.purpose?).headD "" = m.purpose := by
    rw [filterMap_moduleFile rfl, filterMap_importSection fun _ => rfl]
    simpa [Section.purpose?] using purpose?_purposeSection
  have hlines : ((moduleFile g m).filterMap Section.lines?).headD [] = collectImportsForNode m := by
    rw [filterMap_moduleFile rfl, filterMap_purposeSection fun _ => rfl]
    simpa [Section.lines?] using lines?_importSection
  have hdeps : (collectImportsForNode m).map (fun line => .ofList (line.toList.drop 7)) =
      m.externalDependencies := by
    simp [collectImportsForNode, Function.comp_def]
  rw [readContents, hpurpose, hlines, hdeps, filterMap_moduleFile rfl, filterMap_moduleFile rfl,
    filterMap_moduleFile rfl]
  simp only [filterMap_purposeSection, filterMap_importSection, implies_true]
  simp [moduleContents]

theorem moduleFile_eq_iff : moduleFile g m = moduleFile g m' ↔ moduleContents g m = moduleContents g m' := by
  constructor
  · intro h
    rw [← readContents_moduleFile, h, readContents_moduleFile]
  · intro h
    rw [moduleContents, moduleContents, ModuleContents.mk.injEq] at h
    obtain ⟨hpurpose, hdeps, hdatamodels, hclasses, hfunctions⟩ := h
    have hdefs := congrArg (List.map fun c =>
      Section.classDef c.1 (getInheritance c.1 (GenerateHelper.build g)) c.2) hclasses
    simp only [List.map_map, Function.comp_def] at hdefs
    unfold moduleFile generateModuleFile purposeSection collectImportsForNode definitionSections generateClass
    simp only
    rw [hpurpose, hdeps, hdatamodels, hfunctions, hdefs]

theorem kept_iff (h : ¬ (modules g = [] ∧ packages g = [])) :
    (∀ m ∈ modules g, (generateFiles lower g).get? (nodeToFilePath lower m) = some (moduleFile g m)) ↔
      ∀ m ∈ modules g, ∀ m' ∈ modules g, nodeToFilePath lower m = nodeToFilePath lower m' →
        moduleContents g m = moduleContents g m' := by
  constructor
  · intro hkept m hm m' hm' hpath
    have hfile := hkept m hm
    rw [hpath, hkept m' hm'] at hfile
    exact moduleFile_eq_iff.mp (Option.some_inj.mp hfile).symm
  · intro hsame m hm
    obtain ⟨m', hm', hpath, hfile⟩ := get?_module h hm
    rw [hfile, moduleFile_eq_iff.mpr (hsame m' hm' m hm hpath)]

end

-- ---------------------------------------------------------------------------
-- Exactly once
-- ---------------------------------------------------------------------------

section
variable {lower : String → String} {g : SoftwareGraph}

theorem self_mem_declarations (hn : n ∈ definitionNodes g) : n ∈ declarations g n.id :=
  List.mem_filter.mpr ⟨hn, by simp⟩

theorem tagged_declarations_eq_singleton (hn : n ∈ definitionNodes g) :
    (∃ n', (declarations g n.id).map tagged = [(n', kindOf n.nodeType)]) ↔
      (declarations g n.id).length = 1 := by
  constructor
  · rintro ⟨n', h⟩
    simpa using congrArg List.length h
  · intro h
    obtain ⟨d, hd⟩ := List.length_eq_one_iff.mp h
    have hnd : n = d := by simpa [hd] using self_mem_declarations hn
    exact ⟨n, by rw [hd, ← hnd]; rfl⟩

theorem orphanFile_of_linked (hm : m ∈ modules g) (hlink : g.Linked m.id x) :
    (orphanFile g).definitions.filter (fun e => e.1.id = x) = [] := by
  rw [orphanFile, definitions_orphanFile, List.filter_eq_nil_iff]
  intro e he hx
  obtain ⟨n, hn, rfl⟩ := List.mem_map.mp he
  simp only [decide_eq_true_eq] at hx
  obtain ⟨-, hunder⟩ := List.mem_filter.mp hn
  exact of_decide_eq_true hunder ((GenerateHelper.isUnderModules_build n _).mpr (.inl ⟨m, hm, hx ▸ hlink⟩))

theorem orphans_of_not_linked (hlink : ∀ m ∈ modules g, ¬ g.Linked m.id x) :
    ((orphans g).filter fun n => n.id = x).Perm
      ((declarations g x).filter fun d => ¬ GenerateHelper.inModuleFile d (modules g)) := by
  have hperm : ((GenerateHelper.build g).ofType .class ++ (GenerateHelper.build g).ofType .function ++
      (GenerateHelper.build g).ofType .datamodel).Perm (definitionNodes g) := by
    rw [definitionNodes, List.append_assoc _ _ ((GenerateHelper.build g).ofType .function)]
    exact List.perm_append_comm
  have h := hperm.filter fun n => decide (n.id = x) && !GenerateHelper.inModuleFile n (modules g)
  rw [orphans, declarations, List.filter_filter, List.filter_filter]
  refine (List.Perm.of_eq ?_).trans (h.trans (List.Perm.of_eq ?_))
  · apply List.filter_congr
    intro n _
    by_cases hx : n.id = x
    · have hunder := GenerateHelper.isUnderModules_build (g := g) n (modules g)
      have hnone : ¬ ∃ m ∈ modules g, g.Linked m.id n.id := fun ⟨m, hm, hl⟩ => hlink m hm (hx ▸ hl)
      simp only [hnone, false_or] at hunder
      rw [← Bool.eq_iff_iff] at hunder
      simp only [modules] at hunder
      simp [hx, modules, hunder]
    · simp [hx]
  · exact List.filter_congr fun n _ => by cases GenerateHelper.inModuleFile n (modules g) <;> simp

theorem kindOf_eq_classKeyword {t : NodeType} : kindOf t = .classKeyword ↔ t ≠ .function := by
  cases t <;> simp [kindOf]

section
variable (h : ¬ (modules g = [] ∧ packages g = []))
  (hkept : ∀ m ∈ modules g,
    (generateFiles lower g).get? (nodeToFilePath lower m) = some (moduleFile g m))
include h hkept

theorem once_of_linked (hn : n ∈ definitionNodes g) (hm : m ∈ modules g) (hlink : g.Linked m.id n.id) :
    (∃ n', (emissions lower g).filter (fun e => e.1.id = n.id) = [(n', kindOf n.nodeType)]) ↔
      (declarations g n.id).length = 1 ∧ ∃ m ∈ modules g, g.Linked m.id n.id ∧
        ∀ m' ∈ modules g, g.Linked m'.id n.id → nodeToFilePath lower m' = nodeToFilePath lower m := by
  have hne : (declarations g n.id).map tagged ≠ [] := fun he =>
    List.ne_nil_of_mem (self_mem_declarations hn) (List.map_eq_nil_iff.mp he)
  simp only [emissions_filter, Dict.flatMap_values_eq_singleton_iff]
  constructor
  · rintro ⟨n', p, f, hf, hone, hothers⟩
    rcases file_cases h hf with ⟨k, hk, hp, rfl⟩ | hnone | ⟨-, -, -, rfl⟩
    · by_cases hkn : g.Linked k.id n.id
      · rw [moduleFile_of_linked hkn] at hone
        refine ⟨(tagged_declarations_eq_singleton hn).mp ⟨n', hone⟩, k, hk, hkn, ?_⟩
        intro m' hm' hm'n
        by_contra hpath
        have := hothers _ _ (hkept m' hm') (hp ▸ hpath)
        exact hne (moduleFile_of_linked hm'n ▸ this)
      · rw [moduleFile_of_not_linked hkn] at hone
        cases hone
    · rw [hnone] at hone
      cases hone
    · rw [orphanFile_of_linked hm hlink] at hone
      cases hone
  · rintro ⟨hlen, k, hk, hkn, hpath⟩
    obtain ⟨n', hone⟩ := (tagged_declarations_eq_singleton hn).mpr hlen
    refine ⟨n', _, _, hkept k hk, (moduleFile_of_linked hkn).trans hone, ?_⟩
    intro p f hf hp
    rcases file_cases h hf with ⟨k', hk', hp', rfl⟩ | hnone | ⟨-, -, -, rfl⟩
    · exact moduleFile_of_not_linked fun hk'n => hp (hp' ▸ hpath k' hk' hk'n)
    · rw [hnone, List.filter_nil]
    · exact orphanFile_of_linked hm hlink

omit hkept in
theorem once_of_not_linked {n : SGIRNode} (hlink : ∀ m ∈ modules g, ¬ g.Linked m.id n.id) :
    (∃ n', (emissions lower g).filter (fun e => e.1.id = n.id) = [(n', kindOf n.nodeType)]) ↔
      n.nodeType ≠ .function ∧
      ((declarations g n.id).filter fun d => ¬ GenerateHelper.inModuleFile d (modules g)).length = 1 ∧
      repositoryFile lower g ∉ (modules g).map (nodeToFilePath lower) ∧
      repositoryFile lower g ∉ (packages g).map (initPath lower) := by
  have horphans : (orphanFile g).definitions.filter (fun e => e.1.id = n.id) =
      ((orphans g).filter fun d => d.id = n.id).map fun d => (d, .classKeyword) := by
    rw [orphanFile, definitions_orphanFile, List.filter_map]
    rfl
  rw [← (orphans_of_not_linked hlink).length_eq]
  simp only [emissions_filter, Dict.flatMap_values_eq_singleton_iff]
  constructor
  · rintro ⟨n', p, f, hf, hone, -⟩
    rcases file_cases h hf with ⟨k, hk, -, rfl⟩ | hnone | ⟨hp, hmod, hpack, rfl⟩
    · rw [moduleFile_of_not_linked (hlink k hk)] at hone
      cases hone
    · rw [hnone] at hone
      cases hone
    · rw [horphans] at hone
      obtain ⟨d, hd, hdn⟩ := List.map_eq_singleton_iff.mp hone
      refine ⟨?_, by rw [hd]; rfl, hp ▸ hmod, hp ▸ hpack⟩
      exact kindOf_eq_classKeyword.mp (congrArg Prod.snd hdn).symm
  · rintro ⟨hfunction, hlen, hmod, hpack⟩
    obtain ⟨d, hd⟩ := List.length_eq_one_iff.mp hlen
    have hne : orphans g ≠ [] := fun he => by simp [he] at hd
    refine ⟨d, _, _, get?_repository h hmod hpack hne, ?_, fun p f hf hp => ?_⟩
    · rw [horphans, hd, kindOf_eq_classKeyword.mpr hfunction]
      rfl
    · rcases file_cases h hf with ⟨k, hk, -, rfl⟩ | hnone | ⟨hp', -⟩
      · exact moduleFile_of_not_linked (hlink k hk)
      · rw [hnone, List.filter_nil]
      · exact absurd hp' hp

theorem once_iff (hn : n ∈ definitionNodes g) :
    (∃ n', (emissions lower g).filter (fun e => e.1.id = n.id) = [(n', kindOf n.nodeType)]) ↔
      PlacedOnce lower g n := by
  by_cases hlink : ∃ m ∈ modules g, g.Linked m.id n.id
  · obtain ⟨m, hm, hmn⟩ := hlink
    rw [once_of_linked h hkept hn hm hmn, PlacedOnce]
    constructor
    · rintro ⟨hlen, k, hk, hkn, hpath⟩
      exact .inl ⟨k, hk, hkn, hlen, hpath⟩
    · rintro (⟨k, hk, hkn, hlen, hpath⟩ | ⟨hnone, -⟩)
      · exact ⟨hlen, k, hk, hkn, hpath⟩
      · exact absurd hmn (hnone m hm)
  · have hnone : ∀ m ∈ modules g, ¬ g.Linked m.id n.id := fun m hm hmn => hlink ⟨m, hm, hmn⟩
    rw [once_of_not_linked h hnone, PlacedOnce]
    constructor
    · exact fun hrest => .inr ⟨hnone, hrest⟩
    · rintro (⟨k, hk, hkn, -⟩ | ⟨-, hrest⟩)
      · exact absurd hkn (hnone k hk)
      · exact hrest

end

theorem once_whole (h : modules g = [] ∧ packages g = []) (hn : n ∈ definitionNodes g) :
    (∃ n', (emissions lower g).filter (fun e => e.1.id = n.id) = [(n', kindOf n.nodeType)]) ↔
      (declarations g n.id).length = 1 := by
  rw [← tagged_declarations_eq_singleton hn, emissions, generateFiles_whole h]
  have hvalues : ∀ (p : String) (f : GeneratedFile), (Dict.empty.insert p f).values = [f] := fun _ _ => rfl
  rw [hvalues, List.flatMap_singleton, definitions_wholeFile, filter_tagged, declarations]

end

/-- Without modules and packages the backend defines every id once when it is declared once. With
them it does when modules that share a file have the same contents and every node is placed once. -/
theorem emitsOnce_iff (lower : String → String) (g : SoftwareGraph) :
    EmitsOnce lower g ↔
      if modules g = [] ∧ packages g = [] then
        ∀ n ∈ definitionNodes g, (declarations g n.id).length = 1
      else
        (∀ m ∈ modules g, ∀ m' ∈ modules g, nodeToFilePath lower m = nodeToFilePath lower m' →
          moduleContents g m = moduleContents g m') ∧
        ∀ n ∈ definitionNodes g, PlacedOnce lower g n := by
  split
  · rename_i h
    constructor
    · exact fun he n hn => (once_whole h hn).mp (he.once n hn)
    · intro hlen
      refine ⟨fun n hn => (once_whole h hn).mpr (hlen n hn), ?_⟩
      intro m hm
      rw [h.1] at hm
      cases hm
  · rename_i h
    constructor
    · intro he
      exact ⟨(kept_iff h).mp he.kept, fun n hn => (once_iff h he.kept hn).mp (he.once n hn)⟩
    · rintro ⟨hsame, hplaced⟩
      have hkept := (kept_iff h).mpr hsame
      exact ⟨fun n hn => (once_iff h hkept hn).mpr (hplaced n hn), hkept⟩

def cart : SGIRNode where
  id := "shop.py::Cart"
  name := "Cart"
  nodeType := .class

def declaredTwice : SoftwareGraph where
  repositoryName := "shop"
  layers := [{ layer := .call, nodes := [cart] }, { layer := .security, nodes := [cart] }]
  keyed := by decide

theorem class_written_twice : ¬ EmitsOnce String.toLower declaredTwice := by
  intro he
  have hcart : cart ∈ definitionNodes declaredTwice := by decide +kernel
  have hlen := (once_whole (by decide +kernel) hcart).mp (he.once cart hcart)
  exact absurd hlen (by decide +kernel)

end Intelliqx.Graph.PythonBackend
