import Intelliqx.Base.Dict
import Intelliqx.Base.Except
import Intelliqx.Base.Mealy
import Mathlib.Data.List.Induction

/-!
# The catalog of agents and their registry

The catalog is built anew after every reset, and each build makes factories of
its own. `register_all` refuses to replace a factory by another: it raises
exactly if the registry still holds factories of an older catalog or of
somebody else (`register_all_raises_iff`, `registerAll_isOk_iff`). What it has
registered before it raises stays registered (`register_all_partial`).
-/

namespace Intelliqx.Agents

-- ---------------------------------------------------------------------------
-- Roles
-- ---------------------------------------------------------------------------

inductive AgentCategory
  | coordination
  | intelligence
  | execution
  | governance
  deriving DecidableEq

def AgentCategory.value : AgentCategory → String
  | .coordination => "coordination"
  | .intelligence => "intelligence"
  | .execution => "execution"
  | .governance => "governance"

def AgentCategory.all : List AgentCategory := [.coordination, .intelligence, .execution, .governance]

def AgentCategory.ofValue (s : String) : Option AgentCategory := all.find? fun c => c.value = s

/-- An output model is named by its class. -/
structure RoleSpec where
  name : String
  category : String
  instructions : String
  outputModel : Option String := none
  deriving DecidableEq

/-- A callable, by its identity: the one that a build makes for a row of the table, or another. -/
inductive Factory
  | ofRole (build row : Nat)
  | other (id : Nat)
  deriving DecidableEq

structure AgentRole where
  name : String
  category : String
  description : String
  outputType : String
  factory : Factory
  deriving DecidableEq

structure AgentMeta where
  name : String
  category : AgentCategory
  version : String := "0.1.0"
  description : String := ""
  deriving DecidableEq

/-- What `register_all` raises. -/
inductive RegisterError
  | unknownRoleCategory (category : String)
  | unknownNames (names : List String)
  | otherFactory (name : String)
  | unknownCategory (name category : String)
  deriving DecidableEq

/-- `repr` is that of a text. -/
def RegisterError.text (repr : String → String) : RegisterError → String
  | .unknownRoleCategory category => "Unknown role category: " ++ repr category
  | .unknownNames names =>
    "register_all would drop existing registrations not in the catalog; refusing. Unknown names: [" ++
      ", ".intercalate (names.map repr) ++ "]"
  | .otherFactory name =>
    "register_all would replace the factory for " ++ repr name ++
      " with a different callable; refusing to clobber prior state."
  | .unknownCategory name category => "Role " ++ repr name ++ " has unknown category " ++ repr category

def categories : List String := ["coordination", "intelligence", "execution", "governance"]

def roleTable : List RoleSpec :=
  [⟨"planner", "coordination",
     "You are the IntelliqX planner. Given a goal, produce a deterministic step-by-step plan using only " ++
       "the named agents.", some "PlanResult"⟩,
   ⟨"orchestrator", "coordination", "IntelliqX orchestrator. Always emit one terminal result.", some "Done"⟩,
   ⟨"knowledge_rag", "coordination",
     "Return the best matching knowledge snippets as a JSON {hits: [{id, text}]} object.",
     some "RetrievalResult"⟩,
   ⟨"tool_manager", "coordination", "Return the tool execution result.", none⟩,
   ⟨"smoke", "coordination", "Echo the input and return one short string.", none⟩,
   ⟨"requirements_intel", "intelligence",
     "Extract requirements as a JSON {items: [{id, text}]} object.", some "RequirementList"⟩,
   ⟨"code_intel", "intelligence", "Return the list of files affected by the change.", some "Impact"⟩,
   ⟨"risk_assessment", "intelligence",
     "Score the proposed change 0..1 and explain in one sentence.", some "Risk"⟩,
   ⟨"test_design", "intelligence",
     "Return test cases as a JSON {cases: [{name, steps:[...]}]} object.", some "TestCaseList"⟩,
   ⟨"test_data", "intelligence", "Return a JSON dataset string for the test plan.", none⟩,
   ⟨"coverage_analysis", "intelligence",
     "Return coverage percent 0..100 and the list of gap names.", some "Coverage"⟩,
   ⟨"critic", "intelligence", "List every schema violation or hallucination in the input.", some "Critique"⟩,
   ⟨"learning", "intelligence", "Persist feedback and return one short summary.", none⟩,
   ⟨"prompt_management", "intelligence", "Return the selected prompt version id.", none⟩,
   ⟨"environment", "execution", "Start the system under test and return the base URL.", none⟩,
   ⟨"design_intel", "execution", "Return a concise DOM snapshot of the running page.", none⟩,
   ⟨"execution",
     "execution", "Run the test plan and return {passed, failed, outcome}.", some "ExecutionResult"⟩,
   ⟨"self_healing", "execution",
     "Return the recovered selector and a 0..1 confidence score.", some "SelfHealingPlan"⟩,
   ⟨"failure_analysis", "execution", "Return a one-line failure category.", none⟩,
   ⟨"visual_regression", "execution", "Return 'match' or 'mismatch'.", none⟩,
   ⟨"accessibility", "execution", "Return the list of WCAG issues as JSON.", none⟩,
   ⟨"performance", "execution", "Return p50/p95/p99 latencies as JSON.", none⟩,
   ⟨"security", "execution", "Return the list of security findings as JSON.", none⟩,
   ⟨"cost_optimization", "execution", "Return the recommended cost-saving changes as JSON.", none⟩,
   ⟨"observability", "governance", "Return the SLO summary as JSON.", none⟩,
   ⟨"reporting", "governance", "Return the markdown run report.", none⟩,
   ⟨"governance_compliance", "governance", "Return the approval decision and audit record ids.", none⟩,
   ⟨"release_readiness", "governance",
     "Return {recommendation, confidence, outcome}.", some "ReleaseDecision"⟩]

/-- The roles, each with a factory that this build makes. -/
def buildRoles (table : List RoleSpec) (build : Nat) : Except RegisterError (List AgentRole) :=
  table.zipIdx.mapM fun (spec, row) =>
    if spec.category ∉ categories then .error (.unknownRoleCategory spec.category)
    else
      .ok
        { name := spec.name
          category := spec.category
          description := spec.instructions
          outputType := spec.outputModel.getD "str"
          factory := .ofRole build row }

def metaFor (role : AgentRole) : Except RegisterError AgentMeta :=
  match AgentCategory.ofValue role.category with
  | none => .error (.unknownCategory role.name role.category)
  | some category => .ok { name := role.name, category, version := "1.0.0", description := role.description }

-- ---------------------------------------------------------------------------
-- The process
-- ---------------------------------------------------------------------------

structure AgentRegistry where
  factories : Dict String Factory := .empty
  «meta» : Dict String (Option AgentMeta) := .empty

def AgentRegistry.register (registry : AgentRegistry) (name : String) (factory : Factory) (m : Option AgentMeta) :
    AgentRegistry where
  factories := registry.factories.insert name factory
  «meta» := registry.meta.insert name m

/-- What the process holds, and how many catalogs it has built. -/
structure Process where
  catalog : Option (List AgentRole) := none
  builds : Nat := 0
  registry : Option AgentRegistry := none

def getAgentRegistry (p : Process) : AgentRegistry := p.registry.getD {}

def buildCatalog (table : List RoleSpec) (p : Process) : Except RegisterError (List AgentRole) × Process :=
  match p.catalog with
  | some catalog => (.ok catalog, p)
  | none =>
    match buildRoles table (p.builds + 1) with
    | .error e => (.error e, p)
    | .ok catalog => (.ok catalog, { p with catalog := some catalog, builds := p.builds + 1 })

/-- Register the roles, up to one that is refused. -/
def registerRoles (registry : AgentRegistry) : List AgentRole → Except RegisterError Unit × AgentRegistry
  | [] => (.ok (), registry)
  | role :: roles =>
    if (registry.factories.get? role.name).any (· ≠ role.factory) then (.error (.otherFactory role.name), registry)
    else
      match metaFor role with
      | .error e => (.error e, registry)
      | .ok m => registerRoles (registry.register role.name role.factory (some m)) roles

def registerAll (table : List RoleSpec) (p : Process) : Except RegisterError Unit × Process :=
  let p := { p with registry := some (getAgentRegistry p) }
  match buildCatalog table p with
  | (.error e, p) => (.error e, p)
  | (.ok catalog, p) =>
    let unknown := (getAgentRegistry p).factories.keys.filter fun name => name ∉ catalog.map AgentRole.name
    if unknown ≠ [] then (.error (.unknownNames (unknown.mergeSort (· ≤ ·))), p)
    else
      let (result, registry) := registerRoles (getAgentRegistry p) catalog
      (result, { p with registry := some registry })

inductive Op
  | registerAll
  | buildCatalog
  | resetCatalog
  | resetAgentRegistry
  | registerAgent (name : String) (id : Nat) (m : Option AgentMeta)

/-- What comes out of `register_all`; the others never raise for a table of known categories. -/
def step (table : List RoleSpec) (p : Process) : Op → Except RegisterError Unit × Process
  | .registerAll => registerAll table p
  | .buildCatalog => ((buildCatalog table p).1.map fun _ => (), (buildCatalog table p).2)
  | .resetCatalog => (.ok (), { p with catalog := none })
  | .resetAgentRegistry => (.ok (), { p with registry := none })
  | .registerAgent name id m =>
    (.ok (), { p with registry := some ((getAgentRegistry p).register name (.other id) m) })

def after (table : List RoleSpec) (ops : List Op) : Process := Mealy.final (step table) {} ops

-- ---------------------------------------------------------------------------
-- Registering
-- ---------------------------------------------------------------------------

/-- No two rows of a name, and every category known. -/
structure Known (table : List RoleSpec) : Prop where
  distinct : (table.map RoleSpec.name).Nodup
  categories : ∀ spec ∈ table, spec.category ∈ categories

theorem known_ROLE_TABLE : Known roleTable := ⟨by decide +kernel, by decide +kernel⟩

theorem ROLE_TABLE_ne_nil : roleTable ≠ [] := List.cons_ne_nil _ _

def role (build : Nat) (row : RoleSpec × Nat) : AgentRole where
  name := row.1.name
  category := row.1.category
  description := row.1.instructions
  outputType := row.1.outputModel.getD "str"
  factory := .ofRole build row.2

def rolesOf (table : List RoleSpec) (build : Nat) : List AgentRole := table.zipIdx.map (role build)

def metaOf (role : AgentRole) : AgentMeta where
  name := role.name
  category := (AgentCategory.ofValue role.category).getD .coordination
  version := "1.0.0"
  description := role.description

/-- Every role registered, without a look at what is there. -/
def registerEach (registry : AgentRegistry) (roles : List AgentRole) : AgentRegistry :=
  roles.foldl (fun registry role => registry.register role.name role.factory (some (metaOf role))) registry

section
variable {table : List RoleSpec} {build : Nat} {registry : AgentRegistry} {roles : List AgentRole}
  {role : AgentRole}
  {name : String} {p : Process}

theorem buildRoles_eq (h : Known table) : buildRoles table build = .ok (rolesOf table build) := by
  refine mapM_eq_ok_map fun row hrow => ?_
  have hspec : row.1 ∈ table := List.fst_mem_of_mem_zipIdx hrow
  exact if_neg (not_not.mpr (h.categories row.1 hspec))

theorem map_name_rolesOf {b : Nat} : (rolesOf table b).map AgentRole.name = table.map RoleSpec.name := by
  rw [rolesOf, List.map_map]
  have hname : AgentRole.name ∘ Agents.role b = RoleSpec.name ∘ Prod.fst := rfl
  rw [hname, ← List.map_map, List.zipIdx_map_fst]

theorem category_of_mem_rolesOf (h : Known table) (hrole : role ∈ rolesOf table build) :
    role.category ∈ categories := by
  obtain ⟨row, hrow, rfl⟩ := List.mem_map.mp hrole
  exact h.categories row.1 (List.fst_mem_of_mem_zipIdx hrow)

/-- Every category that is known is one of `AgentCategory`. -/
theorem metaFor_eq (h : role.category ∈ categories) : metaFor role = .ok (metaOf role) := by
  have hsome : ∀ c ∈ categories, (AgentCategory.ofValue c).isSome := by decide
  obtain ⟨category, hcategory⟩ := Option.isSome_iff_exists.mp (hsome _ h)
  simp only [metaFor, metaOf, hcategory, Option.getD_some]

theorem registerEach_cons : registerEach registry (role :: roles) =
    registerEach (registry.register role.name role.factory (some (metaOf role))) roles := rfl

theorem get?_register {factory : Factory} {m : Option AgentMeta} {n : String} :
    (registry.register n factory m).factories.get? name =
      if name = n then some factory else registry.factories.get? name :=
  Dict.get?_insert

theorem get?_registerEach_of_not_mem (h : name ∉ roles.map AgentRole.name) :
    (registerEach registry roles).factories.get? name = registry.factories.get? name := by
  induction roles generalizing registry with
  | nil => rfl
  | cons role roles ih =>
    rw [List.map_cons, List.mem_cons, not_or] at h
    rw [registerEach_cons, ih h.2, get?_register, if_neg h.1]

/-- The role is registered as it is. -/
def Present (registry : AgentRegistry) (role : AgentRole) : Prop :=
  registry.factories.get? role.name = some role.factory ∧ registry.meta.get? role.name = some (some (metaOf role))

theorem present_registerEach (hdistinct : (roles.map AgentRole.name).Nodup) (hrole : role ∈ roles) :
    Present (registerEach registry roles) role := by
  have hkeep (rs : List AgentRole) (hrs : role.name ∉ rs.map AgentRole.name) (registry : AgentRegistry)
      (h : Present registry role) : Present (registerEach registry rs) role := by
    induction rs generalizing registry with
    | nil => exact h
    | cons r rs ih =>
      rw [List.map_cons, List.mem_cons, not_or] at hrs
      exact ih hrs.2 _ ⟨(Dict.get?_insert_ne hrs.1).trans h.1, (Dict.get?_insert_ne hrs.1).trans h.2⟩
  induction roles generalizing registry with
  | nil => cases hrole
  | cons r roles ih =>
    obtain ⟨hr, hrest⟩ := List.nodup_cons.mp hdistinct
    rw [registerEach_cons]
    rcases List.mem_cons.mp hrole with rfl | hrole
    · exact hkeep roles hr _ ⟨Dict.get?_insert_self, Dict.get?_insert_self⟩
    · exact ih hrest hrole

theorem insert_eq_self {κ : Type u} {ν : Type v} [DecidableEq κ] {d : Dict κ ν} {k : κ} {v : ν}
    (h : d.get? k = some v) : d.insert k v = d := by
  have hentries (es : List (κ × ν)) (hes : es.lookup k = some v) : insertEntry k v es = es := by
    induction es with
    | nil => cases hes
    | cons e es ih =>
      obtain ⟨k', v'⟩ := e
      rw [lookup_cons_ite] at hes
      rw [insertEntry]
      by_cases hk : k' = k
      · subst hk
        rw [if_pos rfl] at hes ⊢
        obtain rfl : v' = v := Option.some.inj hes
        rfl
      · rw [if_neg (Ne.symm hk)] at hes
        rw [if_neg hk, ih hes]
  exact Dict.ext (hentries d.entries h)

/-- To register what is registered changes nothing. -/
theorem registerEach_eq_self (h : ∀ role ∈ roles, Present registry role) :
    registerEach registry roles = registry := by
  induction roles with
  | nil => rfl
  | cons role roles ih =>
    obtain ⟨hrole, hroles⟩ := List.forall_mem_cons.mp h
    have hself : registry.register role.name role.factory (some (metaOf role)) = registry := by
      rw [AgentRegistry.register, insert_eq_self hrole.1, insert_eq_self hrole.2]
    rw [registerEach_cons, hself, ih hroles]

/-- The roles are registered, or the first one is refused that another factory is registered for. -/
theorem registerRoles_spec (registry : AgentRegistry) (hdistinct : (roles.map AgentRole.name).Nodup)
    (hcategories : ∀ role ∈ roles, role.category ∈ categories) :
    (registerRoles registry roles = (.ok (), registerEach registry roles) ∧
        ∀ role ∈ roles, ∀ f, registry.factories.get? role.name = some f → f = role.factory) ∨
      ∃ front r back f, roles = front ++ r :: back ∧ registry.factories.get? r.name = some f ∧ f ≠ r.factory ∧
        (∀ role ∈ front, ∀ f, registry.factories.get? role.name = some f → f = role.factory) ∧
        registerRoles registry roles = (.error (.otherFactory r.name), registerEach registry front) := by
  induction roles generalizing registry with
  | nil => exact .inl ⟨rfl, fun _ h => nomatch h⟩
  | cons role roles ih =>
    obtain ⟨hr, hrest⟩ := List.nodup_cons.mp hdistinct
    obtain ⟨hcategory, hcategories'⟩ := List.forall_mem_cons.mp hcategories
    by_cases hother : (registry.factories.get? role.name).any (· ≠ role.factory) = true
    · obtain ⟨f, hf, hne⟩ : ∃ f, registry.factories.get? role.name = some f ∧ f ≠ role.factory := by
        simpa [Option.any_eq_true] using hother
      refine .inr ⟨[], role, roles, f, rfl, hf, hne, fun _ h => (nomatch h), ?_⟩
      rw [registerRoles, if_pos hother]
      rfl
    · have hsame : ∀ f, registry.factories.get? role.name = some f → f = role.factory := by
        intro f hf
        simpa [hf] using hother
      -- the roles behind have other names, so what they find does not depend on this one
      have hkeep : ∀ r ∈ roles, ∀ f,
          (registry.register role.name role.factory (some (metaOf role))).factories.get? r.name =
          some f ↔ registry.factories.get? r.name = some f := by
        intro r hmem f
        have hne : r.name ≠ role.name := fun h => hr (h ▸ List.mem_map_of_mem hmem)
        rw [get?_register, if_neg hne]
      rw [registerRoles, if_neg hother, metaFor_eq hcategory]
      rcases ih (registry.register role.name role.factory (some (metaOf role))) hrest hcategories' with
        ⟨hok, hall⟩ | ⟨front, r, back, f, rfl, hf, hne, hfront, herror⟩
      · refine .inl ⟨hok, List.forall_mem_cons.mpr ⟨hsame, fun r hmem f hf => ?_⟩⟩
        exact hall r hmem f ((hkeep r hmem f).mpr hf)
      · have hmem : r ∈ front ++ r :: back := List.mem_append_right front List.mem_cons_self
        refine .inr ⟨role :: front, r, back, f, rfl, (hkeep r hmem f).mp hf, hne, ?_, herror⟩
        refine List.forall_mem_cons.mpr ⟨hsame, fun r' hr' f hf => hfront r' hr' f ?_⟩
        exact (hkeep r' (List.mem_append_left _ hr') f).mpr hf

/-- The build that the next call of `build_catalog` answers with. -/
def Process.nextBuild (p : Process) : Nat := if p.catalog.isSome then p.builds else p.builds + 1

/-- The catalog, where there is one, is the one built last. -/
def Process.Built (table : List RoleSpec) (p : Process) : Prop :=
  ∀ catalog, p.catalog = some catalog → catalog = rolesOf table p.builds

def Process.withCatalog (table : List RoleSpec) (p : Process) : Process :=
  { p with catalog := some (rolesOf table p.nextBuild), builds := p.nextBuild }

theorem buildCatalog_eq (h : Known table) (hp : p.Built table) :
    buildCatalog table p = (.ok (rolesOf table p.nextBuild), p.withCatalog table) := by
  obtain ⟨catalog, builds, registry⟩ := p
  cases catalog with
  | some catalog =>
    have hcatalog : catalog = rolesOf table builds := hp catalog rfl
    subst hcatalog
    rfl
  | none =>
    simp only [buildCatalog, buildRoles_eq h]
    rfl

/-- Where the factories of a registry come from the catalog, all of them. -/
def Fits (registry : AgentRegistry) (catalog : List AgentRole) : Prop :=
  ∀ name f, registry.factories.get? name = some f → ∃ role ∈ catalog, role.name = name ∧ role.factory = f

inductive Outcome (table : List RoleSpec) (p : Process) : Except RegisterError Unit × Process → Prop
  | registered (h : Fits (getAgentRegistry p) (rolesOf table p.nextBuild)) :
    Outcome table p (.ok (), { p.withCatalog table with
      registry := some (registerEach (getAgentRegistry p) (rolesOf table p.nextBuild)) })
  | unknown (names : List String) (hne : names ≠ [])
    (hnames : ∀ name ∈ names,
      (∃ f, (getAgentRegistry p).factories.get? name = some f) ∧ name ∉ table.map RoleSpec.name) :
    Outcome table p (.error (.unknownNames names),
      { p.withCatalog table with registry := some (getAgentRegistry p) })
  | refused (front : List AgentRole) (r : AgentRole) (back : List AgentRole) (f : Factory)
    (hsplit : rolesOf table p.nextBuild = front ++ r :: back)
    (hother : (getAgentRegistry p).factories.get? r.name = some f ∧ f ≠ r.factory)
    (hfront : ∀ role ∈ front, ∀ f, (getAgentRegistry p).factories.get? role.name = some f → f = role.factory) :
    Outcome table p (.error (.otherFactory r.name), { p.withCatalog table with
      registry := some (registerEach (getAgentRegistry p) front) })

theorem registerAll_outcome (h : Known table) (hp : p.Built table) : Outcome table p (registerAll table p) := by
  have hdistinct : ((rolesOf table p.nextBuild).map AgentRole.name).Nodup := map_name_rolesOf ▸ h.distinct
  have hcatalog : buildCatalog table { p with registry := some (getAgentRegistry p) } =
      (.ok (rolesOf table p.nextBuild), { p.withCatalog table with registry := some (getAgentRegistry p) }) :=
    buildCatalog_eq h hp
  have hget : getAgentRegistry { p.withCatalog table with registry := some (getAgentRegistry p) } =
      getAgentRegistry p := rfl
  simp only [registerAll, hcatalog, hget, map_name_rolesOf]
  split
  · rename_i hunknown
    refine .unknown _ ?_ fun name hname => ?_
    · exact fun hnil => hunknown (List.length_eq_zero_iff.mp (by rw [← List.length_mergeSort, hnil]; rfl))
    · obtain ⟨hkey, hnot⟩ := List.mem_filter.mp (List.mem_mergeSort.mp hname)
      exact ⟨Option.isSome_iff_exists.mp (Dict.isSome_get?_iff.mpr hkey), of_decide_eq_true hnot⟩
  · rename_i hunknown
    have hknown : ∀ name f, (getAgentRegistry p).factories.get? name = some f →
        name ∈ table.map RoleSpec.name := by
      intro name f hf
      by_contra hnot
      have hkey := Dict.isSome_get?_iff.mp (Option.isSome_iff_exists.mpr ⟨f, hf⟩)
      exact hunknown (List.ne_nil_of_mem (List.mem_filter.mpr ⟨hkey, decide_eq_true hnot⟩))
    rcases registerRoles_spec (getAgentRegistry p) hdistinct
        (fun role hrole => category_of_mem_rolesOf h hrole) with
      ⟨hok, hall⟩ | ⟨front, r, back, f, hsplit, hf, hne, hfront, herror⟩
    · rw [hok]
      refine .registered fun name f hf => ?_
      have hname := hknown name f hf
      rw [← map_name_rolesOf (b := p.nextBuild)] at hname
      obtain ⟨role, hrole, rfl⟩ := List.mem_map.mp hname
      exact ⟨role, hrole, rfl, (hall role hrole f hf).symm⟩
    · rw [herror]
      exact .refused front r back f hsplit ⟨hf, hne⟩ hfront

theorem registerAll_isOk_iff (h : Known table) (hp : p.Built table) :
    (registerAll table p).1 = .ok () ↔ Fits (getAgentRegistry p) (rolesOf table p.nextBuild) := by
  have hdistinct : ((rolesOf table p.nextBuild).map AgentRole.name).Nodup := map_name_rolesOf ▸ h.distinct
  have houtcome := registerAll_outcome h hp
  generalize registerAll table p = result at houtcome ⊢
  cases houtcome with
  | registered hfits => exact iff_of_true rfl hfits
  | unknown names hne hnames =>
    refine iff_of_false (fun hok => nomatch hok) fun hfits => ?_
    obtain ⟨name, hname⟩ := List.exists_mem_of_ne_nil names hne
    obtain ⟨⟨f, hf⟩, hnot⟩ := hnames name hname
    obtain ⟨role, hrole, rfl, -⟩ := hfits name f hf
    exact hnot (map_name_rolesOf (b := p.nextBuild) ▸ List.mem_map_of_mem hrole)
  | refused front r back f hsplit hother hfront =>
    refine iff_of_false (fun hok => nomatch hok) fun hfits => ?_
    obtain ⟨role, hrole, hname, hfactory⟩ := hfits r.name f hother.1
    have hr : r ∈ rolesOf table p.nextBuild := hsplit ▸ List.mem_append_right front List.mem_cons_self
    have hsame := List.inj_on_of_nodup_map hdistinct hrole hr hname
    exact hother.2 (hfactory ▸ hsame ▸ rfl)

end

-- ---------------------------------------------------------------------------
-- Runs
-- ---------------------------------------------------------------------------

/-- The roles were registered, and the registry was not reset since. -/
def Registered (ops : List Op) : Prop := ∃ a b, ops = a ++ .registerAll :: b ∧ .resetAgentRegistry ∉ b

/-- The catalog was reset after the roles were registered, and the registry was not. -/
def Stale (ops : List Op) : Prop :=
  ∃ a b c, ops = a ++ .registerAll :: (b ++ .resetCatalog :: c) ∧ .resetAgentRegistry ∉ b ++ c

section
variable {ops : List Op} {op : Op} {table : List RoleSpec} {p : Process} {registry : AgentRegistry}

theorem registered_concat : Registered (ops ++ [op]) ↔
    op = .registerAll ∨ op ≠ .resetAgentRegistry ∧ Registered ops := by
  constructor
  · rintro ⟨a, b, heq, hb⟩
    rcases List.eq_nil_or_concat' b with rfl | ⟨b, op', rfl⟩
    · obtain ⟨-, hop⟩ := List.append_inj' heq rfl
      exact .inl (List.singleton_inj.mp hop)
    · rw [← List.cons_append, ← List.append_assoc] at heq
      obtain ⟨hops, hop⟩ := List.append_inj' heq rfl
      rw [List.singleton_inj.mp hop]
      rw [List.mem_append, not_or] at hb
      exact .inr ⟨fun h => hb.2 (List.mem_singleton.mpr h.symm), a, b, hops, hb.1⟩
  · rintro (rfl | ⟨hne, a, b, rfl, hb⟩)
    · exact ⟨ops, [], rfl, List.not_mem_nil⟩
    · refine ⟨a, b ++ [op], by simp, ?_⟩
      rw [List.mem_append, not_or]
      exact ⟨hb, fun h => hne (List.mem_singleton.mp h).symm⟩

theorem stale_concat : Stale (ops ++ [op]) ↔
    op ≠ .resetAgentRegistry ∧ (Stale ops ∨ op = .resetCatalog ∧ Registered ops) := by
  constructor
  · rintro ⟨a, b, c, heq, hbc⟩
    rcases List.eq_nil_or_concat' c with rfl | ⟨c, op', rfl⟩
    · rw [← List.cons_append, ← List.append_assoc] at heq
      obtain ⟨hops, hop⟩ := List.append_inj' heq rfl
      rw [List.singleton_inj.mp hop]
      rw [List.append_nil] at hbc
      exact ⟨nofun, .inr ⟨rfl, a, b, hops, hbc⟩⟩
    · have heq' : ops ++ [op] = (a ++ .registerAll :: (b ++ .resetCatalog :: c)) ++ [op'] := by simpa using heq
      obtain ⟨hops, hop⟩ := List.append_inj' heq' rfl
      rw [List.singleton_inj.mp hop]
      rw [← List.append_assoc, List.mem_append, not_or] at hbc
      exact ⟨fun h => hbc.2 (List.mem_singleton.mpr h.symm), .inl ⟨a, b, c, hops, hbc.1⟩⟩
  · rintro ⟨hne, ⟨a, b, c, rfl, hbc⟩ | ⟨rfl, a, b, rfl, hb⟩⟩
    · refine ⟨a, b, c ++ [op], by simp, ?_⟩
      rw [← List.append_assoc, List.mem_append, not_or]
      exact ⟨hbc, fun h => hne (List.mem_singleton.mp h).symm⟩
    · exact ⟨a, b, [], by simp, by rwa [List.append_nil]⟩

theorem Stale.registered (h : Stale ops) : Registered ops := by
  obtain ⟨a, b, c, rfl, hbc⟩ := h
  refine ⟨a, _, rfl, fun hmem => hbc ?_⟩
  simpa using hmem

theorem after_concat : after table (ops ++ [op]) = (step table (after table ops) op).2 := by
  rw [after, Mealy.final, List.foldl_concat]
  rfl

theorem built_step (h : Known table) (hp : p.Built table) : ((step table p op).2).Built table := by
  cases op with
  | registerAll =>
    have houtcome := registerAll_outcome h hp
    rw [step]
    generalize registerAll table p = result at houtcome ⊢
    cases houtcome <;> exact fun _ hcatalog => (Option.some.inj hcatalog).symm
  | buildCatalog =>
    rw [step, buildCatalog_eq h hp]
    exact fun _ hcatalog => (Option.some.inj hcatalog).symm
  | resetCatalog => exact fun _ hcatalog => nomatch hcatalog
  | resetAgentRegistry => exact hp
  | registerAgent name id m => exact hp

theorem built_after (h : Known table) (ops : List Op) : (after table ops).Built table := by
  induction ops using List.reverseRec with
  | nil => exact fun _ hcatalog => nomatch hcatalog
  | append_singleton ops op ih =>
    rw [after_concat]
    exact built_step h ih

/-- The registry holds the factories of a catalog and nothing else. -/
def Holds (registry : AgentRegistry) (catalog : List AgentRole) : Prop :=
  ∀ name f, registry.factories.get? name = some f ↔ ∃ role ∈ catalog, role.name = name ∧ role.factory = f

theorem holds_registerEach (h : Known table) {build : Nat} (hfits : Fits registry (rolesOf table build)) :
    Holds (registerEach registry (rolesOf table build)) (rolesOf table build) := by
  have hdistinct : ((rolesOf table build).map AgentRole.name).Nodup := map_name_rolesOf ▸ h.distinct
  intro name f
  by_cases hname : name ∈ (rolesOf table build).map AgentRole.name
  · obtain ⟨role, hrole, rfl⟩ := List.mem_map.mp hname
    rw [(present_registerEach hdistinct hrole).1]
    constructor
    · exact fun hf => ⟨role, hrole, rfl, Option.some.inj hf⟩
    · rintro ⟨role', hrole', hsame, rfl⟩
      rw [List.inj_on_of_nodup_map hdistinct hrole' hrole hsame]
  · rw [get?_registerEach_of_not_mem hname]
    refine iff_of_false (fun hf => ?_) ?_
    · obtain ⟨role, hrole, rfl, -⟩ := hfits name f hf
      exact hname (List.mem_map_of_mem hrole)
    · rintro ⟨role, hrole, rfl, -⟩
      exact hname (List.mem_map_of_mem hrole)

/-- Each build makes factories of its own. -/
theorem build_eq_of_factory {j k : Nat} {role role' : AgentRole} (hj : role ∈ rolesOf table j)
    (hk : role' ∈ rolesOf table k) (h : role.factory = role'.factory) : j = k := by
  obtain ⟨row, -, rfl⟩ := List.mem_map.mp hj
  obtain ⟨row', -, rfl⟩ := List.mem_map.mp hk
  exact (Factory.ofRole.inj h).1

theorem fits_iff_of_holds {j k : Nat} (htable : table ≠ []) (h : Holds registry (rolesOf table j)) :
    Fits registry (rolesOf table k) ↔ j = k := by
  constructor
  · intro hfits
    obtain ⟨role, hrole⟩ := List.exists_mem_of_ne_nil (rolesOf table j) (by simpa [rolesOf] using htable)
    obtain ⟨role', hrole', -, hfactory⟩ := hfits role.name role.factory ((h _ _).mpr ⟨role, hrole, rfl, rfl⟩)
    exact build_eq_of_factory hrole hrole' hfactory.symm
  · rintro rfl name f hf
    exact (h name f).mp hf

def Op.Ours : Op → Prop
  | .registerAgent .. => False
  | _ => True

/-- What the registry holds, by what has happened. -/
structure Inv (table : List RoleSpec) (ops : List Op) (p : Process) : Prop where
  fresh : ¬ Registered ops → ∀ name, (getAgentRegistry p).factories.get? name = none
  held : Registered ops →
    ∃ j ≤ p.builds, Holds (getAgentRegistry p) (rolesOf table j) ∧ (Stale ops ↔ j ≠ p.nextBuild)

theorem inv_registerAll (h : Known table) (htable : table ≠ []) (hp : p.Built table) (hinv : Inv table ops p) :
    Inv table (ops ++ [.registerAll]) (step table p .registerAll).2 := by
  have hregistered : Registered (ops ++ [.registerAll]) := registered_concat.mpr (.inl rfl)
  have hstale : Stale (ops ++ [.registerAll]) ↔ Stale ops := by
    rw [stale_concat]
    simp
  refine ⟨fun hnot => absurd hregistered hnot, fun _ => ?_⟩
  rw [hstale]
  have houtcome := registerAll_outcome h hp
  rw [step]
  generalize registerAll table p = result at houtcome ⊢
  by_cases hops : Registered ops
  · obtain ⟨j, hj, hholds, hiff⟩ := hinv.held hops
    cases houtcome with
    | registered hfits =>
      obtain rfl := (fits_iff_of_holds htable hholds).mp hfits
      exact ⟨p.nextBuild, Nat.le_refl _, holds_registerEach h hfits, hiff⟩
    | unknown names hne hnames =>
      obtain ⟨name, hname⟩ := List.exists_mem_of_ne_nil names hne
      obtain ⟨⟨f, hf⟩, hnot⟩ := hnames name hname
      obtain ⟨role, hrole, rfl, -⟩ := (hholds name f).mp hf
      exact absurd (map_name_rolesOf (b := j) ▸ List.mem_map_of_mem hrole) hnot
    | refused front r back f hsplit hother hfront =>
      have hr : r ∈ rolesOf table p.nextBuild := hsplit ▸ List.mem_append_right front List.mem_cons_self
      have hne : j ≠ p.nextBuild := by
        rintro rfl
        have hf := (hholds r.name r.factory).mpr ⟨r, hr, rfl, rfl⟩
        exact hother.2 (Option.some.inj (hother.1.symm.trans hf))
      -- every name is registered for another build, so already the first role is refused
      have hnil : front = [] := by
        refine List.eq_nil_iff_forall_not_mem.mpr fun role hrole => hne ?_
        have hmem : role ∈ rolesOf table p.nextBuild := hsplit ▸ List.mem_append_left _ hrole
        have hname : role.name ∈ (rolesOf table j).map AgentRole.name := by
          rw [map_name_rolesOf, ← map_name_rolesOf (b := p.nextBuild)]
          exact List.mem_map_of_mem hmem
        obtain ⟨role', hrole', hsame⟩ := List.mem_map.mp hname
        have hf := (hholds role.name role'.factory).mpr ⟨role', hrole', hsame, rfl⟩
        exact build_eq_of_factory hrole' hmem (hfront role hrole _ hf)
      subst hnil
      have hle : p.builds ≤ p.nextBuild := by
        rw [Process.nextBuild]
        split <;> omega
      exact ⟨j, Nat.le_trans hj hle, hholds, hiff⟩
  · have hnone := hinv.fresh hops
    have hnot : ¬ Stale ops := fun hs => hops hs.registered
    cases houtcome with
    | registered hfits =>
      exact ⟨p.nextBuild, Nat.le_refl _, holds_registerEach h hfits, iff_of_false hnot fun hne => hne rfl⟩
    | unknown names hne hnames =>
      obtain ⟨name, hname⟩ := List.exists_mem_of_ne_nil names hne
      obtain ⟨⟨f, hf⟩, -⟩ := hnames name hname
      exact nomatch (hnone name).symm.trans hf
    | refused front r back f hsplit hother hfront => exact nomatch (hnone r.name).symm.trans hother.1

theorem inv_step (h : Known table) (htable : table ≠ []) (hp : p.Built table) (hop : op.Ours)
    (hinv : Inv table ops p) : Inv table (ops ++ [op]) (step table p op).2 := by
  have hregistered : Registered (ops ++ [op]) ↔ _ := registered_concat
  have hstale : Stale (ops ++ [op]) ↔ _ := stale_concat
  cases op with
  | registerAll => exact inv_registerAll h htable hp hinv
  | buildCatalog =>
    rw [step, buildCatalog_eq h hp]
    have hsame : Registered (ops ++ [.buildCatalog]) ↔ Registered ops := by simpa using hregistered
    have hsame' : Stale (ops ++ [.buildCatalog]) ↔ Stale ops := by simpa using hstale
    refine ⟨fun hnot => hinv.fresh (hsame.not.mp hnot), fun hops => ?_⟩
    obtain ⟨j, hj, hholds, hiff⟩ := hinv.held (hsame.mp hops)
    have hle : p.builds ≤ p.nextBuild := by
      rw [Process.nextBuild]
      split <;> omega
    exact ⟨j, Nat.le_trans hj hle, hholds, hsame'.trans hiff⟩
  | resetCatalog =>
    have hsame : Registered (ops ++ [.resetCatalog]) ↔ Registered ops := by simpa using hregistered
    refine ⟨fun hnot => hinv.fresh (hsame.not.mp hnot), fun hops => ?_⟩
    obtain ⟨j, hj, hholds, -⟩ := hinv.held (hsame.mp hops)
    -- the next catalog is a new one
    have hnext : j ≠ p.builds + 1 := by omega
    exact ⟨j, hj, hholds, iff_of_true (hstale.mpr ⟨nofun, .inr ⟨rfl, hsame.mp hops⟩⟩) hnext⟩
  | resetAgentRegistry =>
    have hnot : ¬ Registered (ops ++ [.resetAgentRegistry]) := by
      rw [hregistered]
      simp
    exact ⟨fun _ _ => rfl, fun hops => absurd hops hnot⟩
  | registerAgent name id m => exact hop.elim

theorem inv_after (h : Known table) (htable : table ≠ []) (hops : ∀ op ∈ ops, op.Ours) :
    Inv table ops (after table ops) := by
  induction ops using List.reverseRec with
  | nil =>
    refine ⟨fun _ _ => rfl, fun hregistered => ?_⟩
    obtain ⟨a, b, heq, -⟩ := hregistered
    simp at heq
  | append_singleton ops op ih =>
    obtain ⟨hops, hop⟩ := List.forall_mem_append.mp hops
    rw [after_concat]
    exact inv_step h htable (built_after h ops) (hop op (List.mem_singleton.mpr rfl)) (ih hops)

/-- What `register_all` registers it can register again. -/
theorem registerAll_again {p' : Process} (h : Known table) (hp : p.Built table)
    (hok : registerAll table p = (.ok (), p')) :
    (∃ catalog, p'.catalog = some catalog ∧ Holds (getAgentRegistry p') catalog ∧
        catalog.map AgentRole.name = table.map RoleSpec.name) ∧
      registerAll table p' = (.ok (), p') := by
  have hdistinct : ((rolesOf table p.nextBuild).map AgentRole.name).Nodup := map_name_rolesOf ▸ h.distinct
  have houtcome := registerAll_outcome h hp
  rw [hok] at houtcome
  cases houtcome with
  | registered hfits =>
    have hholds := holds_registerEach h hfits
    refine ⟨⟨_, rfl, hholds, map_name_rolesOf⟩, ?_⟩
    let p' : Process := { p.withCatalog table with
      registry := some (registerEach (getAgentRegistry p) (rolesOf table p.nextBuild)) }
    have hp' : p'.Built table := fun _ hcatalog => (Option.some.inj hcatalog).symm
    have hfits' : Fits (getAgentRegistry p') (rolesOf table p'.nextBuild) := fun name f hf => (hholds name f).mp hf
    have hok' := (registerAll_isOk_iff h hp').mpr hfits'
    have hself : registerEach (getAgentRegistry p') (rolesOf table p'.nextBuild) = getAgentRegistry p' :=
      registerEach_eq_self fun role hrole => present_registerEach hdistinct hrole
    have houtcome' := registerAll_outcome h hp'
    change registerAll table p' = (.ok (), p')
    generalize registerAll table p' = result at hok' houtcome' ⊢
    cases houtcome' with
    | registered _ => rw [hself]; rfl
    | unknown _ _ _ => cases hok'
    | refused _ _ _ _ _ _ _ => cases hok'

/-- Where nothing else is registered, `register_all` raises exactly if the catalog was reset after the roles were
registered and the registry was not. Otherwise the registry then holds the roles of the catalog and nothing
else, and to call `register_all` again changes nothing. -/
theorem register_all_raises_iff (ops : List Op) (hops : ∀ op ∈ ops, op.Ours) :
    ((registerAll roleTable (after roleTable ops)).1 ≠ .ok () ↔ Stale ops) ∧
      ∀ p, registerAll roleTable (after roleTable ops) = (.ok (), p) →
        (∃ catalog, p.catalog = some catalog ∧ Holds (getAgentRegistry p) catalog ∧
          catalog.map AgentRole.name = roleTable.map RoleSpec.name) ∧
        registerAll roleTable p = (.ok (), p) := by
  have hp := built_after known_ROLE_TABLE ops
  have hinv := inv_after known_ROLE_TABLE ROLE_TABLE_ne_nil hops
  generalize after roleTable ops = p at hp hinv ⊢
  refine ⟨?_, fun p' hok => ?_⟩
  · rw [ne_eq, registerAll_isOk_iff known_ROLE_TABLE hp]
    by_cases hreg : Registered ops
    · obtain ⟨j, -, hholds, hiff⟩ := hinv.held hreg
      rw [fits_iff_of_holds ROLE_TABLE_ne_nil hholds, hiff]
    · refine iff_of_false (fun hnot => hnot fun name f hf => ?_) fun hs => hreg hs.registered
      exact nomatch (hinv.fresh hreg name).symm.trans hf
  · exact registerAll_again known_ROLE_TABLE hp hok

theorem register_all_raises_reset :
    (registerAll roleTable (after roleTable [.registerAll, .resetCatalog])).1 ≠ .ok () := by
  refine (register_all_raises_iff [.registerAll, .resetCatalog] ?_).1.mpr ⟨[], [], [], rfl, List.not_mem_nil⟩
  intro op hop
  rcases List.mem_cons.mp hop with rfl | hop
  · trivial
  · rw [List.mem_singleton.mp hop]
    trivial

/-- Whatever has happened, a call that raises has either registered nothing, or the roles before the first one
that somebody else has registered, and has left the rest as it was. -/
theorem register_all_partial (ops : List Op) :
    (∃ p, registerAll roleTable (after roleTable ops) = (.ok (), p)) ∨
    (∃ names p, registerAll roleTable (after roleTable ops) = (.error (.unknownNames names), p) ∧
      getAgentRegistry p = getAgentRegistry (after roleTable ops) ∧ names ≠ [] ∧
      ∀ name ∈ names, name ∉ roleTable.map RoleSpec.name) ∨
    ∃ front r back p, registerAll roleTable (after roleTable ops) = (.error (.otherFactory r.name), p) ∧
      p.catalog = some (front ++ r :: back) ∧
      (∃ f, (getAgentRegistry (after roleTable ops)).factories.get? r.name = some f ∧ f ≠ r.factory) ∧
      (∀ role ∈ front, ∀ f, (getAgentRegistry (after roleTable ops)).factories.get? role.name = some f →
        f = role.factory) ∧
      (∀ role ∈ front, Present (getAgentRegistry p) role) ∧
      ∀ name ∉ front.map AgentRole.name, (getAgentRegistry p).factories.get? name =
        (getAgentRegistry (after roleTable ops)).factories.get? name := by
  have hp := built_after known_ROLE_TABLE ops
  have houtcome := registerAll_outcome known_ROLE_TABLE hp
  generalize after roleTable ops = p at hp houtcome ⊢
  have hdistinct : ((rolesOf roleTable p.nextBuild).map AgentRole.name).Nodup :=
    map_name_rolesOf ▸ known_ROLE_TABLE.distinct
  generalize hresult : registerAll roleTable p = result at houtcome ⊢
  cases houtcome with
  | registered hfits => exact .inl ⟨_, rfl⟩
  | unknown names hne hnames =>
    exact .inr (.inl ⟨names, _, rfl, rfl, hne, fun name hname => (hnames name hname).2⟩)
  | refused front r back f hsplit hother hfront =>
    refine .inr (.inr ⟨front, r, back, _, rfl, congrArg some hsplit, ⟨f, hother⟩, hfront, fun role hrole => ?_,
      fun name hname => ?_⟩)
    · rw [hsplit, List.map_append] at hdistinct
      exact present_registerEach (List.nodup_append.mp hdistinct).1 hrole
    · exact get?_registerEach_of_not_mem hname

end

end Intelliqx.Agents
