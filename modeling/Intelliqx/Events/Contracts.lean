import Intelliqx.Base.StableSort
import Intelliqx.Py.Directory
import Intelliqx.Py.Json
import Mathlib.Data.String.Basic

/-!
# Event contracts

`load_contracts_from_dir` hands a file's schema to `EventContract` under the name
of the field. The field has an alias and is filled from that only, so the schema
is dropped and every payload passes (`contracts_enforced_iff`).
-/

namespace Intelliqx.Events

open Py

structure EventContract where
  topic : String
  description : String
  schema_ : List (PyKey × PyValue)

/-- The exceptions that leave the functions below. -/
inductive ContractError
  /-- of `data.get` -/
  | attributeError
  /-- pydantic's -/
  | invalidContract
  | keyError
  /-- of jsonschema -/
  | invalidPayload
  deriving DecidableEq

def strField : Option PyValue → Except ContractError String
  | some (.str s) => .ok s
  | _ => .error .invalidContract

/-- A dictionary with string keys; the field has a default. -/
def dictField : Option PyValue → Except ContractError (List (PyKey × PyValue))
  | none => .ok []
  | some (.dict entries) =>
    if entries.all fun e => e.1 matches .str _ then .ok entries else .error .invalidContract
  | some _ => .error .invalidContract

/-- `EventContract(**kwargs)`: `schema_` has the alias `schema`, under which alone it is looked for;
keywords that no field goes by are ignored. -/
def EventContract.ofKwargs (kwargs : Dict String PyValue) : Except ContractError EventContract := do
  let topic ← strField (kwargs.get? "topic")
  let description ← strField (kwargs.get? "description")
  let schema_ ← dictField (kwargs.get? "schema")
  .ok { topic, description, schema_ }

-- ---------------------------------------------------------------------------
-- EventRegistry
-- ---------------------------------------------------------------------------

/-- The contracts by topic. -/
abbrev EventRegistry := Dict String EventContract

namespace EventRegistry

def register (r : EventRegistry) (contract : EventContract) : EventRegistry := r.insert contract.topic contract

def get (r : EventRegistry) (topic : String) : Except ContractError EventContract :=
  match r.get? topic with
  | some contract => .ok contract
  | none => .error .keyError

/-- Which payloads a schema accepts, as the installed `jsonschema` decides; without it nothing is done. -/
def validate (jsonschema : Option (PyValue → PyValue → Bool)) (r : EventRegistry) (topic : String)
    (payload : List (PyKey × PyValue)) : Except ContractError Unit :=
  match jsonschema with
  | none => .ok ()
  | some accepts => do
    let contract ← r.get topic
    if accepts (.dict contract.schema_) (.dict payload) then .ok () else .error .invalidPayload

end EventRegistry

-- ---------------------------------------------------------------------------
-- load_contracts_from_dir
-- ---------------------------------------------------------------------------

structure ContractFile where
  name : String
  text : String

def ContractFile.stem (f : ContractFile) : String :=
  .ofList (f.name.toList.take (f.name.toList.length - (PurePath.suffix f.name.toList).length))

def isTruthy : PyValue → Bool
  | .none | .bool false | .int 0 | .str "" | .bytes [] | .list [] | .tuple [] | .set [] | .dict [] => false
  | .float r => r ≠ "0.0" ∧ r ≠ "-0.0"
  | _ => true

/-- `data.get(key)` -/
def member (entries : List (PyKey × PyValue)) (key : String) : Option PyValue := entries.lookup (.str key)

/-- `data.get("title") or f.stem` -/
def topicValue (f : ContractFile) (entries : List (PyKey × PyValue)) : PyValue :=
  let title := (member entries "title").getD .none
  if isTruthy title then title else .str f.stem

def contractOf (f : ContractFile) : PyValue → Except ContractError EventContract
  | .dict entries => EventContract.ofKwargs (.ofList [("topic", topicValue f entries),
      ("description", (member entries "description").getD (.str "")), ("schema_", .dict entries)])
  | _ => .error .attributeError

/-- The loop over the files: `loads` gives nothing for a text that is no JSON. -/
def loadFiles (loads : String → Option PyValue) :
    List ContractFile → EventRegistry → Nat → EventRegistry × Except ContractError Nat
  | [], r, count => (r, .ok count)
  | f :: files, r, count =>
    match loads f.text with
    | none => loadFiles loads files r count
    | some data =>
      match contractOf f data with
      | .error e => (r, .error e)
      | .ok contract => loadFiles loads files (r.register contract) (count + 1)

def isContractFile (f : ContractFile) : Bool := ".json".toList.isSuffixOf f.name.toList

/-- The files of a directory, or nothing for a path that does not exist. -/
def loadContractsFromDir (loads : String → Option PyValue) (path : Option (List ContractFile)) (r : EventRegistry) :
    EventRegistry × Except ContractError Nat :=
  match path with
  | none => (r, .ok 0)
  | some files => loadFiles loads (sortBy ContractFile.name (files.filter isContractFile)) r 0

-- ---------------------------------------------------------------------------
-- What is registered
-- ---------------------------------------------------------------------------

/-- Titles and descriptions are strings, and the roots are objects, as in a JSON Schema. Texts that are
no JSON may be there. -/
structure SchemaDirectory (loads : String → Option PyValue) (files : List ContractFile) : Prop where
  root : ∀ f ∈ files, ∀ data, loads f.text = some data → ∃ entries, data = .dict entries
  title : ∀ f ∈ files, ∀ entries title, loads f.text = some (.dict entries) → member entries "title" = some title →
    ∃ s, title = .str s
  description : ∀ f ∈ files, ∀ entries description, loads f.text = some (.dict entries) →
    member entries "description" = some description → ∃ s, description = .str s

def topicOf (f : ContractFile) (entries : List (PyKey × PyValue)) : String :=
  match topicValue f entries with
  | .str topic => topic
  | _ => ""

/-- The schemas of a directory, each with its topic. -/
def schemas (loads : String → Option PyValue) (files : List ContractFile) :
    List (String × List (PyKey × PyValue)) :=
  (sortBy ContractFile.name (files.filter isContractFile)).filterMap fun f =>
    match loads f.text with
    | some (.dict entries) => some (topicOf f entries, entries)
    | _ => none

/-- The contract of each topic has the schema of its file. -/
def CarriesSchemas (loads : String → Option PyValue) (files : List ContractFile) (r : EventRegistry) : Prop :=
  ∀ p ∈ schemas loads files, ∃ contract, r.get p.1 = .ok contract ∧ contract.schema_ = p.2

/-- Exactly the payloads that violate the schema of the file are refused. -/
def EnforcesSchemas (accepts : PyValue → PyValue → Bool) (loads : String → Option PyValue)
    (files : List ContractFile) (r : EventRegistry) : Prop :=
  ∀ p ∈ schemas loads files, ∀ payload, (∃ e, r.validate (some accepts) p.1 payload = .error e) ↔
    accepts (.dict p.2) (.dict payload) = false

section
variable {loads : String → Option PyValue} {accepts : PyValue → PyValue → Bool} {files : List ContractFile}
  {f : ContractFile} {r : EventRegistry} {data : PyValue} {entries : List (PyKey × PyValue)} {count : Nat}
  {contract : EventContract} {contracts : List EventContract} {topic : String}

/-- The keyword `schema_` is not the alias. -/
theorem schema_dropped (h : contractOf f data = .ok contract) : contract.schema_ = [] := by
  unfold contractOf at h
  split at h
  · rename_i entries
    simp only [EventContract.ofKwargs, bind_eq_ok] at h
    obtain ⟨topic, -, description, -, schema, hschema, h⟩ := h
    have hnone : (Dict.ofList [("topic", topicValue f entries),
        ("description", (member entries "description").getD (.str "")),
        ("schema_", .dict entries)]).get? "schema" = none := by
      simp [Dict.ofList, Dict.get?_insert]
    rw [hnone] at hschema
    cases hschema
    cases h
    rfl
  · cases h

theorem contractOf_schema (htitle : ∀ title, member entries "title" = some title → ∃ s, title = .str s)
    (hdescription : ∀ description, member entries "description" = some description → ∃ s, description = .str s) :
    ∃ contract, contractOf f (.dict entries) = .ok contract ∧ contract.topic = topicOf f entries := by
  obtain ⟨topic, htopic⟩ : ∃ topic, topicValue f entries = .str topic := by
    rw [topicValue]
    cases ht : member entries "title" with
    | none => exact ⟨f.stem, rfl⟩
    | some title =>
      obtain ⟨s, rfl⟩ := htitle title ht
      simp only [Option.getD_some]
      split
      · exact ⟨s, rfl⟩
      · exact ⟨f.stem, rfl⟩
  obtain ⟨description, hdesc⟩ : ∃ s, (member entries "description").getD (.str "") = .str s := by
    cases hd : member entries "description" with
    | none => exact ⟨"", rfl⟩
    | some description => exact hdescription description hd
  refine ⟨⟨topic, description, []⟩, ?_, ?_⟩
  · simp [contractOf, EventContract.ofKwargs, Dict.ofList, Dict.get?_insert, htopic, hdesc, strField, dictField]
  · rw [topicOf, htopic]

def loadedContracts (loads : String → Option PyValue) (files : List ContractFile) : List EventContract :=
  files.filterMap fun f => (loads f.text).bind fun data => (contractOf f data).toOption

theorem loadFiles_eq
    (h : ∀ f ∈ files, ∀ data, loads f.text = some data → ∃ contract, contractOf f data = .ok contract) :
    (loadFiles loads files r count).1 = (loadedContracts loads files).foldl EventRegistry.register r := by
  induction files generalizing r count with
  | nil => rfl
  | cons f files ih =>
    obtain ⟨hf, hfiles⟩ := List.forall_mem_cons.mp h
    rw [loadFiles, loadedContracts, List.filterMap_cons]
    cases hdata : loads f.text with
    | none => exact ih hfiles
    | some data =>
      obtain ⟨contract, hcontract⟩ := hf data hdata
      simp only [hcontract, Option.bind_some, Except.toOption]
      exact ih hfiles

/-- Whichever of the contracts of a topic was registered last. -/
theorem get_register_foldl (hmem : contract ∈ contracts) : ∃ c ∈ contracts,
    (contracts.foldl EventRegistry.register r).get contract.topic = .ok c := by
  have hget : (contracts.foldl EventRegistry.register r).get? contract.topic =
      (((contracts.filter fun c => c.topic = contract.topic).getLast?).map id).or (r.get? contract.topic) :=
    Dict.get?_foldl_insert
  have hne : contracts.filter (fun c => c.topic = contract.topic) ≠ [] :=
    List.ne_nil_of_mem (List.mem_filter.mpr ⟨hmem, decide_eq_true rfl⟩)
  rw [List.getLast?_eq_getLast_of_ne_nil hne, Option.map_some, Option.some_or, id_eq] at hget
  refine ⟨_, List.mem_of_mem_filter (List.getLast_mem hne), ?_⟩
  rw [EventRegistry.get, hget]

theorem get_loaded (h : SchemaDirectory loads files) {p : String × List (PyKey × PyValue)}
    (hp : p ∈ schemas loads files) :
    ∃ contract, (loadContractsFromDir loads (some files) r).1.get p.1 = .ok contract ∧ contract.schema_ = [] := by
  have hmem : ∀ f ∈ sortBy ContractFile.name (files.filter isContractFile), f ∈ files :=
    fun f hf => List.mem_of_mem_filter (mem_sortBy.mp hf)
  have hcontract : ∀ f ∈ files, ∀ entries, loads f.text = some (.dict entries) →
      ∃ contract, contractOf f (.dict entries) = .ok contract ∧ contract.topic = topicOf f entries :=
    fun f hf entries hload => contractOf_schema (fun title => h.title f hf entries title hload)
      fun description => h.description f hf entries description hload
  rw [loadContractsFromDir, loadFiles_eq]
  · obtain ⟨f, hf, hsome⟩ := List.mem_filterMap.mp hp
    split at hsome
    · rename_i entries hload
      cases hsome
      obtain ⟨contract, hok, htopic⟩ := hcontract f (hmem f hf) entries hload
      have hloaded : contract ∈ loadedContracts loads (sortBy ContractFile.name (files.filter isContractFile)) :=
        List.mem_filterMap.mpr ⟨f, hf, by rw [hload, Option.bind_some, hok]; rfl⟩
      obtain ⟨c, hc, hget⟩ := get_register_foldl (r := r) hloaded
      obtain ⟨g, -, hg⟩ := List.mem_filterMap.mp hc
      obtain ⟨data, -, hdata⟩ := Option.bind_eq_some_iff.mp hg
      have hco : contractOf g data = .ok c := by
        cases hco : contractOf g data with
        | error e => simp [hco, Except.toOption] at hdata
        | ok c' =>
          rw [hco] at hdata
          cases hdata
          rfl
      exact ⟨c, htopic ▸ hget, schema_dropped hco⟩
    · cases hsome
  · intro f hf data hload
    obtain ⟨entries, rfl⟩ := h.root f (hmem f hf) data hload
    obtain ⟨contract, hok, -⟩ := hcontract f (hmem f hf) entries hload
    exact ⟨contract, hok⟩

/-- No payload is refused. -/
theorem validate_loaded (hempty : ∀ payload, accepts (.dict []) (.dict payload)) (h : SchemaDirectory loads files)
    {p : String × List (PyKey × PyValue)} (hp : p ∈ schemas loads files) (payload : List (PyKey × PyValue)) :
    (loadContractsFromDir loads (some files) r).1.validate (some accepts) p.1 payload = .ok () := by
  obtain ⟨contract, hget, hschema⟩ := get_loaded (r := r) h hp
  simp [EventRegistry.validate, hget, hschema, hempty payload]

end

/-- The contracts have the schemas of their files exactly if these are empty, and refuse what violates
them exactly if nothing does. -/
theorem contracts_enforced_iff (loads : String → Option PyValue) {accepts : PyValue → PyValue → Bool}
    (hempty : ∀ payload, accepts (.dict []) (.dict payload)) {files : List ContractFile}
    (hfiles : SchemaDirectory loads files) (r : EventRegistry) :
    (CarriesSchemas loads files (loadContractsFromDir loads (some files) r).1 ↔
        ∀ p ∈ schemas loads files, p.2 = []) ∧
      (EnforcesSchemas accepts loads files (loadContractsFromDir loads (some files) r).1 ↔
        ∀ p ∈ schemas loads files, ∀ payload, accepts (.dict p.2) (.dict payload)) := by
  constructor
  · refine forall₂_congr fun p hp => ?_
    obtain ⟨contract, hget, hschema⟩ := get_loaded (r := r) hfiles hp
    simp only [hget, Except.ok.injEq, exists_eq_left', hschema]
    exact eq_comm
  · refine forall₃_congr fun p hp payload => ?_
    rw [validate_loaded hempty hfiles hp payload]
    simp

/-- What `jsonschema` makes of the keyword `required`, for dictionaries. -/
def hasRequired : PyValue → PyValue → Bool
  | .dict schema, .dict payload =>
    match member schema "required" with
    | some (.list keys) => keys.all fun key => payload.any fun e => match e.1, key with
      | .str k, .str l => k = l
      | _, _ => false
    | _ => true
  | _, _ => true

/-- What the text of one file is read as. -/
def readsAs (f : ContractFile) (entries : List (PyKey × PyValue)) (text : String) : Option PyValue :=
  if text = f.text then some (.dict entries) else none

section
variable {f : ContractFile} {entries : List (PyKey × PyValue)}

theorem readsAs_eq {data : PyValue} {g : ContractFile} (h : readsAs f entries g.text = some data) :
    data = .dict entries := by
  rw [readsAs] at h
  split at h
  · exact (Option.some.inj h).symm
  · cases h

theorem schemaDirectory_readsAs (htitle : ∀ title, member entries "title" = some title → ∃ s, title = .str s)
    (hdescription : ∀ description, member entries "description" = some description → ∃ s, description = .str s) :
    SchemaDirectory (readsAs f entries) [f] := by
  refine ⟨fun g _ data hdata => ⟨entries, readsAs_eq hdata⟩, fun g _ es title hdata => ?_,
    fun g _ es description hdata => ?_⟩
  · cases readsAs_eq hdata
    exact htitle title
  · cases readsAs_eq hdata
    exact hdescription description

theorem eq_of_mem_schemas {p : String × List (PyKey × PyValue)} (hp : p ∈ schemas (readsAs f entries) [f]) :
    p.2 = entries := by
  obtain ⟨g, hg, hsome⟩ := List.mem_filterMap.mp hp
  split at hsome
  · rename_i es hdata
    cases hsome
    exact (PyValue.dict.inj (readsAs_eq hdata))
  · cases hsome

end

def anyFile : ContractFile := ⟨"any.json", "{}"⟩

theorem empty_schema_enforced :
    CarriesSchemas (readsAs anyFile []) [anyFile]
        (loadContractsFromDir (readsAs anyFile []) (some [anyFile]) .empty).1 ∧
      EnforcesSchemas hasRequired (readsAs anyFile []) [anyFile]
        (loadContractsFromDir (readsAs anyFile []) (some [anyFile]) .empty).1 := by
  have hnone : ∀ key value, member [] key = some value → ∃ s, value = .str s := by
    intro key value h
    cases h
  have hempty : ∀ payload, hasRequired (.dict []) (.dict payload) := fun _ => rfl
  have hiff := contracts_enforced_iff (readsAs anyFile []) hempty
    (schemaDirectory_readsAs (hnone "title") (hnone "description")) .empty
  refine ⟨hiff.1.mpr fun p hp => eq_of_mem_schemas hp, hiff.2.mpr fun p hp payload => ?_⟩
  rw [eq_of_mem_schemas hp]
  rfl

def orderSchema : List (PyKey × PyValue) :=
  [(.str "title", .str "order"), (.str "required", .list [.str "id"])]

def orderFile : ContractFile := ⟨"order.json", r#"{"title": "order", "required": ["id"]}"#⟩

/-- An order without an id passes. -/
theorem order_not_enforced : ¬ ∀ (loads : String → Option PyValue) (accepts : PyValue → PyValue → Bool)
    (files : List ContractFile) (r : EventRegistry), (∀ payload, accepts (.dict []) (.dict payload)) →
      SchemaDirectory loads files → ((schemas loads files).map Prod.fst).Nodup →
        CarriesSchemas loads files (loadContractsFromDir loads (some files) r).1 ∧
          EnforcesSchemas accepts loads files (loadContractsFromDir loads (some files) r).1 := by
  intro h
  have hdirectory : SchemaDirectory (readsAs orderFile orderSchema) [orderFile] := by
    refine schemaDirectory_readsAs (fun title htitle => ⟨"order", ?_⟩) fun description hdesc => ?_
    · exact (Option.some.inj htitle).symm
    · have hnone : member orderSchema "description" = none := rfl
      exact absurd (hnone.symm.trans hdesc) (by simp)
  have hmem : (topicOf orderFile orderSchema, orderSchema) ∈ schemas (readsAs orderFile orderSchema) [orderFile] := by
    refine List.mem_filterMap.mpr ⟨orderFile, mem_sortBy.mpr (List.mem_filter.mpr ⟨List.mem_singleton_self _, ?_⟩), ?_⟩
    · decide +kernel
    · rw [readsAs, if_pos rfl]
  have henforces := (h (readsAs orderFile orderSchema) hasRequired [orderFile] .empty (fun _ => rfl) hdirectory ?_).2
  · have hempty : ∀ payload, hasRequired (.dict []) (.dict payload) := fun _ => rfl
    have hpasses := validate_loaded (r := .empty) hempty hdirectory hmem []
    obtain ⟨e, he⟩ := (henforces _ hmem []).mpr rfl
    exact absurd (hpasses.symm.trans he) (by simp)
  · exact List.nodup_singleton _

end Intelliqx.Events
