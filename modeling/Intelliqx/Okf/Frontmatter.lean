import Intelliqx.Py.Json
import Intelliqx.Py.Text

/-!
# OKF frontmatter

`OKFFrontmatter` and what pydantic's `model_validate` makes of a dictionary.
Datetimes are a parameter: what the code uses of them is `isoformat` and
pydantic's reading of a value as a datetime.
-/

namespace Intelliqx.Okf

open Py

/-- Datetimes. Pydantic reads an ISO text as the datetime that prints it, or
refuses it. -/
structure Datetimes (τ : Type) where
  isoformat : τ → String
  validate : PyValue → Option τ
  validate_isoformat : ∀ t t', validate (.str (isoformat t)) = some t' → t' = t

def isoTexts : Datetimes String where
  isoformat := id
  validate
    | .str s => some s
    | _ => none
  validate_isoformat := fun _ _ h => (Option.some.inj h).symm

abbrev Attrs := Dict String PyValue

def Attrs.toPy (d : Attrs) : PyValue := .dict (d.entries.map fun e => (.str e.1, e.2))

/-- The frontmatter block. `extraFields` is the declared field; `modelExtra`
is where `extra="allow"` keeps the keys that are not declared. -/
structure OKFFrontmatter (τ : Type) where
  type : String
  title : Option String := none
  description : Option String := none
  resource : Option String := none
  tags : List String := []
  timestamp : Option τ := none
  okfVersion : Option String := none
  extraFields : Attrs := Dict.empty
  modelExtra : Attrs := Dict.empty
  stripped : strip type = type

theorem strip_doc : strip "doc" = "doc" := by decide

structure OKFConcept (τ : Type) where
  conceptId : String
  frontmatter : OKFFrontmatter τ
  body : String

def fieldNames : List String :=
  ["type", "title", "description", "resource", "tags", "timestamp", "okf_version", "extra_fields"]

-- ---------------------------------------------------------------------------
-- Validation
-- ---------------------------------------------------------------------------

/-- `str`: bytes are read as UTF-8. -/
def validateStr : PyValue → Option String
  | .str s => some s
  | .bytes content => decodeUtf8 content
  | _ => none

/-- `str | None = None`. -/
def validateOptStr : Option PyValue → Option (Option String)
  | none | some .none => some none
  | some v => (validateStr v).map some

/-- `type: str = Field(min_length=1)`, stripped once it is accepted. -/
def validateType : Option PyValue → Option { s : String // strip s = s }
  | some v => (validateStr v).bind fun s => if s = "" then none else some ⟨strip s, strip_strip s⟩
  | none => none

/-- `tags: list[str]`. -/
def validateTags : Option PyValue → Option (List String)
  | none => some []
  | some (.list items) | some (.tuple items) | some (.set items) => items.mapM validateStr
  | some _ => none

/-- The key of a `dict[str, Any]`. -/
def textKey : PyKey → Option String
  | .str k => some k
  | .bytes content => decodeUtf8 content
  | _ => none

def textEntry (e : PyKey × PyValue) : Option (String × PyValue) := (textKey e.1).map fun k => (k, e.2)

/-- `extra_fields: dict[str, Any]`. -/
def validateExtraFields : Option PyValue → Option Attrs
  | none => some Dict.empty
  | some (.dict es) => (es.mapM textEntry).map Dict.ofList
  | some _ => none

def validateTimestamp (dt : Datetimes τ) : Option PyValue → Option (Option τ)
  | none | some .none => some none
  | some v => (dt.validate v).map some

/-- `OKFFrontmatter.model_validate`; `none` where it raises. -/
def OKFFrontmatter.modelValidate (dt : Datetimes τ) (d : Attrs) : Option (OKFFrontmatter τ) := do
  let ⟨type, stripped⟩ ← validateType (d.get? "type")
  let title ← validateOptStr (d.get? "title")
  let description ← validateOptStr (d.get? "description")
  let resource ← validateOptStr (d.get? "resource")
  let tags ← validateTags (d.get? "tags")
  let timestamp ← validateTimestamp dt (d.get? "timestamp")
  let okfVersion ← validateOptStr (d.get? "okf_version")
  let extraFields ← validateExtraFields (d.get? "extra_fields")
  let modelExtra := Dict.ofList (d.entries.filter fun e => decide (e.1 ∉ fieldNames))
  some { type, title, description, resource, tags, timestamp, okfVersion, extraFields, modelExtra, stripped }

/-- Each field of `fm` is what its check made of the entry of `d`. -/
structure OKFFrontmatter.Validated (dt : Datetimes τ) (d : Attrs) (fm : OKFFrontmatter τ) : Prop where
  type : (validateType (d.get? "type")).map Subtype.val = some fm.type
  title : validateOptStr (d.get? "title") = some fm.title
  description : validateOptStr (d.get? "description") = some fm.description
  resource : validateOptStr (d.get? "resource") = some fm.resource
  tags : validateTags (d.get? "tags") = some fm.tags
  timestamp : validateTimestamp dt (d.get? "timestamp") = some fm.timestamp
  okfVersion : validateOptStr (d.get? "okf_version") = some fm.okfVersion
  extraFields : validateExtraFields (d.get? "extra_fields") = some fm.extraFields

theorem OKFFrontmatter.validated {dt : Datetimes τ} {d : Attrs} {fm : OKFFrontmatter τ}
    (h : OKFFrontmatter.modelValidate dt d = some fm) : Validated dt d fm := by
  unfold OKFFrontmatter.modelValidate at h
  simp only [Option.bind_eq_bind, Option.bind_eq_some_iff] at h
  obtain ⟨type, htype, title, htitle, description, hdescription, resource, hresource, tags, htags,
    timestamp, htime, version, hversion, extra, hextra, hfm⟩ := h
  cases hfm
  exact ⟨by rw [htype]; rfl, htitle, hdescription, hresource, htags, htime, hversion, hextra⟩

end Intelliqx.Okf
