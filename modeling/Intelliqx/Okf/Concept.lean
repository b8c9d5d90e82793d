import Intelliqx.Okf.Frontmatter
import Intelliqx.Py.Regex

/-!
# Concept documents

`load_concept` and `save_concept`: a Markdown text with a YAML block on top.
`yaml.safe_load` is a parameter.
-/

namespace Intelliqx.Okf

open Py

/-- What `yaml.safe_load` makes of a mapping. -/
abbrev Mapping := Dict PyKey PyValue

/-- `yaml.safe_load`: a value, nothing for the `YAMLError` that is caught, or another exception. -/
abbrev SafeLoad := String → Except PyException (Option PyValue)

-- ---------------------------------------------------------------------------
-- The frontmatter block
-- ---------------------------------------------------------------------------

/-- `^---\s*$` -/
def frontmatterRe : Regex :=
  .seq .lineStart (.seq (.lit ['-', '-', '-']) (.seq (.star (.set isSpace)) .lineEnd))

def startsBlock (text : List Char) : Bool :=
  ['-', '-', '-', '\n'].isPrefixOf text || ['-', '-', '-', '\r', '\n'].isPrefixOf text

/-- The single newline behind the closing rule belongs to it. -/
def dropNewline : List Char → List Char
  | '\n' :: body => body
  | body => body

/-- The text between the first two rules and the text behind them. -/
def frontmatterBlock? (text : List Char) : Option (List Char × List Char) :=
  if startsBlock text then
    match (frontmatterRe.finditer text).1 with
    | _ :: (fmText, close) :: _ => some (fmText, dropNewline close.rest)
    | _ => none
  else none

/-- What is not a mapping counts as an empty one. -/
def asMapping : Option PyValue → Mapping
  | some (.dict entries) => Dict.ofList entries
  | _ => Dict.empty

def parseFrontmatterAndBody (safeLoad : SafeLoad) (text : String) : Except PyException (Mapping × String) :=
  let text := text.toList.dropWhile fun c => c = '\ufeff'
  match frontmatterBlock? text with
  | none => .ok (Dict.empty, .ofList text)
  | some (fmText, body) => (safeLoad (.ofList fmText)).map fun parsed => (asMapping parsed, .ofList body)

/-- What `save_concept` writes: the body ends in a newline. -/
def savedText (yamlText body : String) : String :=
  "---\n" ++ yamlText ++ "\n---\n\n" ++ if body.toList.getLast? = some '\n' then body else body ++ "\n"

-- ---------------------------------------------------------------------------
-- Sections
-- ---------------------------------------------------------------------------

structure OKFSection where
  heading : String
  body : String
  deriving DecidableEq, Repr

/-- `^# (.+)$` -/
def sectionRe : Regex :=
  .seq .lineStart (.seq (.lit ['#', ' '])
    (.seq (.group "1" (.plus (.set fun c => decide (c ≠ '\n')))) .lineEnd))

/-- `text.strip("\n")` and `text.rstrip("\n")` -/
def rstripNewlines (text : List Char) : List Char := text.rdropWhile fun c => c = '\n'

def stripNewlines (text : List Char) : List Char := rstripNewlines (text.dropWhile fun c => c = '\n')

/-- The sections of headings that are followed by these matches and the tail. -/
def sectionsOf : List (List Char × Match) → List Char → List OKFSection
  | [], _ => []
  | (_, m) :: ms, tail =>
    let body := match ms with
      | (gap, _) :: _ => gap
      | [] => tail
    ⟨strip (.ofList (m.group "1")), .ofList (stripNewlines body)⟩ :: sectionsOf ms tail

def splitSections (body : String) : List OKFSection :=
  let found := sectionRe.finditer body.toList
  match found.1 with
  | [] => [⟨"", body⟩]
  | (intro, _) :: _ =>
    (if intro ≠ [] then [⟨"", .ofList (rstripNewlines intro)⟩] else []) ++ sectionsOf found.1 found.2

-- ---------------------------------------------------------------------------
-- Known fields and extras
-- ---------------------------------------------------------------------------

def knownFields : List String :=
  ["type", "title", "description", "resource", "tags", "timestamp", "okf_version"]

def knownField? : PyKey → Option String
  | .str k => if k ∈ knownFields then some k else none
  | _ => none

/-- `split_frontmatter_from_extras`; `none` where validation raises. -/
def splitFrontmatterFromExtras (dt : Datetimes τ) (parsed : Mapping) : Option (OKFFrontmatter τ) :=
  let fmData := parsed.entries.filterMap fun e => (knownField? e.1).map fun k => (k, e.2)
  let extras := parsed.entries.filter fun e => (knownField? e.1).isNone
  OKFFrontmatter.modelValidate dt (Dict.ofList (fmData ++ [("extra_fields", .dict extras)]))

/-- `bool(value)` -/
def truth : PyValue → Bool
  | .none => false
  | .bool b => b
  | .int n => n ≠ 0
  | .float repr => repr ≠ "0.0" ∧ repr ≠ "-0.0"
  | .str s => s ≠ ""
  | .bytes content => content ≠ []
  | .list items | .tuple items | .set items => !items.isEmpty
  | .dict entries => !entries.isEmpty
  | .other _ => true

/-- The frontmatter `load_concept` makes of the mapping it has parsed; `none` where it raises. -/
def loadFrontmatter (dt : Datetimes τ) (parsed : Mapping) : Option (OKFFrontmatter τ) :=
  if (parsed.get? (.str "type")).any truth then splitFrontmatterFromExtras dt parsed else none

def setDefault (d : Attrs) (k : String) (v : PyValue) : Attrs := if k ∈ d.keys then d else d.insert k v

/-- A field that is not `None`. -/
def field (name : String) (value : Option PyValue) : List (String × PyValue) :=
  (value.map fun v => (name, v)).toList

/-- The known fields as `model_dump_okf` puts them in. -/
def OKFFrontmatter.dumped (fm : OKFFrontmatter τ) (dt : Datetimes τ) : List (String × PyValue) :=
  [("type", .str fm.type)] ++ field "title" (fm.title.map .str) ++
    field "description" (fm.description.map .str) ++ field "resource" (fm.resource.map .str) ++
    field "tags" (if fm.tags ≠ [] then some (.list (fm.tags.map .str)) else none) ++
    field "timestamp" (fm.timestamp.map fun t => .str (dt.isoformat t)) ++
    field "okf_version" (fm.okfVersion.map .str)

def OKFFrontmatter.modelDumpOkf (fm : OKFFrontmatter τ) (dt : Datetimes τ) : Attrs :=
  fm.extraFields.entries.foldl (fun out e => setDefault out e.1 e.2) (Dict.ofList (fm.dumped dt))

end Intelliqx.Okf
