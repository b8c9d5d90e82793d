import Intelliqx.Okf.Dumping
import Intelliqx.Okf.Links
import Intelliqx.Okf.Saving
import Intelliqx.Py.FileSystemLaws

/-!
# Loading a bundle

`load_bundle` reads every Markdown file below a directory. There are no links
in the file system, so it does not matter whether they are followed. Each file
is a concept under its path relative to the root, or an error (`loaded_of_loadBundle`).
So the same files below another root are the same bundle (`bundle_relocates`).
-/

namespace Intelliqx.Okf

open Py
open Py.FileSystem (lexical)

structure Citation where
  label : String
  target : String
  deriving DecidableEq, Repr

structure LoadedConcept (τ : Type) extends OKFConcept τ where
  sourcePath : PurePath
  sections : List OKFSection
  links : List OKFLink
  citations : List Citation

/-- What is read and written with: PyYAML, pydantic's datetimes, and how Python reads text. `caught`
are the exceptions of `safe_load` that are a `ValueError` or an `OSError`. -/
structure Environment (τ : Type) where
  safeLoad : SafeLoad
  safeDump : Attrs → Except PyException String
  caught : PyException → Bool
  datetimes : Datetimes τ
  lower : String → String
  isDigit : Char → Bool

inductive LoadError
  | os (e : PathError)
  | unicodeDecode
  | yaml (e : PyException)
  | missingType (path : PurePath)
  | validation
  deriving DecidableEq

structure LoadedBundle (τ : Type) where
  root : PurePath
  concepts : Dict String (LoadedConcept τ) := .empty
  errors : List (PurePath × LoadError) := []
  reserved : List String := []

def reservedFilenames : List Part := ["index.md".toList, "log.md".toList]

-- ---------------------------------------------------------------------------
-- Links and citations
-- ---------------------------------------------------------------------------

/-- `\[([^\]]+)\]\(([^)]+)\)` -/
def linkRe : Regex :=
  .chain [.lit ['['], .group "1" (.plus (.set fun c => decide (c ≠ ']'))), .lit [']', '('],
    .group "2" (.plus (.set fun c => decide (c ≠ ')'))), .lit [')']]

def linkTexts (body : String) : List (String × String) :=
  (linkRe.finditer body.toList).matches.map fun m => (strip (.ofList (m.group "1")), strip (.ofList (m.group "2")))

/-- Each pair of a text and a target, where it comes first. -/
def extractLinks (body : String) : List OKFLink :=
  (linkTexts body).foldl (fun out key => if ⟨key.1, key.2⟩ ∈ out then out else out ++ [⟨key.1, key.2⟩]) []

section
variable (env : Environment τ)

/-- `^\[\d+\]\s*` and `^\d+\.\s*` -/
def bracketedNumberRe : Regex :=
  .chain [.textStart, .lit ['['], .plus (.set env.isDigit), .lit [']'], .star (.set isSpace)]

def dottedNumberRe : Regex := .chain [.textStart, .plus (.set env.isDigit), .lit ['.'], .star (.set isSpace)]

def citationLabel (label : String) : String :=
  .ofList ((dottedNumberRe env).sub (fun _ => []) ((bracketedNumberRe env).sub (fun _ => []) label.toList))

def extractCitations (sections : List OKFSection) : List Citation :=
  match sections.find? fun s => env.lower s.heading = "citations" with
  | some s => (linkTexts s.body).map fun key => ⟨citationLabel env key.1, key.2⟩
  | none => []

-- ---------------------------------------------------------------------------
-- One file
-- ---------------------------------------------------------------------------

/-- What `read_text` makes of the ends of lines. -/
def universalNewlines : List Char → List Char
  | [] => []
  | '\r' :: '\n' :: text => '\n' :: universalNewlines text
  | c :: text => (if c = '\r' then '\n' else c) :: universalNewlines text

/-- `load_concept` on the content of its file. -/
def parseConcept (path : PurePath) (content : List UInt8) : Except LoadError (LoadedConcept τ) :=
  match decodeUtf8 content with
  | none => .error .unicodeDecode
  | some text =>
    match parseFrontmatterAndBody env.safeLoad (.ofList (universalNewlines text.toList)) with
    | .error e => .error (.yaml e)
    | .ok (parsed, body) =>
      if (parsed.get? (.str "type")).any truth then
        match splitFrontmatterFromExtras env.datetimes parsed with
        | none => .error .validation
        | some frontmatter =>
          let sections := splitSections body
          .ok
            { conceptId := .ofList (dropMd path.str.toList)
              sourcePath := path
              frontmatter := frontmatter
              body := body
              sections := sections
              links := extractLinks body
              citations := extractCitations env sections }
      else .error (.missingType path)

def loadConcept (fs : FileSystem) (path : PurePath) : Except LoadError (LoadedConcept τ) :=
  match fs.readBytes path with
  | .error e => .error (.os e)
  | .ok content => parseConcept env path content

/-- The errors that `load_bundle` catches. -/
def LoadError.isCaught : LoadError → Bool
  | .yaml e => env.caught e
  | _ => true

-- ---------------------------------------------------------------------------
-- The bundle
-- ---------------------------------------------------------------------------

/-- Whether the last component ends in `.md`. -/
def isMarkdown (parts : List Part) : Bool := parts.getLast?.any fun name => ['.', 'm', 'd'].isSuffixOf name

def walkMd (fs : FileSystem) (root : PurePath) : List PurePath :=
  (fs.rglob root).filter fun path => isMarkdown path.parts

def visitPath (fs : FileSystem) (rootPath : PurePath) (b : LoadedBundle τ) (path : PurePath) :
    Except LoadError (LoadedBundle τ) :=
  if fs.isFile path then
    match path.relativeTo rootPath with
    | none => .error (.os .valueError)
    | some rel =>
      let conceptId := String.ofList (dropMd rel.str.toList)
      match loadConcept env fs path with
      | .error e => if e.isCaught env then .ok { b with errors := b.errors ++ [(path, e)] } else .error e
      | .ok concept =>
        .ok
          { b with
            concepts := b.concepts.insert conceptId { concept with conceptId := conceptId }
            reserved :=
              if path.parts.getLast?.any (· ∈ reservedFilenames) then b.reserved ++ [conceptId] else b.reserved }
  else .ok b

def loadBundle (fs : FileSystem) (root : PurePath) : Except LoadError (LoadedBundle τ) :=
  if NulFree root.parts then
    (walkMd fs (fs.resolve root)).foldlM (visitPath env fs (fs.resolve root)) { root := fs.resolve root }
  else .error (.os .valueError)

end

-- ---------------------------------------------------------------------------
-- Ids
-- ---------------------------------------------------------------------------

/-- The id of the file with these components below the root. -/
def idOf (parts : List Part) : String := .ofList (dropMd (['/'].intercalate parts))

/-- A Markdown file below a location. -/
def MarkdownAt (fs : FileSystem) (here : Location) (parts : List Part) (content : List UInt8) : Prop :=
  isMarkdown parts = true ∧ fs.node? (here ++ parts) = some (.file content)

section
variable {parts parts' : List Part}

theorem isMarkdown_iff : isMarkdown parts = true ↔ ∃ front stem, parts = front ++ [stem ++ ['.', 'm', 'd']] := by
  rw [isMarkdown, Option.any_eq_true]
  constructor
  · rintro ⟨name, hlast, hmd⟩
    obtain ⟨front, rfl⟩ := List.getLast?_eq_some_iff.mp hlast
    obtain ⟨stem, rfl⟩ := List.isSuffixOf_iff_suffix.mp hmd
    exact ⟨front, stem, rfl⟩
  · rintro ⟨front, stem, rfl⟩
    exact ⟨stem ++ ['.', 'm', 'd'], by simp, List.isSuffixOf_iff_suffix.mpr (List.suffix_append _ _)⟩

theorem ne_nil_of_isMarkdown (h : isMarkdown parts = true) : parts ≠ [] := by
  rintro rfl
  cases h

/-- No two Markdown files have the same id. -/
theorem idOf_inj (hparts : ∀ part ∈ parts, '/' ∉ part) (hparts' : ∀ part ∈ parts', '/' ∉ part)
    (hmd : isMarkdown parts = true) (hmd' : isMarkdown parts' = true) (h : idOf parts = idOf parts') :
    parts = parts' := by
  obtain ⟨front, stem, rfl⟩ := isMarkdown_iff.mp hmd
  obtain ⟨front', stem', rfl⟩ := isMarkdown_iff.mp hmd'
  rw [idOf, idOf, String.ofList_inj, dropMd_join, dropMd_join, dropMd_md, dropMd_md] at h
  have hsplit := congrArg (List.splitOn '/') h
  have hslash : ∀ {front : List Part} {stem : Part}, (∀ part ∈ front ++ [stem ++ ['.', 'm', 'd']], '/' ∉ part) →
      ∀ part ∈ front ++ [stem], '/' ∉ part := by
    intro front stem hall part hpart
    rcases List.mem_append.mp hpart with hfront | hlast
    · exact hall part (List.mem_append_left _ hfront)
    · rw [List.mem_singleton.mp hlast]
      exact fun hmem => hall _ (List.mem_append_right _ List.mem_cons_self) (List.mem_append_left _ hmem)
  rw [List.splitOn_intercalate _ (hslash hparts) (by simp), List.splitOn_intercalate _ (hslash hparts') (by simp)]
    at hsplit
  obtain ⟨rfl, hstem⟩ := List.append_inj' hsplit rfl
  cases hstem
  rfl

end

-- ---------------------------------------------------------------------------
-- What is loaded
-- ---------------------------------------------------------------------------

/-- The bundle is made of these files. -/
structure LoadedFrom (env : Environment τ) (root : PurePath) (files : List Part → List UInt8 → Prop)
    (b : LoadedBundle τ) : Prop where
  root_eq : b.root = root
  concepts : ∀ id c, b.concepts.get? id = some c ↔ ∃ parts content c', files parts content ∧ id = idOf parts ∧
    parseConcept env (root.append parts) content = .ok c' ∧ c = { c' with conceptId := id }
  errors : ∀ path e, (path, e) ∈ b.errors ↔ ∃ parts content, files parts content ∧ path = root.append parts ∧
    parseConcept env path content = .error e
  caught : ∀ path e, (path, e) ∈ b.errors → e.isCaught env = true
  reserved : ∀ id, id ∈ b.reserved ↔ ∃ parts content c', files parts content ∧ id = idOf parts ∧
    parseConcept env (root.append parts) content = .ok c' ∧ parts.getLast?.any (· ∈ reservedFilenames) = true

section
variable {env : Environment τ} {fs : FileSystem} {root : PurePath} {here : Location} {parts : List Part}
  {b b' : LoadedBundle τ} {path : PurePath} {files : List Part → List UInt8 → Prop} {content : List UInt8}
  {c : LoadedConcept τ}
  {e : LoadError} {id : String}

theorem visitPath_file (hl : fs.locate root = .ok here) (hnul : NulFree parts) (hdots : dotDot ∉ parts)
    (hne : parts ≠ []) (h : fs.node? (here ++ parts) = some (.file content)) :
    visitPath env fs root b (root.append parts) = match parseConcept env (root.append parts) content with
      | .error e =>
        if e.isCaught env then .ok { b with errors := b.errors ++ [(root.append parts, e)] } else .error e
      | .ok concept =>
        .ok
          { b with
            concepts := b.concepts.insert (idOf parts) { concept with conceptId := idOf parts }
            reserved :=
              if parts.getLast?.any (· ∈ reservedFilenames) then b.reserved ++ [idOf parts] else b.reserved } := by
  have hstat := (FileSystem.stat_append hl hnul hdots).mpr h
  have hfile : fs.isFile (root.append parts) = true := FileSystem.isFile_iff.mpr ⟨content, hstat⟩
  have hlast : (root.append parts).parts.getLast? = parts.getLast? := List.getLast?_append_of_ne_nil _ hne
  have hid : String.ofList (dropMd (PurePath.str { root := .none, parts }).toList) = idOf parts := by
    rw [PurePath.str, if_neg fun h => hne h.2, String.toList_ofList]
    rfl
  simp only [visitPath, hfile, if_true, PurePath.relativeTo_append, loadConcept,
    FileSystem.readBytes_of_file hstat, hid, hlast]

theorem visitPath_other (hl : fs.locate root = .ok here) (hnul : NulFree parts) (hdots : dotDot ∉ parts)
    (h : ∀ content, fs.node? (here ++ parts) ≠ some (.file content)) :
    visitPath env fs root b (root.append parts) = .ok b := by
  rw [visitPath, if_neg]
  rw [FileSystem.isFile_append hl hnul hdots]
  rintro ⟨content, hfile⟩
  exact h content hfile

/-- One more file, whose id is new. -/
theorem LoadedFrom.load (h : LoadedFrom env root files b)
    (hnew : ∀ parts' content', files parts' content' → idOf parts' ≠ idOf parts)
    (hparse : parseConcept env (root.append parts) content = .ok c) :
    LoadedFrom env root (fun p x => files p x ∨ p = parts ∧ x = content)
      { b with
        concepts := b.concepts.insert (idOf parts) { c with conceptId := idOf parts }
        reserved :=
          if parts.getLast?.any (· ∈ reservedFilenames) then b.reserved ++ [idOf parts] else b.reserved } where
  root_eq := h.root_eq
  concepts id c' := by
    rw [Dict.get?_insert]
    split
    · rename_i hid
      constructor
      · intro hc
        cases hc
        exact ⟨parts, content, c, .inr ⟨rfl, rfl⟩, hid, hparse, by rw [hid]⟩
      · rintro ⟨parts', content', c'', hfile | ⟨rfl, rfl⟩, hid', hparse', rfl⟩
        · exact absurd (hid'.symm.trans hid) (hnew parts' content' hfile)
        · cases hparse.symm.trans hparse'
          rw [hid]
    · rename_i hid
      rw [h.concepts]
      constructor
      · rintro ⟨parts', content', c'', hfile, hrest⟩
        exact ⟨parts', content', c'', .inl hfile, hrest⟩
      · rintro ⟨parts', content', c'', hfile | ⟨rfl, rfl⟩, hid', hrest⟩
        · exact ⟨parts', content', c'', hfile, hid', hrest⟩
        · exact absurd hid' hid
  errors path e := by
    rw [h.errors]
    constructor
    · rintro ⟨parts', content', hfile, hrest⟩
      exact ⟨parts', content', .inl hfile, hrest⟩
    · rintro ⟨parts', content', hfile | ⟨rfl, rfl⟩, rfl, hparse'⟩
      · exact ⟨parts', content', hfile, rfl, hparse'⟩
      · cases hparse.symm.trans hparse'
  caught := h.caught
  reserved id := by
    have hold : (∃ parts' content' c', (files parts' content' ∨ parts' = parts ∧ content' = content) ∧
        id = idOf parts' ∧ parseConcept env (root.append parts') content' = .ok c' ∧
          parts'.getLast?.any (· ∈ reservedFilenames) = true) ↔
        id ∈ b.reserved ∨ id = idOf parts ∧ parts.getLast?.any (· ∈ reservedFilenames) = true := by
      rw [h.reserved]
      constructor
      · rintro ⟨parts', content', c', hfile | ⟨rfl, rfl⟩, hid, hparse', hlast⟩
        · exact .inl ⟨parts', content', c', hfile, hid, hparse', hlast⟩
        · exact .inr ⟨hid, hlast⟩
      · rintro (⟨parts', content', c', hfile, hrest⟩ | ⟨hid, hlast⟩)
        · exact ⟨parts', content', c', .inl hfile, hrest⟩
        · exact ⟨parts, content, c, .inr ⟨rfl, rfl⟩, hid, hparse, hlast⟩
    rw [hold]
    split
    · rename_i hlast
      rw [List.mem_append, List.mem_singleton, and_iff_left hlast]
    · rename_i hlast
      exact ⟨.inl, fun hor => hor.resolve_right fun hnot => hlast hnot.2⟩

theorem LoadedFrom.fail (h : LoadedFrom env root files b) (hcaught : e.isCaught env = true)
    (hparse : parseConcept env (root.append parts) content = .error e) :
    LoadedFrom env root (fun p x => files p x ∨ p = parts ∧ x = content)
      { b with errors := b.errors ++ [(root.append parts, e)] } where
  root_eq := h.root_eq
  concepts id c := by
    rw [h.concepts]
    constructor
    · rintro ⟨parts', content', c', hfile, hrest⟩
      exact ⟨parts', content', c', .inl hfile, hrest⟩
    · rintro ⟨parts', content', c', hfile | ⟨rfl, rfl⟩, hid, hparse', hc⟩
      · exact ⟨parts', content', c', hfile, hid, hparse', hc⟩
      · cases hparse.symm.trans hparse'
  errors path e' := by
    rw [List.mem_append, h.errors, List.mem_singleton]
    constructor
    · rintro (⟨parts', content', hfile, hrest⟩ | heq)
      · exact ⟨parts', content', .inl hfile, hrest⟩
      · cases heq
        exact ⟨parts, content, .inr ⟨rfl, rfl⟩, rfl, hparse⟩
    · rintro ⟨parts', content', hfile | ⟨rfl, rfl⟩, rfl, hparse'⟩
      · exact .inl ⟨parts', content', hfile, rfl, hparse'⟩
      · cases hparse.symm.trans hparse'
        exact .inr rfl
  caught path e' hmem := by
    rcases List.mem_append.mp hmem with hold | hnew
    · exact h.caught path e' hold
    · cases List.mem_singleton.mp hnew
      exact hcaught
  reserved id := by
    rw [h.reserved]
    constructor
    · rintro ⟨parts', content', c', hfile, hrest⟩
      exact ⟨parts', content', c', .inl hfile, hrest⟩
    · rintro ⟨parts', content', c', hfile | ⟨rfl, rfl⟩, hid, hparse', hlast⟩
      · exact ⟨parts', content', c', hfile, hid, hparse', hlast⟩
      · cases hparse.symm.trans hparse'

theorem LoadedFrom.congr {files' : List Part → List UInt8 → Prop} (h : LoadedFrom env root files b)
    (hfiles : ∀ p x, files p x ↔ files' p x) : LoadedFrom env root files' b := by
  have heq : files = files' := funext fun p => funext fun x => propext (hfiles p x)
  exact heq ▸ h

/-- A path below the root to something that is called like a Markdown file. -/
def CalledMarkdown (root : PurePath) (here : Location) (fs : FileSystem) (path : PurePath) : Prop :=
  ∃ parts, path = root.append parts ∧ isMarkdown parts = true ∧ ∃ node, fs.node? (here ++ parts) = some node

theorem append_inj (h : root.append parts = root.append parts') : parts = parts' := by
  simpa [PurePath.append] using h

section
variable (hfs : fs.Clean) (hl : fs.locate root = .ok here)
include hfs

theorem fileNames_of_node {node : Node} (h : fs.node? (here ++ parts) = some node) :
    NulFree parts ∧ dotDot ∉ parts ∧ ∀ part ∈ parts, '/' ∉ part := by
  have hnames : ∀ part ∈ parts, FileSystem.IsFileName part :=
    fun part hpart => hfs.names _ node h part (List.mem_append_right _ hpart)
  exact ⟨fun part hpart => (hnames part hpart).2.2, fun hmem => (hnames _ hmem).1.2.2 rfl,
    fun part hpart => (hnames part hpart).2.1⟩

include hl

/-- The files that come last are new, so they only add to the bundle. -/
theorem LoadedFrom.visit {paths : List PurePath} (h : LoadedFrom env root files b) (hnodup : paths.Nodup)
    (hpaths : ∀ path ∈ paths, CalledMarkdown root here fs path)
    (hfiles : ∀ p x, files p x → MarkdownAt fs here p x ∧ root.append p ∉ paths)
    (hcaught : ∀ parts content, root.append parts ∈ paths → MarkdownAt fs here parts content →
      ∀ e, parseConcept env (root.append parts) content = .error e → e.isCaught env = true) :
    ∃ b', paths.foldlM (visitPath env fs root) b = .ok b' ∧
      LoadedFrom env root (fun p x => files p x ∨ root.append p ∈ paths ∧ MarkdownAt fs here p x) b' := by
  induction paths generalizing b files with
  | nil => exact ⟨b, rfl, h.congr fun p x => by simp⟩
  | cons path paths ih =>
    obtain ⟨hpath, hlast⟩ := List.nodup_cons.mp hnodup
    obtain ⟨⟨parts, rfl, hmd, node, hnode⟩, hcalled⟩ := List.forall_mem_cons.mp hpaths
    obtain ⟨hnul, hdots, hslash⟩ := fileNames_of_node hfs hnode
    have hlater : ∀ p x, files p x → MarkdownAt fs here p x ∧ root.append p ∉ paths := fun p x hfile =>
      ⟨(hfiles p x hfile).1, fun hmem => (hfiles p x hfile).2 (List.mem_cons_of_mem _ hmem)⟩
    have hrest : ∀ p x, root.append p ∈ paths → MarkdownAt fs here p x → ∀ e,
        parseConcept env (root.append p) x = .error e → e.isCaught env = true :=
      fun p x hp => hcaught p x (List.mem_cons_of_mem _ hp)
    rw [List.foldlM_cons]
    by_cases hfile : ∃ content, fs.node? (here ++ parts) = some (.file content)
    · obtain ⟨content, hfile⟩ := hfile
      have hat : MarkdownAt fs here parts content := ⟨hmd, hfile⟩
      have hcontent : ∀ {p x}, root.append p = root.append parts → MarkdownAt fs here p x →
          p = parts ∧ x = content := by
        intro p x heq hx
        obtain rfl := append_inj heq
        exact ⟨rfl, by simpa using hx.2.symm.trans hfile⟩
      rw [visitPath_file hl hnul hdots (ne_nil_of_isMarkdown hmd) hfile]
      -- what is visited later is another file
      have hnext : ∀ p x, (files p x ∨ p = parts ∧ x = content) →
          MarkdownAt fs here p x ∧ root.append p ∉ paths := by
        rintro p x (hold | ⟨rfl, rfl⟩)
        · exact hlater p x hold
        · exact ⟨hat, hpath⟩
      have hsame : ∀ p x,
          ((files p x ∨ p = parts ∧ x = content) ∨ root.append p ∈ paths ∧ MarkdownAt fs here p x) ↔
          (files p x ∨ root.append p ∈ root.append parts :: paths ∧ MarkdownAt fs here p x) := by
        intro p x
        rw [or_assoc]
        refine or_congr_right ⟨?_, ?_⟩
        · rintro (⟨rfl, rfl⟩ | ⟨hp, hx⟩)
          · exact ⟨List.mem_cons_self, hat⟩
          · exact ⟨List.mem_cons_of_mem _ hp, hx⟩
        · rintro ⟨hp, hx⟩
          exact (List.mem_cons.mp hp).imp (fun heq => hcontent heq hx) fun hp => ⟨hp, hx⟩
      cases hparse : parseConcept env (root.append parts) content with
      | ok c =>
        have hnew : ∀ p x, files p x → idOf p ≠ idOf parts := by
          intro p x hold hid
          obtain ⟨hx, hnot⟩ := hfiles p x hold
          obtain ⟨-, -, hslash'⟩ := fileNames_of_node hfs hx.2
          obtain rfl := idOf_inj hslash' hslash hx.1 hmd hid
          exact hnot List.mem_cons_self
        obtain ⟨b', hb', hloaded⟩ := ih (h.load hnew hparse) hlast hcalled hnext hrest
        exact ⟨b', hb', hloaded.congr hsame⟩
      | error e =>
        have he := hcaught parts content List.mem_cons_self hat e hparse
        obtain ⟨b', hb', hloaded⟩ := ih (h.fail he hparse) hlast hcalled hnext hrest
        refine ⟨b', ?_, hloaded.congr hsame⟩
        simp only [he, if_true]
        exact hb'
    · rw [visitPath_other hl hnul hdots fun content hx => hfile ⟨content, hx⟩]
      obtain ⟨b', hb', hloaded⟩ := ih h hlast hcalled hlater hrest
      refine ⟨b', hb', hloaded.congr fun p x => or_congr_right (and_congr_left fun hx => ?_)⟩
      refine ⟨List.mem_cons_of_mem _, fun hp => (List.mem_cons.mp hp).resolve_left fun heq => ?_⟩
      obtain rfl := append_inj heq
      exact hfile ⟨x, hx.2⟩

/-- A file whose error is not caught stops the loading. -/
theorem caught_of_foldlM {paths : List PurePath} (hpaths : ∀ path ∈ paths, CalledMarkdown root here fs path)
    (h : paths.foldlM (visitPath env fs root) b = .ok b') : ∀ parts content, root.append parts ∈ paths →
      MarkdownAt fs here parts content → ∀ e, parseConcept env (root.append parts) content = .error e →
        e.isCaught env = true := by
  induction paths generalizing b with
  | nil =>
    intro parts content hmem
    cases hmem
  | cons path paths ih =>
    obtain ⟨-, hpaths⟩ := List.forall_mem_cons.mp hpaths
    rw [List.foldlM_cons] at h
    obtain ⟨b₁, hvisit, hrest⟩ := bind_eq_ok.mp h
    intro parts content hmem hat e hparse
    rcases List.mem_cons.mp hmem with rfl | hmem
    · obtain ⟨hnul, hdots, -⟩ := fileNames_of_node hfs hat.2
      rw [visitPath_file hl hnul hdots (ne_nil_of_isMarkdown hat.1) hat.2, hparse] at hvisit
      by_contra hnot
      simp [hnot] at hvisit
    · exact ih hpaths hrest parts content hmem hat e hparse

omit hfs in
theorem mem_walkMd : path ∈ walkMd fs root ↔ CalledMarkdown root here fs path := by
  have hend : ∀ {parts : List Part}, parts ≠ [] → isMarkdown (root.append parts).parts = isMarkdown parts :=
    fun hne => congrArg (Option.any _) (List.getLast?_append_of_ne_nil _ hne)
  rw [walkMd, List.mem_filter, FileSystem.mem_rglob hl]
  constructor
  · rintro ⟨⟨parts, hne, rfl, hnode⟩, hmd⟩
    exact ⟨parts, rfl, hend hne ▸ hmd, hnode⟩
  · rintro ⟨parts, rfl, hmd, hnode⟩
    have hne := ne_nil_of_isMarkdown hmd
    exact ⟨⟨parts, hne, rfl, hnode⟩, (hend hne).trans hmd⟩

end

/-- What a bundle has to be that is loaded from a directory. -/
def LoadsAs (env : Environment τ) (fs : FileSystem) (root : PurePath) (b : LoadedBundle τ) : Prop :=
  LoadedFrom env (fs.resolve root) (MarkdownAt fs (fs.lexical root)) b

/-- No file below the root raises what `load_bundle` does not catch. -/
def AllCaught (env : Environment τ) (fs : FileSystem) (root : PurePath) : Prop :=
  ∀ parts content, MarkdownAt fs (fs.lexical root) parts content → ∀ e,
    parseConcept env ((fs.resolve root).append parts) content = .error e → e.isCaught env = true

section
variable (hfs : fs.Clean) (hroot : FileSystem.Proper root) (hdir : fs.node? (fs.lexical root) = some .directory)
include hfs hroot hdir

theorem mem_walkMd_resolve : path ∈ walkMd fs (fs.resolve root) ↔
    CalledMarkdown (fs.resolve root) (fs.lexical root) fs path :=
  mem_walkMd (hfs.locate_resolve hroot hdir)

theorem exists_loadBundle (h : AllCaught env fs root) :
    ∃ b, loadBundle env fs root = .ok b ∧ LoadsAs env fs root b := by
  have hl := hfs.locate_resolve hroot hdir
  have hstart : LoadedFrom env (fs.resolve root) (fun _ _ => False) { root := fs.resolve root } := by
    constructor <;> simp
  have hpaths : ∀ path ∈ walkMd fs (fs.resolve root), CalledMarkdown (fs.resolve root) (fs.lexical root) fs path :=
    fun path => (mem_walkMd_resolve hfs hroot hdir).mp
  have hnodup : (walkMd fs (fs.resolve root)).Nodup := (FileSystem.nodup_rglob fs _).filter _
  obtain ⟨b, hb, hloaded⟩ := hstart.visit hfs hl hnodup hpaths (fun _ _ h => h.elim)
    fun parts content _ hat => h parts content hat
  refine ⟨b, ?_, hloaded.congr fun parts content => ?_⟩
  · rw [loadBundle, if_pos hroot.nulFree, hb]
  · rw [false_or]
    refine and_iff_right_of_imp fun hat => ?_
    exact (mem_walkMd_resolve hfs hroot hdir).mpr ⟨parts, rfl, hat.1, _, hat.2⟩

theorem allCaught_of_loadBundle (h : loadBundle env fs root = .ok b) : AllCaught env fs root := by
  rw [loadBundle, if_pos hroot.nulFree] at h
  intro parts content hat
  refine caught_of_foldlM hfs (hfs.locate_resolve hroot hdir)
    (fun path => (mem_walkMd_resolve hfs hroot hdir).mp) h parts content ?_ hat
  exact (mem_walkMd_resolve hfs hroot hdir).mpr ⟨parts, rfl, hat.1, _, hat.2⟩

/-- Each Markdown file below the root is a concept under its relative path or an error. -/
theorem loaded_of_loadBundle (h : loadBundle env fs root = .ok b) : LoadsAs env fs root b := by
  obtain ⟨b', hb', hloaded⟩ := exists_loadBundle hfs hroot hdir (allCaught_of_loadBundle hfs hroot hdir h)
  cases h.symm.trans hb'
  exact hloaded

end

-- ---------------------------------------------------------------------------
-- Another root
-- ---------------------------------------------------------------------------

/-- The concept as it is read from a file with this path. -/
def LoadedConcept.placed (c : LoadedConcept τ) (path : PurePath) : LoadedConcept τ :=
  { c with conceptId := .ofList (dropMd path.str.toList), sourcePath := path }

def LoadError.placed (path : PurePath) : LoadError → LoadError
  | .missingType _ => .missingType path
  | e => e

/-- Everything but the file it was read from. -/
def LoadedConcept.unplaced (c : LoadedConcept τ) : LoadedConcept τ :=
  { c with sourcePath := { root := .none, parts := [] } }

theorem unplaced_placed (c : LoadedConcept τ) (path : PurePath) (id : String) :
    { c.placed path with conceptId := id }.unplaced = { c with conceptId := id }.unplaced := rfl

theorem isCaught_placed (path : PurePath) : (e.placed path).isCaught env = e.isCaught env := by
  cases e <;> rfl

/-- The path of a file matters to nothing but what is named after it. -/
theorem parseConcept_placed (env : Environment τ) (content : List UInt8) (path path' : PurePath) :
    parseConcept env path' content = match parseConcept env path content with
    | .ok c => .ok (c.placed path')
    | .error e => .error (e.placed path') := by
  unfold parseConcept
  cases decodeUtf8 content with
  | none => rfl
  | some text =>
    simp only
    cases parseFrontmatterAndBody env.safeLoad (.ofList (universalNewlines text.toList)) with
    | error e => rfl
    | ok parsed =>
      simp only
      split
      · cases splitFrontmatterFromExtras env.datetimes parsed.1 with
        | none => rfl
        | some frontmatter => rfl
      · rfl

/-- The same Markdown files below two roots. -/
def SameMarkdown (fs fs' : FileSystem) (root root' : PurePath) : Prop :=
  ∀ parts content, MarkdownAt fs (fs.lexical root) parts content ↔ MarkdownAt fs' (fs'.lexical root') parts content

theorem SameMarkdown.symm {fs' : FileSystem} {root' : PurePath} (h : SameMarkdown fs fs' root root') :
    SameMarkdown fs' fs root' root := fun parts content => (h parts content).symm

theorem SameMarkdown.allCaught {fs' : FileSystem} {root' : PurePath} (h : SameMarkdown fs fs' root root')
    (hcaught : AllCaught env fs root) : AllCaught env fs' root' := by
  intro parts content hat e hparse
  rw [parseConcept_placed env content ((fs.resolve root).append parts)] at hparse
  cases hold : parseConcept env ((fs.resolve root).append parts) content with
  | ok c =>
    rw [hold] at hparse
    cases hparse
  | error e' =>
    rw [hold] at hparse
    cases hparse
    rw [isCaught_placed]
    exact hcaught parts content ((h parts content).mpr hat) e' hold

/-- A concept of the one bundle is one of the other. -/
theorem SameMarkdown.concept {fs' : FileSystem} {root' : PurePath} (h : SameMarkdown fs fs' root root')
    (hb : LoadsAs env fs root b) (hb' : LoadsAs env fs' root' b') (hc : b.concepts.get? id = some c) :
    ∃ c', b'.concepts.get? id = some c' ∧ c'.unplaced = c.unplaced := by
  obtain ⟨parts, content, c₀, hat, hid, hparse, rfl⟩ := (hb.concepts id c).mp hc
  have hparse' := parseConcept_placed env content ((fs.resolve root).append parts)
    ((fs'.resolve root').append parts)
  rw [hparse] at hparse'
  exact ⟨_, (hb'.concepts id _).mpr ⟨parts, content, _, (h parts content).mp hat, hid, hparse', rfl⟩,
    unplaced_placed _ _ _⟩

theorem SameMarkdown.error {fs' : FileSystem} {root' : PurePath} (h : SameMarkdown fs fs' root root')
    (hb : LoadsAs env fs root b) (hb' : LoadsAs env fs' root' b')
    (he : ((fs.resolve root).append parts, e) ∈ b.errors) :
    ((fs'.resolve root').append parts, e.placed ((fs'.resolve root').append parts)) ∈ b'.errors := by
  obtain ⟨parts', content, hat, heq, hparse⟩ := (hb.errors _ e).mp he
  obtain rfl := append_inj heq
  refine (hb'.errors _ _).mpr ⟨parts, content, (h parts content).mp hat, rfl, ?_⟩
  rw [parseConcept_placed env content ((fs.resolve root).append parts), hparse]

theorem SameMarkdown.reserved {fs' : FileSystem} {root' : PurePath} (h : SameMarkdown fs fs' root root')
    (hb : LoadsAs env fs root b) (hb' : LoadsAs env fs' root' b') (hid : id ∈ b.reserved) : id ∈ b'.reserved := by
  obtain ⟨parts, content, c, hat, rfl, hparse, hlast⟩ := (hb.reserved id).mp hid
  have hparse' := parseConcept_placed env content ((fs.resolve root).append parts)
    ((fs'.resolve root').append parts)
  rw [hparse] at hparse'
  exact (hb'.reserved _).mpr ⟨parts, content, _, (h parts content).mp hat, rfl, hparse', hlast⟩

/-- The same Markdown files are the same bundle, wherever the root is and whatever else is there. -/
theorem bundle_relocates (env : Environment τ) (fs fs' : FileSystem) (root root' : PurePath) (hfs : fs.Clean)
    (hfs' : fs'.Clean) (hroot : FileSystem.Proper root) (hroot' : FileSystem.Proper root')
    (hdir : fs.node? (fs.lexical root) = some .directory) (hdir' : fs'.node? (fs'.lexical root') = some .directory)
    (hsame : SameMarkdown fs fs' root root') :
    ((∃ b, loadBundle env fs root = .ok b) ↔ ∃ b', loadBundle env fs' root' = .ok b') ∧
      ∀ b b', loadBundle env fs root = .ok b → loadBundle env fs' root' = .ok b' →
        (∀ id, (b'.concepts.get? id).map LoadedConcept.unplaced =
          (b.concepts.get? id).map LoadedConcept.unplaced) ∧
        (∀ parts, (∃ e, ((fs.resolve root).append parts, e) ∈ b.errors) ↔
          ∃ e', ((fs'.resolve root').append parts, e') ∈ b'.errors) ∧
        ∀ id, id ∈ b.reserved ↔ id ∈ b'.reserved := by
  refine ⟨⟨?_, ?_⟩, fun b b' hload hload' => ?_⟩
  · rintro ⟨b, hload⟩
    obtain ⟨b', hb', -⟩ := exists_loadBundle hfs' hroot' hdir'
      (hsame.allCaught (allCaught_of_loadBundle hfs hroot hdir hload))
    exact ⟨b', hb'⟩
  · rintro ⟨b', hload'⟩
    obtain ⟨b, hb, -⟩ := exists_loadBundle hfs hroot hdir
      (hsame.symm.allCaught (allCaught_of_loadBundle hfs' hroot' hdir' hload'))
    exact ⟨b, hb⟩
  · have hb := loaded_of_loadBundle hfs hroot hdir hload
    have hb' := loaded_of_loadBundle hfs' hroot' hdir' hload'
    refine ⟨fun id => ?_, fun parts => ⟨?_, ?_⟩, fun id => ⟨hsame.reserved hb hb', hsame.symm.reserved hb' hb⟩⟩
    · cases hc : b.concepts.get? id with
      | some c =>
        obtain ⟨c', hc', heq⟩ := hsame.concept hb hb' hc
        rw [hc', Option.map_some, Option.map_some, heq]
      | none =>
        cases hc' : b'.concepts.get? id with
        | none => rfl
        | some c' =>
          obtain ⟨c, hsome, -⟩ := hsame.symm.concept hb' hb hc'
          cases hc.symm.trans hsome
    · rintro ⟨e, he⟩
      exact ⟨_, hsame.error hb hb' he⟩
    · rintro ⟨e', he'⟩
      exact ⟨_, hsame.symm.error hb' hb he'⟩

end

/-- A document with one field, as `safe_load` reads it. -/
def smokeDocument : List UInt8 := encodeUtf8 (savedText "type: doc" "[b](b.md)")

def smokeEnvironment : Environment String where
  safeLoad _ := .ok (some (.dict [(.str "type", .str "doc")]))
  safeDump _ := .ok "type: doc"
  caught _ := false
  datetimes := isoTexts
  lower s := .ofList (s.toList.map Char.toLower)
  isDigit := Char.isDigit

def smokeTree : FileSystem where
  nodes := .ofList [(["kb".toList], .directory), (["kb".toList, "a.md".toList], .file smokeDocument)]
  cwd := []
  hangs := by decide +kernel
  stands := rfl

/-- The same document, somewhere else. -/
def movedTree : FileSystem where
  nodes := .ofList [(["srv".toList], .directory), (["srv".toList, "kb".toList], .directory),
    (["srv".toList, "kb".toList, "a.md".toList], .file smokeDocument)]
  cwd := ["srv".toList]
  hangs := by decide +kernel
  stands := rfl

theorem sameMarkdown_smoke : SameMarkdown smokeTree movedTree (.ofText "/kb".toList) (.ofText "kb".toList) := by
  have hat : smokeTree.lexical (.ofText "/kb".toList) = ["kb".toList] := by decide +kernel
  have hat' : movedTree.lexical (.ofText "kb".toList) = ["srv".toList, "kb".toList] := by decide +kernel
  have hentries : smokeTree.nodes.entries =
      [(["kb".toList], .directory), (["kb".toList, "a.md".toList], .file smokeDocument)] := rfl
  have hentries' : movedTree.nodes.entries = [(["srv".toList], .directory),
      (["srv".toList, "kb".toList], .directory),
      (["srv".toList, "kb".toList, "a.md".toList], .file smokeDocument)] := rfl
  intro parts content
  rw [MarkdownAt, MarkdownAt, hat, hat', FileSystem.node?_eq_file, FileSystem.node?_eq_file, hentries, hentries']
  simp

theorem clean_smoke : smokeTree.Clean := FileSystem.clean_of_keys (by decide +kernel) (by decide +kernel)

theorem proper_smoke : FileSystem.Proper (.ofText "/kb".toList) := by decide +kernel

theorem directory_smoke : smokeTree.node? (smokeTree.lexical (.ofText "/kb".toList)) = some .directory := by
  decide +kernel

theorem parse_smokeDocument (path : PurePath) : ∃ c, parseConcept smokeEnvironment path smokeDocument = .ok c := by
  have hy : ∀ line ∈ "type: doc".toList.splitOn '\n', ¬ isRule line := by
    rw [show "type: doc".toList.splitOn '\n' = ["type: doc".toList] by decide, List.forall_mem_singleton]
    rintro ⟨w, hw, -⟩
    have hhead : some 't' = some '-' := congrArg List.head? hw
    exact absurd hhead (by decide)
  obtain ⟨rest, hafter, -⟩ := afterRule_saved_body (b := "[b](b.md)".toList) (.inr (by decide))
  have hblock := frontmatterBlock?_saved hy hafter
  have htext : (universalNewlines (savedText "type: doc" "[b](b.md)").toList).dropWhile (fun c => c = '\ufeff') =
      ['-', '-', '-'] ++ '\n' :: ("type: doc".toList ++ '\n' :: (['-', '-', '-'] ++ '\n' :: '\n' ::
        if "[b](b.md)".toList.getLast? = some '\n' then "[b](b.md)".toList
        else "[b](b.md)".toList ++ ['\n'])) := by
    decide +kernel
  rw [parseConcept, smokeDocument, decodeUtf8_encodeUtf8]
  simp only [parseFrontmatterAndBody, String.toList_ofList, htext, hblock]
  exact ⟨_, rfl⟩

theorem allCaught_smoke : AllCaught smokeEnvironment smokeTree (.ofText "/kb".toList) := by
  intro parts content hat e hparse
  rw [MarkdownAt, FileSystem.node?_eq_file] at hat
  obtain ⟨-, -, hmem⟩ := hat
  have hcontent : ∀ entry ∈ smokeTree.nodes.entries, entry.2 = .directory ∨ entry.2 = .file smokeDocument := by
    decide +kernel
  obtain hdir | hfile := hcontent _ hmem
  · cases hdir
  · cases hfile
    obtain ⟨c, hc⟩ := parse_smokeDocument ((smokeTree.resolve (.ofText "/kb".toList)).append parts)
    cases hc.symm.trans hparse

theorem exists_bundle_smoke : ∃ b, loadBundle smokeEnvironment smokeTree (.ofText "/kb".toList) = .ok b ∧
    LoadsAs smokeEnvironment smokeTree (.ofText "/kb".toList) b :=
  exists_loadBundle clean_smoke proper_smoke directory_smoke allCaught_smoke

theorem bundle_relocates_smoke : ∃ b b', loadBundle smokeEnvironment smokeTree (.ofText "/kb".toList) = .ok b ∧
    loadBundle smokeEnvironment movedTree (.ofText "kb".toList) = .ok b' ∧ (b.concepts.get? "a").isSome ∧
      (b'.concepts.get? "a").map LoadedConcept.unplaced = (b.concepts.get? "a").map LoadedConcept.unplaced := by
  have hclean' : movedTree.Clean := FileSystem.clean_of_keys (by decide +kernel) (by decide +kernel)
  have hproper' : FileSystem.Proper (.ofText "kb".toList) := by decide +kernel
  obtain ⟨hboth, hsame⟩ := bundle_relocates smokeEnvironment smokeTree movedTree (.ofText "/kb".toList)
    (.ofText "kb".toList) clean_smoke hclean' proper_smoke hproper' directory_smoke (by decide +kernel)
    sameMarkdown_smoke
  obtain ⟨b, hb, hloads⟩ := exists_bundle_smoke
  obtain ⟨b', hb'⟩ := hboth.mp ⟨b, hb⟩
  refine ⟨b, b', hb, hb', ?_, (hsame b b' hb hb').1 "a"⟩
  obtain ⟨c, hc⟩ := parse_smokeDocument ((smokeTree.resolve (.ofText "/kb".toList)).append ["a.md".toList])
  have hat : MarkdownAt smokeTree (smokeTree.lexical (.ofText "/kb".toList)) ["a.md".toList] smokeDocument :=
    ⟨by decide, by decide +kernel⟩
  rw [(hloads.concepts "a" _).mpr ⟨_, _, c, hat, by decide +kernel, hc, rfl⟩]
  rfl

end Intelliqx.Okf
