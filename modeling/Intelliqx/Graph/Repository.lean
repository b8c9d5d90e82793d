import Intelliqx.Graph.Parsers
import Intelliqx.Graph.Models
import Intelliqx.Py.Directory
import Intelliqx.Py.Json

/-!
# Scanning and parsing a repository

`collect_repository_metadata` counts the Python files of a tree and
`parse_repository` parses them. Each walks the tree with a list of its own of
directories to skip. They see the same files exactly when no Python file lies
below a directory that the scan alone skips (`same_files_iff`). `lower` stands
for `str.lower`.
-/

namespace Intelliqx.Graph.Repository

open Py (Directory FilePath PurePath PyException filesOf walk)

def pythonExtensions : List String := [".py", ".pyi"]

def buildSystemFiles : List (String × String) :=
  [("pyproject.toml", "python"), ("setup.py", "python"), ("setup.cfg", "python")]

def directoriesToSkip : List String :=
  [".git", ".hg", ".svn", "__pycache__", "node_modules", "vendor", "dist", "build", ".venv", "venv",
    ".mypy_cache", ".pytest_cache", ".ruff_cache", "target", "coverage", ".tox", ".eggs"]

def pythonDirectoriesToSkip : List String :=
  [".git", "__pycache__", "node_modules", "vendor", ".venv", "venv", ".mypy_cache", ".pytest_cache",
    ".ruff_cache", "target", "dist", "build"]

def isEggInfo (d : String) : Bool := ".egg-info".toList.isSuffixOf d.toList

def scanEnters (d : String) : Bool := d ∉ directoriesToSkip && !isEggInfo d

def parserEnters (d : String) : Bool := d ∉ pythonDirectoriesToSkip

def located (root : PurePath) (dirpath : List String) (filename : String) : PurePath :=
  root.append (dirpath.map String.toList ++ [filename.toList])

-- ---------------------------------------------------------------------------
-- Scanning
-- ---------------------------------------------------------------------------

/-- What `stat` and reading a file give. Nothing stands for an `OSError`. -/
structure Disk where
  size : PurePath → Option Nat
  lineCount : PurePath → Option Nat

def Disk.lines (disk : Disk) (path : PurePath) : Nat :=
  match disk.size path with
  | some size => if size < 1000000 then (disk.lineCount path).getD 0 else 0
  | none => 0

/-- The metadata with the fields that the scan alone fills. -/
structure ScannedMetadata extends RepositoryMetadata where
  rootPath : String
  totalFiles : Nat
  totalLines : Nat

structure Totals where
  totalFiles : Nat := 0
  totalLines : Nat := 0
  buildSystems : List String := []

def noteBuildSystem (t : Totals) (filename : String) : Totals :=
  match buildSystemFiles.lookup filename with
  | some system => if system ∈ t.buildSystems then t else { t with buildSystems := t.buildSystems ++ [system] }
  | none => t

section
variable (lower : String → String)

def isPython (filename : String) : Bool :=
  lower (.ofList (PurePath.suffix filename.toList)) ∈ pythonExtensions

section
variable (disk : Disk) (root : PurePath)

def countFile (dirpath : List String) (t : Totals) (filename : String) : Totals :=
  if isPython lower filename then
    { t with
      totalFiles := t.totalFiles + 1
      totalLines := t.totalLines + disk.lines (located root dirpath filename) }
  else t

def scanDirectory (t : Totals) (row : List String × List String) : Totals :=
  row.2.foldl noteBuildSystem (row.2.foldl (countFile lower disk root row.1) t)

/-- `root` is the resolved path, and `dir` the directory there. -/
def collectRepositoryMetadata (dir : Option Directory) : Except PyException ScannedMetadata :=
  match dir with
  | none => .error ⟨"ValueError", "Not a directory: " ++ root.str⟩
  | some tree =>
    let t := (walk scanEnters [] tree).foldl (scanDirectory lower disk root) {}
    .ok {
      name := .ofList (root.parts.getLast?.getD [])
      languages := ["python"]
      frameworks := []
      buildSystems := t.buildSystems
      rootPath := root.str
      totalFiles := t.totalFiles
      totalLines := t.totalLines }

end

-- ---------------------------------------------------------------------------
-- Parsing
-- ---------------------------------------------------------------------------

structure FileError where
  file : String
  error : String
  deriving DecidableEq

structure Parsed where
  entities : List ParsedEntity := []
  errors : List FileError := []

section
variable (parseFile : PurePath → Except PyException (List ParsedEntity)) (root : PurePath)

def parseOne (dirpath : List String) (parsed : Parsed) (filename : String) : Parsed :=
  if isPython lower filename then
    match parseFile (located root dirpath filename) with
    | .ok entities => { parsed with entities := parsed.entities ++ entities }
    | .error exc =>
      { parsed with errors := parsed.errors ++ [⟨(located root dirpath filename).str, exc.text⟩] }
  else parsed

def parseDirectory (parsed : Parsed) (row : List String × List String) : Parsed :=
  row.2.foldl (parseOne lower parseFile root row.1) parsed

def parseRepository (repoPath : String) (dir : Option Directory) : Parsed :=
  match dir with
  | none => { errors := [⟨repoPath, "not a directory"⟩] }
  | some tree => (walk parserEnters [] tree).foldl (parseDirectory lower parseFile root) {}

end

end

-- ---------------------------------------------------------------------------
-- The files that a walk comes by
-- ---------------------------------------------------------------------------

section
variable (lower : String → String)

/-- The Python files in the directories that are entered. -/
def pythonFiles (enters : String → Bool) (tree : Directory) : List FilePath :=
  (filesOf (walk enters [] tree)).filter fun f => isPython lower f.2

def counted (tree : Directory) : List FilePath := pythonFiles lower scanEnters tree

def tried (tree : Directory) : List FilePath := pythonFiles lower parserEnters tree

section
variable (parseFile : PurePath → Except PyException (List ParsedEntity)) (root : PurePath)

def entitiesOf (f : FilePath) : List ParsedEntity :=
  match parseFile (located root f.1 f.2) with
  | .ok entities => entities
  | .error _ => []

def errorsOf (f : FilePath) : List FileError :=
  match parseFile (located root f.1 f.2) with
  | .ok _ => []
  | .error exc => [⟨(located root f.1 f.2).str, exc.text⟩]

/-- Each file that is tried contributes its entities or one error. -/
structure Contributes (tree : Directory) (parsed : Parsed) : Prop where
  entities : parsed.entities = (tried lower tree).flatMap (entitiesOf parseFile root)
  errors : parsed.errors = (tried lower tree).flatMap (errorsOf parseFile root)

end

/-- The total counts the files of the scan, and these are the ones that are tried. -/
structure SameFiles (disk : Disk) (parseFile : PurePath → Except PyException (List ParsedEntity))
    (root : PurePath) (repoPath : String) (tree : Directory) : Prop where
  total : ∃ metadata, collectRepositoryMetadata lower disk root (some tree) = .ok metadata ∧
    metadata.totalFiles = (counted lower tree).length
  contributes : Contributes lower parseFile (.ofText repoPath.toList) tree
    (parseRepository lower parseFile (.ofText repoPath.toList) repoPath (some tree))
  same : ∀ f, f ∈ counted lower tree ↔ f ∈ tried lower tree

/-- The scan skips a directory that the parser enters. -/
def scanAloneSkips (d : String) : Prop := d ∈ [".hg", ".svn", "coverage", ".tox", ".eggs"] ∨ isEggInfo d

/-- A Python file below a directory that the scan alone skips is below one that both skip. -/
def NoneMissed (tree : Directory) : Prop :=
  ∀ f ∈ tree.files, isPython lower f.2 → (∃ d ∈ f.1, scanAloneSkips d) →
    ∃ d ∈ f.1, d ∈ pythonDirectoriesToSkip

end

section
variable {lower : String → String} {tree : Directory}

theorem mem_pythonFiles {enters : String → Bool} {f : FilePath} : f ∈ pythonFiles lower enters tree ↔
    f ∈ tree.files ∧ isPython lower f.2 ∧ ∀ d ∈ f.1, enters d := by
  simp only [pythonFiles, Py.filesOf_walk, List.mem_filter, List.all_eq_true]
  tauto

theorem same_iff : (∀ f, f ∈ counted lower tree ↔ f ∈ tried lower tree) ↔ NoneMissed lower tree := by
  have hscan : ∀ d, scanEnters d ↔ parserEnters d ∧ ¬ scanAloneSkips d := by
    intro d
    simp only [scanEnters, parserEnters, scanAloneSkips, directoriesToSkip, pythonDirectoriesToSkip,
      Bool.and_eq_true, Bool.not_eq_true', decide_eq_true_eq, List.mem_cons, List.not_mem_nil]
    cases isEggInfo d <;> simp
    tauto
  have hparser : ∀ d, ¬ parserEnters d ↔ d ∈ pythonDirectoriesToSkip := by simp [parserEnters]
  simp only [counted, tried, mem_pythonFiles]
  constructor
  · intro h f hf hpython hskipped
    by_contra hnone
    have henters : ∀ d ∈ f.1, parserEnters d := fun d hd =>
      by_contra fun hno => hnone ⟨d, hd, (hparser d).mp hno⟩
    obtain ⟨-, -, hcounted⟩ := (h f).mpr ⟨hf, hpython, henters⟩
    obtain ⟨d, hd, hskips⟩ := hskipped
    exact ((hscan d).mp (hcounted d hd)).2 hskips
  · intro h f
    refine and_congr_right fun hf => and_congr_right fun hpython => ⟨fun hall d hd => ?_, fun hall d hd => ?_⟩
    · exact ((hscan d).mp (hall d hd)).1
    · refine (hscan d).mpr ⟨hall d hd, fun hskips => ?_⟩
      obtain ⟨d', hd', hskipped⟩ := h f hf hpython ⟨d, hd, hskips⟩
      exact (hparser d').mpr hskipped (hall d' hd')

-- ---------------------------------------------------------------------------
-- What the loops come to
-- ---------------------------------------------------------------------------

theorem filter_filesOf_cons (dirpath filenames : List String) (rows : List (List String × List String)) :
    (filesOf ((dirpath, filenames) :: rows)).filter (fun f => isPython lower f.2) =
      ((filenames.filter (isPython lower)).map ((dirpath, ·))) ++
        (filesOf rows).filter (fun f => isPython lower f.2) := by
  simp [filesOf, List.filter_map, Function.comp_def]

section
variable {disk : Disk} {root : PurePath} {rows : List (List String × List String)}

theorem totalFiles_noteAll (filenames : List String) (t : Totals) :
    (filenames.foldl noteBuildSystem t).totalFiles = t.totalFiles := by
  induction filenames generalizing t with
  | nil => rfl
  | cons filename filenames ih =>
    rw [List.foldl_cons, ih, noteBuildSystem]
    split
    · split <;> rfl
    · rfl

theorem totalFiles_countAll (dirpath filenames : List String) (t : Totals) :
    (filenames.foldl (countFile lower disk root dirpath) t).totalFiles =
      t.totalFiles + (filenames.filter (isPython lower)).length := by
  induction filenames generalizing t with
  | nil => rfl
  | cons filename filenames ih =>
    rw [List.foldl_cons, ih, countFile, List.filter_cons]
    split
    · rw [List.length_cons, ← Nat.add_assoc, Nat.add_right_comm]
    · rfl

theorem totalFiles_scanAll (t : Totals) : (rows.foldl (scanDirectory lower disk root) t).totalFiles =
    t.totalFiles + ((filesOf rows).filter fun f => isPython lower f.2).length := by
  induction rows generalizing t with
  | nil => rfl
  | cons row rows ih =>
    obtain ⟨dirpath, filenames⟩ := row
    rw [List.foldl_cons, ih, scanDirectory, totalFiles_noteAll, totalFiles_countAll, filter_filesOf_cons,
      List.length_append, List.length_map, Nat.add_assoc]

end

section
variable {parseFile : PurePath → Except PyException (List ParsedEntity)} {root : PurePath}
  {rows : List (List String × List String)} {fs fs' : List FilePath} {parsed parsed' parsed'' : Parsed}

/-- From `parsed` to `parsed'` these files were tried. -/
structure Parses (parseFile : PurePath → Except PyException (List ParsedEntity)) (root : PurePath)
    (fs : List FilePath) (parsed parsed' : Parsed) : Prop where
  entities : parsed'.entities = parsed.entities ++ fs.flatMap (entitiesOf parseFile root)
  errors : parsed'.errors = parsed.errors ++ fs.flatMap (errorsOf parseFile root)

theorem Parses.refl (parsed : Parsed) : Parses parseFile root [] parsed parsed := ⟨by simp, by simp⟩

theorem Parses.trans (h : Parses parseFile root fs parsed parsed')
    (h' : Parses parseFile root fs' parsed' parsed'') :
    Parses parseFile root (fs ++ fs') parsed parsed'' where
  entities := by rw [h'.entities, h.entities, List.flatMap_append, List.append_assoc]
  errors := by rw [h'.errors, h.errors, List.flatMap_append, List.append_assoc]

theorem parses_parseOne (dirpath : List String) (filename : String) (parsed : Parsed) :
    Parses parseFile root (([filename].filter (isPython lower)).map ((dirpath, ·))) parsed
      (parseOne lower parseFile root dirpath parsed filename) := by
  unfold parseOne
  split
  · rename_i hpython
    cases hparse : parseFile (located root dirpath filename) with
    | ok entities => constructor <;> simp [hpython, hparse, entitiesOf, errorsOf]
    | error exc => constructor <;> simp [hpython, hparse, entitiesOf, errorsOf]
  · rename_i hpython
    simpa [hpython] using Parses.refl parsed

theorem parses_parseDirectory (dirpath filenames : List String) (parsed : Parsed) :
    Parses parseFile root ((filenames.filter (isPython lower)).map ((dirpath, ·))) parsed
      (parseDirectory lower parseFile root parsed (dirpath, filenames)) := by
  unfold parseDirectory
  induction filenames generalizing parsed with
  | nil => exact Parses.refl parsed
  | cons filename filenames ih =>
    rw [← List.singleton_append, List.filter_append, List.map_append]
    exact (parses_parseOne dirpath filename parsed).trans (ih _)

theorem parses_parseAll (parsed : Parsed) :
    Parses parseFile root ((filesOf rows).filter fun f => isPython lower f.2) parsed
      (rows.foldl (parseDirectory lower parseFile root) parsed) := by
  induction rows generalizing parsed with
  | nil => exact Parses.refl parsed
  | cons row rows ih =>
    rw [filter_filesOf_cons]
    exact (parses_parseDirectory row.1 row.2 parsed).trans (ih _)

end

/-- Scanning and parsing see the same files exactly when no Python file lies
below a directory that the scan alone skips, unless it lies below one of the
directories that both skip. -/
theorem same_files_iff (lower : String → String) (disk : Disk)
    (parseFile : PurePath → Except PyException (List ParsedEntity)) (root : PurePath) (repoPath : String)
    (tree : Directory) : SameFiles lower disk parseFile root repoPath tree ↔ NoneMissed lower tree := by
  refine ⟨fun h => same_iff.mp h.same, fun h => ⟨?_, ?_, same_iff.mpr h⟩⟩
  · exact ⟨_, rfl, (totalFiles_scanAll {}).trans (Nat.zero_add _)⟩
  · obtain ⟨hentities, herrors⟩ : Parses parseFile (.ofText repoPath.toList) (tried lower tree) {}
      (parseRepository lower parseFile (.ofText repoPath.toList) repoPath (some tree)) := parses_parseAll {}
    exact ⟨hentities, herrors⟩

/-- One module below `.tox`. -/
def toxTree : Directory := .mk [] [(".tox", .mk ["a.py"] [])]

theorem tox_not_counted : ¬ SameFiles String.toLower ⟨fun _ => some 0, fun _ => some 0⟩ (fun _ => .ok [])
    (.ofText "/repo".toList) "/repo" toxTree := by
  intro h
  have htried : ([".tox"], "a.py") ∈ tried String.toLower toxTree := by decide +kernel
  have hcounted : ([".tox"], "a.py") ∉ counted String.toLower toxTree := by decide +kernel
  exact hcounted ((h.same _).mpr htried)

end

end Intelliqx.Graph.Repository
