import Intelliqx.Base.FirstBy
import Intelliqx.Graph.GenerateHelper
import Intelliqx.Py.Text

/-!
# The Python backend

`PythonBackend.generate`. A generated file is kept as its sections until it
is written as text, so that a proof can ask which node a section defines.
`lower` stands for `str.lower`.
-/

namespace Intelliqx.Graph.PythonBackend

-- ---------------------------------------------------------------------------
-- Definitions as text
-- ---------------------------------------------------------------------------

def safeName (name : String) : String :=
  Py.replaceChar ' ' '_' (Py.replaceChar '.' '_' (Py.replaceChar '-' '_' name))

/-- One input: the text before its first colon is the name, the text up to its second one the
annotation. -/
def paramText (input : String) : String :=
  match input.toList.splitOn ':' with
  | [] => ""
  | [name] => safeName (Py.strip (.ofList name))
  | name :: annotation :: _ => safeName (Py.strip (.ofList name)) ++ ": " ++ Py.strip (.ofList annotation)

def inputsToParams (node : SGIRNode) : String :=
  let self := if node.nodeType = .method then ["self"] else []
  ", ".intercalate (self ++ node.inputs.map paramText)

def outputsToReturnType (node : SGIRNode) : String :=
  match node.outputs with
  | [] => ""
  | [output] => " -> " ++ Py.strip output
  | outputs => " -> tuple[" ++ ", ".intercalate (outputs.map Py.strip) ++ "]"

def docstring (purpose : String) : String := "\"\"\"" ++ purpose ++ "\"\"\""

def generateBody (node : SGIRNode) : String :=
  Py.indent (if node.purpose ≠ "" then docstring node.purpose else "pass") "    "

def signature (node : SGIRNode) : String :=
  "def " ++ safeName node.name ++ "(" ++ inputsToParams node ++ ")" ++ outputsToReturnType node ++ ":"

def generateFunction (func : SGIRNode) : String := signature func ++ "\n" ++ generateBody func

def generateMethod (method : SGIRNode) : String :=
  Py.indent (signature method ++ "\n" ++ generateBody method) "    "

def classDocstring (node : SGIRNode) : List String :=
  if node.purpose ≠ "" then [Py.indent (docstring node.purpose) "    "] else []

/-- Both branches on the fields write `pass`. -/
def generateDatamodel (dm : SGIRNode) : String :=
  "\n".intercalate (["class " ++ safeName dm.name ++ ":"] ++ classDocstring dm ++ ["    pass"])

def classText (cls : SGIRNode) (bases : List String) (classMethods : List SGIRNode) : String :=
  let baseText := if bases = [] then "" else "(" ++ ", ".intercalate bases ++ ")"
  let body := if classMethods = [] then ["    pass"] else classMethods.flatMap fun m => ["", generateMethod m]
  "\n".intercalate (["class " ++ safeName cls.name ++ baseText ++ ":"] ++ classDocstring cls ++ body)

-- ---------------------------------------------------------------------------
-- Sections
-- ---------------------------------------------------------------------------

inductive Section
  | docstring (purpose : String)
  | imports (lines : List String)
  | datamodel (dm : SGIRNode)
  | classDef (cls : SGIRNode) (bases : List String) (classMethods : List SGIRNode)
  | function (func : SGIRNode)
  | pass
  deriving DecidableEq

def Section.text : Section → String
  | .docstring purpose => PythonBackend.docstring purpose
  | .imports lines => "\n".intercalate lines
  | .datamodel dm => generateDatamodel dm
  | .classDef cls bases classMethods => classText cls bases classMethods
  | .function func => generateFunction func
  | .pass => "pass"

inductive DefinitionKind
  | classKeyword
  | defKeyword
  deriving DecidableEq, Repr

/-- The node a section defines, and the keyword it defines it with. -/
def Section.definition : Section → Option (SGIRNode × DefinitionKind)
  | .datamodel dm => some (dm, .classKeyword)
  | .classDef cls _ _ => some (cls, .classKeyword)
  | .function func => some (func, .defKeyword)
  | _ => none

abbrev GeneratedFile := List Section

def GeneratedFile.text (file : GeneratedFile) : String := "\n\n".intercalate (file.map Section.text)

def GeneratedFile.definitions (file : GeneratedFile) : List (SGIRNode × DefinitionKind) :=
  file.filterMap Section.definition

-- ---------------------------------------------------------------------------
-- Files
-- ---------------------------------------------------------------------------

def getInheritance (cls : SGIRNode) (helper : GenerateHelper) : List String :=
  ((helper.parentsOf cls).filter fun p => p.nodeType = .class).map fun p => safeName p.name

def generateClass (cls : SGIRNode) (allMethods : List SGIRNode) (graph : SoftwareGraph) : Section :=
  let helper := GenerateHelper.build graph
  .classDef cls (getInheritance cls helper) (helper.childrenOf cls allMethods)

def collectImports (graph : SoftwareGraph) : List String :=
  let helper := GenerateHelper.build graph
  let sources := helper.importEdges.filterMap fun e => helper.findNode e.source
  (firstBy SGIRNode.name sources).map fun n => "import " ++ n.name

def collectImportsForNode (node : SGIRNode) : List String :=
  node.externalDependencies.map fun dep => "import " ++ dep

def definitionSections (graph : SoftwareGraph) (classes functions methods datamodels : List SGIRNode) :
    List Section :=
  datamodels.map .datamodel ++ classes.map (generateClass · methods graph) ++
    (functions.filter fun f => f.nodeType ≠ .method).map .function

def importSection (lines : List String) : List Section := if lines = [] then [] else [.imports lines]

def generateSingleFile (graph : SoftwareGraph) (classes functions methods datamodels : List SGIRNode) :
    GeneratedFile :=
  importSection (collectImports graph) ++ definitionSections graph classes functions methods datamodels

def purposeSection (node : SGIRNode) : List Section :=
  if node.purpose = "" then [] else [.docstring node.purpose]

def generateModuleFile (graph : SoftwareGraph) (module : SGIRNode)
    (classes functions methods datamodels : List SGIRNode) : GeneratedFile :=
  let sections := purposeSection module ++ importSection (collectImportsForNode module) ++
    definitionSections graph classes functions methods datamodels
  if sections = [] then [.pass] else sections

def generatePackageInit (package : SGIRNode) : GeneratedFile := purposeSection package

section
variable (lower : String → String)

def pathOfName (name : String) : String :=
  lower (Py.replaceChar '-' '_' (Py.replaceChar '.' '/' name))

def nodeToFilePath (node : SGIRNode) : String :=
  match node.sourceLocation with
  | some location => location.filePath
  | none => pathOfName lower node.name ++ ".py"

def nodeToDirPath (node : SGIRNode) : String :=
  match node.sourceLocation with
  | some location => .ofList (location.filePath.toList.rdropWhile (· = '/'))
  | none => pathOfName lower node.name

def initPath (package : SGIRNode) : String := nodeToDirPath lower package ++ "/__init__.py"

/-- The file of the repository itself: everything, or what no module takes. -/
def repositoryFile (graph : SoftwareGraph) : String :=
  lower (Py.replaceChar ' ' '_' graph.repositoryName) ++ ".py"

def moduleFile (graph : SoftwareGraph) (module : SGIRNode) : GeneratedFile :=
  let helper := GenerateHelper.build graph
  generateModuleFile graph module (helper.childrenOf module (helper.ofType .class))
    (helper.childrenOf module (helper.ofType .function)) (helper.childrenOf module (helper.ofType .method))
    (helper.childrenOf module (helper.ofType .datamodel))

def orphans (graph : SoftwareGraph) : List SGIRNode :=
  let helper := GenerateHelper.build graph
  (helper.ofType .class ++ helper.ofType .function ++ helper.ofType .datamodel).filter fun n =>
    ¬ helper.isUnderModules n (helper.ofType .module)

def generateFiles (graph : SoftwareGraph) : Dict String GeneratedFile :=
  let helper := GenerateHelper.build graph
  let modules := helper.ofType .module
  let packages := helper.ofType .package
  if modules = [] ∧ packages = [] then
    Dict.empty.insert (repositoryFile lower graph)
      (generateSingleFile graph (helper.ofType .class) (helper.ofType .function) (helper.ofType .method)
        (helper.ofType .datamodel))
  else
    let files := Dict.index (nodeToFilePath lower) (moduleFile graph) modules
    -- a package whose path is taken gets no file
    let files := Dict.insertNew (initPath lower) generatePackageInit packages files
    if orphans graph = [] ∨ files.contains (repositoryFile lower graph) then files
    else files.insert (repositoryFile lower graph) (generateSingleFile graph (orphans graph) [] [] [])

def generate (graph : SoftwareGraph) : List (String × String) :=
  (generateFiles lower graph).entries.map fun (path, file) => (path, file.text)

end

end Intelliqx.Graph.PythonBackend
