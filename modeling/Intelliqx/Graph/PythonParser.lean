import Intelliqx.Graph.Signature
import Intelliqx.Py.Ast

/-!
# The Python parser

`_PythonFileVisitor` walks a tree and emits an entity for each import, class
and function, with the calls and references that the walk comes to.
-/

namespace Intelliqx.Graph.PythonParser

open Py (Alias Arg Arguments ClassHeader Expr ExprSyntax FunctionHeader Stmt)

inductive FrameKind
  | «class»
  | function
  deriving DecidableEq, Repr

structure ScopeFrame where
  kind : FrameKind
  name : String
  calls : List String := []
  references : List String := []
  deriving DecidableEq, Repr

/-- `_PythonFileVisitor`, the innermost frame first. -/
structure FileVisitor where
  entities : List ParsedEntity := []
  scopeStack : List ScopeFrame := []

-- ---------------------------------------------------------------------------
-- Calls and references
-- ---------------------------------------------------------------------------

def addNew (names : List String) (name : String) : List String := if name ∈ names then names else names ++ [name]

/-- Note the call in `current_callable`, the nearest function. -/
def noteCall (name : String) : List ScopeFrame → List ScopeFrame
  | [] => []
  | frame :: rest =>
    match frame.kind with
    | .function => { frame with calls := addNew frame.calls name } :: rest
    | .class => frame :: noteCall name rest

def recordCallTarget (name : String) (v : FileVisitor) : FileVisitor :=
  if name = "" then v else { v with scopeStack := noteCall name v.scopeStack }

/-- `_add_reference`. Every frame is one of `enclosing_frame`. -/
def addReference (name : String) (v : FileVisitor) : FileVisitor :=
  if name = "" then v
  else
    match v.scopeStack with
    | [] => v
    | frame :: rest => { v with scopeStack := { frame with references := addNew frame.references name } :: rest }

def recordText : Option String → FileVisitor → FileVisitor
  | some text, v => recordCallTarget text v
  | none, v => v

section
variable (unparse : Expr → Option String)

mutual
def visitExpr : Expr → FileVisitor → FileVisitor
  | .name id, v => addReference id v
  | .attribute value attr, v => addReference attr (visitExpr value v)
  | .call func args keywords, v => visitExprs keywords (visitExprs args (recordCall func v))
  | .other _ children, v => visitExprs children v
def recordCall : Expr → FileVisitor → FileVisitor
  | .name id, v => addReference id (recordCallTarget id v)
  | .attribute value attr, v => visitExpr value (addReference attr (recordCallTarget attr v))
  | func, v => recordText (unparse func) v
def visitExprs : List Expr → FileVisitor → FileVisitor
  | [], v => v
  | e :: es, v => visitExprs es (visitExpr e v)
end

end

-- ---------------------------------------------------------------------------
-- Definitions
-- ---------------------------------------------------------------------------

mutual
/-- `_YieldSearcher`: it enters no function, class, lambda or generator expression. -/
def exprYields : Expr → Bool
  | .name _ => false
  | .attribute value _ => exprYields value
  | .call func args keywords => exprYields func || anyExprYields args || anyExprYields keywords
  | .other .yield _ => true
  | .other .yieldFrom _ => true
  | .other .lambda _ => false
  | .other .generatorExp _ => false
  | .other _ children => anyExprYields children
def anyExprYields : List Expr → Bool
  | [] => false
  | e :: es => exprYields e || anyExprYields es
end

mutual
def stmtYields : Stmt → Bool
  | .functionDef .. => false
  | .classDef .. => false
  | .import .. => false
  | .importFrom .. => false
  | .expr e => exprYields e
  | .other children => containsDirectYield children
def containsDirectYield : List Stmt → Bool
  | [] => false
  | s :: ss => stmtYields s || containsDirectYield ss
end

section
variable (unparse : Expr → Option String)

def decoratorLabel : Expr → Option String
  | .name id => some id
  | .attribute value attr =>
    match decoratorLabel value with
    | none => some attr
    | some head => some (head ++ "." ++ attr)
  | dec => unparse dec

def extractBases (header : ClassHeader) : List String :=
  header.bases.filterMap unparse ++ header.keywords.filterMap fun (arg, value) =>
    (unparse value).map fun text => ((Py.truthy arg).map (· ++ "=")).getD "" ++ text

end

/-- What a walk does not change. -/
structure Source where
  fileStr : String
  unparse : Expr → Option String

section
variable (src : Source)

def parentName (v : FileVisitor) : Option String := v.scopeStack.head?.map ScopeFrame.name

def parentKind (v : FileVisitor) : Option FrameKind := v.scopeStack.head?.map ScopeFrame.kind

def classEntity (header : ClassHeader) (v : FileVisitor) : ParsedEntity where
  name := header.name
  entityType := "class"
  filePath := src.fileStr
  lineStart := header.lineno
  lineEnd := header.endLineno.getD header.lineno
  language := "python"
  parent := parentName v
  bases := extractBases src.unparse header
  decorators := header.decoratorList.filterMap (decoratorLabel src.unparse)
  docstring := header.docstring

def functionEntity (header : FunctionHeader) (body : List Stmt) (v : FileVisitor) : ParsedEntity where
  name := header.name
  entityType := if parentKind v = some .class then "method" else "function"
  filePath := src.fileStr
  lineStart := header.lineno
  lineEnd := header.endLineno.getD header.lineno
  language := "python"
  parent := parentName v
  parameters := renderParametersWithDefaults src.unparse header.args
  returnType := header.returns.bind src.unparse
  isAsync := header.isAsync
  isGenerator := containsDirectYield body
  decorators := header.decoratorList.filterMap (decoratorLabel src.unparse)
  docstring := header.docstring

def importEntity (a : Alias) (source : String) (isFrom : Bool) (level : Nat) (lineno : Int)
    (endLineno : Option Int) : ParsedEntity where
  name := (Py.truthy a.asname).getD a.name
  entityType := "import"
  filePath := src.fileStr
  lineStart := lineno
  lineEnd := endLineno.getD lineno
  language := "python"
  importSource := some source
  importNames := [a.name]
  isFromImport := isFrom
  importAliases := (Py.truthy a.asname).toList
  importLevel := level

/-- `s.split(".")[0]` -/
def firstPart (s : String) : String := .ofList (s.toList.takeWhile (· ≠ '.'))

def emit (entity : ParsedEntity) (v : FileVisitor) : FileVisitor := { v with entities := v.entities ++ [entity] }

def visitAlias (lineno : Int) (endLineno : Option Int) (v : FileVisitor) (a : Alias) : FileVisitor :=
  addReference (firstPart a.name) (emit (importEntity src a a.name false 0 lineno endLineno) v)

def visitImportFrom (source : Option String) (names : List Alias) (level : Nat) (lineno : Int)
    (endLineno : Option Int) (v : FileVisitor) : FileVisitor :=
  let fromName := source.getD ""
  let v := names.foldl (fun v a => emit (importEntity src a fromName true level lineno endLineno) v) v
  if fromName = "" then v else addReference (firstPart fromName) v

/-- Emit the entity and enter the scope. -/
def enter (entity : ParsedEntity) (kind : FrameKind) (v : FileVisitor) : FileVisitor where
  entities := (emit entity v).entities
  scopeStack := { kind, name := entity.name } :: v.scopeStack

def populateEntity (frame : ScopeFrame) (entity : ParsedEntity) : ParsedEntity :=
  { entity with calls := frame.calls, references := frame.references }

/-- Leave the scope and fill in its entity, the one at `i`. -/
def leave (entity : ParsedEntity) (i : Nat) (v : FileVisitor) : FileVisitor :=
  match v.scopeStack with
  | [] => v
  | frame :: rest =>
    { entities := v.entities.set i (populateEntity frame entity), scopeStack := rest }

mutual
def visitStmt : Stmt → FileVisitor → FileVisitor
  | .functionDef header body, v =>
    let entity := functionEntity src header body v
    leave entity v.entities.length (visitStmts body (enter entity .function v))
  | .classDef header body, v =>
    let entity := classEntity src header v
    leave entity v.entities.length (visitStmts body (enter entity .class v))
  | .import names lineno endLineno, v => names.foldl (visitAlias src lineno endLineno) v
  | .importFrom source names level lineno endLineno, v => visitImportFrom src source names level lineno endLineno v
  | .expr e, v => visitExpr src.unparse e v
  | .other children, v => visitStmts children v
def visitStmts : List Stmt → FileVisitor → FileVisitor
  | [], v => v
  | s :: ss, v => visitStmts ss (visitStmt s v)
end

/-- `parse_file`, of the tree that the file denotes. -/
def parseFile (tree : List Stmt) : List ParsedEntity := (visitStmts src tree {}).entities

end

end Intelliqx.Graph.PythonParser
