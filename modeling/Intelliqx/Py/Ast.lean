import Intelliqx.Py.Parameters

/-!
# Syntax trees

The trees of Python, with the nodes that a reader of calls tells apart; any
other node is known by its children, in the order of its fields. `called` are
the names that a tree calls: the callee is a name or an attribute.
-/

namespace Intelliqx.Py

abbrev Identifier := { name : String // name ≠ "" }

inductive ExprKind
  | yield
  | yieldFrom
  | lambda
  | generatorExp
  | listComp
  | setComp
  | dictComp
  | other
  deriving DecidableEq, Repr

/-- Clauses of a comprehension, slices and the parameters of a lambda count as
expressions; of a keyword there is its value. -/
inductive Expr
  | name (id : Identifier)
  | attribute (value : Expr) (attr : Identifier)
  | call (func : Expr) (args keywords : List Expr)
  | other (kind : ExprKind) (children : List Expr)

/-- A definition of a function, but its body. `docstring` is what
`get_docstring` takes from there. -/
structure FunctionHeader where
  name : String
  args : Arguments Expr := {}
  decoratorList : List Expr := []
  returns : Option Expr := none
  typeParams : List Expr := []
  isAsync : Bool := false
  lineno : Int
  endLineno : Option Int := none
  docstring : Option String := none

structure ClassHeader where
  name : String
  bases : List Expr := []
  keywords : List (Option String × Expr) := []
  decoratorList : List Expr := []
  typeParams : List Expr := []
  lineno : Int
  endLineno : Option Int := none
  docstring : Option String := none

structure Alias where
  name : String
  asname : Option String := none

/-- `expr` is an expression among the children of a statement; handlers and
cases count as statements. -/
inductive Stmt
  | functionDef (header : FunctionHeader) (body : List Stmt)
  | classDef (header : ClassHeader) (body : List Stmt)
  | import (names : List Alias) (lineno : Int) (endLineno : Option Int)
  | importFrom (source : Option String) (names : List Alias) (level : Nat) (lineno : Int) (endLineno : Option Int)
  | expr (e : Expr)
  | other (children : List Stmt)

/-- The expressions among the parameters: annotations and defaults. -/
def Arguments.exprs (A : Arguments ε) : List ε :=
  (A.posonlyargs ++ A.args ++ A.vararg.toList ++ A.kwonlyargs ++ A.kwarg.toList).filterMap Arg.annotation ++
    A.defaults ++ A.kwDefaults.filterMap id

def FunctionHeader.exprs (h : FunctionHeader) : List Expr :=
  h.decoratorList ++ h.args.exprs ++ h.returns.toList ++ h.typeParams

def ClassHeader.exprs (h : ClassHeader) : List Expr :=
  h.decoratorList ++ h.bases ++ h.keywords.map Prod.snd ++ h.typeParams

-- ---------------------------------------------------------------------------
-- Called names
-- ---------------------------------------------------------------------------

/-- The name a callee is called by. -/
def Expr.calleeName : Expr → List String
  | .name id => [id]
  | .attribute _ attr => [attr.val]
  | _ => []

mutual
def Expr.called : Expr → List String
  | .name _ => []
  | .attribute value _ => value.called
  | .call func args keywords => func.calleeName ++ func.called ++ Expr.calledAll args ++ Expr.calledAll keywords
  | .other _ children => Expr.calledAll children
def Expr.calledAll : List Expr → List String
  | [] => []
  | e :: es => e.called ++ Expr.calledAll es
end

mutual
/-- The calls of a statement, but those in the bodies of functions it defines. -/
def Stmt.called : Stmt → List String
  | .functionDef header _ => Expr.calledAll header.exprs
  | .classDef header body => Expr.calledAll header.exprs ++ Stmt.calledAll body
  | .import .. => []
  | .importFrom .. => []
  | .expr e => e.called
  | .other children => Stmt.calledAll children
def Stmt.calledAll : List Stmt → List String
  | [] => []
  | s :: ss => s.called ++ Stmt.calledAll ss
end

mutual
/-- The definitions of functions, in the order in which they begin. -/
def Stmt.functionDefs : Stmt → List (FunctionHeader × List Stmt)
  | .functionDef header body => (header, body) :: Stmt.functionDefsAll body
  | .classDef _ body => Stmt.functionDefsAll body
  | .import .. => []
  | .importFrom .. => []
  | .expr _ => []
  | .other children => Stmt.functionDefsAll children
def Stmt.functionDefsAll : List Stmt → List (FunctionHeader × List Stmt)
  | [] => []
  | s :: ss => s.functionDefs ++ Stmt.functionDefsAll ss
end

end Intelliqx.Py
