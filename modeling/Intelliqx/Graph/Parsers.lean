import Intelliqx.Py.Text

/-!
# Parsed entities

What a language parser hands to the layer builders.
-/

namespace Intelliqx.Graph

structure ParsedEntity where
  name : String
  entityType : String
  filePath : String
  lineStart : Int
  lineEnd : Int
  language : String
  parent : Option String := none
  parameters : List String := []
  returnType : Option String := none
  isAsync : Bool := false
  isGenerator : Bool := false
  importSource : Option String := none
  importNames : List String := []
  isFromImport : Bool := false
  importAliases : List String := []
  importLevel : Nat := 0
  bases : List String := []
  decorators : List String := []
  calls : List String := []
  references : List String := []
  docstring : Option String := none
  complexity : String := "unknown"
  deriving DecidableEq, Repr

namespace ParsedEntity

structure Key where
  filePath : String
  parent : Option String
  name : String
  deriving DecidableEq, Repr

def key (e : ParsedEntity) : Key := ⟨e.filePath, e.parent, e.name⟩

end ParsedEntity

end Intelliqx.Graph
