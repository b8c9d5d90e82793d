import Intelliqx.Graph.PythonBackend
import Intelliqx.Py.LongString

/-!
# Docstrings of generated code

Each emitter puts the purpose of a node between three quotes as it is.
`docstrings_literal_iff` says which purposes stay inside of them, and
`exists_docstring_of_emits` where the docstrings stand.
-/

namespace Intelliqx.Graph.PythonBackend

open Py (Contained IsDocstring indent splitLines)

/-- The docstrings written for a node: by `generate_module_file` and
`generate_package_init`, by `generate_class` and `generate_datamodel`, by
`generate_body`, and what `generate_method` makes of the last one. -/
def emittedDocstrings (node : SGIRNode) : List String :=
  if node.purpose = "" then []
  else [docstring node.purpose, indent (docstring node.purpose) "    ", generateBody node,
    indent (generateBody node) "    "]

-- ---------------------------------------------------------------------------
-- Where they stand
-- ---------------------------------------------------------------------------

theorem intercalate_starts (separator text : String) (texts : List String) :
    ∃ rest, separator.intercalate (text :: texts) = text ++ rest := by
  cases texts with
  | nil => exact ⟨"", by simp⟩
  | cons next texts =>
    exact ⟨separator ++ separator.intercalate (next :: texts), by simp [String.append_assoc]⟩

theorem lines_docstring (header doc : String) (lines : List String) :
    ∃ rest, "\n".intercalate ([header] ++ [doc] ++ lines) = header ++ "\n" ++ doc ++ rest := by
  obtain ⟨rest, hrest⟩ := intercalate_starts "\n" doc lines
  refine ⟨rest, ?_⟩
  rw [List.singleton_append, List.cons_append, List.singleton_append, String.intercalate_cons_cons, hrest,
    String.append_assoc, String.append_assoc, String.append_assoc]

section
variable {node : SGIRNode} (h : node.purpose ≠ "")
include h

theorem purposeSection_of_ne : purposeSection node = [.docstring node.purpose] := if_neg h

theorem classDocstring_of_ne : classDocstring node = [indent (docstring node.purpose) "    "] := if_pos h

theorem generateBody_of_ne : generateBody node = indent (docstring node.purpose) "    " := by
  rw [generateBody, if_pos h]

theorem generateModuleFile_docstring (graph : SoftwareGraph)
    (classes functions methods datamodels : List SGIRNode) :
    ∃ rest, (generateModuleFile graph node classes functions methods datamodels).text =
      docstring node.purpose ++ rest := by
  obtain ⟨sections, hsections⟩ : ∃ sections,
      generateModuleFile graph node classes functions methods datamodels =
        .docstring node.purpose :: sections := by
    simp [generateModuleFile, purposeSection_of_ne h]
  rw [hsections, GeneratedFile.text, List.map_cons]
  exact intercalate_starts _ _ _

theorem generatePackageInit_docstring : (generatePackageInit node).text = docstring node.purpose := by
  simp [generatePackageInit, purposeSection_of_ne h, GeneratedFile.text, Section.text]

theorem classText_docstring (bases : List String) (classMethods : List SGIRNode) :
    ∃ header rest, classText node bases classMethods =
      header ++ "\n" ++ indent (docstring node.purpose) "    " ++ rest := by
  rw [classText, classDocstring_of_ne h]
  exact ⟨_, lines_docstring _ _ _⟩

theorem generateDatamodel_docstring : ∃ header rest, generateDatamodel node =
    header ++ "\n" ++ indent (docstring node.purpose) "    " ++ rest := by
  rw [generateDatamodel, classDocstring_of_ne h]
  exact ⟨_, lines_docstring _ _ _⟩

end

variable {node : SGIRNode}

theorem generateMethod_docstring (method : SGIRNode) : generateMethod method =
    indent (signature method ++ "\n") "    " ++ indent (generateBody method) "    " := by
  have hsplit : splitLines (signature method ++ "\n" ++ generateBody method) =
      splitLines (signature method ++ "\n") ++ splitLines (generateBody method) := by
    simpa [splitLines] using
      Py.splitLines_go_newline (signature method).toList (generateBody method).toList []
  rw [generateMethod, indent, hsplit, List.map_append, String.join_append]
  rfl

/-- What the emitters write for a node. -/
inductive Emits (node : SGIRNode) : String → Prop
  | moduleFile (graph : SoftwareGraph) (classes functions methods datamodels : List SGIRNode) :
    Emits node (generateModuleFile graph node classes functions methods datamodels).text
  | packageInit : Emits node (generatePackageInit node).text
  | classDef (bases : List String) (classMethods : List SGIRNode) : Emits node (classText node bases classMethods)
  | datamodel : Emits node (generateDatamodel node)
  | function : Emits node (generateFunction node)
  | method : Emits node (generateMethod node)

/-- Each emitter writes a docstring of the node, on lines of its own. -/
theorem exists_docstring_of_emits {text : String} (h : node.purpose ≠ "") (hemits : Emits node text) :
    ∃ before, ∃ doc ∈ emittedDocstrings node, ∃ behind, text = before ++ doc ++ behind := by
  rw [emittedDocstrings, if_neg h]
  cases hemits with
  | moduleFile graph classes functions methods datamodels =>
    obtain ⟨rest, hrest⟩ := generateModuleFile_docstring h graph classes functions methods datamodels
    exact ⟨"", _, .head _, rest, by rw [hrest, String.empty_append]⟩
  | packageInit =>
    exact ⟨"", _, .head _, "", by rw [generatePackageInit_docstring h, String.empty_append, String.append_empty]⟩
  | classDef bases classMethods =>
    obtain ⟨header, rest, htext⟩ := classText_docstring h bases classMethods
    exact ⟨header ++ "\n", _, .tail _ (.head _), rest, htext⟩
  | datamodel =>
    obtain ⟨header, rest, htext⟩ := generateDatamodel_docstring h
    exact ⟨header ++ "\n", _, .tail _ (.head _), rest, htext⟩
  | function =>
    exact ⟨signature node ++ "\n", _, .tail _ (.tail _ (.head _)), "", by rw [generateFunction, String.append_empty]⟩
  | method =>
    exact ⟨indent (signature node ++ "\n") "    ", _, .tail _ (.tail _ (.tail _ (.head _))), "",
      by rw [generateMethod_docstring, String.append_empty]⟩

/-- Every docstring of a node is one literal exactly when its purpose has no
NUL and no three quotes in a row, does not end in a quote, unless a backslash
escapes them, and does not end in a backslash of its own. -/
theorem docstrings_literal_iff (node : SGIRNode) :
    (∀ text ∈ emittedDocstrings node, IsDocstring text) ↔ Contained node.purpose.toList := by
  have hmargin : "    ".toList = List.replicate 4 ' ' := by decide
  have hquoted : IsDocstring (docstring node.purpose) ↔ Contained node.purpose.toList :=
    Py.isDocstring_quoted node.purpose
  unfold emittedDocstrings
  split
  · rename_i hempty
    simp [hempty, Py.contained_nil]
  · rename_i h
    simp [generateBody_of_ne h, Py.isDocstring_indent hmargin, hquoted]

/-- `say "hi"` ends in a quote. -/
def sayingFunction : SGIRNode where
  id := "m.py::f"
  name := "f"
  nodeType := .function
  purpose := "say \"hi\""

theorem quote_escapes : ¬ ∀ text ∈ emittedDocstrings sayingFunction, IsDocstring text := by
  intro h
  have hmodule := Py.isDocstring_iff.mp (h (docstring sayingFunction.purpose) (by decide))
  exact absurd hmodule (by decide)

end Intelliqx.Graph.PythonBackend
