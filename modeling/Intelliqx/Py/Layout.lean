import Mathlib.Data.List.Basic
import Mathlib.Data.List.Forall2
import Mathlib.Data.List.Pairwise
import Intelliqx.Py.Text

/-!
# The layout of a program

How Python reads the lines of a text: physical lines are joined to logical
lines, by a backslash or because brackets or a string are left open, and the
indentation of the logical lines nests them. What a line holds and what is a
statement is up to a grammar. A module is the list of its headers and simple
statements with their depths; a statement behind a header on the same line
counts as one below it.
-/

namespace Intelliqx.Layout

open Py (isSpace)

/-- With its line feed, which the last one may not have. -/
def physicalLines : List Char → List (List Char)
  | [] => []
  | c :: cs =>
    if c = '\n' then [c] :: physicalLines cs
    else
      match physicalLines cs with
      | [] => [[c]]
      | line :: lines => (c :: line) :: lines

/-- A physical line ends the logical one, or a backslash joins the next line to it, or something is open. -/
inductive Ending (ω : Type)
  | newline
  | joined
  | within (w : ω)
  deriving DecidableEq

def Ending.left : Ending ω → Option ω
  | .newline => none
  | .joined => none
  | .within w => some w

/-- Columns with tabs of eight and of one. -/
abbrev Column := Nat × Nat

structure Scanned (π ω : Type) where
  column : Column
  pieces : List π
  ending : Ending ω
  deriving DecidableEq

/-- A logical line; each piece has the number of its physical line. -/
structure Row (π : Type) where
  column : Column
  pieces : List (Nat × π)
  deriving DecidableEq

/-- A header, up to its colon, or a simple statement. -/
structure Item (π : Type) where
  depth : Nat
  header : Bool
  pieces : List (Nat × π)
  deriving DecidableEq

/-- An item wherever it stands. -/
structure Node (π : Type) where
  depth : Nat
  header : Bool
  pieces : List π
  deriving DecidableEq

namespace Item

def node (i : Item π) : Node π := ⟨i.depth, i.header, i.pieces.map Prod.snd⟩

def lineno (i : Item π) : Nat := (i.pieces.head?.map Prod.fst).getD 0

def endLineno (i : Item π) : Nat := (i.pieces.getLast?.map Prod.fst).getD 0

def lines (i : Item π) : List Nat := List.range' i.lineno (i.endLineno + 1 - i.lineno)

end Item

/-- What is to be known of the tokens and of the grammar. -/
structure Grammar (π ω : Type) where
  /-- A physical line, read where nothing is open or something is. -/
  scan : Option ω → List Char → Option (List π × Ending ω)
  column : List Char → Column
  isSemicolon : π → Bool
  /-- How much of a logical line is the header of a compound statement. -/
  headerLength : List π → Nat
  accepts : List (Node π) → Bool

-- ---------------------------------------------------------------------------
-- Logical lines
-- ---------------------------------------------------------------------------

def number (n : Nat) : List α → List (Nat × α)
  | [] => []
  | a :: as => (n, a) :: number (n + 1) as

/-- The physical lines of each logical line, if the last one ends. -/
def groups : List (Nat × Scanned π ω) → List (Nat × Scanned π ω) → Option (List (List (Nat × Scanned π ω)))
  | current, [] => if current.isEmpty then some [] else none
  | current, x :: xs =>
    match x.2.ending with
    | .newline => (groups [] xs).map ((current ++ [x]) :: ·)
    | .joined => groups (current ++ [x]) xs
    | .within _ => groups (current ++ [x]) xs

def numberedPieces (group : List (Nat × Scanned π ω)) : List (Nat × π) :=
  group.flatMap fun x => x.2.pieces.map fun piece => (x.1, piece)

/-- Lines without pieces are passed over. -/
def rowOf (group : List (Nat × Scanned π ω)) : Option (Row π) :=
  match group with
  | [] => none
  | x :: _ => if (numberedPieces group).isEmpty then none else some ⟨x.2.column, numberedPieces group⟩

-- ---------------------------------------------------------------------------
-- Indentation
-- ---------------------------------------------------------------------------

def dedent (c : Column) : List Column → List Column
  | [] => []
  | top :: stack => if c.1 < top.1 then dedent c stack else top :: stack

/-- The stack of indentations with a line. It may be indented behind a header that is alone on its line. -/
def enter (opened : Bool) (stack : List Column) (c : Column) : Option (List Column) :=
  if (stack.headD (0, 0)).1 < c.1 then
    if opened && decide ((stack.headD (0, 0)).2 < c.2) then some (c :: stack) else none
  else if (dedent c stack).headD (0, 0) = c then some (dedent c stack) else none

def place (opens : Row π → Bool) : Bool → List Column → List (Row π) → Option (List (Nat × Row π))
  | _, _, [] => some []
  | opened, stack, row :: rows => do
    let stack ← enter opened stack row.column
    let placed ← place opens (opens row) stack rows
    return (stack.length, row) :: placed

namespace Grammar

variable (G : Grammar π ω)

def scanLines : Option ω → List (List Char) → Option (List (Scanned π ω))
  | _, [] => some []
  | w, line :: lines => do
    let scanned ← G.scan w line
    let rest ← scanLines scanned.2.left lines
    return ⟨G.column line, scanned.1, scanned.2⟩ :: rest

-- ---------------------------------------------------------------------------
-- Statements
-- ---------------------------------------------------------------------------

def headerOf (row : Row π) : List (Nat × π) := row.pieces.take (G.headerLength (row.pieces.map Prod.snd))

/-- A last semicolon ends a statement, too. -/
def simpleStatements (row : Row π) : List (List (Nat × π)) :=
  let parts := (row.pieces.drop (G.headerLength (row.pieces.map Prod.snd))).splitOnP fun x => G.isSemicolon x.2
  if parts.getLast?.any List.isEmpty then parts.dropLast else parts

def opens (row : Row π) : Bool := !(G.headerOf row).isEmpty && (G.simpleStatements row).isEmpty

def items (placed : Nat × Row π) : List (Item π) :=
  if G.headerOf placed.2 = [] then (G.simpleStatements placed.2).map fun pieces => ⟨placed.1, false, pieces⟩
  else
    ⟨placed.1, true, G.headerOf placed.2⟩ ::
      (G.simpleStatements placed.2).map fun pieces => ⟨placed.1 + 1, false, pieces⟩

def placedRows (source : List Char) : Option (List (Nat × Row π)) := do
  let scanned ← G.scanLines none (physicalLines source)
  let gs ← groups [] (number 1 scanned)
  place G.opens false [] (gs.filterMap rowOf)

/-- `ast.parse`, where nothing stands for the `SyntaxError`. -/
def parse (source : List Char) : Option (List (Item π)) := do
  let placed ← G.placedRows source
  if placed.all fun p => (G.simpleStatements p.2).all fun pieces => !pieces.isEmpty then
    let module := placed.flatMap G.items
    if G.accepts (module.map Item.node) then some module else none
  else none

/-- What a grammar of Python has: a line of whitespace holds nothing, and what is left open at the end
of a line belongs to an item that goes on. -/
structure Lawful : Prop where
  blank : ∀ line pieces ending, (∀ c ∈ line, isSpace c) → G.scan none line = some (pieces, ending) →
    pieces = [] ∧ ending = .newline
  closed : ∀ source module scanned, G.parse source = some module →
    G.scanLines none (physicalLines source) = some scanned → ∀ x ∈ number 1 scanned, ∀ w, x.2.ending = .within w →
      ∃ i ∈ module, x.1 ∈ i.lines ∧ x.1 + 1 ∈ i.lines

end Grammar

-- ---------------------------------------------------------------------------
-- Physical lines
-- ---------------------------------------------------------------------------

section
variable {line text : List Char} {lines : List (List Char)}

/-- A line with its line feed. -/
def Whole (line : List Char) : Prop := ∃ body, '\n' ∉ body ∧ line = body ++ ['\n']

/-- Lines as they come from a text: only the last one may lack its line feed. -/
def AreLines : List (List Char) → Prop
  | [] => True
  | line :: lines => (Whole line ∨ lines = [] ∧ line ≠ [] ∧ '\n' ∉ line) ∧ AreLines lines

theorem physicalLines_whole (h : Whole line) (text : List Char) :
    physicalLines (line ++ text) = line :: physicalLines text := by
  obtain ⟨body, hbody, rfl⟩ := h
  induction body with
  | nil => simp [physicalLines]
  | cons c body ih =>
    obtain ⟨hc, hbody⟩ := List.ne_and_not_mem_of_not_mem_cons hbody
    rw [List.cons_append, List.cons_append, physicalLines, if_neg (Ne.symm hc), ih hbody]

theorem physicalLines_of_not_mem (h : '\n' ∉ line) (hne : line ≠ []) : physicalLines line = [line] := by
  induction line with
  | nil => exact absurd rfl hne
  | cons c line ih =>
    obtain ⟨hc, hline⟩ := List.ne_and_not_mem_of_not_mem_cons h
    rw [physicalLines, if_neg (Ne.symm hc)]
    cases line with
    | nil => rfl
    | cons d line => rw [ih hline (List.cons_ne_nil d line)]

theorem physicalLines_flatten (h : AreLines lines) : physicalLines lines.flatten = lines := by
  induction lines with
  | nil => rfl
  | cons line lines ih =>
    obtain ⟨hwhole | ⟨rfl, hne, hline⟩, hlines⟩ := h
    · rw [List.flatten_cons, physicalLines_whole hwhole, ih hlines]
    · rw [List.flatten_cons, List.flatten_nil, List.append_nil, physicalLines_of_not_mem hline hne]

theorem flatten_physicalLines (text : List Char) : (physicalLines text).flatten = text := by
  induction text with
  | nil => rfl
  | cons c text ih =>
    rw [physicalLines]
    split
    · rw [List.flatten_cons, ih, List.singleton_append]
    · split
      · rename_i hnil
        rw [hnil] at ih
        rw [← ih]
        rfl
      · rename_i line lines hlines
        rw [hlines] at ih
        rw [← ih]
        rfl

theorem Whole.cons (h : Whole line) (hc : c ≠ '\n') : Whole (c :: line) := by
  obtain ⟨body, hbody, rfl⟩ := h
  exact ⟨c :: body, List.not_mem_cons_of_ne_of_not_mem (Ne.symm hc) hbody, rfl⟩

theorem areLines_physicalLines (text : List Char) : AreLines (physicalLines text) := by
  induction text with
  | nil => trivial
  | cons c text ih =>
    rw [physicalLines]
    split
    · rename_i hc
      exact ⟨.inl ⟨[], List.not_mem_nil, by rw [hc]; rfl⟩, ih⟩
    · rename_i hc
      split
      · exact ⟨.inr ⟨rfl, List.cons_ne_nil c [],
          List.not_mem_cons_of_ne_of_not_mem (Ne.symm hc) List.not_mem_nil⟩, trivial⟩
      · rename_i line lines hlines
        rw [hlines] at ih
        refine ⟨ih.1.imp (fun h => h.cons hc) fun h => ⟨h.1, List.cons_ne_nil c line, ?_⟩, ih.2⟩
        exact List.not_mem_cons_of_ne_of_not_mem (Ne.symm hc) h.2.2

/-- A line may give way to any other that ends. -/
theorem AreLines.set (h : AreLines lines) (n : Nat) (hline : Whole line) : AreLines (lines.set n line) := by
  induction lines generalizing n with
  | nil => exact h
  | cons line' lines ih =>
    cases n with
    | zero => exact ⟨.inl hline, h.2⟩
    | succ n => exact ⟨h.1.imp_right fun hlast => ⟨by rw [hlast.1, List.set_nil], hlast.2⟩, ih h.2 n⟩

end

end Intelliqx.Layout
