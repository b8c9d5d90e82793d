import Intelliqx.Base.StableSort
import Intelliqx.Py.Ast
import Intelliqx.Py.Blanking
import Intelliqx.Scripts.UnderscoreFixer
import Mathlib.Algebra.Order.Group.Unbundled.Int

/-!
# The import fixer

`auto_fix_unused_imports` finds the unused imports of a module in its tree, and
blanks the physical lines on which they stand. Whatever else a parser reads
from those lines is lost with them.
-/

namespace Intelliqx.Scripts

open Layout
open Py (Alias isSpace splitLines truthy)

inductive ImportStmt
  | import (names : List Alias)
  | importFrom (source : Option String) (names : List Alias)

/-- What is to be known of Python. -/
structure Python (π ω : Type) extends Grammar π ω where
  /-- The statement of these tokens, if it is an import. -/
  importOf : List π → Option ImportStmt
  /-- The names that a statement or a header of these tokens loads. -/
  loads : List π → List String
  /-- `ast.walk`, as far as it comes to items -/
  walk : List (Item π) → List (Item π)

/-- The order of `ast.walk` is not specified. -/
structure Python.Lawful (py : Python π ω) : Prop where
  grammar : py.toGrammar.Lawful
  walk : ∀ tree, (py.walk tree).Perm tree

-- ---------------------------------------------------------------------------
-- Unused imports
-- ---------------------------------------------------------------------------

/-- `name.split(".")[0]` -/
def topName (name : String) : String := .ofList (name.toList.takeWhile (· ≠ '.'))

/-- `from … import *` -/
def ImportStmt.isStar : ImportStmt → Bool
  | .import _ => false
  | .importFrom _ names => names.any (·.name = "*")

/-- The names that an import binds. -/
def ImportStmt.names : ImportStmt → List String
  | .import names => names.map fun a => (truthy a.asname).getD (topName a.name)
  | .importFrom _ names => names.map fun a => (truthy a.asname).getD a.name

section
variable (py : Python π ω)

def importNode (node : Node π) : Option ImportStmt := if node.header then none else py.importOf node.pieces

/-- `_name_used_outside_imports` -/
def nameUsedOutsideImports (tree : List (Item π)) (name : String) : Bool :=
  (py.walk tree).any fun i => (importNode py i.node).isNone && (py.loads i.node.pieces).contains name

def noqa : List Char := "noqa: F401".toList

/-- The ending of a line makes no difference here. -/
def hasNoqa (lines : List (List Char)) (lineno : Nat) : Bool :=
  decide (1 ≤ lineno ∧ lineno ≤ lines.length) && decide (noqa <:+: lines.getD (lineno - 1) [])

def targetLine (tree : List (Item π)) (lines : List (List Char)) (i : Item π) : Option Nat :=
  match importNode py i.node with
  | none => none
  | some (.import names) =>
    if (ImportStmt.import names).names.any (nameUsedOutsideImports py tree) then none
    else if hasNoqa lines i.lineno then none
    else some i.lineno
  | some (.importFrom source names) =>
    if source.getD "" = "__future__" then none
    else if (ImportStmt.importFrom source names).isStar then none
    else if (ImportStmt.importFrom source names).names.any (nameUsedOutsideImports py tree) then none
    else if hasNoqa lines i.lineno then none
    else some i.lineno

def linesWithEndings (source : String) : List (List Char) := (splitLines source).map String.toList

/-- The first line and the last one of each unused import, counted from zero, the last import first. -/
def unusedLines (tree : List (Item π)) (source : String) : List (Nat × Nat) :=
  sortBy (fun r => -(r.1 : Int)) <| (py.walk tree).filterMap fun i =>
    (targetLine py tree (linesWithEndings source) i).map fun lineno => (lineno - 1, i.endLineno - 1)

-- ---------------------------------------------------------------------------
-- Blanking them
-- ---------------------------------------------------------------------------

/-- As much as the indentation of the line, and a line feed. -/
def blankFor (line : List Char) : List Char :=
  List.replicate (line.length - (line.dropWhile isSpace).length) ' ' ++ ['\n']

/-- One round of the loop over the lines of an import. -/
def blankAt (blank : List Char) (lines : List (List Char)) (idx : Nat) : List (List Char) :=
  if (lines.getD idx []).all isSpace then lines else lines.set idx blank

def inBounds (lines : List (List Char)) (r : Nat × Nat) : Bool := r.1 < lines.length && r.2 < lines.length

def blankRange (lines : List (List Char)) (r : Nat × Nat) : List (List Char) :=
  if inBounds lines r then
    let blank := blankFor (lines.getD r.1 [])
    ((List.range' r.1 (r.2 + 1 - r.1)).reverse.foldl (blankAt blank) lines).set r.1 blank
  else lines

def newSource (tree : List (Item π)) (source : String) : List Char :=
  ((unusedLines py tree source).foldl blankRange (linesWithEndings source)).flatten

/-- The new source, unless it is not one. -/
def fixImports (tree : List (Item π)) (source : String) : Option (List Char) :=
  if (py.parse (newSource py tree source)).isSome then some (newSource py tree source) else none

def SourceFile.name (file : SourceFile) : String := .ofList ((file.path.toList.splitOn '/').getLastD [])

structure ImportReport where
  removed : Nat := 0
  filesTouched : List String := []
  skipped : List String := []
  applied : Bool
  written : List (String × String) := []

def ImportReport.rewrite (report : ImportReport) (path : String) (source : String) : Option (List Char) → ImportReport
  | none => { report with skipped := report.skipped ++ [path] }
  | some new =>
    if report.applied && decide (new ≠ source.toList) then
      { report with
        filesTouched := report.filesTouched.insert path
        written := report.written ++ [(path, .ofList new)] }
    else report

def fixFileImports (report : ImportReport) (file : SourceFile) : ImportReport :=
  if file.name = "__init__.py" then report
  else
    match file.text.bind fun source => (py.parse source.toList).map fun tree => (source, tree) with
    | none => report
    | some (source, tree) =>
      let ranges := (unusedLines py tree source).filter (inBounds (linesWithEndings source))
      if ranges.isEmpty then report
      else
        { report with removed := report.removed + ranges.length }.rewrite file.path source (fixImports py tree source)

/-- `apply` is what the report calls `applied`. -/
def autoFixUnusedImports (pyFiles : List SourceFile) (apply : Bool) : ImportReport :=
  pyFiles.foldl (fixFileImports py) { applied := apply }

end

-- ---------------------------------------------------------------------------
-- What it is for
-- ---------------------------------------------------------------------------

/-- The second list is the first one without some elements of a kind. -/
inductive Without {α : Type} (Q : α → Prop) : List α → List α → Prop
  | nil : Without Q [] []
  | keep (a : α) {as bs : List α} (h : Without Q as bs) : Without Q (a :: as) (a :: bs)
  | drop {a : α} {as bs : List α} (ha : Q a) (h : Without Q as bs) : Without Q (a :: as) bs

section
variable (py : Python π ω)

/-- An import that binds no name that something else loads. -/
def Unused (tree : List (Item π)) (node : Node π) : Prop :=
  ∃ stmt, importNode py node = some stmt ∧ stmt.isStar = false ∧
    ∀ name ∈ stmt.names, ∀ i ∈ tree, importNode py i.node = none → name ∉ py.loads i.node.pieces

/-- The physical lines, counted from one, on which the imports stand that are to go. -/
def blanked (tree : List (Item π)) (source : String) : List Nat :=
  (tree.filter fun i => (targetLine py tree (linesWithEndings source) i).isSome).flatMap Item.lines

/-- As far as they are blanked, the lines are those the parser counts. -/
def LinesAgree (tree : List (Item π)) (source : String) : Prop :=
  ∀ n ∈ blanked py tree source, (linesWithEndings source).take n = (physicalLines source.toList).take n

/-- The logical lines with something on a line that is blanked. -/
def lostRows (tree : List (Item π)) (source : String) : List (Nat × Row π) :=
  ((py.placedRows source.toList).getD []).filter fun p => !spared (blanked py tree source) p.2

/-- No logical line is cut. -/
def BlanksWhole (tree : List (Item π)) (source : String) : Prop :=
  ∀ p ∈ lostRows py tree source, (∀ x ∈ p.2.pieces, x.1 ∈ blanked py tree source) ∧
    ∀ i ∈ py.items p, ∀ n ∈ i.lines, n ∈ blanked py tree source

def AllUnused (tree : List (Item π)) (source : String) : Prop :=
  ∀ p ∈ lostRows py tree source, ∀ i ∈ py.items p, Unused py tree i.node

end

-- ---------------------------------------------------------------------------
-- Deletions
-- ---------------------------------------------------------------------------

section
variable {α β : Type} {Q : β → Prop}

theorem Without.refl (bs : List β) : Without Q bs bs := by
  induction bs with
  | nil => exact .nil
  | cons b bs ih => exact .keep b ih

theorem Without.append {as bs as' bs' : List β} (h : Without Q as bs) (h' : Without Q as' bs') :
    Without Q (as ++ as') (bs ++ bs') := by
  induction h with
  | nil => exact h'
  | keep a _ ih => exact .keep a ih
  | drop ha _ ih => exact .drop ha ih

theorem Without.all {as : List β} (h : ∀ a ∈ as, Q a) : Without Q as [] := by
  induction as with
  | nil => exact .nil
  | cons a as ih =>
    obtain ⟨ha, has⟩ := List.forall_mem_cons.mp h
    exact .drop ha (ih has)

open Classical in
/-- What is not of the kind is counted as often as before. -/
theorem Without.countP_eq {as bs : List β} (h : Without Q as bs) :
    as.countP (fun a => ¬ Q a) = bs.countP fun a => ¬ Q a := by
  induction h with
  | nil => rfl
  | keep a _ ih => simp only [List.countP_cons, ih]
  | drop ha _ ih => rw [List.countP_cons_of_neg (by simpa using ha), ih]

/-- Where whole groups are left out, the rest is a deletion exactly if all that is left out is of the kind. -/
theorem without_flatMap_iff {keep : α → Bool} (f : α → List β) (as : List α) :
    Without Q (as.flatMap f) ((as.filter keep).flatMap f) ↔ ∀ a ∈ as.filter fun a => !keep a, ∀ b ∈ f a, Q b := by
  constructor
  · classical
    intro h a ha b hb
    have hperm := (List.filter_append_perm keep as).flatMap_right f
    rw [List.flatMap_append] at hperm
    have hcount := hperm.countP_eq fun b => decide (¬ Q b)
    rw [h.countP_eq, List.countP_append] at hcount
    have hzero : ((as.filter fun a => !keep a).flatMap f).countP (fun b => ¬ Q b) = 0 := by omega
    simpa using List.countP_eq_zero.mp hzero b (List.mem_flatMap.mpr ⟨a, ha, hb⟩)
  · intro h
    induction as with
    | nil => exact .nil
    | cons a as ih =>
      rw [List.flatMap_cons]
      cases hk : keep a with
      | true =>
        rw [List.filter_cons_of_neg (by simp [hk])] at h
        rw [List.filter_cons_of_pos hk, List.flatMap_cons]
        exact (Without.refl (f a)).append (ih h)
      | false =>
        rw [List.filter_cons_of_pos (by simp [hk])] at h
        obtain ⟨ha, has⟩ := List.forall_mem_cons.mp h
        rw [List.filter_cons_of_neg (by simp [hk])]
        exact (Without.all ha).append (ih has)

end

-- ---------------------------------------------------------------------------
-- The blanked text
-- ---------------------------------------------------------------------------

/-- Lines that hold nothing any more; the others are as they were. -/
def Faded (ks : List Nat) (lines lines' : List (List Char)) : Prop :=
  lines'.length = lines.length ∧ (∀ k ∉ ks, lines'[k]? = lines[k]?) ∧
    ∀ k ∈ ks, ∀ line ∈ lines'[k]?, ∀ c ∈ line, isSpace c

section
variable {ks ks' : List Nat} {lines lines' lines'' front back : List (List Char)} {blank : List Char} {r : Nat × Nat}

theorem Faded.refl (lines : List (List Char)) : Faded [] lines lines :=
  ⟨rfl, fun _ _ => rfl, fun _ h => absurd h List.not_mem_nil⟩

theorem Faded.trans (h : Faded ks lines lines') (h' : Faded ks' lines' lines'') : Faded (ks ++ ks') lines lines'' := by
  obtain ⟨hlen, hsame, hblank⟩ := h
  obtain ⟨hlen', hsame', hblank'⟩ := h'
  refine ⟨hlen'.trans hlen, fun k hk => ?_, fun k hk line hline => ?_⟩
  · obtain ⟨hks, hks'⟩ := not_or.mp (mt List.mem_append.mpr hk)
    exact (hsame' k hks').trans (hsame k hks)
  · by_cases hks' : k ∈ ks'
    · exact hblank' k hks' line hline
    · rw [hsame' k hks'] at hline
      exact hblank k ((List.mem_append.mp hk).resolve_right hks') line hline

theorem faded_set (hblank : ∀ c ∈ blank, isSpace c) (lines : List (List Char)) (idx : Nat) :
    Faded [idx] lines (lines.set idx blank) := by
  refine ⟨List.length_set, fun k hk => ?_, fun k hk line hline => ?_⟩
  · exact List.getElem?_set_ne (Ne.symm (List.mem_singleton.not.mp hk))
  · obtain rfl := List.mem_singleton.mp hk
    rw [List.getElem?_set_self'] at hline
    obtain ⟨old, -, rfl⟩ := Option.map_eq_some_iff.mp hline
    exact hblank

theorem faded_blankAt (hblank : ∀ c ∈ blank, isSpace c) (lines : List (List Char)) (idx : Nat) :
    Faded [idx] lines (blankAt blank lines idx) := by
  rw [blankAt]
  split
  · rename_i hall
    refine ⟨rfl, fun _ _ => rfl, fun k hk line hline c hc => ?_⟩
    obtain rfl := List.mem_singleton.mp hk
    rw [List.getD_eq_getElem?_getD, Option.mem_def.mp hline] at hall
    exact List.all_eq_true.mp hall c hc
  · exact faded_set hblank lines idx

theorem faded_foldl (hblank : ∀ c ∈ blank, isSpace c) (lines : List (List Char)) (idxs : List Nat) :
    Faded idxs lines (idxs.foldl (blankAt blank) lines) := by
  induction idxs generalizing lines with
  | nil => exact .refl lines
  | cons idx idxs ih => exact (faded_blankAt hblank lines idx).trans (ih _)

theorem isSpace_blankFor (line : List Char) : ∀ c ∈ blankFor line, isSpace c := by
  refine List.forall_mem_append.mpr ⟨fun c hc => ?_, fun c hc => ?_⟩
  · rw [List.eq_of_mem_replicate hc]
    rfl
  · rw [List.mem_singleton.mp hc]
    rfl

/-- The lines of an import, in the order of the loop. -/
def linesOf (r : Nat × Nat) : List Nat := (List.range' r.1 (r.2 + 1 - r.1)).reverse ++ [r.1]

theorem faded_blankRange (h : inBounds lines r) : Faded (linesOf r) lines (blankRange lines r) := by
  rw [blankRange, if_pos h]
  exact (faded_foldl (isSpace_blankFor _) lines _).trans (faded_set (isSpace_blankFor _) _ r.1)

theorem faded_blankRanges {rs : List (Nat × Nat)} (h : ∀ r ∈ rs, inBounds lines r) :
    Faded (rs.flatMap linesOf) lines (rs.foldl blankRange lines) := by
  induction rs generalizing lines with
  | nil => exact .refl lines
  | cons r rs ih =>
    obtain ⟨hr, hrs⟩ := List.forall_mem_cons.mp h
    have hfirst := faded_blankRange hr
    refine hfirst.trans (ih fun r' hr' => ?_)
    rw [inBounds, hfirst.1]
    exact hrs r' hr'

theorem whole_blankFor (line : List Char) : Whole (blankFor line) := by
  refine ⟨_, fun hmem => ?_, rfl⟩
  exact absurd (List.eq_of_mem_replicate hmem) (by decide)

theorem areLines_foldl (hblank : Whole blank) (h : AreLines lines) (idxs : List Nat) :
    AreLines (idxs.foldl (blankAt blank) lines) := by
  induction idxs generalizing lines with
  | nil => exact h
  | cons idx idxs ih =>
    refine ih ?_
    rw [blankAt]
    split
    · exact h
    · exact h.set idx hblank

theorem areLines_blankRange (h : AreLines lines) (r : Nat × Nat) : AreLines (blankRange lines r) := by
  rw [blankRange]
  split
  · exact (areLines_foldl (whole_blankFor _) h _).set r.1 (whole_blankFor _)
  · exact h

theorem getD_append (idx : Nat) (h : idx < front.length) (back : List (List Char)) :
    (front ++ back).getD idx [] = front.getD idx [] := by
  rw [List.getD_eq_getElem?_getD, List.getD_eq_getElem?_getD, List.getElem?_append_left h]

theorem blankAt_append (idx : Nat) (h : idx < front.length) (back : List (List Char)) :
    blankAt blank (front ++ back) idx = blankAt blank front idx ++ back := by
  rw [blankAt, blankAt, getD_append idx h, List.set_append_left _ _ h]
  split <;> rfl

theorem foldl_blankAt_append {idxs : List Nat} (h : ∀ idx ∈ idxs, idx < front.length) (back : List (List Char)) :
    idxs.foldl (blankAt blank) (front ++ back) = idxs.foldl (blankAt blank) front ++ back := by
  induction idxs generalizing front with
  | nil => rfl
  | cons idx idxs ih =>
    obtain ⟨hidx, hidxs⟩ := List.forall_mem_cons.mp h
    rw [List.foldl_cons, List.foldl_cons, blankAt_append idx hidx]
    refine ih fun idx' hidx' => ?_
    have hlen : (blankAt blank front idx).length = front.length := by
      rw [blankAt]
      split
      · rfl
      · exact List.length_set
    rw [hlen]
    exact hidxs idx' hidx'

theorem blankRange_append (h : inBounds front r) (back : List (List Char)) :
    blankRange (front ++ back) r = blankRange front r ++ back := by
  have hbounds := h
  simp only [inBounds, Bool.and_eq_true, decide_eq_true_eq] at hbounds
  obtain ⟨hfirst, hlast⟩ := hbounds
  have hall : inBounds (front ++ back) r := by
    simp only [inBounds, List.length_append, Bool.and_eq_true, decide_eq_true_eq]
    exact ⟨Nat.lt_add_right _ hfirst, Nat.lt_add_right _ hlast⟩
  have hidxs : ∀ idx ∈ (List.range' r.1 (r.2 + 1 - r.1)).reverse, idx < front.length := by
    intro idx hidx
    have := List.mem_range'_1.mp (List.mem_reverse.mp hidx)
    omega
  have hlen := (faded_foldl (isSpace_blankFor (front.getD r.1 [])) front
    (List.range' r.1 (r.2 + 1 - r.1)).reverse).1
  rw [blankRange, blankRange, if_pos h, if_pos hall, getD_append r.1 hfirst]
  simp only []
  rw [foldl_blankAt_append hidxs, List.set_append_left _ _ (hlen ▸ hfirst)]

theorem blankRanges_append {rs : List (Nat × Nat)} (h : ∀ r ∈ rs, inBounds front r) (back : List (List Char)) :
    rs.foldl blankRange (front ++ back) = rs.foldl blankRange front ++ back := by
  induction rs generalizing front with
  | nil => rfl
  | cons r rs ih =>
    obtain ⟨hr, hrs⟩ := List.forall_mem_cons.mp h
    rw [List.foldl_cons, List.foldl_cons, blankRange_append hr]
    refine ih fun r' hr' => ?_
    rw [inBounds, (faded_blankRange hr).1]
    exact hrs r' hr'

theorem areLines_blankRanges (h : AreLines lines) (rs : List (Nat × Nat)) : AreLines (rs.foldl blankRange lines) := by
  induction rs generalizing lines with
  | nil => exact h
  | cons r rs ih => exact ih (areLines_blankRange h r)

/-- Where both count the same lines, a parser finds the lines of the new text as they were blanked. -/
theorem physicalLines_blankRanges {text : List Char} {n : Nat} {rs : List (Nat × Nat)} (hflat : lines.flatten = text)
    (hagree : lines.take n = (physicalLines text).take n) (hn : n ≤ (physicalLines text).length)
    (hrs : ∀ r ∈ rs, r.1 < n ∧ r.2 < n) :
    physicalLines (rs.foldl blankRange lines).flatten = rs.foldl blankRange (physicalLines text) := by
  have hlen : (lines.take n).length = n := by rw [hagree, List.length_take, Nat.min_eq_left hn]
  have hbounds : ∀ r ∈ rs, inBounds (lines.take n) r := by
    intro r hr
    simpa [inBounds, hlen] using hrs r hr
  have hsplit : physicalLines text = lines.take n ++ (physicalLines text).drop n := by
    rw [hagree, List.take_append_drop]
  have hrest : (lines.drop n).flatten = ((physicalLines text).drop n).flatten := by
    have hall : (lines.take n ++ lines.drop n).flatten = (lines.take n ++ (physicalLines text).drop n).flatten := by
      rw [List.take_append_drop, hflat, ← hsplit, flatten_physicalLines]
    rw [List.flatten_append, List.flatten_append] at hall
    exact List.append_cancel_left hall
  have hnew : (rs.foldl blankRange lines).flatten = (rs.foldl blankRange (physicalLines text)).flatten := by
    rw [hsplit, blankRanges_append hbounds, ← List.take_append_drop n lines,
      blankRanges_append (by simpa using hbounds), List.flatten_append, List.flatten_append]
    simp [hrest]
  rw [hnew]
  exact physicalLines_flatten (areLines_blankRanges (areLines_physicalLines text) rs)

end

-- ---------------------------------------------------------------------------
-- What is lost
-- ---------------------------------------------------------------------------

section
variable {py : Python π ω} {tree tree' : List (Item π)} {source : String} {placed placed' : List (Nat × Row π)}
  {lines : List (List Char)} {i : Item π} {n k : Nat} {r : Nat × Nat}

theorem targetLine_eq (h : targetLine py tree lines i = some n) : n = i.lineno ∧ ∃ stmt,
    importNode py i.node = some stmt ∧ stmt.isStar = false ∧
      stmt.names.any (nameUsedOutsideImports py tree) = false := by
  rw [targetLine] at h
  split at h
  · cases h
  · rename_i names himport
    split at h
    · cases h
    · rename_i hunused
      split at h
      · cases h
      · exact ⟨(Option.some.inj h).symm, _, himport, rfl, by simpa using hunused⟩
  · rename_i source names himport
    split at h
    · cases h
    · split at h
      · cases h
      · rename_i hstar
        split at h
        · cases h
        · rename_i hunused
          split at h
          · cases h
          · exact ⟨(Option.some.inj h).symm, _, himport, by simpa using hstar, by simpa using hunused⟩

/-- What is to go is unused. -/
theorem unused_of_targetLine (hpy : py.Lawful) (h : targetLine py tree lines i = some n) : Unused py tree i.node := by
  obtain ⟨-, stmt, himport, hstar, hunused⟩ := targetLine_eq h
  refine ⟨stmt, himport, hstar, fun name hname i hi hnone hloads => ?_⟩
  refine Bool.eq_false_iff.mp hunused (List.any_eq_true.mpr ⟨name, hname, ?_⟩)
  refine List.any_eq_true.mpr ⟨i, (hpy.walk tree).mem_iff.mpr hi, ?_⟩
  simp [hnone, hloads]

theorem mem_unusedLines (hpy : py.Lawful) : r ∈ unusedLines py tree source ↔
    ∃ i ∈ tree, (targetLine py tree (linesWithEndings source) i).isSome ∧ r = (i.lineno - 1, i.endLineno - 1) := by
  rw [unusedLines, mem_sortBy, List.mem_filterMap]
  refine exists_congr fun i => and_congr (hpy.walk tree).mem_iff ?_
  cases htarget : targetLine py tree (linesWithEndings source) i with
  | none => simp
  | some n =>
    obtain ⟨rfl, -⟩ := targetLine_eq htarget
    simp [eq_comm]

theorem mem_blanked : n ∈ blanked py tree source ↔
    ∃ i ∈ tree, (targetLine py tree (linesWithEndings source) i).isSome ∧ n ∈ i.lines := by
  simp only [blanked, List.mem_flatMap, List.mem_filter, and_assoc]

theorem mem_lines_iff : n ∈ i.lines ↔ i.lineno ≤ n ∧ n ≤ i.endLineno := by
  rw [Item.lines, List.mem_range'_1]
  omega

theorem mem_linesOf_iff (h : 1 ≤ i.lineno) (hle : i.lineno ≤ i.endLineno) :
    k ∈ linesOf (i.lineno - 1, i.endLineno - 1) ↔ k + 1 ∈ i.lines := by
  rw [linesOf, List.mem_append, List.mem_reverse, List.mem_range'_1, List.mem_singleton, mem_lines_iff]
  omega

/-- The loop goes over the lines that are blanked. -/
theorem mem_flatMap_linesOf (hpy : py.Lawful) (hparse : py.parse source.toList = some tree) :
    k ∈ (unusedLines py tree source).flatMap linesOf ↔ k + 1 ∈ blanked py tree source := by
  simp only [List.mem_flatMap, mem_unusedLines hpy, mem_blanked]
  constructor
  · rintro ⟨r, ⟨i, hi, htarget, rfl⟩, hk⟩
    obtain ⟨hpos, hle, -⟩ := lines_of_item hparse hi
    exact ⟨i, hi, htarget, (mem_linesOf_iff hpos hle).mp hk⟩
  · rintro ⟨i, hi, htarget, hk⟩
    obtain ⟨hpos, hle, -⟩ := lines_of_item hparse hi
    exact ⟨_, ⟨i, hi, htarget, rfl⟩, (mem_linesOf_iff hpos hle).mpr hk⟩

theorem exists_last (ns : List Nat) : ∃ last, (last = 0 ∨ last ∈ ns) ∧ ∀ n ∈ ns, n ≤ last := by
  induction ns with
  | nil => exact ⟨0, .inl rfl, fun n hn => absurd hn List.not_mem_nil⟩
  | cons n ns ih =>
    obtain ⟨last, hlast, hle⟩ := ih
    obtain hn | hn := Nat.le_total n last
    · exact ⟨last, hlast.imp_right (List.mem_cons_of_mem n), List.forall_mem_cons.mpr ⟨hn, hle⟩⟩
    · exact ⟨n, .inr List.mem_cons_self, List.forall_mem_cons.mpr ⟨Nat.le_refl n, fun m hm => (hle m hm).trans hn⟩⟩

/-- The physical lines of the new text. -/
theorem physicalLines_newSource (hpy : py.Lawful) (hparse : py.parse source.toList = some tree)
    (hagree : LinesAgree py tree source) : physicalLines (newSource py tree source) =
      (unusedLines py tree source).foldl blankRange (physicalLines source.toList) := by
  obtain ⟨last, hlast, hle⟩ := exists_last (blanked py tree source)
  have hlines : ∀ i ∈ tree, (targetLine py tree (linesWithEndings source) i).isSome →
      1 ≤ i.lineno ∧ i.lineno ≤ last ∧ i.endLineno ≤ last := by
    intro i hi htarget
    obtain ⟨hpos, hlineno, -⟩ := lines_of_item hparse hi
    refine ⟨hpos, hle _ (mem_blanked.mpr ⟨i, hi, htarget, ?_⟩), hle _ (mem_blanked.mpr ⟨i, hi, htarget, ?_⟩)⟩
    · exact mem_lines_iff.mpr ⟨Nat.le_refl _, hlineno⟩
    · exact mem_lines_iff.mpr ⟨hlineno, Nat.le_refl _⟩
  refine physicalLines_blankRanges (n := last) (Py.flatten_splitLines source) ?_ ?_ fun r hr => ?_
  · obtain rfl | hmem := hlast
    · rfl
    · exact hagree last hmem
  · obtain rfl | hmem := hlast
    · exact Nat.zero_le _
    · obtain ⟨i, hi, -, hline⟩ := mem_blanked.mp hmem
      exact (mem_lines_iff.mp hline).2.trans (lines_of_item hparse hi).2.2
  · obtain ⟨i, hi, htarget, rfl⟩ := (mem_unusedLines hpy).mp hr
    obtain ⟨hpos, hlineno, hend⟩ := hlines i hi htarget
    have hback := (lines_of_item hparse hi).2.1
    constructor <;> dsimp only <;> omega

theorem forall₂_number {n : Nat} {lines lines' : List (List Char)} {bs : List Nat} (hlen : lines'.length = lines.length)
    (hsame : ∀ k, n + k ∉ bs → lines'[k]? = lines[k]?)
    (hblank : ∀ k, n + k ∈ bs → ∀ line ∈ lines'[k]?, ∀ c ∈ line, isSpace c) :
    List.Forall₂ (BlankedLine bs) (number n lines) (number n lines') := by
  induction lines generalizing n lines' with
  | nil =>
    obtain rfl := List.length_eq_zero_iff.mp hlen
    exact .nil
  | cons line lines ih =>
    cases lines' with
    | nil => cases hlen
    | cons line' lines' =>
      refine .cons ⟨rfl, fun hin => hblank 0 hin line' rfl, fun hnot => ?_⟩ ?_
      · exact Option.some.inj (hsame 0 hnot)
      · refine ih (Nat.succ.inj hlen) (fun k hk => ?_) fun k hk => ?_
        · exact hsame (k + 1) (by rwa [← Nat.add_assoc, Nat.add_right_comm])
        · exact hblank (k + 1) (by rwa [← Nat.add_assoc, Nat.add_right_comm])

/-- A logical line with a simple statement opens nothing. -/
theorem opens_of_simple {G : Grammar π ω} {p : Nat × Row π} (hi : i ∈ G.items p) (hsimple : i.header = false) :
    G.opens p.2 = false := by
  have hopens : G.headerOf p.2 = [] ∨ G.simpleStatements p.2 ≠ [] := by
    rw [Grammar.items] at hi
    split at hi
    · rename_i hnil
      exact .inl hnil
    · rcases List.mem_cons.mp hi with rfl | hi
      · cases hsimple
      · obtain ⟨pieces, hpieces, -⟩ := List.mem_map.mp hi
        exact .inr (List.ne_nil_of_mem hpieces)
  rw [Grammar.opens]
  obtain h | h := hopens
  · rw [h]
    rfl
  · rw [List.isEmpty_eq_false_iff.mpr h, Bool.and_false]

theorem blanksRows_of_whole (hparse : py.parse source.toList = some tree)
    (hplaced : py.placedRows source.toList = some placed) (hwhole : BlanksWhole py tree source) :
    BlanksRows py.toGrammar (blanked py tree source) placed := by
  obtain ⟨placed', hplaced', hstatements, hmodule⟩ := parse_eq hparse
  obtain rfl := Option.some.inj (hplaced'.symm.trans hplaced)
  have hlost : ∀ p ∈ placed', spared (blanked py tree source) p.2 = false → p ∈ lostRows py tree source := by
    intro p hp hspared
    rw [lostRows, hplaced, Option.getD_some]
    exact List.mem_filter.mpr ⟨hp, by rw [hspared]; rfl⟩
  refine ⟨fun n hn => ?_, fun p hp h => (hwhole p (hlost p hp h)).1, fun p hp h => (hwhole p (hlost p hp h)).2⟩
  obtain ⟨i, hi, htarget, hline⟩ := mem_blanked.mp hn
  obtain ⟨p, hp, hitem⟩ := List.mem_flatMap.mp (hmodule ▸ hi)
  obtain ⟨hne, hsub⟩ := items_pieces (hstatements p hp) hitem
  refine ⟨p, hp, ?_, ?_, i, hitem, hline⟩
  · refine List.all_eq_false.mpr ⟨_, hsub.subset (List.head_mem hne), ?_⟩
    obtain ⟨hfirst, hlast⟩ := mem_lines_iff.mp hline
    have hmem : i.lineno ∈ blanked py tree source :=
      mem_blanked.mpr ⟨i, hi, htarget, mem_lines_iff.mpr ⟨Nat.le_refl _, hfirst.trans hlast⟩⟩
    rw [lineno_eq hne] at hmem
    simpa using hmem
  · refine opens_of_simple hitem ?_
    obtain ⟨n, hn⟩ := Option.isSome_iff_exists.mp htarget
    obtain ⟨-, stmt, himport, -⟩ := targetLine_eq hn
    rw [importNode] at himport
    split at himport
    · cases himport
    · rename_i hheader
      exact Bool.eq_false_iff.mpr hheader

end

-- ---------------------------------------------------------------------------
-- Files
-- ---------------------------------------------------------------------------

section
variable {py : Python π ω} {pyFiles : List SourceFile}

theorem blankedLines_newSource (hpy : py.Lawful) {source : String} {tree : List (Item π)}
    (hparse : py.parse source.toList = some tree) (hagree : LinesAgree py tree source) :
    List.Forall₂ (BlankedLine (blanked py tree source)) (number 1 (physicalLines source.toList))
      (number 1 (physicalLines (newSource py tree source))) := by
  have hbounds : ∀ r ∈ unusedLines py tree source, inBounds (physicalLines source.toList) r := by
    intro r hr
    obtain ⟨i, hi, -, rfl⟩ := (mem_unusedLines hpy).mp hr
    obtain ⟨hpos, hle, hend⟩ := lines_of_item hparse hi
    simp only [inBounds, Bool.and_eq_true, decide_eq_true_eq]
    omega
  obtain ⟨hlen, hsame, hblank⟩ := faded_blankRanges hbounds
  rw [physicalLines_newSource hpy hparse hagree]
  refine forall₂_number hlen (fun k hk => hsame k fun hin => hk ?_) fun k hk => hblank k ?_
  · rw [Nat.add_comm]
    exact (mem_flatMap_linesOf hpy hparse).mp hin
  · rw [Nat.add_comm] at hk
    exact (mem_flatMap_linesOf hpy hparse).mpr hk

/-- Where no logical line is cut, only unused imports are gone from the module exactly if there was nothing
else on their logical lines. -/
theorem without_unused_iff (hpy : py.Lawful) {source : String} {tree tree' : List (Item π)}
    (hparse : py.parse source.toList = some tree) (hnew : py.parse (newSource py tree source) = some tree')
    (hagree : LinesAgree py tree source) (hwhole : BlanksWhole py tree source) :
    Without (Unused py tree) (tree.map Item.node) (tree'.map Item.node) ↔ AllUnused py tree source := by
  obtain ⟨placed, hplaced, -, htree⟩ := parse_eq hparse
  obtain ⟨placed', hplaced', -, rfl⟩ := parse_eq hnew
  obtain rfl := placedRows_blanked hpy.grammar hparse hplaced (blanksRows_of_whole hparse hplaced hwhole)
    (blankedLines_newSource hpy hparse hagree) hplaced'
  rw [AllUnused, lostRows, hplaced, Option.getD_some]
  have hnodes : ∀ placed : List (Nat × Row π), (placed.flatMap py.items).map Item.node =
      placed.flatMap fun p => (py.items p).map Item.node := fun _ => List.map_flatMap
  rw [hnodes, show tree.map Item.node = placed.flatMap fun p => (py.items p).map Item.node by rw [htree, hnodes],
    without_flatMap_iff]
  simp only [List.forall_mem_map]

/-- The new text is a module that has lost nothing but unused imports. -/
def OnlyUnusedGone (py : Python π ω) (tree : List (Item π)) (new : String) : Prop :=
  ∃ tree', py.parse new.toList = some tree' ∧ Without (Unused py tree) (tree.map Item.node) (tree'.map Item.node)

/-- What is written is a file of the list that is a module, with its new source. -/
def WritesFixed (py : Python π ω) (pyFiles : List SourceFile) (report : ImportReport) : Prop :=
  ∀ p ∈ report.written, ∃ file ∈ pyFiles, file.path = p.1 ∧ ∃ source tree, file.text = some source ∧
    py.parse source.toList = some tree ∧ fixImports py tree source = some p.2.toList

theorem WritesFixed.fixFileImports {report : ImportReport} {file : SourceFile} (h : WritesFixed py pyFiles report)
    (hfile : file ∈ pyFiles) : WritesFixed py pyFiles (fixFileImports py report file) := by
  rw [Scripts.fixFileImports]
  split
  · exact h
  · split
    · exact h
    · rename_i source tree hread
      obtain ⟨source', htext, hread⟩ := Option.bind_eq_some_iff.mp hread
      obtain ⟨tree', hparse, heq⟩ := Option.map_eq_some_iff.mp hread
      obtain ⟨rfl, rfl⟩ := Prod.mk.inj heq
      dsimp only
      split
      · exact h
      · cases hnew : fixImports py tree' source' with
        | none => exact h
        | some new =>
          rw [ImportReport.rewrite]
          split
          · intro p hp
            rcases List.mem_append.mp hp with hp | hp
            · exact h p hp
            · obtain rfl := List.mem_singleton.mp hp
              exact ⟨file, hfile, rfl, source', tree', htext, hparse, by rw [hnew, String.toList_ofList]⟩
          · exact h

theorem writesFixed_autoFixUnusedImports (py : Python π ω) (pyFiles : List SourceFile) (apply : Bool) :
    WritesFixed py pyFiles (autoFixUnusedImports py pyFiles apply) := by
  refine List.foldlRecOn pyFiles (fixFileImports py) ?_ fun report h file hfile => h.fixFileImports hfile
  exact fun p hp => absurd hp List.not_mem_nil

/-- A module that is rewritten has lost nothing but unused imports exactly if the logical lines of the
imports held nothing else; this is for lines that a parser counts alike, none of them cut. -/
theorem imports_removed_iff (hpy : py.Lawful) (pyFiles : List SourceFile) :
    ∀ p ∈ (autoFixUnusedImports py pyFiles true).written, ∃ file ∈ pyFiles, file.path = p.1 ∧ ∃ source tree,
      file.text = some source ∧ py.parse source.toList = some tree ∧
        (LinesAgree py tree source → BlanksWhole py tree source →
          (OnlyUnusedGone py tree p.2 ↔ AllUnused py tree source)) := by
  intro p hp
  obtain ⟨file, hfile, hpath, source, tree, htext, hparse, hnew⟩ :=
    writesFixed_autoFixUnusedImports py pyFiles true p hp
  refine ⟨file, hfile, hpath, source, tree, htext, hparse, fun hagree hwhole => ?_⟩
  rw [fixImports] at hnew
  split at hnew
  · rename_i hsome
    obtain ⟨tree', htree'⟩ := Option.isSome_iff_exists.mp hsome
    have hiff := without_unused_iff hpy hparse htree' hagree hwhole
    rw [OnlyUnusedGone, ← Option.some.inj hnew, htree']
    simpa using hiff
  · cases hnew

end

-- ---------------------------------------------------------------------------
-- A small grammar
-- ---------------------------------------------------------------------------

/-- Words and semicolons. -/
def words (line : List Char) : List (List Char) :=
  if line.all isSpace then []
  else ((line.flatMap fun c => if c = ';' then [' ', ';', ' '] else [c]).splitOnP isSpace).filter (· ≠ [])

/-- Simple statements whose words stand apart, of which an import names one module and nothing loads a name. -/
def wordPython : Python (List Char) Empty where
  scan _ line := some (words line, .newline)
  column line := ((line.takeWhile (· = ' ')).length, (line.takeWhile (· = ' ')).length)
  isSemicolon word := word = [';']
  headerLength _ := 0
  accepts _ := true
  importOf
    | [keyword, name] => if keyword = "import".toList then some (.import [⟨.ofList name, none⟩]) else none
    | _ => none
  loads _ := []
  walk tree := tree

theorem lawful_wordPython : wordPython.Lawful where
  grammar := {
    blank := fun line pieces ending hline hscan => by
      cases hscan
      exact ⟨if_pos (List.all_eq_true.mpr hline), rfl⟩
    closed := fun _ _ _ _ _ _ _ w => w.elim }
  walk := List.Perm.refl

def osImport : Item (List Char) := ⟨0, false, [(1, "import".toList), (1, "os".toList)]⟩

def assignment (lineno : Nat) : Item (List Char) :=
  ⟨0, false, [(lineno, "x".toList), (lineno, "=".toList), (lineno, "1".toList)]⟩

def aloneFile : SourceFile := ⟨"a.py", some "import os\nx = 1\n"⟩

theorem import_alone_removed : wordPython.parse "import os\nx = 1\n".toList = some [osImport, assignment 2] ∧
    OnlyUnusedGone wordPython [osImport, assignment 2] "\nx = 1\n" := by
  have hparse : wordPython.parse "import os\nx = 1\n".toList = some [osImport, assignment 2] := by decide +kernel
  have hwritten : (autoFixUnusedImports wordPython [aloneFile] true).written = [("a.py", "\nx = 1\n")] := by
    decide +kernel
  obtain ⟨file, hfile, -, source, tree, htext, htree, hiff⟩ :=
    imports_removed_iff lawful_wordPython [aloneFile] _ (hwritten ▸ List.mem_singleton_self _)
  obtain rfl := List.mem_singleton.mp hfile
  obtain rfl := Option.some.inj htext
  obtain rfl := Option.some.inj (hparse.symm.trans htree)
  have hlost : lostRows wordPython [osImport, assignment 2] "import os\nx = 1\n" =
      [(0, ⟨(0, 0), osImport.pieces⟩)] := by decide +kernel
  refine ⟨hparse, (hiff ?_ ?_).mpr ?_⟩
  · unfold LinesAgree
    decide +kernel
  · unfold BlanksWhole
    decide +kernel
  · intro p hp i hi
    obtain rfl := List.mem_singleton.mp (hlost ▸ hp)
    obtain rfl : i = osImport := List.mem_singleton.mp hi
    have htarget : targetLine wordPython [osImport, assignment 2] (linesWithEndings "import os\nx = 1\n") osImport =
        some 1 := by decide +kernel
    exact unused_of_targetLine lawful_wordPython htarget

def sharedFile : SourceFile := ⟨"a.py", some "import os; x = 1\n"⟩

/-- The assignment behind the semicolon is lost. -/
theorem assignment_lost : ¬ ∀ (py : Python (List Char) Empty) (pyFiles : List SourceFile), py.Lawful →
    ∀ p ∈ (autoFixUnusedImports py pyFiles true).written, ∃ file ∈ pyFiles, file.path = p.1 ∧ ∃ source tree,
      file.text = some source ∧ py.parse source.toList = some tree ∧ OnlyUnusedGone py tree p.2 := by
  intro h
  have hwritten : (autoFixUnusedImports wordPython [sharedFile] true).written = [("a.py", "\n")] := by
    decide +kernel
  have hparse : wordPython.parse "import os; x = 1\n".toList = some [osImport, assignment 1] := by decide +kernel
  have hnew : wordPython.parse "\n".toList = some [] := by decide +kernel
  obtain ⟨file, hfile, -, source, tree, htext, htree, tree', htree', hwithout⟩ :=
    h wordPython [sharedFile] lawful_wordPython _ (hwritten ▸ List.mem_singleton_self _)
  obtain rfl := List.mem_singleton.mp hfile
  obtain rfl := Option.some.inj htext
  obtain rfl := Option.some.inj (hparse.symm.trans htree)
  obtain rfl := Option.some.inj (hnew.symm.trans htree')
  cases hwithout with
  | drop _ hwithout =>
    cases hwithout with
    | drop hunused _ =>
      obtain ⟨stmt, himport, -⟩ := hunused
      have hnone : importNode wordPython (assignment 1).node = none := by decide +kernel
      rw [hnone] at himport
      cases himport

end Intelliqx.Scripts
