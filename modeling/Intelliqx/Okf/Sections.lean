import Intelliqx.Okf.Concept

/-!
# Splitting a body into sections

The headings are the lines that begin with `# ` and go on. Sections are the
text between two of them, so up to whitespace they make up the whole body
(`sections_partition`).
-/

namespace Intelliqx.Okf

open Py Regex

/-- `# ` and at least one character -/
def isHeading (line : List Char) : Bool := ['#', ' '].isPrefixOf line && decide (2 < line.length)

def headingLines (body : List Char) : List (List Char) := (body.splitOn '\n').filter isHeading

/-- The text without its whitespace. -/
def squash (text : List Char) : List Char := text.filter fun c => !isSpace c

/-- The text of a section that a heading line started. -/
def OKFSection.text (s : OKFSection) : List Char := ['#', ' '] ++ s.heading.toList ++ s.body.toList

section
variable {before : Option Char} {text line rest h : List Char} {m : Match}

-- ---------------------------------------------------------------------------
-- Heading lines
-- ---------------------------------------------------------------------------

theorem isHeading_append (hh : h ≠ []) : isHeading (['#', ' '] ++ h) = true := by
  have hlen := List.length_pos_of_ne_nil hh
  simp only [isHeading, List.length_append, Bool.and_eq_true, decide_eq_true_eq]
  exact ⟨by simp, by simpa using hlen⟩

theorem isHeading_iff : isHeading line = true ↔ ∃ h, line = ['#', ' '] ++ h ∧ h ≠ [] := by
  constructor
  · intro hline
    simp only [isHeading, Bool.and_eq_true, List.isPrefixOf_iff_prefix, decide_eq_true_eq] at hline
    obtain ⟨⟨h, rfl⟩, hlen⟩ := hline
    refine ⟨h, rfl, ?_⟩
    rintro rfl
    simp at hlen
  · rintro ⟨h, rfl, hh⟩
    exact isHeading_append hh

theorem not_of_line_end (hrest : rest = [] ∨ rest.head? = some '\n') : ∀ c ∈ rest.head?, ¬ decide (c ≠ '\n') := by
  intro c hc
  rcases hrest with rfl | hrest
  · cases hc
  · rw [hrest] at hc
    cases hc
    decide

/-- A heading takes its whole line. -/
theorem first_heading (hbefore : before = none ∨ before = some '\n') (hh : h ≠ []) (hnl : '\n' ∉ h)
    (hrest : rest = [] ∨ rest.head? = some '\n') :
    sectionRe.first before (['#', ' '] ++ (h ++ rest)) = some ⟨['#', ' '] ++ h, rest, [("1", h)]⟩ := by
  have hclass : ∀ c ∈ h, decide (c ≠ '\n') := fun c hc => decide_eq_true fun heq => hnl (heq ▸ hc)
  obtain ⟨shorter, hrun⟩ := run_plus_set (lastOf before ['#', ' ']) hclass hh (not_of_line_end hrest)
  rw [Regex.first, sectionRe, run_lineStart_seq, if_pos hbefore, run_lit_seq, run_seq_lineEnd, run_group, hrun,
    List.map_cons, List.filter_cons_of_pos (by simpa using hrest)]
  rfl

theorem first_heading_eq_none (hempty : text = [] ∨ text.head? = some '\n') :
    sectionRe.first before (['#', ' '] ++ text) = none := by
  rw [Regex.first, sectionRe, run_lineStart_seq]
  split
  · rw [run_lit_seq, run_seq_lineEnd, run_group, run_plus_set_of_not (not_of_line_end hempty)]
    rfl
  · rfl

/-- The first line, and the rest from its end on. -/
theorem exists_line (text : List Char) :
    ∃ line rest, text = line ++ rest ∧ '\n' ∉ line ∧ (rest = [] ∨ rest.head? = some '\n') := by
  refine ⟨text.takeWhile (· ≠ '\n'), text.dropWhile (· ≠ '\n'), List.takeWhile_append_dropWhile.symm, ?_, ?_⟩
  · intro h
    simpa using List.mem_takeWhile_imp h
  · cases hrest : text.dropWhile (· ≠ '\n') with
    | nil => exact .inl rfl
    | cons c cs =>
      have hc := List.head?_dropWhile_not (· ≠ '\n') text
      rw [hrest] at hc
      exact .inr (by simpa using hc)

theorem heading_of_first (hfirst : sectionRe.first before text = some m) :
    (before = none ∨ before = some '\n') ∧ ∃ h, h ≠ [] ∧ '\n' ∉ h ∧
      (m.rest = [] ∨ m.rest.head? = some '\n') ∧ m.text = ['#', ' '] ++ h ∧ m.group "1" = h := by
  have hbefore : before = none ∨ before = some '\n' := by
    by_contra hb
    rw [Regex.first, sectionRe, run_lineStart_seq, if_neg hb] at hfirst
    cases hfirst
  refine ⟨hbefore, ?_⟩
  by_cases hpre : ['#', ' '] <+: text
  · obtain ⟨behind, rfl⟩ := hpre
    obtain ⟨h, rest, rfl, hnl, hrest⟩ := exists_line behind
    by_cases hh : h = []
    · rw [hh, List.nil_append, first_heading_eq_none hrest] at hfirst
      cases hfirst
    · rw [first_heading hbefore hh hnl hrest] at hfirst
      cases hfirst
      exact ⟨h, hh, hnl, hrest, rfl, rfl⟩
  · rw [Regex.first, sectionRe, run_lineStart_seq, if_pos hbefore, run_lit_seq_of_not hpre] at hfirst
    cases hfirst

/-- The lines that begin in the text. -/
def linesFrom (before : Option Char) (text : List Char) : List (List Char) :=
  if before = none ∨ before = some '\n' then text.splitOn '\n' else (text.splitOn '\n').tail

theorem linesFrom_start (h : before = none ∨ before = some '\n') : linesFrom before text = text.splitOn '\n' :=
  if_pos h

theorem linesFrom_inside (hc : c ≠ '\n') : linesFrom (some c) text = (text.splitOn '\n').tail :=
  if_neg (by simpa using hc)

theorem splitOn_line (hnl : '\n' ∉ line) (hrest : rest = [] ∨ rest.head? = some '\n') :
    (line ++ rest).splitOn '\n' = line :: (rest.splitOn '\n').tail := by
  rcases hrest with rfl | hrest
  · rw [List.append_nil, List.splitOn_eq_singleton hnl]
    rfl
  · obtain ⟨cs, rfl⟩ := List.head?_eq_some_iff.mp hrest
    rw [List.splitOn_append_cons_self_of_not_mem hnl, List.splitOn_cons_eq_if_modifyHead,
      if_pos (beq_self_eq_true '\n'), List.tail_cons]

/-- Where no heading begins, the heading lines are those behind the character. -/
theorem linesFrom_cons (c : Char) (cs : List Char) (hnone : sectionRe.first before (c :: cs) = none) :
    (linesFrom before (c :: cs)).filter isHeading = (linesFrom (some c) cs).filter isHeading := by
  by_cases hc : c = '\n'
  · subst hc
    rw [linesFrom_start (.inr rfl), linesFrom, List.splitOn_cons_eq_if_modifyHead,
      if_pos (beq_self_eq_true '\n')]
    split <;> rfl
  · obtain ⟨line, rest, rfl, hnl, hrest⟩ := exists_line cs
    have hcons : '\n' ∉ c :: line := by simp [Ne.symm hc, hnl]
    rw [linesFrom_inside hc, splitOn_line hnl hrest, linesFrom, ← List.cons_append, splitOn_line hcons hrest]
    split
    · rename_i hbefore
      refine List.filter_cons_of_neg fun hline => ?_
      obtain ⟨h, hh, hne⟩ := isHeading_iff.mp hline
      rw [← List.cons_append, hh, List.append_assoc, first_heading hbefore hne ?_ hrest] at hnone
      · cases hnone
      · rw [hh] at hcons
        exact fun hmem => hcons (List.mem_append_right _ hmem)
    · rfl

theorem lastOf_append (before : Option Char) (hne : h ≠ []) (front : List Char) :
    ∃ c ∈ h, lastOf before (front ++ h) = some c := by
  obtain ⟨c, hc⟩ := Option.isSome_iff_exists.mp (List.getLast?_isSome.mpr hne)
  refine ⟨c, List.mem_of_getLast? hc, ?_⟩
  rw [lastOf, List.getLast?_append_of_ne_nil _ hne, hc, Option.some_or]

/-- The matches are the heading lines. -/
theorem headings_finditerFrom (before : Option Char) (text : List Char) :
    (sectionRe.finditerFrom before text).matches.map (·.group "1") =
      ((linesFrom before text).filter isHeading).map (List.drop 2) := by
  refine finditerFrom_induction (P := fun before text found => found.matches.map (·.group "1") =
    ((linesFrom before text).filter isHeading).map (List.drop 2)) ?_ ?_ ?_ before text
  · intro before
    rw [linesFrom]
    split <;> rfl
  · intro before c cs found hfirst ih
    rw [Found.matches_push, ih, linesFrom_cons c cs hfirst]
  · intro before text m found hfirst ih
    obtain ⟨hbefore, h, hh, hnl, hrest, htext, hgroup⟩ := heading_of_first hfirst
    obtain ⟨c, hc, hlast⟩ := lastOf_append before hh ['#', ' ']
    have hinside : c ≠ '\n' := fun heq => hnl (heq ▸ hc)
    rw [Found.matches_add, List.map_cons, hgroup, ih, ← text_append_rest hfirst, htext, hlast,
      linesFrom_inside hinside, linesFrom_start hbefore, splitOn_line (by simpa using hnl) hrest,
      List.filter_cons_of_pos (isHeading_append hh)]
    rfl

-- ---------------------------------------------------------------------------
-- Whitespace
-- ---------------------------------------------------------------------------

@[simp] theorem squash_append (text text' : List Char) : squash (text ++ text') = squash text ++ squash text' :=
  List.filter_append _ _

theorem squash_dropWhile {p : Char → Bool} (hp : ∀ c, p c → isSpace c) (text : List Char) :
    squash (text.dropWhile p) = squash text := by
  have hnil : squash (text.takeWhile p) = [] := by
    rw [squash, List.filter_eq_nil_iff]
    intro c hc
    simpa using hp c (List.mem_takeWhile_imp hc)
  conv_rhs => rw [← List.takeWhile_append_dropWhile (p := p) (l := text), squash_append, hnil, List.nil_append]

theorem squash_rdropWhile {p : Char → Bool} (hp : ∀ c, p c → isSpace c) (text : List Char) :
    squash (text.rdropWhile p) = squash text := by
  have hrev : ∀ l : List Char, squash l.reverse = (squash l).reverse := fun _ => List.filter_reverse
  rw [List.rdropWhile, hrev, squash_dropWhile hp, hrev, List.reverse_reverse]

theorem squash_strip (text : List Char) : squash (strip (.ofList text)).toList = squash text := by
  rw [strip, String.toList_ofList, String.toList_ofList, squash_rdropWhile fun _ => id, squash_dropWhile fun _ => id]

theorem isSpace_newline (c : Char) (h : decide (c = '\n') = true) : isSpace c := by
  rw [of_decide_eq_true h]
  decide

theorem squash_rstripNewlines (text : List Char) : squash (rstripNewlines text) = squash text :=
  squash_rdropWhile isSpace_newline text

theorem squash_stripNewlines (text : List Char) : squash (stripNewlines text) = squash text := by
  rw [stripNewlines, squash_rstripNewlines, squash_dropWhile isSpace_newline]

-- ---------------------------------------------------------------------------
-- The sections
-- ---------------------------------------------------------------------------

/-- The text before the first match. -/
def headGap : List (List Char × Match) → List Char → List Char
  | (gap, _) :: _, _ => gap
  | [], tail => tail

theorem sectionsOf_cons (gap : List Char) (m : Match) (ms : List (List Char × Match)) (tail : List Char) :
    sectionsOf ((gap, m) :: ms) tail =
      ⟨strip (.ofList (m.group "1")), .ofList (stripNewlines (headGap ms tail))⟩ :: sectionsOf ms tail := by
  cases ms <;> rfl

theorem headings_sectionsOf (ms : List (List Char × Match)) (tail : List Char) :
    (sectionsOf ms tail).map OKFSection.heading = ms.map fun e => strip (.ofList (e.2.group "1")) := by
  induction ms with
  | nil => rfl
  | cons e ms ih => rw [sectionsOf_cons, List.map_cons, ih, List.map_cons]

/-- The text before the first match and the sections make up the text. -/
theorem squash_sectionsOf (ms : List (List Char × Match)) (tail : List Char)
    (hms : ∀ e ∈ ms, e.2.text = ['#', ' '] ++ e.2.group "1") :
    squash (headGap ms tail ++ (sectionsOf ms tail).flatMap OKFSection.text) = squash (Found.all (ms, tail)) := by
  induction ms with
  | nil => simp [headGap, sectionsOf, Found.all, Found.replace]
  | cons e ms ih =>
    obtain ⟨gap, m⟩ := e
    obtain ⟨hm, hms⟩ := List.forall_mem_cons.mp hms
    have hrest := ih hms
    rw [squash_append] at hrest
    have hall : Found.all ((gap, m) :: ms, tail) = gap ++ (m.text ++ Found.all (ms, tail)) := by
      simp [Found.all, Found.replace]
    rw [show headGap ((gap, m) :: ms) tail = gap from rfl, sectionsOf_cons, hall, List.flatMap_cons, hm]
    simp only [OKFSection.text, squash_append, squash_strip, String.toList_ofList, squash_stripNewlines,
      List.append_assoc, hrest]

/-- Every body is cut into at most one section before the first heading and one for each heading line, and
up to whitespace the sections are the body. -/
theorem sections_partition (body : String) : ∃ intro headed, splitSections body = intro ++ headed ∧
    intro.length ≤ 1 ∧ (∀ s ∈ intro, s.heading = "") ∧
    headed.map OKFSection.heading = (headingLines body.toList).map (fun line => strip (.ofList (line.drop 2))) ∧
    squash (intro.flatMap (fun s => s.body.toList) ++ headed.flatMap OKFSection.text) = squash body.toList := by
  have hheadings := headings_finditerFrom none body.toList
  have hall : (sectionRe.finditer body.toList).all = body.toList := all_finditerFrom sectionRe none body.toList
  have htexts : ∀ e ∈ (sectionRe.finditer body.toList).1, e.2.text = ['#', ' '] ++ e.2.group "1" := by
    intro e he
    obtain ⟨before, text, hfirst⟩ := exists_first_of_mem (List.mem_map_of_mem he)
    obtain ⟨-, h, -, -, -, htext, hgroup⟩ := heading_of_first hfirst
    rw [htext, hgroup]
  have hsquash := squash_sectionsOf _ (sectionRe.finditer body.toList).2 htexts
  have hheaded : ((sectionsOf (sectionRe.finditer body.toList).1 (sectionRe.finditer body.toList).2).map
      OKFSection.heading) = (headingLines body.toList).map (fun line => strip (.ofList (line.drop 2))) := by
    have := congrArg (List.map fun h => strip (.ofList h)) hheadings
    rw [linesFrom_start (.inl rfl), Found.matches, List.map_map, List.map_map, List.map_map] at this
    rw [headings_sectionsOf]
    exact this
  rw [hall] at hsquash
  unfold splitSections
  cases hfound : (sectionRe.finditer body.toList).1 with
  | nil =>
    rw [hfound] at hheaded hsquash
    exact ⟨[⟨"", body⟩], [], by simp only [hfound]; rfl, Nat.le_refl 1, by simp, hheaded, by simp⟩
  | cons e ms =>
    obtain ⟨gap, m⟩ := e
    rw [hfound] at hheaded hsquash
    refine ⟨if gap ≠ [] then [⟨"", .ofList (rstripNewlines gap)⟩] else [], _, by simp only [hfound], ?_, ?_, hheaded,
      ?_⟩
    · split <;> simp
    · intro s hs
      split at hs
      · rw [List.mem_singleton.mp hs]
      · cases hs
    · rw [← hsquash, squash_append, squash_append]
      congr 1
      split
      · simp [headGap, squash_rstripNewlines]
      · rename_i hgap
        simp [headGap, not_not.mp hgap]

end

end Intelliqx.Okf
