import Intelliqx.Base.SplitOrder
import Intelliqx.Okf.Concept

/-!
# Saving a loaded concept

The rule that closes the frontmatter block takes the blank lines behind it, up
to the last line end before the body. So a body that was loaded never begins
with a blank line, and is found again behind the blank line that
`save_concept` puts in front of it (`body_stable`).
-/

namespace Intelliqx.Okf

open Py Regex

/-- `---` and whitespace -/
def isRule (line : List Char) : Prop := ∃ w, line = ['-', '-', '-'] ++ w ∧ ∀ c ∈ w, isSpace c

/-- What is left of the text behind `---` when the rule has taken all it can. -/
def afterRule : List Char → Option (List Char)
  | [] => some []
  | c :: cs => if isSpace c then (afterRule cs).or (if c = '\n' then some (c :: cs) else none) else none

/-- What is left of a text when the blank lines at its beginning are taken. -/
def dropBlankLines : List Char → List Char
  | [] => []
  | c :: cs => if isSpace c ∧ '\n' ∈ cs.takeWhile isSpace then dropBlankLines cs else c :: cs

/-- What is read of a YAML text that is written between two rules, each on a line of its own. -/
def blockText (yamlText : List Char) : List Char := dropBlankLines ('\n' :: (yamlText ++ ['\n']))

section
variable {before : Option Char} {text rest w y b : List Char}

-- ---------------------------------------------------------------------------
-- The closing rule
-- ---------------------------------------------------------------------------

theorem head?_run_rule (before : Option Char) (text : List Char) :
    ((Regex.seq (.star (.set isSpace)) .lineEnd).run before text).head?.map Match.rest = afterRule text := by
  rw [run_seq_lineEnd, run_star_set]
  induction text with
  | nil => rfl
  | cons c cs ih =>
    rw [List.length_cons, classRuns, afterRule]
    split
    · have hcons : ∀ m : Match, (Match.cons c m).rest = m.rest := fun _ => rfl
      rw [← ih, List.filter_append, List.filter_map, List.head?_append, List.head?_map]
      simp only [Function.comp_def, hcons, Option.map_or, Option.map_map]
      by_cases hnl : c = '\n' <;> simp [hnl, Match.empty]
    · rename_i hc
      have hnl : c ≠ '\n' := by
        rintro rfl
        exact hc (by decide)
      simp [hnl, Match.empty]

/-- Spaces and a newline are taken in front of what is no blank line. -/
theorem afterRule_append (hw : ∀ c ∈ w, isSpace c) (hrest : afterRule rest = none) :
    afterRule (w ++ '\n' :: rest) = some ('\n' :: rest) := by
  induction w with
  | nil => simp [afterRule, hrest, isSpace]
  | cons c w ih =>
    obtain ⟨hc, hw⟩ := List.forall_mem_cons.mp hw
    rw [List.cons_append, afterRule, if_pos hc, ih hw, Option.some_or]

theorem afterRule_eq_some (h : afterRule text = some rest) :
    (rest = [] ∧ ∀ c ∈ text, isSpace c) ∨
      ∃ w u, text = w ++ '\n' :: u ∧ rest = '\n' :: u ∧ (∀ c ∈ w, isSpace c) ∧ afterRule u = none := by
  induction text with
  | nil => cases h; exact .inl ⟨rfl, by simp⟩
  | cons c cs ih =>
    rw [afterRule] at h
    split at h
    · rename_i hc
      cases hcs : afterRule cs with
      | some rest' =>
        rw [hcs, Option.some_or] at h
        cases h
        rcases ih hcs with ⟨hrest, hspace⟩ | ⟨w, u, rfl, hrest, hw, hu⟩
        · exact .inl ⟨hrest, List.forall_mem_cons.mpr ⟨hc, hspace⟩⟩
        · exact .inr ⟨c :: w, u, rfl, hrest, List.forall_mem_cons.mpr ⟨hc, hw⟩, hu⟩
      | none =>
        rw [hcs, Option.none_or] at h
        split at h
        · rename_i hnl
          cases h
          exact .inr ⟨[], cs, by rw [hnl]; rfl, by rw [hnl], by simp, hcs⟩
        · cases h
    · cases h

theorem afterRule_append_none (h : afterRule text = none) (back : List Char) : afterRule (text ++ back) = none := by
  induction text with
  | nil => cases h
  | cons c cs ih =>
    rw [afterRule] at h
    rw [List.cons_append, afterRule]
    split
    · rename_i hc
      rw [if_pos hc] at h
      obtain ⟨hcs, hnl⟩ := Option.or_eq_none_iff.mp h
      rw [ih hcs, Option.none_or]
      simpa using hnl
    · rfl

theorem afterRule_eq_none_iff : afterRule text = none ↔ ∃ c ∈ text.takeWhile (· ≠ '\n'), ¬ isSpace c := by
  induction text with
  | nil => simp [afterRule]
  | cons c cs ih =>
    rw [afterRule]
    split
    · rename_i hc
      by_cases hnl : c = '\n'
      · simp [hnl]
      · simp [hnl, ih, hc]
    · rename_i hc
      have hnl : c ≠ '\n' := by
        rintro rfl
        exact hc (by decide)
      simp [hnl, hc]

-- ---------------------------------------------------------------------------
-- Finding the block
-- ---------------------------------------------------------------------------

theorem rest_first_rule (h : before = none ∨ before = some '\n') (text : List Char) :
    (frontmatterRe.first before (['-', '-', '-'] ++ text)).map Match.rest = afterRule text := by
  rw [Regex.first, frontmatterRe, run_lineStart_seq, if_pos h, run_lit_seq,
    ← head?_run_rule (lastOf before ['-', '-', '-']) text]
  cases (Regex.seq (.star (.set isSpace)) .lineEnd).run (lastOf before ['-', '-', '-']) text with
  | nil => rfl
  | cons m ms => rfl

theorem rule_of_first (h : frontmatterRe.first before text = some m) : (before = none ∨ before = some '\n') ∧
    ∃ behind, text = ['-', '-', '-'] ++ behind ∧ afterRule behind = some m.rest := by
  have hbefore : before = none ∨ before = some '\n' := by
    by_contra hb
    rw [Regex.first, frontmatterRe, run_lineStart_seq, if_neg hb] at h
    cases h
  refine ⟨hbefore, ?_⟩
  by_cases hpre : ['-', '-', '-'] <+: text
  · obtain ⟨behind, rfl⟩ := hpre
    refine ⟨behind, rfl, ?_⟩
    rw [← rest_first_rule hbefore, h]
    rfl
  · rw [Regex.first, frontmatterRe, run_lineStart_seq, if_pos hbefore, run_lit_seq_of_not hpre] at h
    cases h

/-- The body of a block is empty or does not begin with a blank line. -/
theorem body_of_block (h : frontmatterBlock? text = some (fmText, b)) : b = [] ∨ afterRule b = none := by
  rw [frontmatterBlock?] at h
  split at h
  · split at h
    · rename_i close ms hfound
      cases h
      have hm : close ∈ (frontmatterRe.finditer text).matches := by
        rw [Found.matches, hfound]
        simp
      obtain ⟨before, text', hfirst⟩ := exists_first_of_mem hm
      obtain ⟨-, behind, -, hafter⟩ := rule_of_first hfirst
      rcases afterRule_eq_some hafter with ⟨hrest, -⟩ | ⟨w, u, -, hrest, -, hu⟩
      · exact .inl (by rw [hrest]; rfl)
      · exact .inr (by rw [hrest]; exact hu)
    · cases h
  · cases h

-- ---------------------------------------------------------------------------
-- The saved text
-- ---------------------------------------------------------------------------

theorem takeWhile_line {line : List Char} (h : '\n' ∉ line) (z : List Char) :
    (line ++ '\n' :: z).takeWhile (· ≠ '\n') = line := by
  have hline : ∀ c ∈ line, decide (c ≠ '\n') := fun c hc => decide_eq_true fun hnl => h (hnl ▸ hc)
  rw [List.takeWhile_append_of_pos hline]
  simp

theorem isRule_takeWhile (h : afterRule text = some rest) :
    isRule ((['-', '-', '-'] ++ text).takeWhile (· ≠ '\n')) := by
  refine ⟨text.takeWhile (· ≠ '\n'), by simp, ?_⟩
  by_contra hc
  push Not at hc
  rw [afterRule_eq_none_iff.mpr (by simpa using hc)] at h
  cases h

/-- No rule begins in lines that are none. -/
theorem unmatched_of_lines {gap : List Char} (hbegin : gap.head? = some '\n') (hend : gap.getLast? = some '\n')
    (hlines : ∀ x line z, gap = x ++ '\n' :: (line ++ '\n' :: z) → '\n' ∉ line → ¬ isRule line) :
    Unmatched frontmatterRe before gap rest := by
  intro front back hgap hback
  by_contra hsome
  obtain ⟨m, hm⟩ := Option.ne_none_iff_exists'.mp hsome
  obtain ⟨hbefore, behind, hbehind, hafter⟩ := rule_of_first hm
  have hfront : ∃ x, front = x ++ ['\n'] := by
    cases hlast : front.getLast? with
    | none =>
      rw [List.getLast?_eq_none_iff.mp hlast, List.nil_append] at hgap
      rw [hgap] at hbegin
      have hdash := congrArg List.head? hbehind
      rw [List.head?_append, hbegin] at hdash
      simp at hdash
    | some c =>
      rw [lastOf, hlast] at hbefore
      obtain rfl : c = '\n' := by simpa using hbefore
      exact List.getLast?_eq_some_iff.mp hlast
  have hnl : '\n' ∈ back := by
    rw [hgap, List.getLast?_append_of_ne_nil _ hback] at hend
    exact List.mem_of_getLast? hend
  obtain ⟨x, rfl⟩ := hfront
  obtain ⟨line, z, rfl, hline⟩ := List.eq_append_cons_of_mem hnl
  have hrule : isRule line := by
    have := isRule_takeWhile hafter
    rwa [← hbehind, List.append_assoc, List.cons_append, takeWhile_line hline] at this
  exact hlines x line z (by rw [hgap]; simp) hline hrule

/-- The rule that opens the block takes blank lines at its beginning. -/
theorem afterRule_open (y tail : List Char) : ∃ w z, '\n' :: (y ++ ['\n']) = w ++ '\n' :: z ∧
    afterRule ('\n' :: (y ++ '\n' :: ('-' :: tail))) = some ('\n' :: z ++ '-' :: tail) := by
  cases hafter : afterRule ('\n' :: (y ++ '\n' :: ('-' :: tail))) with
  | none => simpa using afterRule_eq_none_iff.mp hafter
  | some rest =>
    rcases afterRule_eq_some hafter with ⟨-, hspace⟩ | ⟨w, u, hw, rfl, hspace, -⟩
    · exact absurd (hspace '-' (by simp)) (by decide)
    · have hsplit : ('\n' :: (y ++ ['\n'])) ++ '-' :: tail = w ++ '\n' :: u := by simpa using hw
      rcases List.append_eq_append_iff.mp hsplit with ⟨a, rfl, hu⟩ | ⟨a, ha, hu⟩
      · cases a with
        | nil => cases hu
        | cons c a =>
          cases hu
          exact absurd (hspace '-' (by simp)) (by decide)
      · cases a with
        | nil => cases hu
        | cons c z =>
          cases hu
          exact ⟨w, z, ha, rfl⟩

theorem mem_lines {x line z : List Char} (h : '\n' :: (y ++ ['\n']) = x ++ '\n' :: (line ++ '\n' :: z))
    (hline : '\n' ∉ line) (hne : line ≠ []) : line ∈ y.splitOn '\n' := by
  have hlines := congrArg (List.splitOn '\n') h
  rw [List.splitOn_cons_eq_if_modifyHead, if_pos (beq_self_eq_true '\n'), List.splitOn_append_cons_self,
    List.splitOn_append_cons_self, List.splitOn_append_cons_self_of_not_mem hline] at hlines
  have hmem : line ∈ [] :: (y.splitOn '\n' ++ [[]]) := by
    rw [show [[]] = List.splitOn '\n' ([] : List Char) from rfl, hlines]
    simp
  simpa [hne] using hmem

theorem afterRule_append_dash (text tail : List Char) : afterRule (text ++ '-' :: tail) =
    if '\n' ∈ text.takeWhile isSpace then some (dropBlankLines text ++ '-' :: tail) else none := by
  induction text with
  | nil => rfl
  | cons c text ih =>
    rw [List.cons_append, afterRule, ih, dropBlankLines]
    by_cases hc : isSpace c
    · by_cases hmem : '\n' ∈ text.takeWhile isSpace
      · simp [hc, hmem]
      · by_cases hnl : c = '\n'
        · simp [hnl, hmem, show isSpace '\n' = true from rfl]
        · simp [hc, hmem, hnl, Ne.symm hnl]
    · simp [hc]

/-- The block of a saved text ends at the rule behind the YAML text. -/
theorem frontmatterBlock?_opened {z behind : List Char} (hyz : '\n' :: (y ++ ['\n']) = w ++ '\n' :: z)
    (hopen : afterRule ('\n' :: (y ++ '\n' :: ('-' :: '-' :: '-' :: behind))) =
      some ('\n' :: z ++ '-' :: '-' :: '-' :: behind))
    (hy : ∀ line ∈ y.splitOn '\n', ¬ isRule line) (hbehind : afterRule behind = some rest) :
    frontmatterBlock? (['-', '-', '-'] ++ '\n' :: (y ++ '\n' :: (['-', '-', '-'] ++ behind))) =
      some ('\n' :: z, dropNewline rest) := by
  obtain ⟨m, hfirst, hrest⟩ := Option.map_eq_some_iff.mp ((rest_first_rule (.inl rfl) _).trans hopen)
  have hend : ('\n' :: z).getLast? = some '\n' := by
    have hlast := congrArg List.getLast? hyz
    rw [List.getLast?_append_of_ne_nil _ (List.cons_ne_nil _ _)] at hlast
    rw [← hlast, ← List.cons_append, List.getLast?_append_of_ne_nil _ (List.cons_ne_nil _ _)]
    rfl
  have hskip : Unmatched frontmatterRe (lastOf none m.text) ('\n' :: z) (['-', '-', '-'] ++ behind) := by
    refine unmatched_of_lines rfl hend fun x line z' hgap hline hrule => ?_
    rw [hgap, ← List.append_assoc] at hyz
    refine hy line (mem_lines hyz hline ?_) hrule
    rintro rfl
    obtain ⟨w, hw, -⟩ := hrule
    cases hw
  obtain ⟨before, hbefore⟩ : ∃ before, lastOf (lastOf none m.text) ('\n' :: z) = before := ⟨_, rfl⟩
  have hnl : before = some '\n' := by rw [← hbefore, lastOf, hend]; rfl
  obtain ⟨close, hfirst', hclose⟩ := Option.map_eq_some_iff.mp
    ((rest_first_rule (.inr hnl) behind).trans hbehind)
  have hfound : (frontmatterRe.finditer (['-', '-', '-'] ++ '\n' :: (y ++ '\n' :: (['-', '-', '-'] ++ behind)))) =
      (((frontmatterRe.finditerFrom (lastOf before close.text) close.rest).add close).prepend ('\n' :: z)).add m := by
    have hopened := finditerFrom_of_some hfirst
    rw [hrest] at hopened
    rw [finditer, ← finditerFrom_of_some hfirst', ← hbefore]
    exact hopened.trans (congrArg (Found.add m) (finditerFrom_append hskip))
  rw [frontmatterBlock?, if_pos (by rfl), hfound, Found.prepend_add, ← hclose]
  rfl

theorem frontmatterBlock?_saved (hy : ∀ line ∈ y.splitOn '\n', ¬ isRule line) {behind : List Char}
    (hbehind : afterRule behind = some rest) :
    frontmatterBlock? (['-', '-', '-'] ++ '\n' :: (y ++ '\n' :: (['-', '-', '-'] ++ behind))) =
      some (blockText y, dropNewline rest) := by
  obtain ⟨w, z, hyz, hopen⟩ := afterRule_open y ('-' :: '-' :: behind)
  have hblock := afterRule_append_dash ('\n' :: (y ++ ['\n'])) ('-' :: '-' :: behind)
  rw [List.cons_append, List.append_assoc, List.singleton_append, hopen, List.takeWhile_cons_of_pos (by rfl),
    if_pos List.mem_cons_self, Option.some_inj, List.append_left_inj] at hblock
  rw [blockText, ← hblock]
  exact frontmatterBlock?_opened hyz hopen hy hbehind

/-- A YAML text that begins with no space is found as it was written, between line ends. -/
theorem blockText_of_not_space (hc : ¬ isSpace c) (y : List Char) :
    blockText (c :: y) = '\n' :: (c :: y ++ ['\n']) := by
  rw [blockText, dropBlankLines, if_neg]
  simp [hc]

/-- A body that does not begin with a blank line is found behind the one put in front of it. -/
theorem afterRule_saved_body (h : b = [] ∨ afterRule b = none) :
    ∃ rest, afterRule ('\n' :: '\n' :: if b.getLast? = some '\n' then b else b ++ ['\n']) = some rest ∧
      dropNewline rest = if b = [] ∨ b.getLast? = some '\n' then b else b ++ ['\n'] := by
  rcases h with rfl | h
  · exact ⟨[], rfl, rfl⟩
  have hb : b ≠ [] := by
    rintro rfl
    cases h
  simp only [hb, false_or]
  have hblank : ∀ c ∈ ['\n'], isSpace c := List.forall_mem_singleton.mpr (by rfl)
  refine ⟨_, afterRule_append hblank ?_, rfl⟩
  split
  · exact h
  · exact afterRule_append_none h _

theorem toList_savedText (y body : String) : (savedText y body).toList =
    ['-', '-', '-'] ++ '\n' :: (y.toList ++ '\n' :: (['-', '-', '-'] ++ '\n' :: '\n' ::
      if body.toList.getLast? = some '\n' then body.toList else body.toList ++ ['\n'])) := by
  rw [savedText, String.toList_append, String.toList_append, String.toList_append, apply_ite String.toList,
    String.toList_append]
  simp

theorem parse_savedText {safeLoad : SafeLoad} {y b : String} (hy : ∀ line ∈ y.toList.splitOn '\n', ¬ isRule line)
    (hb : b.toList = [] ∨ afterRule b.toList = none) : parseFrontmatterAndBody safeLoad (savedText y b) =
      (safeLoad (.ofList (blockText y.toList))).map fun parsed =>
        (asMapping parsed, if b = "" ∨ b.toList.getLast? = some '\n' then b else b ++ "\n") := by
  obtain ⟨rest, hafter, hrest⟩ := afterRule_saved_body hb
  have htext := toList_savedText y b
  have hbom : (savedText y b).toList.dropWhile (fun c => c = '\ufeff') = (savedText y b).toList := by
    rw [htext]
    rfl
  have hbody : String.ofList (if b.toList = [] ∨ b.toList.getLast? = some '\n' then b.toList
      else b.toList ++ ['\n']) = if b = "" ∨ b.toList.getLast? = some '\n' then b else b ++ "\n" := by
    rw [apply_ite String.ofList, String.ofList_append, String.ofList_toList]
    simp
  rw [parseFrontmatterAndBody]
  simp only [hbom]
  rw [htext, frontmatterBlock?_saved hy hafter, hrest]
  simp only [hbody]

/-- The body of a loaded concept is stable under saving, for every YAML text without a line that is a rule
that is read back without an exception. -/
theorem body_stable (safeLoad : SafeLoad) (text y b : String) (parsed : Mapping) {v : Option PyValue}
    (hfound : frontmatterBlock? (text.toList.dropWhile fun c => c = '\ufeff') ≠ none)
    (hparse : parseFrontmatterAndBody safeLoad text = .ok (parsed, b))
    (hy : ∀ line ∈ y.toList.splitOn '\n', ¬ isRule line)
    (hload : safeLoad (.ofList (blockText y.toList)) = .ok v) :
    parseFrontmatterAndBody safeLoad (savedText y b) =
      .ok (asMapping v, if b = "" ∨ b.toList.getLast? = some '\n' then b else b ++ "\n") := by
  obtain ⟨⟨fmText, body⟩, hblock⟩ := Option.ne_none_iff_exists'.mp hfound
  have hbody : body = b.toList := by
    rw [parseFrontmatterAndBody] at hparse
    simp only [hblock] at hparse
    cases hold : safeLoad (.ofList fmText) with
    | error e => rw [hold] at hparse; cases hparse
    | ok v => rw [hold] at hparse; cases hparse; exact String.toList_ofList.symm
  subst hbody
  rw [parse_savedText hy (body_of_block hblock), hload]
  rfl

/-- `yaml.safe_load` of one mapping, and of a date in the month 13, which is no `YAMLError`. -/
def loadWhen : SafeLoad := fun text =>
  if text = "\ntype: doc\n" then .ok (some (.dict [(.str "type", .str "doc")]))
  else .error ⟨"ValueError", "month must be in 1..12, not 13"⟩

theorem parse_typed :
    frontmatterBlock? ("---\ntype: doc\n---\n\n a".toList.dropWhile fun c => c = '\ufeff') ≠ none ∧
      parseFrontmatterAndBody loadWhen "---\ntype: doc\n---\n\n a" =
        .ok (.ofList [(.str "type", .str "doc")], " a") := by
  have hblock : frontmatterBlock? ("---\ntype: doc\n---\n\n a".toList.dropWhile fun c => c = '\ufeff') =
      some ("\ntype: doc\n".toList, [' ', 'a']) := by decide +kernel
  refine ⟨by rw [hblock]; decide, ?_⟩
  rw [parseFrontmatterAndBody]
  simp only [hblock]
  rfl

/-- A body that begins with a space and does not end in a newline. -/
theorem indented_body_stable : parseFrontmatterAndBody loadWhen (savedText "type: doc" " a") =
    .ok (.ofList [(.str "type", .str "doc")], " a\n") := by
  have hy : ∀ line ∈ "type: doc".toList.splitOn '\n', ¬ isRule line := by
    rw [show "type: doc".toList.splitOn '\n' = ["type: doc".toList] by decide, List.forall_mem_singleton]
    rintro ⟨w, hw, -⟩
    have hhead : some 't' = some '-' := congrArg List.head? hw
    exact absurd hhead (by decide)
  have h := body_stable loadWhen _ "type: doc" " a" _ parse_typed.1 parse_typed.2 hy (if_pos (by decide +kernel))
  rw [if_neg (by decide)] at h
  exact h

/-- A body does not come back where the YAML text raises. -/
theorem impossible_date_raises :
    frontmatterBlock? ("---\ntype: doc\n---\n\n a".toList.dropWhile fun c => c = '\ufeff') ≠ none ∧
    parseFrontmatterAndBody loadWhen "---\ntype: doc\n---\n\n a" =
      .ok (.ofList [(.str "type", .str "doc")], " a") ∧
    (∀ line ∈ "type: doc\nwhen: 2024-13-45".toList.splitOn '\n', ¬ isRule line) ∧
    parseFrontmatterAndBody loadWhen (savedText "type: doc\nwhen: 2024-13-45" " a") =
      .error ⟨"ValueError", "month must be in 1..12, not 13"⟩ := by
  have hy : ∀ line ∈ "type: doc\nwhen: 2024-13-45".toList.splitOn '\n', ¬ isRule line := by
    rw [show "type: doc\nwhen: 2024-13-45".toList.splitOn '\n' =
      ["type: doc".toList, "when: 2024-13-45".toList] by decide]
    have hheads : ∀ line ∈ ["type: doc".toList, "when: 2024-13-45".toList], line.head? ≠ some '-' := by decide
    rintro line hline ⟨w, rfl, -⟩
    exact hheads _ hline rfl
  refine ⟨parse_typed.1, parse_typed.2, hy, ?_⟩
  rw [parse_savedText hy (.inr (by decide))]
  have hload : loadWhen (.ofList (blockText "type: doc\nwhen: 2024-13-45".toList)) =
      .error ⟨"ValueError", "month must be in 1..12, not 13"⟩ := if_neg (by decide +kernel)
  rw [hload]
  rfl

end

end Intelliqx.Okf
