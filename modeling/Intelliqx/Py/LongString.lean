import Intelliqx.Py.Text

/-!
# Long strings

A string literal between three quotes, read as the tokenizer reads it: one
character after the other, counting the quotes in a row, until there are three.
`scanLong_quoted` says which texts such quotes contain.
-/

namespace Intelliqx.Py

/-- Behind that many quotes in a row, or behind a backslash. -/
inductive LongState
  | quotes (n : Nat)
  | escaped
  deriving DecidableEq, Repr

namespace LongState

def next : LongState → Char → LongState
  | .escaped, _ => .quotes 0
  | .quotes n, c => if c = '"' then .quotes (n + 1) else if c = '\\' then .escaped else .quotes 0

def run (st : LongState) (text : List Char) : LongState := text.foldl next st

@[simp] theorem run_nil (st : LongState) : st.run [] = st := rfl

@[simp] theorem run_cons (st : LongState) : st.run (c :: text) = (st.next c).run text := rfl

theorem run_append (st : LongState) : st.run (text ++ text') = (st.run text).run text' := by
  simp [run]

theorem run_concat (st : LongState) : st.run (text ++ [c]) = (st.run text).next c := by
  simp [run]

end LongState

open LongState

def nul : Char := '\x00'

/-- What is left behind the closing quotes. Source text has no NUL. -/
def scanLong : LongState → List Char → Option (List Char)
  | .quotes 3, rest => some rest
  | _, [] => none
  | st, c :: rest => if c = nul then none else scanLong (st.next c) rest

@[simp] theorem scanLong_closed : scanLong (.quotes 3) text = some text := by
  cases text <;> rfl

theorem scanLong_nil (h : st ≠ .quotes 3) : scanLong st [] = none := by
  unfold scanLong
  split <;> simp_all

theorem scanLong_cons (h : st ≠ .quotes 3) :
    scanLong st (c :: text) = if c = nul then none else scanLong (st.next c) text := by
  conv_lhs => unfold scanLong
  split <;> simp_all

/-- The text is a literal up to its closing quotes: they are three at its end for the first time. -/
structure Closes (st : LongState) (literal : List Char) : Prop where
  source : nul ∉ literal
  closed : st.run literal = .quotes 3
  first : ∀ initial, initial <+: literal → st.run initial = .quotes 3 → initial = literal

theorem closes_closed : Closes (.quotes 3) literal ↔ literal = [] := by
  constructor
  · intro h
    exact (h.first [] List.nil_prefix rfl).symm
  · rintro rfl
    exact ⟨by simp, rfl, fun _ hinitial _ => List.prefix_nil.mp hinitial⟩

theorem closes_cons (h : st ≠ .quotes 3) :
    Closes st (c :: literal) ↔ c ≠ nul ∧ Closes (st.next c) literal := by
  constructor
  · intro hc
    refine ⟨fun heq => hc.source (heq ▸ List.mem_cons_self), ?_, hc.closed, ?_⟩
    · exact fun hmem => hc.source (List.mem_cons_of_mem _ hmem)
    · intro initial hinitial hrun
      have hcons := hc.first (c :: initial) (List.cons_prefix_cons.mpr ⟨rfl, hinitial⟩) hrun
      exact (List.cons_eq_cons.mp hcons).2
  · rintro ⟨hnul, hc⟩
    refine ⟨?_, hc.closed, ?_⟩
    · rw [List.mem_cons, not_or]
      exact ⟨hnul.symm, hc.source⟩
    · intro initial hinitial hrun
      rcases List.prefix_cons_iff.mp hinitial with rfl | ⟨tail, rfl, htail⟩
      · exact absurd hrun h
      · rw [hc.first tail htail hrun]

theorem scanLong_eq_some_iff :
    scanLong st text = some rest ↔ ∃ literal, text = literal ++ rest ∧ Closes st literal := by
  induction text generalizing st with
  | nil =>
    by_cases hst : st = .quotes 3
    · subst hst
      simp [closes_closed, eq_comm]
    · rw [scanLong_nil hst]
      constructor
      · rintro ⟨⟩
      · rintro ⟨literal, htext, hc⟩
        obtain ⟨rfl, -⟩ := List.append_eq_nil_iff.mp htext.symm
        exact absurd hc.closed hst
  | cons c text ih =>
    by_cases hst : st = .quotes 3
    · subst hst
      simp [closes_closed, eq_comm]
    · rw [scanLong_cons hst]
      constructor
      · intro h
        split at h
        · cases h
        · rename_i hnul
          obtain ⟨literal, rfl, hc⟩ := ih.mp h
          exact ⟨c :: literal, rfl, (closes_cons hst).mpr ⟨hnul, hc⟩⟩
      · rintro ⟨literal, htext, hc⟩
        cases literal with
        | nil => exact absurd hc.closed hst
        | cons d literal =>
          obtain ⟨rfl, rfl⟩ := List.cons_eq_cons.mp htext
          obtain ⟨hnul, hc⟩ := (closes_cons hst).mp hc
          rw [if_neg hnul]
          exact ih.mpr ⟨literal, rfl, hc⟩

theorem scanLong_append (h : scanLong st text = some rest) (after : List Char) :
    scanLong st (text ++ after) = some (rest ++ after) := by
  obtain ⟨literal, rfl, hc⟩ := scanLong_eq_some_iff.mp h
  exact scanLong_eq_some_iff.mpr ⟨literal, List.append_assoc .., hc⟩

-- ---------------------------------------------------------------------------
-- What three quotes contain
-- ---------------------------------------------------------------------------

/-- The next character is escaped: the text ends in a backslash that is not escaped itself. -/
def leavesEscape (text : List Char) : Bool := text.foldl (fun escape c => !escape && c == '\\') false

@[simp] theorem leavesEscape_concat : leavesEscape (text ++ [c]) = (!leavesEscape text && c == '\\') := by
  simp [leavesEscape]

def closingQuotes : List Char := ['"', '"', '"']

/-- Nothing in the text ends the literal it is put into: its quotes by three
and the quote at its end are escaped, and it does not escape the quote behind. -/
structure Contained (text : List Char) : Prop where
  source : nul ∉ text
  inside : ∀ before after, text = before ++ closingQuotes ++ after → leavesEscape before
  last : ∀ before, text = before ++ ['"'] → leavesEscape before
  complete : leavesEscape text = false

theorem contained_nil : Contained [] where
  source := by simp
  inside _ _ h := by simp [closingQuotes] at h
  last _ h := by simp at h
  complete := rfl

theorem run_eq_escaped : (LongState.quotes 0).run text = .escaped ↔ leavesEscape text = true := by
  induction text using List.reverseRecOn with
  | nil => simp [leavesEscape]
  | append_singleton text c ih =>
    rw [run_concat, leavesEscape_concat]
    cases hrun : (LongState.quotes 0).run text with
    | escaped => simp [next, ih.mp hrun]
    | quotes n =>
      have hescape : leavesEscape text = false := by
        rw [← Bool.not_eq_true, ← ih, hrun]
        nofun
      rw [next, hescape]
      split
      · rename_i hc
        simp [hc]
      · split <;> simp_all

/-- Behind a quote that counts there was one quote less. -/
theorem run_eq_quotes_succ : (LongState.quotes 0).run text = .quotes (n + 1) ↔
    ∃ before, text = before ++ ['"'] ∧ (LongState.quotes 0).run before = .quotes n := by
  constructor
  · intro h
    cases text using List.reverseRecOn with
    | nil => cases h
    | append_singleton before c =>
      rw [run_concat] at h
      cases hrun : (LongState.quotes 0).run before with
      | escaped => rw [hrun] at h; cases h
      | quotes m =>
        rw [hrun, next] at h
        split at h
        · rename_i hc
          cases h
          exact ⟨before, by rw [hc], hrun⟩
        · split at h <;> cases h
  · rintro ⟨before, rfl, hrun⟩
    rw [run_concat, hrun]
    rfl

/-- Before the third quote there are at most two. -/
theorem run_lt_three (h : ∀ initial, initial <+: text → (LongState.quotes 0).run initial ≠ .quotes 3)
    (hrun : (LongState.quotes 0).run text = .quotes n) : n < 3 := by
  induction n generalizing text with
  | zero => omega
  | succ n ih =>
    obtain ⟨before, rfl, hbefore⟩ := run_eq_quotes_succ.mp hrun
    have hn := ih (fun initial hinitial => h initial (hinitial.trans (List.prefix_append _ _))) hbefore
    have hne : n + 1 ≠ 3 := fun heq => h _ (List.prefix_refl _) (heq ▸ hrun)
    omega

theorem Contained.run (h : Contained text) : (LongState.quotes 0).run text = .quotes 0 := by
  cases hrun : (LongState.quotes 0).run text with
  | escaped =>
    have hescape := run_eq_escaped.mp hrun
    rw [h.complete] at hescape
    cases hescape
  | quotes n =>
    cases n with
    | zero => rfl
    | succ n =>
      obtain ⟨before, rfl, hbefore⟩ := run_eq_quotes_succ.mp hrun
      have hescape := run_eq_escaped.mpr (h.last before rfl)
      rw [hbefore] at hescape
      cases hescape

/-- Behind the third quote. -/
theorem run_eq_three : (LongState.quotes 0).run text = .quotes 3 ↔
    ∃ before, text = before ++ closingQuotes ∧ (LongState.quotes 0).run before = .quotes 0 := by
  constructor
  · intro h
    obtain ⟨two, rfl, htwo⟩ := run_eq_quotes_succ.mp h
    obtain ⟨one, rfl, hone⟩ := run_eq_quotes_succ.mp htwo
    obtain ⟨before, rfl, hbefore⟩ := run_eq_quotes_succ.mp hone
    exact ⟨before, by simp [closingQuotes], hbefore⟩
  · rintro ⟨before, rfl, h⟩
    rw [run_append, h]
    rfl

theorem Contained.closes (h : Contained text) : Closes (.quotes 0) (text ++ closingQuotes) := by
  refine ⟨?_, run_eq_three.mpr ⟨text, rfl, h.run⟩, ?_⟩
  · rw [List.mem_append, not_or]
    exact ⟨h.source, by decide⟩
  · intro initial hinitial hrun
    have hsplit : text ++ closingQuotes = text ++ ['"'] ++ ['"'] ++ ['"'] := by simp [closingQuotes]
    rw [hsplit] at hinitial
    rcases List.prefix_concat_iff.mp hinitial with hwhole | hinitial
    · rw [hwhole, hsplit]
    -- a third quote that comes earlier is one of the text itself
    rcases List.prefix_concat_iff.mp hinitial with rfl | hinitial
    · rw [run_concat, run_concat, h.run] at hrun
      cases hrun
    rcases List.prefix_concat_iff.mp hinitial with rfl | hinitial
    · rw [run_concat, h.run] at hrun
      cases hrun
    obtain ⟨before, rfl, hbefore⟩ := run_eq_three.mp hrun
    obtain ⟨after, hafter⟩ := hinitial
    have hescape := run_eq_escaped.mpr (h.inside before after hafter.symm)
    rw [hbefore] at hescape
    cases hescape

theorem Closes.contained (h : Closes (.quotes 0) (text ++ closingQuotes)) : Contained text := by
  obtain ⟨text', htext, hrun⟩ := run_eq_three.mp h.closed
  obtain rfl := List.append_cancel_right htext
  have hearly : ∀ initial, initial <+: text → (LongState.quotes 0).run initial ≠ .quotes 3 := by
    intro initial hinitial hthree
    have heq := h.first initial (hinitial.trans (List.prefix_append _ _)) hthree
    have hlen := hinitial.length_le
    rw [heq, List.length_append] at hlen
    exact absurd hlen (by simp [closingQuotes])
  refine ⟨fun hmem => h.source (List.mem_append_left _ hmem), ?_, ?_, ?_⟩
  · rintro before after rfl
    rw [← run_eq_escaped]
    cases hbefore : (LongState.quotes 0).run before with
    | escaped => rfl
    | quotes n =>
      have hthree : (LongState.quotes 0).run (before ++ closingQuotes) = .quotes (n + 3) := by
        rw [run_append, hbefore]
        rfl
      have hlt := run_lt_three (fun b hb => hearly b (hb.trans (List.prefix_append _ _))) hthree
      omega
  · rintro before rfl
    rw [← run_eq_escaped]
    cases hbefore : (LongState.quotes 0).run before with
    | escaped => rfl
    | quotes n =>
      rw [run_concat, hbefore] at hrun
      cases hrun
  · rw [← Bool.not_eq_true, ← run_eq_escaped, hrun]
    nofun

theorem scanLong_quoted (text after : List Char) :
    scanLong (.quotes 0) (text ++ closingQuotes ++ after) = some after ↔ Contained text := by
  rw [scanLong_eq_some_iff]
  constructor
  · rintro ⟨literal, hliteral, h⟩
    rw [← List.append_cancel_right hliteral] at h
    exact h.contained
  · intro h
    exact ⟨_, rfl, h.closes⟩

-- ---------------------------------------------------------------------------
-- Indentation
-- ---------------------------------------------------------------------------

/-- Spaces have come in behind some line breaks. -/
inductive Spaced : List Char → List Char → Prop
  | nil : Spaced [] []
  | cons (c : Char) : Spaced text text' → Spaced (c :: text) (c :: text')
  | indent (n : Nat) : isLineBreak c = true → Spaced text text' →
      Spaced (c :: text) (c :: (List.replicate n ' ' ++ text'))

theorem Spaced.append (text : List Char) (h : Spaced rest rest') : Spaced (text ++ rest) (text ++ rest') := by
  induction text with
  | nil => exact h
  | cons c text ih => exact .cons c ih

theorem ne_of_isLineBreak (h : isLineBreak c = true) : c ≠ '"' ∧ c ≠ '\\' ∧ c ≠ ' ' ∧ c ≠ nul := by
  refine ⟨?_, ?_, ?_, ?_⟩ <;> rintro rfl <;> revert h <;> decide

theorem next_of_isLineBreak (h : isLineBreak c = true) (st : LongState) : st.next c = .quotes 0 := by
  obtain ⟨hquote, hbackslash, -⟩ := ne_of_isLineBreak h
  cases st with
  | escaped => rfl
  | quotes n => rw [next, if_neg hquote, if_neg hbackslash]

theorem scanLong_spaces (n : Nat) (text : List Char) :
    scanLong (.quotes 0) (List.replicate n ' ' ++ text) = scanLong (.quotes 0) text := by
  induction n with
  | zero => rfl
  | succ n ih =>
    rw [List.replicate_succ, List.cons_append, scanLong_cons (by nofun), if_neg (by decide)]
    exact ih

/-- A literal stays one literal when its lines are indented. -/
theorem Spaced.scanLong (h : Spaced text text') (st : LongState) :
    scanLong st text = some [] ↔ Py.scanLong st text' = some [] := by
  induction h generalizing st with
  | nil => exact Iff.rfl
  | cons c _ ih =>
    by_cases hst : st = .quotes 3
    · simp [hst]
    · rw [scanLong_cons hst, scanLong_cons hst]
      split
      · exact Iff.rfl
      · exact ih _
  | indent n hbreak _ ih =>
    by_cases hst : st = .quotes 3
    · simp [hst]
    · rw [scanLong_cons hst, scanLong_cons hst, next_of_isLineBreak hbreak, scanLong_spaces]
      split
      · exact Iff.rfl
      · exact ih _

theorem Spaced.refl (text : List Char) : Spaced text text := by
  simpa using Spaced.append text .nil

theorem splitLines_go_newline (text rest line : List Char) :
    splitLines.go (text ++ '\n' :: rest) line =
      splitLines.go (text ++ ['\n']) line ++ splitLines.go rest [] := by
  induction text, line using splitLines.go.induct with
  | case1 line _ => simp [splitLines.go, show isLineBreak '\n' = true by decide]
  | case2 line _ => simp [splitLines.go, show isLineBreak '\n' = true by decide]
  | case3 cs line ih => simp [splitLines.go, ih]
  | case4 c cs line hpair hbreak ih =>
    -- a carriage return at the end and the newline are one break
    by_cases hend : c = '\r' ∧ cs = []
    · obtain ⟨rfl, rfl⟩ := hend
      simp [splitLines.go]
    · have happart : ∀ tail cs', c = '\r' → cs ++ '\n' :: tail = '\n' :: cs' → False := by
        rintro tail cs' rfl htail
        cases cs with
        | nil => exact hend ⟨rfl, rfl⟩
        | cons d cs =>
          obtain ⟨rfl, -⟩ := List.cons_eq_cons.mp htail
          exact hpair cs rfl rfl
      rw [List.cons_append, List.cons_append, splitLines.go.eq_3 _ _ _ (happart rest),
        splitLines.go.eq_3 _ _ _ (happart []), if_pos hbreak, if_pos hbreak, ih, List.cons_append]
  | case5 c cs line hpair hbreak ih =>
    have happart : ∀ tail cs', c = '\r' → cs ++ '\n' :: tail = '\n' :: cs' → False := by
      rintro tail cs' rfl
      exact absurd (by decide) hbreak
    rw [List.cons_append, List.cons_append, splitLines.go.eq_3 _ _ _ (happart rest),
      splitLines.go.eq_3 _ _ _ (happart []), if_neg hbreak, if_neg hbreak, ih]

section
variable {margin : String} (hmargin : margin.toList = List.replicate n ' ')
include hmargin

theorem exists_indented (line : String) :
    ∃ k, (if strip line ≠ "" then margin ++ line else line).toList = List.replicate k ' ' ++ line.toList := by
  split
  · exact ⟨n, by rw [String.toList_append, hmargin]⟩
  · exact ⟨0, rfl⟩

theorem splitLines_go_spaced (cs line : List Char) : ∃ k text,
    ((splitLines.go cs line).flatMap fun l => (if strip l ≠ "" then margin ++ l else l).toList) =
      List.replicate k ' ' ++ text ∧ Spaced (line.reverse ++ cs) text := by
  induction cs, line using splitLines.go.induct with
  | case1 line hline =>
    rw [List.isEmpty_iff] at hline
    subst hline
    exact ⟨0, [], rfl, .nil⟩
  | case2 line hline =>
    obtain ⟨k, hk⟩ := exists_indented hmargin (.ofList line.reverse)
    refine ⟨k, line.reverse, ?_, by simpa using Spaced.refl line.reverse⟩
    rw [splitLines.go, if_neg hline, List.flatMap_singleton, hk, String.toList_ofList]
  | case3 cs line ih =>
    obtain ⟨k', text, htext, hspaced⟩ := ih
    obtain ⟨k, hk⟩ := exists_indented hmargin (.ofList ('\n' :: '\r' :: line).reverse)
    refine ⟨k, line.reverse ++ '\r' :: '\n' :: (List.replicate k' ' ' ++ text), ?_, ?_⟩
    · rw [splitLines.go, List.flatMap_cons, hk, htext, String.toList_ofList]
      simp
    · have hbreak : isLineBreak '\n' = true := by decide
      exact .append _ (.cons '\r' (.indent k' hbreak hspaced))
  | case4 c cs line _ hbreak ih =>
    obtain ⟨k', text, htext, hspaced⟩ := ih
    obtain ⟨k, hk⟩ := exists_indented hmargin (.ofList (c :: line).reverse)
    refine ⟨k, line.reverse ++ c :: (List.replicate k' ' ' ++ text), ?_, ?_⟩
    · rw [splitLines.go, if_pos hbreak, List.flatMap_cons, hk, htext, String.toList_ofList]
      · simp
      · assumption
    · exact .append _ (.indent k' hbreak hspaced)
  | case5 c cs line _ hbreak ih =>
    obtain ⟨k, text, htext, hspaced⟩ := ih
    refine ⟨k, text, ?_, by simpa using hspaced⟩
    rw [splitLines.go, if_neg hbreak, htext]
    assumption

theorem indent_spaced (text : String) :
    ∃ k text', (indent text margin).toList = List.replicate k ' ' ++ text' ∧ Spaced text.toList text' := by
  obtain ⟨k, text', htext, hspaced⟩ := splitLines_go_spaced hmargin text.toList []
  refine ⟨k, text', ?_, hspaced⟩
  rw [← htext, indent, String.toList_join, List.flatMap_map]
  rfl

end

-- ---------------------------------------------------------------------------
-- A docstring and its line
-- ---------------------------------------------------------------------------

/-- What a line that begins with a long string, behind its indentation, has after it. -/
def docstringRest (text : List Char) : Option (List Char) :=
  match text.dropWhile (· = ' ') with
  | '"' :: '"' :: '"' :: rest => scanLong (.quotes 0) rest
  | _ => none

/-- The text is one string literal, whatever comes behind. -/
def IsDocstring (text : String) : Prop := ∀ after, docstringRest (text.toList ++ after) = some after

theorem docstringRest_quotes (text : List Char) :
    docstringRest (closingQuotes ++ text) = scanLong (.quotes 0) text := by
  simp [docstringRest, closingQuotes]

theorem docstringRest_space (text : List Char) : docstringRest (' ' :: text) = docstringRest text := by
  simp [docstringRest]

theorem docstringRest_spaces (n : Nat) (text : List Char) :
    docstringRest (List.replicate n ' ' ++ text) = docstringRest text := by
  induction n with
  | zero => rfl
  | succ n ih => rw [List.replicate_succ, List.cons_append, docstringRest_space, ih]

theorem docstringRest_eq_some (h : docstringRest text = some rest) :
    ∃ n body, text = List.replicate n ' ' ++ closingQuotes ++ body ∧ scanLong (.quotes 0) body = some rest := by
  induction text with
  | nil => cases h
  | cons c text ih =>
    by_cases hc : c = ' '
    · subst hc
      rw [docstringRest_space] at h
      obtain ⟨n, body, rfl, hbody⟩ := ih h
      exact ⟨n + 1, body, rfl, hbody⟩
    · unfold docstringRest at h
      rw [List.dropWhile_cons_of_neg (by simpa using hc)] at h
      split at h
      · rename_i body htext
        exact ⟨0, body, htext, h⟩
      · cases h

theorem docstringRest_append (h : docstringRest text = some rest) (after : List Char) :
    docstringRest (text ++ after) = some (rest ++ after) := by
  obtain ⟨n, body, rfl, hbody⟩ := docstringRest_eq_some h
  rw [List.append_assoc, List.append_assoc, docstringRest_spaces, docstringRest_quotes]
  exact scanLong_append hbody after

theorem isDocstring_iff : IsDocstring text ↔ docstringRest text.toList = some [] := by
  constructor
  · intro h
    simpa using h []
  · intro h after
    exact docstringRest_append h after

/-- Where no line breaks, nothing comes in. -/
theorem Spaced.unbroken (hbreak : ∀ c ∈ line, isLineBreak c = false) (h : Spaced (line ++ text) spaced) :
    ∃ text', spaced = line ++ text' ∧ Spaced text text' := by
  induction line generalizing spaced with
  | nil => exact ⟨spaced, rfl, h⟩
  | cons c line ih =>
    rw [List.forall_mem_cons] at hbreak
    cases h with
    | cons _ htail =>
      obtain ⟨text', rfl, hspaced⟩ := ih hbreak.2 htail
      exact ⟨text', rfl, hspaced⟩
    | indent n hc _ =>
      rw [hbreak.1] at hc
      cases hc

theorem Spaced.of_unbroken (hbreak : ∀ c ∈ line, isLineBreak c = false) (h : Spaced source (line ++ text')) :
    ∃ text, source = line ++ text ∧ Spaced text text' := by
  induction line generalizing source with
  | nil => exact ⟨source, rfl, h⟩
  | cons c line ih =>
    rw [List.forall_mem_cons] at hbreak
    rw [List.cons_append] at h
    generalize htail : line ++ text' = tail at h
    cases h with
    | cons _ hsource =>
      obtain ⟨text, rfl, hspaced⟩ := ih hbreak.2 (htail ▸ hsource)
      exact ⟨text, rfl, hspaced⟩
    | indent n hc _ =>
      rw [hbreak.1] at hc
      cases hc

theorem opening_unbroken (n : Nat) : ∀ c ∈ List.replicate n ' ' ++ closingQuotes, isLineBreak c = false := by
  intro c hc
  rcases List.mem_append.mp hc with hc | hc
  · rw [List.eq_of_mem_replicate hc]
    decide
  · have hall : closingQuotes.all (fun c => !isLineBreak c) = true := by decide
    simpa using List.all_eq_true.mp hall c hc

theorem Spaced.docstringRest (h : Spaced text text') :
    docstringRest text = some [] ↔ Py.docstringRest text' = some [] := by
  constructor
  · intro hrest
    obtain ⟨n, body, rfl, hbody⟩ := docstringRest_eq_some hrest
    obtain ⟨body', rfl, hspaced⟩ := h.unbroken (opening_unbroken n)
    rw [List.append_assoc, docstringRest_spaces, docstringRest_quotes]
    exact (hspaced.scanLong _).mp hbody
  · intro hrest
    obtain ⟨n, body', rfl, hbody⟩ := docstringRest_eq_some hrest
    obtain ⟨body, rfl, hspaced⟩ := h.of_unbroken (opening_unbroken n)
    rw [List.append_assoc, docstringRest_spaces, docstringRest_quotes]
    exact (hspaced.scanLong _).mpr hbody

theorem isDocstring_indent (hmargin : margin.toList = List.replicate n ' ') :
    IsDocstring (indent text margin) ↔ IsDocstring text := by
  obtain ⟨k, text', htext, hspaced⟩ := indent_spaced hmargin text
  rw [isDocstring_iff, isDocstring_iff, htext, docstringRest_spaces]
  exact hspaced.docstringRest.symm

theorem isDocstring_quoted (text : String) :
    IsDocstring ("\"\"\"" ++ text ++ "\"\"\"") ↔ Contained text.toList := by
  have hquotes : "\"\"\"".toList = closingQuotes := by decide
  rw [isDocstring_iff, String.toList_append, String.toList_append, hquotes, List.append_assoc,
    docstringRest_quotes, ← scanLong_quoted text.toList [], List.append_nil]

end Intelliqx.Py
