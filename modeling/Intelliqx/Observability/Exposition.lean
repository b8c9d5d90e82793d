import Mathlib.Algebra.BigOperators.Group.Multiset.Basic
import Mathlib.Algebra.GroupWithZero.Nat
import Mathlib.Data.List.Count
import Mathlib.Data.List.DropRight
import Mathlib.Data.Multiset.MapFold

/-!
# The text exposition format

A page is read line by line: comments, and samples `name{label="value",...} value`
with an optional timestamp. Label values stand in quotes and are escaped, so a
line has at least the quotes that its label values take (`quotes_readSample`).
The rule that a metric name has one `TYPE` line, before its samples, is left out.
-/

namespace Intelliqx.Exposition

abbrev Label := List Char × List Char

structure Sample (V : Type) where
  name : List Char
  labels : Multiset Label
  value : V
  timestamp : Option Int

-- ---------------------------------------------------------------------------
-- The grammar
-- ---------------------------------------------------------------------------

def isBlank (c : Char) : Bool := c = ' ' || c = '\t'

def skipBlanks (text : List Char) : List Char := text.dropWhile isBlank

def labelChar (c : Char) : Bool := c.isAlphanum || c = '_'

def metricChar (c : Char) : Bool := labelChar c || c = ':'

/-- A name of such characters does not begin with a digit. -/
def IsName (allowed : Char → Bool) (name : List Char) : Prop :=
  name.all allowed ∧ ∃ c ∈ name.head?, c.isDigit = false

theorem isName_iff {allowed : Char → Bool} {name : List Char} :
    IsName allowed name ↔ (name.all allowed && name.head?.any fun c => !c.isDigit) = true := by
  cases name <;> simp [IsName]

instance (allowed : Char → Bool) (name : List Char) : Decidable (IsName allowed name) :=
  decidable_of_iff _ isName_iff.symm

def readName (allowed : Char → Bool) : List Char → Option (List Char × List Char)
  | [] => none
  | c :: cs =>
    if allowed c && !c.isDigit then some (c :: cs.takeWhile allowed, cs.dropWhile allowed) else none

/-- The text behind the character, which may have blanks in front of it. -/
def expect (c : Char) (text : List Char) : Option (List Char) :=
  match skipBlanks text with
  | [] => none
  | d :: rest => if d = c then some rest else none

/-- The rest of a quoted value: quotes, backslashes and line feeds are escaped. -/
def readQuoted : List Char → Option (List Char × List Char)
  | [] => none
  | '"' :: rest => some ([], rest)
  | '\\' :: c :: rest =>
    if c = '\\' ∨ c = '"' then (readQuoted rest).map fun r => (c :: r.1, r.2)
    else if c = 'n' then (readQuoted rest).map fun r => ('\n' :: r.1, r.2)
    else none
  | c :: rest => if c = '\\' ∨ c = '\n' then none else (readQuoted rest).map fun r => (c :: r.1, r.2)

def readLabel (text : List Char) : Option (Label × List Char) := do
  let (name, rest) ← readName labelChar (skipBlanks text)
  let rest ← expect '=' rest
  let rest ← expect '"' rest
  let (value, rest) ← readQuoted rest
  some ((name, value), rest)

/-- The labels up to the closing brace; a comma may stand in front of it. -/
def readLabels : Nat → List Char → Option (List Label × List Char)
  | 0, _ => none
  | n + 1, text =>
    match expect '}' text with
    | some rest => some ([], rest)
    | none => do
      let (label, rest) ← readLabel text
      match expect ',' rest with
      | some rest => do
        let (labels, rest) ← readLabels n rest
        some (label :: labels, rest)
      | none => do
        let rest ← expect '}' rest
        some ([label], rest)

def readBraces (text : List Char) : Option (List Label × List Char) :=
  match expect '{' text with
  | some rest => readLabels rest.length rest
  | none => some ([], text)

def readNat (text : List Char) : Option Nat :=
  if text ≠ [] ∧ text.all Char.isDigit then some (Nat.ofDigitChars 10 text 0) else none

def readTimestamp : List Char → Option (Option Int)
  | [] => some none
  | '-' :: digits => (readNat digits).map fun n => some (-n)
  | digits => (readNat digits).map fun n => some n

section
variable {V : Type} (parse : List Char → Option V)

/-- The value, and the timestamp behind it. -/
def readValue (text : List Char) : Option (V × Option Int) := do
  let value ← parse (text.takeWhile fun c => !isBlank c)
  let stamp ← readTimestamp ((skipBlanks (text.dropWhile fun c => !isBlank c)).rdropWhile isBlank)
  some (value, stamp)

def readSample (line : List Char) : Option (Sample V) := do
  let (name, rest) ← readName metricChar (skipBlanks line)
  let (labels, rest) ← readBraces rest
  let (value, timestamp) ← readValue parse (skipBlanks rest)
  if (labels.map Prod.fst).Nodup then some { name, labels, value, timestamp } else none

def isComment (line : List Char) : Bool := (skipBlanks line).head?.all fun c => c = '#'

def decodeLines : List (List Char) → Option (List (Sample V))
  | [] => some []
  | line :: lines =>
    if isComment line then decodeLines lines
    else do
      let sample ← readSample parse line
      let samples ← decodeLines lines
      some (sample :: samples)

def decodePage (page : List Char) : Option (List (Sample V)) := decodeLines parse (page.splitOn '\n')

end

-- ---------------------------------------------------------------------------
-- Quotes
-- ---------------------------------------------------------------------------

/-- The quotes that a label value takes on a page. -/
def labelQuotes (l : Label) : Nat := l.2.count '"' + 2

def Sample.quotes (s : Sample V) : Nat := (s.labels.map labelQuotes).sum

section
variable {V : Type} {parse : List Char → Option V} {allowed : Char → Bool} {text rest line page name value : List Char}
  {label : Label} {labels : List Label} {c : Char} {s : Sample V} {samples : List (Sample V)} {n : Nat}

theorem count_dropWhile_le (p : Char → Bool) (text : List Char) : (text.dropWhile p).count c ≤ text.count c :=
  (List.dropWhile_sublist p).count_le c

theorem count_readName (h : readName allowed text = some (name, rest)) : rest.count c ≤ text.count c := by
  cases text with
  | nil => cases h
  | cons d cs =>
    rw [readName] at h
    split at h
    · cases h
      exact (count_dropWhile_le _ _).trans List.count_le_count_cons
    · cases h

theorem eq_of_expect (h : expect c text = some rest) : skipBlanks text = c :: rest := by
  unfold expect at h
  split at h
  · cases h
  · rename_i d cs heq
    split at h
    · rename_i hd
      cases h
      rw [heq, hd]
    · cases h

theorem count_expect (h : expect c text = some rest) : (c :: rest).count '"' ≤ text.count '"' :=
  eq_of_expect h ▸ count_dropWhile_le isBlank text

theorem quotes_readQuoted (h : readQuoted text = some (value, rest)) :
    value.count '"' + 1 + rest.count '"' ≤ text.count '"' := by
  induction text using readQuoted.induct generalizing value with
  | case1 => cases h
  | case2 rest' =>
    cases h
    rw [List.count_nil, List.count_cons_self]
    omega
  | case3 c rest' hc ih =>
    rw [readQuoted, if_pos hc] at h
    obtain ⟨r, hr, heq⟩ := Option.map_eq_some_iff.mp h
    cases heq
    have := ih hr
    rcases hc with rfl | rfl <;> simp <;> omega
  | case4 rest' hc ih =>
    rw [readQuoted, if_neg hc, if_pos rfl] at h
    obtain ⟨r, hr, heq⟩ := Option.map_eq_some_iff.mp h
    cases heq
    have := ih hr
    simp
    omega
  | case5 c rest' hc hn =>
    rw [readQuoted, if_neg hc, if_neg hn] at h
    cases h
  | case6 c rest' _ _ hc =>
    rw [readQuoted, if_pos hc] at h
    · cases h
    all_goals assumption
  | case7 c rest' _ _ hc ih =>
    rw [readQuoted, if_neg hc] at h
    · obtain ⟨r, hr, heq⟩ := Option.map_eq_some_iff.mp h
      cases heq
      have := ih hr
      rw [List.count_cons, List.count_cons]
      omega
    all_goals assumption

theorem quotes_readLabel (h : readLabel text = some (label, rest)) :
    labelQuotes label + rest.count '"' ≤ text.count '"' := by
  simp only [readLabel, Option.bind_eq_bind, Option.bind_eq_some_iff, Option.some.injEq, Prod.mk.injEq,
    Prod.exists] at h
  obtain ⟨name, r₁, hname, r₂, heq, r₃, hquote, value, r₄, hvalue, rfl, rfl⟩ := h
  have h₁ := (count_readName (c := '"') hname).trans (count_dropWhile_le isBlank text)
  have h₂ := count_expect heq
  have h₃ := count_expect hquote
  have h₄ := quotes_readQuoted hvalue
  rw [List.count_cons_self] at h₃
  rw [List.count_cons_of_ne (by decide)] at h₂
  simp only [labelQuotes]
  omega

theorem quotes_readLabels (h : readLabels n text = some (labels, rest)) :
    (labels.map labelQuotes).sum + rest.count '"' ≤ text.count '"' := by
  induction n generalizing text labels with
  | zero => cases h
  | succ n ih =>
    rw [readLabels] at h
    split at h
    · rename_i rest' hclose
      cases h
      have := count_expect hclose
      rw [List.count_cons_of_ne (by decide)] at this
      simpa using this
    · simp only [Option.bind_eq_bind, Option.bind_eq_some_iff, Prod.exists] at h
      obtain ⟨name, value, r, hlabel, h⟩ := h
      have hl := quotes_readLabel hlabel
      split at h
      · rename_i rest' hcomma
        simp only [Option.bind_eq_some_iff, Option.some.injEq, Prod.mk.injEq, Prod.exists] at h
        obtain ⟨more, r', hmore, rfl, rfl⟩ := h
        have hc := count_expect hcomma
        have hm := ih hmore
        rw [List.count_cons_of_ne (by decide)] at hc
        rw [List.map_cons, List.sum_cons]
        omega
      · simp only [Option.bind_eq_some_iff, Option.some.injEq, Prod.mk.injEq] at h
        obtain ⟨r', hclose, rfl, rfl⟩ := h
        have hc := count_expect hclose
        rw [List.count_cons_of_ne (by decide)] at hc
        rw [List.map_singleton, List.sum_singleton]
        omega

theorem quotes_readBraces (h : readBraces text = some (labels, rest)) :
    (labels.map labelQuotes).sum + rest.count '"' ≤ text.count '"' := by
  unfold readBraces at h
  split at h
  · rename_i rest' hopen
    have hc := count_expect hopen
    have hl := quotes_readLabels h
    rw [List.count_cons_of_ne (by decide)] at hc
    omega
  · cases h
    simp

/-- A sample line has the quotes of its label values. -/
theorem quotes_readSample (h : readSample parse line = some s) : s.quotes ≤ line.count '"' := by
  simp only [readSample, Option.bind_eq_bind, Option.bind_eq_some_iff, Prod.exists] at h
  obtain ⟨name, r₁, hname, labels, r₂, hlabels, v, stamp, -, h⟩ := h
  have h₁ := (count_readName (c := '"') hname).trans (count_dropWhile_le isBlank line)
  have h₂ := quotes_readBraces hlabels
  split at h
  · cases h
    have hsum : Sample.quotes ⟨name, labels, v, stamp⟩ = (labels.map labelQuotes).sum := by
      rw [Sample.quotes, Multiset.map_coe, Multiset.sum_coe]
    omega
  · cases h

theorem quotes_decodeLines {lines : List (List Char)} (h : decodeLines parse lines = some samples) :
    (samples.map Sample.quotes).sum ≤ (lines.map fun line => line.count '"').sum := by
  induction lines generalizing samples with
  | nil =>
    cases h
    exact Nat.le_refl 0
  | cons line lines ih =>
    rw [decodeLines] at h
    split at h
    · have := ih h
      rw [List.map_cons, List.sum_cons]
      omega
    · simp only [Option.bind_eq_bind, Option.bind_eq_some_iff, Option.some.injEq] at h
      obtain ⟨s, hs, rest, hrest, rfl⟩ := h
      have h₁ := quotes_readSample hs
      have h₂ := ih hrest
      simp only [List.map_cons, List.sum_cons]
      omega

theorem count_splitOn_le (page : List Char) :
    ((page.splitOn '\n').map fun line => line.count '"').sum ≤ page.count '"' := by
  induction page with
  | nil => exact Nat.le_refl 0
  | cons c page ih =>
    by_cases hc : c = '\n'
    · rw [List.splitOn_cons_eq_if_modifyHead, if_pos (by simp [hc]), List.map_cons, List.sum_cons, List.count_nil,
        Nat.zero_add]
      exact ih.trans List.count_le_count_cons
    · obtain ⟨first, more, hsplit⟩ := List.exists_cons_of_ne_nil (List.splitOn_ne_nil '\n' page)
      rw [List.splitOn_cons_eq_if_modifyHead, if_neg (by simpa using hc), hsplit, List.modifyHead_cons]
      rw [hsplit] at ih
      simp only [List.map_cons, List.sum_cons, List.count_cons] at ih ⊢
      omega

theorem count_intercalate {sep : Char} (hc : c ≠ sep) (lines : List (List Char)) :
    ([sep].intercalate lines).count c = (lines.map fun line => line.count c).sum := by
  induction lines with
  | nil => rfl
  | cons line lines ih =>
    cases lines with
    | nil => simp
    | cons line' lines =>
      rw [List.intercalate_cons_of_ne_nil (List.cons_ne_nil _ _), List.count_append, List.count_append, ih,
        List.count_singleton, if_neg (by simpa using Ne.symm hc), Nat.add_zero]
      rfl

theorem quotes_decodePage (h : decodePage parse page = some samples) :
    (samples.map Sample.quotes).sum ≤ page.count '"' :=
  (quotes_decodeLines h).trans (count_splitOn_le page)

-- ---------------------------------------------------------------------------
-- Reading
-- ---------------------------------------------------------------------------

theorem readName_append (hname : IsName allowed name) (hrest : ∀ c ∈ rest.head?, allowed c = false) :
    readName allowed (name ++ rest) = some (name, rest) := by
  obtain ⟨hall, d, hd, hdigit⟩ := hname
  obtain ⟨cs, rfl⟩ : ∃ cs, name = d :: cs := List.head?_eq_some_iff.mp hd
  obtain ⟨hfirst, hcs⟩ := List.forall_mem_cons.mp (List.all_eq_true.mp hall)
  have htake : rest.takeWhile allowed = [] := by
    cases rest with
    | nil => rfl
    | cons e rest => rw [List.takeWhile_cons_of_neg (by simpa using hrest e rfl)]
  have hdrop : rest.dropWhile allowed = rest := by
    cases rest with
    | nil => rfl
    | cons e rest => rw [List.dropWhile_cons_of_neg (by simpa using hrest e rfl)]
  rw [List.cons_append, readName, if_pos (by simp [hfirst, hdigit]), List.takeWhile_append_of_pos hcs,
    List.dropWhile_append_of_pos hcs, htake, hdrop, List.append_nil]

theorem skipBlanks_of_head (h : ∀ c ∈ text.head?, isBlank c = false) : skipBlanks text = text := by
  cases text with
  | nil => rfl
  | cons c text => exact List.dropWhile_cons_of_neg (by simpa using h c rfl)

theorem isBlank_of_metricChar (h : metricChar c) : isBlank c = false := by
  cases hb : isBlank c with
  | false => rfl
  | true =>
    simp only [isBlank, Bool.or_eq_true, decide_eq_true_eq] at hb
    rcases hb with rfl | rfl <;> exact absurd h (by decide)

theorem IsName.head (h : IsName metricChar name) (rest : List Char) :
    ∃ c cs, name ++ rest = c :: cs ∧ metricChar c := by
  obtain ⟨hall, c, hc, -⟩ := h
  obtain ⟨cs, rfl⟩ : ∃ cs, name = c :: cs := List.head?_eq_some_iff.mp hc
  exact ⟨c, cs ++ rest, rfl, List.all_eq_true.mp hall c List.mem_cons_self⟩

theorem skipBlanks_name (h : IsName metricChar name) (rest : List Char) : skipBlanks (name ++ rest) = name ++ rest := by
  obtain ⟨c, cs, heq, hc⟩ := h.head rest
  rw [heq]
  exact skipBlanks_of_head fun d hd => Option.some.inj hd ▸ isBlank_of_metricChar hc

theorem not_comment_of_name (h : IsName metricChar name) (rest : List Char) : isComment (name ++ rest) = false := by
  obtain ⟨c, cs, heq, hc⟩ := h.head rest
  rw [isComment, skipBlanks_name h, heq]
  refine decide_eq_false fun hhash => ?_
  exact absurd (hhash ▸ hc) (by decide)

/-- A sample without labels, with the braces. -/
theorem readSample_unlabelled {v : V} (hname : IsName metricChar name) (hvalue : ∀ c ∈ value, isBlank c = false)
    (hparse : parse value = some v) :
    readSample parse (name ++ '{' :: '}' :: ' ' :: value) = some ⟨name, 0, v, none⟩ := by
  have hread : readName metricChar (name ++ '{' :: '}' :: ' ' :: value) = some (name, '{' :: '}' :: ' ' :: value) := by
    refine readName_append hname fun c hc => ?_
    rw [← Option.some.inj hc]
    decide
  have hbraces : readBraces ('{' :: '}' :: ' ' :: value) = some ([], ' ' :: value) := rfl
  have hskip : skipBlanks (' ' :: value) = value :=
    (List.dropWhile_cons_of_pos rfl).trans (skipBlanks_of_head fun c hc => hvalue c (List.mem_of_mem_head? hc))
  have hplain : ∀ c ∈ value, (!isBlank c) = true := fun c hc => by rw [hvalue c hc, Bool.not_false]
  have htake : value.takeWhile (fun c => !isBlank c) = value := List.takeWhile_eq_self_iff.mpr hplain
  have hdrop : value.dropWhile (fun c => !isBlank c) = [] := List.dropWhile_eq_nil_iff.mpr hplain
  have hv : readValue parse value = some (v, none) := by
    rw [readValue, htake, hdrop, hparse]
    rfl
  rw [readSample, skipBlanks_name hname, hread]
  simp only [Option.bind_eq_bind, Option.bind_some, hbraces, hskip, hv]
  rfl

theorem decodeLines_append {xs ys : List (List Char)} {samples' : List (Sample V)}
    (hxs : decodeLines parse xs = some samples) (hys : decodeLines parse ys = some samples') :
    decodeLines parse (xs ++ ys) = some (samples ++ samples') := by
  induction xs generalizing samples with
  | nil =>
    cases hxs
    exact hys
  | cons line xs ih =>
    rw [decodeLines] at hxs
    rw [List.cons_append, decodeLines]
    split at hxs
    · rename_i hcomment
      rw [if_pos hcomment]
      exact ih hxs
    · rename_i hcomment
      simp only [Option.bind_eq_bind, Option.bind_eq_some_iff, Option.some.injEq] at hxs
      obtain ⟨s, hs, rest, hrest, rfl⟩ := hxs
      rw [if_neg hcomment, hs, ih hrest]
      rfl

theorem decodeLines_flatMap {l : List α} {f : α → List (List Char)} {g : α → List (Sample V)}
    (h : ∀ a ∈ l, decodeLines parse (f a) = some (g a)) : decodeLines parse (l.flatMap f) = some (l.flatMap g) := by
  induction l with
  | nil => rfl
  | cons a l ih =>
    obtain ⟨ha, hl⟩ := List.forall_mem_cons.mp h
    rw [List.flatMap_cons, List.flatMap_cons]
    exact decodeLines_append ha (ih hl)

theorem decodeLines_comment {lines : List (List Char)} (h : isComment line) :
    decodeLines parse (line :: lines) = decodeLines parse lines := by
  rw [decodeLines, if_pos h]

theorem decodeLines_singleton (hcomment : isComment line = false) (h : readSample parse line = some s) :
    decodeLines parse [line] = some [s] := by
  rw [decodeLines, hcomment, h]
  rfl

/-- A page has its lines, each with a line feed. -/
theorem decodePage_lines {lines : List (List Char)} (hlines : ∀ line ∈ lines, '\n' ∉ line) :
    decodePage parse (['\n'].intercalate lines ++ ['\n']) = decodeLines parse lines := by
  have hblank : isComment [] := rfl
  have hend : decodeLines parse (lines ++ [[]]) = decodeLines parse lines := by
    induction lines with
    | nil => exact decodeLines_comment hblank
    | cons line lines ih =>
      rw [List.cons_append, decodeLines, decodeLines, ih (List.forall_mem_cons.mp hlines).2]
  by_cases hne : lines = []
  · subst hne
    rfl
  · have hjoin : ['\n'].intercalate lines ++ ['\n'] = ['\n'].intercalate (lines ++ [[]]) := by
      clear hend hlines
      induction lines with
      | nil => exact absurd rfl hne
      | cons line lines ih =>
        cases lines with
        | nil => simp
        | cons line' lines =>
          have hfront : ['\n'].intercalate (line :: line' :: lines) =
              line ++ ['\n'] ++ ['\n'].intercalate (line' :: lines) :=
            List.intercalate_cons_of_ne_nil (List.cons_ne_nil _ _)
          have hback : ['\n'].intercalate (line :: (line' :: lines ++ [[]])) =
              line ++ ['\n'] ++ ['\n'].intercalate (line' :: lines ++ [[]]) :=
            List.intercalate_cons_of_ne_nil (by simp)
          rw [List.cons_append, hfront, hback, ← ih (List.cons_ne_nil _ _), List.append_assoc]
    have hsplit : (['\n'].intercalate (lines ++ [[]])).splitOn '\n' = lines ++ [[]] := by
      refine List.splitOn_intercalate _ (fun line hline => ?_) (by simp)
      rcases List.mem_append.mp hline with hline | hline
      · exact hlines line hline
      · rw [List.mem_singleton.mp hline]
        exact List.not_mem_nil
    rw [decodePage, hjoin, hsplit, hend]

end

end Intelliqx.Exposition
