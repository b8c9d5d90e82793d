import Intelliqx.Observability.Secrets
import Intelliqx.Py.Replace
import Intelliqx.Py.Text

/-!
# The underscore fixer

`auto_fix_underscore` finds the references `self.__name` of a line in the line as
it was, and replaces the first occurrence of each in the line as it has become.
The line comes out right exactly if no `self.` in front of a reference goes on
with the same text, once the underscores of the references before it are gone
(`fixLine_eq_iff`). Where one does, the underscores are taken from there, and
the line never again reaches as far as it should.
-/

namespace Intelliqx.Scripts

open Py Py.Regex Observability

/-- `[A-Za-z_]` -/
def startsIdentifier (c : Char) : Bool := ('a' ≤ c && c ≤ 'z') || ('A' ≤ c && c ≤ 'Z') || c = '_'

def selfDot : List Char := ['s', 'e', 'l', 'f', '.']

def dunder : List Char := ['_', '_']

def endsDunder (name : List Char) : Bool := dunder <:+ name

-- ---------------------------------------------------------------------------
-- The fixer
-- ---------------------------------------------------------------------------

section
variable (w : WordChars)

/-- `\bself\.__(?P<name>[A-Za-z_]\w*)` -/
def fixRe : Regex :=
  .seq (.boundary w.isWord) <|
    .seq (lit (selfDot ++ dunder)) (.group "name" (.seq (.set startsIdentifier) (.star (.set w.isWord))))

/-- One round of the loop over the matches. -/
def fixStep (updatedLine : List Char) (m : Match) : List Char :=
  if endsDunder (m.group "name") then updatedLine
  else replaceFirst m.text (selfDot ++ m.group "name") updatedLine

def fixLine (line : List Char) : List Char := ((fixRe w).finditer line).matches.foldl fixStep line

/-- The text of a source file, unless `read_text` failed. -/
structure SourceFile where
  path : String
  text : Option String

structure FixReport where
  findings : Nat := 0
  filesTouched : List String := []
  applied : Bool
  written : List (String × String) := []

def newLines (original : String) : List String :=
  (splitLines original).map fun line => .ofList (fixLine w line.toList)

def changedInFile (original : String) : Nat :=
  ((splitLines original).zip (newLines w original)).countP fun lines => lines.2 ≠ lines.1

def fixFile (report : FixReport) (file : SourceFile) : FixReport :=
  match file.text with
  | none => report
  | some original =>
    if changedInFile w original = 0 then report
    else
      { report with
        findings := report.findings + changedInFile w original
        filesTouched := report.filesTouched.insert file.path
        written :=
          if report.applied then report.written ++ [(file.path, String.join (newLines w original))]
          else report.written }

/-- `apply` is what the report calls `applied`. -/
def autoFixUnderscore (pyFiles : List SourceFile) (apply : Bool) : FixReport :=
  pyFiles.foldl (fixFile w) { applied := apply }

-- ---------------------------------------------------------------------------
-- What it is for
-- ---------------------------------------------------------------------------

/-- What stands in place of a match when all is well. -/
def fixed (m : Match) : List Char := if endsDunder (m.group "name") then m.text else selfDot ++ m.group "name"

/-- The word behind a `self.` without the underscores it loses, and whether it loses them. -/
structure Place where
  word : List Char
  renamed : Bool

/-- The word behind the `self.` that begins here. -/
def wordAt (text : List Char) : Option (List Char) :=
  if selfDot <+: text then some ((text.drop selfDot.length).takeWhile w.isWord) else none

def placeAt (before : Option Char) (text : List Char) : Option Place :=
  match ((fixRe w).first before text).filter fun m => !endsDunder (m.group "name") with
  | some m => some ⟨m.group "name", true⟩
  | none => (wordAt w text).map fun word => ⟨word, false⟩

/-- Every `self.` of the text, from left to right. -/
def places : Option Char → List Char → List Place
  | _, [] => []
  | before, c :: cs => (placeAt w before (c :: cs)).toList ++ places (some c) cs

/-- A `self.` in front does not go on with the reference that is to lose its underscores. -/
def Unlike (e f : Place) : Prop := f.renamed → ¬ dunder ++ f.word <+: e.word

def Unshadowed (line : List Char) : Prop := (places w none line).Pairwise Unlike

end

-- ---------------------------------------------------------------------------
-- What the pattern matches
-- ---------------------------------------------------------------------------

/-- A whole identifier between what is in front of its `self.__` and what is behind it. -/
structure Reference (w : WordChars) (before : Option Char) (name rest : List Char) : Prop where
  apart : before.any w.isWord = false
  begins : name.head?.any startsIdentifier
  word : ∀ c ∈ name, w.isWord c
  ends : ∀ c ∈ rest.head?, ¬ w.isWord c

def referenceMatch (name rest : List Char) : Match := ⟨selfDot ++ (dunder ++ name), rest, [("name", name)]⟩

section
variable {w : WordChars} {before : Option Char} {text name rest front back : List Char} {m : Match} {c : Char}

theorem startsIdentifier_ascii : ∀ n : Fin 128, startsIdentifier (.ofNat n) →
    isAlnum (Char.ofNat n).toLower || Char.ofNat n = '_' := by decide +kernel

theorem isWord_of_startsIdentifier (h : startsIdentifier c) : w.isWord c := by
  have hlt : c.toNat < 128 := by
    simp only [startsIdentifier, Bool.or_eq_true, Bool.and_eq_true, decide_eq_true_eq] at h
    obtain (⟨-, hz⟩ | ⟨-, hz⟩) | rfl := h
    · exact Nat.lt_of_le_of_lt hz (by decide)
    · exact Nat.lt_of_le_of_lt hz (by decide)
    · decide
  have hc : Char.ofNat c.toNat = c := Char.ofNat_toNat c
  rw [w.ascii c hlt]
  simpa only [hc] using startsIdentifier_ascii ⟨c.toNat, hlt⟩ (by simpa only [hc] using h)

theorem isWord_dunder : ∀ c ∈ dunder, w.isWord c := by
  intro c hc
  obtain rfl : c = '_' := List.eq_of_mem_replicate (n := 2) hc
  exact w.ascii '_' (by decide)

theorem not_isWord_dot : ¬ w.isWord '.' := by
  rw [w.ascii '.' (by decide)]
  decide

theorem run_name (hbegins : startsIdentifier c) (before : Option Char) (hword : ∀ d ∈ name, w.isWord d)
    (hrest : ∀ d ∈ rest.head?, ¬ w.isWord d) : ∃ shorter,
      run (.seq (.set startsIdentifier) (.star (.set w.isWord))) before (c :: (name ++ rest)) =
        ⟨c :: name, rest, []⟩ :: shorter := by
  obtain ⟨shorter, hshorter⟩ := classRuns_append hword (n := (name ++ rest).length) (by simp) (.inr hrest)
  rw [run_set_seq, if_pos hbegins, run_star_set, hshorter]
  exact ⟨_, rfl⟩

theorem first_reference (h : Reference w before name rest) :
    (fixRe w).first before (selfDot ++ (dunder ++ (name ++ rest))) = some (referenceMatch name rest) := by
  obtain ⟨happart, hbegins, hword, hends⟩ := h
  cases name with
  | nil => cases hbegins
  | cons c name =>
    obtain ⟨shorter, hrun⟩ := run_name hbegins (lastOf before (selfDot ++ dunder))
      (List.forall_mem_cons.mp hword).2 hends
    have hs : w.isWord 's' := w.ascii 's' (by decide)
    have hboundary :
        (before.any w.isWord != (selfDot ++ (dunder ++ (c :: name ++ rest))).head?.any w.isWord) = true := by
      simp [happart, selfDot, hs]
    rw [first, fixRe, run_boundary_seq, if_pos hboundary, ← List.append_assoc, run_lit_seq, run_group, List.cons_append,
      hrun]
    rfl

/-- Nothing else matches. -/
theorem exists_reference (h : (fixRe w).first before text = some m) : ∃ name rest,
    Reference w before name rest ∧ text = selfDot ++ (dunder ++ (name ++ rest)) ∧ m = referenceMatch name rest := by
  have hne : run (fixRe w) before text ≠ [] := by
    intro hnil
    rw [first, hnil] at h
    cases h
  rw [fixRe, run_boundary_seq] at hne
  have hprefix : selfDot ++ dunder <+: text := by
    by_contra hnot
    rw [run_lit_seq_of_not hnot, ite_self] at hne
    exact hne rfl
  obtain ⟨rest, rfl⟩ := hprefix
  rw [run_lit_seq, run_group] at hne
  cases rest with
  | nil => exact absurd (by split <;> rfl) hne
  | cons c cs =>
    have happart : before.any w.isWord = false := by
      by_contra hword
      have hs : w.isWord 's' := w.ascii 's' (by decide)
      rw [if_neg (by simp [hword, selfDot, hs])] at hne
      exact hne rfl
    have hbegins : startsIdentifier c := by
      by_contra hnot
      rw [run_set_seq, if_neg hnot] at hne
      exact absurd (by split <;> rfl) hne
    have href : Reference w before (c :: cs.takeWhile w.isWord) (cs.dropWhile w.isWord) := by
      refine ⟨happart, hbegins, ?_, ?_⟩
      · exact List.forall_mem_cons.mpr ⟨isWord_of_startsIdentifier hbegins, fun d hd => List.mem_takeWhile_imp hd⟩
      · intro d hd
        have hnot := List.head?_dropWhile_not w.isWord cs
        rw [Option.mem_def.mp hd] at hnot
        simpa using hnot
    have htext : selfDot ++ dunder ++ c :: cs =
        selfDot ++ (dunder ++ (c :: cs.takeWhile w.isWord ++ cs.dropWhile w.isWord)) := by
      rw [List.cons_append, List.takeWhile_append_dropWhile, List.append_assoc]
    refine ⟨_, _, href, htext, ?_⟩
    rw [htext, first_reference href] at h
    exact (Option.some.inj h).symm

theorem first_of_word (hc : w.isWord c) (text : List Char) : (fixRe w).first (some c) text = none := by
  refine Option.eq_none_iff_forall_ne_some.mpr fun m hm => ?_
  obtain ⟨name, rest, href, -, -⟩ := exists_reference hm
  exact absurd href.apart (by simp [hc])

theorem first_of_ne (hc : c ≠ 's') (text : List Char) : (fixRe w).first before (c :: text) = none := by
  refine Option.eq_none_iff_forall_ne_some.mpr fun m hm => ?_
  obtain ⟨name, rest, -, htext, -⟩ := exists_reference hm
  exact hc (List.cons.inj htext).1

-- ---------------------------------------------------------------------------
-- The places of a text
-- ---------------------------------------------------------------------------

/-- The `self.` that begin in `front`, where none is a reference that loses its underscores. -/
def kept (w : WordChars) : List Char → List Char → List Place
  | [], _ => []
  | c :: cs, rest => ((wordAt w (c :: cs ++ rest)).map fun word => Place.mk word false).toList ++ kept w cs rest

theorem kept_append (front back rest : List Char) :
    kept w (front ++ back) rest = kept w front (back ++ rest) ++ kept w back rest := by
  induction front with
  | nil => rfl
  | cons c cs ih => simp only [List.cons_append, kept, ih, List.append_assoc]

theorem kept_of_not_self (hne : 's' ∉ front) (rest : List Char) : kept w front rest = [] := by
  induction front with
  | nil => rfl
  | cons c cs ih =>
    obtain ⟨hc, hcs⟩ := List.ne_and_not_mem_of_not_mem_cons hne
    have hnot : ¬ selfDot <+: c :: cs ++ rest := fun h => hc (List.cons_prefix_cons.mp h).1
    rw [kept, wordAt, if_neg hnot, ih hcs]
    rfl

theorem takeWhile_append_cons {p : Char → Bool} (hc : ¬ p c) (front rest : List Char) :
    (front ++ c :: rest).takeWhile p = front.takeWhile p := by
  induction front with
  | nil => simp [hc]
  | cons d front ih => rw [List.cons_append, List.takeWhile_cons, List.takeWhile_cons, ih]

/-- What stands behind the dot of a later `self.` makes no difference. -/
theorem wordAt_selfDot (c : Char) (cs text : List Char) : wordAt w (c :: cs ++ (selfDot ++ text)) =
    if selfDot <+: c :: cs ++ ['s', 'e', 'l', 'f'] then
      some (((c :: cs ++ ['s', 'e', 'l', 'f']).drop selfDot.length).takeWhile w.isWord) else none := by
  have hlen : selfDot.length ≤ (c :: cs ++ ['s', 'e', 'l', 'f']).length := by simp [selfDot]
  have hsplit : c :: cs ++ (selfDot ++ text) = c :: cs ++ ['s', 'e', 'l', 'f'] ++ '.' :: text := by simp [selfDot]
  have hprefix : selfDot <+: c :: cs ++ ['s', 'e', 'l', 'f'] ++ '.' :: text ↔
      selfDot <+: c :: cs ++ ['s', 'e', 'l', 'f'] :=
    ⟨fun h => List.prefix_of_prefix_length_le h (List.prefix_append _ _) hlen,
      fun h => h.trans (List.prefix_append _ _)⟩
  rw [hsplit, wordAt, List.drop_append_of_le_length hlen, takeWhile_append_cons not_isWord_dot]
  exact if_congr hprefix rfl rfl

theorem kept_selfDot (front text text' : List Char) :
    kept w front (selfDot ++ text) = kept w front (selfDot ++ text') := by
  induction front with
  | nil => rfl
  | cons c cs ih => rw [kept, kept, ih, wordAt_selfDot, wordAt_selfDot]

theorem kept_pairwise (front rest : List Char) : (kept w front rest).Pairwise Unlike := by
  have hkept : ∀ e ∈ kept w front rest, e.renamed = false := by
    induction front with
    | nil => exact fun e he => absurd he List.not_mem_nil
    | cons c cs ih =>
      refine List.forall_mem_append.mpr ⟨fun e he => ?_, ih⟩
      obtain ⟨word, -, rfl⟩ := Option.map_eq_some_iff.mp (Option.mem_toList.mp he)
      rfl
  refine List.pairwise_of_forall_mem_list fun e _ f hf hrenamed => ?_
  rw [hkept f hf] at hrenamed
  cases hrenamed

theorem places_of_unmatched (h : Unmatched (fixRe w) before front rest) :
    places w before (front ++ rest) = kept w front rest ++ places w (lastOf before front) rest := by
  induction front generalizing before with
  | nil => rfl
  | cons c cs ih =>
    have hnone : (fixRe w).first before (c :: (cs ++ rest)) = none := h [] (c :: cs) rfl (List.cons_ne_nil c cs)
    have hrest : Unmatched (fixRe w) (some c) cs rest := by
      intro front back hcs hback
      rw [← lastOf_cons]
      exact h (c :: front) back (by rw [hcs, List.cons_append]) hback
    rw [List.cons_append, places, kept, ih hrest, lastOf_cons, placeAt, hnone, Option.filter_none, List.append_assoc]
    rfl

/-- The pattern begins at a word of its own. -/
theorem unmatched_word (hc : w.isWord c) (hfront : ∀ d ∈ front, w.isWord d) (rest : List Char) :
    Unmatched (fixRe w) (some c) front rest := by
  intro front' back hsplit hback
  have hlast : ∃ d, lastOf (some c) front' = some d ∧ w.isWord d := by
    cases hlast : front'.getLast? with
    | none => exact ⟨c, by rw [lastOf, hlast]; rfl, hc⟩
    | some d =>
      have hmem : d ∈ front := hsplit ▸ List.mem_append_left back (List.mem_of_getLast? hlast)
      exact ⟨d, by rw [lastOf, hlast]; rfl, hfront d hmem⟩
  obtain ⟨d, hd, hword⟩ := hlast
  rw [hd]
  exact first_of_word hword _

theorem unmatched_cons (hc : (fixRe w).first before (c :: (front ++ rest)) = none)
    (hfront : Unmatched (fixRe w) (some c) front rest) : Unmatched (fixRe w) before (c :: front) rest := by
  intro front' back hsplit hback
  cases front' with
  | nil => rwa [show back = c :: front from hsplit.symm]
  | cons d front' =>
    obtain ⟨rfl, htail⟩ := List.cons.inj hsplit
    rw [lastOf_cons]
    exact hfront front' back htail hback

/-- No reference begins within another. -/
theorem unmatched_inside (hword : ∀ c ∈ name, w.isWord c) (rest : List Char) :
    Unmatched (fixRe w) (some 's') (['e', 'l', 'f', '.'] ++ (dunder ++ name)) rest := by
  have hunder : ∀ c ∈ '_' :: name, w.isWord c :=
    List.forall_mem_cons.mpr ⟨isWord_dunder '_' List.mem_cons_self, hword⟩
  have hname : Unmatched (fixRe w) (some '_') ('_' :: name) rest :=
    unmatched_word (isWord_dunder '_' List.mem_cons_self) hunder rest
  have hdunder : Unmatched (fixRe w) (some '.') ('_' :: '_' :: name) rest :=
    unmatched_cons (first_of_ne (by decide) _) hname
  refine unmatched_cons (first_of_ne (by decide) _) ?_
  refine unmatched_cons (first_of_ne (by decide) _) ?_
  refine unmatched_cons (first_of_ne (by decide) _) ?_
  exact unmatched_cons (first_of_ne (by decide) _) hdunder

theorem wordAt_self (hword : ∀ c ∈ name, w.isWord c) (hends : ∀ c ∈ rest.head?, ¬ w.isWord c) :
    wordAt w (selfDot ++ (name ++ rest)) = some name := by
  have htake : (name ++ rest).takeWhile w.isWord = name := by
    rw [List.takeWhile_append_of_pos hword]
    cases rest with
    | nil => simp
    | cons c rest => simp [hends c rfl]
  rw [wordAt, if_pos (List.prefix_append _ _), List.drop_left, htake]

theorem kept_self (hword : ∀ c ∈ name, w.isWord c) (hends : ∀ c ∈ rest.head?, ¬ w.isWord c) :
    kept w (selfDot ++ name) rest = ⟨name, false⟩ :: kept w name rest := by
  have hself : wordAt w ('s' :: (['e', 'l', 'f', '.'] ++ name) ++ rest) = some name := by
    rw [← wordAt_self hword hends]
    simp [selfDot]
  have hinside : kept w (['e', 'l', 'f', '.'] ++ name) rest = kept w name rest := by
    rw [kept_append, kept_of_not_self (by decide), List.nil_append]
  rw [show selfDot ++ name = 's' :: (['e', 'l', 'f', '.'] ++ name) from rfl, kept, hself, hinside]
  rfl

theorem kept_dunder (name rest : List Char) : kept w (dunder ++ name) rest = kept w name rest := by
  rw [kept_append, kept_of_not_self (by decide), List.nil_append]

theorem places_reference (h : Reference w before name rest) :
    places w before (selfDot ++ (dunder ++ (name ++ rest))) =
      (if endsDunder name then ⟨dunder ++ name, false⟩ else ⟨name, true⟩) ::
        (kept w name rest ++ places w (lastOf before (selfDot ++ (dunder ++ name))) rest) := by
  have hword : ∀ c ∈ dunder ++ name, w.isWord c := List.forall_mem_append.mpr ⟨isWord_dunder, h.word⟩
  have hself : wordAt w (selfDot ++ (dunder ++ (name ++ rest))) = some (dunder ++ name) := by
    rw [← List.append_assoc dunder, wordAt_self hword h.ends]
  have hplace : placeAt w before (selfDot ++ (dunder ++ (name ++ rest))) =
      some (if endsDunder name then ⟨dunder ++ name, false⟩ else ⟨name, true⟩) := by
    have hgroup : (referenceMatch name rest).group "name" = name := rfl
    rw [placeAt, first_reference h, Option.filter_some, hgroup, hself]
    cases endsDunder name <;> rfl
  have hkept : kept w (['e', 'l', 'f', '.'] ++ (dunder ++ name)) rest = kept w name rest := by
    rw [kept_append, kept_of_not_self (by decide), List.nil_append, kept_dunder]
  have htext : selfDot ++ (dunder ++ (name ++ rest)) = 's' :: (['e', 'l', 'f', '.'] ++ (dunder ++ name) ++ rest) := by
    simp [selfDot]
  rw [htext] at hplace ⊢
  rw [places, hplace, places_of_unmatched (unmatched_inside h.word rest), hkept, ← lastOf_cons]
  rfl

theorem prefix_takeWhile {p : Char → Bool} (hname : ∀ c ∈ name, p c) (text : List Char) :
    name <+: text ↔ name <+: text.takeWhile p := by
  refine ⟨fun h => ?_, fun h => h.trans (List.takeWhile_prefix p)⟩
  obtain ⟨rest, rfl⟩ := h
  rw [List.takeWhile_append_of_pos hname]
  exact List.prefix_append _ _

theorem prefix_iff_wordAt (hname : ∀ c ∈ name, w.isWord c) (text : List Char) :
    selfDot ++ name <+: text ↔ ∃ word ∈ wordAt w text, name <+: word := by
  by_cases h : selfDot <+: text
  · obtain ⟨rest, rfl⟩ := h
    rw [wordAt, if_pos (List.prefix_append _ _), List.drop_left, List.prefix_append_right_inj, prefix_takeWhile hname]
    simp
  · rw [wordAt, if_neg h]
    have hnot : ¬ selfDot ++ name <+: text := fun hall => h ((List.prefix_append _ _).trans hall)
    simp [hnot]

/-- The search finds the places that go on with the reference. -/
theorem absent_iff (hname : ∀ c ∈ name, w.isWord c) (front rest : List Char) :
    Absent (selfDot ++ (dunder ++ name)) front rest ↔ ∀ e ∈ kept w front rest, Unlike e ⟨name, true⟩ := by
  have hword : ∀ c ∈ dunder ++ name, w.isWord c := List.forall_mem_append.mpr ⟨isWord_dunder, hname⟩
  induction front with
  | nil => simp [Absent, kept]
  | cons c cs ih =>
    refine (and_congr_right fun _ => ih).trans ?_
    rw [← List.cons_append, prefix_iff_wordAt hword, kept]
    simp only [List.forall_mem_append]
    refine and_congr_left fun _ => ?_
    cases wordAt w (c :: cs ++ rest) with
    | none => simp
    | some word => simp [Unlike]

-- ---------------------------------------------------------------------------
-- A step in the wrong place
-- ---------------------------------------------------------------------------

/-- A reference has no `s` behind its dot, and none within `self`. -/
theorem ne_append_self (hname : ∀ c ∈ name, w.isWord c) (hback : back ≠ [])
    (hlast : back.getLast?.any w.isWord = false) (x : List Char) : selfDot ++ (dunder ++ name) ≠ back ++ 's' :: x := by
  intro h
  obtain ⟨y, rfl, hy⟩ | ⟨y, hy, hx⟩ := List.append_eq_append_iff.mp h
  · cases y with
    | nil => exact absurd (List.cons.inj hy).1 (by decide)
    | cons d y =>
      -- what is in front of the `s` is in the word behind the dot
      have hmem : (d :: y).getLast (List.cons_ne_nil d y) ∈ dunder ++ name :=
        hy ▸ List.mem_append_left _ (List.getLast_mem _)
      have hword := List.forall_mem_append.mpr ⟨isWord_dunder, hname⟩ _ hmem
      rw [List.getLast?_append_of_ne_nil _ (List.cons_ne_nil d y), List.getLast?_eq_getLast_of_ne_nil
        (List.cons_ne_nil d y), Option.any_some, hword] at hlast
      cases hlast
  · cases y with
    | nil => exact absurd (List.cons.inj hx).1 (by decide)
    | cons d y =>
      obtain rfl : 's' = d := (List.cons.inj hx).1
      obtain ⟨c, b, rfl⟩ := List.exists_cons_of_ne_nil hback
      have hmem : 's' ∈ ['e', 'l', 'f', '.'] := (List.cons.inj hy).2 ▸ List.mem_append_right b List.mem_cons_self
      exact absurd hmem (by decide)

/-- What is found in front of a reference ends in front of it. -/
theorem inside_front (hname : ∀ c ∈ name, w.isWord c) (hback : back ≠ [])
    (hlast : back.getLast?.any w.isWord = false)
    (h : back ++ (selfDot ++ text) = selfDot ++ (dunder ++ name) ++ rest) :
    ∃ z, back = selfDot ++ (dunder ++ name) ++ z ∧ rest = z ++ (selfDot ++ text) := by
  obtain ⟨x, hx, htext⟩ | ⟨z, hz, hrest⟩ := List.append_eq_append_iff.mp h
  · cases x with
    | nil => exact ⟨[], by simpa using hx.symm, by simpa using htext.symm⟩
    | cons s x =>
      obtain rfl : 's' = s := (List.cons.inj htext).1
      exact absurd hx (ne_append_self hname hback hlast x)
  · exact ⟨z, hz, hrest⟩

theorem length_takeWhile_self (text : List Char) : ((selfDot ++ text).takeWhile w.isWord).length = 4 := by
  have hself : ∀ c ∈ ['s', 'e', 'l', 'f'], w.isWord c := by
    intro c hc
    simp only [List.mem_cons, List.not_mem_nil, or_false] at hc
    rcases hc with rfl | rfl | rfl | rfl <;> exact w.ascii _ (by decide)
  have hsplit : selfDot ++ text = ['s', 'e', 'l', 'f'] ++ '.' :: text := rfl
  rw [hsplit, takeWhile_append_cons not_isWord_dot, List.takeWhile_eq_self_iff.mpr hself]
  rfl

theorem reach_foldl_le {ms : List Match} (hms : ∀ m ∈ ms, ∃ name rest, m = referenceMatch name rest) (n : Nat)
    (text : List Char) : reach w.isWord n (ms.foldl fixStep text) ≤ reach w.isWord n text := by
  induction ms generalizing text with
  | nil => exact Nat.le_refl _
  | cons m ms ih =>
    obtain ⟨⟨name, rest, rfl⟩, htail⟩ := List.forall_mem_cons.mp hms
    refine (ih htail _).trans ?_
    rw [fixStep]
    split
    · exact Nat.le_refl _
    · exact reach_replaceFirst_le isWord_dunder (List.cons_ne_nil _ _) n text

/-- After a step in the wrong place the line never again reaches as far as it should. -/
theorem foldl_fixStep_ne {ms : List Match} (hms : ∀ m ∈ ms, ∃ name rest, m = referenceMatch name rest)
    (href : Reference w (lastOf none front) name rest)
    (h : ¬ Absent (selfDot ++ (dunder ++ name)) front (selfDot ++ (dunder ++ (name ++ rest)))) (text : List Char) :
    ms.foldl fixStep (replaceFirst (selfDot ++ (dunder ++ name)) (selfDot ++ name)
      (front ++ (selfDot ++ (dunder ++ (name ++ rest))))) ≠ front ++ (selfDot ++ text) := by
  obtain ⟨a, b, c, rfl, hb, hc, hreplace⟩ := exists_of_not_absent h (selfDot ++ name)
  have hlast : b.getLast?.any w.isWord = false := by
    rw [← lastOf_append_of_ne_nil none a hb]
    exact href.apart
  obtain ⟨z, rfl, rfl⟩ := inside_front href.word hb hlast hc
  intro heq
  have hle := reach_foldl_le (w := w) hms ((a ++ (selfDot ++ (dunder ++ name) ++ z)).countP fun c => !w.isWord c)
    (a ++ (selfDot ++ name ++ (z ++ (selfDot ++ (dunder ++ (name ++ rest))))))
  have hdunder : (dunder.countP fun c => !w.isWord c) = 0 :=
    List.countP_eq_zero.mpr fun c hc => by simp [isWord_dunder c hc]
  have hcount : ((a ++ (selfDot ++ (dunder ++ name) ++ z)).countP fun c => !w.isWord c) =
      (a ++ (selfDot ++ name ++ z)).countP fun c => !w.isWord c := by
    simp only [List.countP_append, hdunder, Nat.zero_add]
  have hsplit : a ++ (selfDot ++ name ++ (z ++ (selfDot ++ (dunder ++ (name ++ rest))))) =
      a ++ (selfDot ++ name ++ z) ++ (selfDot ++ (dunder ++ (name ++ rest))) := by simp only [List.append_assoc]
  rw [← hreplace, heq, reach_append, length_takeWhile_self, hreplace, hsplit, hcount, reach_append,
    length_takeWhile_self] at hle
  simp only [List.length_append, dunder, List.length_cons, List.length_nil] at hle
  omega

-- ---------------------------------------------------------------------------
-- Lines
-- ---------------------------------------------------------------------------

theorem lastOf_name (href : Reference w before name rest) (before' : Option Char) (front : List Char) :
    lastOf before' (front ++ name) = name.getLast? := by
  refine lastOf_append_of_ne_nil before' front fun hnil => ?_
  have hbegins := href.begins
  rw [hnil] at hbegins
  cases hbegins

@[simp] theorem group_referenceMatch (name rest : List Char) : (referenceMatch name rest).group "name" = name := rfl

theorem fixStep_dunder (h : endsDunder name = true) (rest line : List Char) :
    fixStep line (referenceMatch name rest) = line := if_pos h

theorem fixStep_renamed (h : endsDunder name = false) (rest line : List Char) :
    fixStep line (referenceMatch name rest) = replaceFirst (selfDot ++ (dunder ++ name)) (selfDot ++ name) line :=
  if_neg (by simp [h])

theorem fixed_dunder (h : endsDunder name = true) (rest : List Char) :
    fixed (referenceMatch name rest) = selfDot ++ (dunder ++ name) := if_pos h

theorem fixed_renamed (h : endsDunder name = false) (rest : List Char) :
    fixed (referenceMatch name rest) = selfDot ++ name := if_neg (by simp [h])

/-- Whether the word of a place in front is to be renamed says nothing of what is behind it. -/
theorem pairwise_renamed_iff {es fs : List Place} (h : ∀ e ∈ es, Unlike e ⟨name, true⟩) :
    (es ++ ⟨name, true⟩ :: fs).Pairwise Unlike ↔ (es ++ ⟨name, false⟩ :: fs).Pairwise Unlike := by
  have hfalse : ∀ e ∈ es, Unlike e ⟨name, false⟩ := fun e _ hrenamed => by cases hrenamed
  simp only [List.pairwise_append, List.pairwise_cons, List.forall_mem_cons]
  refine and_congr_right fun _ => and_congr Iff.rfl (forall₂_congr fun e he => ?_)
  exact and_congr_left fun _ => iff_of_true (h e he) (hfalse e he)

/-- A reference with the text in front of it as it should be. -/
theorem foldl_reference_iff {ms : List Match} {line : List Char}
    (hms : ∀ m ∈ ms, ∃ name rest, m = referenceMatch name rest) (href : Reference w (lastOf none front) name rest)
    (ih : ∀ front, lastOf none front = name.getLast? → (ms.foldl fixStep (front ++ rest) = front ++ line ↔
      (kept w front rest ++ places w name.getLast? rest).Pairwise Unlike)) :
    ms.foldl fixStep (fixStep (front ++ (selfDot ++ (dunder ++ (name ++ rest)))) (referenceMatch name rest)) =
        front ++ (fixed (referenceMatch name rest) ++ line) ↔
      (kept w front (selfDot ++ (dunder ++ (name ++ rest))) ++
        places w (lastOf none front) (selfDot ++ (dunder ++ (name ++ rest)))).Pairwise Unlike := by
  have hword : ∀ c ∈ dunder ++ name, w.isWord c := List.forall_mem_append.mpr ⟨isWord_dunder, href.word⟩
  have hlast : ∀ before front, lastOf before (front ++ name) = name.getLast? := lastOf_name href
  have hbehind : lastOf (lastOf none front) (selfDot ++ (dunder ++ name)) = name.getLast? := by
    rw [← List.append_assoc, hlast]
  rw [places_reference href, hbehind]
  cases hdunder : endsDunder name with
  | true =>
    have hih := ih (front ++ (selfDot ++ (dunder ++ name)))
      (by rw [← List.append_assoc selfDot, ← List.append_assoc, hlast])
    rw [kept_append, kept_self hword href.ends, kept_dunder] at hih
    rw [fixStep_dunder hdunder, fixed_dunder hdunder, if_pos rfl]
    simpa only [List.append_assoc, List.cons_append] using hih
  | false =>
    rw [fixStep_renamed hdunder, fixed_renamed hdunder, if_neg Bool.false_ne_true]
    by_cases habsent : Absent (selfDot ++ (dunder ++ name)) front (selfDot ++ (dunder ++ (name ++ rest)))
    · have hih := ih (front ++ (selfDot ++ name)) (by rw [← List.append_assoc, hlast])
      have hreplace : replaceFirst (selfDot ++ (dunder ++ name)) (selfDot ++ name)
          (selfDot ++ (dunder ++ (name ++ rest))) = selfDot ++ name ++ rest := by
        have hne : selfDot ++ (dunder ++ name) ≠ [] := List.cons_ne_nil _ _
        simpa only [List.append_assoc] using replaceFirst_append hne (selfDot ++ name) rest
      rw [kept_append, kept_self href.word href.ends, List.append_assoc selfDot,
        kept_selfDot front (name ++ rest) (dunder ++ (name ++ rest))] at hih
      rw [pairwise_renamed_iff ((absent_iff href.word _ _).mp habsent), replaceFirst_of_absent habsent, hreplace]
      simpa only [List.append_assoc, List.cons_append] using hih
    · refine iff_of_false ?_ fun hpairwise => habsent ?_
      · rw [List.append_assoc selfDot]
        exact foldl_fixStep_ne hms href habsent _
      · refine (absent_iff href.word _ _).mpr fun e he => ?_
        exact (List.pairwise_append.mp hpairwise).2.2 e he _ List.mem_cons_self

/-- One match after the other, with the text in front of them as it should be. -/
theorem foldl_fixStep_iff (before : Option Char) (text : List Char) :
    (∀ m ∈ ((fixRe w).finditerFrom before text).matches, ∃ name rest, m = referenceMatch name rest) ∧
    ∀ front, lastOf none front = before →
      (((fixRe w).finditerFrom before text).matches.foldl fixStep (front ++ text) =
          front ++ ((fixRe w).finditerFrom before text).replace fixed ↔
        (kept w front text ++ places w before text).Pairwise Unlike) := by
  refine finditerFrom_induction (P := fun before text found =>
    (∀ m ∈ found.matches, ∃ name rest, m = referenceMatch name rest) ∧
    ∀ front, lastOf none front = before →
      (found.matches.foldl fixStep (front ++ text) = front ++ found.replace fixed ↔
        (kept w front text ++ places w before text).Pairwise Unlike)) ?_ ?_ ?_ before text
  · intro before
    refine ⟨fun m hm => absurd hm List.not_mem_nil, fun front _ => iff_of_true rfl ?_⟩
    rw [places, List.append_nil]
    exact kept_pairwise front []
  · intro before c cs found hfirst ⟨hms, ih⟩
    rw [Found.matches_push, Found.replace_push]
    refine ⟨hms, fun front _ => ?_⟩
    have hc : Unmatched (fixRe w) before [c] cs := unmatched_cons hfirst fun front' back hsplit hback =>
      absurd (List.append_eq_nil_iff.mp hsplit.symm).2 hback
    have hplaces := places_of_unmatched hc
    have hih := ih (front ++ [c]) (lastOf_append_of_ne_nil none front (List.cons_ne_nil c []))
    simp only [List.append_assoc, List.singleton_append, kept_append] at hih hplaces
    rw [hplaces]
    exact hih
  · intro before text m found hfirst ⟨hms, ih⟩
    obtain ⟨name, rest, href, rfl, rfl⟩ := exists_reference hfirst
    rw [Found.matches_add, Found.replace_add]
    refine ⟨List.forall_mem_cons.mpr ⟨⟨name, rest, rfl⟩, hms⟩, fun front hfront => ?_⟩
    subst hfront
    rw [List.foldl_cons]
    refine foldl_reference_iff hms href fun front' hfront' => ?_
    have hlast : lastOf (lastOf none front) (selfDot ++ (dunder ++ name)) = name.getLast? := by
      rw [← List.append_assoc, lastOf_name href]
    rw [referenceMatch, hlast] at ih
    exact ih front' hfront'

end

/-- `self.__init__(); self.__init = 1` -/
def initLine : List Char := "self.__init__(); self.__init = 1".toList

section
variable {w : WordChars} {pyFiles : List SourceFile} {report : FixReport}

/-- What is written is a file of the list, line by line. -/
def WritesLines (w : WordChars) (pyFiles : List SourceFile) (report : FixReport) : Prop :=
  ∀ p ∈ report.written, ∃ file ∈ pyFiles, ∃ original,
    file.text = some original ∧ p = (file.path, String.join (newLines w original))

theorem WritesLines.fixFile {file : SourceFile} (h : WritesLines w pyFiles report) (hfile : file ∈ pyFiles) :
    WritesLines w pyFiles (fixFile w report file) := by
  rw [Scripts.fixFile]
  split
  · exact h
  · rename_i original htext
    split
    · exact h
    · intro p hp
      dsimp only at hp
      split at hp
      · rcases List.mem_append.mp hp with hp | hp
        · exact h p hp
        · exact ⟨file, hfile, original, htext, List.mem_singleton.mp hp⟩
      · exact h p hp

theorem writesLines_autoFixUnderscore (w : WordChars) (pyFiles : List SourceFile) (apply : Bool) :
    WritesLines w pyFiles (autoFixUnderscore w pyFiles apply) := by
  refine List.foldlRecOn pyFiles (fixFile w) ?_ fun report h file hfile => h.fixFile hfile
  exact fun p hp => absurd hp List.not_mem_nil

/-- Where no line of the files has a reference in the shadow of another place, the files are written as they
were but for the underscores of their references. -/
theorem written_of_unshadowed (w : WordChars) (apply : Bool)
    (hlines : ∀ file ∈ pyFiles, ∀ original, file.text = some original → ∀ line ∈ splitLines original,
      Unshadowed w line.toList) :
    ∀ p ∈ (autoFixUnderscore w pyFiles apply).written, ∃ file ∈ pyFiles, ∃ original, file.text = some original ∧
      p = (file.path,
        String.join ((splitLines original).map fun line => .ofList ((fixRe w).sub fixed line.toList))) := by
  intro p hp
  obtain ⟨file, hfile, original, htext, rfl⟩ := writesLines_autoFixUnderscore w pyFiles apply p hp
  refine ⟨file, hfile, original, htext, ?_⟩
  have hnew : newLines w original = (splitLines original).map fun line => .ofList ((fixRe w).sub fixed line.toList) :=
    List.map_congr_left fun line hline =>
      congrArg String.ofList
        ((foldl_fixStep_iff none line.toList).2 [] rfl |>.mpr (hlines file hfile original htext line hline))
  rw [hnew]

end

end Intelliqx.Scripts
