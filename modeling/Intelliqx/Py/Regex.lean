import Mathlib.Data.List.Basic
import Mathlib.Data.List.TakeWhile

/-!
# Regular expressions

A backtracking matcher in the order of `re`: alternatives from left to right,
greedy repetitions from the longest on. What a pattern can take at a place is
the list of its matches in the order in which they are tried, so the match is
the first of them. Lookaround is one character wide: the character before a
place and the text behind it decide whether an assertion holds there.
-/

namespace Intelliqx.Py

/-- The text a match takes, the text behind it, and the groups in it, the one that closed last first. -/
structure Match where
  text : List Char
  rest : List Char
  groups : List (String × List Char) := []
  deriving DecidableEq

namespace Match

def empty (text : List Char) : Match := { text := [], rest := text }

/-- The matches that go on from `m`. -/
def andThen (m : Match) (ms : List Match) : List Match :=
  ms.map fun m' => ⟨m.text ++ m'.text, m'.rest, m'.groups ++ m.groups⟩

/-- `m.group(name)` of the group that closed last. -/
def group (m : Match) (name : String) : List Char := (m.groups.lookup name).getD []

/-- `m.lastgroup` -/
def lastgroup (m : Match) : Option String := m.groups.head?.map Prod.fst

end Match

/-- The character before the place behind `taken`. -/
def lastOf (before : Option Char) (taken : List Char) : Option Char := taken.getLast?.or before

inductive Regex
  | eps
  | set (p : Char → Bool)
  /-- `^` and `$` of `re.MULTILINE` -/
  | lineStart
  | lineEnd
  /-- `^` -/
  | textStart
  /-- `\b`, for the characters that are part of a word -/
  | boundary (isWord : Char → Bool)
  | seq (r s : Regex)
  | alt (r s : Regex)
  /-- `r{0,n}` -/
  | upTo (n : Nat) (r : Regex)
  | star (r : Regex)
  /-- `r*?` -/
  | lazyStar (r : Regex)
  | group (name : String) (r : Regex)

namespace Regex

-- ---------------------------------------------------------------------------
-- Matching
-- ---------------------------------------------------------------------------

/-- Where the matches of a part of a pattern are known for every place. -/
abbrev Step := Option Char → List Char → List Match

/-- One more round if the rounds so far allow it; a round takes something. -/
def rounds (step : Step) (more : Step) : Step := fun before text =>
  ((step before text).filter (·.text ≠ [])).flatMap fun m => m.andThen (more (lastOf before m.text) m.rest)

def greedy (step : Step) : Nat → Step
  | 0 => fun _ text => [.empty text]
  | n + 1 => fun before text => rounds step (greedy step n) before text ++ [.empty text]

def lazy (step : Step) : Nat → Step
  | 0 => fun _ text => [.empty text]
  | n + 1 => fun before text => .empty text :: rounds step (lazy step n) before text

def assertion (holds : Bool) (text : List Char) : List Match := if holds then [.empty text] else []

/-- The matches of a pattern at a place, in the order in which they are tried. -/
def run : Regex → Step
  | .eps => fun _ text => [.empty text]
  | .set p => fun _ text =>
    match text with
    | c :: cs => if p c then [⟨[c], cs, []⟩] else []
    | [] => []
  | .lineStart => fun before text => assertion (before = none ∨ before = some '\n') text
  | .lineEnd => fun _ text => assertion (text = [] ∨ text.head? = some '\n') text
  | .textStart => fun before text => assertion (before = none) text
  | .boundary isWord => fun before text => assertion (before.any isWord != text.head?.any isWord) text
  | .seq r s => fun before text =>
    (run r before text).flatMap fun m => m.andThen (run s (lastOf before m.text) m.rest)
  | .alt r s => fun before text => run r before text ++ run s before text
  | .upTo n r => greedy (run r) n
  -- a round takes at least one character, so there are no more rounds than characters
  | .star r => fun before text => greedy (run r) text.length before text
  | .lazyStar r => fun before text => lazy (run r) text.length before text
  | .group name r => fun before text =>
    (run r before text).map fun m => { m with groups := (name, m.text) :: m.groups }

/-- `r+` -/
def plus (r : Regex) : Regex := .seq r (.star r)

/-- `r{n,}` after `r{n}` -/
def atLeast : Nat → Regex → Regex
  | 0, r => .star r
  | n + 1, r => .seq r (atLeast n r)

/-- `r{1,n}` -/
def oneUpTo (n : Nat) (r : Regex) : Regex := .seq r (.upTo (n - 1) r)

def opt (r : Regex) : Regex := .upTo 1 r

/-- A literal text. -/
def lit (text : List Char) : Regex := text.foldr (fun c r => .seq (.set fun d => decide (d = c)) r) .eps

/-- A literal text that is compared by `f`, as `str.lower` for a text that ignores case. -/
def litBy (f : Char → Char) (text : List Char) : Regex :=
  text.foldr (fun c r => .seq (.set fun d => decide (f d = c)) r) .eps

/-- One pattern behind the other. -/
def chain (rs : List Regex) : Regex := rs.foldr .seq .eps

/-- The match at a place. The patterns here take something, so a match that does not is passed over. -/
def first (r : Regex) (before : Option Char) (text : List Char) : Option Match :=
  (r.run before text).find? (·.text ≠ [])

-- ---------------------------------------------------------------------------
-- Searching
-- ---------------------------------------------------------------------------

/-- Matches with the text in front of each, and the text behind the last one. -/
abbrev Found := List (List Char × Match) × List Char

def Found.push (c : Char) : Found → Found
  | ([], tail) => ([], c :: tail)
  | ((gap, m) :: ms, tail) => ((c :: gap, m) :: ms, tail)

def Found.add (m : Match) (found : Found) : Found := (([], m) :: found.1, found.2)

def search (r : Regex) : Nat → Option Char → List Char → Found
  | 0, _, text => ([], text)
  | _ + 1, _, [] => ([], [])
  | n + 1, before, c :: cs =>
    match r.first before (c :: cs) with
    | some m => (search r n (lastOf before m.text) m.rest).add m
    | none => (search r n (some c) cs).push c

/-- `finditer` from a place on. -/
def finditerFrom (r : Regex) (before : Option Char) (text : List Char) : Found :=
  r.search text.length before text

def finditer (r : Regex) (text : List Char) : Found := r.finditerFrom none text

/-- The text with each match replaced. -/
def Found.replace (repl : Match → List Char) (found : Found) : List Char :=
  found.1.flatMap (fun e => e.1 ++ repl e.2) ++ found.2

/-- `sub` -/
def sub (r : Regex) (repl : Match → List Char) (text : List Char) : List Char :=
  (r.finditer text).replace repl

-- ---------------------------------------------------------------------------
-- What a match takes
-- ---------------------------------------------------------------------------

section
variable {r s : Regex} {step more : Step} {before : Option Char} {text cs : List Char} {m : Match} {p : Char → Bool}

/-- The matches of a step split the text. -/
def Splits (step : Step) : Prop := ∀ before text, ∀ m ∈ step before text, m.text ++ m.rest = text

theorem mem_andThen {ms : List Match} : m ∈ Match.andThen m' ms ↔
    ∃ m'' ∈ ms, ⟨m'.text ++ m''.text, m''.rest, m''.groups ++ m'.groups⟩ = m := List.mem_map

theorem splits_bind {ms : List Match} (h : ∀ m ∈ ms, m.text ++ m.rest = text) (hmore : Splits more) :
    ∀ m ∈ ms.flatMap fun m => m.andThen (more (lastOf before m.text) m.rest), m.text ++ m.rest = text := by
  intro m hm
  obtain ⟨m', hm', hand⟩ := List.mem_flatMap.mp hm
  obtain ⟨m'', hm'', rfl⟩ := mem_andThen.mp hand
  rw [List.append_assoc, hmore _ _ m'' hm'', h m' hm']

theorem splits_rounds (hstep : Splits step) (hmore : Splits more) : Splits (rounds step more) :=
  fun before text => splits_bind (fun m hm => hstep before text m (List.mem_of_mem_filter hm)) hmore

theorem splits_greedy (hstep : Splits step) (n : Nat) : Splits (greedy step n) := by
  induction n with
  | zero => simp [Splits, greedy, Match.empty]
  | succ n ih =>
    intro before text m hm
    rcases List.mem_append.mp hm with hm | hm
    · exact splits_rounds hstep ih before text m hm
    · obtain rfl := List.mem_singleton.mp hm
      rfl

theorem splits_lazy (hstep : Splits step) (n : Nat) : Splits (lazy step n) := by
  induction n with
  | zero => simp [Splits, lazy, Match.empty]
  | succ n ih =>
    intro before text m hm
    rcases List.mem_cons.mp hm with rfl | hm
    · rfl
    · exact splits_rounds hstep ih before text m hm

theorem splits_assertion (holds : Option Char → List Char → Bool) :
    Splits fun before text => assertion (holds before text) text := by
  intro before text m hm
  simp only [assertion] at hm
  split at hm
  · obtain rfl := List.mem_singleton.mp hm
    rfl
  · cases hm

theorem splits_run (r : Regex) : Splits r.run := by
  induction r with
  | eps => simp [Splits, run, Match.empty]
  | set p =>
    intro before text m hm
    cases text with
    | nil => cases hm
    | cons c cs =>
      simp only [run] at hm
      split at hm
      · obtain rfl := List.mem_singleton.mp hm
        rfl
      · cases hm
  | lineStart => exact splits_assertion fun before _ => decide (before = none ∨ before = some '\n')
  | lineEnd => exact splits_assertion fun _ text => decide (text = [] ∨ text.head? = some '\n')
  | textStart => exact splits_assertion fun before _ => decide (before = none)
  | boundary isWord => exact splits_assertion fun before text => before.any isWord != text.head?.any isWord
  | seq r s ihr ihs => exact fun before text => splits_bind (ihr before text) ihs
  | alt r s ihr ihs =>
    intro before text m hm
    exact (List.mem_append.mp hm).elim (ihr before text m) (ihs before text m)
  | upTo n r ih => exact splits_greedy ih n
  | star r ih => exact fun before text => splits_greedy ih text.length before text
  | lazyStar r ih => exact fun before text => splits_lazy ih text.length before text
  | group name r ih =>
    intro before text m hm
    obtain ⟨m', hm', rfl⟩ := List.mem_map.mp hm
    exact ih before text m' hm'

theorem text_append_rest (h : r.first before text = some m) : m.text ++ m.rest = text :=
  splits_run r before text m (List.mem_of_find?_eq_some h)

theorem text_ne_nil (h : r.first before text = some m) : m.text ≠ [] := by
  simpa using List.find?_some h

theorem length_rest_lt (h : r.first before text = some m) : m.rest.length < text.length := by
  rw [← text_append_rest h, List.length_append]
  have := List.length_pos_of_ne_nil (text_ne_nil h)
  omega

end

-- ---------------------------------------------------------------------------
-- Finding all matches
-- ---------------------------------------------------------------------------

section
variable {r : Regex} {before : Option Char} {text cs gap rest : List Char} {m : Match} {c : Char}

/-- As many steps as the text has characters are enough. -/
theorem search_eq (h : text.length ≤ n) : r.search n before text = r.finditerFrom before text := by
  unfold finditerFrom
  induction n using Nat.strong_induction_on generalizing before text with
  | _ n ih =>
    cases text with
    | nil => cases n <;> rfl
    | cons c cs =>
      cases n with
      | zero => cases h
      | succ n =>
        have hcs : cs.length ≤ n := Nat.le_of_succ_le_succ h
        rw [List.length_cons, search, search]
        cases hfirst : r.first before (c :: cs) with
        | none => simp only [ih n (Nat.lt_succ_self n) hcs]
        | some m =>
          have hlt : m.rest.length ≤ cs.length := Nat.le_of_lt_succ (length_rest_lt hfirst)
          simp only [ih n (Nat.lt_succ_self n) (hlt.trans hcs)]
          rw [ih cs.length (Nat.lt_succ_of_le hcs) hlt]

@[simp] theorem finditerFrom_nil : r.finditerFrom before [] = ([], []) := rfl

theorem finditerFrom_cons_none (h : r.first before (c :: cs) = none) :
    r.finditerFrom before (c :: cs) = (r.finditerFrom (some c) cs).push c := by
  rw [finditerFrom, List.length_cons, search, h]
  rfl

theorem finditerFrom_of_some (h : r.first before text = some m) :
    r.finditerFrom before text = (r.finditerFrom (lastOf before m.text) m.rest).add m := by
  have hlt := length_rest_lt h
  cases text with
  | nil => cases hlt
  | cons c cs =>
    rw [finditerFrom, List.length_cons, search, h]
    exact congrArg (Found.add m) (search_eq (Nat.le_of_lt_succ hlt))

/-- Text in front of everything found. -/
def Found.prepend (gap : List Char) (found : Found) : Found := gap.foldr Found.push found

/-- No match begins in `gap`. -/
def Unmatched (r : Regex) (before : Option Char) (gap rest : List Char) : Prop :=
  ∀ front back, gap = front ++ back → back ≠ [] → r.first (lastOf before front) (back ++ rest) = none

theorem unmatched_iff : Unmatched r before gap rest ↔
    ∀ n < gap.length, r.first (lastOf before (gap.take n)) (gap.drop n ++ rest) = none := by
  constructor
  · intro h n hn
    exact h (gap.take n) (gap.drop n) (List.take_append_drop n gap).symm fun hnil =>
      Nat.not_le_of_lt hn (List.drop_eq_nil_iff.mp hnil)
  · rintro h front back rfl hback
    have hlen : front.length < (front ++ back).length := by
      rw [List.length_append]
      exact Nat.lt_add_of_pos_right (List.length_pos_of_ne_nil hback)
    have hfront := h front.length hlen
    rwa [List.take_left, List.drop_left] at hfront

instance : Decidable (Unmatched r before gap rest) := decidable_of_iff _ unmatched_iff.symm

theorem lastOf_cons : lastOf before (c :: front) = lastOf (some c) front := by
  cases hlast : front.getLast? <;> simp [lastOf, List.getLast?_cons, hlast]

theorem lastOf_append_of_ne_nil (before : Option Char) (front : List Char) (h : gap ≠ []) :
    lastOf before (front ++ gap) = gap.getLast? := by
  rw [lastOf, List.getLast?_append_of_ne_nil front h]
  exact Option.or_of_isSome (List.getLast?_isSome.mpr h)

theorem finditerFrom_append (h : Unmatched r before gap rest) :
    r.finditerFrom before (gap ++ rest) = (r.finditerFrom (lastOf before gap) rest).prepend gap := by
  induction gap generalizing before with
  | nil => rfl
  | cons c gap ih =>
    have hnone : r.first before (c :: (gap ++ rest)) = none := h [] (c :: gap) rfl (List.cons_ne_nil c gap)
    have hrest : Unmatched r (some c) gap rest := by
      intro front back hgap hback
      rw [← lastOf_cons]
      exact h (c :: front) back (by rw [hgap, List.cons_append]) hback
    rw [List.cons_append, finditerFrom_cons_none hnone, ih hrest, lastOf_cons]
    rfl

theorem Found.prepend_cons_matches (gap gap' tail : List Char) (ms : List (List Char × Match)) :
    Found.prepend gap ((gap', m) :: ms, tail) = ((gap ++ gap', m) :: ms, tail) := by
  induction gap with
  | nil => rfl
  | cons c gap ih => rw [Found.prepend, List.foldr_cons, ← Found.prepend, ih]; rfl

theorem Found.prepend_add (gap : List Char) (m : Match) (found : Found) :
    (found.add m).prepend gap = ((gap, m) :: found.1, found.2) := by
  rw [Found.add, Found.prepend_cons_matches, List.append_nil]

/-- The whole text, gap by gap and match by match. -/
def Found.all (found : Found) : List Char := found.replace Match.text

theorem Found.replace_push (repl : Match → List Char) (c : Char) (found : Found) :
    (found.push c).replace repl = c :: found.replace repl := by
  obtain ⟨_ | ⟨⟨gap, m⟩, ms⟩, tail⟩ := found <;> rfl

theorem Found.replace_add (repl : Match → List Char) (m : Match) (found : Found) :
    (found.add m).replace repl = repl m ++ found.replace repl := by
  simp [Found.replace, Found.add]

theorem Found.replace_prepend (repl : Match → List Char) (gap : List Char) (found : Found) :
    (found.prepend gap).replace repl = gap ++ found.replace repl := by
  induction gap with
  | nil => rfl
  | cons c gap ih => rw [Found.prepend, List.foldr_cons, ← Found.prepend, Found.replace_push, ih]; rfl

/-- What is proved of the text without a match and of one match after the
other is proved of every search. -/
theorem finditerFrom_induction {P : Option Char → List Char → Found → Prop}
    (hnil : ∀ before, P before [] ([], []))
    (hpush : ∀ before c cs found, r.first before (c :: cs) = none → P (some c) cs found →
      P before (c :: cs) (found.push c))
    (hadd : ∀ before text m found, r.first before text = some m → P (lastOf before m.text) m.rest found →
      P before text (found.add m)) (before : Option Char) (text : List Char) :
    P before text (r.finditerFrom before text) := by
  induction hn : text.length using Nat.strong_induction_on generalizing before text with
  | _ n ih =>
    subst hn
    cases text with
    | nil => exact hnil before
    | cons c cs =>
      cases hfirst : r.first before (c :: cs) with
      | none =>
        rw [finditerFrom_cons_none hfirst]
        exact hpush before c cs _ hfirst (ih cs.length (Nat.lt_succ_self _) (some c) cs rfl)
      | some m =>
        rw [finditerFrom_of_some hfirst]
        exact hadd before _ m _ hfirst (ih m.rest.length (length_rest_lt hfirst) _ m.rest rfl)

theorem all_finditerFrom (r : Regex) (before : Option Char) (text : List Char) :
    (r.finditerFrom before text).all = text := by
  refine finditerFrom_induction (P := fun _ text found => found.all = text) (fun _ => rfl) ?_ ?_ before text
  · intro _ c cs found _ ih
    rw [Found.all, Found.replace_push]
    exact congrArg (c :: ·) ih
  · intro _ text m found hfirst ih
    rw [Found.all, Found.replace_add]
    exact (congrArg (m.text ++ ·) ih).trans (text_append_rest hfirst)

def Found.matches (found : Found) : List Match := found.1.map Prod.snd

theorem Found.matches_push (c : Char) (found : Found) : (found.push c).matches = found.matches := by
  obtain ⟨_ | ⟨⟨gap, m⟩, ms⟩, tail⟩ := found <;> rfl

theorem Found.matches_add (m : Match) (found : Found) : (found.add m).matches = m :: found.matches := rfl

/-- Where nothing matches there is nothing to replace. -/
theorem replace_of_no_matches (repl : Match → List Char) (h : (r.finditerFrom before text).matches = []) :
    (r.finditerFrom before text).replace repl = text := by
  have hall : (r.finditerFrom before text).all = text := all_finditerFrom r before text
  have hnil : (r.finditerFrom before text).1 = [] := List.map_eq_nil_iff.mp h
  rw [Found.all, Found.replace, hnil] at hall
  rw [Found.replace, hnil]
  exact hall

theorem sub_of_no_matches (repl : Match → List Char) (h : (r.finditer text).matches = []) :
    r.sub repl text = text := replace_of_no_matches repl h

/-- Each match is the first one at its place. -/
theorem exists_first_of_mem (h : m ∈ (r.finditerFrom before text).matches) :
    ∃ before' text', r.first before' text' = some m := by
  revert h
  refine finditerFrom_induction
    (P := fun _ _ found => m ∈ found.matches → ∃ before' text', r.first before' text' = some m)
    (fun _ hm => nomatch hm) ?_ ?_ before text
  · intro _ c cs found _ ih hm
    rw [Found.matches_push] at hm
    exact ih hm
  · intro before text m' found hfirst ih hm
    rw [Found.matches_add] at hm
    rcases List.mem_cons.mp hm with rfl | hm
    · exact ⟨before, text, hfirst⟩
    · exact ih hm

end

-- ---------------------------------------------------------------------------
-- Sequences
-- ---------------------------------------------------------------------------

def Match.cons (c : Char) (m : Match) : Match := { m with text := c :: m.text }

section
variable {r s : Regex} {before : Option Char} {text w : List Char} {m : Match} {p : Char → Bool}

theorem run_seq (r s : Regex) (before : Option Char) (text : List Char) : run (.seq r s) before text =
    (run r before text).flatMap fun m => m.andThen (run s (lastOf before m.text) m.rest) := rfl

theorem run_alt (r s : Regex) (before : Option Char) (text : List Char) :
    run (.alt r s) before text = run r before text ++ run s before text := rfl

theorem run_group (name : String) (r : Regex) (before : Option Char) (text : List Char) :
    run (.group name r) before text =
      (run r before text).map fun m => { m with groups := (name, m.text) :: m.groups } := rfl

@[simp] theorem andThen_empty (text : List Char) (ms : List Match) : (Match.empty text).andThen ms = ms := by
  simp [Match.andThen, Match.empty]

theorem flatMap_assertion (holds : Bool) (text : List Char) (f : Match → List Match) :
    (assertion holds text).flatMap f = if holds then f (.empty text) else [] := by
  cases holds <;> simp [assertion]

theorem run_boundary_seq (isWord : Char → Bool) : run (.seq (.boundary isWord) r) before text =
    if before.any isWord != text.head?.any isWord then run r before text else [] := by
  rw [run_seq, run, flatMap_assertion]
  simp only [andThen_empty]
  rfl

theorem run_seq_of_nil (s : Regex) (h : run r before text = []) : run (.seq r s) before text = [] := by
  rw [run_seq, h]
  rfl

theorem run_seq_of_singleton (s : Regex) (h : run r before text = [m]) :
    run (.seq r s) before text = m.andThen (run s (lastOf before m.text) m.rest) := by
  rw [run_seq, h, List.flatMap_singleton]

/-- A pattern that takes nothing is passed over. -/
theorem run_seq_of_empty (s : Regex) (h : run r before text = [.empty text]) :
    run (.seq r s) before text = run s before text := by
  rw [run_seq_of_singleton s h, andThen_empty]
  rfl

@[simp] theorem run_seq_eps : run (.seq r .eps) before text = run r before text := by
  have hself : ∀ m : Match, m.andThen (run .eps (lastOf before m.text) m.rest) = [m] := fun m => by
    simp [run, Match.andThen, Match.empty]
  rw [run_seq, List.flatMap_congr fun m _ => hself m]
  exact List.flatMap_pure_eq_map id _ |>.trans (List.map_id _)

/-- A repetition that cannot begin takes nothing. -/
theorem run_star_of_nil (h : run r before text = []) : run (.star r) before text = [.empty text] := by
  simp only [run]
  cases text with
  | nil => rfl
  | cons c cs => simp only [List.length_cons, greedy, rounds, h, List.filter_nil, List.flatMap_nil, List.nil_append]

theorem run_lineStart_seq : run (.seq .lineStart r) before text =
    if before = none ∨ before = some '\n' then run r before text else [] := by
  rw [run_seq, run, flatMap_assertion]
  simp only [decide_eq_true_eq, andThen_empty]
  rfl

theorem run_seq_lineEnd : run (.seq r .lineEnd) before text =
    (run r before text).filter fun m => decide (m.rest = [] ∨ m.rest.head? = some '\n') := by
  rw [run_seq]
  induction run r before text with
  | nil => rfl
  | cons m ms ih =>
    rw [List.flatMap_cons, ih, List.filter_cons]
    split
    · simp_all [run, assertion, Match.andThen, Match.empty]
    · simp_all [run, assertion, Match.andThen, Match.empty]

theorem run_set_seq (c : Char) (cs : List Char) : run (.seq (.set p) r) before (c :: cs) =
    if p c then (run r (some c) cs).map (Match.cons c) else [] := by
  simp only [run]
  split
  · simp [Match.andThen, Match.cons, lastOf]
  · rfl

theorem run_lit (w : List Char) (before : Option Char) (text : List Char) : run (lit w) before text =
    if w <+: text then [⟨w, text.drop w.length, []⟩] else [] := by
  induction w generalizing before text with
  | nil => simp [lit, run, Match.empty]
  | cons c w ih =>
    cases text with
    | nil => rfl
    | cons d text =>
      rw [show lit (c :: w) = .seq (.set fun d => decide (d = c)) (lit w) from rfl, run_set_seq, ih]
      by_cases hd : d = c
      · subst hd
        simp only [decide_true, if_true, List.cons_prefix_cons, true_and]
        split <;> rfl
      · simp [hd, Ne.symm hd]

/-- A literal text takes itself. -/
theorem run_lit_seq (w : List Char) (r : Regex) (before : Option Char) (text : List Char) :
    run (.seq (lit w) r) before (w ++ text) = Match.andThen ⟨w, text, []⟩ (run r (lastOf before w) text) := by
  rw [run_seq, run_lit, if_pos (List.prefix_append w text)]
  simp

theorem run_lit_seq_of_not (h : ¬ w <+: text) : run (.seq (lit w) r) before text = [] := by
  rw [run_seq, run_lit, if_neg h]
  rfl

theorem run_litBy_of_not {f : Char → Char} (h : ¬ w <+: text.map f) : run (litBy f w) before text = [] := by
  induction w generalizing before text with
  | nil => exact absurd List.nil_prefix h
  | cons c w ih =>
    cases text with
    | nil => rfl
    | cons d text =>
      rw [show litBy f (c :: w) = .seq (.set fun d => decide (f d = c)) (litBy f w) from rfl, run_set_seq]
      split
      · rename_i hd
        rw [ih fun hw => h (List.cons_prefix_cons.mpr ⟨(of_decide_eq_true hd).symm, hw⟩)]
        rfl
      · rfl

end

-- ---------------------------------------------------------------------------
-- Runs of characters
-- ---------------------------------------------------------------------------

/-- What up to `n` characters of a class can be, the longest first. -/
def classRuns (p : Char → Bool) : Nat → List Char → List Match
  | n + 1, c :: cs => if p c then (classRuns p n cs).map (Match.cons c) ++ [.empty (c :: cs)] else [.empty (c :: cs)]
  | _, text => [.empty text]

section
variable {p : Char → Bool} {before : Option Char} {text w rest : List Char} {m : Match} {n : Nat}

theorem rounds_set (more : Step) (before : Option Char) (c : Char) (cs : List Char) :
    rounds (run (.set p)) more before (c :: cs) = if p c then (more (some c) cs).map (Match.cons c) else [] := by
  simp only [rounds, run]
  split
  · simp [Match.andThen, Match.cons, lastOf]
  · rfl

theorem greedy_set (p : Char → Bool) (n : Nat) (before : Option Char) (text : List Char) :
    greedy (run (.set p)) n before text = classRuns p n text := by
  induction n generalizing before text with
  | zero => cases text <;> rfl
  | succ n ih =>
    cases text with
    | nil => rfl
    | cons c cs =>
      change rounds (run (.set p)) (greedy (run (.set p)) n) before (c :: cs) ++ _ = _
      rw [rounds_set, classRuns]
      split
      · rw [ih]
      · rfl

theorem run_star_set (p : Char → Bool) (before : Option Char) (text : List Char) :
    run (.star (.set p)) before text = classRuns p text.length text := greedy_set p _ before text

/-- The longest run comes first. -/
theorem classRuns_append (hw : ∀ c ∈ w, p c) (hn : w.length ≤ n) (hrest : w.length = n ∨ ∀ c ∈ rest.head?, ¬ p c) :
    ∃ shorter, classRuns p n (w ++ rest) = ⟨w, rest, []⟩ :: shorter := by
  induction w generalizing n with
  | nil =>
    cases n with
    | zero => exact ⟨[], by simp [classRuns, Match.empty]⟩
    | succ n =>
      cases rest with
      | nil => exact ⟨[], rfl⟩
      | cons c cs =>
        have hc : ¬ p c := hrest.resolve_left (by simp) c rfl
        exact ⟨[], by simp [classRuns, hc, Match.empty]⟩
  | cons c w ih =>
    obtain ⟨hc, hw⟩ := List.forall_mem_cons.mp hw
    cases n with
    | zero => cases hn
    | succ n =>
      obtain ⟨shorter, hshorter⟩ := ih hw (Nat.le_of_succ_le_succ hn) (hrest.imp Nat.succ.inj id)
      rw [List.cons_append, classRuns, if_pos hc, hshorter]
      exact ⟨_, rfl⟩

/-- One character or more: the longest run comes first. -/
theorem run_plus_set (before : Option Char) (hw : ∀ c ∈ w, p c) (hne : w ≠ []) (hrest : ∀ c ∈ rest.head?, ¬ p c) :
    ∃ shorter, run (.plus (.set p)) before (w ++ rest) = ⟨w, rest, []⟩ :: shorter := by
  cases w with
  | nil => exact absurd rfl hne
  | cons c w =>
    obtain ⟨hc, hw⟩ := List.forall_mem_cons.mp hw
    obtain ⟨shorter, hshorter⟩ := classRuns_append hw (n := (w ++ rest).length) (by simp) (.inr hrest)
    rw [plus, List.cons_append, run_set_seq, if_pos hc, run_star_set, hshorter]
    exact ⟨_, rfl⟩

/-- One character or more, up to `n`. -/
theorem run_oneUpTo_set (before : Option Char) (hw : ∀ c ∈ w, p c) (hne : w ≠ []) (hn : w.length ≤ n)
    (hrest : w.length = n ∨ ∀ c ∈ rest.head?, ¬ p c) :
    ∃ shorter, run (.oneUpTo n (.set p)) before (w ++ rest) = ⟨w, rest, []⟩ :: shorter := by
  cases w with
  | nil => exact absurd rfl hne
  | cons c w =>
    obtain ⟨hc, hw⟩ := List.forall_mem_cons.mp hw
    obtain ⟨n, rfl⟩ := Nat.exists_eq_succ_of_ne_zero (show n ≠ 0 from Nat.ne_zero_of_lt hn)
    obtain ⟨shorter, hshorter⟩ := classRuns_append hw (Nat.le_of_succ_le_succ hn) (hrest.imp Nat.succ.inj id)
    rw [oneUpTo, List.cons_append, run_set_seq, if_pos hc, run, greedy_set, Nat.succ_sub_one, hshorter]
    exact ⟨_, rfl⟩

theorem run_plus_set_of_not (h : ∀ c ∈ text.head?, ¬ p c) : run (.plus (.set p)) before text = [] := by
  cases text with
  | nil => rfl
  | cons c cs => rw [plus, run_set_seq, if_neg (h c rfl)]

/-- No character of the class, or no room for one: nothing is taken. -/
theorem classRuns_of_not (h : ∀ c ∈ text.head?, ¬ p c) : classRuns p n text = [.empty text] := by
  cases n with
  | zero => cases text <;> rfl
  | succ n =>
    cases text with
    | nil => rfl
    | cons c cs => rw [classRuns, if_neg (h c rfl)]

end

end Regex

end Intelliqx.Py
