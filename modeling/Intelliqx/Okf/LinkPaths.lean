import Intelliqx.Py.Path
import Intelliqx.Py.Regex
import Intelliqx.Okf.Concept

/-!
# The paths of links

`normalise_path` replaces `./` at the beginning of a component by nothing,
again and again until nothing changes. `normalisePath_join` says what is left:
the components without the dots in front of others.
-/

namespace Intelliqx.Okf

open Py Regex

/-- `(^|/)\./` -/
def pathNormaliseRe : Regex :=
  .seq (.group "1" (.alt .textStart (.set fun c => decide (c = '/')))) (.lit ['.', '/'])

/-- `PATH_NORMALISE_RE.sub(r"\1", path)` -/
def normaliseOnce (path : List Char) : List Char := pathNormaliseRe.sub (·.group "1") path

def normaliseFrom : Nat → List Char → List Char
  | 0, path => path
  | n + 1, path => if normaliseOnce path = path then path else normaliseFrom n (normaliseOnce path)

/-- `normalise_path`: a round that changes something makes the path shorter. -/
def normalisePath (path : List Char) : List Char := normaliseFrom path.length path

/-- `id[: -len(".md")]` where the id ends in `.md`. -/
def dropMd (id : List Char) : List Char :=
  if ['.', 'm', 'd'].isSuffixOf id then id.take (id.length - 3) else id

section
variable {before : Option Char} {text rest cs : List Char} {m : Match}

-- ---------------------------------------------------------------------------
-- One round
-- ---------------------------------------------------------------------------

theorem run_pathNormaliseRe : pathNormaliseRe.run before text =
    (if before = none ∧ ['.', '/'] <+: text then [⟨['.', '/'], text.drop 2, [("1", [])]⟩] else []) ++
      if ['/', '.', '/'] <+: text then [⟨['/', '.', '/'], text.drop 3, [("1", ['/'])]⟩] else [] := by
  rw [pathNormaliseRe, run_seq, run_group, run_alt, List.map_append, List.flatMap_append]
  congr 1
  · by_cases hb : before = none
    · by_cases hpre : ['.', '/'] <+: text <;>
        simp [run, assertion, hb, hpre, Match.empty, Match.andThen, run_lit]
    · simp [run, assertion, hb]
  · cases text with
    | nil => rfl
    | cons c cs =>
      by_cases hc : c = '/'
      · by_cases hpre : ['.', '/'] <+: cs <;> simp [run, hc, hpre, Match.andThen, run_lit]
      · simp [run, hc, Ne.symm hc]

theorem dots_of_first (h : pathNormaliseRe.first before text = some m) :
    (before = none ∧ text = '.' :: '/' :: m.rest ∧ m.text = ['.', '/'] ∧ m.group "1" = []) ∨
      (text = '/' :: '.' :: '/' :: m.rest ∧ m.text = ['/', '.', '/'] ∧ m.group "1" = ['/']) := by
  have hmem : m ∈ pathNormaliseRe.run before text := List.mem_of_find?_eq_some h
  rw [run_pathNormaliseRe] at hmem
  rcases List.mem_append.mp hmem with hmem | hmem
  · split at hmem
    · rename_i hpre
      obtain ⟨hbefore, rest, rfl⟩ := hpre
      cases List.mem_singleton.mp hmem
      exact .inl ⟨hbefore, rfl, rfl, rfl⟩
    · cases hmem
  · split at hmem
    · rename_i hpre
      obtain ⟨rest, rfl⟩ := hpre
      cases List.mem_singleton.mp hmem
      exact .inr ⟨rfl, rfl, rfl⟩
    · cases hmem

theorem first_dots_ne_none (h : (before = none ∧ ['.', '/'] <+: text) ∨ ['/', '.', '/'] <+: text) :
    pathNormaliseRe.first before text ≠ none := by
  rw [Regex.first, run_pathNormaliseRe]
  rcases h with h | h
  · rw [if_pos h]
    simp
  · rw [if_pos h]
    split <;> simp

/-- The text without the dots in front of other components, where a component may begin. -/
def undot : Bool → List Char → List Char
  | true, '.' :: '/' :: cs => undot true cs
  | _, c :: cs => c :: undot (c = '/') cs
  | _, [] => []

theorem undot_dots (cs : List Char) : undot true ('.' :: '/' :: cs) = undot true cs := by
  rw [undot]

theorem undot_cons {begins : Bool} {c : Char} (h : begins → ¬ ['.', '/'] <+: c :: cs) :
    undot begins (c :: cs) = c :: undot (decide (c = '/')) cs := by
  rw [undot]
  rintro cs' rfl rfl rfl
  exact h rfl (List.prefix_append ['.', '/'] cs')

theorem undot_begins (h : ¬ ['.', '/'] <+: cs) : undot true cs = undot false cs := by
  cases cs with
  | nil => rfl
  | cons c cs => rw [undot_cons fun _ => h, undot_cons fun hb => absurd hb (by decide)]

theorem undot_slash (begins : Bool) (cs : List Char) : undot begins ('/' :: cs) = '/' :: undot true cs :=
  undot_cons fun _ h => absurd (List.cons_prefix_cons.mp h).1 (by decide)

/-- A component may begin behind this character. -/
def begins (before : Option Char) : Bool := before.all fun c => decide (c = '/')

/-- One round changes nothing that `undot` keeps. -/
theorem undot_replace (before : Option Char) (text : List Char) :
    undot (begins before) ((pathNormaliseRe.finditerFrom before text).replace (·.group "1")) =
      undot (begins before) text ∧
    (before ≠ none →
      ((pathNormaliseRe.finditerFrom before text).replace (·.group "1")).head? = text.head?) := by
  refine finditerFrom_induction (P := fun before text found =>
    undot (begins before) (found.replace (·.group "1")) = undot (begins before) text ∧
    (before ≠ none → (found.replace (·.group "1")).head? = text.head?)) ?_ ?_ ?_ before text
  · exact fun _ => ⟨rfl, fun _ => rfl⟩
  · intro before c cs found hfirst ih
    have hundot : undot (decide (c = '/')) (found.replace (·.group "1")) = undot (decide (c = '/')) cs := ih.1
    have hhead : (found.replace (·.group "1")).head? = cs.head? := ih.2 (by simp)
    rw [Found.replace_push]
    refine ⟨?_, fun _ => rfl⟩
    by_cases hdots : begins before ∧ ['.', '/'] <+: c :: cs
    · obtain ⟨hbegins, hdots⟩ := hdots
      obtain ⟨rfl, cs', rfl⟩ := List.cons_prefix_cons.mp hdots
      obtain ⟨replaced, hreplaced⟩ := List.head?_eq_some_iff.mp hhead
      rw [hreplaced] at hundot ⊢
      -- behind a slash the dot has to wait for the next round
      rw [hbegins, undot_dots, List.singleton_append, undot_dots]
      rw [List.singleton_append, undot_slash, undot_slash] at hundot
      exact List.tail_eq_of_cons_eq hundot
    · have hsame : ['.', '/'] <+: c :: found.replace (·.group "1") ↔ ['.', '/'] <+: c :: cs := by
        rw [List.cons_prefix_cons, List.cons_prefix_cons, List.singleton_prefix_iff_head?_eq_some,
          List.singleton_prefix_iff_head?_eq_some, hhead]
      rw [undot_cons fun hb => fun h => hdots ⟨hb, hsame.mp h⟩, undot_cons fun hb => fun h => hdots ⟨hb, h⟩, hundot]
  · intro before text m found hfirst ih
    rw [Found.replace_add]
    rcases dots_of_first hfirst with ⟨hbefore, htext, hm, hgroup⟩ | ⟨htext, hm, hgroup⟩
    · have hrest := ih.1
      rw [hm, hbefore] at hrest
      rw [hgroup, htext, hbefore]
      refine ⟨?_, fun h => absurd rfl h⟩
      exact hrest.trans (undot_dots _).symm
    · have hrest := ih.1
      rw [hm] at hrest
      rw [hgroup, htext]
      refine ⟨?_, fun _ => rfl⟩
      rw [List.singleton_append, undot_slash, undot_slash, undot_dots]
      exact congrArg ('/' :: ·) hrest

-- ---------------------------------------------------------------------------
-- All rounds
-- ---------------------------------------------------------------------------

theorem length_replace (before : Option Char) (text : List Char) :
    ((pathNormaliseRe.finditerFrom before text).replace (·.group "1")).length +
      2 * (pathNormaliseRe.finditerFrom before text).matches.length = text.length := by
  refine finditerFrom_induction (P := fun _ text found =>
    (found.replace (·.group "1")).length + 2 * found.matches.length = text.length) ?_ ?_ ?_ before text
  · exact fun _ => rfl
  · intro _ c cs found _ ih
    rw [Found.replace_push, Found.matches_push, List.length_cons, List.length_cons]
    omega
  · intro before text m found hfirst ih
    rw [Found.replace_add, Found.matches_add, List.length_append, List.length_cons]
    rcases dots_of_first hfirst with ⟨-, htext, -, hgroup⟩ | ⟨htext, -, hgroup⟩
    · have hlen := congrArg List.length htext
      rw [hgroup]
      simp only [List.length_cons, List.length_nil] at hlen ⊢
      omega
    · have hlen := congrArg List.length htext
      rw [hgroup]
      simp only [List.length_cons, List.length_nil] at hlen ⊢
      omega

theorem undot_of_no_matches (before : Option Char) (text : List Char) :
    (pathNormaliseRe.finditerFrom before text).matches = [] → undot (decide (before = none)) text = text := by
  refine finditerFrom_induction
    (P := fun before text found => found.matches = [] → undot (decide (before = none)) text = text) ?_ ?_ ?_ before text
  · intro before _
    cases before <;> rfl
  · intro before c cs found hfirst ih hnone
    rw [Found.matches_push] at hnone
    have hcs : undot false cs = cs := ih hnone
    have hnot : ¬ ((before = none ∧ ['.', '/'] <+: c :: cs) ∨ ['/', '.', '/'] <+: c :: cs) :=
      fun h => first_dots_ne_none h hfirst
    rw [not_or] at hnot
    rw [undot_cons fun hb h => hnot.1 ⟨of_decide_eq_true hb, h⟩]
    by_cases hc : c = '/'
    · subst hc
      have hdots : ¬ ['.', '/'] <+: cs := fun h => hnot.2 (List.cons_prefix_cons.mpr ⟨rfl, h⟩)
      rw [decide_eq_true rfl, undot_begins hdots, hcs]
    · rw [decide_eq_false hc, hcs]
  · intro _ _ m found _ _ hnone
    rw [Found.matches_add] at hnone
    cases hnone

theorem normaliseFrom_eq (h : text.length ≤ n) : normaliseFrom n text = undot true text := by
  induction n generalizing text with
  | zero => rw [List.length_eq_zero_iff.mp (Nat.le_zero.mp h)]; rfl
  | succ n ih =>
    obtain ⟨rounds, hrounds⟩ : ∃ k, (pathNormaliseRe.finditer text).matches.length = k := ⟨_, rfl⟩
    have hlen : (normaliseOnce text).length + 2 * rounds = text.length := hrounds ▸ length_replace none text
    have hundot : undot true (normaliseOnce text) = undot true text := (undot_replace none text).1
    rw [normaliseFrom]
    split
    · rename_i heq
      rw [heq] at hlen
      have hnone : rounds = 0 := by omega
      exact (undot_of_no_matches none text (List.length_eq_zero_iff.mp (hrounds.trans hnone))).symm
    · rename_i hne
      have hmatch : rounds ≠ 0 := fun h =>
        hne (sub_of_no_matches _ (List.length_eq_zero_iff.mp (hrounds.trans h)))
      rw [ih (by omega), hundot]

theorem normalisePath_eq (path : List Char) : normalisePath path = undot true path := normaliseFrom_eq (Nat.le_refl _)

-- ---------------------------------------------------------------------------
-- Components
-- ---------------------------------------------------------------------------

variable {part : Part} {front : List Part}

theorem undot_part {begins : Bool} (hslash : '/' ∉ part) (hdot : begins → part ≠ dot) (cs : List Char) :
    undot begins (part ++ '/' :: cs) = part ++ '/' :: undot true cs := by
  induction part generalizing begins with
  | nil => exact undot_slash begins cs
  | cons c part ih =>
    obtain ⟨hc, hpart⟩ := not_or.mp (mt List.mem_cons.mpr hslash)
    have hnot : begins → ¬ ['.', '/'] <+: c :: (part ++ '/' :: cs) := by
      rintro hb h
      obtain ⟨rfl, hrest⟩ := List.cons_prefix_cons.mp h
      cases part with
      | nil => exact hdot hb rfl
      | cons d part => exact hpart ((List.cons_prefix_cons.mp hrest).1 ▸ List.mem_cons_self)
    rw [List.cons_append, undot_cons hnot, decide_eq_false (Ne.symm hc), ih hpart (by simp), List.cons_append]

theorem undot_last {begins : Bool} (hslash : '/' ∉ part) : undot begins part = part := by
  induction part generalizing begins with
  | nil => cases begins <;> rfl
  | cons c part ih =>
    obtain ⟨hc, hpart⟩ := not_or.mp (mt List.mem_cons.mpr hslash)
    have hnot : begins → ¬ ['.', '/'] <+: c :: part := fun _ h =>
      hpart ((List.cons_prefix_cons.mp h).2.subset (List.mem_singleton_self _))
    rw [undot_cons hnot, ih hpart]

theorem join_cons (part : Part) (front : List Part) (last : Part) :
    ['/'].intercalate (part :: (front ++ [last])) = part ++ '/' :: ['/'].intercalate (front ++ [last]) := by
  rw [List.intercalate_cons_of_ne_nil (by simp)]
  simp

theorem normalisePath_join (last : Part) (h : ∀ part ∈ front ++ [last], '/' ∉ part) :
    normalisePath (['/'].intercalate (front ++ [last])) =
      ['/'].intercalate (front.filter (fun part => part ≠ dot) ++ [last]) := by
  rw [normalisePath_eq]
  induction front with
  | nil => simpa using undot_last (h last (by simp))
  | cons part front ih =>
    obtain ⟨hpart, hfront⟩ := List.forall_mem_cons.mp h
    rw [List.cons_append, join_cons]
    by_cases hdot : part = dot
    · subst hdot
      rw [List.filter_cons_of_neg (by simp), ← ih hfront]
      exact undot_dots _
    · rw [undot_part hpart fun _ => hdot, ih hfront, List.filter_cons_of_pos (by simpa using hdot), List.cons_append,
        join_cons]

theorem dropMd_md (id : List Char) : dropMd (id ++ ['.', 'm', 'd']) = id := by
  rw [dropMd, if_pos (List.isSuffixOf_iff_suffix.mpr (List.suffix_append _ _))]
  simp

theorem dropMd_of_not {id : List Char} (h : ¬ ['.', 'm', 'd'] <:+ id) : dropMd id = id :=
  if_neg fun hs => h (List.isSuffixOf_iff_suffix.mp hs)

theorem dropMd_slash (x y : List Char) : dropMd (x ++ '/' :: y) = x ++ '/' :: dropMd y := by
  by_cases hy : ['.', 'm', 'd'] <:+ y
  · obtain ⟨id, rfl⟩ := hy
    rw [dropMd_md, ← List.cons_append, ← List.append_assoc, dropMd_md]
  · rw [dropMd_of_not hy, dropMd_of_not]
    intro h
    rcases List.suffix_or_suffix_of_suffix h (List.suffix_append x ('/' :: y)) with hlong | hshort
    · rcases List.suffix_cons_iff.mp hlong with heq | htail
      · exact absurd (congrArg List.head? heq) (by simp)
      · exact hy htail
    · exact absurd (hshort.subset List.mem_cons_self) (by decide)

/-- The ending goes from the last component. -/
theorem dropMd_join (front : List Part) (last : Part) :
    dropMd (['/'].intercalate (front ++ [last])) = ['/'].intercalate (front ++ [dropMd last]) := by
  induction front with
  | nil => simp
  | cons part front ih => rw [List.cons_append, List.cons_append, join_cons, join_cons, dropMd_slash, ih]

end

end Intelliqx.Okf
