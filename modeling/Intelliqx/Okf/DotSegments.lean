import Intelliqx.Okf.Links

/-!
# Dot segments

The loop of `normalise_path` ends on every path with the one whose segments are
those of the path but for the dots in front of others (`normalise_path_segments`).
Dots lead nowhere, so it is a path to the same place of the bundle.
-/

namespace Intelliqx.Okf

open Py

/-- A run of the loop from a path to its end, and the path it returns. -/
inductive NormaliseLoop : List Char → List Char → Prop
  | done (heq : normaliseOnce path = path) : NormaliseLoop path path
  | round (hne : normaliseOnce path ≠ path) (hloop : NormaliseLoop (normaliseOnce path) result) :
      NormaliseLoop path result

/-- The segments without the dots, where a final one stays. -/
def withoutDots (segments : List Part) : List Part :=
  segments.dropLast.filter (fun part => part ≠ dot) ++ segments.getLast?.toList

/-- The concept that a path from the root of the bundle denotes; a leading slash is the root too. -/
def OKFBundle.conceptAt (b : OKFBundle) (path : List Char) : Option LinkingConcept :=
  let loc := collapse (b.root ++ path.splitOn '/')
  if b.root <+: loc ∧ loc ≠ b.root then b.concepts.get? (.ofList (['/'].intercalate (loc.drop b.root.length)))
  else none

section
variable {path result : List Char} {front segments : List Part} {last : Part} {n : Nat}

-- ---------------------------------------------------------------------------
-- The loop
-- ---------------------------------------------------------------------------

theorem length_normaliseOnce_lt (hne : normaliseOnce path ≠ path) : (normaliseOnce path).length < path.length := by
  have hlen : (normaliseOnce path).length + 2 * (pathNormaliseRe.finditer path).matches.length = path.length :=
    length_replace none path
  have hmatch : (pathNormaliseRe.finditer path).matches ≠ [] := fun h => hne (Regex.sub_of_no_matches _ h)
  have hpos := List.length_pos_iff.mpr hmatch
  omega

theorem normaliseFrom_ends (h : path.length ≤ n) : NormaliseLoop path (normaliseFrom n path) := by
  induction n generalizing path with
  | zero =>
    rw [List.length_eq_zero_iff.mp (Nat.le_zero.mp h)]
    exact .done rfl
  | succ n ih =>
    rw [normaliseFrom]
    split
    · rename_i heq
      exact .done heq
    · rename_i hne
      have hlt := length_normaliseOnce_lt hne
      exact .round hne (ih (by omega))

theorem NormaliseLoop.unique (h : NormaliseLoop path result) (h' : NormaliseLoop path result') : result = result' := by
  induction h with
  | done heq =>
    cases h' with
    | done => rfl
    | round hne _ => exact absurd heq hne
  | round hne _ ih =>
    cases h' with
    | done heq => exact absurd heq hne
    | round _ hloop => exact ih hloop

/-- The loop ends on every path, with one result. -/
theorem normaliseLoop_iff : NormaliseLoop path result ↔ result = normalisePath path := by
  have hends := normaliseFrom_ends (Nat.le_refl path.length)
  exact ⟨fun h => h.unique hends, fun h => h ▸ hends⟩

-- ---------------------------------------------------------------------------
-- Segments
-- ---------------------------------------------------------------------------

theorem withoutDots_concat (front : List Part) (last : Part) :
    withoutDots (front ++ [last]) = front.filter (fun part => part ≠ dot) ++ [last] := by
  simp [withoutDots]

theorem withoutDots_idem (segments : List Part) : withoutDots (withoutDots segments) = withoutDots segments := by
  by_cases hne : segments = []
  · rw [hne]
    rfl
  · obtain ⟨front, last, rfl⟩ := exists_last hne
    rw [withoutDots_concat, withoutDots_concat, List.filter_filter]
    simp only [Bool.and_self]

theorem splitOn_normalisePath (path : List Char) :
    (normalisePath path).splitOn '/' = withoutDots (path.splitOn '/') := by
  obtain ⟨front, last, hsplit⟩ := exists_last (List.splitOn_ne_nil '/' path)
  have hslash : ∀ part ∈ front ++ [last], '/' ∉ part :=
    fun part hpart => slash_not_mem_of_splitOn (hsplit ▸ hpart)
  have hpath : path = ['/'].intercalate (front ++ [last]) := by
    rw [← hsplit, List.intercalate_splitOn]
  have hkept : ∀ part ∈ front.filter (fun part => part ≠ dot) ++ [last], '/' ∉ part := by
    intro part hpart
    exact hslash part ((List.filter_sublist.append_right [last]).subset hpart)
  rw [hsplit, withoutDots_concat, hpath, normalisePath_join last hslash,
    List.splitOn_intercalate '/' hkept (by simp)]

theorem normalisePath_idem (path : List Char) : normalisePath (normalisePath path) = normalisePath path := by
  have hsplit : (normalisePath (normalisePath path)).splitOn '/' = (normalisePath path).splitOn '/' := by
    rw [splitOn_normalisePath, splitOn_normalisePath, withoutDots_idem]
  calc normalisePath (normalisePath path)
      = ['/'].intercalate ((normalisePath (normalisePath path)).splitOn '/') := (List.intercalate_splitOn '/').symm
    _ = ['/'].intercalate ((normalisePath path).splitOn '/') := by rw [hsplit]
    _ = normalisePath path := List.intercalate_splitOn '/'

/-- Dots lead nowhere, from whichever directory the path is read. -/
theorem collapse_normalisePath (dir : List Part) (path : List Char) :
    collapse (dir ++ (normalisePath path).splitOn '/') = collapse (dir ++ path.splitOn '/') := by
  obtain ⟨front, last, hsplit⟩ := exists_last (List.splitOn_ne_nil '/' path)
  rw [splitOn_normalisePath, hsplit, withoutDots_concat, collapse_append, collapse_append, List.foldl_append,
    List.foldl_append, foldl_collapseStep_filter _ fun part h => .inr (by simpa using h)]

end

/-- For every path `normalise_path` ends, with the path without the dot segments in front of others;
that one is left as it is, leads to the same place from every directory and denotes the same concept
in every bundle. -/
theorem normalise_path_segments (path : List Char) :
    NormaliseLoop path (normalisePath path) ∧
      (normalisePath path).splitOn '/' = withoutDots (path.splitOn '/') ∧
      normalisePath (normalisePath path) = normalisePath path ∧
      (∀ dir, collapse (dir ++ (normalisePath path).splitOn '/') = collapse (dir ++ path.splitOn '/')) ∧
      ∀ b : OKFBundle, b.conceptAt (normalisePath path) = b.conceptAt path := by
  refine ⟨normaliseLoop_iff.mpr rfl, splitOn_normalisePath path, normalisePath_idem path,
    fun dir => collapse_normalisePath dir path, fun b => ?_⟩
  rw [OKFBundle.conceptAt, OKFBundle.conceptAt, collapse_normalisePath]

example : normalisePath "././a/././/./b/.".toList = "a//b/.".toList := by decide +kernel

end Intelliqx.Okf
