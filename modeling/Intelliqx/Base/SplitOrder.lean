import Mathlib.Data.List.Lex
import Mathlib.Data.List.Pairwise
import Mathlib.Data.List.Sort

/-!
# Order and splitting

Lists are compared as they are, or piece by piece after a split at a separator.
The two orders agree on a pair neither of which begins with all the pieces of
the other, except where one list goes on with the separator and the other with
something smaller (`SeparatorClash`).
-/

namespace Intelliqx

variable {α : Type u} [LinearOrder α] {sep : α} {x y : List α}

/-- After a common part, `x` goes on with the separator and `y` with something smaller. -/
def SeparatorClash (sep : α) (x y : List α) : Prop :=
  ∃ common rest b rest', x = common ++ sep :: rest ∧ y = common ++ b :: rest' ∧ b < sep

theorem SeparatorClash.cons (a : α) (h : SeparatorClash sep x y) :
    SeparatorClash sep (a :: x) (a :: y) := by
  obtain ⟨common, rest, b, rest', rfl, rfl, hb⟩ := h
  exact ⟨a :: common, rest, b, rest', rfl, rfl, hb⟩

-- ---------------------------------------------------------------------------
-- Splitting
-- ---------------------------------------------------------------------------

theorem splitOn_cons_self (x : List α) : (sep :: x).splitOn sep = [] :: x.splitOn sep := by
  rw [List.splitOn_cons_eq_if_modifyHead, if_pos (beq_self_eq_true sep)]

theorem splitOn_cons_ne {a : α} (h : a ≠ sep) (x : List α) :
    ∃ piece pieces, x.splitOn sep = piece :: pieces ∧
      (a :: x).splitOn sep = (a :: piece) :: pieces := by
  obtain ⟨piece, pieces, hx⟩ := List.exists_cons_of_ne_nil (List.splitOn_ne_nil sep x)
  refine ⟨piece, pieces, hx, ?_⟩
  have hne : ¬ (a == sep) = true := by simpa using h
  rw [List.splitOn_cons_eq_if_modifyHead, if_neg hne, hx, List.modifyHead_cons]

theorem splitOn_injective (sep : α) : Function.Injective (List.splitOn sep) := by
  intro x y h
  have hjoin : ∀ z : List α, [sep].intercalate (z.splitOn sep) = z := fun z => List.intercalate_splitOn sep
  rw [← hjoin x, h, hjoin]

theorem splitOn_intercalate_eq_flatMap {pieces : List (List α)} (h : pieces ≠ []) :
    ([sep].intercalate pieces).splitOn sep = pieces.flatMap (List.splitOn sep) := by
  induction pieces with
  | nil => exact absurd rfl h
  | cons piece pieces ih =>
    cases pieces with
    | nil => simp
    | cons next pieces =>
      have hjoin : [sep].intercalate (piece :: next :: pieces) =
          piece ++ sep :: [sep].intercalate (next :: pieces) := by
        rw [List.intercalate_cons_of_ne_nil (by simp)]
        simp
      rw [hjoin, List.splitOn_append_cons_self, ih (by simp)]
      rfl

-- ---------------------------------------------------------------------------
-- Order
-- ---------------------------------------------------------------------------

section
variable (a : α)

theorem splitOn_cons_lt_iff :
    (a :: x).splitOn sep < (a :: y).splitOn sep ↔ x.splitOn sep < y.splitOn sep := by
  by_cases ha : a = sep
  · subst ha
    simp [splitOn_cons_self]
  · obtain ⟨piece, pieces, hx, hax⟩ := splitOn_cons_ne ha x
    obtain ⟨piece', pieces', hy, hay⟩ := splitOn_cons_ne ha y
    simp [hx, hy, hax, hay, List.cons_lt_cons_iff]

theorem splitOn_cons_prefix_iff :
    (a :: x).splitOn sep <+: (a :: y).splitOn sep ↔ x.splitOn sep <+: y.splitOn sep := by
  by_cases ha : a = sep
  · subst ha
    simp [splitOn_cons_self]
  · obtain ⟨piece, pieces, hx, hax⟩ := splitOn_cons_ne ha x
    obtain ⟨piece', pieces', hy, hay⟩ := splitOn_cons_ne ha y
    simp [hx, hy, hax, hay, List.cons_prefix_cons]

/-- A list whose first piece is empty comes before one that begins with a character of a piece. -/
theorem nil_cons_lt_splitOn {pieces : List (List α)} (ha : a ≠ sep) :
    [] :: pieces < (a :: x).splitOn sep := by
  obtain ⟨piece, pieces', -, hax⟩ := splitOn_cons_ne ha x
  rw [hax]
  exact List.cons_lt_cons_iff.mpr (.inl (List.nil_lt_cons a piece))

end

/-- The smaller list is the smaller one piece by piece, where nothing clashes. -/
theorem splitOn_lt_splitOn (hlt : x < y) (hpre : ¬ x.splitOn sep <+: y.splitOn sep)
    (hclash : ¬ SeparatorClash sep y x) : x.splitOn sep < y.splitOn sep := by
  induction x generalizing y with
  | nil =>
    cases y with
    | nil => exact absurd hlt (lt_irrefl _)
    | cons b y =>
      have hb : b ≠ sep := by
        rintro rfl
        rw [List.splitOn_nil, splitOn_cons_self] at hpre
        exact hpre (List.prefix_append [[]] _)
      exact nil_cons_lt_splitOn b hb
  | cons a x ih =>
    cases y with
    | nil => exact absurd hlt (List.not_lt_nil _)
    | cons b y =>
      rcases List.cons_lt_cons_iff.mp hlt with hab | ⟨rfl, hxy⟩
      · have hb : b ≠ sep := by
          rintro rfl
          exact hclash ⟨[], y, a, x, rfl, rfl, hab⟩
        by_cases ha : a = sep
        · subst ha
          rw [splitOn_cons_self]
          exact nil_cons_lt_splitOn b hb
        · obtain ⟨piece, pieces, -, hx⟩ := splitOn_cons_ne ha x
          obtain ⟨piece', pieces', -, hy⟩ := splitOn_cons_ne hb y
          rw [hx, hy]
          exact List.cons_lt_cons_iff.mpr (.inl (List.cons_lt_cons_iff.mpr (.inl hab)))
      · rw [splitOn_cons_prefix_iff] at hpre
        rw [splitOn_cons_lt_iff]
        exact ih hxy hpre fun h => hclash (h.cons a)

/-- Where two lists clash, the two orders disagree. -/
theorem SeparatorClash.lt (h : SeparatorClash sep x y) :
    y < x ∧ x.splitOn sep < y.splitOn sep := by
  obtain ⟨common, rest, b, rest', rfl, rfl, hb⟩ := h
  refine ⟨List.append_left_lt (List.cons_lt_cons_iff.mpr (.inl hb)), ?_⟩
  induction common with
  | nil =>
    rw [List.nil_append, List.nil_append, splitOn_cons_self]
    exact nil_cons_lt_splitOn b hb.ne
  | cons a common ih => exact (splitOn_cons_lt_iff a).mpr ih

/-- Things with a text: a list in the order of the texts and a list in their
order piece by piece are the same where they have the same members and no two
of these clash. -/
theorem eq_iff_of_splitOn_sorted {text : κ → List α} (htext : Function.Injective text) {l l' : List κ}
    (hl : l.Pairwise fun x y => text x < text y)
    (hl' : l'.Pairwise fun x y => (text x).splitOn sep < (text y).splitOn sep)
    (hpre : ∀ x ∈ l', ∀ y ∈ l', (text x).splitOn sep <+: (text y).splitOn sep → x = y) :
    l = l' ↔ (∀ x, x ∈ l ↔ x ∈ l') ∧ ∀ x ∈ l, ∀ y ∈ l, ¬ SeparatorClash sep (text x) (text y) := by
  constructor
  · rintro rfl
    refine ⟨fun x => Iff.rfl, ?_⟩
    intro x hx y hy hclash
    obtain ⟨hlt, hsplit⟩ := hclash.lt
    -- both orders arrange the members of the list in the same way
    let Same : κ → κ → Prop := fun x y =>
      (text x < text y ∧ (text x).splitOn sep < (text y).splitOn sep) ∨
        (text y < text x ∧ (text y).splitOn sep < (text x).splitOn sep)
    have : Std.Symm Same := ⟨fun _ _ => Or.symm⟩
    have hsame : l.Pairwise Same := (hl.and hl').imp .inl
    have hne : x ≠ y := by
      rintro rfl
      exact lt_irrefl _ hlt
    rcases hsame.forall hx hy hne with h | h
    · exact lt_asymm hlt h.1
    · exact lt_asymm hsplit h.2
  · rintro ⟨hmem, hclash⟩
    have : Std.Irrefl fun x y : κ => text x < text y := ⟨fun x => lt_irrefl (text x)⟩
    have : Std.Antisymm fun x y : κ => text x < text y := ⟨fun _ _ h h' => absurd h' (lt_asymm h)⟩
    apply List.Pairwise.eq_of_mem_iff hl ?_ hmem
    apply hl'.imp_of_mem
    intro x y hx hy hsplit
    have hne : x ≠ y := by
      rintro rfl
      exact lt_irrefl _ hsplit
    rcases lt_or_gt_of_ne fun heq => hne (htext heq) with hlt | hlt
    · exact hlt
    · have hback := splitOn_lt_splitOn hlt (fun h => hne (hpre y hy x hx h).symm)
        (hclash x ((hmem x).mpr hx) y ((hmem y).mpr hy))
      exact absurd hsplit (lt_asymm hback)

theorem lt_of_append_left_lt {common : List α} (h : common ++ x < common ++ y) : x < y := by
  induction common with
  | nil => exact h
  | cons a common ih =>
    rcases List.cons_lt_cons_iff.mp h with ha | ⟨-, h⟩
    · exact absurd ha (lt_irrefl a)
    · exact ih h

end Intelliqx
