import Intelliqx.Py.Layout

/-!
# Blanking lines

What a parser makes of a text some of whose physical lines have been blanked.
Where the items of a logical line either lose all of their lines or none, and
no header is lost that was alone on its line, the logical lines that lost
theirs are gone and all others are as they were (`placedRows_blanked`).
-/

namespace Intelliqx.Layout

open Py (isSpace)

variable {π ω : Type}

-- ---------------------------------------------------------------------------
-- Numbers
-- ---------------------------------------------------------------------------

section
variable {α : Type} {n : Nat} {as : List α} {x : Nat × α}

theorem le_of_mem_number (h : x ∈ number n as) : n ≤ x.1 := by
  induction as generalizing n with
  | nil => cases h
  | cons a as ih =>
    rcases List.mem_cons.mp h with rfl | h
    · exact Nat.le_refl n
    · exact Nat.le_of_succ_le (ih h)

theorem lt_of_mem_number (h : x ∈ number n as) : x.1 < n + as.length := by
  induction as generalizing n with
  | nil => cases h
  | cons a as ih =>
    rcases List.mem_cons.mp h with rfl | h
    · exact Nat.lt_add_of_pos_right (Nat.succ_pos _)
    · have := ih h
      rw [List.length_cons]
      omega

theorem number_pairwise (n : Nat) (as : List α) : (number n as).Pairwise fun x y => x.1 < y.1 := by
  induction as generalizing n with
  | nil => exact .nil
  | cons a as ih => exact .cons (fun y hy => le_of_mem_number hy) (ih (n + 1))

end

-- ---------------------------------------------------------------------------
-- Groups
-- ---------------------------------------------------------------------------

section
variable {current xs rest inner g : List (Nat × Scanned π ω)} {gs : List (List (Nat × Scanned π ω))}
  {last : Nat × Scanned π ω}

/-- The physical lines of a logical one: only the last of them ends it. -/
def Complete (g : List (Nat × Scanned π ω)) : Prop :=
  ∃ inner last, g = inner ++ [last] ∧ (∀ x ∈ inner, x.2.ending ≠ .newline) ∧ last.2.ending = .newline

theorem groups_append (hinner : ∀ x ∈ inner, x.2.ending ≠ .newline) (hlast : last.2.ending = .newline)
    (current rest : List (Nat × Scanned π ω)) :
    groups current (inner ++ last :: rest) = (groups [] rest).map ((current ++ (inner ++ [last])) :: ·) := by
  induction inner generalizing current with
  | nil => simp [groups, hlast]
  | cons x inner ih =>
    obtain ⟨hx, hinner⟩ := List.forall_mem_cons.mp hinner
    have hnext : groups current (x :: inner ++ last :: rest) = groups (current ++ [x]) (inner ++ last :: rest) := by
      rw [List.cons_append, groups]
      split
      · rename_i hnewline
        exact absurd hnewline hx
      · rfl
      · rfl
    rw [hnext, ih hinner]
    simp only [List.append_assoc, List.cons_append, List.nil_append]

theorem groups_complete (h : Complete g) (rest : List (Nat × Scanned π ω)) :
    groups [] (g ++ rest) = (groups [] rest).map (g :: ·) := by
  obtain ⟨inner, last, rfl, hinner, hlast⟩ := h
  rw [List.append_assoc, List.singleton_append, groups_append hinner hlast, List.nil_append]

theorem complete_of_groups (hcurrent : ∀ x ∈ current, x.2.ending ≠ .newline) (h : groups current xs = some gs) :
    current ++ xs = gs.flatten ∧ ∀ g ∈ gs, Complete g := by
  induction xs generalizing current gs with
  | nil =>
    rw [groups] at h
    split at h
    · rename_i hnil
      cases h
      exact ⟨by rw [List.isEmpty_iff.mp hnil]; rfl, fun g hg => absurd hg List.not_mem_nil⟩
    · cases h
  | cons x xs ih =>
    rw [groups] at h
    split at h
    · rename_i hnewline
      obtain ⟨gs', hgs', rfl⟩ := Option.map_eq_some_iff.mp h
      obtain ⟨hflat, hcomplete⟩ := ih (fun x hx => absurd hx List.not_mem_nil) hgs'
      refine ⟨?_, List.forall_mem_cons.mpr ⟨⟨current, x, rfl, hcurrent, hnewline⟩, hcomplete⟩⟩
      rw [List.flatten_cons, ← hflat, List.append_assoc, List.nil_append, List.singleton_append]
    all_goals
      rename_i hending
      have hcurrent' : ∀ y ∈ current ++ [x], y.2.ending ≠ .newline := by
        refine List.forall_mem_append.mpr ⟨hcurrent, fun y hy => ?_⟩
        rw [List.mem_singleton.mp hy, hending]
        exact nofun
      obtain ⟨hflat, hcomplete⟩ := ih hcurrent' h
      exact ⟨by rw [← hflat, List.append_assoc, List.singleton_append], hcomplete⟩

theorem rowOf_of_no_pieces (h : ∀ x ∈ g, x.2.pieces = []) : rowOf g = none := by
  have hnil : numberedPieces g = [] := by
    rw [numberedPieces, List.flatMap_eq_nil_iff]
    exact fun x hx => by rw [h x hx, List.map_nil]
  cases g with
  | nil => rfl
  | cons x g => rw [rowOf, hnil, List.isEmpty_nil, if_pos rfl]

/-- Lines without pieces make no row. -/
theorem rows_of_no_pieces (hg : ∀ x ∈ current ++ g, x.2.pieces = []) (hlast : ∀ x ∈ g.getLast?, x.2.ending = .newline)
    (hne : g ≠ []) (rest : List (Nat × Scanned π ω)) :
    (groups current (g ++ rest)).map (List.filterMap rowOf) = (groups [] rest).map (List.filterMap rowOf) := by
  induction g generalizing current with
  | nil => exact absurd rfl hne
  | cons x g ih =>
    have hcurrent : ∀ y ∈ current ++ [x], y.2.pieces = [] := fun y hy => hg y (by simp at hy ⊢; tauto)
    have hnext : ∀ y ∈ g, y.2.pieces = [] := fun y hy => hg y (by simp [hy])
    have hlast' : ∀ y ∈ g.getLast?, g ≠ [] → y.2.ending = .newline := by
      intro y hy hg
      exact hlast y (by rwa [List.getLast?_cons_of_ne_nil hg])
    rw [List.cons_append, groups]
    split
    · have hrow : List.filterMap rowOf ∘ ((current ++ [x]) :: ·) = List.filterMap rowOf :=
        funext fun gs => List.filterMap_cons_none (rowOf_of_no_pieces hcurrent)
      rw [Option.map_map, hrow]
      by_cases hnil : g = []
      · rw [hnil, List.nil_append]
      · exact ih hnext (fun y hy => hlast' y hy hnil) hnil
    all_goals
      rename_i hending
      have hnil : g ≠ [] := by
        rintro rfl
        have hx := hlast x rfl
        rw [hending] at hx
        cases hx
      refine ih (List.forall_mem_append.mpr ⟨hcurrent, hnext⟩) (fun y hy => hlast' y hy hnil) hnil

end

-- ---------------------------------------------------------------------------
-- Indentation
-- ---------------------------------------------------------------------------

section
variable {opens : Row π → Bool} {keep : Row π → Bool} {opened opened' : Bool} {stack stack' stack₁ stack₂ : List Column}
  {c d : Column} {rows : List (Row π)} {placed : List (Nat × Row π)}

theorem dedent_of_le (h : stack.headD (0, 0) = top) (hle : ¬ d.1 < top.1) : dedent d stack = stack := by
  cases stack with
  | nil => rfl
  | cons top' stack => rw [dedent, if_neg (by rwa [← h] at hle)]

theorem not_lt_of_dedent (h : (dedent d stack).headD (0, 0) = d) : ¬ (stack.headD (0, 0)).1 < d.1 := by
  intro hlt
  rw [dedent_of_le rfl (Nat.lt_asymm hlt)] at h
  rw [h] at hlt
  exact Nat.lt_irrefl _ hlt

theorem dedent_dedent (h : d.1 ≤ c.1) (stack : List Column) : dedent d (dedent c stack) = dedent d stack := by
  induction stack with
  | nil => rfl
  | cons top stack ih =>
    by_cases hc : c.1 < top.1
    · rw [dedent, if_pos hc, ih, dedent, if_pos (Nat.lt_of_le_of_lt h hc)]
    · rw [dedent, if_neg hc]

/-- Back to an indentation. -/
theorem enter_of_dedent (opened : Bool) (h : (dedent d stack).headD (0, 0) = d) :
    enter opened stack d = some (dedent d stack) := by
  rw [enter, if_neg (not_lt_of_dedent h), if_pos h]

theorem enter_false (h : enter false stack d = some stack₂) :
    (dedent d stack).headD (0, 0) = d ∧ stack₂ = dedent d stack ∧ d.1 ≤ (stack.headD (0, 0)).1 := by
  rw [enter] at h
  split at h
  · cases h
  · rename_i hle
    split at h
    · rename_i hd
      exact ⟨hd, (Option.some.inj h).symm, Nat.le_of_not_lt hle⟩
    · cases h

/-- A line that opens nothing may as well not be there. -/
theorem enter_enter (h₁ : enter opened stack c = some stack₁) (h₂ : enter false stack₁ d = some stack₂) :
    enter opened stack d = some stack₂ := by
  obtain ⟨hd, rfl, hle⟩ := enter_false h₂
  have hopen := h₁
  rw [enter] at h₁
  split at h₁
  · split at h₁
    · obtain rfl := Option.some.inj h₁
      by_cases hdc : d.1 < c.1
      · rw [dedent, if_pos hdc] at hd ⊢
        exact enter_of_dedent opened hd
      · rw [dedent, if_neg hdc] at hd ⊢
        obtain rfl : c = d := hd
        exact hopen
    · cases h₁
  · split at h₁
    · rename_i hc
      obtain rfl := Option.some.inj h₁
      rw [hc] at hle
      rw [dedent_dedent hle] at hd ⊢
      exact enter_of_dedent opened hd
    · cases h₁

theorem place_filter (h : place opens opened stack rows = some placed)
    (hkeep : ∀ row ∈ rows, keep row = false → opens row = false)
    (hsame : ∀ c stack₁, enter opened stack c = some stack₁ → enter opened' stack' c = some stack₁) :
    place opens opened' stack' (rows.filter keep) = some (placed.filter fun p => keep p.2) := by
  induction rows generalizing opened opened' stack stack' placed with
  | nil =>
    cases h
    rfl
  | cons row rows ih =>
    obtain ⟨hrow, hrows⟩ := List.forall_mem_cons.mp hkeep
    rw [place] at h
    obtain ⟨stack₁, henter, h⟩ := Option.bind_eq_some_iff.mp h
    obtain ⟨rest, hrest, h⟩ := Option.bind_eq_some_iff.mp h
    cases h
    cases hk : keep row with
    | true =>
      rw [List.filter_cons_of_pos hk, place, hsame _ _ henter]
      simp only [Option.bind_eq_bind, Option.bind_some]
      have hplaced : ((stack₁.length, row) :: rest).filter (fun p => keep p.2) =
          (stack₁.length, row) :: rest.filter fun p => keep p.2 := List.filter_cons_of_pos hk
      rw [ih hrest hrows fun c stack₁ h => h, hplaced]
      rfl
    | false =>
      have hplaced : ((stack₁.length, row) :: rest).filter (fun p => keep p.2) = rest.filter fun p => keep p.2 :=
        List.filter_cons_of_neg (by simp [hk])
      rw [List.filter_cons_of_neg (by simp [hk]), hplaced]
      rw [hrow hk] at hrest
      exact ih hrest hrows fun d stack₂ h => hsame _ _ (enter_enter henter h)

end

-- ---------------------------------------------------------------------------
-- Scanning
-- ---------------------------------------------------------------------------

/-- A line of the text that is blanked, or not. -/
def BlankedLine (blanked : List Nat) (x x' : Nat × List Char) : Prop :=
  x'.1 = x.1 ∧ (x.1 ∈ blanked → ∀ c ∈ x'.2, isSpace c) ∧ (x.1 ∉ blanked → x'.2 = x.2)

/-- And what is read there. -/
def Emptied (blanked : List Nat) (x x' : Nat × Scanned π ω) : Prop :=
  x'.1 = x.1 ∧ (x.1 ∈ blanked → x'.2.pieces = [] ∧ x'.2.ending = .newline) ∧ (x.1 ∉ blanked → x'.2 = x.2)

/-- Nothing is open between a line that is blanked and one that is not. -/
def Shut (blanked : List Nat) (x : Nat × Scanned π ω) : Prop :=
  x.2.ending.left = none ∨ (x.1 ∈ blanked ↔ x.1 + 1 ∈ blanked)

section
variable {G : Grammar π ω} {blanked : List Nat} {n : Nat} {left left' : Option ω} {lines lines' : List (List Char)}
  {scanned scanned' : List (Scanned π ω)}

theorem scanLines_cons (h : G.scanLines left (line :: lines) = some scanned) : ∃ pieces ending rest,
    G.scan left line = some (pieces, ending) ∧ G.scanLines ending.left lines = some rest ∧
      scanned = ⟨G.column line, pieces, ending⟩ :: rest := by
  rw [Grammar.scanLines] at h
  obtain ⟨⟨pieces, ending⟩, hscan, h⟩ := Option.bind_eq_some_iff.mp h
  obtain ⟨rest, hrest, h⟩ := Option.bind_eq_some_iff.mp h
  cases h
  exact ⟨pieces, ending, rest, hscan, hrest, rfl⟩

/-- Where nothing is open on either side of what is blanked, the other lines are read as before. -/
theorem scanLines_blanked (hG : G.Lawful)
    (hlines : List.Forall₂ (BlankedLine blanked) (number n lines) (number n lines'))
    (h : G.scanLines left lines = some scanned) (h' : G.scanLines left' lines' = some scanned')
    (hin : n ∈ blanked → left' = none) (hout : n ∉ blanked → left' = left)
    (hshut : ∀ x ∈ number n scanned, Shut blanked x) :
    List.Forall₂ (Emptied blanked) (number n scanned) (number n scanned') := by
  induction lines generalizing n left left' lines' scanned scanned' with
  | nil =>
    cases lines' with
    | nil =>
      cases h
      cases h'
      exact .nil
    | cons line' lines' => cases hlines
  | cons line lines ih =>
    cases lines' with
    | nil => cases hlines
    | cons line' lines' =>
      obtain ⟨⟨-, hblank, hsame⟩, htail⟩ := List.forall₂_cons.mp hlines
      obtain ⟨pieces, ending, rest, hscan, hrest, rfl⟩ := scanLines_cons h
      obtain ⟨pieces', ending', rest', hscan', hrest', rfl⟩ := scanLines_cons h'
      obtain ⟨hfirst, hnextShut⟩ := List.forall_mem_cons.mp hshut
      by_cases hn : n ∈ blanked
      · rw [hin hn] at hscan'
        obtain ⟨rfl, rfl⟩ := hG.blank _ _ _ (hblank hn) hscan'
        refine .cons ⟨rfl, fun _ => ⟨rfl, rfl⟩, fun hnot => absurd hn hnot⟩ ?_
        refine ih htail hrest hrest' (fun _ => rfl) (fun hnext => ?_) hnextShut
        exact (hfirst.resolve_right fun hiff => hnext (hiff.mp hn)).symm
      · obtain rfl : line' = line := hsame hn
        rw [hout hn, hscan] at hscan'
        cases hscan'
        refine .cons ⟨rfl, fun hin => absurd hin hn, fun _ => rfl⟩ ?_
        refine ih htail hrest hrest' (fun hnext => ?_) (fun _ => rfl) hnextShut
        exact hfirst.resolve_right fun hiff => hn (hiff.mpr hnext)

end

section
variable {blanked : List Nat} {g xs' : List (Nat × Scanned π ω)} {gs : List (List (Nat × Scanned π ω))}

/-- The rows that have no piece on a line that is blanked. -/
def spared (blanked : List Nat) (row : Row π) : Bool := row.pieces.all fun x => !blanked.contains x.1

theorem forall₂_append_left {α β : Type} {R : α → β → Prop} {as as' : List α} {bs : List β}
    (h : List.Forall₂ R (as ++ as') bs) :
    ∃ front back, bs = front ++ back ∧ List.Forall₂ R as front ∧ List.Forall₂ R as' back := by
  induction as generalizing bs with
  | nil => exact ⟨[], bs, rfl, .nil, h⟩
  | cons a as ih =>
    cases h with
    | cons hab h =>
      obtain ⟨front, back, rfl, hfront, hback⟩ := ih h
      exact ⟨_ :: front, back, rfl, .cons hab hfront, hback⟩

theorem eq_of_emptied (h : List.Forall₂ (Emptied blanked) g xs') (hg : ∀ x ∈ g, x.1 ∉ blanked) : xs' = g := by
  induction h with
  | nil => rfl
  | @cons x x' g xs' hx _ ih =>
    obtain ⟨hnot, hg⟩ := List.forall_mem_cons.mp hg
    rw [ih hg, Prod.ext hx.1 (hx.2.2 hnot)]

theorem no_pieces_of_emptied (h : List.Forall₂ (Emptied blanked) g xs')
    (hg : ∀ x ∈ numberedPieces g, x.1 ∈ blanked) : ∀ x' ∈ xs', x'.2.pieces = [] := by
  induction h with
  | nil => exact fun x' hx' => absurd hx' List.not_mem_nil
  | @cons x x' g xs' hx _ ih =>
    obtain ⟨hfirst, hg⟩ := List.forall_mem_append.mp
      (show ∀ y ∈ x.2.pieces.map (x.1, ·) ++ numberedPieces g, y.1 ∈ blanked from hg)
    refine List.forall_mem_cons.mpr ⟨?_, ih hg⟩
    by_cases hin : x.1 ∈ blanked
    · exact (hx.2.1 hin).1
    · rw [hx.2.2 hin]
      refine List.eq_nil_iff_forall_not_mem.mpr fun piece hpiece => hin ?_
      exact hfirst (x.1, piece) (List.mem_map_of_mem hpiece)

theorem ends_of_emptied (h : List.Forall₂ (Emptied blanked) g xs') (hg : Complete g) :
    xs' ≠ [] ∧ ∀ x' ∈ xs'.getLast?, x'.2.ending = .newline := by
  obtain ⟨inner, last, rfl, -, hlast⟩ := hg
  obtain ⟨front, back, rfl, -, hback⟩ := forall₂_append_left h
  cases hback with
  | @cons _ x' _ _ hx hnil =>
    cases hnil
    refine ⟨by simp, fun y hy => ?_⟩
    rw [List.getLast?_concat] at hy
    obtain rfl := Option.some.inj hy
    by_cases hin : last.1 ∈ blanked
    · exact (hx.2.1 hin).2
    · rw [hx.2.2 hin, hlast]

theorem rowOf_pieces {row : Row π} (h : rowOf g = some row) : row.pieces = numberedPieces g ∧ row.pieces ≠ [] := by
  cases g with
  | nil => cases h
  | cons x g =>
    rw [rowOf] at h
    split at h
    · cases h
    · rename_i hne
      cases h
      exact ⟨rfl, by simpa using hne⟩

theorem spared_of_untouched {row : Row π} (h : rowOf g = some row) (hg : ∀ x ∈ g, x.1 ∉ blanked) :
    spared blanked row = true := by
  rw [spared, (rowOf_pieces h).1, List.all_eq_true]
  intro y hy
  obtain ⟨x, hx, hy⟩ := List.mem_flatMap.mp hy
  obtain ⟨piece, -, rfl⟩ := List.mem_map.mp hy
  simpa using hg x hx

theorem not_spared_of_lost {row : Row π} (h : rowOf g = some row) (hg : ∀ x ∈ numberedPieces g, x.1 ∈ blanked) :
    spared blanked row = false := by
  obtain ⟨hpieces, hne⟩ := rowOf_pieces h
  obtain ⟨y, hy⟩ := List.exists_mem_of_ne_nil _ hne
  rw [spared, List.all_eq_false]
  exact ⟨y, hy, by simpa using hg y (hpieces ▸ hy)⟩

theorem groups_blanked (hgs : ∀ g ∈ gs, Complete g) (h : List.Forall₂ (Emptied blanked) gs.flatten xs')
    (hg : ∀ g ∈ gs, (∀ x ∈ g, x.1 ∉ blanked) ∨ ∀ x ∈ numberedPieces g, x.1 ∈ blanked) :
    (groups [] xs').map (List.filterMap rowOf) = some ((gs.filterMap rowOf).filter (spared blanked)) := by
  induction gs generalizing xs' with
  | nil =>
    cases h
    rfl
  | cons g gs ih =>
    obtain ⟨hcomplete, hgs⟩ := List.forall_mem_cons.mp hgs
    obtain ⟨hfirst, hg⟩ := List.forall_mem_cons.mp hg
    obtain ⟨g', rest', rfl, hg', hrest⟩ := forall₂_append_left (List.flatten_cons ▸ h)
    have hih := ih hgs hrest hg
    obtain huntouched | hlost := hfirst
    · obtain ⟨gs', hgs', hrows⟩ := Option.map_eq_some_iff.mp hih
      rw [eq_of_emptied hg' huntouched, groups_complete hcomplete, hgs', Option.map_some, Option.map_some,
        List.filterMap_cons, List.filterMap_cons, hrows]
      cases hrow : rowOf g with
      | none => rfl
      | some row =>
        simp only
        rw [List.filter_cons_of_pos (spared_of_untouched hrow huntouched)]
    · obtain ⟨hne, hlast⟩ := ends_of_emptied hg' hcomplete
      have hpieces := no_pieces_of_emptied hg' hlost
      rw [rows_of_no_pieces (by simpa using hpieces) hlast hne, hih, List.filterMap_cons]
      cases hrow : rowOf g with
      | none => rfl
      | some row =>
        simp only
        rw [List.filter_cons_of_neg (by simp [not_spared_of_lost hrow hlost])]

end

-- ---------------------------------------------------------------------------
-- Rows and their items
-- ---------------------------------------------------------------------------

section
variable {G : Grammar π ω} {gs : List (List (Nat × Scanned π ω))} {g g' : List (Nat × Scanned π ω)}
  {source source' : List Char} {scanned : List (Scanned π ω)} {placed placed' : List (Nat × Row π)}
  {module : List (Item π)} {blanked : List Nat} {n : Nat} {i : Item π} {p : Nat × Row π}

/-- Somewhere between two lines of a logical line. -/
def Around (g : List (Nat × Scanned π ω)) (n : Nat) : Prop := ∃ x ∈ g, ∃ y ∈ g, x.1 ≤ n ∧ n ≤ y.1

/-- Logical lines do not overlap. -/
theorem group_unique (hgs : gs.flatten.Pairwise fun x y => x.1 < y.1) (hg : g ∈ gs) (hg' : g' ∈ gs)
    (h : Around g n) (h' : Around g' n) : g = g' := by
  have hapart := (List.pairwise_flatten.mp hgs).2
  clear hgs
  have hnot : ∀ {g g' : List (Nat × Scanned π ω)}, (∀ x ∈ g, ∀ y ∈ g', x.1 < y.1) → Around g n → ¬ Around g' n := by
    rintro g g' hlt ⟨-, -, y, hy, -, hny⟩ ⟨x, hx, -, -, hxn, -⟩
    exact Nat.lt_irrefl _ ((hlt y hy x hx).trans_le (hxn.trans hny))
  induction hapart with
  | nil => cases hg
  | cons hfirst _ ih =>
    rcases List.mem_cons.mp hg with rfl | hrest
    · rcases List.mem_cons.mp hg' with rfl | hrest'
      · rfl
      · exact absurd h' (hnot (hfirst g' hrest') h)
    · rcases List.mem_cons.mp hg' with rfl | hrest'
      · exact absurd h (hnot (hfirst g hrest) h')
      · exact ih hrest hrest'

theorem place_snd {opens : Row π → Bool} {opened : Bool} {stack : List Column} {rows : List (Row π)}
    (h : place opens opened stack rows = some placed) : placed.map Prod.snd = rows := by
  induction rows generalizing opened stack placed with
  | nil =>
    cases h
    rfl
  | cons row rows ih =>
    rw [place] at h
    obtain ⟨stack₁, -, h⟩ := Option.bind_eq_some_iff.mp h
    obtain ⟨rest, hrest, h⟩ := Option.bind_eq_some_iff.mp h
    cases h
    rw [List.map_cons, ih hrest]

theorem placedRows_eq (h : G.placedRows source = some placed) : ∃ scanned gs,
    G.scanLines none (physicalLines source) = some scanned ∧ groups [] (number 1 scanned) = some gs ∧
      place G.opens false [] (gs.filterMap rowOf) = some placed := by
  obtain ⟨scanned, hscanned, h⟩ := Option.bind_eq_some_iff.mp h
  obtain ⟨gs, hgs, h⟩ := Option.bind_eq_some_iff.mp h
  exact ⟨scanned, gs, hscanned, hgs, h⟩

theorem parse_eq (h : G.parse source = some module) : ∃ placed, G.placedRows source = some placed ∧
    (∀ p ∈ placed, ∀ pieces ∈ G.simpleStatements p.2, pieces ≠ []) ∧ module = placed.flatMap G.items := by
  obtain ⟨placed, hplaced, h⟩ := Option.bind_eq_some_iff.mp h
  dsimp only at h
  split at h
  · rename_i hall
    split at h
    · cases h
      refine ⟨placed, hplaced, fun p hp pieces hpieces => ?_, rfl⟩
      simpa using List.all_eq_true.mp (List.all_eq_true.mp hall p hp) pieces hpieces
    · cases h
  · cases h

theorem sublist_of_mem_splitOnP {α : Type} {q : α → Bool} {as part : List α} (h : part ∈ as.splitOnP q) :
    part.Sublist as := by
  induction as generalizing part with
  | nil =>
    obtain rfl := List.mem_singleton.mp h
    exact .slnil
  | cons a as ih =>
    rw [List.splitOnP_cons_eq_if_modifyHead] at h
    split at h
    · rcases List.mem_cons.mp h with rfl | h
      · exact List.nil_sublist _
      · exact (ih h).cons a
    · cases hparts : as.splitOnP q with
      | nil => exact absurd hparts (List.splitOnP_ne_nil q as)
      | cons first parts =>
        rw [hparts] at h
        rcases List.mem_cons.mp h with rfl | h
        · exact (ih (hparts ▸ List.mem_cons_self)).cons_cons a
        · exact (ih (hparts ▸ List.mem_cons_of_mem first h)).cons a

theorem simpleStatements_sublist {row : Row π} {pieces : List (Nat × π)} (h : pieces ∈ G.simpleStatements row) :
    pieces.Sublist row.pieces := by
  have hpart : pieces ∈
      (row.pieces.drop (G.headerLength (row.pieces.map Prod.snd))).splitOnP fun x => G.isSemicolon x.2 := by
    rw [Grammar.simpleStatements] at h
    split at h
    · exact List.mem_of_mem_dropLast h
    · exact h
  exact (sublist_of_mem_splitOnP hpart).trans (List.drop_sublist _ _)

theorem items_pieces (hp : ∀ pieces ∈ G.simpleStatements p.2, pieces ≠ []) (hi : i ∈ G.items p) :
    i.pieces ≠ [] ∧ i.pieces.Sublist p.2.pieces := by
  have hsimple : ∀ depth, ∀ i ∈ (G.simpleStatements p.2).map (Item.mk depth false),
      i.pieces ≠ [] ∧ i.pieces.Sublist p.2.pieces := by
    intro depth i hi
    obtain ⟨pieces, hpieces, rfl⟩ := List.mem_map.mp hi
    exact ⟨hp pieces hpieces, simpleStatements_sublist hpieces⟩
  rw [Grammar.items] at hi
  split at hi
  · exact hsimple _ i hi
  · rename_i hheader
    rcases List.mem_cons.mp hi with rfl | hi
    · exact ⟨hheader, List.take_sublist _ _⟩
    · exact hsimple _ i hi

theorem lineno_eq (hne : i.pieces ≠ []) : i.lineno = (i.pieces.head hne).1 := by
  rw [Item.lineno, List.head?_eq_some_head hne]
  rfl

theorem endLineno_eq (hne : i.pieces ≠ []) : i.endLineno = (i.pieces.getLast hne).1 := by
  rw [Item.endLineno, List.getLast?_eq_some_getLast hne]
  rfl

theorem exists_of_mem_lines (hne : i.pieces ≠ []) (hn : n ∈ i.lines) :
    ∃ x ∈ i.pieces, ∃ y ∈ i.pieces, x.1 ≤ n ∧ n ≤ y.1 := by
  obtain ⟨hle, hlt⟩ := List.mem_range'_1.mp hn
  refine ⟨_, List.head_mem hne, _, List.getLast_mem hne, ?_, ?_⟩
  · rwa [lineno_eq hne] at hle
  · rw [← endLineno_eq hne]
    omega

/-- What is blanked are whole logical lines: lines of items whose logical line loses all of its pieces. -/
structure BlanksRows (G : Grammar π ω) (blanked : List Nat) (placed : List (Nat × Row π)) : Prop where
  owned : ∀ n ∈ blanked, ∃ p ∈ placed, spared blanked p.2 = false ∧ G.opens p.2 = false ∧
    ∃ i ∈ G.items p, n ∈ i.lines
  pieces : ∀ p ∈ placed, spared blanked p.2 = false → ∀ x ∈ p.2.pieces, x.1 ∈ blanked
  lines : ∀ p ∈ placed, spared blanked p.2 = false → ∀ i ∈ G.items p, ∀ n ∈ i.lines, n ∈ blanked

theorem exists_group (h : placed.map Prod.snd = gs.filterMap rowOf) (hp : p ∈ placed) :
    ∃ g ∈ gs, rowOf g = some p.2 := by
  have hrow : p.2 ∈ gs.filterMap rowOf := h ▸ List.mem_map_of_mem hp
  exact List.mem_filterMap.mp hrow

theorem around_of_lines {g : List (Nat × Scanned π ω)} (hrow : rowOf g = some p.2)
    (hp : ∀ pieces ∈ G.simpleStatements p.2, pieces ≠ []) (hi : i ∈ G.items p) (hn : n ∈ i.lines) : Around g n := by
  obtain ⟨hne, hsub⟩ := items_pieces hp hi
  obtain ⟨x, hx, y, hy, hxn, hny⟩ := exists_of_mem_lines hne hn
  have hgroup : ∀ x ∈ i.pieces, ∃ z ∈ g, z.1 = x.1 := by
    intro x hx
    obtain ⟨z, hz, hpiece⟩ := List.mem_flatMap.mp ((rowOf_pieces hrow).1 ▸ hsub.subset hx)
    obtain ⟨piece, -, rfl⟩ := List.mem_map.mp hpiece
    exact ⟨z, hz, rfl⟩
  obtain ⟨z, hz, hzx⟩ := hgroup x hx
  obtain ⟨z', hz', hzy⟩ := hgroup y hy
  exact ⟨z, hz, z', hz', hzx ▸ hxn, hzy ▸ hny⟩

/-- What a parser makes of the text once whole logical lines are blanked. -/
theorem placedRows_blanked (hG : G.Lawful) (hparse : G.parse source = some module)
    (hplaced : G.placedRows source = some placed) (hrows : BlanksRows G blanked placed)
    (hlines : List.Forall₂ (BlankedLine blanked) (number 1 (physicalLines source)) (number 1 (physicalLines source')))
    (hplaced' : G.placedRows source' = some placed') : placed' = placed.filter fun p => spared blanked p.2 := by
  obtain ⟨placed, hplaced₁, hstatements, hmodule⟩ := parse_eq hparse
  obtain rfl := Option.some.inj (hplaced₁.symm.trans hplaced)
  obtain ⟨scanned, gs, hscanned, hgs, hplace⟩ := placedRows_eq hplaced
  obtain ⟨scanned', gs', hscanned', hgs', hplace'⟩ := placedRows_eq hplaced'
  obtain ⟨hflat, hcomplete⟩ := complete_of_groups (fun x hx => absurd hx List.not_mem_nil) hgs
  rw [List.nil_append] at hflat
  have hsorted : gs.flatten.Pairwise fun x y => x.1 < y.1 := hflat ▸ number_pairwise 1 scanned
  -- a line that is blanked belongs to a row that loses its pieces
  have hlost : ∀ g ∈ gs, ∀ n ∈ blanked, Around g n →
      ∃ p ∈ placed, spared blanked p.2 = false ∧ G.opens p.2 = false ∧ rowOf g = some p.2 := by
    intro g hg n hn haround
    obtain ⟨p, hp, hspared, hopens, i, hi, hline⟩ := hrows.owned n hn
    obtain ⟨g', hg', hrow⟩ := exists_group (place_snd hplace) hp
    obtain rfl := group_unique hsorted hg hg' haround (around_of_lines hrow (hstatements p hp) hi hline)
    exact ⟨p, hp, hspared, hopens, hrow⟩
  have hgroups : ∀ g ∈ gs, (∀ x ∈ g, x.1 ∉ blanked) ∨ ∀ x ∈ numberedPieces g, x.1 ∈ blanked := by
    intro g hg
    by_cases hany : ∃ x ∈ g, x.1 ∈ blanked
    · obtain ⟨x, hx, hin⟩ := hany
      obtain ⟨p, hp, hspared, -, hrow⟩ := hlost g hg x.1 hin ⟨x, hx, x, hx, Nat.le_refl _, Nat.le_refl _⟩
      exact .inr fun y hy => hrows.pieces p hp hspared y ((rowOf_pieces hrow).1 ▸ hy)
    · exact .inl fun x hx hin => hany ⟨x, hx, hin⟩
  have hshut : ∀ x ∈ number 1 scanned, Shut blanked x := by
    intro x hx
    cases hending : x.2.ending with
    | newline => exact .inl (by rw [hending]; rfl)
    | joined => exact .inl (by rw [hending]; rfl)
    | within w =>
      obtain ⟨i, hi, hline, hnext⟩ := hG.closed source module scanned hparse hscanned x hx w hending
      obtain ⟨p, hp, hi⟩ := List.mem_flatMap.mp (hmodule ▸ hi)
      obtain ⟨g, hg, hrow⟩ := exists_group (place_snd hplace) hp
      have hall : ∀ n ∈ blanked, n ∈ i.lines → ∀ m ∈ i.lines, m ∈ blanked := by
        intro n hn hni
        obtain ⟨p', -, hspared, -, hrow'⟩ := hlost g hg n hn (around_of_lines hrow (hstatements p hp) hi hni)
        have heq : p.2 = p'.2 := Option.some.inj (hrow.symm.trans hrow')
        exact hrows.lines p hp (heq ▸ hspared) i hi
      exact .inr ⟨fun hin => hall _ hin hline _ hnext, fun hin => hall _ hin hnext _ hline⟩
  have hemptied := scanLines_blanked hG hlines hscanned hscanned' (fun _ => rfl) (fun _ => rfl) hshut
  rw [hflat] at hemptied
  have hblanked := groups_blanked hcomplete hemptied hgroups
  rw [hgs', Option.map_some] at hblanked
  rw [Option.some.inj hblanked] at hplace'
  have hopens : ∀ row ∈ gs.filterMap rowOf, spared blanked row = false → G.opens row = false := by
    intro row hrow hspared
    obtain ⟨g, hg, hrow⟩ := List.mem_filterMap.mp hrow
    obtain ⟨y, hy, hin⟩ := List.all_eq_false.mp hspared
    obtain ⟨x, hx, hpiece⟩ := List.mem_flatMap.mp ((rowOf_pieces hrow).1 ▸ hy)
    obtain ⟨piece, -, rfl⟩ := List.mem_map.mp hpiece
    obtain ⟨p, -, -, hopens, hrow'⟩ := hlost g hg x.1 (by simpa using hin) ⟨x, hx, x, hx, Nat.le_refl _, Nat.le_refl _⟩
    rwa [Option.some.inj (hrow.symm.trans hrow')]
  exact Option.some.inj (hplace'.symm.trans (place_filter hplace hopens fun c stack h => h))

theorem length_scanLines {left : Option ω} {lines : List (List Char)} (h : G.scanLines left lines = some scanned) :
    scanned.length = lines.length := by
  induction lines generalizing left scanned with
  | nil =>
    cases h
    rfl
  | cons line lines ih =>
    obtain ⟨pieces, ending, rest, -, hrest, rfl⟩ := scanLines_cons h
    rw [List.length_cons, List.length_cons, ih hrest]

theorem numberedPieces_pairwise (h : g.Pairwise fun x y => x.1 < y.1) :
    (numberedPieces g).Pairwise fun x y => x.1 ≤ y.1 := by
  refine List.pairwise_flatMap.mpr ⟨fun x _ => ?_, h.imp fun hlt y hy z hz => ?_⟩
  · exact List.pairwise_map.mpr (List.pairwise_of_forall fun _ _ => Nat.le_refl _)
  · obtain ⟨piece, -, rfl⟩ := List.mem_map.mp hy
    obtain ⟨piece', -, rfl⟩ := List.mem_map.mp hz
    exact Nat.le_of_lt hlt

theorem head_le_getLast {pieces : List (Nat × π)} (h : pieces.Pairwise fun x y => x.1 ≤ y.1) (hne : pieces ≠ []) :
    (pieces.head hne).1 ≤ (pieces.getLast hne).1 := by
  cases pieces with
  | nil => exact absurd rfl hne
  | cons x xs =>
    rcases List.mem_cons.mp (List.getLast_mem hne) with hx | hx
    · rw [hx]
      exact Nat.le_refl _
    · exact List.rel_of_pairwise_cons h hx

/-- An item ends behind its beginning, and within the text. -/
theorem lines_of_item (hparse : G.parse source = some module) (hi : i ∈ module) :
    1 ≤ i.lineno ∧ i.lineno ≤ i.endLineno ∧ i.endLineno ≤ (physicalLines source).length := by
  obtain ⟨placed, hplaced, hstatements, rfl⟩ := parse_eq hparse
  obtain ⟨scanned, gs, hscanned, hgs, hplace⟩ := placedRows_eq hplaced
  obtain ⟨hflat, -⟩ := complete_of_groups (fun x hx => absurd hx List.not_mem_nil) hgs
  rw [List.nil_append] at hflat
  obtain ⟨p, hp, hi⟩ := List.mem_flatMap.mp hi
  obtain ⟨g, hg, hrow⟩ := exists_group (place_snd hplace) hp
  obtain ⟨hne, hsub⟩ := items_pieces (hstatements p hp) hi
  rw [(rowOf_pieces hrow).1] at hsub
  have hsorted : g.Pairwise fun x y => x.1 < y.1 := by
    have hall : gs.flatten.Pairwise fun x y => x.1 < y.1 := hflat ▸ number_pairwise 1 scanned
    exact (List.pairwise_flatten.mp hall).1 g hg
  have hbounds : ∀ x ∈ i.pieces, 1 ≤ x.1 ∧ x.1 ≤ (physicalLines source).length := by
    intro x hx
    obtain ⟨y, hy, hpiece⟩ := List.mem_flatMap.mp (hsub.subset hx)
    obtain ⟨piece, -, rfl⟩ := List.mem_map.mp hpiece
    have hin : y ∈ number 1 scanned := hflat ▸ List.mem_flatten.mpr ⟨g, hg, hy⟩
    have hle := le_of_mem_number hin
    have hlt := lt_of_mem_number hin
    rw [length_scanLines hscanned, Nat.add_comm] at hlt
    exact ⟨hle, Nat.le_of_lt_succ hlt⟩
  rw [lineno_eq hne, endLineno_eq hne]
  refine ⟨(hbounds _ (List.head_mem hne)).1, ?_, (hbounds _ (List.getLast_mem hne)).2⟩
  exact head_le_getLast ((numberedPieces_pairwise hsorted).sublist hsub) hne

end

end Intelliqx.Layout
