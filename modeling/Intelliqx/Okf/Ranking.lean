import Mathlib.Algebra.Order.Field.Rat
import Mathlib.Tactic.Linarith
import Mathlib.Tactic.Positivity
import Intelliqx.Okf.Index

/-!
# Ranks and scores

The keyword candidates come best first, each gets a share by its rank alone,
and the shares fall along the list. So a keyword search keeps the order of its
candidates (`topIds_fuse_fts`).
-/

namespace Intelliqx.Okf.Index

instance : Std.Total fun a b : Nat × ℚ => a.2 ≤ b.2 := ⟨fun a b => le_total a.2 b.2⟩

instance : IsTrans (Nat × ℚ) fun a b => a.2 ≤ b.2 := ⟨fun _ _ _ => le_trans⟩

section
variable {engine : Engine} {idx : Index} {candidates : List (Nat × ℚ)} {rrf : Dict Nat ℚ}
  {share : Nat → ℚ → ℚ}

-- ---------------------------------------------------------------------------
-- Fusion
-- ---------------------------------------------------------------------------

theorem entries_fuse (hn : (candidates.map Prod.fst).Nodup)
    (hd : ∀ m ∈ candidates, m.1 ∉ rrf.keys) :
    (fuse share candidates rrf).entries =
      rrf.entries ++ candidates.zipIdx.map fun c => (c.1.1, share c.2 c.1.2) := by
  unfold fuse
  generalize 0 = k
  induction candidates generalizing rrf k with
  | nil => simp
  | cons m ms ih =>
    rw [List.map_cons, List.nodup_cons] at hn
    have hm : m.1 ∉ rrf.keys := hd m (.head _)
    have hnone : rrf.get? m.1 = none := by
      rw [← Option.not_isSome_iff_eq_none, Dict.isSome_get?_iff]
      exact hm
    rw [List.zipIdx_cons, List.foldl_cons, ih hn.2]
    · simp [Dict.entries_insert_of_not_mem hm, hnone]
    · intro m' hm' hk
      rcases Dict.mem_keys_insert.mp hk with he | hk
      · exact hn.1 (he ▸ List.mem_map_of_mem hm')
      · exact hd m' (.tail _ hm') hk

theorem entries_fuse_empty (share : Nat → ℚ → ℚ) (hn : (candidates.map Prod.fst).Nodup) :
    (fuse share candidates Dict.empty).entries =
      candidates.zipIdx.map fun c => (c.1.1, share c.2 c.1.2) := by
  rw [entries_fuse hn fun _ _ hk => by cases hk]
  rfl

theorem ranks_le {i j : Nat} (h : i ≤ j) : (60 + i + 1 : ℚ) ≤ 60 + j + 1 := by
  have : (i : ℚ) ≤ j := by exact_mod_cast h
  linarith

theorem ftsShare_antitone (hw : w ≤ 1) (h : i ≤ j) : ftsShare w j b ≤ ftsShare w i a := by
  unfold ftsShare
  have hi : (0 : ℚ) < 60 + i + 1 := by positivity
  exact div_le_div_of_nonneg_left (by linarith) hi (ranks_le h)

theorem vectorShare_antitone (hw : 0 ≤ w) (h : i ≤ j) (hd : d ≤ e) :
    vectorShare w j e ≤ vectorShare w i d := by
  unfold vectorShare
  have hi : (0 : ℚ) < 60 + i + 1 := by positivity
  have hclip : max 0 (min 1 (1 - e)) ≤ max 0 (min 1 (1 - d)) :=
    max_le_max le_rfl (min_le_min le_rfl (by linarith))
  have hpos : 0 ≤ w * max 0 (min 1 (1 - d)) := mul_nonneg hw (le_max_left _ _)
  exact div_le_div₀ hpos (mul_le_mul_of_nonneg_left hclip hw) hi (ranks_le h)

theorem topIds_fuse_fts (top : Nat) (hw : w ≤ 1) (hn : (candidates.map Prod.fst).Nodup) :
    topIds (fuse (ftsShare w) candidates Dict.empty) top =
      (candidates.zipIdx.map fun c => (c.1.1, ftsShare w c.2 c.1.2)).take top := by
  have hentries : (fuse (ftsShare w) candidates Dict.empty).entries =
      candidates.zipIdx.map fun c => (c.1.1, ftsShare w c.2 c.1.2) := by
    exact entries_fuse_empty (ftsShare w) hn
  rw [topIds, hentries, List.Pairwise.insertionSort_eq]
  rw [List.pairwise_map, List.pairwise_iff_getElem]
  intro i j hi hj hij
  simp only [List.getElem_zipIdx]
  exact ftsShare_antitone hw (by omega)

-- ---------------------------------------------------------------------------
-- Keyword candidates
-- ---------------------------------------------------------------------------

theorem ftsCandidates_nodup (he : engine.Lawful) (hn : (idx.conceptsFts.map Prod.fst).Nodup) :
    ((idx.ftsCandidates engine query typeFilter tagFilter limit).map Prod.fst).Nodup := by
  unfold ftsCandidates
  apply List.Nodup.sublist ((List.take_sublist limit _).map _)
  rw [((List.perm_insertionSort _ _).map Prod.fst).nodup_iff]
  exact (he.fts_nodup _ (quoteFts query) hn).sublist (List.filter_sublist.map _)

theorem ftsCandidates_head (limit : Nat) (hne : engine.fts idx.conceptsFts (quoteFts query) ≠ []) :
    ∃ best rest, idx.ftsCandidates engine query none none (limit + 1) = best :: rest ∧
      best ∈ engine.fts idx.conceptsFts (quoteFts query) ∧
      ∀ m ∈ engine.fts idx.conceptsFts (quoteFts query), best.2 ≤ m.2 := by
  have hsorted := List.pairwise_insertionSort (fun a b : Nat × ℚ => a.2 ≤ b.2)
    (engine.fts idx.conceptsFts (quoteFts query))
  have hperm := List.perm_insertionSort (fun a b : Nat × ℚ => a.2 ≤ b.2)
    (engine.fts idx.conceptsFts (quoteFts query))
  have hall : idx.ftsCandidates engine query none none (limit + 1) =
      ((engine.fts idx.conceptsFts (quoteFts query)).insertionSort fun a b => a.2 ≤ b.2).take (limit + 1) := by
    simp [ftsCandidates]
  rw [hall]
  cases hl : (engine.fts idx.conceptsFts (quoteFts query)).insertionSort fun a b => a.2 ≤ b.2 with
  | nil => exact absurd (hl ▸ hperm).nil_eq.symm hne
  | cons best rest =>
    rw [hl] at hsorted hperm
    refine ⟨best, rest.take limit, rfl, hperm.subset (.head _), ?_⟩
    intro m hm
    cases hperm.symm.subset hm with
    | head => exact le_refl _
    | tail _ hm => exact List.rel_of_pairwise_cons hsorted hm

end

end Intelliqx.Okf.Index
