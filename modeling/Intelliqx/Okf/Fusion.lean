import Intelliqx.Okf.Hits

/-!
# Fusion of two lists

`_hybrid` adds up the shares of a rowid in the keyword list and the vector
list. The share of a vector candidate falls with its distance, so two vector
lists of the same rowids can be ranked differently. They never are exactly when
the first `top` rowids of one list are the beginning of the other
(`rank_based_iff`).
-/

namespace Intelliqx.Okf.Index

-- ---------------------------------------------------------------------------
-- Sorting a list whose front is in place
-- ---------------------------------------------------------------------------

theorem insertionSort_append {r : α → α → Prop} [DecidableRel r] {front back : List α}
    (hfront : front.Pairwise r) (hback : ∀ a ∈ front, ∀ b ∈ back, r a b) :
    (front ++ back).insertionSort r = front ++ back.insertionSort r := by
  induction front with
  | nil => rfl
  | cons a front ih =>
    obtain ⟨ha, hfront⟩ := List.pairwise_cons.mp hfront
    obtain ⟨hab, hback⟩ := List.forall_mem_cons.mp hback
    rw [List.cons_append, List.insertionSort_cons_of_forall_rel, ih hfront hback, List.cons_append]
    exact List.forall_mem_append.mpr ⟨ha, hab⟩

/-- What is greater than the rest and falls strictly comes first in every sorted order. -/
theorem eq_append_of_sorted {key : α → ℚ} {front back sorted : List α} (hperm : sorted.Perm (front ++ back))
    (hsorted : sorted.Pairwise fun a b => key b ≤ key a) (hfront : front.Pairwise fun a b => key b < key a)
    (hback : ∀ a ∈ front, ∀ b ∈ back, key b < key a) : ∃ rest, sorted = front ++ rest := by
  induction front generalizing sorted with
  | nil => exact ⟨sorted, rfl⟩
  | cons a front ih =>
    obtain ⟨hfirst, hlater⟩ := List.pairwise_cons.mp hfront
    obtain ⟨hab, hrest⟩ := List.forall_mem_cons.mp hback
    cases sorted with
    | nil => cases hperm.length_eq
    | cons b sorted =>
      obtain ⟨hb, hsorted'⟩ := List.pairwise_cons.mp hsorted
      have hhead : b = a := by
        by_contra hne
        have hmem : a ∈ sorted := (List.mem_cons.mp (hperm.mem_iff.mpr (.head _))).resolve_left (Ne.symm hne)
        have hlt : key b < key a := by
          rcases List.mem_cons.mp (hperm.subset (.head _)) with rfl | hin
          · exact absurd rfl hne
          · exact (List.mem_append.mp hin).elim (hfirst b) (hab b)
        exact absurd (hb a hmem) (not_le.mpr hlt)
      subst hhead
      obtain ⟨rest, rfl⟩ := ih ((List.perm_cons b).mp hperm) hsorted' hlater hrest
      exact ⟨rest, rfl⟩

-- ---------------------------------------------------------------------------
-- What fusion adds up
-- ---------------------------------------------------------------------------

/-- The share of a rowid in a list of candidates. -/
def part (share : Nat → ℚ → ℚ) (candidates : List (Nat × ℚ)) (start rowid : Nat) : ℚ :=
  match (candidates.zipIdx start).find? fun c => c.1.1 = rowid with
  | some c => share c.2 c.1.2
  | none => 0

def score (rrf : Dict Nat ℚ) (rowid : Nat) : ℚ := (rrf.get? rowid).getD 0

/-- The scores of both lists, as `_hybrid` sums them up. -/
def fused (vectorWeight : ℚ) (keyword vector : List (Nat × ℚ)) : Dict Nat ℚ :=
  fuse (vectorShare vectorWeight) vector (fuse (ftsShare vectorWeight) keyword Dict.empty)

def ranking (vectorWeight : ℚ) (keyword vector : List (Nat × ℚ)) (top : Nat) : List Nat :=
  (topIds (fused vectorWeight keyword vector) top).map Prod.fst

section
variable {share : Nat → ℚ → ℚ} {candidates : List (Nat × ℚ)} {rrf : Dict Nat ℚ} {start : Nat}

theorem part_cons (m : Nat × ℚ) (rowid : Nat) : part share (m :: candidates) start rowid =
    if m.1 = rowid then share start m.2 else part share candidates (start + 1) rowid := by
  unfold part
  rw [List.zipIdx_cons, List.find?_cons]
  by_cases h : m.1 = rowid <;> simp [h]

theorem part_of_not_mem (h : rowid ∉ candidates.map Prod.fst) : part share candidates start rowid = 0 := by
  induction candidates generalizing start with
  | nil => rfl
  | cons m candidates ih =>
    rw [List.map_cons, List.mem_cons, not_or] at h
    rw [part_cons, if_neg (Ne.symm h.1), ih h.2]

theorem part_getElem (share : Nat → ℚ → ℚ) (start : Nat) (hn : (candidates.map Prod.fst).Nodup) {i : Nat}
    (hi : i < candidates.length) :
    part share candidates start candidates[i].1 = share (start + i) candidates[i].2 := by
  induction candidates generalizing start i with
  | nil => cases hi
  | cons m candidates ih =>
    obtain ⟨hm, hn⟩ := List.nodup_cons.mp hn
    rw [part_cons]
    cases i with
    | zero => simp
    | succ i =>
      have hi : i < candidates.length := Nat.lt_of_succ_lt_succ hi
      have hne : m.1 ≠ candidates[i].1 := fun h => hm (h ▸ List.mem_map_of_mem (List.getElem_mem hi))
      simp only [List.getElem_cons_succ]
      rw [if_neg hne, ih _ hn hi, Nat.add_assoc, Nat.add_comm 1]

theorem part_nonneg (hshare : ∀ rank d, 0 ≤ share rank d) (rowid : Nat) :
    0 ≤ part share candidates start rowid := by
  unfold part
  split
  · exact hshare _ _
  · exact le_refl 0

theorem score_insert (rowid rowid' : Nat) (v : ℚ) :
    score (rrf.insert rowid v) rowid' = if rowid' = rowid then v else score rrf rowid' := by
  rw [score, Dict.get?_insert]
  split <;> rfl

/-- Fusion adds to the score of each rowid its share, and appends the new rowids. -/
theorem fuse_spec (share : Nat → ℚ → ℚ) (rrf : Dict Nat ℚ) (hn : (candidates.map Prod.fst).Nodup) :
    (∀ rowid, score (fuse share candidates rrf) rowid = score rrf rowid + part share candidates 0 rowid) ∧
      (fuse share candidates rrf).keys = rrf.keys ++ (candidates.map Prod.fst).filter (· ∉ rrf.keys) := by
  unfold fuse
  generalize 0 = start
  induction candidates generalizing rrf start with
  | nil => simp [part]
  | cons m candidates ih =>
    obtain ⟨hm, hn⟩ := List.nodup_cons.mp hn
    rw [List.zipIdx_cons, List.foldl_cons]
    obtain ⟨hscore, hkeys⟩ := ih (rrf.insert m.1 ((rrf.get? m.1).getD 0 + share start m.2)) hn (start + 1)
    constructor
    · intro rowid
      rw [hscore, score_insert, part_cons]
      by_cases h : m.1 = rowid
      · subst h
        rw [if_pos rfl, if_pos rfl, part_of_not_mem hm, add_zero]
        rfl
      · rw [if_neg (Ne.symm h), if_neg h]
    · rw [hkeys, Dict.keys_insert, List.map_cons, List.filter_cons]
      have hrest : (candidates.map Prod.fst).filter (· ∉ rrf.keys ++ [m.1]) =
          (candidates.map Prod.fst).filter (· ∉ rrf.keys) := by
        refine List.filter_congr fun rowid hrowid => ?_
        have hne : rowid ≠ m.1 := fun h => hm (h ▸ hrowid)
        simp [hne]
      by_cases h : m.1 ∈ rrf.keys
      · simp [h]
      · simp only [h, if_false, not_false_iff, decide_true, if_true]
        rw [hrest, List.append_assoc]
        rfl

end

-- ---------------------------------------------------------------------------
-- The order in which rowids are found
-- ---------------------------------------------------------------------------

/-- The rowids of the keyword list, then the new ones of the vector list. -/
def found (keyword vector : List Nat) : List Nat := keyword ++ vector.filter (· ∉ keyword)

section
variable {w : ℚ} {kw vec : List (Nat × ℚ)} {K V ids : List Nat} {top : Nat}

theorem nodup_found (hK : K.Nodup) (hV : V.Nodup) : (found K V).Nodup := by
  refine hK.append (hV.filter _) fun rowid hk hv => ?_
  exact of_decide_eq_true (List.mem_filter.mp hv).2 hk

theorem fused_spec (w : ℚ) (hK : (kw.map Prod.fst).Nodup) (hV : (vec.map Prod.fst).Nodup) :
    (∀ rowid, score (fused w kw vec) rowid =
        part (ftsShare w) kw 0 rowid + part (vectorShare w) vec 0 rowid) ∧
      (fused w kw vec).keys = found (kw.map Prod.fst) (vec.map Prod.fst) := by
  obtain ⟨hkw, hkeys⟩ := fuse_spec (ftsShare w) Dict.empty hK
  obtain ⟨hvec, hall⟩ := fuse_spec (vectorShare w) (fuse (ftsShare w) kw Dict.empty) hV
  have hkeys : (fuse (ftsShare w) kw Dict.empty).keys = kw.map Prod.fst := by simpa [Dict.keys] using hkeys
  constructor
  · intro rowid
    rw [fused, hvec, hkw, score, Dict.get?_empty, Option.getD_none, zero_add]
  · rw [fused, hall, hkeys, found]

theorem entries_eq_map_keys (rrf : Dict Nat ℚ) :
    rrf.entries = rrf.keys.map fun rowid => (rowid, score rrf rowid) := by
  rw [Dict.keys, List.map_map]
  refine (List.map_id _).symm.trans (List.map_congr_left fun e he => ?_)
  have hget : rrf.get? e.1 = some e.2 := Dict.get?_eq_some_iff.mpr he
  simp [score, hget]

/-- If the scores of the first `top` rowids fall, and none of the others is
higher, then these are the best ones, in the order in which they were found. -/
theorem ranking_eq_take (hkeys : (fused w kw vec).keys = ids)
    (h : ∀ i j (hj : j < ids.length) (hij : i < j), i < top →
      score (fused w kw vec) ids[j] ≤ score (fused w kw vec) ids[i]) :
    ranking w kw vec top = ids.take top := by
  let entry : Nat → Nat × ℚ := fun rowid => (rowid, score (fused w kw vec) rowid)
  have hfront : ((ids.take top).map entry).Pairwise fun a b => b.2 ≤ a.2 := by
    rw [List.pairwise_map, List.pairwise_iff_getElem]
    intro i j hi hj hij
    rw [List.length_take] at hi hj
    simpa using h i j (by omega) hij (by omega)
  have hback : ∀ a ∈ (ids.take top).map entry, ∀ b ∈ (ids.drop top).map entry, b.2 ≤ a.2 := by
    rw [List.forall_mem_map]
    intro x hx
    rw [List.forall_mem_map]
    intro y hy
    obtain ⟨i, hi, rfl⟩ := List.mem_iff_getElem.mp hx
    obtain ⟨j, hj, rfl⟩ := List.mem_iff_getElem.mp hy
    rw [List.length_take] at hi
    rw [List.length_drop] at hj
    simpa using h i (top + j) (by omega) (by omega) (by omega)
  have hentries : (fused w kw vec).entries = (ids.take top).map entry ++ (ids.drop top).map entry := by
    rw [← List.map_append, List.take_append_drop, ← hkeys]
    exact entries_eq_map_keys _
  have hnone : (((ids.drop top).map entry).insertionSort fun a b => b.2 ≤ a.2).take
      (top - ((ids.take top).map entry).length) = [] := by
    rw [List.take_eq_nil_iff, ← List.length_eq_zero_iff, List.length_insertionSort]
    simp only [List.length_map, List.length_take, List.length_drop]
    omega
  rw [ranking, topIds, hentries, insertionSort_append hfront hback, List.take_append, hnone, List.append_nil,
    ← List.map_take, List.take_take, min_self, List.map_map]
  exact List.map_id _

/-- Among rowids that begin with those of a list the shares of that list fall. -/
theorem part_le {share : Nat → ℚ → ℚ} {candidates : List (Nat × ℚ)} (hnonneg : ∀ rank d, 0 ≤ share rank d)
    (hfall : ∀ i j (hj : j < candidates.length) (hij : i ≤ j),
      share j candidates[j].2 ≤ share i candidates[i].2)
    (hn : (candidates.map Prod.fst).Nodup) (hids : ids.Nodup) {i j : Nat} (hj : j < ids.length) (hij : i < j)
    (hpre : (candidates.map Prod.fst).take (i + 1) <+: ids) :
    part share candidates 0 ids[j] ≤ part share candidates 0 ids[i] := by
  by_cases hmem : ids[j] ∈ candidates.map Prod.fst
  · obtain ⟨r, hr, hrow⟩ := List.mem_iff_getElem.mp hmem
    have hplace : ∀ k (hk : k < (candidates.map Prod.fst).length) (_ : k < ids.length), k ≤ i →
        (candidates.map Prod.fst)[k] = ids[k] := by
      intro k hk _ hki
      have hkt : k < ((candidates.map Prod.fst).take (i + 1)).length := by
        rw [List.length_take]
        omega
      have hget := hpre.getElem hkt
      rwa [List.getElem_take] at hget
    -- a candidate at one of the first places would be found there
    have hir : i < r := by
      by_contra hle
      have hsame := (hplace r hr (by omega) (by omega)).symm.trans hrow
      have := (hids.getElem_inj_iff).mp hsame
      omega
    rw [List.length_map] at hr
    have hi := hplace i (by rw [List.length_map]; omega) (by omega) le_rfl
    rw [List.getElem_map] at hrow hi
    rw [← hrow, ← hi, part_getElem share 0 hn hr, part_getElem share 0 hn (by omega), Nat.zero_add,
      Nat.zero_add]
    exact hfall i r hr hir.le
  · rw [part_of_not_mem hmem]
    exact part_nonneg hnonneg _

-- ---------------------------------------------------------------------------
-- Lists that agree as far as they are ranked
-- ---------------------------------------------------------------------------

/-- Vector candidates of these rowids, the nearest first. -/
structure NearestFirst (V : List Nat) (vec : List (Nat × ℚ)) : Prop where
  rowids : vec.map Prod.fst = V
  sorted : vec.Pairwise fun a b => a.2 ≤ b.2

/-- Whatever the weight, the ranking does not depend on the distances. -/
def RankBased (kw : List (Nat × ℚ)) (V : List Nat) (top : Nat) : Prop :=
  ∀ w, 0 ≤ w → w ≤ 1 → ∀ vec vec', NearestFirst V vec → NearestFirst V vec' →
    ranking w kw vec top = ranking w kw vec' top

theorem prefix_found_iff (hV : V.Nodup) :
    V.take top <+: found K V ↔ K.take top <+: V ∨ V.take top <+: K := by
  have hkeyword : K <+: found K V := List.prefix_append _ _
  constructor
  · intro h
    rcases List.prefix_or_prefix_of_prefix ((List.take_prefix top K).trans hkeyword) h with hpre | hpre
    · exact .inl (hpre.trans (List.take_prefix top V))
    · exact .inr (hpre.trans (List.take_prefix top K))
  · rintro (h | h)
    · by_cases hlen : top ≤ K.length
      · have hsame : K.take top = V.take top := by
          simpa [List.length_take, min_eq_left hlen] using List.prefix_iff_eq_take.mp h
        exact hsame ▸ (List.take_prefix top K).trans hkeyword
      · rw [List.take_of_length_le (by omega)] at h
        obtain ⟨rest, rfl⟩ := h
        have hnew : (K ++ rest).filter (· ∉ K) = rest := by
          have hdisjoint := (List.nodup_append.mp hV).2.2
          rw [List.filter_append, List.filter_eq_nil_iff.mpr (by simp), List.nil_append, List.filter_eq_self]
          exact fun rowid hrest => decide_eq_true fun hk => hdisjoint rowid hk rowid hrest rfl
        rw [found, hnew]
        exact List.take_prefix top _
    · exact h.trans hkeyword

theorem ranking_of_agreeing (hw₀ : 0 ≤ w) (hw₁ : w ≤ 1) (hK : (kw.map Prod.fst).Nodup) (hV : V.Nodup)
    (hvec : NearestFirst V vec) (hpre : V.take top <+: found (kw.map Prod.fst) V) :
    ranking w kw vec top = (found (kw.map Prod.fst) V).take top := by
  obtain ⟨rfl, hsorted⟩ := hvec
  obtain ⟨hscore, hkeys⟩ := fused_spec w hK hV
  refine ranking_eq_take hkeys fun i j hj hij hi => ?_
  have hids := nodup_found hK hV
  rw [hscore, hscore]
  apply add_le_add
  · refine part_le (ftsShare_nonneg hw₁) (fun _ _ _ h => ftsShare_antitone hw₁ h) hK hids hj hij ?_
    exact (List.take_prefix _ _).trans (List.prefix_append _ _)
  · refine part_le (vectorShare_nonneg hw₀) (fun i j hj h => vectorShare_antitone hw₀ h ?_) hV hids hj hij ?_
    · rcases Nat.eq_or_lt_of_le h with rfl | hlt
      · exact le_rfl
      · exact List.pairwise_iff_getElem.mp hsorted i j _ hj hlt
    · exact (List.take_prefix_take_left (by omega)).trans hpre

-- ---------------------------------------------------------------------------
-- All distances zero, or all one
-- ---------------------------------------------------------------------------

def constant (V : List Nat) (distance : ℚ) : List (Nat × ℚ) := V.map fun rowid => (rowid, distance)

theorem fst_constant (d : ℚ) : (constant V d).map Prod.fst = V := by simp [constant, Function.comp_def]

theorem nodup_constant (hV : V.Nodup) (d : ℚ) : ((constant V d).map Prod.fst).Nodup := by
  rwa [fst_constant]

theorem nearestFirst_constant (V : List Nat) (d : ℚ) : NearestFirst V (constant V d) := by
  refine ⟨fst_constant d, ?_⟩
  rw [constant, List.pairwise_map]
  exact List.pairwise_of_forall fun _ _ => le_rfl

theorem part_eq_zero {share : Nat → ℚ → ℚ} {candidates : List (Nat × ℚ)}
    (h : ∀ m ∈ candidates, ∀ rank, share rank m.2 = 0) (start rowid : Nat) :
    part share candidates start rowid = 0 := by
  induction candidates generalizing start with
  | nil => rfl
  | cons m candidates ih =>
    obtain ⟨hm, hrest⟩ := List.forall_mem_cons.mp h
    rw [part_cons]
    split
    · exact hm start
    · exact ih hrest _

theorem ftsShare_one (rank : Nat) (b : ℚ) : ftsShare 1 rank b = 0 := by simp [ftsShare]

theorem vectorShare_one_far (rank : Nat) : vectorShare 1 rank 1 = 0 := by simp [vectorShare]

theorem vectorShare_one_near (rank : Nat) : vectorShare 1 rank 0 = 1 / (60 + rank + 1) := by
  simp [vectorShare]

theorem ranking_far (hK : (kw.map Prod.fst).Nodup) (hV : V.Nodup) :
    ranking 1 kw (constant V 1) top = (found (kw.map Prod.fst) V).take top := by
  obtain ⟨hscore, hkeys⟩ := fused_spec 1 hK (nodup_constant hV 1)
  rw [fst_constant] at hkeys
  have hzero : ∀ rowid, score (fused 1 kw (constant V 1)) rowid = 0 := by
    intro rowid
    rw [hscore, part_eq_zero (fun _ _ rank => ftsShare_one rank _), part_eq_zero, add_zero]
    intro m hm rank
    obtain ⟨_, -, rfl⟩ := List.mem_map.mp hm
    exact vectorShare_one_far rank
  exact ranking_eq_take hkeys fun i j _ _ _ => by rw [hzero, hzero]

theorem prefix_ranking_near (hK : (kw.map Prod.fst).Nodup) (hV : V.Nodup) :
    V.take top <+: ranking 1 kw (constant V 0) top := by
  obtain ⟨hscore, hkeys⟩ := fused_spec 1 hK (nodup_constant hV 0)
  rw [fst_constant] at hkeys
  let entry : Nat → Nat × ℚ := fun rowid => (rowid, score (fused 1 kw (constant V 0)) rowid)
  have hpart : ∀ rowid, (entry rowid).2 = part (vectorShare 1) (constant V 0) 0 rowid := by
    intro rowid
    exact (hscore rowid).trans (by rw [part_eq_zero (fun _ _ rank => ftsShare_one rank _), zero_add])
  have hnear : ∀ i (hi : i < V.length), (entry V[i]).2 = 1 / (60 + i + 1) := by
    intro i hi
    have hi' : i < (constant V 0).length := by simpa [constant] using hi
    have hget : (constant V 0)[i] = (V[i], 0) := by simp [constant]
    have hshare := part_getElem (vectorShare 1) 0 (nodup_constant hV 0) hi'
    rw [hget, Nat.zero_add, vectorShare_one_near] at hshare
    rw [hpart, hshare]
  have hfar : ∀ rowid, rowid ∉ V → (entry rowid).2 = 0 := by
    intro rowid hrowid
    rw [hpart, part_of_not_mem (by rwa [fst_constant])]
  have hkeysPerm : (found (kw.map Prod.fst) V).Perm (V ++ (kw.map Prod.fst).filter (· ∉ V)) := by
    have hn : (V ++ (kw.map Prod.fst).filter (· ∉ V)).Nodup :=
      hV.append (hK.filter _) fun rowid hv hk => of_decide_eq_true (List.mem_filter.mp hk).2 hv
    refine (List.perm_ext_iff_of_nodup (nodup_found hK hV) hn).mpr fun rowid => ?_
    simp only [found, List.mem_append, List.mem_filter, decide_eq_true_eq]
    tauto
  have hperm : ((fused 1 kw (constant V 0)).entries.insertionSort fun a b => b.2 ≤ a.2).Perm
      (V.map entry ++ ((kw.map Prod.fst).filter (· ∉ V)).map entry) := by
    refine (List.perm_insertionSort _ _).trans ?_
    rw [entries_eq_map_keys, hkeys, ← List.map_append]
    exact hkeysPerm.map entry
  have hfront : (V.map entry).Pairwise fun a b => b.2 < a.2 := by
    rw [List.pairwise_map, List.pairwise_iff_getElem]
    intro i j hi hj hij
    rw [hnear i hi, hnear j hj]
    have hlt : (i : ℚ) < j := by exact_mod_cast hij
    exact one_div_lt_one_div_of_lt (by positivity) (by linarith)
  have hback : ∀ a ∈ V.map entry, ∀ b ∈ ((kw.map Prod.fst).filter (· ∉ V)).map entry, b.2 < a.2 := by
    rw [List.forall_mem_map]
    intro rowid hrowid
    rw [List.forall_mem_map]
    intro rowid' hrowid'
    obtain ⟨i, hi, rfl⟩ := List.mem_iff_getElem.mp hrowid
    rw [hnear i hi, hfar rowid' (of_decide_eq_true (List.mem_filter.mp hrowid').2)]
    positivity
  obtain ⟨rest, hrest⟩ := eq_append_of_sorted hperm (List.pairwise_insertionSort _ _) hfront hback
  have hfst : (V.map entry).map Prod.fst = V := by simp [entry, Function.comp_def]
  rw [ranking, topIds, hrest, List.map_take, List.map_append, hfst, List.take_append]
  exact List.prefix_append _ _

/-- For every weight the ranking is the same for all distances exactly when the
first `top` rowids of one of the two lists are the beginning of the other. -/
theorem rank_based_iff (kw : List (Nat × ℚ)) (V : List Nat) (top : Nat) (hK : (kw.map Prod.fst).Nodup)
    (hV : V.Nodup) :
    RankBased kw V top ↔ (kw.map Prod.fst).take top <+: V ∨ V.take top <+: kw.map Prod.fst := by
  rw [← prefix_found_iff hV]
  constructor
  · intro h
    have hsame := h 1 zero_le_one le_rfl _ _ (nearestFirst_constant V 0) (nearestFirst_constant V 1)
    rw [ranking_far hK hV] at hsame
    exact (hsame ▸ prefix_ranking_near hK hV).trans (List.take_prefix _ _)
  · intro h w hw₀ hw₁ vec vec' hvec hvec'
    rw [ranking_of_agreeing hw₀ hw₁ hK hV hvec h, ranking_of_agreeing hw₀ hw₁ hK hV hvec' h]

def agreeing : List (Nat × ℚ) := [(1, -3)]

theorem agreeing_rank_based : RankBased agreeing [1, 2] 2 :=
  (rank_based_iff agreeing [1, 2] 2 (by decide) (by decide)).mpr (.inl (by decide))

def crossing : List (Nat × ℚ) := [(1, -3), (2, -2)]

/-- The keyword list has 1 before 2 and the vector list 2 before 1. Which comes
first in the end is a matter of how near 2 is. -/
theorem crossing_not_rank_based : ¬ RankBased crossing [2, 1] 2 := by
  intro h
  have hfar : NearestFirst [2, 1] [(2, 9 / 10), (1, 9 / 10)] := ⟨rfl, by decide +kernel⟩
  have hnear : NearestFirst [2, 1] [(2, 0), (1, 9 / 10)] := ⟨rfl, by decide +kernel⟩
  have hsame := h (1 / 2) (by norm_num) (by norm_num) _ _ hfar hnear
  exact absurd hsame (by decide +kernel)

end

-- ---------------------------------------------------------------------------
-- Hits in the order of the ranking
-- ---------------------------------------------------------------------------

section
variable {dt : Datetimes τ} {engine : Engine} {embedder : Embedder} {idx : Index} {args : ReadArgs}
  {vec vec' : List (Nat × ℚ)} {scores scores' : List (Nat × ℚ)}

def keywordCandidates (engine : Engine) (idx : Index) (args : ReadArgs) : List (Nat × ℚ) :=
  if args.query = "" then []
  else idx.ftsCandidates engine args.query args.type args.tag (max (args.top * 4) 30).toNat

theorem hybrid_eq (dt : Datetimes τ) (hv : args.queryEmbedding = some v)
    (hvec : idx.vectorCandidates engine embedder v args.type args.tag (max (args.top * 4) 30).toNat =
      .ok vec) :
    idx.hybrid dt engine embedder args =
      collectHits dt idx (maxRrf (fused args.vectorWeight (keywordCandidates engine idx args) vec))
        (topIds (fused args.vectorWeight (keywordCandidates engine idx args) vec) args.top.toNat) := by
  have hkw : (if args.query = "" then Dict.empty
      else fuse (ftsShare args.vectorWeight)
        (idx.ftsCandidates engine args.query args.type args.tag (max (args.top * 4) 30).toNat) Dict.empty) =
      fuse (ftsShare args.vectorWeight) (keywordCandidates engine idx args) Dict.empty := by
    unfold keywordCandidates
    split <;> rfl
  simp only [hybrid, hv, hvec, bind_ok_eq, hkw]
  -- without candidates there are no best rowids either
  change (if (fused _ _ vec).entries.isEmpty then _ else _) = _
  cases hentries : (fused args.vectorWeight (keywordCandidates engine idx args) vec).entries with
  | nil => simp [topIds, hentries, collectHits]
  | cons e es => rfl

/-- Which concepts are hit, and in which order, is a matter of the rowids alone. -/
theorem concepts_collectHits (h : scores.map Prod.fst = scores'.map Prod.fst) (best best' : ℚ) :
    (collectHits dt idx best scores).map (List.map Hit.concept) =
      (collectHits dt idx best' scores').map (List.map Hit.concept) := by
  induction scores generalizing scores' with
  | nil =>
    obtain rfl := List.map_eq_nil_iff.mp h.symm
    rfl
  | cons e scores ih =>
    obtain ⟨e', rest, rfl, hid, hrest⟩ := List.map_eq_cons_iff.mp h.symm
    have hsame := ih hrest.symm
    simp only [collectHits, hid]
    cases idx.concepts.find? fun r => r.rowid = e.1 with
    | none => exact hsame
    | some row =>
      cases hc : rowToConcept dt row with
      | none => simp [hc, Except.map]
      | some concept =>
        cases hleft : collectHits dt idx best scores with
        | error exc =>
          cases hright : collectHits dt idx best' rest with
          | error exc' => simpa [hleft, hright, hc, Except.map] using hsame
          | ok hits' => simp [hleft, hright, Except.map] at hsame
        | ok hits =>
          cases hright : collectHits dt idx best' rest with
          | error exc' => simp [hleft, hright, Except.map] at hsame
          | ok hits' => simpa [hleft, hright, hc, Except.map] using hsame

end

end Intelliqx.Okf.Index
