import Intelliqx.Okf.Ranking

/-!
# The hits of a read

Every candidate has met the filters, and every score is a share of the best
one. The hits are the rows of some of the best rowids, in the order of their
scores (`read_ranked`).
-/

namespace Intelliqx.Okf.Index

instance : Std.Total fun a b : Nat × ℚ => b.2 ≤ a.2 := ⟨fun a b => le_total b.2 a.2⟩

instance : IsTrans (Nat × ℚ) fun a b => b.2 ≤ a.2 := ⟨fun _ _ _ hab hbc => hbc.trans hab⟩

/-- The filters, as the candidate queries ask them of a rowid. -/
def Found (idx : Index) (args : ReadArgs) (rowid : Nat) : Prop :=
  (∀ t, args.type = some t → idx.rowExists (passes (some t) none) rowid) ∧
    ∀ t, args.tag = some t → idx.rowExists (passes none (some t)) rowid

section
variable {dt : Datetimes τ} {embedder : Embedder} {engine : Engine} {idx : Index} {args : ReadArgs}
  {candidates : List (Nat × ℚ)} {rrf : Dict Nat ℚ} {share : Nat → ℚ → ℚ} {limit : Nat}

-- ---------------------------------------------------------------------------
-- Candidates
-- ---------------------------------------------------------------------------

theorem found_ftsCandidates (h : m ∈ idx.ftsCandidates engine query args.type args.tag limit) :
    Found idx args m.1 := by
  unfold ftsCandidates at h
  have hm := (List.perm_insertionSort _ _).mem_iff.mp (List.mem_of_mem_take h)
  obtain ⟨-, hpass⟩ := List.mem_filter.mp hm
  rw [Bool.and_eq_true] at hpass
  refine ⟨fun t ht => ?_, fun t ht => ?_⟩
  · simpa [ht] using hpass.1
  · simpa [ht] using hpass.2

theorem rowExists_mono {p q : ConceptRow → Bool} (hpq : ∀ r, p r → q r) (h : idx.rowExists p rowid) :
    idx.rowExists q rowid := by
  simp only [rowExists, List.any_eq_true, Bool.and_eq_true] at h ⊢
  obtain ⟨r, hr, hid, hp⟩ := h
  exact ⟨r, hr, hid, hpq r hp⟩

theorem found_vectorCandidates {rows : List (Nat × ℚ)}
    (h : idx.vectorCandidates engine embedder v args.type args.tag limit = .ok rows) (hm : m ∈ rows) :
    Found idx args m.1 := by
  unfold vectorCandidates at h
  split at h
  · cases h
  · cases h
    obtain ⟨m', hm', hd⟩ := List.mem_filterMap.mp hm
    obtain ⟨d, -, rfl⟩ := Option.map_eq_some_iff.mp hd
    have hrow := (List.mem_filter.mp hm').2
    refine ⟨fun t ht => rowExists_mono ?_ hrow, fun t ht => rowExists_mono ?_ hrow⟩
    · intro r hr
      simp only [passes, ht, Bool.and_eq_true] at hr ⊢
      exact ⟨hr.1, rfl⟩
    · intro r hr
      simp only [passes, ht, Bool.and_eq_true] at hr ⊢
      exact ⟨rfl, hr.2⟩

-- ---------------------------------------------------------------------------
-- Scores
-- ---------------------------------------------------------------------------

theorem ftsShare_nonneg (hw : w ≤ 1) (rank : Nat) (b : ℚ) : 0 ≤ ftsShare w rank b :=
  div_nonneg (by linarith) (by positivity)

theorem vectorShare_nonneg (hw : 0 ≤ w) (rank : Nat) (d : ℚ) : 0 ≤ vectorShare w rank d :=
  div_nonneg (mul_nonneg hw (le_max_left _ _)) (by positivity)

/-- A score and its rowid, as fusion leaves them. -/
def Fused (idx : Index) (args : ReadArgs) (rrf : Dict Nat ℚ) : Prop :=
  ∀ e ∈ rrf.entries, 0 ≤ e.2 ∧ Found idx args e.1

theorem fused_insert (h : Fused idx args rrf) (hv : 0 ≤ v) (hk : Found idx args k) :
    Fused idx args (rrf.insert k v) := by
  rintro ⟨k', v'⟩ he
  have hget := Dict.get?_eq_some_iff.mpr he
  rw [Dict.get?_insert] at hget
  split at hget
  · rename_i heq
    cases hget
    exact ⟨hv, heq ▸ hk⟩
  · exact h (k', v') (Dict.get?_eq_some_iff.mp hget)

theorem fused_getD (h : Fused idx args rrf) (k : Nat) : 0 ≤ (rrf.get? k).getD 0 := by
  cases hget : rrf.get? k with
  | none => exact le_refl 0
  | some v => exact (h (k, v) (Dict.get?_eq_some_iff.mp hget)).1

theorem Fused.fuse (h : Fused idx args rrf) (hshare : ∀ rank d, 0 ≤ share rank d)
    (hfound : ∀ m ∈ candidates, Found idx args m.1) : Fused idx args (fuse share candidates rrf) := by
  unfold Index.fuse
  generalize 0 = k
  induction candidates generalizing rrf k with
  | nil => exact h
  | cons m ms ih =>
    rw [List.zipIdx_cons, List.foldl_cons]
    apply ih
    · exact fused_insert h (add_nonneg (fused_getD h m.1) (hshare k m.2)) (hfound m (.head _))
    · exact fun m' hm' => hfound m' (.tail _ hm')

theorem le_foldl_max (l : List ℚ) (s : ℚ) : s ≤ l.foldl max s ∧ ∀ x ∈ l, x ≤ l.foldl max s := by
  induction l generalizing s with
  | nil => exact ⟨le_refl s, fun _ hx => absurd hx List.not_mem_nil⟩
  | cons y l ih =>
    obtain ⟨hstart, hrest⟩ := ih (max s y)
    refine ⟨(le_max_left s y).trans hstart, List.forall_mem_cons.mpr ⟨?_, hrest⟩⟩
    exact (le_max_right s y).trans hstart

theorem maxRrf_spec (h : Fused idx args rrf) : 0 < maxRrf rrf ∧ ∀ e ∈ rrf.entries, e.2 ≤ maxRrf rrf := by
  unfold maxRrf Dict.values
  cases hentries : rrf.entries with
  | nil => exact ⟨zero_lt_one, fun _ he => absurd he List.not_mem_nil⟩
  | cons e es =>
    obtain ⟨hstart, hrest⟩ := le_foldl_max (es.map Prod.snd) e.2
    have hzero : 0 ≤ (es.map Prod.snd).foldl max e.2 := by
      have he := (h e (hentries ▸ List.mem_cons_self)).1
      exact he.trans hstart
    have hall : ∀ e' ∈ e :: es, e'.2 ≤ (es.map Prod.snd).foldl max e.2 :=
      List.forall_mem_cons.mpr ⟨hstart, fun e' he' => hrest e'.2 (List.mem_map_of_mem he')⟩
    simp only [List.map_cons]
    by_cases hm : (es.map Prod.snd).foldl max e.2 = 0
    · rw [if_pos hm]
      exact ⟨zero_lt_one, fun e' he' => (hm ▸ hall e' he').trans zero_le_one⟩
    · rw [if_neg hm]
      exact ⟨lt_of_le_of_ne hzero (Ne.symm hm), hall⟩

-- ---------------------------------------------------------------------------
-- The best rowids
-- ---------------------------------------------------------------------------

theorem topIds_mem (h : e ∈ topIds rrf top) : e ∈ rrf.entries :=
  (List.perm_insertionSort _ _).mem_iff.mp (List.mem_of_mem_take h)

theorem topIds_nodup : ((topIds rrf top).map Prod.fst).Nodup := by
  have hperm := (List.perm_insertionSort (fun a b : Nat × ℚ => b.2 ≤ a.2) rrf.entries).map Prod.fst
  exact (hperm.nodup_iff.mpr rrf.nodup).sublist ((List.take_sublist _ _).map _)

theorem topIds_sorted : (topIds rrf top).Pairwise fun a b => b.2 ≤ a.2 :=
  (List.pairwise_insertionSort (fun a b : Nat × ℚ => b.2 ≤ a.2) rrf.entries).sublist (List.take_sublist _ _)

/-- The hits go with different rowids, each of a row that meets the filters, and
their scores are shares of the best one, in order. -/
structure Ranked (dt : Datetimes τ) (idx : Index) (args : ReadArgs) (picked : List (Nat × ℚ))
    (hits : List (Hit τ)) : Prop where
  few : (hits.length : Int) ≤ args.top
  distinct : (picked.map Prod.fst).Nodup
  rows : List.Forall₂ (fun e hit => ∃ row ∈ idx.concepts, row.rowid = e.1 ∧
    rowToConcept dt row = some hit.concept ∧ Found idx args row.rowid) picked hits
  scored : ∀ hit ∈ hits, 0 ≤ hit.score ∧ hit.score ≤ 1
  ordered : hits.Pairwise fun a b => b.score ≤ a.score

theorem pairwise_of_forall₂ {R : α → β → Prop} {S : α → α → Prop} {T : β → β → Prop} {xs : List α} {ys : List β}
    (h : List.Forall₂ R xs ys) (hst : ∀ a a' b b', R a b → R a' b' → S a a' → T b b') (hs : xs.Pairwise S) :
    ys.Pairwise T := by
  induction h with
  | nil => exact .nil
  | @cons x y xs ys hxy hrest ih =>
    obtain ⟨hx, hs⟩ := List.pairwise_cons.mp hs
    refine List.pairwise_cons.mpr ⟨fun y' hy' => ?_, ih hs⟩
    obtain ⟨i, hi, rfl⟩ := List.mem_iff_getElem.mp hy'
    have hi' : i < xs.length := hrest.length_eq ▸ hi
    exact hst _ _ _ _ hxy (hrest.get hi' hi) (hx _ (List.getElem_mem hi'))

theorem exists_left_of_forall₂ {R : α → β → Prop} {xs : List α} {ys : List β} (h : List.Forall₂ R xs ys)
    (hy : y ∈ ys) : ∃ x ∈ xs, R x y := by
  obtain ⟨i, hi, rfl⟩ := List.mem_iff_getElem.mp hy
  have hi' : i < xs.length := h.length_eq ▸ hi
  exact ⟨xs[i], List.getElem_mem hi', h.get hi' hi⟩

theorem ranked_of_picked {picked : List (Nat × ℚ)} {hits : List (Hit τ)} (htop : 1 ≤ args.top)
    (hf : Fused idx args rrf) (hsub : picked.Sublist (topIds rrf args.top.toNat))
    (h : List.Forall₂ (Picked dt idx (maxRrf rrf)) picked hits) : Ranked dt idx args picked hits := by
  obtain ⟨hpos, hmax⟩ := maxRrf_spec hf
  have hmem : ∀ e ∈ picked, e ∈ rrf.entries := fun e he => topIds_mem (hsub.subset he)
  have hlen : (hits.length : Int) ≤ args.top := by
    have hpicked := hsub.length_le
    have htake : (topIds rrf args.top.toNat).length ≤ args.top.toNat := List.length_take_le _ _
    have heq := h.length_eq
    omega
  refine ⟨hlen, topIds_nodup.sublist (hsub.map _), ?_, ?_, ?_⟩
  · refine List.forall₂_iff_get.mpr ⟨h.length_eq, fun i hi hi' => ?_⟩
    obtain ⟨row, hrow, hrowid, hc⟩ := (h.get hi hi').row
    have hfound := (hf _ (hmem _ (List.getElem_mem hi))).2
    exact ⟨row, hrow, hrowid, hc, hrowid ▸ hfound⟩
  · intro hit hhit
    obtain ⟨e, he, hpick⟩ := exists_left_of_forall₂ h hhit
    rw [hpick.score]
    exact ⟨div_nonneg (hf e (hmem e he)).1 hpos.le, (div_le_one hpos).mpr (hmax e (hmem e he))⟩
  · refine pairwise_of_forall₂ h ?_ (topIds_sorted.sublist hsub)
    intro e e' hit hit' hpick hpick' hle
    rw [hpick.score, hpick'.score]
    exact div_le_div_of_nonneg_right hle hpos.le

theorem read_ranked {hits : List (Hit τ)} (h : idx.read dt engine embedder args = .ok hits) :
    ∃ picked, Ranked dt idx args picked hits := by
  obtain ⟨htop, ⟨hw₀, hw₁⟩, limit, rrf, rrf', hfts, hvec, rfl | hcollect⟩ := read_ok h
  · refine ⟨[], ⟨?_, List.nodup_nil, .nil, fun _ hh => absurd hh List.not_mem_nil, .nil⟩⟩
    simp only [List.length_nil]
    omega
  · have hempty : Fused idx args Dict.empty := fun _ he => absurd he List.not_mem_nil
    have hrrf : Fused idx args rrf := by
      rcases hfts with rfl | rfl
      · exact hempty
      · exact hempty.fuse (ftsShare_nonneg hw₁) fun m hm => found_ftsCandidates hm
    have hrrf' : Fused idx args rrf' := by
      rcases hvec with rfl | ⟨v, rows, hrows, rfl⟩
      · exact hrrf
      · exact hrrf.fuse (vectorShare_nonneg hw₀) fun m hm => found_vectorCandidates hrows hm
    obtain ⟨picked, hsub, hpicked⟩ := collectHits_picked hcollect
    exact ⟨picked, ranked_of_picked htop hrrf' hsub hpicked⟩

end

end Intelliqx.Okf.Index
