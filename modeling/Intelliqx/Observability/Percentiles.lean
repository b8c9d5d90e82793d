import Intelliqx.Observability.Metrics
import Mathlib.Tactic.Linarith

/-!
# Published percentiles

`pct` truncates `p * n` to an index from 0, one past the nearest rank where the
product is whole. The percentiles of a snapshot are nearest-rank exactly where
the observations on both sides of such a rank are equal (`percentiles_nearest_iff`).
-/

namespace Intelliqx.Observability

/-- The `p` of `p50`, `p95` and `p99`. -/
def publishedPercentiles : List ℚ := [1 / 2, 19 / 20, 99 / 100]

/-- The percentiles of an entry are those of the observations by nearest rank. -/
structure NearestRanks [LinearOrder V] (samples : List V) (s : Stats V) : Prop where
  p50 : NearestRank samples (1 / 2 * samples.length) s.p50
  p95 : NearestRank samples (19 / 20 * samples.length) s.p95
  p99 : NearestRank samples (99 / 100 * samples.length) s.p99

/-- What the snapshot reports for a label set: what its loop assigns for it, the entry itself where no
other label set reads the same. -/
structure Reports [LinearOrder V] (num : Floats V) (name : List Char) (samples : Samples V) (labels : LabelSet)
    (s : Stats V) : Prop where
  assigned : (labels, s) ∈ Histogram.assigned num samples
  entry : (∀ l ∈ samples.keys, labelKey name l = labelKey name labels → l = labels) →
    (Histogram.snapshot num name samples).get? (labelKey name labels) = some s

section
variable {V : Type u} [LinearOrder V] {num : Floats V} {name : List Char} {samples : Samples V} {xs : List V}
  {labels : LabelSet} {s : Stats V} {p : ℚ}

theorem pct_nearest_iff (h : xs ≠ []) (hpos : 0 < p) (hlt : p < 1) : NearestRank xs (p * xs.length) (pct xs p h) ↔
    ∀ m : Nat, p * xs.length = m → (inOrder xs)[m]? = (inOrder xs)[m - 1]? := by
  have hn : (0 : ℚ) < xs.length := Nat.cast_pos.mpr (List.length_pos_iff.mpr h)
  have hbelow : p * xs.length < xs.length := mul_lt_of_lt_one_left hn hlt
  -- `p < 1`, so the index is never clamped
  have hindex : pctIndex xs.length p = ⌊p * xs.length⌋₊ := by
    have hfloor : ⌊p * xs.length⌋₊ < xs.length := (Nat.floor_lt (mul_pos hpos hn).le).mpr hbelow
    rw [pctIndex]
    omega
  have hpct : (inOrder xs)[⌊p * xs.length⌋₊]? = some (pct xs p h) := by
    rw [← hindex, List.getElem?_eq_getElem (pctIndex_lt h p), pct, List.get_eq_getElem]
  rw [nearestRank_iff (mul_pos hpos hn) hbelow.le, ← floor_rank_iff (mul_pos hpos hn), hpct]
  exact eq_comm

theorem mem_assigned : (labels, s) ∈ Histogram.assigned num samples ↔
    ∃ xs, samples.get? labels = some xs ∧ stats num xs = some s := by
  simp only [Histogram.assigned, List.mem_filterMap, Option.map_eq_some_iff, Prod.mk.injEq, Dict.get?_eq_some_iff]
  constructor
  · rintro ⟨⟨labels, xs⟩, hmem, s, hs, rfl, rfl⟩
    exact ⟨xs, hmem, hs⟩
  · rintro ⟨xs, hmem, hs⟩
    exact ⟨_, hmem, s, hs, rfl, rfl⟩

theorem stats_eq (num : Floats V) (h : xs ≠ []) : ∃ s, stats num xs = some s ∧
    s.p50 = pct xs (1 / 2) h ∧ s.p95 = pct xs (19 / 20) h ∧ s.p99 = pct xs (99 / 100) h := by
  rw [stats, dif_neg h]
  exact ⟨_, rfl, rfl, rfl, rfl⟩

theorem get?_snapshot (hassigned : (labels, s) ∈ Histogram.assigned num samples)
    (halone : ∀ l ∈ samples.keys, labelKey name l = labelKey name labels → l = labels) :
    (Histogram.snapshot num name samples).get? (labelKey name labels) = some s := by
  have hsome : ((Histogram.snapshot num name samples).get? (labelKey name labels)).isSome :=
    Dict.isSome_get?_index.mpr (List.mem_map.mpr ⟨_, hassigned, rfl⟩)
  obtain ⟨s', hs'⟩ := Option.isSome_iff_exists.mp hsome
  obtain ⟨⟨l, t⟩, hmem, hkey, rfl⟩ := Dict.exists_of_get?_index hs'
  obtain ⟨ys, hys, ht⟩ := mem_assigned.mp hmem
  obtain ⟨xs, hxs, hs⟩ := mem_assigned.mp hassigned
  obtain rfl := halone l (Dict.isSome_get?_iff.mp (by rw [hys, Option.isSome_some])) hkey
  obtain rfl := Option.some.inj (hys.symm.trans hxs)
  rw [hs', ← ht, hs]

theorem reports_stats (hlabels : samples.get? labels = some xs) (hs : stats num xs = some s) :
    Reports num name samples labels s := by
  have hassigned := mem_assigned.mpr ⟨xs, hlabels, hs⟩
  exact ⟨hassigned, get?_snapshot hassigned⟩

theorem Reports.stats_eq_some (h : Reports num name samples labels s) (hlabels : samples.get? labels = some xs) :
    stats num xs = some s := by
  obtain ⟨ys, hys, hs⟩ := mem_assigned.mp h.assigned
  rwa [Option.some.inj (hys.symm.trans hlabels)] at hs

/-- Only an even number of observations has a whole rank. -/
theorem even_of_whole {n m : Nat} (hp : p ∈ publishedPercentiles) (hm : p * n = m) : 2 ∣ n := by
  simp only [publishedPercentiles, List.mem_cons, List.not_mem_nil, or_false] at hp
  rcases hp with rfl | rfl | rfl
  · have hwhole : (n : ℚ) = 2 * m := by linarith
    have : n = 2 * m := by exact_mod_cast hwhole
    omega
  · have hwhole : (19 * n : ℚ) = 20 * m := by linarith
    have : 19 * n = 20 * m := by exact_mod_cast hwhole
    omega
  · have hwhole : (99 * n : ℚ) = 100 * m := by linarith
    have : 99 * n = 100 * m := by exact_mod_cast hwhole
    omega

theorem nearestRanks_iff (h : xs ≠ []) (hs : stats num xs = some s) : NearestRanks xs s ↔
    ∀ p ∈ publishedPercentiles, ∀ m : Nat, p * xs.length = m → (inOrder xs)[m]? = (inOrder xs)[m - 1]? := by
  obtain ⟨s', hs', h50, h95, h99⟩ := stats_eq num h
  obtain rfl := Option.some.inj (hs'.symm.trans hs)
  have hiff : NearestRanks xs s' ↔ NearestRank xs (1 / 2 * xs.length) s'.p50 ∧
      NearestRank xs (19 / 20 * xs.length) s'.p95 ∧ NearestRank xs (99 / 100 * xs.length) s'.p99 :=
    ⟨fun h => ⟨h.p50, h.p95, h.p99⟩, fun h => ⟨h.1, h.2.1, h.2.2⟩⟩
  rw [hiff, h50, h95, h99, pct_nearest_iff h (by norm_num) (by norm_num), pct_nearest_iff h (by norm_num) (by norm_num),
    pct_nearest_iff h (by norm_num) (by norm_num)]
  simp only [publishedPercentiles, List.forall_mem_cons, List.not_mem_nil, false_implies, implies_true, and_true]

end

/-- The percentiles of a label set are nearest-rank exactly if each `p * n` is no whole number or the
observations of that rank and the next one are equal. -/
theorem percentiles_nearest_iff {V : Type u} [LinearOrder V] (num : Floats V) (name : List Char) (samples : Samples V)
    {labels : LabelSet} {xs : List V} (hlabels : samples.get? labels = some xs) (hne : xs ≠ []) :
    (∃ s, Reports num name samples labels s ∧ NearestRanks xs s) ↔
      ∀ p ∈ publishedPercentiles, ∀ m : Nat, p * xs.length = m → (inOrder xs)[m]? = (inOrder xs)[m - 1]? := by
  obtain ⟨s, hs, -⟩ := stats_eq num hne
  rw [← nearestRanks_iff hne hs]
  constructor
  · rintro ⟨s', hreports, hranks⟩
    rwa [Option.some.inj ((hreports.stats_eq_some hlabels).symm.trans hs)] at hranks
  · exact fun hranks => ⟨s, reports_stats hlabels hs, hranks⟩

/-- The median of three observations is the second one. -/
theorem three_observations_nearest : ∃ s, Reports wholeFloats "h".toList
    (.ofList [(.none, [3, 1, 2])]) .none s ∧ NearestRanks [3, 1, 2] s := by
  refine (percentiles_nearest_iff wholeFloats _ (.ofList [(.none, [3, 1, 2])]) rfl (by decide)).mpr ?_
  intro p hp m hm
  exact absurd (even_of_whole hp hm) (by decide)

/-- Of two observations the greater one is reported as their median. -/
theorem two_observations_not_nearest : ¬ ∀ (samples : Samples Nat) (labels : LabelSet) (xs : List Nat),
    samples.get? labels = some xs → xs ≠ [] →
      ∃ s, Reports wholeFloats "h".toList samples labels s ∧ NearestRanks xs s := by
  intro h
  obtain ⟨s, hreports, hranks⟩ := h (.ofList [(.none, [1, 2])]) .none [1, 2] rfl (by decide)
  have hs : stats wholeFloats [1, 2] = some s := hreports.stats_eq_some rfl
  have hequal := (nearestRanks_iff (by decide) hs).mp hranks (1 / 2) (by simp [publishedPercentiles]) 1 (by norm_num)
  exact absurd hequal (by decide)

end Intelliqx.Observability
