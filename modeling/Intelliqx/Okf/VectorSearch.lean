import Intelliqx.Base.FirstBy
import Intelliqx.Okf.Fusion
import Intelliqx.Okf.History

/-!
# Vector search under a filter

The nearest vectors are cut off before the filter acts, so a filtered search
can miss concepts that meet the filter. It finds as many as it should exactly
when enough of the nearest vectors belong to such concepts and their rows can
be read back (`filtered_search_iff`).
-/

namespace Intelliqx.Okf

open Py

-- ---------------------------------------------------------------------------
-- Nearest neighbours
-- ---------------------------------------------------------------------------

/-- `knn` answers with the `k` nearest entries and their distances, the nearest first. -/
structure Engine.Nearest (dist : Vector → Vector → ℚ) (engine : Engine) : Prop extends engine.Lawful where
  knn_distance : ∀ entries v k, ∀ m ∈ engine.knn entries v k,
    ∃ e ∈ entries, e.1 = m.1 ∧ m.2 = some (dist e.2 v)
  knn_sorted : ∀ entries v k, (engine.knn entries v k).Pairwise fun a b => ∀ d ∈ a.2, ∀ d' ∈ b.2, d ≤ d'
  knn_nearest : ∀ entries v k, ∀ e ∈ entries, e.1 ∉ (engine.knn entries v k).map Prod.fst →
    ∀ m ∈ engine.knn entries v k, ∀ d ∈ m.2, d ≤ dist e.2 v

def byDistance (dist : Vector → Vector → ℚ) (entries : List (Nat × Vector)) (v : Vector) : List (Nat × ℚ) :=
  (entries.map fun e => (e.1, dist e.2 v)).insertionSort fun a b => a.2 ≤ b.2

/-- The whole table is sorted by distance. -/
def Engine.exact (dist : Vector → Vector → ℚ) : Engine :=
  { Engine.ranked (fun _ _ => 0) with
    knn := fun entries v k => ((byDistance dist entries v).take k).map fun m => (m.1, some m.2) }

section
variable {dist : Vector → Vector → ℚ} {entries : List (Nat × Vector)} {v : Vector}

theorem byDistance_perm (dist : Vector → Vector → ℚ) (entries : List (Nat × Vector)) (v : Vector) :
    (byDistance dist entries v).Perm (entries.map fun e => (e.1, dist e.2 v)) :=
  List.perm_insertionSort _ _

theorem byDistance_sorted (dist : Vector → Vector → ℚ) (entries : List (Nat × Vector)) (v : Vector) :
    (byDistance dist entries v).Pairwise fun a b => a.2 ≤ b.2 :=
  List.pairwise_insertionSort _ _

theorem fst_byDistance_perm : ((byDistance dist entries v).map Prod.fst).Perm (entries.map Prod.fst) := by
  have h := (byDistance_perm dist entries v).map Prod.fst
  rwa [List.map_map] at h

theorem mem_byDistance : m ∈ byDistance dist entries v ↔ ∃ e ∈ entries, (e.1, dist e.2 v) = m := by
  rw [(byDistance_perm dist entries v).mem_iff, List.mem_map]

theorem fst_knn_exact (k : Nat) : ((Engine.exact dist).knn entries v k).map Prod.fst =
    ((byDistance dist entries v).map Prod.fst).take k := by
  simp [Engine.exact, List.map_take, Function.comp_def]

theorem mem_knn_exact (h : m ∈ (Engine.exact dist).knn entries v k) :
    ∃ e ∈ entries, e.1 = m.1 ∧ m.2 = some (dist e.2 v) := by
  obtain ⟨m', hm', rfl⟩ := List.mem_map.mp h
  obtain ⟨e, he, rfl⟩ := mem_byDistance.mp (List.mem_of_mem_take hm')
  exact ⟨e, he, rfl, rfl⟩

theorem Engine.exact_nearest (dist : Vector → Vector → ℚ) : (Engine.exact dist).Nearest dist where
  fts_mem := (Engine.ranked_lawful fun _ _ => 0).fts_mem
  fts_nodup := (Engine.ranked_lawful fun _ _ => 0).fts_nodup
  knn_mem entries v k m hm := by
    obtain ⟨e, he, hid, -⟩ := mem_knn_exact hm
    exact hid ▸ List.mem_map_of_mem he
  knn_nodup entries v k hn := by
    rw [fst_knn_exact]
    exact (fst_byDistance_perm.nodup_iff.mpr hn).sublist (List.take_sublist _ _)
  knn_length entries v k := by
    simp [Engine.exact, (byDistance_perm dist entries v).length_eq]
  knn_distance _ _ _ _ hm := mem_knn_exact hm
  knn_sorted entries v k := by
    have hsorted := (byDistance_sorted dist entries v).sublist (List.take_sublist k _)
    refine List.pairwise_map.mpr (hsorted.imp ?_)
    rintro a b hab d ⟨⟩ d' ⟨⟩
    exact hab
  knn_nearest entries v k e he hout m hm d hd := by
    have hsorted := byDistance_sorted dist entries v
    have he' : (e.1, dist e.2 v) ∈ byDistance dist entries v := mem_byDistance.mpr ⟨e, he, rfl⟩
    rw [← List.take_append_drop k (byDistance dist entries v)] at hsorted he'
    rw [fst_knn_exact, ← List.map_take] at hout
    obtain ⟨m', hm', rfl⟩ := List.mem_map.mp hm
    cases hd
    rcases List.mem_append.mp he' with he' | he'
    · exact absurd (List.mem_map_of_mem he') hout
    · exact (List.pairwise_append.mp hsorted).2.2 m' hm' _ he'

end

-- ---------------------------------------------------------------------------
-- Reading by a vector alone
-- ---------------------------------------------------------------------------

namespace Index

/-- A read with an empty query and a vector of the embedder's size that passes the checks of `read`. -/
structure VectorRead (embedder : Embedder) where
  queryEmbedding : Vector
  sized : queryEmbedding.length = embedder.dim
  top : Nat
  positive : 1 ≤ top
  type : Option String := none
  tag : Option String := none
  vectorWeight : ℚ := 1 / 2
  weight : 0 ≤ vectorWeight ∧ vectorWeight ≤ 1

section
variable {embedder : Embedder} (engine : Engine) (idx : Index) (r : VectorRead embedder)

def VectorRead.args : ReadArgs where
  query := ""
  top := r.top
  type := r.type
  tag := r.tag
  queryEmbedding := some r.queryEmbedding
  vectorWeight := r.vectorWeight

/-- The concepts that meet the filter and have an embedding. -/
def matching : List ConceptRow :=
  idx.concepts.filter fun row => passes r.type r.tag row && decide (row.rowid ∈ idx.conceptsVec.map Prod.fst)

def limit : Nat := max (r.top * 4) 30

/-- Those of the nearest vectors that belong to concepts that meet the filter. -/
def nearMatching : List (Nat × Option ℚ) :=
  (engine.knn idx.conceptsVec r.queryEmbedding (limit r)).filter fun m =>
    idx.rowExists (passes r.type r.tag) m.1

/-- The search finds `top` concepts that meet the filter and have an embedding, or all there are. -/
def FindsAll (dt : Datetimes τ) : Prop :=
  ∃ hits, idx.read dt engine embedder r.args = .ok hits ∧ hits.length = min r.top (matching idx r).length

/-- As many of the nearest vectors belong to such concepts. -/
def EnoughNear : Prop := min r.top (matching idx r).length ≤ (nearMatching engine idx r).length

/-- The first `top` of them have rows that are read back. -/
def ReadBack (dt : Datetimes τ) : Prop :=
  ∀ m ∈ (nearMatching engine idx r).take r.top, ∀ row ∈ idx.concepts, row.rowid = m.1 →
    ∃ c, rowToConcept dt row = some c

/-- Candidates as `_vector_candidates` returns them. -/
def nearRows : List (Nat × ℚ) := (nearMatching engine idx r).filterMap fun m => m.2.map fun d => (m.1, d)

def vectorScores : Dict Nat ℚ := fused r.vectorWeight [] (nearRows engine idx r)

end

section
variable {dt : Datetimes τ} {embedder : Embedder} {engine : Engine} {idx idx' : Index}
  {writes : List (OKFConcept τ)} {c : OKFConcept τ} {r : VectorRead embedder} {dist : Vector → Vector → ℚ}
  {scores : List (Nat × ℚ)} {hits : List (Hit τ)}

theorem nodup_conceptsVec_write (hn : (idx.conceptsVec.map Prod.fst).Nodup)
    (hw : idx.write dt embedder c = .ok idx') : (idx'.conceptsVec.map Prod.fst).Nodup := by
  obtain ⟨tagsJson, metadataJson, vec, -, rfl⟩ := write_ok_iff.mp hw
  simp only [putVector, insertOrReplace, List.map_append]
  refine (hn.sublist (List.filter_sublist.map _)).append ?_ ?_
  · cases vec <;> simp
  · intro rowid hold hnew
    obtain ⟨v, hv, rfl⟩ := List.mem_map.mp hnew
    obtain ⟨e, he, hid⟩ := List.mem_map.mp hold
    have hne := of_decide_eq_true (List.mem_filter.mp he).2
    cases vec with
    | none => cases hv
    | some vec =>
      obtain rfl := List.mem_singleton.mp hv
      exact hne hid

theorem nodup_conceptsVec_writeAll (h : writeAll dt embedder writes = .ok idx) :
    (idx.conceptsVec.map Prod.fst).Nodup := by
  induction writes using List.reverseRecOn generalizing idx with
  | nil => cases h; exact List.nodup_nil
  | append_singleton writes c ih =>
    obtain ⟨idx₀, h₀, hw⟩ := writeAll_concat.mp h
    exact nodup_conceptsVec_write (ih h₀) hw

-- ---------------------------------------------------------------------------
-- The hits of rowids that have rows
-- ---------------------------------------------------------------------------

theorem length_collectHits (hrows : ∀ e ∈ scores, ∃ row ∈ idx.concepts, row.rowid = e.1)
    (h : collectHits dt idx best scores = .ok hits) : hits.length = scores.length := by
  induction scores generalizing hits with
  | nil => cases h; rfl
  | cons e scores ih =>
    obtain ⟨hrow, hrows⟩ := List.forall_mem_cons.mp hrows
    simp only [collectHits] at h
    split at h
    · rename_i hnone
      obtain ⟨row, hmem, hid⟩ := hrow
      exact absurd (decide_eq_true hid) (List.find?_eq_none.mp hnone row hmem)
    · split at h
      · cases h
      · cases hrest : collectHits dt idx best scores with
        | error exc => simp [hrest] at h
        | ok rest =>
          simp only [hrest, bind_ok_eq, Except.ok.injEq] at h
          rw [← h, List.length_cons, List.length_cons, ih hrows hrest]

theorem collectHits_isOk_iff : (∃ hits, collectHits dt idx best scores = .ok hits) ↔
    ∀ e ∈ scores, ∀ row, idx.concepts.find? (fun r => r.rowid = e.1) = some row →
      ∃ c, rowToConcept dt row = some c := by
  induction scores with
  | nil => exact ⟨fun _ _ he => absurd he List.not_mem_nil, fun _ => ⟨[], rfl⟩⟩
  | cons e scores ih =>
    rw [List.forall_mem_cons, ← ih]
    simp only [collectHits]
    cases hfind : idx.concepts.find? fun r => r.rowid = e.1 with
    | none => simp
    | some row =>
      cases hc : rowToConcept dt row with
      | none => simp [hc]
      | some c => cases collectHits dt idx best scores <;> simp [hc]

-- ---------------------------------------------------------------------------
-- The candidates
-- ---------------------------------------------------------------------------

theorem vectorCandidates_eq (r : VectorRead embedder) :
    idx.vectorCandidates engine embedder r.queryEmbedding r.type r.tag (limit r) =
      .ok (nearRows engine idx r) := by
  unfold vectorCandidates
  rw [if_neg (not_not.mpr r.sized)]
  rfl

theorem read_eq (dt : Datetimes τ) : idx.read dt engine embedder r.args =
    collectHits dt idx (maxRrf (vectorScores engine idx r)) (topIds (vectorScores engine idx r) r.top) := by
  have htop : ¬ (r.args.top < 1) := by
    have hpos := r.positive
    simp only [VectorRead.args]
    omega
  have hweight : ¬ ¬ (0 ≤ r.args.vectorWeight ∧ r.args.vectorWeight ≤ 1) := not_not.mpr r.weight
  have hlimit : (max (r.args.top * 4) 30).toNat = limit r := by
    simp only [VectorRead.args, limit]
    omega
  have hcandidates : idx.vectorCandidates engine embedder r.queryEmbedding r.args.type r.args.tag
      (max (r.args.top * 4) 30).toNat = .ok (nearRows engine idx r) := by
    rw [hlimit]
    exact vectorCandidates_eq r
  rw [read, if_neg htop, if_neg hweight, hybrid_eq dt rfl hcandidates]
  rfl

section
variable (he : engine.Nearest dist)
include he

theorem nearRows_eq : nearRows engine idx r = (nearMatching engine idx r).map fun m => (m.1, m.2.getD 0) := by
  rw [nearRows, ← List.filterMap_eq_map]
  apply List.filterMap_congr
  intro m hm
  obtain ⟨e, -, -, hd⟩ := he.knn_distance _ _ _ m (List.mem_of_mem_filter hm)
  simp [hd]

theorem fst_nearRows : (nearRows engine idx r).map Prod.fst = (nearMatching engine idx r).map Prod.fst := by
  rw [nearRows_eq he, List.map_map]
  rfl

theorem nodup_nearRows (hn : (idx.conceptsVec.map Prod.fst).Nodup) :
    ((nearRows engine idx r).map Prod.fst).Nodup := by
  rw [fst_nearRows he]
  exact (he.knn_nodup _ _ _ hn).sublist (List.filter_sublist.map _)

theorem sorted_nearRows : (nearRows engine idx r).Pairwise fun a b => a.2 ≤ b.2 := by
  have hsorted := (he.knn_sorted idx.conceptsVec r.queryEmbedding (limit r)).filter fun m =>
    idx.rowExists (passes r.type r.tag) m.1
  rw [nearRows_eq he, List.pairwise_map]
  refine hsorted.imp_of_mem fun {a b} ha hb hab => ?_
  obtain ⟨e, -, -, hd⟩ := he.knn_distance _ _ _ a (List.mem_of_mem_filter ha)
  obtain ⟨e', -, -, hd'⟩ := he.knn_distance _ _ _ b (List.mem_of_mem_filter hb)
  rw [hd, hd'] at hab ⊢
  exact hab _ rfl _ rfl

/-- The best rowids are the first ones, the nearest. -/
theorem fst_topIds (hn : (idx.conceptsVec.map Prod.fst).Nodup) :
    (topIds (vectorScores engine idx r) r.top).map Prod.fst =
      ((nearMatching engine idx r).take r.top).map Prod.fst := by
  have hnearest : NearestFirst ((nearRows engine idx r).map Prod.fst) (nearRows engine idx r) :=
    ⟨rfl, sorted_nearRows he⟩
  have hfound : found [] ((nearRows engine idx r).map Prod.fst) = (nearRows engine idx r).map Prod.fst := by
    simp [found]
  have hranking : ranking r.vectorWeight [] (nearRows engine idx r) r.top =
      (found [] ((nearRows engine idx r).map Prod.fst)).take r.top := by
    refine ranking_of_agreeing r.weight.1 r.weight.2 List.nodup_nil (nodup_nearRows he hn) hnearest ?_
    rw [List.map_nil, hfound]
    exact List.take_prefix _ _
  rw [hfound, fst_nearRows he, ← List.map_take] at hranking
  exact hranking

theorem near_row (hm : m ∈ nearMatching engine idx r) : ∃ row ∈ matching idx r, row.rowid = m.1 := by
  obtain ⟨hm, hexists⟩ := List.mem_filter.mp hm
  obtain ⟨row, hrow, hpasses⟩ := List.any_eq_true.mp hexists
  obtain ⟨hid, hpasses⟩ := Bool.and_eq_true_iff.mp hpasses
  have hid : row.rowid = m.1 := beq_iff_eq.mp hid
  have hvec : row.rowid ∈ idx.conceptsVec.map Prod.fst := hid ▸ he.knn_mem _ _ _ m hm
  exact ⟨row, List.mem_filter.mpr ⟨hrow, by simp [hpasses, hvec]⟩, hid⟩

theorem length_nearMatching_le (hn : (idx.conceptsVec.map Prod.fst).Nodup) :
    (nearMatching engine idx r).length ≤ (matching idx r).length := by
  have hnodup : ((nearMatching engine idx r).map Prod.fst).Nodup := fst_nearRows he ▸ nodup_nearRows he hn
  have hsub : (nearMatching engine idx r).map Prod.fst ⊆ (matching idx r).map ConceptRow.rowid := by
    intro rowid hrowid
    obtain ⟨m, hm, rfl⟩ := List.mem_map.mp hrowid
    obtain ⟨row, hrow, hid⟩ := near_row he hm
    exact hid ▸ List.mem_map_of_mem hrow
  simpa using (List.subperm_of_subset hnodup hsub).length_le

end

end

-- ---------------------------------------------------------------------------
-- One concept behind a crowd
-- ---------------------------------------------------------------------------

/-- On vectors of one component the distance is that of the numbers. -/
def distance (u v : Vector) : ℚ := ((u.zip v).map fun p => |p.1 - p.2|).sum

/-- The body `far` has a vector of its own. -/
def farEmbedder : Embedder := ⟨1, fun text => .ok [if text = "far" then 1 else 0]⟩

theorem strip_note : strip "note" = "note" := by decide

def note : OKFConcept String where
  conceptId := "note"
  frontmatter := { type := "note", stripped := strip_note }
  body := "far"

def crowd : List (OKFConcept String) :=
  (List.range 30).map (fun i => document (String.ofList (List.replicate i 'd')) "near") ++ [note]

def noteRead : VectorRead farEmbedder where
  queryEmbedding := [0]
  sized := rfl
  top := 1
  positive := le_refl 1
  type := some "note"
  weight := by norm_num

/-- One document fewer and a second note, as far away as the first. -/
def smallCrowd : List (OKFConcept String) :=
  (List.range 29).map (fun i => document (String.ofList (List.replicate i 'd')) "near") ++
    [note, { note with conceptId := "memo" }]

end Index

end Intelliqx.Okf
