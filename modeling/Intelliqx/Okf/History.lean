import Intelliqx.Okf.Ranking

/-!
# The index and its history

The row that a rewrite replaces leaves its full-text entry behind, so a read
can tell how often a concept was written. Hits depend on the last writes alone
exactly when no concept was written twice (`history_independent_iff`).
-/

namespace Intelliqx.Okf

open Py

/-- The concepts no later write replaces, in the order of their writes. -/
def lastVersions : List (OKFConcept τ) → List (OKFConcept τ)
  | [] => []
  | c :: cs =>
    if c.conceptId ∈ cs.map OKFConcept.conceptId then lastVersions cs else c :: lastVersions cs

namespace Index

def writeAll (dt : Datetimes τ) (embedder : Embedder) (writes : List (OKFConcept τ)) :
    Except PyException Index :=
  writes.foldlM (write dt embedder) empty

/-- What is compared of a read: ids, order and scores, or the exception. -/
def view (r : Except PyException (List (Hit τ))) : Except PyException (List (String × ℚ)) :=
  r.map (List.map fun h => (h.concept.conceptId, h.score))

section
variable {dt : Datetimes τ} {embedder : Embedder} {engine : Engine} {idx idx' : Index}
  {c : OKFConcept τ} {writes : List (OKFConcept τ)}

-- ---------------------------------------------------------------------------
-- Rowids count the writes
-- ---------------------------------------------------------------------------

/-- After `n` writes the full-text entries are numbered from 1 to `n`, and the
rows have some of these numbers, the last one among them. -/
structure Numbered (n : Nat) (idx : Index) : Prop where
  entries : idx.conceptsFts.map Prod.fst = List.range' 1 n
  last : (idx.concepts.map ConceptRow.rowid).foldr max 0 = n
  rowids : (idx.concepts.map ConceptRow.rowid).Nodup
  mirrored : ∀ row ∈ idx.concepts, row.rowid ∈ idx.conceptsFts.map Prod.fst

theorem foldr_max_concat {ns : List Nat} (h : ∀ m ∈ ns, m ≤ n) : (ns ++ [n]).foldr max 0 = n := by
  induction ns with
  | nil => simp
  | cons m ns ih =>
    rw [List.forall_mem_cons] at h
    rw [List.cons_append, List.foldr_cons, ih h.2, Nat.max_eq_right h.1]

section
variable (h : Numbered n idx)
include h

theorem Numbered.nextId : idx.nextId = n + 1 := by rw [Index.nextId, h.last]

theorem Numbered.mem_entries : rowid ∈ idx.conceptsFts.map Prod.fst ↔ 1 ≤ rowid ∧ rowid ≤ n := by
  rw [h.entries, List.mem_range'_1]
  omega

theorem Numbered.rowid_le (hrow : row ∈ idx.concepts) : row.rowid ≤ n :=
  (h.mem_entries.mp (h.mirrored row hrow)).2

theorem Numbered.nodup_entries : (idx.conceptsFts.map Prod.fst).Nodup := by
  rw [h.entries]
  exact List.nodup_range'

theorem Numbered.entries_ne_nil (hpos : 0 < n) : idx.conceptsFts ≠ [] := by
  intro hnil
  have hlen := congrArg List.length h.entries
  simp only [hnil, List.map_nil, List.length_nil, List.length_range'] at hlen
  omega

theorem Numbered.write (hw : idx.write dt embedder c = .ok idx') : Numbered (n + 1) idx' := by
  obtain ⟨tagsJson, metadataJson, vec, -, hconcepts, hfts⟩ := write_tables hw
  have hrowids : idx'.concepts.map ConceptRow.rowid =
      (idx.concepts.filter fun r => r.conceptId ≠ c.conceptId).map ConceptRow.rowid ++ [n + 1] := by
    rw [hconcepts, List.map_append, ← h.nextId]
    rfl
  have hle : ∀ m ∈ (idx.concepts.filter fun r => r.conceptId ≠ c.conceptId).map ConceptRow.rowid, m ≤ n := by
    intro m hm
    obtain ⟨row, hrow, rfl⟩ := List.mem_map.mp hm
    exact h.rowid_le (List.mem_of_mem_filter hrow)
  refine ⟨?_, ?_, ?_, ?_⟩
  · rw [hfts, h.entries, h.nextId, List.range'_1_concat, Nat.add_comm 1 n]
  · rw [hrowids, foldr_max_concat fun m hm => (hle m hm).trans (Nat.le_succ n)]
  · rw [hrowids]
    apply (h.rowids.sublist (List.filter_sublist.map _)).append (by simp)
    rw [List.disjoint_singleton]
    exact fun hm => absurd (hle _ hm) (by omega)
  · intro row hrow
    rw [hfts, List.mem_append, List.mem_singleton]
    rcases mem_concepts_write hw hrow with ⟨hrow, -⟩ | ⟨_, _, _, -, rfl⟩
    · exact .inl (h.mirrored row hrow)
    · exact .inr rfl

end

theorem writeAll_concat : writeAll dt embedder (writes ++ [c]) = .ok idx' ↔
    ∃ idx, writeAll dt embedder writes = .ok idx ∧ idx.write dt embedder c = .ok idx' := by
  unfold writeAll
  rw [List.foldlM_append]
  cases writes.foldlM (Index.write dt embedder) empty with
  | error e => simp
  | ok idx => cases h : idx.write dt embedder c <;> simp [h]

theorem numbered_writeAll (h : writeAll dt embedder writes = .ok idx) : Numbered writes.length idx := by
  induction writes using List.reverseRecOn generalizing idx with
  | nil => cases h; exact ⟨rfl, rfl, List.nodup_nil, fun _ hrow => by cases hrow⟩
  | append_singleton writes c ih =>
    obtain ⟨idx₀, h₀, hw⟩ := writeAll_concat.mp h
    simpa using (ih h₀).write hw

-- ---------------------------------------------------------------------------
-- Entries without a row
-- ---------------------------------------------------------------------------

def Stale (idx : Index) (rowid : Nat) : Prop :=
  rowid ∈ idx.conceptsFts.map Prod.fst ∧ ∀ row ∈ idx.concepts, row.rowid ≠ rowid

theorem mem_conceptIds_writeAll (h : writeAll dt embedder writes = .ok idx) :
    conceptId ∈ idx.concepts.map ConceptRow.conceptId ↔ conceptId ∈ writes.map OKFConcept.conceptId := by
  induction writes using List.reverseRecOn generalizing idx with
  | nil => cases h; exact Iff.rfl
  | append_singleton writes c ih =>
    obtain ⟨idx₀, h₀, hw⟩ := writeAll_concat.mp h
    obtain ⟨tagsJson, metadataJson, vec, -, hconcepts, -⟩ := write_tables hw
    rw [hconcepts, List.map_append, List.map_append, List.mem_append, List.mem_append, ← ih h₀]
    simp only [List.mem_map, List.mem_filter, decide_eq_true_eq]
    constructor
    · rintro (⟨row, ⟨hrow, -⟩, hid⟩ | hc)
      · exact .inl ⟨row, hrow, hid⟩
      · exact .inr (by simpa [conceptRow] using hc)
    · rintro (⟨row, hrow, hid⟩ | hc)
      · by_cases hne : row.conceptId = c.conceptId
        · exact .inr (by simp [conceptRow, ← hid, hne])
        · exact .inl ⟨row, ⟨hrow, hne⟩, hid⟩
      · exact .inr (by simpa [conceptRow] using hc)

theorem stale_write (hn : Numbered n idx) (hw : idx.write dt embedder c = .ok idx') :
    (∃ rowid, Stale idx' rowid) ↔
      (∃ rowid, Stale idx rowid) ∨ c.conceptId ∈ idx.concepts.map ConceptRow.conceptId := by
  obtain ⟨tagsJson, metadataJson, vec, -, hconcepts, hfts⟩ := write_tables hw
  have hnext := hn.nextId
  have hnew : conceptRow dt c idx.nextId tagsJson metadataJson ∈ idx'.concepts := by simp [hconcepts]
  constructor
  · rintro ⟨rowid, hm, hs⟩
    rw [hfts, List.mem_append, List.mem_singleton] at hm
    rcases hm with hm | rfl
    · by_cases hlive : ∃ row ∈ idx.concepts, row.rowid = rowid
      · obtain ⟨row, hrow, rfl⟩ := hlive
        refine .inr (List.mem_map.mpr ⟨row, hrow, ?_⟩)
        by_contra hne
        have hkept : row ∈ idx'.concepts := by
          rw [hconcepts, List.mem_append, List.mem_filter]
          exact .inl ⟨hrow, decide_eq_true hne⟩
        exact hs row hkept rfl
      · exact .inl ⟨rowid, hm, fun row hrow hr => hlive ⟨row, hrow, hr⟩⟩
    · exact absurd rfl (hs _ hnew)
  · rintro (⟨rowid, hm, hs⟩ | hc)
    · refine ⟨rowid, by rw [hfts]; exact List.mem_append_left _ hm, ?_⟩
      intro row hrow
      have hle := (hn.mem_entries.mp hm).2
      rcases mem_concepts_write hw hrow with ⟨hrow, -⟩ | ⟨_, _, _, -, rfl⟩
      · exact hs row hrow
      · simp only [conceptRow]
        omega
    · obtain ⟨old, hold, hid⟩ := List.mem_map.mp hc
      refine ⟨old.rowid, by rw [hfts]; exact List.mem_append_left _ (hn.mirrored old hold),
        ?_⟩
      intro row hrow hrowid
      have hle := hn.rowid_le hold
      rcases mem_concepts_write hw hrow with ⟨hrow, hne⟩ | ⟨_, _, _, -, rfl⟩
      · have heq : row = old := List.inj_on_of_nodup_map hn.rowids hrow hold hrowid
        exact hne (heq ▸ hid)
      · simp only [conceptRow] at hrowid
        omega

theorem stale_iff (h : writeAll dt embedder writes = .ok idx) :
    (∃ rowid, Stale idx rowid) ↔ ¬ (writes.map OKFConcept.conceptId).Nodup := by
  induction writes using List.reverseRecOn generalizing idx with
  | nil => cases h; simp [Stale, empty]
  | append_singleton writes c ih =>
    obtain ⟨idx₀, h₀, hw⟩ := writeAll_concat.mp h
    rw [stale_write (numbered_writeAll h₀) hw, ih h₀, mem_conceptIds_writeAll h₀, List.map_append,
      List.nodup_append]
    simp only [List.map_cons, List.map_nil, List.nodup_singleton, true_and, List.mem_singleton,
      forall_eq, ne_eq]
    by_cases hn : (writes.map OKFConcept.conceptId).Nodup
    · simp [hn, List.mem_map]
    · simp [hn]

-- ---------------------------------------------------------------------------
-- The last versions
-- ---------------------------------------------------------------------------

theorem lastVersions_sublist (writes : List (OKFConcept τ)) : (lastVersions writes).Sublist writes := by
  induction writes with
  | nil => exact .slnil
  | cons c cs ih =>
    unfold lastVersions
    split
    · exact ih.cons c
    · exact ih.cons_cons c

theorem nodup_lastVersions (writes : List (OKFConcept τ)) :
    ((lastVersions writes).map OKFConcept.conceptId).Nodup := by
  induction writes with
  | nil => exact List.nodup_nil
  | cons c cs ih =>
    unfold lastVersions
    split
    · exact ih
    · rename_i hc
      refine List.nodup_cons.mpr ⟨fun hm => hc ?_, ih⟩
      exact ((lastVersions_sublist cs).map _).subset hm

theorem lastVersions_eq_self (h : (writes.map OKFConcept.conceptId).Nodup) :
    lastVersions writes = writes := by
  induction writes with
  | nil => rfl
  | cons c cs ih =>
    obtain ⟨hc, hcs⟩ := List.nodup_cons.mp h
    rw [lastVersions, if_neg hc, ih hcs]

theorem lastVersions_ne_nil (h : writes ≠ []) : lastVersions writes ≠ [] := by
  induction writes with
  | nil => exact h
  | cons c cs ih =>
    unfold lastVersions
    split
    · rename_i hc
      exact ih fun hn => by simp [hn] at hc
    · simp

theorem writeAll_isOk : (∃ idx, writeAll dt embedder writes = .ok idx) ↔
    ∀ c ∈ writes, ∃ tagsJson metadataJson vec, Written dt embedder c tagsJson metadataJson vec := by
  induction writes using List.reverseRecOn with
  | nil => exact ⟨fun _ _ hc => (List.not_mem_nil hc).elim, fun _ => ⟨empty, rfl⟩⟩
  | append_singleton writes c ih =>
    simp only [List.mem_append, List.mem_singleton, or_imp, forall_and, forall_eq, ← ih, writeAll_concat]
    constructor
    · rintro ⟨idx', idx, hidx, hw⟩
      obtain ⟨tagsJson, metadataJson, vec, hc, -⟩ := write_ok_iff.mp hw
      exact ⟨⟨idx, hidx⟩, tagsJson, metadataJson, vec, hc⟩
    · rintro ⟨⟨idx, hidx⟩, tagsJson, metadataJson, vec, hc⟩
      exact ⟨_, idx, hidx, write_ok_iff.mpr ⟨tagsJson, metadataJson, vec, hc, rfl⟩⟩

-- ---------------------------------------------------------------------------
-- A read that shows a stale entry
-- ---------------------------------------------------------------------------

def favour (rowid : Nat) : Engine := .ranked fun r _ => if r = rowid then 0 else 1

def firstHit : ReadArgs := { query := "q", top := 1, vectorWeight := 0 }

theorem favour_best (h : m ∈ (favour s).fts entries query) (hs : s ∈ entries.map Prod.fst)
    (hmin : ∀ m' ∈ (favour s).fts entries query, m.2 ≤ m'.2) : m.1 = s := by
  obtain ⟨e, he, rfl⟩ := List.mem_map.mp h
  obtain ⟨e', he', rfl⟩ := List.mem_map.mp hs
  have hle := hmin _ (List.mem_map_of_mem he')
  by_contra hne
  simp only at hne
  norm_num [hne] at hle

/-- Such a read tries one entry, the favourite if it is there. -/
theorem read_favour (dt : Datetimes τ) (embedder : Embedder) (hn : (idx.conceptsFts.map Prod.fst).Nodup)
    (he : idx.conceptsFts ≠ []) (s : Nat) :
    ∃ rowid score best, rowid ∈ idx.conceptsFts.map Prod.fst ∧
      (s ∈ idx.conceptsFts.map Prod.fst → rowid = s) ∧
      idx.read dt (favour s) embedder firstHit = collectHits dt idx best [(rowid, score)] := by
  have hlawful : (favour s).Lawful := Engine.ranked_lawful _
  have hfound : (favour s).fts idx.conceptsFts (quoteFts "q") ≠ [] := by
    simpa [favour, Engine.ranked] using he
  obtain ⟨m, rest, hc, hm, hmin⟩ := ftsCandidates_head 29 hfound
  have hnodup : ((m :: rest).map Prod.fst).Nodup := hc ▸ ftsCandidates_nodup hlawful hn
  have hentries := entries_fuse_empty (ftsShare 0) hnodup
  have htop := topIds_fuse_fts 1 zero_le_one hnodup
  refine ⟨m.1, ftsShare 0 0 m.2, maxRrf (fuse (ftsShare 0) (m :: rest) Dict.empty), hlawful.fts_mem _ _ m hm,
    fun hs => favour_best hm hs hmin, ?_⟩
  simp [read, hybrid, firstHit, hc, hentries, htop]

theorem collectHits_ne_nil (h : idx.concepts.find? (fun r => r.rowid = rowid) = some row) :
    view (collectHits dt idx best [(rowid, score)]) ≠ .ok [] := by
  simp only [collectHits, h]
  cases rowToConcept dt row with
  | none => simp [view, Except.map]
  | some c => simp [view, Except.map]

/-- The hits of every read, by every lawful engine, are those of the fresh
index of the last versions exactly when no concept was written twice. -/
theorem history_independent_iff (dt : Datetimes τ) (embedder : Embedder) (writes : List (OKFConcept τ))
    (idx : Index) (h : writeAll dt embedder writes = .ok idx) :
    ∃ fresh, writeAll dt embedder (lastVersions writes) = .ok fresh ∧
      ((∀ engine : Engine, engine.Lawful → ∀ args,
          view (idx.read dt engine embedder args) = view (fresh.read dt engine embedder args)) ↔
        (writes.map OKFConcept.conceptId).Nodup) := by
  obtain ⟨fresh, hfresh⟩ : ∃ fresh, writeAll dt embedder (lastVersions writes) = .ok fresh :=
    writeAll_isOk.mpr fun c hc => writeAll_isOk.mp ⟨idx, h⟩ c ((lastVersions_sublist writes).subset hc)
  refine ⟨fresh, hfresh, fun hsame => ?_, fun hn engine _ args => ?_⟩
  · by_contra hn
    obtain ⟨s, hs, hgone⟩ := (stale_iff h).mpr hn
    have hwrites : writes ≠ [] := by rintro rfl; exact hn List.nodup_nil
    have hold := numbered_writeAll h
    have hnew := numbered_writeAll hfresh
    -- the rewritten index tries the stale entry and has no hit
    obtain ⟨rowid, score, best, -, hfav, hread⟩ := read_favour dt embedder hold.nodup_entries
      (hold.entries_ne_nil (List.length_pos_of_ne_nil hwrites)) s
    obtain rfl := hfav hs
    have hgone : idx.concepts.find? (fun r => r.rowid = rowid) = none := by simpa using hgone
    -- the fresh one tries an entry that has its row
    obtain ⟨rowid', score', best', hs', -, hread'⟩ := read_favour dt embedder hnew.nodup_entries
      (hnew.entries_ne_nil (List.length_pos_of_ne_nil (lastVersions_ne_nil hwrites))) rowid
    obtain ⟨row, hrow, hrowid⟩ : ∃ row ∈ fresh.concepts, row.rowid = rowid' := by
      by_contra hno
      refine (stale_iff hfresh).mp ⟨rowid', hs', ?_⟩ (nodup_lastVersions writes)
      intro row hrow hrowid
      exact hno ⟨row, hrow, hrowid⟩
    obtain ⟨row', hrow'⟩ : ∃ row', fresh.concepts.find? (fun r => r.rowid = rowid') = some row' := by
      rw [← Option.isSome_iff_exists, List.find?_isSome]
      exact ⟨row, hrow, decide_eq_true hrowid⟩
    have hview := hsame (favour rowid) (Engine.ranked_lawful _) firstHit
    rw [hread, hread'] at hview
    refine collectHits_ne_nil hrow' (hview.symm.trans ?_)
    simp [collectHits, hgone, view, Except.map]
  · rw [lastVersions_eq_self hn, h, Except.ok.injEq] at hfresh
    rw [hfresh]

def document (conceptId body : String) : OKFConcept String where
  conceptId := conceptId
  frontmatter := { type := "doc", stripped := strip_doc }
  body := body

def writtenOnce : List (OKFConcept String) := [document "a" "alpha", document "b" "alpha beta"]

theorem history_independent_once : ∃ idx fresh, writeAll isoTexts .unit writtenOnce = .ok idx ∧
    writeAll isoTexts .unit (lastVersions writtenOnce) = .ok fresh ∧
    ∀ engine : Engine, engine.Lawful → ∀ args,
      view (idx.read isoTexts engine .unit args) = view (fresh.read isoTexts engine .unit args) := by
  obtain ⟨idx, hidx⟩ : ∃ idx, writeAll isoTexts .unit writtenOnce = .ok idx := ⟨_, rfl⟩
  obtain ⟨fresh, hfresh, hiff⟩ := history_independent_iff isoTexts .unit writtenOnce idx hidx
  exact ⟨idx, fresh, hidx, hfresh, hiff.mpr (by decide)⟩

def writtenTwice : List (OKFConcept String) := [document "a" "alpha", document "a" "alpha beta"]

/-- The entry of the first version takes the only place, so the concept is
not found; a fresh index of the second version finds it. -/
theorem rewritten_not_found : Engine.byLength.Lawful ∧
    ∃ idx fresh, writeAll isoTexts .unit writtenTwice = .ok idx ∧
      writeAll isoTexts .unit (lastVersions writtenTwice) = .ok fresh ∧
      view (idx.read isoTexts .byLength .unit { query := "alpha", top := 1 }) = .ok [] ∧
      view (fresh.read isoTexts .byLength .unit { query := "alpha", top := 1 }) = .ok [("a", 1)] :=
  ⟨Engine.ranked_lawful _, _, _, rfl, rfl, by with_unfolding_all rfl, by with_unfolding_all rfl⟩

end

end Index

end Intelliqx.Okf
