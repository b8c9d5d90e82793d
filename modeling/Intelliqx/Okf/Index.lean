import Mathlib.Algebra.Order.Field.Rat
import Mathlib.Data.List.Sort
import Intelliqx.Okf.Frontmatter

/-!
# The OKF index

The tables behind `Index` and its `write` and `read`. The two search
extensions of SQLite are a parameter: what they answer depends on the entries
of their tables and on the query. Scores are exact rationals.
-/

namespace Intelliqx.Okf

open Py

abbrev Vector := List ℚ

structure Embedder where
  dim : Nat
  embed : String → Except PyException Vector

def Embedder.unit : Embedder := ⟨1, fun _ => .ok [1]⟩

structure ConceptRow where
  conceptId : String
  rowid : Nat
  type : String
  title : Option String
  description : Option String
  body : String
  tagsJson : Json
  metadataJson : Json
  timestamp : Option String

structure FtsEntry where
  title : Option String
  description : Option String
  body : String

/-- FTS5 and vec0. `fts` lists the entries that match with their `bm25`, in
the order of the scan; `knn` the `k` nearest entries with their distances. -/
structure Engine where
  fts : List (Nat × FtsEntry) → String → List (Nat × ℚ)
  knn : List (Nat × Vector) → Vector → Nat → List (Nat × Option ℚ)

structure Engine.Lawful (engine : Engine) : Prop where
  fts_mem : ∀ entries query, ∀ m ∈ engine.fts entries query, m.1 ∈ entries.map Prod.fst
  fts_nodup : ∀ entries query, (entries.map Prod.fst).Nodup → ((engine.fts entries query).map Prod.fst).Nodup
  knn_mem : ∀ entries v k, ∀ m ∈ engine.knn entries v k, m.1 ∈ entries.map Prod.fst
  knn_nodup : ∀ entries v k, (entries.map Prod.fst).Nodup → ((engine.knn entries v k).map Prod.fst).Nodup
  knn_length : ∀ entries v k, (engine.knn entries v k).length = min k entries.length

def Engine.ranked (score : Nat → FtsEntry → ℚ) : Engine where
  fts entries _ := entries.map fun e => (e.1, score e.1 e.2)
  knn entries _ k := (entries.take k).map fun e => (e.1, some 0)

theorem Engine.ranked_lawful (score : Nat → FtsEntry → ℚ) : (Engine.ranked score).Lawful where
  fts_mem entries _ m hm := by
    obtain ⟨e, he, rfl⟩ := List.mem_map.mp hm
    exact List.mem_map_of_mem he
  fts_nodup entries _ hn := by simpa [ranked, Function.comp_def] using hn
  knn_mem entries _ k m hm := by
    obtain ⟨e, he, rfl⟩ := List.mem_map.mp hm
    exact List.mem_map_of_mem (List.mem_of_mem_take he)
  knn_nodup entries _ k hn := by
    have hm : ((entries.take k).map fun e => e.1) = (entries.map Prod.fst).take k := List.map_take
    simpa [ranked, Function.comp_def, hm] using hn.sublist (List.take_sublist k _)
  knn_length entries _ k := by simp [ranked]

def Engine.byLength : Engine := .ranked fun _ e => e.body.length

structure Index where
  concepts : List ConceptRow
  conceptsFts : List (Nat × FtsEntry)
  conceptsVec : List (Nat × Vector)
  primaryKey : (concepts.map ConceptRow.conceptId).Nodup

namespace Index

def empty : Index := ⟨[], [], [], List.nodup_nil⟩

-- ---------------------------------------------------------------------------
-- Writing
-- ---------------------------------------------------------------------------

/-- `SELECT COALESCE(MAX(rowid), 0) + 1`. The row number that SQLite itself
gives the new row, `lastrowid`, is the same one: it too is taken before the
conflicting row is deleted. -/
def nextId (idx : Index) : Nat := (idx.concepts.map ConceptRow.rowid).foldr max 0 + 1

/-- `INSERT OR REPLACE`. The insert trigger mirrors the new row; the row that
is replaced goes without its delete trigger. -/
def insertOrReplace (idx : Index) (row : ConceptRow) : Index where
  concepts := idx.concepts.filter (fun r => r.conceptId ≠ row.conceptId) ++ [row]
  conceptsFts := idx.conceptsFts ++ [(row.rowid, ⟨row.title, row.description, row.body⟩)]
  conceptsVec := idx.conceptsVec
  primaryKey := by
    rw [List.map_append]
    refine (idx.primaryKey.sublist (List.filter_sublist.map _)).append (by simp) ?_
    simp

def putVector (idx : Index) (rowid : Nat) (vec : Option Vector) : Index :=
  { idx with
    conceptsVec := idx.conceptsVec.filter (fun e => e.1 ≠ rowid) ++ (vec.map fun v => (rowid, v)).toList }

/-- The text to embed: the parts that are not empty. -/
def embeddedText (c : OKFConcept τ) : String :=
  strip (" ".intercalate
    ([c.frontmatter.title.getD "", c.frontmatter.description.getD "", c.body].filter (· ≠ "")))

def embedding (embedder : Embedder) (text : String) : Except PyException (Option Vector) :=
  if text = "" then .ok none
  else do
    let vec ← embedder.embed text
    if vec.length ≠ embedder.dim then
      .error ⟨"ValueError", s!"Embedding dim mismatch: expected {embedder.dim}, got {vec.length}"⟩
    else .ok (some vec)

def conceptRow (dt : Datetimes τ) (c : OKFConcept τ) (rowid : Nat) (tagsJson metadataJson : Json) :
    ConceptRow where
  conceptId := c.conceptId
  rowid := rowid
  type := c.frontmatter.type
  title := c.frontmatter.title
  description := c.frontmatter.description
  body := c.body
  tagsJson := tagsJson
  metadataJson := metadataJson
  timestamp := c.frontmatter.timestamp.map dt.isoformat

def write (dt : Datetimes τ) (embedder : Embedder) (idx : Index) (c : OKFConcept τ) :
    Except PyException Index := do
  let tagsJson ← jsonDumps (.list (c.frontmatter.tags.map .str))
  let metadataJson ← jsonDumps c.frontmatter.extraFields.toPy
  let vec ← embedding embedder (embeddedText c)
  let rowid := idx.nextId
  .ok ((idx.insertOrReplace (conceptRow dt c rowid tagsJson metadataJson)).putVector rowid vec)

-- ---------------------------------------------------------------------------
-- Candidates
-- ---------------------------------------------------------------------------

/-- `EXISTS (SELECT 1 FROM json_each(tags_json) WHERE value = ?)`. -/
def hasTag (tag : String) : Json → Bool
  | .arr items => items.any fun
    | .str s => s == tag
    | _ => false
  | _ => false

def passes (typeFilter tagFilter : Option String) (r : ConceptRow) : Bool :=
  typeFilter.all (r.type == ·) && tagFilter.all (hasTag · r.tagsJson)

def rowExists (idx : Index) (p : ConceptRow → Bool) (rowid : Nat) : Bool :=
  idx.concepts.any fun r => r.rowid == rowid && p r

/-- `_quote_fts`: each word as a phrase. -/
def quoteFts (query : String) : String :=
  match splitWords query with
  | [] => "\"\""
  | tokens => " ".intercalate
      (tokens.map fun tok => "\"" ++ String.ofList (tok.toList.filter (· ≠ '"')) ++ "\"")

/-- `ORDER BY score ASC LIMIT ?`. Without a filter the query does not look at
`concepts` at all. -/
def ftsCandidates (engine : Engine) (idx : Index) (query : String)
    (typeFilter tagFilter : Option String) (limit : Nat) : List (Nat × ℚ) :=
  let found := (engine.fts idx.conceptsFts (quoteFts query)).filter fun m =>
    typeFilter.all (fun t => idx.rowExists (passes (some t) none) m.1) &&
      tagFilter.all (fun t => idx.rowExists (passes none (some t)) m.1)
  (found.insertionSort fun a b => a.2 ≤ b.2).take limit

/-- The nearest `limit` vectors, and of these the ones whose row is there. -/
def vectorCandidates (engine : Engine) (embedder : Embedder) (idx : Index) (queryEmbedding : Vector)
    (typeFilter tagFilter : Option String) (limit : Nat) : Except PyException (List (Nat × ℚ)) :=
  if queryEmbedding.length ≠ embedder.dim then
    .error ⟨"ValueError",
      s!"Embedding dim mismatch: expected {embedder.dim}, got {queryEmbedding.length}"⟩
  else
    .ok (((engine.knn idx.conceptsVec queryEmbedding limit).filter fun m =>
      idx.rowExists (passes typeFilter tagFilter) m.1).filterMap fun m => m.2.map fun d => (m.1, d))

-- ---------------------------------------------------------------------------
-- Reading
-- ---------------------------------------------------------------------------

structure Hit (τ : Type) where
  concept : OKFConcept τ
  score : ℚ

structure ReadArgs where
  query : String
  top : Int := 10
  type : Option String := none
  tag : Option String := none
  queryEmbedding : Option Vector := none
  vectorWeight : ℚ := 1 / 2

def fuse (share : Nat → ℚ → ℚ) (candidates : List (Nat × ℚ)) (rrf : Dict Nat ℚ) : Dict Nat ℚ :=
  candidates.zipIdx.foldl (fun rrf c => rrf.insert c.1.1 ((rrf.get? c.1.1).getD 0 + share c.2 c.1.2)) rrf

def ftsShare (vectorWeight : ℚ) (rank : Nat) (_bm25 : ℚ) : ℚ := (1 - vectorWeight) / (60 + rank + 1)

def vectorShare (vectorWeight : ℚ) (rank : Nat) (distance : ℚ) : ℚ :=
  vectorWeight * max 0 (min 1 (1 - distance)) / (60 + rank + 1)

def columns (row : ConceptRow) : List (String × PyValue) :=
  [("type", .str row.type), ("title", row.title.elim .none .str),
    ("description", row.description.elim .none .str), ("tags", jsonLoads row.tagsJson),
    ("timestamp", row.timestamp.elim .none .str)]

/-- `_row_to_concept_payload` and the validation of its result; the extras are
merged over the columns. `none` where validation raises. -/
def rowToConcept (dt : Datetimes τ) (row : ConceptRow) : Option (OKFConcept τ) :=
  match jsonLoads row.metadataJson with
  | .dict extras => do
    let extras ← extras.mapM textEntry
    let frontmatter ← OKFFrontmatter.modelValidate dt (Dict.ofList (columns row ++ extras))
    some ⟨row.conceptId, frontmatter, row.body⟩
  | _ => none

/-- The rowids with the highest scores; of equal ones the first found first. -/
def topIds (rrf : Dict Nat ℚ) (top : Nat) : List (Nat × ℚ) :=
  (rrf.entries.insertionSort fun a b => b.2 ≤ a.2).take top

/-- `max(rrf.values()) or 1.0`. -/
def maxRrf (rrf : Dict Nat ℚ) : ℚ :=
  match rrf.values with
  | [] => 1
  | s :: rest => let m := rest.foldl max s; if m = 0 then 1 else m

/-- The hits of the best rowids; one without a row is passed over. -/
def collectHits (dt : Datetimes τ) (idx : Index) (maxRrf : ℚ) :
    List (Nat × ℚ) → Except PyException (List (Hit τ))
  | [] => .ok []
  | (rowid, score) :: rest =>
    match idx.concepts.find? fun r => r.rowid = rowid with
    | none => collectHits dt idx maxRrf rest
    | some row =>
      match rowToConcept dt row with
      | none => .error ⟨"ValidationError", "OKFFrontmatter"⟩
      | some concept => do
        let hits ← collectHits dt idx maxRrf rest
        .ok (⟨concept, score / maxRrf⟩ :: hits)

def hybrid (dt : Datetimes τ) (engine : Engine) (embedder : Embedder) (idx : Index) (args : ReadArgs) :
    Except PyException (List (Hit τ)) := do
  let limit := (max (args.top * 4) 30).toNat
  let rrf :=
    if args.query = "" then Dict.empty
    else fuse (ftsShare args.vectorWeight)
      (idx.ftsCandidates engine args.query args.type args.tag limit) Dict.empty
  let rrf ← match args.queryEmbedding with
    | none => .ok rrf
    | some v => do
      let rows ← idx.vectorCandidates engine embedder v args.type args.tag limit
      .ok (fuse (vectorShare args.vectorWeight) rows rrf)
  if rrf.entries.isEmpty then .ok []
  else collectHits dt idx (maxRrf rrf) (topIds rrf args.top.toNat)

def read (dt : Datetimes τ) (engine : Engine) (embedder : Embedder) (idx : Index) (args : ReadArgs) :
    Except PyException (List (Hit τ)) :=
  if args.top < 1 then .error ⟨"ValueError", s!"top must be >= 1, got {args.top}"⟩
  else if ¬ (0 ≤ args.vectorWeight ∧ args.vectorWeight ≤ 1) then
    .error ⟨"ValueError", s!"vector_weight must be in [0, 1], got {args.vectorWeight}"⟩
  else idx.hybrid dt engine embedder args

-- ---------------------------------------------------------------------------
-- What a write and a read do
-- ---------------------------------------------------------------------------

section
variable {dt : Datetimes τ} {embedder : Embedder} {engine : Engine} {idx idx' : Index} {c c' : OKFConcept τ}

structure Written (dt : Datetimes τ) (embedder : Embedder) (c : OKFConcept τ)
    (tagsJson metadataJson : Json) (vec : Option Vector) : Prop where
  tags : jsonDumps (.list (c.frontmatter.tags.map .str)) = .ok tagsJson
  metadata : jsonDumps c.frontmatter.extraFields.toPy = .ok metadataJson
  vector : embedding embedder (embeddedText c) = .ok vec

theorem write_ok_iff : idx.write dt embedder c = .ok idx' ↔
    ∃ tagsJson metadataJson vec, Written dt embedder c tagsJson metadataJson vec ∧
      idx' = (idx.insertOrReplace (conceptRow dt c idx.nextId tagsJson metadataJson)).putVector
        idx.nextId vec := by
  unfold write
  constructor
  · intro h
    cases ht : jsonDumps (.list (c.frontmatter.tags.map .str)) with
    | error e => simp [ht] at h
    | ok tagsJson =>
      cases hm : jsonDumps c.frontmatter.extraFields.toPy with
      | error e => simp [ht, hm] at h
      | ok metadataJson =>
        cases hv : embedding embedder (embeddedText c) with
        | error e => simp [ht, hm, hv] at h
        | ok vec =>
          simp only [ht, hm, hv, bind_ok_eq, Except.ok.injEq] at h
          exact ⟨tagsJson, metadataJson, vec, ⟨ht, hm, hv⟩, h.symm⟩
  · rintro ⟨tagsJson, metadataJson, vec, ⟨ht, hm, hv⟩, rfl⟩
    simp [ht, hm, hv]

theorem write_tables (h : idx.write dt embedder c = .ok idx') : ∃ tagsJson metadataJson vec,
    Written dt embedder c tagsJson metadataJson vec ∧
      idx'.concepts = idx.concepts.filter (fun r => r.conceptId ≠ c.conceptId) ++
        [conceptRow dt c idx.nextId tagsJson metadataJson] ∧
      idx'.conceptsFts.map Prod.fst = idx.conceptsFts.map Prod.fst ++ [idx.nextId] := by
  obtain ⟨tagsJson, metadataJson, vec, hw, rfl⟩ := write_ok_iff.mp h
  exact ⟨tagsJson, metadataJson, vec, hw, rfl, by simp [putVector, insertOrReplace, conceptRow]⟩

theorem mem_concepts_write (h : idx.write dt embedder c = .ok idx') (hrow : row ∈ idx'.concepts) :
    (row ∈ idx.concepts ∧ row.conceptId ≠ c.conceptId) ∨ ∃ tagsJson metadataJson vec,
      Written dt embedder c tagsJson metadataJson vec ∧
        row = conceptRow dt c idx.nextId tagsJson metadataJson := by
  obtain ⟨tagsJson, metadataJson, vec, hw, hconcepts, -⟩ := write_tables h
  rw [hconcepts, List.mem_append, List.mem_filter, List.mem_singleton] at hrow
  rcases hrow with ⟨hrow, hne⟩ | rfl
  · exact .inl ⟨hrow, of_decide_eq_true hne⟩
  · exact .inr ⟨tagsJson, metadataJson, vec, hw, rfl⟩

theorem conceptId_rowToConcept (h : rowToConcept dt row = some c) : c.conceptId = row.conceptId := by
  unfold rowToConcept at h
  split at h
  · simp only [Option.bind_eq_bind, Option.bind_eq_some_iff] at h
    obtain ⟨_, _, _, _, h⟩ := h
    cases h
    rfl
  · cases h

/-- The hit of a rowid: its row, and its share of the best score. -/
structure Picked (dt : Datetimes τ) (idx : Index) (best : ℚ) (entry : Nat × ℚ) (hit : Hit τ) : Prop where
  row : ∃ row ∈ idx.concepts, row.rowid = entry.1 ∧ rowToConcept dt row = some hit.concept
  score : hit.score = entry.2 / best

theorem collectHits_picked {scores : List (Nat × ℚ)} {hits : List (Hit τ)}
    (h : collectHits dt idx best scores = .ok hits) :
    ∃ picked, picked.Sublist scores ∧ List.Forall₂ (Picked dt idx best) picked hits := by
  induction scores generalizing hits with
  | nil => cases h; exact ⟨[], .slnil, .nil⟩
  | cons entry scores ih =>
    simp only [collectHits] at h
    split at h
    · obtain ⟨picked, hsub, hpicked⟩ := ih h
      exact ⟨picked, hsub.cons entry, hpicked⟩
    · rename_i row hrow
      split at h
      · cases h
      · rename_i c hc
        cases hrest : collectHits dt idx best scores with
        | error e => simp [hrest] at h
        | ok rest =>
          simp only [hrest, bind_ok_eq, Except.ok.injEq] at h
          subst h
          obtain ⟨picked, hsub, hpicked⟩ := ih hrest
          have hrowid : row.rowid = entry.1 := by simpa using List.find?_some hrow
          exact ⟨entry :: picked, hsub.cons_cons entry,
            .cons ⟨⟨row, List.mem_of_find?_eq_some hrow, hrowid, hc⟩, rfl⟩ hpicked⟩

theorem mem_collectHits {scores : List (Nat × ℚ)} {hits : List (Hit τ)}
    (h : collectHits dt idx best scores = .ok hits) (hh : hit ∈ hits) :
    ∃ row ∈ idx.concepts, rowToConcept dt row = some hit.concept := by
  obtain ⟨picked, -, hpicked⟩ := collectHits_picked h
  obtain ⟨i, hi, rfl⟩ := List.mem_iff_getElem.mp hh
  obtain ⟨row, hrow, -, hc⟩ := (hpicked.get (hpicked.length_eq ▸ hi) hi).row
  exact ⟨row, hrow, hc⟩

theorem exists_hit (dt : Datetimes τ) (engine : Engine) (embedder : Embedder) (idx : Index)
    (c : OKFConcept τ) (args : ReadArgs) (f : Hit τ → β) (v : β)
    (h : ((idx.write dt embedder c).bind fun idx => idx.read dt engine embedder args).map (List.map f) =
      .ok [v]) :
    ∃ idx' hits hit, idx.write dt embedder c = .ok idx' ∧
      idx'.read dt engine embedder args = .ok hits ∧ hit ∈ hits ∧ f hit = v := by
  cases hw : idx.write dt embedder c with
  | error e => simp [hw, Except.bind, Except.map] at h
  | ok idx' =>
    cases hr : idx'.read dt engine embedder args with
    | error e => simp [hw, hr, Except.bind, Except.map] at h
    | ok hits =>
      simp only [hw, hr, Except.bind, Except.map, Except.ok.injEq] at h
      obtain ⟨hit, rest, rfl, hv, -⟩ := List.map_eq_cons_iff.mp h
      exact ⟨idx', _, hit, rfl, hr, .head _, hv⟩

/-- What a read went through to give these hits. -/
theorem read_ok {args : ReadArgs} {hits : List (Hit τ)} (h : idx.read dt engine embedder args = .ok hits) :
    1 ≤ args.top ∧ (0 ≤ args.vectorWeight ∧ args.vectorWeight ≤ 1) ∧ ∃ limit rrf rrf',
      (rrf = Dict.empty ∨ rrf = fuse (ftsShare args.vectorWeight)
        (idx.ftsCandidates engine args.query args.type args.tag limit) Dict.empty) ∧
      (rrf' = rrf ∨ ∃ v rows, idx.vectorCandidates engine embedder v args.type args.tag limit = .ok rows ∧
        rrf' = fuse (vectorShare args.vectorWeight) rows rrf) ∧
      (hits = [] ∨ collectHits dt idx (maxRrf rrf') (topIds rrf' args.top.toNat) = .ok hits) := by
  unfold read at h
  split at h
  · cases h
  · rename_i htop
    split at h
    · cases h
    · rename_i hweight
      refine ⟨not_lt.mp htop, not_not.mp hweight, (max (args.top * 4) 30).toNat, ?_⟩
      unfold hybrid at h
      simp only at h
      generalize hrrf : (if args.query = "" then Dict.empty else _ : Dict Nat ℚ) = rrf at h
      have hfts : rrf = Dict.empty ∨ rrf = fuse (ftsShare args.vectorWeight)
          (idx.ftsCandidates engine args.query args.type args.tag (max (args.top * 4) 30).toNat) Dict.empty := by
        split at hrrf
        · exact .inl hrrf.symm
        · exact .inr hrrf.symm
      cases hq : args.queryEmbedding with
      | none =>
        simp only [hq, bind_ok_eq] at h
        refine ⟨rrf, rrf, hfts, .inl rfl, ?_⟩
        split at h
        · cases h; exact .inl rfl
        · exact .inr h
      | some v =>
        simp only [hq] at h
        cases hv : idx.vectorCandidates engine embedder v args.type args.tag
            (max (args.top * 4) 30).toNat with
        | error e => simp [hv] at h
        | ok rows =>
          simp only [hv, bind_ok_eq] at h
          refine ⟨rrf, _, hfts, .inr ⟨v, rows, hv, rfl⟩, ?_⟩
          split at h
          · cases h; exact .inl rfl
          · exact .inr h

theorem mem_read {args : ReadArgs} {hits : List (Hit τ)} (h : idx.read dt engine embedder args = .ok hits)
    (hh : hit ∈ hits) : ∃ row ∈ idx.concepts, rowToConcept dt row = some hit.concept := by
  obtain ⟨-, -, limit, rrf, rrf', -, -, rfl | hcollect⟩ := read_ok h
  · cases hh
  · exact mem_collectHits hcollect hh

end

end Index

end Intelliqx.Okf
