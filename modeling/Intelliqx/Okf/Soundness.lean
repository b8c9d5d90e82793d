import Intelliqx.Base.FirstBy
import Intelliqx.Okf.Hits
import Intelliqx.Okf.History
import Intelliqx.Okf.RoundTrip

/-!
# Hits and last writes

A hit is read from the row of the last write of its concept, but the stored
extra fields are merged over the columns of that row. So hits are sound exactly
when no extra field of a last write stands for a column with another value
(`reads_sound_iff`).
-/

namespace Intelliqx.Okf

open Py

/-- The fields a hit owes to the last write of its concept. -/
structure Carries (c c' : OKFConcept τ) : Prop where
  type : c'.frontmatter.type = c.frontmatter.type
  title : c'.frontmatter.title = c.frontmatter.title
  description : c'.frontmatter.description = c.frontmatter.description
  tags : c'.frontmatter.tags = c.frontmatter.tags
  body : c'.body = c.body

structure Sound (versions : List (OKFConcept τ)) (args : Index.ReadArgs) (hits : List (Index.Hit τ)) : Prop where
  carries : ∀ hit ∈ hits, ∃ c ∈ versions, c.conceptId = hit.concept.conceptId ∧ Carries c hit.concept
  typed : ∀ hit ∈ hits, ∀ t, args.type = some t → hit.concept.frontmatter.type = t
  tagged : ∀ hit ∈ hits, ∀ t, args.tag = some t → t ∈ hit.concept.frontmatter.tags
  distinct : (hits.map fun hit => hit.concept.conceptId).Nodup
  few : (hits.length : Int) ≤ args.top
  scored : ∀ hit ∈ hits, 0 ≤ hit.score ∧ hit.score ≤ 1
  ordered : hits.Pairwise fun a b => b.score ≤ a.score

-- ---------------------------------------------------------------------------
-- Extra fields
-- ---------------------------------------------------------------------------

/-- The extra fields as they come back from `metadata_json`. -/
def storedExtras (extraFields : Attrs) : Option (List (String × PyValue)) :=
  match jsonDumps extraFields.toPy with
  | .ok json =>
    match jsonLoads json with
    | .dict extras => extras.mapM textEntry
    | _ => none
  | .error _ => none

/-- The columns of the concept, with the extras merged over them. -/
def payload (dt : Datetimes τ) (c : OKFConcept τ) (extras : List (String × PyValue)) : Attrs :=
  Dict.ofList ([("type", .str c.frontmatter.type), ("title", c.frontmatter.title.elim .none .str),
    ("description", c.frontmatter.description.elim .none .str), ("tags", .list (c.frontmatter.tags.map .str)),
    ("timestamp", (c.frontmatter.timestamp.map dt.isoformat).elim .none .str)] ++ extras)

/-- An extra field that is called like a column is read as the column's value. -/
structure Harmless (c : OKFConcept τ) (extras : List (String × PyValue)) : Prop where
  type : ∀ v, (Dict.ofList extras).get? "type" = some v →
    (validateType (some v)).map Subtype.val = some c.frontmatter.type
  title : ∀ v, (Dict.ofList extras).get? "title" = some v → validateOptStr (some v) = some c.frontmatter.title
  description : ∀ v, (Dict.ofList extras).get? "description" = some v →
    validateOptStr (some v) = some c.frontmatter.description
  tags : ∀ v, (Dict.ofList extras).get? "tags" = some v → validateTags (some v) = some c.frontmatter.tags

/-- The extras pass validation, so the concept can be a hit, only if they are harmless. -/
def Unspoiled (dt : Datetimes τ) (c : OKFConcept τ) : Prop :=
  ∀ extras, storedExtras c.frontmatter.extraFields = some extras →
    (OKFFrontmatter.modelValidate dt (payload dt c extras)).isSome → Harmless c extras

section
variable {dt : Datetimes τ} {embedder : Embedder} {engine : Engine} {idx idx' : Index}
  {c c' : OKFConcept τ} {writes : List (OKFConcept τ)} {extras es : List (String × PyValue)}

theorem get?_merged : (Dict.ofList (es ++ extras)).get? k =
    ((Dict.ofList extras).get? k).or ((Dict.ofList es).get? k) := by
  have hlast : (Dict.ofList extras).get? k =
      ((extras.filter fun e => e.1 = k).getLast?).map Prod.snd := Dict.get?_index
  rw [hlast, Dict.ofList, List.foldl_append]
  exact Dict.get?_foldl_insert

theorem get?_payload : (payload dt c extras).get? k = ((Dict.ofList extras).get? k).or
    ((Dict.ofList [("type", .str c.frontmatter.type), ("title", c.frontmatter.title.elim .none .str),
      ("description", c.frontmatter.description.elim .none .str),
      ("tags", .list (c.frontmatter.tags.map .str)),
      ("timestamp", (c.frontmatter.timestamp.map dt.isoformat).elim .none .str)]).get? k) := get?_merged

theorem dumps_tags (ss : List String) : jsonDumps (.list (ss.map .str)) = .ok (.arr (ss.map .str)) := by
  have hitems : dumpsItems (ss.map .str) = .ok (ss.map .str) := by
    induction ss with
    | nil => rfl
    | cons s ss ih => simp [dumpsItems, jsonDumps, ih]
  simp [jsonDumps, hitems]

theorem hasTag_tags : Index.hasTag t (.arr (c.frontmatter.tags.map .str)) ↔ t ∈ c.frontmatter.tags := by
  simp [Index.hasTag, List.any_map, Function.comp_def]

/-- What comes back of a row: the stored fields, if they validate. -/
theorem rowToConcept_row (htags : jsonDumps (.list (c.frontmatter.tags.map .str)) = .ok tagsJson)
    (hmetadata : jsonDumps c.frontmatter.extraFields.toPy = .ok metadataJson) :
    Index.rowToConcept dt (Index.conceptRow dt c rowid tagsJson metadataJson) =
      (storedExtras c.frontmatter.extraFields).bind fun extras =>
        (OKFFrontmatter.modelValidate dt (payload dt c extras)).map fun fm => ⟨c.conceptId, fm, c.body⟩ := by
  obtain ⟨j, hj, hloads⟩ := jsonLoads_jsonDumps _ (tags_representable c.frontmatter.tags)
  cases htags.symm.trans hj
  simp only [Index.rowToConcept, storedExtras, hmetadata, Index.conceptRow]
  cases jsonLoads metadataJson <;> try rfl
  rename_i entries
  simp only [Option.bind_eq_bind]
  cases entries.mapM textEntry with
  | none => rfl
  | some extras =>
    simp only [Option.bind_some, payload, Index.columns, hloads]
    exact Option.map_eq_bind.symm

/-- The entry of an extra field, if there is one, goes before the column. -/
theorem merged_iff {V : Option PyValue → Option β} {x : Option PyValue} {column : PyValue} {own r : β}
    (hcolumn : ∀ r, V (some column) = some r → r = own) (h : V (x.or (some column)) = some r) :
    (∀ v, x = some v → V (some v) = some own) ↔ r = own := by
  cases x with
  | none => exact ⟨fun _ => hcolumn r h, fun _ v hv => by cases hv⟩
  | some v =>
    constructor
    · intro hsame
      exact Option.some.inj (h.symm.trans (hsame v rfl))
    · rintro rfl v' hv'
      cases hv'
      exact h

theorem harmless_iff {fm : OKFFrontmatter τ}
    (h : OKFFrontmatter.modelValidate dt (payload dt c extras) = some fm) :
    Harmless c extras ↔ Carries c ⟨c.conceptId, fm, c.body⟩ := by
  have hfields := OKFFrontmatter.validated h
  have hcolumn : ∀ r, (validateType (some (.str c.frontmatter.type))).map Subtype.val = some r →
      r = c.frontmatter.type := by
    intro r hr
    obtain ⟨t, ht, rfl⟩ := Option.map_eq_some_iff.mp hr
    exact validateType_str ht c.frontmatter.stripped
  have hoptional : ∀ (s : Option String) r, validateOptStr (some (s.elim .none .str)) = some r → r = s := by
    intro s r hr
    rw [validateOptStr_elim] at hr
    exact (Option.some.inj hr).symm
  have hlist : ∀ r, validateTags (some (.list (c.frontmatter.tags.map .str))) = some r →
      r = c.frontmatter.tags := by
    intro r hr
    rw [validateTags_list] at hr
    exact (Option.some.inj hr).symm
  have htype_iff := merged_iff (V := fun v => (validateType v).map Subtype.val) hcolumn
    ((congrArg (fun v => (validateType v).map Subtype.val) get?_payload).symm.trans hfields.type)
  have htitle_iff := merged_iff (hoptional _) ((congrArg validateOptStr get?_payload).symm.trans hfields.title)
  have hdescription_iff := merged_iff (hoptional _)
    ((congrArg validateOptStr get?_payload).symm.trans hfields.description)
  have htags_iff := merged_iff hlist ((congrArg validateTags get?_payload).symm.trans hfields.tags)
  constructor
  · intro hx
    exact ⟨htype_iff.mp hx.type, htitle_iff.mp hx.title, hdescription_iff.mp hx.description,
      htags_iff.mp hx.tags, rfl⟩
  · intro hc
    exact ⟨htype_iff.mpr hc.type, htitle_iff.mpr hc.title, hdescription_iff.mpr hc.description,
      htags_iff.mpr hc.tags⟩

-- ---------------------------------------------------------------------------
-- The last writes
-- ---------------------------------------------------------------------------

/-- The write does not raise, which depends on the concept alone. -/
def succeeds (dt : Datetimes τ) (embedder : Embedder) (c : OKFConcept τ) : Bool :=
  (Index.empty.write dt embedder c).isOk

/-- The writes one after the other; one that raises leaves the index as it was. -/
def writeEach (dt : Datetimes τ) (embedder : Embedder) (writes : List (OKFConcept τ)) : Index :=
  writes.foldl (fun idx c => (idx.write dt embedder c).toOption.getD idx) .empty

/-- The last write of each concept. -/
def versions (dt : Datetimes τ) (embedder : Embedder) (writes : List (OKFConcept τ)) : List (OKFConcept τ) :=
  lastVersions (writes.filter (succeeds dt embedder))

theorem isOk_write (idx : Index) : (idx.write dt embedder c).isOk = succeeds dt embedder c := by
  have hiff : ∀ idx : Index, (idx.write dt embedder c).isOk ↔
      ∃ tagsJson metadataJson vec, Index.Written dt embedder c tagsJson metadataJson vec := by
    intro idx
    cases h : idx.write dt embedder c with
    | error e =>
      simp only [Except.isOk, Except.toBool, Bool.false_eq_true, false_iff]
      rintro ⟨tagsJson, metadataJson, vec, hw⟩
      cases h.symm.trans (Index.write_ok_iff.mpr ⟨tagsJson, metadataJson, vec, hw, rfl⟩)
    | ok idx' =>
      obtain ⟨tagsJson, metadataJson, vec, hw, -⟩ := Index.write_ok_iff.mp h
      exact ⟨fun _ => ⟨tagsJson, metadataJson, vec, hw⟩, fun _ => rfl⟩
  exact Bool.eq_iff_iff.mpr ((hiff idx).trans (hiff .empty).symm)

theorem writeAll_succeeding (dt : Datetimes τ) (embedder : Embedder) (writes : List (OKFConcept τ)) :
    Index.writeAll dt embedder (writes.filter (succeeds dt embedder)) = .ok (writeEach dt embedder writes) := by
  induction writes using List.reverseRecOn with
  | nil => rfl
  | append_singleton writes c ih =>
    have hstep : writeEach dt embedder (writes ++ [c]) =
        ((writeEach dt embedder writes).write dt embedder c).toOption.getD (writeEach dt embedder writes) := by
      simp [writeEach]
    have hok : ((writeEach dt embedder writes).write dt embedder c).isOk = succeeds dt embedder c :=
      isOk_write _
    rw [List.filter_append, hstep]
    cases hw : (writeEach dt embedder writes).write dt embedder c with
    | error e =>
      rw [hw] at hok
      rw [List.filter_cons_of_neg (by rw [← hok]; simp [Except.isOk, Except.toBool]), List.filter_nil,
        List.append_nil]
      exact ih
    | ok idx =>
      rw [hw] at hok
      rw [List.filter_cons_of_pos hok.symm, List.filter_nil]
      exact Index.writeAll_concat.mpr ⟨_, ih, hw⟩

theorem lastVersions_concat (writes : List (OKFConcept τ)) (c : OKFConcept τ) :
    lastVersions (writes ++ [c]) = (lastVersions writes).filter (·.conceptId ≠ c.conceptId) ++ [c] := by
  induction writes with
  | nil => rfl
  | cons d writes ih =>
    rw [List.cons_append, lastVersions, lastVersions, ih]
    by_cases hd : d.conceptId ∈ writes.map OKFConcept.conceptId
    · have hmem : d.conceptId ∈ (writes ++ [c]).map OKFConcept.conceptId := by simp_all
      rw [if_pos hmem, if_pos hd]
    · rw [if_neg hd]
      by_cases hc : d.conceptId = c.conceptId
      · have hmem : d.conceptId ∈ (writes ++ [c]).map OKFConcept.conceptId := by simp [hc]
        rw [if_pos hmem, List.filter_cons_of_neg (by simp [hc])]
      · have hmem : d.conceptId ∉ (writes ++ [c]).map OKFConcept.conceptId := by simp_all
        rw [if_neg hmem, List.filter_cons_of_pos (by simp [hc]), List.cons_append]

/-- Every row is one of a last version. -/
theorem row_of_lastVersions (h : Index.writeAll dt embedder writes = .ok idx) (hrow : row ∈ idx.concepts) :
    ∃ c ∈ lastVersions writes, ∃ rowid tagsJson metadataJson vec,
      Index.Written dt embedder c tagsJson metadataJson vec ∧
        row = Index.conceptRow dt c rowid tagsJson metadataJson := by
  induction writes using List.reverseRecOn generalizing idx with
  | nil => cases h; cases hrow
  | append_singleton writes c ih =>
    obtain ⟨idx₀, h₀, hw⟩ := Index.writeAll_concat.mp h
    rw [lastVersions_concat]
    rcases Index.mem_concepts_write hw hrow with ⟨hrow, hne⟩ | ⟨tagsJson, metadataJson, vec, hc, rfl⟩
    · obtain ⟨d, hd, rowid, tagsJson, metadataJson, vec, hwritten, rfl⟩ := ih h₀ hrow
      have hkept : d ∈ (lastVersions writes).filter (·.conceptId ≠ c.conceptId) :=
        List.mem_filter.mpr ⟨hd, decide_eq_true hne⟩
      exact ⟨d, List.mem_append_left _ hkept, rowid, tagsJson, metadataJson, vec, hwritten, rfl⟩
    · exact ⟨c, List.mem_append_right _ (List.mem_singleton_self c), _, tagsJson, metadataJson, vec, hc, rfl⟩

theorem eq_of_conceptId (hc : c ∈ lastVersions writes) (hc' : c' ∈ lastVersions writes)
    (hid : c'.conceptId = c.conceptId) : c' = c :=
  List.inj_on_of_nodup_map (Index.nodup_lastVersions writes) hc' hc hid

/-- Every last version has its row. -/
theorem exists_row (h : Index.writeAll dt embedder writes = .ok idx) (hc : c ∈ lastVersions writes) :
    ∃ rowid tagsJson metadataJson vec, Index.Written dt embedder c tagsJson metadataJson vec ∧
      Index.conceptRow dt c rowid tagsJson metadataJson ∈ idx.concepts := by
  have hid : c.conceptId ∈ idx.concepts.map ConceptRow.conceptId :=
    (Index.mem_conceptIds_writeAll h).mpr
      (((Index.lastVersions_sublist writes).map OKFConcept.conceptId).subset (List.mem_map_of_mem hc))
  obtain ⟨row, hrow, hrowid⟩ := List.mem_map.mp hid
  obtain ⟨d, hd, rowid, tagsJson, metadataJson, vec, hw, rfl⟩ := row_of_lastVersions h hrow
  obtain rfl := eq_of_conceptId hc hd hrowid
  exact ⟨rowid, tagsJson, metadataJson, vec, hw, hrow⟩

-- ---------------------------------------------------------------------------
-- Reads
-- ---------------------------------------------------------------------------

/-- What comes back of a last version's row carries that version, unless an
extra field spoils it. -/
theorem carries_of_row (h : Index.writeAll dt embedder writes = .ok idx)
    (hplain : ∀ c ∈ lastVersions writes, Unspoiled dt c) (hrow : row ∈ idx.concepts)
    (hc' : Index.rowToConcept dt row = some c') :
    ∃ c ∈ lastVersions writes, c.conceptId = c'.conceptId ∧ Carries c c' ∧ row.type = c.frontmatter.type ∧
      ∀ t, Index.hasTag t row.tagsJson → t ∈ c.frontmatter.tags := by
  obtain ⟨c, hc, rowid, tagsJson, metadataJson, vec, hw, rfl⟩ := row_of_lastVersions h hrow
  rw [rowToConcept_row hw.tags hw.metadata] at hc'
  obtain ⟨extras, hextras, hread⟩ := Option.bind_eq_some_iff.mp hc'
  obtain ⟨fm, hfm, rfl⟩ := Option.map_eq_some_iff.mp hread
  have hharmless := hplain c hc extras hextras (Option.isSome_of_eq_some hfm)
  refine ⟨c, hc, rfl, (harmless_iff hfm).mp hharmless, rfl, ?_⟩
  intro t ht
  cases hw.tags.symm.trans (dumps_tags c.frontmatter.tags)
  exact hasTag_tags.mp ht

theorem rowExists_row {p : ConceptRow → Bool} (hn : Index.Numbered n idx) (hrow : row ∈ idx.concepts)
    (h : idx.rowExists p row.rowid) : p row := by
  simp only [Index.rowExists, List.any_eq_true, Bool.and_eq_true, beq_iff_eq] at h
  obtain ⟨row', hrow', hid, hp⟩ := h
  rw [List.inj_on_of_nodup_map hn.rowids hrow' hrow hid] at hp
  exact hp

theorem sound_of_unspoiled {args : Index.ReadArgs} {hits : List (Index.Hit τ)}
    (h : Index.writeAll dt embedder writes = .ok idx) (hplain : ∀ c ∈ lastVersions writes, Unspoiled dt c)
    (hread : idx.read dt engine embedder args = .ok hits) : Sound (lastVersions writes) args hits := by
  have hnumbered := Index.numbered_writeAll h
  obtain ⟨picked, hranked⟩ := Index.read_ranked hread
  refine ⟨?_, ?_, ?_, ?_, hranked.few, hranked.scored, hranked.ordered⟩
  · intro hit hhit
    obtain ⟨e, -, row, hrow, -, hc', -⟩ := Index.exists_left_of_forall₂ hranked.rows hhit
    obtain ⟨c, hc, hid, hcarries, -⟩ := carries_of_row h hplain hrow hc'
    exact ⟨c, hc, hid, hcarries⟩
  · intro hit hhit t ht
    obtain ⟨e, -, row, hrow, -, hc', hfound⟩ := Index.exists_left_of_forall₂ hranked.rows hhit
    obtain ⟨c, -, -, hcarries, htype, -⟩ := carries_of_row h hplain hrow hc'
    have hpass := rowExists_row hnumbered hrow (hfound.1 t ht)
    simp only [Index.passes, Option.all_some, Option.all_none, Bool.and_true, beq_iff_eq] at hpass
    rw [hcarries.type, ← htype, hpass]
  · intro hit hhit t ht
    obtain ⟨e, -, row, hrow, -, hc', hfound⟩ := Index.exists_left_of_forall₂ hranked.rows hhit
    obtain ⟨c, -, -, hcarries, -, htags⟩ := carries_of_row h hplain hrow hc'
    have hpass := rowExists_row hnumbered hrow (hfound.2 t ht)
    simp only [Index.passes, Option.all_some, Option.all_none, Bool.true_and] at hpass
    rw [hcarries.tags]
    exact htags t hpass
  · refine List.pairwise_map.mpr (Index.pairwise_of_forall₂ hranked.rows ?_ (List.pairwise_map.mp hranked.distinct))
    rintro e e' hit hit' ⟨row, hrow, hrowid, hc, -⟩ ⟨row', hrow', hrowid', hc', -⟩ hne hid
    rw [Index.conceptId_rowToConcept hc, Index.conceptId_rowToConcept hc'] at hid
    have heq := List.inj_on_of_nodup_map idx.primaryKey hrow hrow' hid
    exact hne (hrowid.symm.trans ((congrArg ConceptRow.rowid heq).trans hrowid'))

/-- A read whose only hit is the concept. -/
theorem exists_read (h : Index.writeAll dt embedder writes = .ok idx) (hrow : row ∈ idx.concepts)
    (hc' : Index.rowToConcept dt row = some c') :
    ∃ engine : Engine, engine.Lawful ∧ ∃ args score, idx.read dt engine embedder args = .ok [⟨c', score⟩] := by
  have hnumbered := Index.numbered_writeAll h
  have hentry := hnumbered.mirrored row hrow
  have hentries : idx.conceptsFts ≠ [] := by
    intro hnil
    rw [hnil] at hentry
    cases hentry
  obtain ⟨rowid, score, best, -, hfav, hread⟩ :=
    Index.read_favour dt embedder hnumbered.nodup_entries hentries row.rowid
  obtain rfl := hfav hentry
  have hfind : idx.concepts.find? (fun r => r.rowid = row.rowid) = some row :=
    (find?_key_iff hnumbered.rowids).mpr ⟨hrow, rfl⟩
  refine ⟨Index.favour row.rowid, Engine.ranked_lawful _, Index.firstHit, score / best, hread.trans ?_⟩
  simp [Index.collectHits, hfind, hc']

/-- Every read of every lawful engine gives sound hits exactly when no extra
field of a last write stands for its type, title, description or tags with
another value. -/
theorem reads_sound_iff (dt : Datetimes τ) (embedder : Embedder) (writes : List (OKFConcept τ)) :
    (∀ engine : Engine, engine.Lawful → ∀ args hits,
        (writeEach dt embedder writes).read dt engine embedder args = .ok hits →
        Sound (versions dt embedder writes) args hits) ↔
      ∀ c ∈ versions dt embedder writes, Unspoiled dt c := by
  have h := writeAll_succeeding dt embedder writes
  constructor
  · intro hsound c hc extras hextras hvalid
    obtain ⟨rowid, tagsJson, metadataJson, vec, hw, hrow⟩ := exists_row h hc
    obtain ⟨fm, hfm⟩ := Option.isSome_iff_exists.mp hvalid
    have hc' : Index.rowToConcept dt (Index.conceptRow dt c rowid tagsJson metadataJson) =
        some ⟨c.conceptId, fm, c.body⟩ := by
      rw [rowToConcept_row hw.tags hw.metadata, hextras, Option.bind_some, hfm, Option.map_some]
    obtain ⟨engine, hlawful, args, score, hread⟩ := exists_read h hrow hc'
    obtain ⟨d, hd, hid, hcarries⟩ := (hsound engine hlawful args _ hread).carries _ (List.mem_singleton_self _)
    obtain rfl := eq_of_conceptId hc hd hid
    exact (harmless_iff hfm).mpr hcarries
  · intro hplain engine _ args hits hread
    exact sound_of_unspoiled h hplain hread

end

def retitledConcept : OKFConcept String where
  conceptId := "a"
  frontmatter :=
    { type := "doc", title := some "A", extraFields := Dict.ofList [("title", .str "B")], stripped := strip_doc }
  body := "alpha"

/-- The hit has the title of the extra field, not the one that was written. -/
theorem retitled_hit_unsound : Engine.byLength.Lawful ∧ ∃ hits,
    (writeEach isoTexts .unit [retitledConcept]).read isoTexts .byLength .unit { query := "alpha" } = .ok hits ∧
      ¬ Sound (versions isoTexts .unit [retitledConcept]) { query := "alpha" } hits := by
  obtain ⟨idx, hits, hit, hwrite, hread, hhit, htitle⟩ := Index.exists_hit isoTexts .byLength .unit .empty
    retitledConcept { query := "alpha" } (fun hit => hit.concept.frontmatter.title) (some "B")
    (by with_unfolding_all rfl)
  have hidx : writeEach isoTexts .unit [retitledConcept] = idx := by
    simp [writeEach, hwrite, Except.toOption]
  refine ⟨Engine.ranked_lawful _, hits, hidx ▸ hread, fun hsound => ?_⟩
  obtain ⟨c, hc, -, hcarries⟩ := hsound.carries hit hhit
  have hmem := (Index.lastVersions_sublist _).subset hc
  cases List.mem_singleton.mp (List.mem_of_mem_filter hmem)
  exact absurd (hcarries.title.symm.trans htitle) (by decide)

end Intelliqx.Okf
