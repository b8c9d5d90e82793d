import Intelliqx.Okf.Index

/-!
# What a hit carries

A hit is read from the row that the last write of its concept left behind.
Seven of the ten columns and fields come back as they were written; the row
has no column for `resource` and `okf_version`, and the extras come back under
another name (`hit_agrees_iff`).
-/

namespace Intelliqx.Okf

open Py

structure Agrees (c c' : OKFConcept τ) : Prop where
  type : c'.frontmatter.type = c.frontmatter.type
  title : c'.frontmatter.title = c.frontmatter.title
  description : c'.frontmatter.description = c.frontmatter.description
  resource : c'.frontmatter.resource = c.frontmatter.resource
  tags : c'.frontmatter.tags = c.frontmatter.tags
  timestamp : c'.frontmatter.timestamp = c.frontmatter.timestamp
  okfVersion : c'.frontmatter.okfVersion = c.frontmatter.okfVersion
  extraFields : c'.frontmatter.extraFields = c.frontmatter.extraFields
  body : c'.body = c.body

/-- The extras are JSON, and none is called like a declared field. -/
structure PlainExtras (d : Attrs) : Prop where
  representable : d.toPy.Representable
  undeclared : ∀ k ∈ d.keys, k ∉ fieldNames

section
variable {dt : Datetimes τ} {embedder : Embedder} {engine : Engine} {idx idx' : Index}
  {c c' d : OKFConcept τ}

-- ---------------------------------------------------------------------------
-- Encoding and decoding
-- ---------------------------------------------------------------------------

theorem mapM_textEntry (es : List (String × PyValue)) :
    (es.map fun e => (PyKey.str e.1, e.2)).mapM textEntry = some es := by
  induction es with
  | nil => rfl
  | cons e es ih => rw [List.map_cons, List.mapM_cons, ih]; rfl

theorem mapM_validateStr (ss : List String) : (ss.map PyValue.str).mapM validateStr = some ss := by
  induction ss with
  | nil => rfl
  | cons s ss ih => rw [List.map_cons, List.mapM_cons, ih]; rfl

theorem tags_representable (ss : List String) : (PyValue.list (ss.map .str)).Representable := by
  unfold PyValue.Representable
  induction ss with
  | nil => trivial
  | cons s ss ih => exact ⟨trivial, ih⟩

theorem get?_ofList_append {es extras : List (String × PyValue)} (hn : ((es ++ extras).map Prod.fst).Nodup)
    (hk : k ∉ extras.map Prod.fst) : (Dict.ofList (es ++ extras)).get? k = es.lookup k := by
  rw [Dict.get?, Dict.entries_ofList _ hn, List.lookup_append]
  have hnone : extras.lookup k = none := by
    rw [List.lookup_eq_none_iff]
    intro e he
    have hne : k ≠ e.1 := fun h => hk (h ▸ List.mem_map_of_mem he)
    simpa using hne
  simp [hnone]

theorem validateOptStr_elim (s : Option String) :
    validateOptStr (some (s.elim .none .str)) = some s := by
  cases s <;> rfl

theorem validateType_str (h : validateType (some (.str s)) = some r) (hs : strip s = s) : r.1 = s := by
  simp only [validateType, validateStr, Option.bind_some] at h
  split at h
  · cases h
  · cases h; exact hs

theorem validateTags_list (ss : List String) :
    validateTags (some (.list (ss.map .str))) = some ss := mapM_validateStr ss

theorem validateTimestamp_iso {t : Option τ} {r : Option τ}
    (h : validateTimestamp dt (some ((t.map dt.isoformat).elim .none .str)) = some r) : r = t := by
  cases t with
  | none => cases h; rfl
  | some t =>
    obtain ⟨t', ht, rfl⟩ := Option.map_eq_some_iff.mp h
    rw [dt.validate_isoformat t t' ht]

structure Decoded (fm fm' : OKFFrontmatter τ) : Prop where
  type : fm'.type = fm.type
  title : fm'.title = fm.title
  description : fm'.description = fm.description
  tags : fm'.tags = fm.tags
  timestamp : fm'.timestamp = fm.timestamp
  resource : fm'.resource = none
  okfVersion : fm'.okfVersion = none
  extraFields : fm'.extraFields = Dict.empty

theorem lookup_columns (row : ConceptRow) :
    (Index.columns row).lookup "type" = some (.str row.type) ∧
      (Index.columns row).lookup "title" = some (row.title.elim .none .str) ∧
      (Index.columns row).lookup "description" = some (row.description.elim .none .str) ∧
      (Index.columns row).lookup "resource" = none ∧
      (Index.columns row).lookup "tags" = some (jsonLoads row.tagsJson) ∧
      (Index.columns row).lookup "timestamp" = some (row.timestamp.elim .none .str) ∧
      (Index.columns row).lookup "okf_version" = none ∧
      (Index.columns row).lookup "extra_fields" = none :=
  ⟨rfl, rfl, rfl, rfl, rfl, rfl, rfl, rfl⟩

theorem get?_columns {extras : Attrs} (hx : ∀ k ∈ extras.keys, k ∉ fieldNames) (row : ConceptRow)
    (hk : k ∈ fieldNames) :
    (Dict.ofList (Index.columns row ++ extras.entries)).get? k = (Index.columns row).lookup k := by
  refine get?_ofList_append ?_ fun hk' => hx k hk' hk
  rw [List.map_append]
  apply List.Nodup.append (by simp [Index.columns]) extras.nodup
  intro k hk hk'
  apply hx k hk'
  simp only [Index.columns, List.map_cons, List.map_nil, List.mem_cons, List.not_mem_nil, or_false] at hk
  rcases hk with rfl | rfl | rfl | rfl | rfl <;> simp [fieldNames]

theorem decoded_of_modelValidate {extras : Attrs} (hx : ∀ k ∈ extras.keys, k ∉ fieldNames)
    (htags : jsonLoads tagsJson = .list (c.frontmatter.tags.map .str))
    (h : OKFFrontmatter.modelValidate dt (Dict.ofList
      (Index.columns (Index.conceptRow dt c rowid tagsJson metadataJson) ++ extras.entries)) = some fm) :
    Decoded c.frontmatter fm := by
  have hget : ∀ k ∈ fieldNames, _ := fun k hk =>
    get?_columns hx (Index.conceptRow dt c rowid tagsJson metadataJson) (k := k) hk
  obtain ⟨ctype, ctitle, cdescription, cresource, ctags, ctime, cversion, cextra⟩ :=
    lookup_columns (Index.conceptRow dt c rowid tagsJson metadataJson)
  obtain ⟨htype, htitle, hdescription, hresource, htags', htime, hversion, hextra⟩ :=
    OKFFrontmatter.validated h
  rw [hget "type" (by simp [fieldNames]), ctype] at htype
  rw [hget "title" (by simp [fieldNames]), ctitle] at htitle
  rw [hget "description" (by simp [fieldNames]), cdescription] at hdescription
  rw [hget "resource" (by simp [fieldNames]), cresource] at hresource
  rw [hget "tags" (by simp [fieldNames]), ctags] at htags'
  rw [hget "timestamp" (by simp [fieldNames]), ctime] at htime
  rw [hget "okf_version" (by simp [fieldNames]), cversion] at hversion
  rw [hget "extra_fields" (by simp [fieldNames]), cextra] at hextra
  simp only [Index.conceptRow, htags, validateTags_list, validateOptStr_elim, Option.some.injEq] at *
  obtain ⟨t, ht, hfm⟩ := Option.map_eq_some_iff.mp htype
  exact {
    type := hfm.symm.trans (validateType_str ht c.frontmatter.stripped)
    title := htitle.symm
    description := hdescription.symm
    tags := htags'.symm
    timestamp := validateTimestamp_iso htime
    resource := (Option.some.inj hresource).symm
    okfVersion := (Option.some.inj hversion).symm
    extraFields := (Option.some.inj hextra).symm }

theorem rowToConcept_conceptRow (hx : PlainExtras c.frontmatter.extraFields)
    (ht : jsonDumps (.list (c.frontmatter.tags.map .str)) = .ok tagsJson)
    (hm : jsonDumps c.frontmatter.extraFields.toPy = .ok metadataJson)
    (h : Index.rowToConcept dt (Index.conceptRow dt c rowid tagsJson metadataJson) = some c') :
    c'.body = c.body ∧ Decoded c.frontmatter c'.frontmatter := by
  obtain ⟨j, hj, hloads⟩ := jsonLoads_jsonDumps _ hx.representable
  cases hm.symm.trans hj
  obtain ⟨j, hj, htags⟩ := jsonLoads_jsonDumps _ (tags_representable c.frontmatter.tags)
  cases ht.symm.trans hj
  unfold Index.rowToConcept at h
  rw [show (Index.conceptRow dt c rowid tagsJson metadataJson).metadataJson = metadataJson from rfl,
    hloads] at h
  simp only [Attrs.toPy, mapM_textEntry, Option.bind_eq_bind, Option.bind_some,
    Option.bind_eq_some_iff] at h
  obtain ⟨fm, hfm, hc⟩ := h
  cases hc
  exact ⟨rfl, decoded_of_modelValidate hx.undeclared htags hfm⟩

-- ---------------------------------------------------------------------------
-- The row of the last write
-- ---------------------------------------------------------------------------

def LastWritten (dt : Datetimes τ) (c : OKFConcept τ) (idx : Index) : Prop :=
  ∀ row ∈ idx.concepts, row.conceptId = c.conceptId → ∃ rowid tagsJson metadataJson,
    row = Index.conceptRow dt c rowid tagsJson metadataJson ∧
      jsonDumps (.list (c.frontmatter.tags.map .str)) = .ok tagsJson ∧
      jsonDumps c.frontmatter.extraFields.toPy = .ok metadataJson

theorem lastWritten_write (h : idx.write dt embedder c = .ok idx') : LastWritten dt c idx' := by
  intro row hrow hid
  rcases Index.mem_concepts_write h hrow with ⟨-, hne⟩ | ⟨_, _, _, hw, rfl⟩
  · exact absurd hid hne
  · exact ⟨_, _, _, rfl, hw.tags, hw.metadata⟩

theorem LastWritten.write (hl : LastWritten dt c idx) (hd : d.conceptId ≠ c.conceptId)
    (h : idx.write dt embedder d = .ok idx') : LastWritten dt c idx' := by
  intro row hrow hid
  rcases Index.mem_concepts_write h hrow with ⟨hrow, -⟩ | ⟨_, _, _, -, rfl⟩
  · exact hl row hrow hid
  · exact absurd hid hd

theorem LastWritten.writes {others : List (OKFConcept τ)} (hl : LastWritten dt c idx)
    (hd : ∀ d ∈ others, d.conceptId ≠ c.conceptId)
    (h : others.foldlM (Index.write dt embedder) idx = .ok idx') : LastWritten dt c idx' := by
  induction others generalizing idx with
  | nil => cases h; exact hl
  | cons d others ih =>
    rw [List.forall_mem_cons] at hd
    rw [List.foldlM_cons] at h
    cases hw : idx.write dt embedder d with
    | error e => simp [hw] at h
    | ok idx₁ => exact ih (hl.write hd.1 hw) hd.2 (by simpa [hw] using h)

/-- Everything the row has no place for is at its default. -/
def Storable (c : OKFConcept τ) : Prop :=
  c.frontmatter.resource = none ∧ c.frontmatter.okfVersion = none ∧ c.frontmatter.extraFields = Dict.empty

/-- A hit agrees with the concept last written under its id exactly when that
concept has no resource, no OKF version and no extra fields. -/
theorem hit_agrees_iff (dt : Datetimes τ) (engine : Engine) (embedder : Embedder) (idx idx₁ idx₂ : Index)
    (c : OKFConcept τ) (others : List (OKFConcept τ)) (args : Index.ReadArgs) (hits : List (Index.Hit τ))
    (hit : Index.Hit τ) (hextras : PlainExtras c.frontmatter.extraFields)
    (hwrite : idx.write dt embedder c = .ok idx₁) (hothers : ∀ d ∈ others, d.conceptId ≠ c.conceptId)
    (hrun : others.foldlM (Index.write dt embedder) idx₁ = .ok idx₂)
    (hread : idx₂.read dt engine embedder args = .ok hits) (hhit : hit ∈ hits)
    (hid : hit.concept.conceptId = c.conceptId) :
    Agrees c hit.concept ↔ Storable c := by
  have hlast : LastWritten dt c idx₂ := (lastWritten_write hwrite).writes hothers hrun
  obtain ⟨row, hrow, hconcept⟩ := Index.mem_read hread hhit
  obtain ⟨rowid, tagsJson, metadataJson, rfl, htags, hmetadata⟩ :=
    hlast row hrow ((Index.conceptId_rowToConcept hconcept).symm.trans hid)
  obtain ⟨hbody, hfm⟩ := rowToConcept_conceptRow hextras htags hmetadata hconcept
  constructor
  · intro ha
    exact ⟨ha.resource.symm.trans hfm.resource, ha.okfVersion.symm.trans hfm.okfVersion,
      ha.extraFields.symm.trans hfm.extraFields⟩
  · rintro ⟨hresource, hversion, hextra⟩
    exact ⟨hfm.type, hfm.title, hfm.description, hfm.resource.trans hresource.symm, hfm.tags,
      hfm.timestamp, hfm.okfVersion.trans hversion.symm, hfm.extraFields.trans hextra.symm, hbody⟩

def plainConcept : OKFConcept String where
  conceptId := "a"
  frontmatter :=
    { type := "doc", title := some "A", tags := ["x"], timestamp := some "2026-01-01T00:00:00",
      stripped := strip_doc }
  body := "alpha"

theorem hit_agrees_plain : ∃ idx hits hit,
    Index.empty.write isoTexts .unit plainConcept = .ok idx ∧
      idx.read isoTexts .byLength .unit { query := "alpha" } = .ok hits ∧
      hit ∈ hits ∧ Agrees plainConcept hit.concept := by
  obtain ⟨idx, hits, hit, hwrite, hread, hhit, hid⟩ := Index.exists_hit isoTexts .byLength .unit
    .empty plainConcept { query := "alpha" } (fun h => h.concept.conceptId)
    "a" (by with_unfolding_all rfl)
  refine ⟨idx, hits, hit, hwrite, hread, hhit, ?_⟩
  exact (hit_agrees_iff isoTexts .byLength .unit .empty idx idx plainConcept [] { query := "alpha" } hits hit
    ⟨⟨trivial, List.nodup_nil⟩, by simp [plainConcept, Dict.keys]⟩ hwrite (by simp) rfl
    hread hhit hid).mpr ⟨rfl, rfl, rfl⟩

def ownedConcept : OKFConcept String where
  conceptId := "a"
  frontmatter :=
    { type := "doc", title := some "A", resource := some "db://a",
      extraFields := Dict.ofList [("owner", .str "ops")], stripped := strip_doc }
  body := "alpha"

/-- The hit has lost the resource, and the extra key is no extra field. -/
theorem owned_concept_lost : PlainExtras ownedConcept.frontmatter.extraFields ∧ ∃ idx hits hit,
    Index.empty.write isoTexts .unit ownedConcept = .ok idx ∧
      idx.read isoTexts .byLength .unit { query := "alpha" } = .ok hits ∧
      hit ∈ hits ∧ hit.concept.conceptId = ownedConcept.conceptId ∧ ¬ Agrees ownedConcept hit.concept := by
  obtain ⟨idx, hits, hit, hwrite, hread, hhit, hfields⟩ := Index.exists_hit isoTexts .byLength
    .unit .empty ownedConcept { query := "alpha" }
    (fun h => (h.concept.conceptId, h.concept.frontmatter.resource))
    ("a", none) (by with_unfolding_all rfl)
  obtain ⟨hid, hresource⟩ := Prod.ext_iff.mp hfields
  refine ⟨⟨⟨⟨⟨_, rfl⟩, trivial, trivial⟩, by decide⟩, by decide⟩, idx, hits, hit, hwrite, hread, hhit, hid, ?_⟩
  intro ha
  have hlost := ha.resource.symm.trans hresource
  cases hlost

end

end Intelliqx.Okf
