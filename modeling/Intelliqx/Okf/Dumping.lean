import Intelliqx.Okf.Concept
import Intelliqx.Okf.RoundTrip

/-!
# Loading what was dumped

`model_dump_okf` writes the fields of a frontmatter and its extras into one
mapping. `dump_loads_iff` says for which mappings the frontmatter they are
loaded as can be loaded again from there.
-/

namespace Intelliqx.Okf

open Py

/-- Pydantic reads the ISO text of every datetime it has read. -/
def Datetimes.ReadsIso (dt : Datetimes τ) : Prop :=
  ∀ v t, dt.validate v = some t → ∃ t', dt.validate (.str (dt.isoformat t)) = some t'

structure SameFields (fm fm' : OKFFrontmatter τ) : Prop where
  type : fm'.type = fm.type
  title : fm'.title = fm.title
  description : fm'.description = fm.description
  resource : fm'.resource = fm.resource
  tags : fm'.tags = fm.tags
  timestamp : fm'.timestamp = fm.timestamp
  okfVersion : fm'.okfVersion = fm.okfVersion
  extraFields : fm'.extraFields = fm.extraFields

/-- The mapping that is dumped is loaded again, as the same fields. -/
def DumpLoads (dt : Datetimes τ) (fm : OKFFrontmatter τ) : Prop :=
  ∃ fm', loadFrontmatter dt (asMapping (some (fm.modelDumpOkf dt).toPy)) = some fm' ∧ SameFields fm fm'

/-- The type is more than whitespace, and no extra key of bytes spells the name of a known field. -/
structure Dumpable (parsed : Mapping) : Prop where
  type : ∀ v s, parsed.get? (.str "type") = some v → validateStr v = some s → strip s ≠ ""
  extras : ∀ content, .bytes content ∈ parsed.keys → ∀ k, decodeUtf8 content = some k → k ∉ knownFields

-- ---------------------------------------------------------------------------
-- Known fields and extras
-- ---------------------------------------------------------------------------

theorem knownField?_eq_some : knownField? key = some k ↔ key = .str k ∧ k ∈ knownFields := by
  cases key with
  | str s =>
    simp only [knownField?]
    split
    · rename_i hs
      simp only [Option.some.injEq, PyKey.str.injEq]
      exact ⟨fun h => ⟨h, h ▸ hs⟩, And.left⟩
    · rename_i hs
      simp only [PyKey.str.injEq]
      exact ⟨fun h => (nomatch h), fun h => absurd (h.1 ▸ h.2) hs⟩
  | none | bool | int | float | bytes | other => simp [knownField?]

def fmData (es : List (PyKey × PyValue)) : List (String × PyValue) :=
  es.filterMap fun e => (knownField? e.1).map fun k => (k, e.2)

def extrasOf (es : List (PyKey × PyValue)) : List (PyKey × PyValue) := es.filter fun e => (knownField? e.1).isNone

theorem mem_fmData {es : List (PyKey × PyValue)} : (k, v) ∈ fmData es ↔ (.str k, v) ∈ es ∧ k ∈ knownFields := by
  simp only [fmData, List.mem_filterMap, Option.map_eq_some_iff, Prod.mk.injEq, knownField?_eq_some]
  constructor
  · rintro ⟨⟨key, v'⟩, he, k', ⟨rfl, hk⟩, rfl, rfl⟩
    exact ⟨he, hk⟩
  · rintro ⟨he, hk⟩
    exact ⟨_, he, k, ⟨rfl, hk⟩, rfl, rfl⟩

theorem nodup_fmData {es : List (PyKey × PyValue)} (hn : (es.map Prod.fst).Nodup) :
    ((fmData es).map Prod.fst).Nodup := by
  have hkeys : List.Sublist (((fmData es).map Prod.fst).map PyKey.str) (es.map Prod.fst) := by
    induction es with
    | nil => exact .slnil
    | cons e es ih =>
      have ih := ih (List.nodup_cons.mp hn).2
      cases hk : knownField? e.1 with
      | none =>
        rw [fmData, List.filterMap_cons, hk]
        exact ih.cons _
      | some k =>
        rw [fmData, List.filterMap_cons, hk]
        obtain ⟨he, -⟩ := knownField?_eq_some.mp hk
        rw [List.map_cons (l := es), he]
        exact ih.cons_cons _
  exact List.Nodup.of_map _ (hn.sublist hkeys)

theorem knownField?_str (hk : k ∉ knownFields) : knownField? (.str k) = none := by
  simp [knownField?, hk]

section
variable {dt : Datetimes τ} {parsed : Mapping} {fm fm' : OKFFrontmatter τ} {d : Attrs}

theorem nodup_arguments (parsed : Mapping) (extras : PyValue) :
    ((fmData parsed.entries ++ [("extra_fields", extras)]).map Prod.fst).Nodup := by
  rw [List.map_append]
  refine (nodup_fmData parsed.nodup).append (List.nodup_singleton _) ?_
  intro k hk hextra
  obtain ⟨⟨k', v⟩, he, hk'⟩ := List.mem_map.mp hk
  have hname : k' = "extra_fields" := hk'.trans (List.mem_singleton.mp hextra)
  subst hname
  exact absurd (mem_fmData.mp he).2 (by decide)

/-- Each known field reaches its check as the mapping has it. -/
theorem get?_arguments (parsed : Mapping) (extras : PyValue) (hk : k ∈ knownFields) :
    (Dict.ofList (fmData parsed.entries ++ [("extra_fields", extras)])).get? k = parsed.get? (.str k) := by
  have hne : k ≠ "extra_fields" := by
    rintro rfl
    exact absurd hk (by decide)
  refine Option.ext fun v => ?_
  rw [Dict.get?_eq_some_iff, Dict.get?_eq_some_iff, Dict.entries_ofList _ (nodup_arguments parsed extras),
    List.mem_append, mem_fmData]
  constructor
  · rintro (h | h)
    · exact h.1
    · exact absurd (congrArg Prod.fst (List.mem_singleton.mp h)) hne
  · exact fun h => .inl ⟨h, hk⟩

theorem get?_extra_fields (parsed : Mapping) (extras : PyValue) :
    (Dict.ofList (fmData parsed.entries ++ [("extra_fields", extras)])).get? "extra_fields" = some extras := by
  rw [Dict.get?_eq_some_iff, Dict.entries_ofList _ (nodup_arguments parsed extras)]
  exact List.mem_append_right _ (List.mem_singleton_self _)

theorem modelValidate_iff (dt : Datetimes τ) (fm : OKFFrontmatter τ) (d : Attrs) :
    (∃ fm', OKFFrontmatter.modelValidate dt d = some fm' ∧ SameFields fm fm') ↔ fm.Validated dt d := by
  constructor
  · rintro ⟨fm', h, hs⟩
    obtain ⟨h1, h2, h3, h4, h5, h6, h7, h8⟩ := OKFFrontmatter.validated h
    exact ⟨hs.type ▸ h1, hs.title ▸ h2, hs.description ▸ h3, hs.resource ▸ h4, hs.tags ▸ h5,
      hs.timestamp ▸ h6, hs.okfVersion ▸ h7, hs.extraFields ▸ h8⟩
  · intro h
    obtain ⟨type, htype, hname⟩ := Option.map_eq_some_iff.mp h.type
    unfold OKFFrontmatter.modelValidate
    rw [htype, h.title, h.description, h.resource, h.tags, h.timestamp, h.okfVersion, h.extraFields]
    exact ⟨_, rfl, ⟨hname, rfl, rfl, rfl, rfl, rfl, rfl, rfl⟩⟩

/-- What `load_concept` checks of a mapping, field by field. -/
structure Loads (dt : Datetimes τ) (parsed : Mapping) (fm : OKFFrontmatter τ) : Prop where
  present : (parsed.get? (.str "type")).any truth = true
  type : (validateType (parsed.get? (.str "type"))).map Subtype.val = some fm.type
  title : validateOptStr (parsed.get? (.str "title")) = some fm.title
  description : validateOptStr (parsed.get? (.str "description")) = some fm.description
  resource : validateOptStr (parsed.get? (.str "resource")) = some fm.resource
  tags : validateTags (parsed.get? (.str "tags")) = some fm.tags
  timestamp : validateTimestamp dt (parsed.get? (.str "timestamp")) = some fm.timestamp
  okfVersion : validateOptStr (parsed.get? (.str "okf_version")) = some fm.okfVersion
  extraFields : ((extrasOf parsed.entries).mapM textEntry).map Dict.ofList = some fm.extraFields

theorem loads_iff :
    (∃ fm', loadFrontmatter dt parsed = some fm' ∧ SameFields fm fm') ↔ Loads dt parsed fm := by
  have hget : ∀ k ∈ knownFields, _ := fun k hk =>
    get?_arguments parsed (.dict (extrasOf parsed.entries)) (k := k) hk
  have hvalid := modelValidate_iff dt fm
    (Dict.ofList (fmData parsed.entries ++ [("extra_fields", .dict (extrasOf parsed.entries))]))
  rw [loadFrontmatter]
  split
  · rename_i htruth
    refine hvalid.trans ?_
    constructor
    · rintro ⟨h1, h2, h3, h4, h5, h6, h7, h8⟩
      rw [hget _ (by decide)] at h1 h2 h3 h4 h5 h6 h7
      rw [get?_extra_fields] at h8
      exact ⟨htruth, h1, h2, h3, h4, h5, h6, h7, h8⟩
    · rintro ⟨-, h1, h2, h3, h4, h5, h6, h7, h8⟩
      constructor <;> first | rwa [hget _ (by decide)] | rwa [get?_extra_fields]
  · rename_i htruth
    constructor
    · rintro ⟨fm', h, -⟩
      cases h
    · exact fun h => absurd h.present htruth

-- ---------------------------------------------------------------------------
-- The mapping that is dumped
-- ---------------------------------------------------------------------------

theorem entries_asMapping_toPy (d : Attrs) :
    (asMapping (some d.toPy)).entries = d.entries.map fun e => (.str e.1, e.2) := by
  refine Dict.entries_ofList _ ?_
  rw [List.map_map]
  exact (List.map_map (f := Prod.fst) (g := PyKey.str) ▸ d.nodup.map fun _ _ h => PyKey.str.inj h :)

theorem get?_asMapping_toPy (d : Attrs) (k : String) : (asMapping (some d.toPy)).get? (.str k) = d.get? k := by
  refine Option.ext fun v => ?_
  rw [Dict.get?_eq_some_iff, Dict.get?_eq_some_iff, entries_asMapping_toPy, List.mem_map]
  constructor
  · rintro ⟨e, he, h⟩
    cases h
    exact he
  · exact fun h => ⟨_, h, rfl⟩

theorem entries_foldl_setDefault (es : List (String × PyValue)) (d : Attrs)
    (hn : ((d.entries ++ es).map Prod.fst).Nodup) :
    (es.foldl (fun out e => setDefault out e.1 e.2) d).entries = d.entries ++ es := by
  induction es generalizing d with
  | nil => simp
  | cons e es ih =>
    have hk : e.1 ∉ d.keys := by
      rw [List.map_append, List.nodup_append] at hn
      exact fun hd => hn.2.2 _ hd _ (List.mem_cons_self) rfl
    have he : (setDefault d e.1 e.2).entries = d.entries ++ [e] := by
      rw [setDefault, if_neg hk, Dict.entries_insert_of_not_mem hk]
    rw [List.foldl_cons, ih _ (by rw [he]; simpa using hn), he]
    simp

theorem get?_foldl_setDefault (es : List (String × PyValue)) {d : Attrs} (h : d.get? k = some v) :
    (es.foldl (fun out e => setDefault out e.1 e.2) d).get? k = some v := by
  induction es generalizing d with
  | nil => exact h
  | cons e es ih =>
    have hk : (setDefault d e.1 e.2).get? k = some v := by
      unfold setDefault
      split
      · exact h
      · rename_i he
        rw [Dict.get?_insert_ne, h]
        rintro rfl
        exact he (Dict.isSome_get?_iff.mp (by simp [h]))
    exact ih hk

theorem lookup_field (name k : String) (v : Option PyValue) :
    (field name v).lookup k = if k = name then v else none := by
  cases v with
  | none => simp [field]
  | some v => simp [field, lookup_cons_ite]

theorem keys_dumped (fm : OKFFrontmatter τ) (dt : Datetimes τ) :
    List.Sublist ((fm.dumped dt).map Prod.fst) knownFields := by
  have hfield : ∀ name v, List.Sublist ((field name v).map Prod.fst) [name] := by
    rintro name (_ | v)
    · exact List.nil_sublist _
    · exact List.Sublist.refl _
  simp only [OKFFrontmatter.dumped, List.map_append]
  exact ((((((List.Sublist.refl ["type"]).append (hfield _ _)).append (hfield _ _)).append (hfield _ _)).append
    (hfield _ _)).append (hfield _ _)).append (hfield _ _)

theorem entries_ofList_dumped (fm : OKFFrontmatter τ) (dt : Datetimes τ) :
    (Dict.ofList (fm.dumped dt)).entries = fm.dumped dt := by
  have hknown : knownFields.Nodup := by decide
  exact Dict.entries_ofList _ (hknown.sublist (keys_dumped fm dt))

theorem nodup_dumped (fm : OKFFrontmatter τ) (dt : Datetimes τ)
    (hx : ∀ k ∈ fm.extraFields.keys, k ∉ knownFields) :
    ((fm.dumped dt ++ fm.extraFields.entries).map Prod.fst).Nodup := by
  have hknown : knownFields.Nodup := by decide
  rw [List.map_append]
  exact (hknown.sublist (keys_dumped fm dt)).append fm.extraFields.nodup
    fun k hk hk' => hx k hk' ((keys_dumped fm dt).subset hk)

/-- Where no extra is called like a known field, the fields come first and the extras behind. -/
theorem entries_modelDumpOkf (dt : Datetimes τ) (hx : ∀ k ∈ fm.extraFields.keys, k ∉ knownFields) :
    (fm.modelDumpOkf dt).entries = fm.dumped dt ++ fm.extraFields.entries := by
  have hd := entries_ofList_dumped fm dt
  rw [OKFFrontmatter.modelDumpOkf, entries_foldl_setDefault _ _ (by rw [hd]; exact nodup_dumped fm dt hx), hd]

theorem get?_modelDumpOkf (dt : Datetimes τ) (hx : ∀ k ∈ fm.extraFields.keys, k ∉ knownFields)
    (hk : k ∈ knownFields) : (fm.modelDumpOkf dt).get? k = (fm.dumped dt).lookup k := by
  have hnone : fm.extraFields.get? k = none := by
    rw [← Option.not_isSome_iff_eq_none, Dict.isSome_get?_iff]
    exact fun h => hx k h hk
  rw [Dict.get?, entries_modelDumpOkf dt hx, List.lookup_append]
  rw [Dict.get?] at hnone
  rw [hnone, Option.or_none]

theorem extrasOf_modelDumpOkf (dt : Datetimes τ) (hx : ∀ k ∈ fm.extraFields.keys, k ∉ knownFields) :
    extrasOf (asMapping (some (fm.modelDumpOkf dt).toPy)).entries =
      fm.extraFields.entries.map fun e => (.str e.1, e.2) := by
  rw [entries_asMapping_toPy, entries_modelDumpOkf dt hx, extrasOf, List.map_append, List.filter_append]
  have hdumped : ∀ e ∈ (fm.dumped dt).map fun e => (PyKey.str e.1, e.2), knownField? e.1 ≠ none := by
    intro e he
    obtain ⟨e', he', rfl⟩ := List.mem_map.mp he
    have hk := (keys_dumped fm dt).subset (List.mem_map_of_mem he')
    simp [knownField?, hk]
  have hextra : ∀ e ∈ fm.extraFields.entries.map fun e => (PyKey.str e.1, e.2), knownField? e.1 = none := by
    intro e he
    obtain ⟨e', he', rfl⟩ := List.mem_map.mp he
    exact knownField?_str (hx _ (List.mem_map_of_mem he'))
  rw [List.filter_eq_nil_iff.mpr fun e he => by simpa using hdumped e he,
    List.filter_eq_self.mpr fun e he => by simpa using hextra e he, List.nil_append]

-- ---------------------------------------------------------------------------
-- Loading it again
-- ---------------------------------------------------------------------------

theorem keys_of_mapM_textEntry {es : List (PyKey × PyValue)} {es' : List (String × PyValue)}
    (h : es.mapM textEntry = some es') : (es.map Prod.fst).mapM textKey = some (es'.map Prod.fst) := by
  induction es generalizing es' with
  | nil => cases h; rfl
  | cons e es ih =>
    rw [List.mapM_cons] at h
    obtain ⟨e', he, h⟩ := Option.bind_eq_some_iff.mp h
    obtain ⟨rest, hrest, h⟩ := Option.bind_eq_some_iff.mp h
    obtain ⟨k, hk, rfl⟩ := Option.map_eq_some_iff.mp he
    cases h
    rw [List.map_cons, List.mapM_cons, hk, ih hrest]
    rfl

theorem mem_mapM_textKey {keys : List PyKey} {ks : List String} (h : keys.mapM textKey = some ks) :
    k ∈ ks ↔ ∃ key ∈ keys, textKey key = some k := by
  induction keys generalizing ks with
  | nil => cases h; simp
  | cons key keys ih =>
    rw [List.mapM_cons] at h
    obtain ⟨k', hk', h⟩ := Option.bind_eq_some_iff.mp h
    obtain ⟨rest, hrest, h⟩ := Option.bind_eq_some_iff.mp h
    cases h
    rw [List.mem_cons, ih hrest, List.exists_mem_cons_iff, hk', Option.some.injEq, eq_comm]

section
variable (h : Loads dt parsed fm)
include h

theorem Loads.type_eq_strip :
    ∃ v s, parsed.get? (.str "type") = some v ∧ validateStr v = some s ∧ strip s = fm.type := by
  obtain ⟨type, htype, hname⟩ := Option.map_eq_some_iff.mp h.type
  cases hv : parsed.get? (.str "type") with
  | none => rw [hv] at htype; cases htype
  | some v =>
    rw [hv] at htype
    obtain ⟨s, hs, hstrip⟩ := Option.bind_eq_some_iff.mp htype
    split at hstrip
    · cases hstrip
    · cases hstrip
      exact ⟨v, s, rfl, hs, hname⟩

theorem Loads.mem_extraFields :
    k ∈ fm.extraFields.keys ↔ ∃ key ∈ parsed.keys, knownField? key = none ∧ textKey key = some k := by
  obtain ⟨es, hes, hextra⟩ := Option.map_eq_some_iff.mp h.extraFields
  have hkeys : k ∈ fm.extraFields.keys ↔ k ∈ es.map Prod.fst := by
    rw [← Dict.isSome_get?_iff, ← hextra]
    exact Dict.isSome_get?_index
  rw [hkeys, mem_mapM_textKey (keys_of_mapM_textEntry hes)]
  simp [extrasOf, Dict.keys, and_assoc]

/-- A key of bytes is the only kind of key that is no known field and spells one. -/
theorem Loads.extras_iff : (∀ k ∈ fm.extraFields.keys, k ∉ knownFields) ↔
    ∀ content, .bytes content ∈ parsed.keys → ∀ k, decodeUtf8 content = some k → k ∉ knownFields := by
  constructor
  · intro hx content hc k hk
    exact hx k (h.mem_extraFields.mpr ⟨_, hc, rfl, hk⟩)
  · intro hb k hk
    obtain ⟨key, hkey, hunknown, htext⟩ := h.mem_extraFields.mp hk
    cases key with
    | str s =>
      cases htext
      intro hs
      simp [knownField?, hs] at hunknown
    | bytes content => exact hb content hkey k htext
    | none | bool | int | float | other => cases htext

theorem Loads.dumpable_iff : Dumpable parsed ↔ fm.type ≠ "" ∧ ∀ k ∈ fm.extraFields.keys, k ∉ knownFields := by
  obtain ⟨v, s, hv, hs, hname⟩ := h.type_eq_strip
  rw [h.extras_iff, ← hname]
  constructor
  · exact fun hd => ⟨hd.type v s hv hs, hd.extras⟩
  · rintro ⟨hne, hextras⟩
    refine ⟨fun v' s' hv' hs' => ?_, hextras⟩
    cases hv.symm.trans hv'
    cases hs.symm.trans hs'
    exact hne

end

theorem lookup_dumped (fm : OKFFrontmatter τ) (dt : Datetimes τ) :
    (fm.dumped dt).lookup "type" = some (.str fm.type) ∧
      (fm.dumped dt).lookup "title" = fm.title.map .str ∧
      (fm.dumped dt).lookup "description" = fm.description.map .str ∧
      (fm.dumped dt).lookup "resource" = fm.resource.map .str ∧
      (fm.dumped dt).lookup "tags" = (if fm.tags ≠ [] then some (.list (fm.tags.map .str)) else none) ∧
      (fm.dumped dt).lookup "timestamp" = fm.timestamp.map (fun t => .str (dt.isoformat t)) ∧
      (fm.dumped dt).lookup "okf_version" = fm.okfVersion.map .str := by
  simp [OKFFrontmatter.dumped, List.lookup_append, lookup_field, lookup_cons_ite]

theorem validateOptStr_map (s : Option String) : validateOptStr (s.map .str) = some s := by
  cases s <;> rfl

theorem validateTags_dumped (tags : List String) :
    validateTags (if tags ≠ [] then some (.list (tags.map .str)) else none) = some tags := by
  split
  · exact validateTags_list tags
  · rename_i hnil
    exact congrArg some (not_not.mp hnil).symm

theorem validateTimestamp_dumped (hiso : dt.ReadsIso) {v : Option PyValue} {time : Option τ}
    (h : validateTimestamp dt v = some time) :
    validateTimestamp dt (time.map fun t => .str (dt.isoformat t)) = some time := by
  cases time with
  | none => rfl
  | some t =>
    have hread : ∃ v, dt.validate v = some t := by
      unfold validateTimestamp at h
      split at h
      · cases h
      · cases h
      · obtain ⟨t', ht', heq⟩ := Option.map_eq_some_iff.mp h
        exact ⟨_, Option.some.inj heq ▸ ht'⟩
    obtain ⟨v, hv⟩ := hread
    obtain ⟨t', ht'⟩ := hiso v t hv
    have heq := dt.validate_isoformat t t' ht'
    rw [heq] at ht'
    exact Option.map_eq_some_iff.mpr ⟨t, ht', rfl⟩

/-- The fields of the dump pass the checks, if pydantic reads the timestamp again. -/
theorem loads_modelDumpOkf
    (htime : validateTimestamp dt (fm.timestamp.map fun t => .str (dt.isoformat t)) = some fm.timestamp)
    (htype : fm.type ≠ "") (hx : ∀ k ∈ fm.extraFields.keys, k ∉ knownFields) :
    Loads dt (asMapping (some (fm.modelDumpOkf dt).toPy)) fm := by
  have hget : ∀ k ∈ knownFields, (asMapping (some (fm.modelDumpOkf dt).toPy)).get? (.str k) =
      (fm.dumped dt).lookup k :=
    fun k hk => (get?_asMapping_toPy _ k).trans (get?_modelDumpOkf dt hx hk)
  obtain ⟨dtype, dtitle, ddescription, dresource, dtags, dtime, dversion⟩ := lookup_dumped fm dt
  constructor
  case present => simp [hget "type" (by decide), dtype, truth, htype]
  case type => simp [hget "type" (by decide), dtype, validateType, validateStr, htype, fm.stripped]
  case title => rw [hget _ (by decide), dtitle, validateOptStr_map]
  case description => rw [hget _ (by decide), ddescription, validateOptStr_map]
  case resource => rw [hget _ (by decide), dresource, validateOptStr_map]
  case tags => rw [hget _ (by decide), dtags, validateTags_dumped]
  case timestamp => rw [hget _ (by decide), dtime, htime]
  case okfVersion => rw [hget _ (by decide), dversion, validateOptStr_map]
  case extraFields => rw [extrasOf_modelDumpOkf dt hx, mapM_textEntry, Option.map_some, Dict.ofList_entries]

/-- The fields of the dump pass the checks they have passed before, unless the type is empty now. -/
theorem Loads.dump (hiso : dt.ReadsIso) (h : Loads dt parsed fm) (htype : fm.type ≠ "")
    (hx : ∀ k ∈ fm.extraFields.keys, k ∉ knownFields) :
    Loads dt (asMapping (some (fm.modelDumpOkf dt).toPy)) fm :=
  loads_modelDumpOkf (validateTimestamp_dumped hiso h.timestamp) htype hx

/-- What a load accepts is not empty, and its extras are none of the known fields of the dump. -/
theorem Loads.of_dump (h : Loads dt (asMapping (some (fm.modelDumpOkf dt).toPy)) fm) :
    fm.type ≠ "" ∧ ∀ k ∈ fm.extraFields.keys, k ∉ knownFields := by
  constructor
  · have htype : (fm.modelDumpOkf dt).get? "type" = some (.str fm.type) := by
      refine get?_foldl_setDefault _ ?_
      rw [Dict.get?, entries_ofList_dumped]
      exact (lookup_dumped fm dt).1
    have hpresent := h.present
    rw [get?_asMapping_toPy, htype] at hpresent
    simpa [truth] using hpresent
  · rw [h.extras_iff]
    intro content hc
    simp [Dict.keys, entries_asMapping_toPy] at hc

/-- A frontmatter can be dumped and loaded again exactly if its type is more than whitespace and no
extra key of bytes spells a known field. -/
theorem dump_loads_iff (dt : Datetimes τ) (hiso : dt.ReadsIso) (parsed : Mapping) (fm : OKFFrontmatter τ)
    (h : loadFrontmatter dt parsed = some fm) : DumpLoads dt fm ↔ Dumpable parsed := by
  have hl : Loads dt parsed fm := loads_iff.mp ⟨fm, h, ⟨rfl, rfl, rfl, rfl, rfl, rfl, rfl, rfl⟩⟩
  rw [DumpLoads, loads_iff, hl.dumpable_iff]
  exact ⟨Loads.of_dump, fun hd => hl.dump hiso hd.1 hd.2⟩

/-- A type with a space behind it and an extra key. -/
def ownedMapping : Mapping := Dict.ofList [(.str "type", .str "doc "), (.str "owner", .str "x")]

theorem dump_loads_owned : ∃ fm, loadFrontmatter isoTexts ownedMapping = some fm ∧ DumpLoads isoTexts fm := by
  have hload : ∃ fm, loadFrontmatter isoTexts ownedMapping = some fm := ⟨_, rfl⟩
  obtain ⟨fm, hload⟩ := hload
  refine ⟨fm, hload, (dump_loads_iff isoTexts (fun _ _ _ => ⟨_, rfl⟩) ownedMapping fm hload).mpr ⟨?_, ?_⟩⟩
  · intro v s hv hs
    cases (show some (.str "doc ") = some v from hv)
    cases hs
    decide
  · intro content hc
    have hkeys : ownedMapping.keys = [.str "type", .str "owner"] := rfl
    simp [hkeys] at hc

/-- A type of three spaces is accepted, dumped as an empty type and refused. -/
theorem blank_type_not_loaded : ∃ fm,
    loadFrontmatter isoTexts (Dict.ofList [(.str "type", .str "   ")]) = some fm ∧ ¬ DumpLoads isoTexts fm :=
  ⟨_, rfl, fun h => (loads_iff.mp h).of_dump.1 (by decide)⟩

end

end Intelliqx.Okf
