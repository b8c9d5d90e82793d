import Intelliqx.Okf.Loading

/-!
# A bundle as a store

Concepts are saved below the root of a bundle, one after the other; a save may
raise and leave directories behind. What is loaded afterwards is the bundle
that was there, with the last save of each file in its place (`bundle_stores`).
-/

namespace Intelliqx.Okf

open Py
open Py.FileSystem (IsFileName Proper)

inductive SaveError
  | os (e : PathError)
  | yaml (e : PyException)
  deriving DecidableEq

/-- `yaml_text`: what `safe_dump` gives, without the line ends behind it. -/
def yamlText (raw : String) : String := .ofList (rstripNewlines raw.toList)

def savedContent (raw body : String) : List UInt8 := encodeUtf8 (savedText (yamlText raw) body)

section
variable (env : Environment τ)

def saveConcept (fs : FileSystem) (concept : OKFConcept τ) (path : PurePath) :
    Except SaveError Unit × FileSystem :=
  match fs.mkdir path.parent with
  | (.error e, fs') => (.error (.os e), fs')
  | (.ok (), fs') =>
    match env.safeDump (concept.frontmatter.modelDumpOkf env.datetimes) with
    | .error e => (.error (.yaml e), fs')
    | .ok raw =>
      match fs'.writeBytes path (savedContent raw concept.body) with
      | .error e => (.error (.os e), fs')
      | .ok fs'' => (.ok (), fs'')

/-- A file system and what was saved to it, by file. -/
structure Store (τ : Type) where
  fs : FileSystem
  saved : Dict (List Part) (OKFConcept τ) := .empty

/-- A save of a concept to a file below the root. -/
def Store.save (root : PurePath) (s : Store τ) (save : List Part × OKFConcept τ) : Store τ :=
  match saveConcept env s.fs save.2 (root.append save.1) with
  | (.ok (), fs) => { fs, saved := s.saved.insert save.1 save.2 }
  | (.error _, fs) => { s with fs }

def Store.saveAll (root : PurePath) (s : Store τ) (saves : List (List Part × OKFConcept τ)) : Store τ :=
  saves.foldl (Store.save env root) s

-- ---------------------------------------------------------------------------
-- What is promised
-- ---------------------------------------------------------------------------

/-- The block style of PyYAML: it begins with a key, no line is a document marker, and all line ends
are newlines. -/
structure Environment.DumpsBlocks : Prop where
  begins : ∀ d raw, env.safeDump d = .ok raw → ∃ c y, (yamlText raw).toList = c :: y ∧ ¬ isSpace c
  markers : ∀ d raw, env.safeDump d = .ok raw → ∀ line ∈ (yamlText raw).toList.splitOn '\n', ¬ isRule line
  lines : ∀ d raw, env.safeDump d = .ok raw → '\r' ∉ (yamlText raw).toList

/-- A concept whose file says all that the concept says. -/
structure Savable (c : OKFConcept τ) : Prop where
  type : c.frontmatter.type ≠ ""
  extras : ∀ k ∈ c.frontmatter.extraFields.keys, k ∉ knownFields
  timestamp : ∀ t, c.frontmatter.timestamp = some t →
    ∃ t', env.datetimes.validate (.str (env.datetimes.isoformat t)) = some t'
  lines : '\r' ∉ c.body.toList
  begins : c.body = "" ∨ afterRule c.body.toList = none
  yaml : ∀ raw, env.safeDump (c.frontmatter.modelDumpOkf env.datetimes) = .ok raw →
    env.safeLoad ("\n" ++ yamlText raw ++ "\n") = .ok (some (c.frontmatter.modelDumpOkf env.datetimes).toPy)

/-- The concept as it is loaded from the file it was saved to. -/
structure Reloaded (c : OKFConcept τ) (c' : LoadedConcept τ) : Prop where
  frontmatter : SameFields c.frontmatter c'.frontmatter
  body : c'.body = if c.body = "" ∨ c.body.toList.getLast? = some '\n' then c.body else c.body ++ "\n"
  sections : c'.sections = splitSections c'.body
  links : c'.links = extractLinks c'.body
  citations : c'.citations = extractCitations env c'.sections

end

-- ---------------------------------------------------------------------------
-- Reading what was written
-- ---------------------------------------------------------------------------

theorem universalNewlines_of_not_mem {text : List Char} (h : '\r' ∉ text) : universalNewlines text = text := by
  induction text with
  | nil => rfl
  | cons c text ih =>
    rw [List.mem_cons, not_or] at h
    have hc : c ≠ '\r' := fun heq => h.1 heq.symm
    rw [universalNewlines, ih h.2, if_neg hc]
    rintro rest rfl
    exact absurd rfl hc

section
variable {env : Environment τ} {c : OKFConcept τ} {fs fs' : FileSystem} {path root : PurePath} {parts : List Part}
  {raw : String}

theorem parse_saved (henv : env.DumpsBlocks) (hc : Savable env c)
    (hraw : env.safeDump (c.frontmatter.modelDumpOkf env.datetimes) = .ok raw) :
    parseFrontmatterAndBody env.safeLoad (.ofList (universalNewlines (savedText (yamlText raw) c.body).toList)) =
      .ok (asMapping (some (c.frontmatter.modelDumpOkf env.datetimes).toPy),
        if c.body = "" ∨ c.body.toList.getLast? = some '\n' then c.body else c.body ++ "\n") := by
  obtain ⟨ch, y, hy, hch⟩ := henv.begins _ _ hraw
  have hlines : '\r' ∉ (savedText (yamlText raw) c.body).toList := by
    have hyaml := henv.lines _ _ hraw
    have hbody := hc.lines
    rw [toList_savedText]
    split <;> simp [hyaml, hbody]
  have hbegins : c.body.toList = [] ∨ afterRule c.body.toList = none :=
    hc.begins.imp_left fun h => by rw [h]; rfl
  have hfm : String.ofList (blockText (yamlText raw).toList) = "\n" ++ yamlText raw ++ "\n" := by
    rw [hy, blockText_of_not_space hch, ← hy]
    apply String.toList_injective
    simp
  rw [universalNewlines_of_not_mem hlines, String.ofList_toList, parse_savedText (henv.markers _ _ hraw) hbegins, hfm,
    hc.yaml raw hraw]
  rfl

theorem loads_savable (hc : Savable env c) :
    Loads env.datetimes (asMapping (some (c.frontmatter.modelDumpOkf env.datetimes).toPy)) c.frontmatter := by
  refine loads_modelDumpOkf ?_ hc.type hc.extras
  cases htime : c.frontmatter.timestamp with
  | none => rfl
  | some t =>
    obtain ⟨t', ht'⟩ := hc.timestamp t htime
    rw [env.datetimes.validate_isoformat t t' ht'] at ht'
    exact Option.map_eq_some_iff.mpr ⟨t, ht', rfl⟩

theorem parseConcept_saved (henv : env.DumpsBlocks) (hc : Savable env c)
    (hraw : env.safeDump (c.frontmatter.modelDumpOkf env.datetimes) = .ok raw) (path : PurePath) :
    ∃ c', parseConcept env path (savedContent raw c.body) = .ok c' ∧ Reloaded env c c' := by
  obtain ⟨fm, hload, hsame⟩ := loads_iff.mpr (loads_savable hc)
  rw [loadFrontmatter] at hload
  split at hload
  · rename_i htype
    rw [parseConcept, savedContent, decodeUtf8_encodeUtf8]
    simp only [parse_saved henv hc hraw, htype, if_true, hload]
    exact ⟨_, rfl, hsame, rfl, rfl, rfl, rfl⟩
  · cases hload

-- ---------------------------------------------------------------------------
-- One save
-- ---------------------------------------------------------------------------

theorem lexical_append (fs : FileSystem) (root : PurePath) (h : ∀ part ∈ parts, IsFileName part) :
    fs.lexical (root.append parts) = fs.lexical root ++ parts := by
  rw [FileSystem.lexical, FileSystem.lexical, PurePath.append, List.foldl_append]
  exact foldl_collapseStep_names fun part hpart => (h part hpart).1

theorem lexical_of_cwd (h : fs'.cwd = fs.cwd) (path : PurePath) : fs'.lexical path = fs.lexical path := by
  rw [FileSystem.lexical, FileSystem.lexical, h]

theorem proper_append (hroot : Proper root) (h : ∀ part ∈ parts, IsFileName part) :
    Proper (root.append parts) := by
  intro part hpart
  rcases List.mem_append.mp hpart with hroot' | hparts
  · exact hroot part hroot'
  · obtain ⟨hname, hslash, hnul⟩ := h part hparts
    exact ⟨hname.1, hname.2.1, hslash, hnul⟩

theorem proper_parent (hpath : Proper path) : Proper path.parent :=
  fun part hpart => hpath part (List.dropLast_subset _ hpart)

/-- A save keeps the directories, and changes one file if it returns. -/
theorem saveConcept_spec (env : Environment τ) (c : OKFConcept τ) (hfs : fs.Clean) (hpath : Proper path) :
    fs.KeepsDirectories (saveConcept env fs c path).2 ∧ (saveConcept env fs c path).2.Clean ∧
      match saveConcept env fs c path with
      | (.ok (), fs') => ∃ raw, env.safeDump (c.frontmatter.modelDumpOkf env.datetimes) = .ok raw ∧
          ∀ loc content, fs'.node? loc = some (.file content) ↔
            if loc = fs.lexical path then content = savedContent raw c.body
            else fs.node? loc = some (.file content)
      | (.error _, fs') => fs.SameFiles fs' := by
  have hmade := FileSystem.sameFiles_mkdir fs path.parent
  have hkeeps := FileSystem.keepsDirectories_mkdir fs path.parent
  have hclean := hfs.mkdir (proper_parent hpath)
  unfold saveConcept
  cases hmkdir : fs.mkdir path.parent with
  | mk made fs₁ =>
    rw [hmkdir] at hmade hkeeps hclean
    cases made with
    | error e => exact ⟨hkeeps, hclean, hmade⟩
    | ok =>
      cases hraw : env.safeDump (c.frontmatter.modelDumpOkf env.datetimes) with
      | error e => exact ⟨hkeeps, hclean, hmade⟩
      | ok raw =>
        cases hwrite : fs₁.writeBytes path (savedContent raw c.body) with
        | error e =>
          simp only [hwrite]
          exact ⟨hkeeps, hclean, hmade⟩
        | ok fs₂ =>
          obtain ⟨loc, hloc, hnode⟩ := FileSystem.writeBytes_changes hwrite
          have hat : loc = fs.lexical path := by
            rw [FileSystem.lexical_of_locate
              (fun part hpart => ⟨(hpath part hpart).1, (hpath part hpart).2.1⟩) hloc, lexical_of_cwd hmade.cwd path]
          simp only [hwrite]
          refine ⟨hkeeps.trans (FileSystem.keepsDirectories_writeBytes hwrite), hclean.writeBytes hpath hwrite,
            raw, rfl, fun l content => ?_⟩
          rw [hnode, ← hat]
          split
          · rename_i hl
            subst hl
            rw [Function.update_self, Option.some.injEq, Node.file.injEq, eq_comm]
          · rename_i hl
            rw [Function.update_of_ne hl, hmade.files]

end

-- ---------------------------------------------------------------------------
-- A run of saves
-- ---------------------------------------------------------------------------

/-- A file is what was saved to it last, or what it was before. -/
def Store.Holds (env : Environment τ) (fs : FileSystem) (root : PurePath) (s : Store τ) (parts : List Part)
    (content : List UInt8) : Prop :=
  match s.saved.get? parts with
  | some c => ∃ raw, env.safeDump (c.frontmatter.modelDumpOkf env.datetimes) = .ok raw ∧
      content = savedContent raw c.body
  | none => MarkdownAt fs (fs.lexical root) parts content

/-- A store that began as `fs`. -/
structure Store.Kept (env : Environment τ) (fs : FileSystem) (root : PurePath) (s : Store τ) : Prop where
  clean : s.fs.Clean
  keeps : fs.KeepsDirectories s.fs
  files : ∀ parts content, MarkdownAt s.fs (fs.lexical root) parts content ↔ s.Holds env fs root parts content
  saved : ∀ parts c, s.saved.get? parts = some c →
    Savable env c ∧ ∃ raw, env.safeDump (c.frontmatter.modelDumpOkf env.datetimes) = .ok raw

section
variable {env : Environment τ} {c : OKFConcept τ} {fs fs' : FileSystem} {path root : PurePath} {parts : List Part}
  {s : Store τ} {saves : List (List Part × OKFConcept τ)} {b : LoadedBundle τ}

theorem Store.Kept.failed (h : s.Kept env fs root) (hclean : fs'.Clean) (hkeeps : s.fs.KeepsDirectories fs')
    (hsame : s.fs.SameFiles fs') : Store.Kept env fs root { s with fs := fs' } where
  clean := hclean
  keeps := h.keeps.trans hkeeps
  files parts content := by
    rw [MarkdownAt, hsame.files]
    exact h.files parts content
  saved := h.saved

theorem Store.Kept.written (h : s.Kept env fs root) (hmd : isMarkdown parts = true) (hc : Savable env c)
    (hclean : fs'.Clean) (hkeeps : s.fs.KeepsDirectories fs')
    (hraw : env.safeDump (c.frontmatter.modelDumpOkf env.datetimes) = .ok raw)
    (hfiles : ∀ loc content, fs'.node? loc = some (.file content) ↔
      if loc = fs.lexical root ++ parts then content = savedContent raw c.body
      else s.fs.node? loc = some (.file content)) :
    Store.Kept env fs root { fs := fs', saved := s.saved.insert parts c } where
  clean := hclean
  keeps := h.keeps.trans hkeeps
  files parts' content := by
    rw [MarkdownAt, hfiles, Store.Holds, Dict.get?_insert]
    by_cases hparts : parts' = parts
    · subst hparts
      simp [hmd, hraw]
    · have hloc : fs.lexical root ++ parts' ≠ fs.lexical root ++ parts := by simpa using hparts
      rw [if_neg hloc, if_neg hparts]
      exact h.files parts' content
  saved parts' c' := by
    rw [Dict.get?_insert]
    split
    · rintro ⟨⟩
      exact ⟨hc, raw, hraw⟩
    · exact h.saved parts' c'

theorem Store.Kept.save (h : s.Kept env fs root) (hroot : Proper root) (hmd : isMarkdown parts = true)
    (hnames : ∀ part ∈ parts, IsFileName part) (hc : Savable env c) :
    (s.save env root (parts, c)).Kept env fs root := by
  obtain ⟨hkeeps, hclean, hspec⟩ := saveConcept_spec env c h.clean (proper_append hroot hnames)
  unfold Store.save
  cases hsave : saveConcept env s.fs c (root.append parts) with
  | mk result fs' =>
    rw [hsave] at hkeeps hclean hspec
    cases result with
    | error e => exact h.failed hclean hkeeps hspec
    | ok =>
      obtain ⟨raw, hraw, hfiles⟩ := hspec
      rw [lexical_append _ _ hnames, lexical_of_cwd h.keeps.1 root] at hfiles
      exact h.written hmd hc hclean hkeeps hraw hfiles

theorem Store.Kept.saveAll (h : s.Kept env fs root) (hroot : Proper root)
    (hsaves : ∀ save ∈ saves, isMarkdown save.1 = true ∧ (∀ part ∈ save.1, IsFileName part) ∧ Savable env save.2) :
    (s.saveAll env root saves).Kept env fs root := by
  induction saves generalizing s with
  | nil => exact h
  | cons save saves ih =>
    obtain ⟨⟨hmd, hnames, hc⟩, hsaves⟩ := List.forall_mem_cons.mp hsaves
    exact ih (h.save hroot hmd hnames hc) hsaves

theorem Store.Kept.start (env : Environment τ) (root : PurePath) (hfs : fs.Clean) :
    Store.Kept env fs root { fs } where
  clean := hfs
  keeps := .refl fs
  files _ _ := Iff.rfl
  saved parts c h := by simp at h

-- ---------------------------------------------------------------------------
-- Loading the store
-- ---------------------------------------------------------------------------

/-- The bundle with the concepts that were saved last in their places. -/
structure Store.Loaded (env : Environment τ) (root : PurePath) (last : Dict (List Part) (OKFConcept τ))
    (b b' : LoadedBundle τ) : Prop where
  saved : ∀ parts c, last.get? parts = some c → ∃ c', b'.concepts.get? (idOf parts) = some c' ∧ Reloaded env c c'
  others : ∀ id, (∀ parts ∈ last.keys, id ≠ idOf parts) → b'.concepts.get? id = b.concepts.get? id
  errors : ∀ path e, (path, e) ∈ b'.errors ↔ (path, e) ∈ b.errors ∧ ∀ parts ∈ last.keys, path ≠ root.append parts
  reserved : ∀ id, id ∈ b'.reserved ↔ id ∈ b.reserved ∨
    ∃ parts ∈ last.keys, id = idOf parts ∧ parts.getLast?.any (· ∈ reservedFilenames) = true

theorem Store.Holds.of_saved (h : s.saved.get? parts = some c) {content : List UInt8} :
    s.Holds env fs root parts content ↔ ∃ raw,
      env.safeDump (c.frontmatter.modelDumpOkf env.datetimes) = .ok raw ∧ content = savedContent raw c.body := by
  rw [Store.Holds, h]

theorem Store.Holds.of_other (h : parts ∉ s.saved.keys) {content : List UInt8} :
    s.Holds env fs root parts content ↔ MarkdownAt fs (fs.lexical root) parts content := by
  have hnone : s.saved.get? parts = none := by
    rwa [← Dict.isSome_get?_iff, Bool.not_eq_true, Option.isSome_eq_false_iff, Option.isNone_iff_eq_none] at h
  rw [Store.Holds, hnone]

section
variable (henv : env.DumpsBlocks) (h : s.Kept env fs root)
include h

/-- What the store is loaded as, by what it holds. -/
theorem Store.Kept.loadsAs {b' : LoadedBundle τ} (hb' : LoadsAs env s.fs root b') :
    LoadedFrom env (fs.resolve root) (s.Holds env fs root) b' := by
  have hlexical := lexical_of_cwd h.keeps.1 root
  have hresolve : s.fs.resolve root = fs.resolve root := by
    rw [FileSystem.resolve, FileSystem.resolve, hlexical]
  rw [LoadsAs, hlexical, hresolve] at hb'
  exact hb'.congr h.files

include henv

theorem Store.Kept.parsed (hc : s.saved.get? parts = some c) {content : List UInt8}
    (hholds : s.Holds env fs root parts content) (path : PurePath) :
    ∃ c', parseConcept env path content = .ok c' ∧ Reloaded env c c' := by
  obtain ⟨raw, hraw, rfl⟩ := (Store.Holds.of_saved hc).mp hholds
  exact parseConcept_saved henv (h.saved parts c hc).1 hraw path

theorem Store.Kept.allCaught (hcaught : AllCaught env fs root) : AllCaught env s.fs root := by
  have hlexical := lexical_of_cwd h.keeps.1 root
  intro parts content hat e hparse
  rw [FileSystem.resolve, hlexical] at hparse
  have hholds := (h.files parts content).mp (hlexical ▸ hat)
  by_cases hparts : parts ∈ s.saved.keys
  · obtain ⟨c, hc⟩ := Option.isSome_iff_exists.mp (Dict.isSome_get?_iff.mpr hparts)
    obtain ⟨c', hok, -⟩ := h.parsed henv hc hholds _
    cases hok.symm.trans hparse
  · exact hcaught parts content ((Store.Holds.of_other hparts).mp hholds) e hparse

theorem Store.Kept.loaded {b' : LoadedBundle τ} (hb : LoadsAs env fs root b) (hb' : LoadsAs env s.fs root b') :
    Store.Loaded env (fs.resolve root) s.saved b b' := by
  have hfrom := h.loadsAs hb'
  constructor
  case saved =>
    intro parts c hc
    obtain ⟨-, raw, hraw⟩ := h.saved parts c hc
    have hholds : s.Holds env fs root parts _ := (Store.Holds.of_saved hc).mpr ⟨raw, hraw, rfl⟩
    obtain ⟨c', hparse, hreloaded⟩ := h.parsed henv hc hholds ((fs.resolve root).append parts)
    refine ⟨_, (hfrom.concepts _ _).mpr ⟨parts, _, c', hholds, rfl, hparse, rfl⟩, ?_⟩
    exact ⟨hreloaded.frontmatter, hreloaded.body, hreloaded.sections, hreloaded.links, hreloaded.citations⟩
  case others =>
    intro id hid
    refine Option.ext fun c => ?_
    rw [hfrom.concepts, hb.concepts]
    constructor
    · rintro ⟨parts, content, c', hholds, heq, hrest⟩
      have hparts : parts ∉ s.saved.keys := fun hmem => hid parts hmem heq
      exact ⟨parts, content, c', (Store.Holds.of_other hparts).mp hholds, heq, hrest⟩
    · rintro ⟨parts, content, c', hat, heq, hrest⟩
      have hparts : parts ∉ s.saved.keys := fun hmem => hid parts hmem heq
      exact ⟨parts, content, c', (Store.Holds.of_other hparts).mpr hat, heq, hrest⟩
  case errors =>
    intro path e
    rw [hfrom.errors, hb.errors]
    constructor
    · rintro ⟨parts, content, hholds, rfl, hparse⟩
      have hparts : parts ∉ s.saved.keys := by
        intro hmem
        obtain ⟨c, hc⟩ := Option.isSome_iff_exists.mp (Dict.isSome_get?_iff.mpr hmem)
        obtain ⟨c', hok, -⟩ := h.parsed henv hc hholds ((fs.resolve root).append parts)
        cases hok.symm.trans hparse
      refine ⟨⟨parts, content, (Store.Holds.of_other hparts).mp hholds, rfl, hparse⟩, ?_⟩
      rintro parts' hmem heq
      exact hparts (append_inj heq ▸ hmem)
    · rintro ⟨⟨parts, content, hat, rfl, hparse⟩, hother⟩
      have hparts : parts ∉ s.saved.keys := fun hmem => hother parts hmem rfl
      exact ⟨parts, content, (Store.Holds.of_other hparts).mpr hat, rfl, hparse⟩
  case reserved =>
    intro id
    rw [hfrom.reserved, hb.reserved]
    constructor
    · rintro ⟨parts, content, c', hholds, rfl, hparse, hlast⟩
      by_cases hparts : parts ∈ s.saved.keys
      · exact .inr ⟨parts, hparts, rfl, hlast⟩
      · exact .inl ⟨parts, content, c', (Store.Holds.of_other hparts).mp hholds, rfl, hparse, hlast⟩
    · have hsaved : ∀ parts ∈ s.saved.keys, parts.getLast?.any (· ∈ reservedFilenames) = true →
          ∃ parts' content c', s.Holds env fs root parts' content ∧ idOf parts = idOf parts' ∧
            parseConcept env ((fs.resolve root).append parts') content = .ok c' ∧
              parts'.getLast?.any (· ∈ reservedFilenames) = true := by
        intro parts hmem hlast
        obtain ⟨c, hc⟩ := Option.isSome_iff_exists.mp (Dict.isSome_get?_iff.mpr hmem)
        obtain ⟨-, raw, hraw⟩ := h.saved parts c hc
        have hholds : s.Holds env fs root parts _ := (Store.Holds.of_saved hc).mpr ⟨raw, hraw, rfl⟩
        obtain ⟨c', hparse, -⟩ := h.parsed henv hc hholds ((fs.resolve root).append parts)
        exact ⟨parts, _, c', hholds, rfl, hparse, hlast⟩
      rintro (⟨parts, content, c', hat, rfl, hparse, hlast⟩ | ⟨parts, hmem, rfl, hlast⟩)
      · by_cases hparts : parts ∈ s.saved.keys
        · exact hsaved parts hparts hlast
        · exact ⟨parts, content, c', (Store.Holds.of_other hparts).mpr hat, rfl, hparse, hlast⟩
      · exact hsaved parts hmem hlast

end

/-- Whatever is saved in whatever order, and whichever saves raise: the bundle loaded afterwards has
the last concept saved to each file, as it was saved, and all else as it was. -/
theorem bundle_stores (env : Environment τ) (henv : env.DumpsBlocks) (fs : FileSystem) (root : PurePath)
    (saves : List (List Part × OKFConcept τ)) (b : LoadedBundle τ) (hfs : fs.Clean) (hroot : Proper root)
    (hdir : fs.node? (fs.lexical root) = some .directory)
    (hsaves : ∀ save ∈ saves, isMarkdown save.1 = true ∧ (∀ part ∈ save.1, IsFileName part) ∧ Savable env save.2)
    (hload : loadBundle env fs root = .ok b) :
    ∃ b', loadBundle env (Store.saveAll env root { fs } saves).fs root = .ok b' ∧
      Store.Loaded env (fs.resolve root) (Store.saveAll env root { fs } saves).saved b b' := by
  have hkept := (Store.Kept.start env root hfs).saveAll hroot hsaves
  have hdir' : (Store.saveAll env root { fs } saves).fs.node?
      ((Store.saveAll env root { fs } saves).fs.lexical root) = some .directory := by
    rw [lexical_of_cwd hkept.keeps.1 root]
    exact hkept.keeps.2 _ hdir
  have hcaught := hkept.allCaught henv (allCaught_of_loadBundle hfs hroot hdir hload)
  obtain ⟨b', hb', hloads⟩ := exists_loadBundle hkept.clean hroot hdir' hcaught
  exact ⟨b', hb', hkept.loaded henv (loaded_of_loadBundle hfs hroot hdir hload) hloads⟩

end

def smokeConcept (body : String) : OKFConcept String where
  conceptId := "a"
  frontmatter := { type := "doc", stripped := strip_doc }
  body := body

/-- The third save raises: `a.md` is no directory. -/
def smokeSaves : List (List Part × OKFConcept String) :=
  [(["a.md".toList], smokeConcept "alpha"), (["sub".toList, "b.md".toList], smokeConcept "beta"),
    (["a.md".toList, "c.md".toList], smokeConcept "delta"), (["a.md".toList], smokeConcept "gamma")]

theorem dumpsBlocks_smoke : smokeEnvironment.DumpsBlocks := by
  have htext : (yamlText "type: doc").toList = "type: doc".toList := by decide
  constructor
  · rintro d raw ⟨⟩
    exact ⟨'t', "ype: doc".toList, htext, by decide⟩
  · rintro d raw ⟨⟩
    rw [htext, show "type: doc".toList.splitOn '\n' = ["type: doc".toList] by decide, List.forall_mem_singleton]
    rintro ⟨w, hw, -⟩
    have hhead : some 't' = some '-' := congrArg List.head? hw
    exact absurd hhead (by decide)
  · rintro d raw ⟨⟩
    rw [htext]
    decide

theorem savable_smoke {body : String} (hlines : '\r' ∉ body.toList) (hbegins : afterRule body.toList = none) :
    Savable smokeEnvironment (smokeConcept body) where
  type := (by decide : "doc" ≠ "")
  extras k hk := by simp [smokeConcept, Dict.keys] at hk
  timestamp t ht := by cases ht
  lines := hlines
  begins := .inr hbegins
  yaml raw _ := rfl

theorem bundle_stores_smoke : ∃ b b', loadBundle smokeEnvironment smokeTree (.ofText "/kb".toList) = .ok b ∧
    loadBundle smokeEnvironment
      (Store.saveAll smokeEnvironment (.ofText "/kb".toList) { fs := smokeTree } smokeSaves).fs
          (.ofText "/kb".toList) = .ok b' ∧
    (b'.concepts.get? "a").map (fun c => c.body) = some "gamma\n" ∧
      (b'.concepts.get? "sub/b").map (fun c => c.body) = some "beta\n" := by
  obtain ⟨b, hb, -⟩ := exists_bundle_smoke
  have hsaves : ∀ save ∈ smokeSaves, isMarkdown save.1 = true ∧ (∀ part ∈ save.1, IsFileName part) ∧
      Savable smokeEnvironment save.2 := by
    simp only [smokeSaves, List.forall_mem_cons]
    exact ⟨⟨by decide, by decide, savable_smoke (by decide) (by decide)⟩,
      ⟨by decide, by decide, savable_smoke (by decide) (by decide)⟩,
      ⟨by decide, by decide, savable_smoke (by decide) (by decide)⟩,
      ⟨by decide, by decide, savable_smoke (by decide) (by decide)⟩, List.forall_mem_nil _⟩
  obtain ⟨b', hb', hstored⟩ := bundle_stores smokeEnvironment dumpsBlocks_smoke smokeTree (.ofText "/kb".toList)
    smokeSaves b clean_smoke proper_smoke directory_smoke hsaves hb
  refine ⟨b, b', hb, hb', ?_, ?_⟩
  · obtain ⟨c, hc, hbody⟩ := Option.map_eq_some_iff.mp
      (show ((Store.saveAll smokeEnvironment (.ofText "/kb".toList) { fs := smokeTree } smokeSaves).saved.get?
        ["a.md".toList]).map (fun c => c.body) = some "gamma" by decide +kernel)
    obtain ⟨c', hc', hreloaded⟩ := hstored.saved _ c hc
    rw [show idOf ["a.md".toList] = "a" by decide] at hc'
    rw [hc', Option.map_some, hreloaded.body, hbody]
    decide
  · obtain ⟨c, hc, hbody⟩ := Option.map_eq_some_iff.mp
      (show ((Store.saveAll smokeEnvironment (.ofText "/kb".toList) { fs := smokeTree } smokeSaves).saved.get?
        ["sub".toList, "b.md".toList]).map (fun c => c.body) = some "beta" by decide +kernel)
    obtain ⟨c', hc', hreloaded⟩ := hstored.saved _ c hc
    rw [show idOf ["sub".toList, "b.md".toList] = "sub/b" by decide] at hc'
    rw [hc', Option.map_some, hreloaded.body, hbody]
    decide

end Intelliqx.Okf
