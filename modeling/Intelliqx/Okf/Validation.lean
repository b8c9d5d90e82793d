import Mathlib.Data.List.Count
import Intelliqx.Okf.Loading

/-!
# Validating a bundle

What `validate_bundle` finds in a loaded bundle, by the files it was loaded
from (`validation_by_files`). Each repetition of a heading is found twice,
once for its concept and once for the bundle.
-/

namespace Intelliqx.Okf

open Py

inductive IssueLevel
  | error
  | warning
  deriving DecidableEq

/-- What a message says, and what it names. -/
inductive IssueMessage
  | failedToParse (e : LoadError)
  | typeEmpty
  | bodyEmpty
  | untitled
  | duplicateHeading (heading : String)
  | headingRepeated (heading : String)
  | indexMissing
  | unresolvedLinks (count : Nat)
  deriving DecidableEq

structure ValidationIssue where
  level : IssueLevel
  path : String
  message : IssueMessage
  deriving DecidableEq

structure ValidationResult where
  issues : List ValidationIssue

def ValidationResult.ok (r : ValidationResult) : Bool := !r.issues.any fun issue => issue.level = .error

/-- The headings that are not empty and have been seen before, where they come again. -/
def repeated (seen : List String) : List String → List String
  | [] => []
  | h :: headings => (if h ≠ "" ∧ h ∈ seen then [h] else []) ++ repeated (h :: seen) headings

section
variable (c : LoadedConcept τ)

def headings : List String := c.sections.map OKFSection.heading

def validateConcept : ValidationResult where
  issues :=
    (if c.frontmatter.type = "" ∨ strip c.frontmatter.type = "" then
      [⟨.error, c.conceptId, .typeEmpty⟩] else []) ++
    (if c.body = "" ∨ strip c.body = "" then [⟨.warning, c.conceptId, .bodyEmpty⟩] else []) ++
    (if c.frontmatter.title.getD "" = "" ∧ c.frontmatter.description.getD "" = "" then
      [⟨.warning, c.conceptId, .untitled⟩] else []) ++
    (repeated [] ((headings c).filter fun h => h ≠ "")).map fun h =>
      ⟨.warning, c.conceptId, .duplicateHeading h⟩

/-- The body of the loop over the concepts, with the headings seen under each id. -/
def visitConcept (state : List ValidationIssue × Dict String (List String)) :
    List ValidationIssue × Dict String (List String) :=
  let seen := (state.2.get? c.conceptId).getD []
  (state.1 ++ (validateConcept c).issues ++
      (repeated seen (headings c)).map (fun h => ⟨.warning, c.conceptId, .headingRepeated h⟩),
    state.2.insert c.conceptId ((headings c).reverse ++ seen))

end

/-- The links of a bundle can be followed: its root is a resolved path, and the ids are paths below it. -/
structure LoadedBundle.Linked (b : LoadedBundle τ) : Prop where
  resolved : ∀ part ∈ b.root.parts, IsName part ∧ '/' ∉ part
  relative : ∀ c ∈ b.concepts.values, c.conceptId.toList.head? ≠ some '/'

/-- What the resolver reads of a concept. -/
def LoadedConcept.linking (c : LoadedConcept τ) : LinkingConcept := ⟨c.conceptId, c.links⟩

def LoadedBundle.linking (b : LoadedBundle τ) (h : b.Linked) : OKFBundle where
  root := b.root.parts
  concepts := Dict.ofList (b.concepts.entries.map fun e => (e.1, e.2.linking))
  resolved := h.resolved
  relative := by
    intro concept hconcept
    have hentries : (Dict.ofList (b.concepts.entries.map fun e => (e.1, e.2.linking))).entries =
        b.concepts.entries.map fun e => (e.1, e.2.linking) := by
      refine Dict.entries_ofList _ ?_
      rw [List.map_map]
      exact b.concepts.nodup
    rw [Dict.values, hentries, List.map_map] at hconcept
    obtain ⟨e, he, rfl⟩ := List.mem_map.mp hconcept
    exact h.relative e.2 (List.mem_map_of_mem he)

def validateBundle (b : LoadedBundle τ) (h : b.Linked) : ValidationResult where
  issues :=
    let unresolvedCount := (OKFLinkResolver.new (b.linking h)).edges.2.unresolvedCount
    b.errors.map (fun e => ⟨.error, e.1.str, .failedToParse e.2⟩) ++
      (b.concepts.values.foldl (fun state c => visitConcept c state) ([], .empty)).1 ++
      (if "index" ∈ b.reserved then [] else [⟨.warning, b.root.str, .indexMissing⟩]) ++
      if unresolvedCount ≠ 0 then [⟨.warning, b.root.str, .unresolvedLinks unresolvedCount⟩] else []

/-- The links that the resolver finds no concept for. -/
def LoadedBundle.missedLinks (b : LoadedBundle τ) (h : b.Linked) : List (String × OKFLink) :=
  (b.linking h).links.filter (b.linking h).missed

-- ---------------------------------------------------------------------------
-- Headings that come again
-- ---------------------------------------------------------------------------

theorem count_repeated (seen hs : List String) {h : String} (hne : h ≠ "") :
    (repeated seen hs).count h = if h ∈ seen then hs.count h else hs.count h - 1 := by
  induction hs generalizing seen with
  | nil => simp [repeated]
  | cons h' hs ih =>
    rw [repeated, List.count_append, ih, List.count_cons]
    by_cases heq : h' = h
    · subst heq
      by_cases hseen : h' ∈ seen
      · simp [hne, hseen, Nat.add_comm]
      · simp [hseen]
    · have hnew : List.count h (if h' ≠ "" ∧ h' ∈ seen then [h'] else []) = 0 := by
        split <;> simp [heq]
      rw [hnew]
      simp [heq, Ne.symm heq]

theorem count_filter_ne {hs : List String} {h : String} (hne : h ≠ "") :
    (hs.filter fun h => h ≠ "").count h = hs.count h :=
  List.count_filter (by simpa using hne)

-- ---------------------------------------------------------------------------
-- The issues of a concept
-- ---------------------------------------------------------------------------

/-- What the loop over the concepts finds in one whose id is new. -/
def conceptIssues (c : LoadedConcept τ) : List ValidationIssue :=
  (validateConcept c).issues ++
    (repeated [] (headings c)).map fun h => ⟨.warning, c.conceptId, .headingRepeated h⟩

section
variable {c : LoadedConcept τ} {issue : ValidationIssue} {h : String}

theorem mem_conceptIssues : issue ∈ conceptIssues c ↔
    c.frontmatter.type = "" ∧ issue = ⟨.error, c.conceptId, .typeEmpty⟩ ∨
    strip c.body = "" ∧ issue = ⟨.warning, c.conceptId, .bodyEmpty⟩ ∨
    (c.frontmatter.title.getD "" = "" ∧ c.frontmatter.description.getD "" = "") ∧
      issue = ⟨.warning, c.conceptId, .untitled⟩ ∨
    (∃ h ∈ repeated [] ((headings c).filter fun h => h ≠ ""),
      ⟨.warning, c.conceptId, .duplicateHeading h⟩ = issue) ∨
    ∃ h ∈ repeated [] (headings c), ⟨.warning, c.conceptId, .headingRepeated h⟩ = issue := by
  have htype : strip c.frontmatter.type = c.frontmatter.type := c.frontmatter.stripped
  have hbody : (c.body = "" ∨ strip c.body = "") ↔ strip c.body = "" :=
    or_iff_right_of_imp fun h => by rw [h]; rfl
  simp only [conceptIssues, validateConcept, htype, or_self, hbody, List.mem_append, List.mem_map,
    List.mem_ite_nil_right, List.mem_singleton, or_assoc]

theorem path_of_mem_conceptIssues (hissue : issue ∈ conceptIssues c) : issue.path = c.conceptId := by
  rcases mem_conceptIssues.mp hissue with ⟨-, rfl⟩ | ⟨-, rfl⟩ | ⟨-, rfl⟩ | ⟨h, -, rfl⟩ | ⟨h, -, rfl⟩ <;> rfl

theorem count_map_issue {message : String → IssueMessage} (hinj : Function.Injective message)
    (hs : List String) :
    (hs.map fun h => (⟨.warning, c.conceptId, message h⟩ : ValidationIssue)).count
      ⟨.warning, c.conceptId, message h⟩ = hs.count h :=
  List.count_map_of_injective hs (fun h => (⟨.warning, c.conceptId, message h⟩ : ValidationIssue))
    (fun _ _ heq => hinj (ValidationIssue.mk.inj heq).2.2) h

/-- Each repetition of a heading is found by both loops. -/
theorem count_conceptIssues (hne : h ≠ "") :
    (conceptIssues c).count ⟨.warning, c.conceptId, .duplicateHeading h⟩ = (headings c).count h - 1 ∧
      (conceptIssues c).count ⟨.warning, c.conceptId, .headingRepeated h⟩ = (headings c).count h - 1 := by
  have hduplicate := count_map_issue (c := c) (h := h) (fun _ _ heq => IssueMessage.duplicateHeading.inj heq)
    (repeated [] ((headings c).filter fun h => h ≠ ""))
  have hrepeated := count_map_issue (c := c) (h := h) (fun _ _ heq => IssueMessage.headingRepeated.inj heq)
    (repeated [] (headings c))
  rw [count_repeated [] _ hne, if_neg List.not_mem_nil, count_filter_ne hne] at hduplicate
  rw [count_repeated [] _ hne, if_neg List.not_mem_nil] at hrepeated
  have hunduplicated : ∀ hs : List String, (hs.map fun h =>
      (⟨.warning, c.conceptId, .headingRepeated h⟩ : ValidationIssue)).count
        ⟨.warning, c.conceptId, .duplicateHeading h⟩ = 0 := by
    intro hs
    rw [List.count_eq_zero, List.mem_map]
    rintro ⟨h', -, heq⟩
    cases heq
  have hunrepeated : ∀ hs : List String, (hs.map fun h =>
      (⟨.warning, c.conceptId, .duplicateHeading h⟩ : ValidationIssue)).count
        ⟨.warning, c.conceptId, .headingRepeated h⟩ = 0 := by
    intro hs
    rw [List.count_eq_zero, List.mem_map]
    rintro ⟨h', -, heq⟩
    cases heq
  constructor
  · simp only [conceptIssues, validateConcept, List.count_append, hduplicate, hunduplicated]
    split <;> split <;> split <;> simp
  · simp only [conceptIssues, validateConcept, List.count_append, hrepeated, hunrepeated]
    split <;> split <;> split <;> simp

theorem error_mem_conceptIssues :
    (∃ issue ∈ conceptIssues c, issue.level = .error) ↔ c.frontmatter.type = "" := by
  constructor
  · rintro ⟨issue, hissue, hlevel⟩
    rcases mem_conceptIssues.mp hissue with ⟨htype, -⟩ | ⟨-, rfl⟩ | ⟨-, rfl⟩ | ⟨h, -, rfl⟩ | ⟨h, -, rfl⟩
    · exact htype
    all_goals cases hlevel
  · exact fun htype => ⟨_, mem_conceptIssues.mpr (.inl ⟨htype, rfl⟩), rfl⟩

/-- What is found in one concept, among concepts with ids of their own. -/
theorem count_flatMap_conceptIssues {cs : List (LoadedConcept τ)} (hnodup : (cs.map fun c => c.conceptId).Nodup)
    (hc : c ∈ cs) (hpath : issue.path = c.conceptId) :
    (cs.flatMap conceptIssues).count issue = (conceptIssues c).count issue := by
  have hother : ∀ c' : LoadedConcept τ, c'.conceptId ≠ c.conceptId → (conceptIssues c').count issue = 0 :=
    fun c' hne => List.count_eq_zero.mpr fun hmem => hne ((path_of_mem_conceptIssues hmem).symm.trans hpath)
  induction cs with
  | nil => cases hc
  | cons c' cs ih =>
    obtain ⟨hnew, hnodup⟩ := List.nodup_cons.mp hnodup
    rw [List.flatMap_cons, List.count_append]
    rcases List.mem_cons.mp hc with rfl | hc
    · have hrest : (cs.flatMap conceptIssues).count issue = 0 := by
        rw [List.count_eq_zero, List.mem_flatMap]
        rintro ⟨c', hc', hissue⟩
        refine List.count_eq_zero.mp (hother c' fun heq => hnew ?_) hissue
        exact List.mem_map.mpr ⟨c', hc', heq⟩
      rw [hrest, Nat.add_zero]
    · have hne : c'.conceptId ≠ c.conceptId := fun heq => hnew (List.mem_map.mpr ⟨c, hc, heq.symm⟩)
      rw [hother c' hne, ih hnodup hc, Nat.zero_add]

/-- The loop over concepts with ids of their own. -/
theorem foldl_visitConcept (cs : List (LoadedConcept τ)) (issues : List ValidationIssue)
    (seen : Dict String (List String)) (hnodup : (cs.map fun c => c.conceptId).Nodup)
    (hnew : ∀ c ∈ cs, c.conceptId ∉ seen.keys) :
    (cs.foldl (fun state c => visitConcept c state) (issues, seen)).1 = issues ++ cs.flatMap conceptIssues := by
  induction cs generalizing issues seen with
  | nil => simp
  | cons c cs ih =>
    obtain ⟨hc, hcs⟩ := List.nodup_cons.mp hnodup
    obtain ⟨hfirst, hrest⟩ := List.forall_mem_cons.mp hnew
    have hnone : seen.get? c.conceptId = none := by
      rwa [← Dict.isSome_get?_iff, Bool.not_eq_true, Option.isSome_eq_false_iff,
        Option.isNone_iff_eq_none] at hfirst
    rw [List.foldl_cons, visitConcept, hnone, ih _ _ hcs]
    · simp [conceptIssues]
    · intro c' hc'
      rw [Dict.mem_keys_insert]
      rintro (heq | hmem)
      · exact hc (List.mem_map.mpr ⟨c', hc', heq⟩)
      · exact hrest c' hc' hmem

end

-- ---------------------------------------------------------------------------
-- A bundle that was loaded
-- ---------------------------------------------------------------------------

theorem head?_idOf {parts : List Part} (hparts : ∀ part ∈ parts, FileSystem.IsFileName part) :
    (idOf parts).toList.head? ≠ some '/' := by
  have hjoin : (['/'].intercalate parts).head? ≠ some '/' := by
    cases parts with
    | nil => simp
    | cons part parts =>
      obtain ⟨⟨hne, -⟩, hslash, -⟩ := hparts part List.mem_cons_self
      cases part with
      | nil => exact absurd rfl hne
      | cons c part =>
        have hc : c ≠ '/' := fun heq => hslash (heq ▸ List.mem_cons_self)
        cases parts <;> simp [hc, List.intercalate]
  rw [idOf, String.toList_ofList, dropMd]
  split
  · rw [List.head?_take]
    split
    · simp
    · exact hjoin
  · exact hjoin

section
variable {env : Environment τ} {fs : FileSystem} {root : PurePath} {files : List Part → List UInt8 → Prop}
  {b : LoadedBundle τ} {c : LoadedConcept τ} {issue : ValidationIssue} {h : String}

theorem LoadedFrom.mem_values (hb : LoadedFrom env root files b) : c ∈ b.concepts.values ↔
    ∃ parts content c', files parts content ∧ parseConcept env (root.append parts) content = .ok c' ∧
      c = { c' with conceptId := idOf parts } := by
  rw [Dict.values, List.mem_map]
  constructor
  · rintro ⟨⟨id, c⟩, hentry, rfl⟩
    obtain ⟨parts, content, c', hfile, rfl, hparse, hc⟩ :=
      (hb.concepts id c).mp (Dict.get?_eq_some_iff.mpr hentry)
    exact ⟨parts, content, c', hfile, hparse, hc⟩
  · rintro ⟨parts, content, c', hfile, hparse, hc⟩
    exact ⟨(idOf parts, c),
      Dict.get?_eq_some_iff.mp ((hb.concepts _ c).mpr ⟨parts, content, c', hfile, rfl, hparse, hc⟩), rfl⟩

theorem LoadedFrom.nodup_ids (hb : LoadedFrom env root files b) :
    (b.concepts.values.map fun c => c.conceptId).Nodup := by
  have hids : b.concepts.values.map (fun c => c.conceptId) = b.concepts.keys := by
    rw [Dict.values, List.map_map]
    refine List.map_congr_left fun e he => ?_
    obtain ⟨parts, content, c', -, hid, -, hc⟩ := (hb.concepts e.1 e.2).mp (Dict.get?_eq_some_iff.mpr he)
    exact congrArg (fun c => c.conceptId) hc
  rw [hids]
  exact b.concepts.nodup

theorem LoadedFrom.linked (hb : LoadedFrom env root files b)
    (hroot : ∀ part ∈ root.parts, FileSystem.IsFileName part)
    (hfiles : ∀ parts content, files parts content → ∀ part ∈ parts, FileSystem.IsFileName part) : b.Linked where
  resolved part hpart := by
    rw [hb.root_eq] at hpart
    exact ⟨(hroot part hpart).1, (hroot part hpart).2.1⟩
  relative c hc := by
    obtain ⟨parts, content, c', hfile, -, rfl⟩ := hb.mem_values.mp hc
    exact head?_idOf (hfiles parts content hfile)

/-- What `validate_bundle` finds, in its order. -/
theorem LoadedFrom.issues (hb : LoadedFrom env root files b) (hlinked : b.Linked) :
    (validateBundle b hlinked).issues =
      b.errors.map (fun e => ⟨.error, e.1.str, .failedToParse e.2⟩) ++ b.concepts.values.flatMap conceptIssues ++
        (if "index" ∈ b.reserved then [] else [⟨.warning, root.str, .indexMissing⟩]) ++
        if (b.missedLinks hlinked).length ≠ 0 then
          [⟨.warning, root.str, .unresolvedLinks (b.missedLinks hlinked).length⟩] else [] := by
  have hloop := foldl_visitConcept b.concepts.values [] .empty hb.nodup_ids (by simp [Dict.keys, Dict.empty])
  have hcount : (OKFLinkResolver.new (b.linking hlinked)).edges.2.unresolvedCount =
      (b.missedLinks hlinked).length := by
    rw [edges_eq]
    exact Nat.zero_add _
  rw [validateBundle, hloop, hcount, hb.root_eq, List.nil_append]

theorem LoadedFrom.mem_issues (hb : LoadedFrom env root files b) (hlinked : b.Linked) :
    issue ∈ (validateBundle b hlinked).issues ↔
      (∃ e ∈ b.errors, ⟨.error, e.1.str, .failedToParse e.2⟩ = issue) ∨
      (∃ c ∈ b.concepts.values, issue ∈ conceptIssues c) ∨
      "index" ∉ b.reserved ∧ issue = ⟨.warning, root.str, .indexMissing⟩ ∨
      (b.missedLinks hlinked).length ≠ 0 ∧
        issue = ⟨.warning, root.str, .unresolvedLinks (b.missedLinks hlinked).length⟩ := by
  rw [hb.issues hlinked]
  simp only [List.mem_append, List.mem_map, List.mem_flatMap, List.mem_ite_nil_left, List.mem_ite_nil_right,
    List.mem_singleton, or_assoc]

theorem LoadedFrom.exists_mem_values (hb : LoadedFrom env root files b) {P : LoadedConcept τ → Prop} :
    (∃ c ∈ b.concepts.values, P c) ↔ ∃ parts content c, files parts content ∧
      parseConcept env (root.append parts) content = .ok c ∧ P { c with conceptId := idOf parts } := by
  constructor
  · rintro ⟨c, hc, hP⟩
    obtain ⟨parts, content, c', hfile, hparse, rfl⟩ := hb.mem_values.mp hc
    exact ⟨parts, content, c', hfile, hparse, hP⟩
  · rintro ⟨parts, content, c, hfile, hparse, hP⟩
    exact ⟨_, hb.mem_values.mpr ⟨parts, content, c, hfile, hparse, rfl⟩, hP⟩

theorem LoadedFrom.exists_error (hb : LoadedFrom env root files b) {P : PurePath × LoadError → Prop} :
    (∃ e ∈ b.errors, P e) ↔ ∃ parts content e, files parts content ∧
      parseConcept env (root.append parts) content = .error e ∧ P (root.append parts, e) := by
  constructor
  · rintro ⟨⟨path, e⟩, he, hP⟩
    obtain ⟨parts, content, hfile, rfl, hparse⟩ := (hb.errors path e).mp he
    exact ⟨parts, content, e, hfile, hparse, hP⟩
  · rintro ⟨parts, content, e, hfile, hparse, hP⟩
    exact ⟨_, (hb.errors _ e).mpr ⟨parts, content, hfile, rfl, hparse⟩, hP⟩

theorem LoadedFrom.index_mem_reserved (hb : LoadedFrom env root files b)
    (hfiles : ∀ parts content, files parts content → isMarkdown parts = true ∧ ∀ part ∈ parts, '/' ∉ part) :
    "index" ∈ b.reserved ↔ ∃ content c, files ["index.md".toList] content ∧
      parseConcept env (root.append ["index.md".toList]) content = .ok c := by
  rw [hb.reserved]
  constructor
  · rintro ⟨parts, content, c, hfile, hid, hparse, -⟩
    obtain ⟨hmd, hslash⟩ := hfiles parts content hfile
    have hparts : parts = ["index.md".toList] :=
      idOf_inj hslash (by decide) hmd (by decide) (hid.symm.trans (by decide))
    subst hparts
    exact ⟨content, c, hfile, hparse⟩
  · rintro ⟨content, c, hfile, hparse⟩
    exact ⟨_, content, c, hfile, by decide, hparse, by decide⟩

/-- A bundle is in order exactly if each file is a concept with a type. -/
theorem LoadedFrom.ok_iff (hb : LoadedFrom env root files b) (hlinked : b.Linked) :
    (validateBundle b hlinked).ok = true ↔ ∀ parts content, files parts content →
      ∃ c, parseConcept env (root.append parts) content = .ok c ∧ c.frontmatter.type ≠ "" := by
  have herror : (∃ issue ∈ (validateBundle b hlinked).issues, issue.level = .error) ↔
      (∃ e ∈ b.errors, True) ∨ ∃ c ∈ b.concepts.values, c.frontmatter.type = "" := by
    simp only [hb.mem_issues hlinked, ← error_mem_conceptIssues]
    constructor
    · rintro ⟨issue, ⟨e, he, -⟩ | ⟨c, hc, hissue⟩ | ⟨-, rfl⟩ | ⟨-, rfl⟩, hlevel⟩
      · exact .inl ⟨e, he, trivial⟩
      · exact .inr ⟨c, hc, issue, hissue, hlevel⟩
      all_goals cases hlevel
    · rintro (⟨e, he, -⟩ | ⟨c, hc, issue, hissue, hlevel⟩)
      · exact ⟨_, .inl ⟨e, he, rfl⟩, rfl⟩
      · exact ⟨issue, .inr (.inl ⟨c, hc, hissue⟩), hlevel⟩
  have hok : (validateBundle b hlinked).ok = true ↔
      ¬ ∃ issue ∈ (validateBundle b hlinked).issues, issue.level = .error := by
    simp [ValidationResult.ok]
  rw [hok, herror, hb.exists_error, hb.exists_mem_values, not_or]
  constructor
  · rintro ⟨hparses, htypes⟩ parts content hfile
    cases hparse : parseConcept env (root.append parts) content with
    | error e => exact absurd ⟨parts, content, e, hfile, hparse, trivial⟩ hparses
    | ok c => exact ⟨c, rfl, fun htype => htypes ⟨parts, content, c, hfile, hparse, htype⟩⟩
  · intro hall
    constructor
    · rintro ⟨parts, content, e, hfile, hparse, -⟩
      obtain ⟨c, hc, -⟩ := hall parts content hfile
      cases hc.symm.trans hparse
    · rintro ⟨parts, content, c, hfile, hparse, htype⟩
      obtain ⟨c', hc', hne⟩ := hall parts content hfile
      cases hc'.symm.trans hparse
      exact hne htype

/-- What is said of a heading is said by its concept. -/
theorem LoadedFrom.count_issues (hb : LoadedFrom env root files b) (hlinked : b.Linked)
    (hc : c ∈ b.concepts.values) {message : String → IssueMessage}
    (hmessage : message = .duplicateHeading ∨ message = .headingRepeated) :
    (validateBundle b hlinked).issues.count ⟨.warning, c.conceptId, message h⟩ =
      (conceptIssues c).count ⟨.warning, c.conceptId, message h⟩ := by
  have hunreadable : (b.errors.map fun e => (⟨.error, e.1.str, .failedToParse e.2⟩ : ValidationIssue)).count
      ⟨.warning, c.conceptId, message h⟩ = 0 := by
    rw [List.count_eq_zero, List.mem_map]
    rintro ⟨e, -, heq⟩
    cases heq
  have hconcepts : (b.concepts.values.flatMap conceptIssues).count ⟨.warning, c.conceptId, message h⟩ =
      (conceptIssues c).count ⟨.warning, c.conceptId, message h⟩ :=
    count_flatMap_conceptIssues hb.nodup_ids hc rfl
  rw [hb.issues hlinked]
  simp only [List.count_append, hunreadable, hconcepts]
  rcases hmessage with rfl | rfl <;> split <;> split <;> simp

end

-- ---------------------------------------------------------------------------
-- What is found
-- ---------------------------------------------------------------------------

/-- What is found in a bundle, by the files below its root. -/
structure FindsByFiles (env : Environment τ) (root : PurePath) (files : List Part → List UInt8 → Prop)
    (b : LoadedBundle τ) (hlinked : b.Linked) : Prop where
  ok : (validateBundle b hlinked).ok = true ↔ ∀ parts content, files parts content →
    ∃ c, parseConcept env (root.append parts) content = .ok c ∧ c.frontmatter.type ≠ ""
  unreadable : ∀ path e, ⟨.error, path, .failedToParse e⟩ ∈ (validateBundle b hlinked).issues ↔
    ∃ parts content, files parts content ∧ parseConcept env (root.append parts) content = .error e ∧
      (root.append parts).str = path
  untyped : ∀ path, ⟨.error, path, .typeEmpty⟩ ∈ (validateBundle b hlinked).issues ↔
    ∃ parts content c, files parts content ∧ parseConcept env (root.append parts) content = .ok c ∧
      c.frontmatter.type = "" ∧ path = idOf parts
  bodyless : ∀ path, ⟨.warning, path, .bodyEmpty⟩ ∈ (validateBundle b hlinked).issues ↔
    ∃ parts content c, files parts content ∧ parseConcept env (root.append parts) content = .ok c ∧
      strip c.body = "" ∧ path = idOf parts
  untitled : ∀ path, ⟨.warning, path, .untitled⟩ ∈ (validateBundle b hlinked).issues ↔
    ∃ parts content c, files parts content ∧ parseConcept env (root.append parts) content = .ok c ∧
      (c.frontmatter.title.getD "" = "" ∧ c.frontmatter.description.getD "" = "") ∧ path = idOf parts
  repeats : ∀ parts content c h, files parts content → parseConcept env (root.append parts) content = .ok c →
    h ≠ "" →
      (validateBundle b hlinked).issues.count ⟨.warning, idOf parts, .duplicateHeading h⟩ =
          (headings c).count h - 1 ∧
        (validateBundle b hlinked).issues.count ⟨.warning, idOf parts, .headingRepeated h⟩ =
          (headings c).count h - 1
  index : ∀ path, ⟨.warning, path, .indexMissing⟩ ∈ (validateBundle b hlinked).issues ↔
    (¬ ∃ content c, files ["index.md".toList] content ∧
      parseConcept env (root.append ["index.md".toList]) content = .ok c) ∧ path = root.str
  links : ∀ path n, ⟨.warning, path, .unresolvedLinks n⟩ ∈ (validateBundle b hlinked).issues ↔
    (b.missedLinks hlinked).length ≠ 0 ∧ path = root.str ∧ n = (b.missedLinks hlinked).length

/-- What the validator finds is what the files of the bundle say. -/
theorem validation_by_files (env : Environment τ) (fs : FileSystem) (root : PurePath) (b : LoadedBundle τ)
    (hfs : fs.Clean) (hroot : FileSystem.Proper root) (hdir : fs.node? (fs.lexical root) = some .directory)
    (hload : loadBundle env fs root = .ok b) :
    ∃ hlinked : b.Linked, FindsByFiles env (fs.resolve root) (MarkdownAt fs (fs.lexical root)) b hlinked := by
  have hb := loaded_of_loadBundle hfs hroot hdir hload
  have hnames : ∀ parts content, MarkdownAt fs (fs.lexical root) parts content →
      ∀ part ∈ parts, FileSystem.IsFileName part :=
    fun parts content hat part hpart => hfs.names _ _ hat.2 part (List.mem_append_right _ hpart)
  have hlinked := hb.linked (hfs.lexical hroot) hnames
  refine ⟨hlinked, ?_⟩
  constructor
  case ok => exact hb.ok_iff hlinked
  case unreadable =>
    intro path e
    rw [hb.mem_issues hlinked, hb.exists_error]
    simp [mem_conceptIssues]
  case untyped =>
    intro path
    rw [hb.mem_issues hlinked, hb.exists_mem_values]
    simp [mem_conceptIssues]
  case bodyless =>
    intro path
    rw [hb.mem_issues hlinked, hb.exists_mem_values]
    simp [mem_conceptIssues]
  case untitled =>
    intro path
    rw [hb.mem_issues hlinked, hb.exists_mem_values]
    simp [mem_conceptIssues]
  case repeats =>
    intro parts content c h hat hparse hne
    have hc := hb.mem_values.mpr ⟨parts, content, c, hat, hparse, rfl⟩
    have hcounts := count_conceptIssues (c := { c with conceptId := idOf parts }) hne
    exact ⟨(hb.count_issues hlinked hc (.inl rfl)).trans hcounts.1,
      (hb.count_issues hlinked hc (.inr rfl)).trans hcounts.2⟩
  case index =>
    intro path
    have hindex := hb.index_mem_reserved fun parts content hat =>
      ⟨hat.1, fun part hpart => (hnames parts content hat part hpart).2.1⟩
    rw [hb.mem_issues hlinked, ← hindex]
    simp [mem_conceptIssues]
  case links =>
    intro path n
    rw [hb.mem_issues hlinked]
    simp [mem_conceptIssues]

theorem validation_by_files_smoke : ∃ b, ∃ hlinked : b.Linked,
    loadBundle smokeEnvironment smokeTree (.ofText "/kb".toList) = .ok b ∧
      ⟨.warning, "/kb", .indexMissing⟩ ∈ (validateBundle b hlinked).issues := by
  obtain ⟨b, hb, -⟩ := exists_bundle_smoke
  obtain ⟨hlinked, hfinds⟩ := validation_by_files smokeEnvironment smokeTree (.ofText "/kb".toList) b
    clean_smoke proper_smoke directory_smoke hb
  refine ⟨b, hlinked, hb, (hfinds.index "/kb").mpr ⟨?_, by decide +kernel⟩⟩
  rintro ⟨content, c, ⟨-, hnode⟩, -⟩
  have hnone : smokeTree.node? (smokeTree.lexical (.ofText "/kb".toList) ++ ["index.md".toList]) = none := by
    decide +kernel
  cases hnone.symm.trans hnode

end Intelliqx.Okf
