import Intelliqx.Okf.LinkPaths

/-!
# Links between concepts

`OKFLinkResolver.edges` takes a link as it is written, without `./` and
`.md`. POSIX rules collapse `..` as well. `edges_exact_iff` says when the
two find the same concepts, and when the counter counts one call.
-/

namespace Intelliqx.Okf

open Py

structure OKFLink where
  text : String
  target : String
  deriving DecidableEq, Repr

/-- What the resolver reads of a concept. -/
structure LinkingConcept where
  conceptId : String
  links : List OKFLink
  deriving DecidableEq, Repr

structure OKFEdge where
  source : String
  target : String
  text : String
  deriving DecidableEq, Repr

/-- A loaded bundle: the root is a resolved path, and the id of a concept is a path below it. -/
structure OKFBundle where
  root : List Part
  concepts : Dict String LinkingConcept
  resolved : ∀ part ∈ root, IsName part ∧ '/' ∉ part
  relative : ∀ concept ∈ concepts.values, concept.conceptId.toList.head? ≠ some '/'

/-- Each link with the id of the concept it is in. -/
def OKFBundle.links (b : OKFBundle) : List (String × OKFLink) :=
  b.concepts.values.flatMap fun concept => concept.links.map fun link => (concept.conceptId, link)

-- ---------------------------------------------------------------------------
-- The resolver
-- ---------------------------------------------------------------------------

def externalSchemes : List String := ["http://", "https://", "file://", "mailto:"]

def isInternal (target : String) : Bool :=
  target ≠ "" && !externalSchemes.any fun scheme => scheme.toList.isPrefixOf target.toList

def isAbsolute (target : String) : Bool := target.toList.head? = some '/'

/-- The directory of a concept. -/
def sourceDir (sourceId : String) : PurePath := (PurePath.ofText sourceId.toList).parent

def targetId (sourceId target : String) : String :=
  let id := if isAbsolute target then target.toList.dropWhile fun c => c = '/'
    else ((sourceDir sourceId).join target.toList).str.toList
  .ofList (normalisePath (dropMd id))

structure OKFLinkResolver where
  bundle : OKFBundle
  unresolvedCount : Nat

namespace OKFLinkResolver

def new (bundle : OKFBundle) : OKFLinkResolver := ⟨bundle, 0⟩

/-- The body of the inner loop. -/
def visit (r : OKFLinkResolver) (sourceId : String) (link : OKFLink) : Option OKFEdge × OKFLinkResolver :=
  if ¬ isInternal link.target then (none, r)
  else if targetId sourceId link.target ∉ r.bundle.concepts.keys then
    (none, { r with unresolvedCount := r.unresolvedCount + 1 })
  else (some ⟨sourceId, targetId sourceId link.target, link.text⟩, r)

def edges (r : OKFLinkResolver) : List OKFEdge × OKFLinkResolver :=
  r.bundle.concepts.values.foldl (fun state concept => concept.links.foldl (fun state link =>
    let visited := state.2.visit concept.conceptId link
    (state.1 ++ visited.1.toList, visited.2)) state) ([], r)

end OKFLinkResolver

-- ---------------------------------------------------------------------------
-- POSIX rules
-- ---------------------------------------------------------------------------

/-- Where a link leads to from the root of the bundle, if it leads below it. -/
def resolvedParts (root : List Part) (sourceId target : String) : Option (List Part) :=
  let base := if isAbsolute target then [] else (sourceDir sourceId).parts
  let loc := collapse (root ++ (base ++ target.toList.splitOn '/'))
  if root <+: loc ∧ loc ≠ root then some (loc.drop root.length) else none

def resolvedId (root : List Part) (sourceId target : String) : Option String :=
  (resolvedParts root sourceId target).map fun parts => .ofList (dropMd (['/'].intercalate parts))

namespace OKFBundle

/-- The concept that an internal link leads to. -/
def target? (b : OKFBundle) (sourceId target : String) : Option String :=
  (resolvedId b.root sourceId target).filter fun id => decide (id ∈ b.concepts.keys)

def edge? (b : OKFBundle) (sourceId : String) (link : OKFLink) : Option OKFEdge :=
  if isInternal link.target then (b.target? sourceId link.target).map fun id => ⟨sourceId, id, link.text⟩ else none

def unresolved (b : OKFBundle) : List (String × OKFLink) :=
  b.links.filter fun l => isInternal l.2.target && (b.target? l.1 l.2.target).isNone

end OKFBundle

/-- Each link has the edge it should have, and the counter counts the internal links without one. -/
structure EdgesExact (r : OKFLinkResolver) : Prop where
  each : ∀ l ∈ r.bundle.links, (r.visit l.1 l.2).1 = r.bundle.edge? l.1 l.2
  edges : r.edges.1 = r.bundle.links.filterMap fun l => r.bundle.edge? l.1 l.2
  count : r.edges.2.unresolvedCount = r.bundle.unresolved.length

-- ---------------------------------------------------------------------------
-- Links as they are written
-- ---------------------------------------------------------------------------

/-- The components of a link as they stand, behind the directory of a relative one. Dots and empty
components go, but the last component and the empty ones of an absolute link stay. -/
def writtenParts (sourceId target : String) : List Part :=
  if isAbsolute target then
    let parts := (target.toList.dropWhile fun c => c = '/').splitOn '/'
    (parts.dropLast.filter fun part => part ≠ dot) ++ parts.getLast?.toList
  else (sourceDir sourceId).parts ++ (target.toList.splitOn '/').filter fun part => part ≠ [] ∧ part ≠ dot

def writtenId (sourceId target : String) : String :=
  let parts := writtenParts sourceId target
  if parts = [] then "." else .ofList (dropMd (['/'].intercalate parts))

/-- Nothing is left to collapse. -/
def PlainLink (sourceId target : String) : Prop :=
  writtenParts sourceId target ≠ [] ∧ ∀ part ∈ writtenParts sourceId target, IsName part

/-- A link is plain, or there is no concept where it leads to and none that is called as it is written. -/
def ResolvesAsWritten (b : OKFBundle) (sourceId target : String) : Prop :=
  PlainLink sourceId target ∨ b.target? sourceId target = none ∧ writtenId sourceId target ∉ b.concepts.keys

section
variable {b : OKFBundle} {r : OKFLinkResolver} {sourceId target : String} {l : String × OKFLink}

theorem exists_last {parts : List α} (h : parts ≠ []) : ∃ front last, parts = front ++ [last] :=
  ⟨parts.dropLast, parts.getLast h, (List.dropLast_append_getLast h).symm⟩

theorem writtenParts_absolute (sourceId : String) (h : isAbsolute target) : ∃ front last,
    (target.toList.dropWhile fun c => c = '/').splitOn '/' = front ++ [last] ∧
      writtenParts sourceId target = front.filter (fun part => part ≠ dot) ++ [last] := by
  obtain ⟨front, last, hsplit⟩ := exists_last (List.splitOn_ne_nil '/' (target.toList.dropWhile fun c => c = '/'))
  refine ⟨front, last, hsplit, ?_⟩
  rw [writtenParts, if_pos h]
  simp only [hsplit]
  simp

theorem slash_not_mem_ofText {text : List Char} {part : Part} (h : part ∈ (PurePath.ofText text).parts) :
    '/' ∉ part := by
  exact slash_not_mem_of_splitOn (List.mem_of_mem_filter h)

theorem slash_not_mem_writtenParts {part : Part} (h : part ∈ writtenParts sourceId target) : '/' ∉ part := by
  by_cases habs : isAbsolute target
  · obtain ⟨front, last, hsplit, hwritten⟩ := writtenParts_absolute sourceId habs
    rw [hwritten] at h
    have hpart : part ∈ front ++ [last] := (List.mem_append.mp h).elim
      (fun hfront => List.mem_append_left _ (List.mem_of_mem_filter hfront)) (List.mem_append_right front)
    exact slash_not_mem_of_splitOn (hsplit ▸ hpart)
  · rw [writtenParts, if_neg habs] at h
    rcases List.mem_append.mp h with hdir | hname
    · exact slash_not_mem_ofText (List.mem_of_mem_dropLast hdir)
    · exact slash_not_mem_of_splitOn (List.mem_of_mem_filter hname)

theorem slash_not_mem_dropMd {front : List Part} {last : Part} (h : ∀ part ∈ front ++ [last], '/' ∉ part) :
    ∀ part ∈ front ++ [dropMd last], '/' ∉ part := by
  intro part hpart
  rcases List.mem_append.mp hpart with hfront | hlast
  · exact h part (List.mem_append_left _ hfront)
  · rw [List.mem_singleton.mp hlast, dropMd]
    split
    · exact fun hmem => h last (by simp) (List.mem_of_mem_take hmem)
    · exact h last (by simp)

theorem join_relative (hsource : sourceId.toList.head? ≠ some '/') (hrel : ¬ isAbsolute target) :
    (sourceDir sourceId).join target.toList = ⟨.none, writtenParts sourceId target⟩ := by
  have htarget : target.toList.head? ≠ some '/' := fun h => hrel (decide_eq_true h)
  have hroot : (sourceDir sourceId).root = .none := by
    rw [sourceDir, PurePath.parent, PurePath.ofText, PurePath.splitroot_of_no_slash hsource]
  have hnames : PurePath.ofText target.toList =
      ⟨.none, (target.toList.splitOn '/').filter fun part => part ≠ [] ∧ part ≠ dot⟩ := by
    rw [PurePath.ofText, PurePath.splitroot_of_no_slash htarget]
  rw [PurePath.join_of_relative (by rw [hnames]), PurePath.append, hnames, writtenParts, if_neg hrel, ← hroot]

theorem dot_not_mem_writtenParts (sourceId : String) (hrel : ¬ isAbsolute target) :
    ∀ part ∈ writtenParts sourceId target, part ≠ dot := by
  intro part h
  rw [writtenParts, if_neg hrel] at h
  rcases List.mem_append.mp h with hdir | hname
  · have hmem : part ∈ (PurePath.ofText sourceId.toList).parts := List.mem_of_mem_dropLast hdir
    exact (of_decide_eq_true (List.mem_filter.mp hmem).2).2
  · exact (of_decide_eq_true (List.mem_filter.mp hname).2).2

/-- The id the code looks up is the link as it is written. -/
theorem targetId_eq_writtenId (hsource : sourceId.toList.head? ≠ some '/') :
    targetId sourceId target = writtenId sourceId target := by
  by_cases habs : isAbsolute target
  · obtain ⟨front, last, hsplit, hwritten⟩ := writtenParts_absolute sourceId habs
    have hparts := slash_not_mem_dropMd fun part h => slash_not_mem_of_splitOn (hsplit ▸ h)
    rw [targetId, if_pos habs, writtenId, hwritten, if_neg (by simp), dropMd_join, ← normalisePath_join _ hparts,
      ← dropMd_join, ← hsplit, List.intercalate_splitOn]
  · rw [targetId, if_neg habs, join_relative hsource habs, writtenId, PurePath.str]
    by_cases hnil : writtenParts sourceId target = []
    · rw [hnil]
      rfl
    · obtain ⟨front, last, hparts⟩ := exists_last hnil
      have hdots : front.filter (fun part => part ≠ dot) = front := by
        refine List.filter_eq_self.mpr fun part h => ?_
        refine decide_eq_true (dot_not_mem_writtenParts sourceId habs part ?_)
        rw [hparts]
        exact List.mem_append_left _ h
      have hslash := slash_not_mem_dropMd fun part h => slash_not_mem_writtenParts (hparts ▸ h)
      rw [if_neg fun h => hnil h.2, if_neg hnil, String.toList_ofList, hparts]
      change String.ofList (normalisePath (dropMd (['/'].intercalate (front ++ [last])))) = _
      rw [dropMd_join, normalisePath_join _ hslash, hdots]

-- ---------------------------------------------------------------------------
-- Where links lead
-- ---------------------------------------------------------------------------

theorem foldl_collapseStep_slashes (text : List Char) (loc : List Part) :
    ((text.dropWhile fun c => c = '/').splitOn '/').foldl collapseStep loc =
      (text.splitOn '/').foldl collapseStep loc := by
  induction text with
  | nil => rfl
  | cons c text ih =>
    by_cases hc : c = '/'
    · subst hc
      rw [List.dropWhile_cons_of_pos (by simp), ih, List.splitOn_cons_eq_if_modifyHead,
        if_pos (beq_self_eq_true '/'), List.foldl_cons]
      rfl
    · rw [List.dropWhile_cons_of_neg (by simpa using hc)]

/-- The components that are not written lead nowhere. -/
theorem collapse_writtenParts (root : List Part) (sourceId target : String) :
    collapse (root ++ ((if isAbsolute target then [] else (sourceDir sourceId).parts) ++ target.toList.splitOn '/')) =
      collapse (root ++ writtenParts sourceId target) := by
  rw [collapse_append, collapse_append]
  by_cases habs : isAbsolute target
  · obtain ⟨front, last, hsplit, hwritten⟩ := writtenParts_absolute sourceId habs
    rw [if_pos habs, List.nil_append, ← foldl_collapseStep_slashes, hsplit, hwritten, List.foldl_append,
      List.foldl_append, foldl_collapseStep_filter]
    intro part hpart
    exact .inr (by simpa using hpart)
  · rw [if_neg habs, writtenParts, if_neg habs, List.foldl_append, List.foldl_append, foldl_collapseStep_filter]
    intro part hpart
    by_contra hkeep
    exact hpart (decide_eq_true (not_or.mp hkeep))

theorem resolvedParts_eq (root : List Part) (sourceId target : String) : resolvedParts root sourceId target =
    if root <+: collapse (root ++ writtenParts sourceId target) ∧
        collapse (root ++ writtenParts sourceId target) ≠ root then
      some ((collapse (root ++ writtenParts sourceId target)).drop root.length) else none := by
  rw [← collapse_writtenParts]
  rfl

theorem resolvedId_plain (hroot : ∀ part ∈ root, IsName part) (h : PlainLink sourceId target) :
    resolvedId root sourceId target = some (writtenId sourceId target) := by
  have hcollapse : collapse (root ++ writtenParts sourceId target) = root ++ writtenParts sourceId target :=
    collapse_names fun part hpart => (List.mem_append.mp hpart).elim (hroot part) (h.2 part)
  rw [resolvedId, resolvedParts_eq, hcollapse, if_pos ⟨List.prefix_append _ _, by simpa using h.1⟩, List.drop_left,
    Option.map_some, writtenId, if_neg h.1]

/-- A component that is no name leads to no place below. -/
theorem ne_collapse_of_not_name {parts : List Part} {last last' : Part} (hparts : ∀ part ∈ parts, IsName part)
    (hlast : ¬ IsName last) : parts ++ [last'] ≠ collapse (parts ++ [last]) := by
  rw [collapse_append, collapse_names hparts]
  intro h
  have hlen := congrArg List.length h
  rw [List.foldl_cons, List.foldl_nil, collapseStep, List.length_append, List.length_singleton] at hlen
  split at hlen
  · omega
  · rename_i hdot
    split at hlen
    · rw [List.length_dropLast] at hlen
      omega
    · rename_i hdots
      exact hlast ⟨fun he => hdot (.inl he), fun he => hdot (.inr he), hdots⟩

/-- Where something is left to collapse, a link leads elsewhere than it says. -/
theorem ne_writtenId_of_resolved (hroot : ∀ part ∈ root, IsName part ∧ '/' ∉ part)
    (h : ¬ PlainLink sourceId target) (hid : resolvedId root sourceId target = some resolved) :
    resolved ≠ writtenId sourceId target := by
  obtain ⟨found, hfound, rfl⟩ := Option.map_eq_some_iff.mp hid
  rw [resolvedParts_eq] at hfound
  split at hfound
  · rename_i hbelow
    obtain ⟨⟨below, hloc⟩, hne⟩ := hbelow
    rw [← hloc] at hfound hne
    rw [List.drop_left] at hfound
    cases hfound
    obtain ⟨front, last, rfl⟩ := exists_last (show found ≠ [] by simpa using hne)
    have hwritten : writtenParts sourceId target ≠ [] := by
      intro hnil
      rw [hnil, List.append_nil, collapse_names fun part hpart => (hroot part hpart).1] at hloc
      exact hne hloc
    obtain ⟨wfront, wlast, hparts⟩ := exists_last hwritten
    intro heq
    rw [writtenId, if_neg hwritten, hparts, dropMd_join, dropMd_join, String.ofList_inj] at heq
    have hfound : ∀ part ∈ front ++ [last], IsName part ∧ '/' ∉ part := by
      intro part hpart
      have hmem : part ∈ collapse (root ++ writtenParts sourceId target) :=
        hloc ▸ List.mem_append_right _ hpart
      exact ⟨isName_collapse _ part hmem,
        (List.mem_append.mp (mem_of_mem_collapse hmem)).elim (fun h => (hroot part h).2) slash_not_mem_writtenParts⟩
    have hsplit := congrArg (List.splitOn '/') heq
    rw [List.splitOn_intercalate _ (slash_not_mem_dropMd fun part h => (hfound part h).2) (by simp),
      List.splitOn_intercalate _ (slash_not_mem_dropMd fun part h => slash_not_mem_writtenParts (hparts ▸ h)) (by simp)]
      at hsplit
    obtain ⟨rfl, -⟩ := List.append_inj' hsplit rfl
    have hfront : ∀ part ∈ front, IsName part := fun part hpart => (hfound part (List.mem_append_left _ hpart)).1
    have hlast : ¬ IsName wlast := by
      refine fun hname => h ⟨hwritten, fun part hpart => ?_⟩
      rw [hparts] at hpart
      rcases List.mem_append.mp hpart with hpart | hpart
      · exact hfront part hpart
      · rwa [List.mem_singleton.mp hpart]
    rw [hparts, ← List.append_assoc, ← List.append_assoc] at hloc
    exact ne_collapse_of_not_name
      (fun part hpart => (List.mem_append.mp hpart).elim (fun hr => (hroot part hr).1) (hfront part)) hlast hloc
  · cases hfound

-- ---------------------------------------------------------------------------
-- One call and many
-- ---------------------------------------------------------------------------

/-- An internal link that the code finds no concept for. -/
def OKFBundle.missed (b : OKFBundle) (l : String × OKFLink) : Bool :=
  isInternal l.2.target && decide (targetId l.1 l.2.target ∉ b.concepts.keys)

theorem visit_eq (r : OKFLinkResolver) (l : String × OKFLink) : r.visit l.1 l.2 =
    (((OKFLinkResolver.new r.bundle).visit l.1 l.2).1,
      ⟨r.bundle, r.unresolvedCount + if r.bundle.missed l then 1 else 0⟩) := by
  unfold OKFLinkResolver.visit OKFBundle.missed
  split
  · rename_i hint
    simp [hint]
  · rename_i hint
    split
    · rename_i hmem
      simp [hint, hmem, OKFLinkResolver.new]
    · rename_i hmem
      simp [hmem, OKFLinkResolver.new]

theorem foldl_visit (ls : List (String × OKFLink)) (out : List OKFEdge) (r : OKFLinkResolver) :
    ls.foldl (fun state l => (state.1 ++ (state.2.visit l.1 l.2).1.toList, (state.2.visit l.1 l.2).2)) (out, r) =
      (out ++ ls.filterMap (fun l => ((OKFLinkResolver.new r.bundle).visit l.1 l.2).1),
        ⟨r.bundle, r.unresolvedCount + (ls.filter r.bundle.missed).length⟩) := by
  induction ls generalizing out r with
  | nil => simp
  | cons l ls ih =>
    rw [List.foldl_cons, ih, visit_eq r l]
    refine Prod.ext ?_ ?_
    · cases hedge : ((OKFLinkResolver.new r.bundle).visit l.1 l.2).1 <;> simp [hedge]
    · by_cases hmissed : r.bundle.missed l <;> simp [hmissed, Nat.add_assoc, Nat.add_comm]

theorem edges_eq (r : OKFLinkResolver) :
    r.edges = (r.bundle.links.filterMap (fun l => ((OKFLinkResolver.new r.bundle).visit l.1 l.2).1),
      ⟨r.bundle, r.unresolvedCount + (r.bundle.links.filter r.bundle.missed).length⟩) := by
  have hflat := foldl_visit r.bundle.links [] r
  rw [OKFBundle.links, List.foldl_flatMap] at hflat
  simp only [List.foldl_map, List.nil_append] at hflat
  exact hflat

/-- The resolver after `k` calls. -/
def calls (b : OKFBundle) : Nat → OKFLinkResolver
  | 0 => .new b
  | k + 1 => (calls b k).edges.2

theorem calls_eq (b : OKFBundle) (k : Nat) : calls b k = ⟨b, k * (b.links.filter b.missed).length⟩ := by
  induction k with
  | zero => simp [calls, OKFLinkResolver.new]
  | succ k ih => rw [calls, ih, edges_eq, Nat.succ_mul]

theorem source_relative (hl : l ∈ b.links) : l.1.toList.head? ≠ some '/' := by
  obtain ⟨concept, hconcept, hl⟩ := List.mem_flatMap.mp hl
  obtain ⟨link, -, rfl⟩ := List.mem_map.mp hl
  exact b.relative concept hconcept

theorem target?_eq_some : b.target? sourceId target = some resolved ↔
    resolvedId b.root sourceId target = some resolved ∧ resolved ∈ b.concepts.keys := by
  simp [OKFBundle.target?, Option.filter_eq_some_iff]

theorem visit_internal (b : OKFBundle) (hint : isInternal l.2.target) :
    ((OKFLinkResolver.new b).visit l.1 l.2).1 = if targetId l.1 l.2.target ∈ b.concepts.keys then
      some ⟨l.1, targetId l.1 l.2.target, l.2.text⟩ else none := by
  rw [OKFLinkResolver.visit, if_neg (not_not.mpr hint)]
  by_cases hmem : targetId l.1 l.2.target ∈ b.concepts.keys <;> simp [hmem, OKFLinkResolver.new]

theorem visit_external (b : OKFBundle) (hint : ¬ isInternal l.2.target) :
    ((OKFLinkResolver.new b).visit l.1 l.2).1 = none := by
  rw [OKFLinkResolver.visit, if_pos hint]

theorem edge?_internal (b : OKFBundle) (hint : isInternal l.2.target) :
    b.edge? l.1 l.2 = (b.target? l.1 l.2.target).map fun id => ⟨l.1, id, l.2.text⟩ := if_pos hint

/-- A link has the edge it should have exactly if it resolves as it is written. -/
theorem visit_eq_edge_iff (hl : l ∈ b.links) (hint : isInternal l.2.target) :
    ((OKFLinkResolver.new b).visit l.1 l.2).1 = b.edge? l.1 l.2 ↔ ResolvesAsWritten b l.1 l.2.target := by
  rw [visit_internal b hint, edge?_internal b hint, targetId_eq_writtenId (source_relative hl)]
  by_cases hmem : writtenId l.1 l.2.target ∈ b.concepts.keys
  · rw [if_pos hmem]
    constructor
    · intro hedge
      by_contra hbad
      obtain ⟨resolved, htarget, hsame⟩ := Option.map_eq_some_iff.mp hedge.symm
      have hplain : ¬ PlainLink l.1 l.2.target := fun h => hbad (.inl h)
      exact ne_writtenId_of_resolved b.resolved hplain (target?_eq_some.mp htarget).1 (congrArg OKFEdge.target hsame)
    · rintro (hplain | ⟨-, hnone⟩)
      · have hid := resolvedId_plain (fun part h => (b.resolved part h).1) hplain
        rw [target?_eq_some.mpr ⟨hid, hmem⟩, Option.map_some]
      · exact absurd hmem hnone
  · rw [if_neg hmem]
    constructor
    · exact fun hedge => .inr ⟨Option.map_eq_none_iff.mp hedge.symm, hmem⟩
    · rintro (hplain | ⟨hnone, -⟩)
      · have hid := resolvedId_plain (fun part h => (b.resolved part h).1) hplain
        have hnone : b.target? l.1 l.2.target = none := by
          rw [OKFBundle.target?, hid, Option.filter_some, if_neg (by simpa using hmem)]
        rw [hnone, Option.map_none]
      · rw [hnone, Option.map_none]

theorem visit_eq_edge_of_external (hint : ¬ isInternal l.2.target) :
    ((OKFLinkResolver.new b).visit l.1 l.2).1 = b.edge? l.1 l.2 := by
  rw [visit_external b hint, OKFBundle.edge?, if_neg hint]

/-- The counter counts the internal links without an edge. -/
theorem filter_missed (h : ∀ l ∈ b.links, ((OKFLinkResolver.new b).visit l.1 l.2).1 = b.edge? l.1 l.2) :
    b.links.filter b.missed = b.unresolved := by
  refine List.filter_congr fun l hl => ?_
  have hl := h l hl
  by_cases hint : isInternal l.2.target
  · rw [visit_internal b hint, edge?_internal b hint] at hl
    rw [OKFBundle.missed, hint, Bool.true_and, Bool.true_and]
    split at hl
    · rename_i hmem
      obtain ⟨id, hid, -⟩ := Option.map_eq_some_iff.mp hl.symm
      simp [hmem, hid]
    · rename_i hmem
      simp [hmem, Option.map_eq_none_iff.mp hl.symm]
  · simp [OKFBundle.missed, hint]

/-- Every call gives each internal link its edge and counts the other internal links, exactly if each link
resolves as it is written and it is the first call or there is nothing to count. -/
theorem edges_exact_iff (b : OKFBundle) (k : Nat) : EdgesExact (calls b k) ↔
    (∀ l ∈ b.links, isInternal l.2.target → ResolvesAsWritten b l.1 l.2.target) ∧
      (k = 0 ∨ b.unresolved = []) := by
  have heach : (∀ l ∈ b.links, ((OKFLinkResolver.new b).visit l.1 l.2).1 = b.edge? l.1 l.2) ↔
      ∀ l ∈ b.links, isInternal l.2.target → ResolvesAsWritten b l.1 l.2.target := by
    refine forall₂_congr fun l hl => ?_
    by_cases hint : isInternal l.2.target
    · simpa [hint] using visit_eq_edge_iff hl hint
    · simpa [hint] using visit_eq_edge_of_external hint
  have hvisit : ∀ l : String × OKFLink, ((calls b k).visit l.1 l.2).1 = ((OKFLinkResolver.new b).visit l.1 l.2).1 := by
    intro l
    rw [calls_eq, visit_eq]
  have hbundle : (calls b k).bundle = b := by rw [calls_eq]
  rw [← heach]
  constructor
  · rintro ⟨hfirst, -, hcount⟩
    simp only [hbundle, hvisit] at hfirst
    refine ⟨hfirst, ?_⟩
    rw [edges_eq, calls_eq] at hcount
    simp only [filter_missed hfirst] at hcount
    have hzero : k * b.unresolved.length = 0 := by omega
    exact (Nat.mul_eq_zero.mp hzero).imp id List.length_eq_zero_iff.mp
  · rintro ⟨hfirst, hcalls⟩
    refine ⟨by simpa only [hbundle, hvisit] using hfirst, ?_, ?_⟩
    · rw [edges_eq, hbundle]
      exact List.filterMap_congr hfirst
    · rw [edges_eq, calls_eq]
      simp only [filter_missed hfirst]
      rcases hcalls with rfl | hnil
      · simp
      · simp [hnil]

/-- `a/b` links to `../c.md`, and there is a concept `c`. -/
def linkedUp : OKFBundle where
  root := [['r']]
  concepts := Dict.ofList [("a/b", ⟨"a/b", [⟨"up", "../c.md"⟩]⟩), ("c", ⟨"c", []⟩)]
  resolved := by decide
  relative := by decide

/-- The link up finds nothing, and a second call would count it again. -/
theorem link_up_lost : ¬ EdgesExact (calls linkedUp 0) ∧ linkedUp.unresolved = [] ∧
    (calls linkedUp 1).unresolvedCount = 1 ∧ (calls linkedUp 2).unresolvedCount = 2 := by
  have hedges : (calls linkedUp 0).edges.1 ≠
      (calls linkedUp 0).bundle.links.filterMap fun l => (calls linkedUp 0).bundle.edge? l.1 l.2 := by decide +kernel
  exact ⟨fun h => hedges h.edges, by decide +kernel, by decide +kernel, by decide +kernel⟩

end

end Intelliqx.Okf
