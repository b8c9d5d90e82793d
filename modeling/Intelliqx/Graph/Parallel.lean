import Intelliqx.Graph.Layering
import Mathlib.Data.Finset.Sort
import Mathlib.Data.String.Basic

/-!
# Independent branches

`parallelize_independent_branches` reports the levels of the acyclic layers
and the strongly connected components of all layers. The nodes of a level do
not reach each other; those of a component all do, so a component is a group
of independent nodes only by way of another layer (`groups_independent_iff`).
-/

namespace Intelliqx.Graph

open Intelliqx.Digraph

def minParallelBranchSize : Nat := 2

def GraphIndex.getGraph (index : GraphIndex) (layer : GraphLayer) : Option SGIRGraph :=
  index.graph.getLayer layer

-- ---------------------------------------------------------------------------
-- parallelize_independent_branches
-- ---------------------------------------------------------------------------

structure Branches where
  seen : Finset (Finset String) := ∅
  deduped : List (List String) := []

def Branches.add (s : Branches) (branch : Finset String) : Branches :=
  if minParallelBranchSize ≤ branch.card ∧ branch ∉ s.seen then
    ⟨insert branch s.seen, s.deduped ++ [branch.sort]⟩
  else s

/-- The sets a layer's graph offers: its levels when it has no cycle, and its components. -/
def candidateBranches (nx : Networkx) (l : SGIRGraph) : List (Finset String) :=
  (if isAcyclic l.edgePairs then parallelLevels (graphNodes l) l.edgePairs else []) ++
    (nx.stronglyConnectedComponents (graphNodes l) l.edgePairs).map List.toFinset

/-- The index's graph of the layer, else the layer's own. -/
def indexedLayer (index : Option GraphIndex) (l : SGIRGraph) : SGIRGraph :=
  (index.bind fun index => index.getGraph l.layer).getD l

def parallelizeIndependentBranches (nx : Networkx) (g : SoftwareGraph) (index : Option GraphIndex) :
    List (List String) :=
  (g.layers.foldl (fun s l => (candidateBranches nx (indexedLayer index l)).foldl Branches.add s) {}).deduped

-- ---------------------------------------------------------------------------
-- The groups
-- ---------------------------------------------------------------------------

section
variable {branches : List (Finset String)} {s : Branches} {group : List String}

/-- Every set that was seen is in the list, sorted. -/
def Branches.Kept (s : Branches) : Prop :=
  ∀ group, group ∈ s.deduped ↔ ∃ branch ∈ s.seen, branch.sort = group

theorem Branches.kept_add (h : s.Kept) (branch : Finset String) : (s.add branch).Kept := by
  unfold Branches.add
  split
  · intro group
    simp only [List.mem_append, List.mem_singleton, h group, Finset.mem_insert, exists_eq_or_imp]
    rw [or_comm, eq_comm]
  · exact h

theorem Branches.mem_add {b : Finset String} : b ∈ (s.add branch).seen ↔
    b ∈ s.seen ∨ minParallelBranchSize ≤ b.card ∧ b = branch := by
  unfold Branches.add
  split
  · rename_i hnew
    rw [Finset.mem_insert, or_comm]
    refine or_congr_right ⟨?_, And.right⟩
    rintro rfl
    exact ⟨hnew.1, rfl⟩
  · rename_i hold
    refine ⟨.inl, ?_⟩
    rintro (hb | ⟨hsize, rfl⟩)
    · exact hb
    · by_contra hb
      exact hold ⟨hsize, hb⟩

theorem Branches.kept_foldl (h : s.Kept) : (branches.foldl Branches.add s).Kept := by
  induction branches generalizing s with
  | nil => exact h
  | cons branch branches ih => exact ih (Branches.kept_add h branch)

theorem Branches.mem_foldl {b : Finset String} : b ∈ (branches.foldl Branches.add s).seen ↔
    b ∈ s.seen ∨ minParallelBranchSize ≤ b.card ∧ b ∈ branches := by
  induction branches generalizing s with
  | nil => simp
  | cons branch branches ih =>
    rw [List.foldl_cons, ih, Branches.mem_add, List.mem_cons, or_assoc, ← and_or_left]

end

section
variable {nx : Networkx} {g : SoftwareGraph} {index : Option GraphIndex} {group : List String}

theorem mem_parallelizeIndependentBranches : group ∈ parallelizeIndependentBranches nx g index ↔
    ∃ l ∈ g.layers, ∃ branch ∈ candidateBranches nx (indexedLayer index l),
      minParallelBranchSize ≤ branch.card ∧ branch.sort = group := by
  have hkept : Branches.Kept {} := fun group => by simp
  rw [parallelizeIndependentBranches, ← List.foldl_flatMap, Branches.kept_foldl hkept]
  simp only [Branches.mem_foldl, Finset.notMem_empty, false_or, List.mem_flatMap]
  constructor
  · rintro ⟨branch, ⟨hsize, l, hl, hb⟩, rfl⟩
    exact ⟨l, hl, branch, hb, hsize, rfl⟩
  · rintro ⟨l, hl, branch, hb, hsize, rfl⟩
    exact ⟨branch, ⟨hsize, l, hl, hb⟩, rfl⟩

theorem indexedLayer_of_mem {index : GraphIndex} (hl : l ∈ index.graph.layers) : indexedLayer (some index) l = l := by
  rw [indexedLayer, Option.bind_some, GraphIndex.getGraph, SoftwareGraph.getLayer_of_mem hl, Option.getD_some]

end

-- ---------------------------------------------------------------------------
-- Independence
-- ---------------------------------------------------------------------------

/-- No two of the nodes are joined by a path in the layer. -/
def Independent (l : SGIRGraph) (xs : String → Prop) : Prop :=
  ∀ x y, xs x → xs y → x ≠ y → ¬ Reaches l.edgePairs x y

/-- Some layer declares all of the nodes and keeps them apart. -/
def IndependentIn (g : SoftwareGraph) (xs : String → Prop) : Prop :=
  ∃ l ∈ g.layers, (∀ x, xs x → x ∈ l.nodeIds) ∧ Independent l xs

/-- The nodes on common cycles with `x`, and `x`. -/
def OnCycleWith (l : SGIRGraph) (x y : String) : Prop := Reaches l.edgePairs x y ∧ Reaches l.edgePairs y x

/-- What takes more than one layer. Nodes on a common cycle of one layer are
independent in another one; and so are the nodes of one depth of an acyclic
layer if one of them is an end of an edge that the layer does not declare. -/
structure KeptApart (g : SoftwareGraph) : Prop where
  cycles : ∀ l ∈ g.layers, ∀ x y, x ≠ y → OnCycleWith l x y → IndependentIn g (OnCycleWith l x)
  undeclared : ∀ l ∈ g.layers, isAcyclic l.edgePairs → ∀ k x y, x ≠ y →
    AtDepth (graphNodes l) l.edgePairs k x → AtDepth (graphNodes l) l.edgePairs k y → x ∉ l.nodeIds →
    IndependentIn g (AtDepth (graphNodes l) l.edgePairs k)

/-- `strongly_connected_components` yields the components, every node in one. -/
structure Networkx.FindsComponents (nx : Networkx) : Prop where
  component : ∀ nodes edges, EndsIn nodes edges →
    ∀ scc ∈ nx.stronglyConnectedComponents nodes edges, IsComponent nodes edges scc
  covered : ∀ nodes edges, EndsIn nodes edges →
    ∀ x ∈ nodes, ∃ scc ∈ nx.stronglyConnectedComponents nodes edges, x ∈ scc

section
variable {nx : Networkx} {g : SoftwareGraph} {l : SGIRGraph} {xs ys : String → Prop} {x y z : String}

theorem IndependentIn.congr (h : IndependentIn g xs) (hsame : ∀ x, ys x → xs x) : IndependentIn g ys := by
  obtain ⟨l, hl, hdeclared, hfree⟩ := h
  exact ⟨l, hl, fun x hx => hdeclared x (hsame x hx), fun x y hx hy => hfree x y (hsame x hx) (hsame y hy)⟩

/-- The nodes of a level are independent where they were found. -/
theorem independent_atDepth (l : SGIRGraph) (k : Nat) :
    Independent l (AtDepth (graphNodes l) l.edgePairs k) :=
  fun _ _ hx hy hne => hx.2.independent hy.2 hne

theorem OnCycleWith.mem_graphNodes (h : OnCycleWith l x y) (hne : x ≠ y) : x ∈ graphNodes l := by
  rcases Relation.ReflTransGen.cases_head h.1 with heq | ⟨z, he, -⟩
  · exact absurd heq hne
  · exact (endsIn_graphNodes l _ he).1

theorem OnCycleWith.trans (h : OnCycleWith l x y) (h' : OnCycleWith l y z) : OnCycleWith l x z :=
  ⟨h.1.trans h'.1, h'.2.trans h.2⟩

theorem OnCycleWith.symm (h : OnCycleWith l x y) : OnCycleWith l y x := ⟨h.2, h.1⟩

/-- A component is what lies on common cycles with any of its nodes. -/
theorem IsComponent.mem_iff (h : IsComponent (graphNodes l) l.edgePairs scc) (hx : x ∈ scc) :
    y ∈ scc ↔ y ∈ graphNodes l ∧ OnCycleWith l x y := by
  obtain ⟨-, r, -, hmem⟩ := h
  obtain ⟨-, hrx⟩ := (hmem x).mp hx
  rw [hmem y]
  refine and_congr_right fun _ => ⟨?_, ?_⟩
  · exact fun hry => OnCycleWith.trans (OnCycleWith.symm hrx) hry
  · exact fun hxy => OnCycleWith.trans hrx hxy

theorem card_of_ne {branch : Finset String} (hx : x ∈ branch) (hy : y ∈ branch) (hne : x ≠ y) :
    minParallelBranchSize ≤ branch.card := Finset.one_lt_card.mpr ⟨x, hx, y, hy, hne⟩

/-- What a layer offers: the nodes of one depth, or those on common cycles. -/
theorem candidate_cases (hnx : nx.FindsComponents) {branch : Finset String} (hb : branch ∈ candidateBranches nx l)
    (hx : x ∈ branch) :
    (isAcyclic l.edgePairs ∧ ∃ k, ∀ z, z ∈ branch ↔ AtDepth (graphNodes l) l.edgePairs k z) ∨
      ∀ z, z ∈ branch ↔ z ∈ graphNodes l ∧ OnCycleWith l x z := by
  rcases List.mem_append.mp hb with hb | hb
  · split at hb
    · rename_i hacyclic
      exact .inl ⟨hacyclic, depth_of_mem_parallelLevels (endsIn_graphNodes l) hb⟩
    · cases hb
  · obtain ⟨scc, hscc, rfl⟩ := List.mem_map.mp hb
    have hcomponent := hnx.component _ _ (endsIn_graphNodes l) scc hscc
    refine .inr fun z => ?_
    rw [List.mem_toFinset]
    exact hcomponent.mem_iff (List.mem_toFinset.mp hx)

theorem exists_cycle_candidate (hnx : nx.FindsComponents) (hx : x ∈ graphNodes l) :
    ∃ branch ∈ candidateBranches nx l, ∀ z, z ∈ branch ↔ z ∈ graphNodes l ∧ OnCycleWith l x z := by
  obtain ⟨scc, hscc, hxscc⟩ := hnx.covered _ _ (endsIn_graphNodes l) x hx
  refine ⟨scc.toFinset, List.mem_append_right _ (List.mem_map_of_mem hscc), fun z => ?_⟩
  rw [List.mem_toFinset]
  exact (hnx.component _ _ (endsIn_graphNodes l) scc hscc).mem_iff hxscc

theorem exists_level_candidate (hacyclic : isAcyclic l.edgePairs) (hx : AtDepth (graphNodes l) l.edgePairs k x) :
    ∃ branch ∈ candidateBranches nx l, ∀ z, z ∈ branch ↔ AtDepth (graphNodes l) l.edgePairs k z := by
  obtain ⟨level, hlevel, hmem⟩ := exists_mem_parallelLevels (endsIn_graphNodes l) hx
  refine ⟨level, ?_, hmem⟩
  rw [candidateBranches, if_pos hacyclic]
  exact List.mem_append_left _ hlevel

theorem OnCycleWith.graphNodes_right (h : OnCycleWith l x y) (hne : x ≠ y) (hz : OnCycleWith l x z) :
    z ∈ graphNodes l := by
  by_cases hxz : x = z
  · exact hxz ▸ h.mem_graphNodes hne
  · exact hz.symm.mem_graphNodes (Ne.symm hxz)

/-- The groups that are components or have undeclared nodes are independent
because of other layers. -/
theorem groups_independent_iff (nx : Networkx) (hnx : nx.FindsComponents) (index : GraphIndex) :
    (∀ group ∈ parallelizeIndependentBranches nx index.graph (some index),
      IndependentIn index.graph (· ∈ group)) ↔ KeptApart index.graph := by
  constructor
  · intro h
    have hbranch : ∀ l ∈ index.graph.layers, ∀ branch ∈ candidateBranches nx l,
        minParallelBranchSize ≤ branch.card → IndependentIn index.graph (· ∈ branch) := by
      intro l hl branch hb hsize
      refine (h branch.sort (mem_parallelizeIndependentBranches.mpr ⟨l, hl, branch, ?_, hsize, rfl⟩)).congr ?_
      · rwa [indexedLayer_of_mem hl]
      · exact fun z hz => (Finset.mem_sort _).mpr hz
    constructor
    · intro l hl x y hne hxy
      have hx := hxy.mem_graphNodes hne
      have hy := hxy.graphNodes_right hne hxy
      obtain ⟨branch, hb, hmem⟩ := exists_cycle_candidate hnx hx
      have hsize := card_of_ne ((hmem x).mpr ⟨hx, .refl, .refl⟩) ((hmem y).mpr ⟨hy, hxy⟩) hne
      exact (hbranch l hl branch hb hsize).congr fun z hz => (hmem z).mpr ⟨hxy.graphNodes_right hne hz, hz⟩
    · intro l hl hacyclic k x y hne hx hy _
      obtain ⟨branch, hb, hmem⟩ := exists_level_candidate hacyclic hx
      have hsize := card_of_ne ((hmem x).mpr hx) ((hmem y).mpr hy) hne
      exact (hbranch l hl branch hb hsize).congr fun z hz => (hmem z).mpr hz
  · intro h group hg
    obtain ⟨l, hl, branch, hb, hsize, rfl⟩ := mem_parallelizeIndependentBranches.mp hg
    rw [indexedLayer_of_mem hl] at hb
    suffices hbranch : IndependentIn index.graph (· ∈ branch) from
      hbranch.congr fun z hz => (Finset.mem_sort _).mp hz
    obtain ⟨x, hx⟩ := Finset.card_pos.mp (lt_of_lt_of_le Nat.zero_lt_two hsize)
    rcases candidate_cases hnx hb hx with ⟨hacyclic, k, hmem⟩ | hmem
    · by_cases hall : ∀ x ∈ branch, x ∈ l.nodeIds
      · refine ⟨l, hl, hall, ?_⟩
        exact fun x y hx hy => independent_atDepth l k x y ((hmem x).mp hx) ((hmem y).mp hy)
      · obtain ⟨x, hx, hundeclared⟩ : ∃ x ∈ branch, x ∉ l.nodeIds := by simpa using hall
        obtain ⟨y, hy, hne⟩ := Finset.exists_mem_ne hsize x
        exact (h.undeclared l hl hacyclic k x y hne.symm ((hmem x).mp hx) ((hmem y).mp hy) hundeclared).congr
          fun z hz => (hmem z).mp hz
    · obtain ⟨y, hy, hne⟩ := Finset.exists_mem_ne hsize x
      exact (h.cycles l hl x y hne.symm ((hmem y).mp hy).2).congr fun z hz => ((hmem z).mp hz).2

end

theorem findsComponents_exhaustive : Networkx.exhaustive.FindsComponents where
  component := enumerates_exhaustive.component
  covered := enumerates_exhaustive.covered

def twoCallees : SoftwareGraph := callGraph ["main", "a", "b"] [("main", "a"), ("main", "b")]

theorem branches_twoCallees : ∀ l ∈ twoCallees.layers, ∀ branch ∈ candidateBranches .exhaustive l,
    minParallelBranchSize ≤ branch.card → branch = {"a", "b"} := by decide +kernel

theorem groups_independent_twoCallees : KeptApart twoCallees := by
  refine (groups_independent_iff .exhaustive findsComponents_exhaustive (.build twoCallees)).mp ?_
  intro group hg
  obtain ⟨l, hl, branch, hb, hsize, rfl⟩ := mem_parallelizeIndependentBranches.mp hg
  rw [indexedLayer_of_mem hl] at hb
  obtain rfl := branches_twoCallees l hl branch hb hsize
  obtain rfl := List.mem_singleton.mp hl
  unfold IndependentIn Independent
  simp only [Finset.mem_sort, Finset.mem_insert, Finset.mem_singleton]
  refine ⟨_, hl, ?_, ?_⟩
  · rintro x (rfl | rfl) <;> decide
  rintro x y (rfl | rfl) (rfl | rfl) hne
  · exact absurd rfl hne
  · decide +kernel
  · decide +kernel
  · exact absurd rfl hne

/-- The component of two modules that import each other is reported. -/
theorem mutual_imports_grouped : Networkx.exhaustive.FindsComponents ∧
    ¬ ∀ group ∈ parallelizeIndependentBranches .exhaustive mutualImports (some (.build mutualImports)),
      IndependentIn mutualImports (· ∈ group) := by
  refine ⟨findsComponents_exhaustive, fun h => ?_⟩
  have hcomponent : ∃ l ∈ mutualImports.layers,
      ∃ branch ∈ candidateBranches .exhaustive (indexedLayer (some (.build mutualImports)) l),
        minParallelBranchSize ≤ branch.card ∧ branch.sort = Finset.sort {"a", "b"} :=
    ⟨_, List.mem_singleton_self _, {"a", "b"}, by decide +kernel, by decide, rfl⟩
  obtain ⟨l, hl, -, hfree⟩ := h _ (mem_parallelizeIndependentBranches.mpr hcomponent)
  obtain rfl := List.mem_singleton.mp hl
  exact hfree "a" "b" (by simp) (by simp) (by decide) (.single (by decide))

end Intelliqx.Graph
