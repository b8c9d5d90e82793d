import Intelliqx.Graph.Passes
import Intelliqx.Graph.Verification

/-!
# Dead-code removal and its verifier

Removal keeps every edge that leaves a live node, so each live node reaches
after it what it reached before. The verifier's search starts at live nodes and
therefore finds the same traces.
-/

namespace Intelliqx.Graph

open Intelliqx.Digraph

/-- An entry point of the merged graph reaches the node. -/
def Live (index : GraphIndex) (entryPoints : List String) (x : String) : Prop :=
  ∃ ep ∈ entryPoints, ep ∈ index.mergedNodes ∧ Reaches index.graph.edgeKeys ep x

/-- Sets with the same elements are iterated in the same order. -/
def SameOrder (before after : GraphIndex) : Prop :=
  ∀ x y, (before.reachableFrom x).Perm (after.reachableFrom y) →
    before.reachableFrom x = after.reachableFrom y

/-- What a node reaches is listed as a search over the edges finds it: the edges
that leave the nodes it reaches, in their order, settle the list. -/
def Networkx.Local (nx : Networkx) : Prop :=
  ∀ j k (g g' : SoftwareGraph) x, (∀ y, Reaches g.edgeKeys x y →
    g.edgeKeys.filter (fun e => e.1 = y) = g'.edgeKeys.filter fun e => e.1 = y) →
    (nx.index j g).reachableFrom x = (nx.index k g').reachableFrom x

section
variable {index before after : GraphIndex} {entryPoints : List String} {x y : String}

theorem GraphIndex.mem_mergedNodes : x ∈ index.mergedNodes ↔ x ∈ index.graph.nodeIds ∨
    ∃ e ∈ index.graph.edgeKeys, x = e.1 ∨ x = e.2 := by
  simp only [GraphIndex.mergedNodes, List.mem_dedup, List.mem_append, List.mem_map, or_assoc]
  refine or_congr_right ⟨?_, ?_⟩
  · rintro (⟨e, he, rfl⟩ | ⟨e, he, rfl⟩)
    · exact ⟨e, he, .inl rfl⟩
    · exact ⟨e, he, .inr rfl⟩
  · rintro ⟨e, he, rfl | rfl⟩
    · exact .inl ⟨e, he, rfl⟩
    · exact .inr ⟨e, he, rfl⟩

theorem mem_findDeadNodes_iff :
    x ∈ index.findDeadNodes entryPoints ↔ x ∈ index.mergedNodes ∧ ¬ Live index entryPoints x := by
  simp only [GraphIndex.findDeadNodes, List.mem_filter, decide_eq_true_eq, List.any_eq_true]
  refine and_congr_right fun _ => not_congr ⟨?_, ?_⟩
  · rintro ⟨ep, hep, hmerged, rfl | hr⟩
    · exact ⟨x, hep, hmerged, .refl⟩
    · exact ⟨ep, hep, hmerged, (GraphIndex.mem_reachableFrom.mp hr).2⟩
  · rintro ⟨ep, hep, hmerged, hr⟩
    refine ⟨ep, hep, hmerged, ?_⟩
    by_cases hx : x = ep
    · exact .inl hx
    · exact .inr (GraphIndex.mem_reachableFrom.mpr ⟨hx, hr⟩)

theorem Live.not_dead (h : Live index entryPoints x) : x ∉ index.findDeadNodes entryPoints :=
  fun hd => (mem_findDeadNodes_iff.mp hd).2 h

theorem Live.reaches (h : Live index entryPoints x) (hr : Reaches index.graph.edgeKeys x y) :
    Live index entryPoints y := by
  obtain ⟨ep, hep, hmerged, hx⟩ := h
  exact ⟨ep, hep, hmerged, hx.trans hr⟩

-- ---------------------------------------------------------------------------
-- What removal keeps
-- ---------------------------------------------------------------------------

theorem edgeKeys_removeDeadNodes_subset :
    (removeDeadNodes g index entryPoints).edgeKeys ⊆ g.edgeKeys := by
  rintro ⟨x, y⟩ he
  obtain ⟨l', hl', e, he, rfl, rfl⟩ := SoftwareGraph.mem_edgeKeys.mp he
  obtain ⟨l, hl, rfl⟩ := List.mem_map.mp hl'
  refine SoftwareGraph.mem_edgeKeys.mpr ⟨l, hl, e, ?_, rfl, rfl⟩
  unfold removeDeadFromLayer at he
  simp only at he
  split at he
  · exact he
  · exact List.mem_of_mem_filter he

theorem reaches_removeDeadNodes_iff (h : Live index entryPoints x) :
    Reaches (removeDeadNodes index.graph index entryPoints).edgeKeys x y ↔
      Reaches index.graph.edgeKeys x y := by
  refine ⟨.mono edgeKeys_removeDeadNodes_subset, ?_⟩
  intro hr
  have hkeep : ∀ u v, Live index entryPoints u → (u, v) ∈ index.graph.edgeKeys →
      (u, v) ∈ (removeDeadNodes index.graph index entryPoints).edgeKeys ∧ Live index entryPoints v := by
    intro u v hu he
    have hv : Live index entryPoints v := hu.reaches (.single he)
    exact ⟨mem_edgeKeys_removeDeadNodes he hu.not_dead hv.not_dead, hv⟩
  exact (hr.kept hkeep h).1

/-- All edges that leave a live node stay, in their order. -/
theorem edgesOf_removeDeadNodes (h : Live index entryPoints x) :
    index.graph.edgeKeys.filter (fun e => e.1 = x) =
      (removeDeadNodes index.graph index entryPoints).edgeKeys.filter fun e => e.1 = x := by
  simp only [SoftwareGraph.edgeKeys, removeDeadNodes, SoftwareGraph.mapLayers, List.flatMap_map, List.filter_flatMap]
  refine List.flatMap_congr fun l hl => ?_
  unfold removeDeadFromLayer
  simp only
  split
  · rfl
  · simp only [SGIRGraph.edgePairs, List.filter_map, List.filter_filter]
    refine congrArg _ (List.filter_congr fun e he => ?_)
    by_cases hx : e.source = x
    · subst hx
      have hedge : (e.source, e.target) ∈ index.graph.edgeKeys :=
        SoftwareGraph.mem_edgeKeys.mpr ⟨l, hl, e, he, rfl, rfl⟩
      have hsource : e.source ∉ (index.findDeadNodes entryPoints).filter (· ∈ l.nodeIds) :=
        fun hd => h.not_dead (List.mem_of_mem_filter hd)
      have htarget : e.target ∉ (index.findDeadNodes entryPoints).filter (· ∈ l.nodeIds) :=
        fun hd => (h.reaches (.single hedge)).not_dead (List.mem_of_mem_filter hd)
      simp [hsource, htarget]
    · simp [hx]

theorem mem_nodeIds_removeDeadNodes_iff (h : Live index entryPoints x) :
    x ∈ (removeDeadNodes index.graph index entryPoints).nodeIds ↔ x ∈ index.graph.nodeIds :=
  mem_nodeIds_removeDeadNodes.trans (and_iff_left h.not_dead)

-- ---------------------------------------------------------------------------
-- What the verifier sees
-- ---------------------------------------------------------------------------

/-- A search from a node of a set that it never leaves finds the same traces in
two graphs that agree on the set. -/
theorem dfsTraces_congr (live : String → Prop) {valid valid' : List String}
    (hreach : ∀ x, live x → before.reachableFrom x = after.reachableFrom x)
    (hclosed : ∀ x y, live x → y ∈ before.reachableFrom x → live y ∧ (y ∈ valid ↔ y ∈ valid'))
    (d : Nat) (hx : live current) (path : Trace) (visited : List String) :
    dfsTraces before valid d current path visited = dfsTraces after valid' d current path visited := by
  induction d generalizing current path visited with
  | zero => rfl
  | succ d ih =>
    have hsucc : (before.reachableFrom current).filter (· ∈ valid) =
        (after.reachableFrom current).filter (· ∈ valid') := by
      rw [← hreach current hx]
      apply List.filter_congr
      intro y hy
      exact decide_eq_decide.mpr (hclosed current y hx hy).2
    unfold dfsTraces
    rw [← hsucc]
    split
    · rfl
    · simp only
      split
      · rfl
      · apply List.flatMap_congr
        intro s hs
        have hy := List.mem_of_mem_filter (List.mem_of_mem_take hs)
        exact ih (hclosed current s hx hy).1 _ _

section
variable (hb : before.graph = index.graph)
  (ha : after.graph = removeDeadNodes index.graph index entryPoints)
include hb ha

theorem declared_removed (h : Live index entryPoints x) :
    x ∈ before.graph.nodeIds ↔ x ∈ after.graph.nodeIds := by
  rw [hb, ha, mem_nodeIds_removeDeadNodes_iff h]

theorem buildTraceSet_removed (hsame : ∀ x, Live index entryPoints x → before.reachableFrom x = after.reachableFrom x)
    (maxDepth : Nat) : buildTraceSet before entryPoints maxDepth = buildTraceSet after entryPoints maxDepth := by
  have hlive : ∀ ep ∈ entryPoints, ep ∈ before.graph.nodeIds → Live index entryPoints ep := by
    intro ep hep hdeclared
    exact ⟨ep, hep, GraphIndex.mem_mergedNodes.mpr (.inl (hb ▸ hdeclared)), .refl⟩
  have hentries : entryPoints.filter (· ∈ before.graph.nodeIds) =
      entryPoints.filter (· ∈ after.graph.nodeIds) := by
    apply List.filter_congr
    intro ep hep
    refine decide_eq_decide.mpr ⟨?_, ?_⟩
    · intro hdeclared
      exact (declared_removed hb ha (hlive ep hep hdeclared)).mp hdeclared
    · intro hdeclared
      rw [ha] at hdeclared
      exact hb ▸ (mem_nodeIds_removeDeadNodes.mp hdeclared).1
  unfold buildTraceSet
  rw [← hentries]
  apply List.flatMap_congr
  intro ep hep
  obtain ⟨hep, hdeclared⟩ := List.mem_filter.mp hep
  refine dfsTraces_congr (Live index entryPoints) hsame ?_ _ (hlive ep hep (of_decide_eq_true hdeclared)) _ _
  intro x y hx hy
  have hr := (GraphIndex.mem_reachableFrom.mp hy).2
  have hy : Live index entryPoints y := hx.reaches (hb ▸ hr)
  exact ⟨hy, declared_removed hb ha hy⟩

theorem improperlyRemoved_removed : improperlyRemoved before after entryPoints = [] := by
  rw [improperlyRemoved, List.filter_eq_nil_iff]
  intro n hn hr
  obtain ⟨hdeclared, hgone⟩ := mem_diff.mp hn
  simp only [List.any_eq_true, decide_eq_true_eq] at hr
  -- an entry point that reaches `n` is a node of the merged graph, declared or not
  have hlive : Live index entryPoints n := by
    obtain ⟨ep, hep, hreach | ⟨_, rfl⟩⟩ := hr
    · obtain ⟨hne, hreach⟩ := GraphIndex.mem_reachableFrom.mp hreach
      rw [hb] at hreach
      refine ⟨ep, hep, GraphIndex.mem_mergedNodes.mpr (.inr ?_), hreach⟩
      obtain rfl | ⟨m, he, -⟩ := hreach.cases_head
      · exact absurd rfl hne
      · exact ⟨(ep, m), he, .inl rfl⟩
    · exact ⟨n, hep, GraphIndex.mem_mergedNodes.mpr (.inl (hb ▸ hdeclared)), .refl⟩
  exact hgone ((declared_removed hb ha hlive).mp hdeclared)

/-- Removal is accepted when the sets of live nodes are listed in the same order. -/
theorem removal_preserved (hsame : ∀ x, Live index entryPoints x → before.reachableFrom x = after.reachableFrom x) :
    (verify before after entryPoints).behaviorPreserved = true := by
  rw [preserved_iff, lostTraces, buildTraceSet_removed hb ha hsame]
  refine ⟨?_, improperlyRemoved_removed hb ha⟩
  simp [diff]

theorem reachableFrom_removed (horder : SameOrder before after) (h : Live index entryPoints x) :
    before.reachableFrom x = after.reachableFrom x := by
  apply horder
  have hperm : (descendants before.graph.edgeKeys x).Perm (descendants after.graph.edgeKeys x) := by
    apply descendants_perm
    intro y
    rw [hb, ha, reaches_removeDeadNodes_iff h]
  exact ((before.perm x).trans hperm).trans (after.perm x).symm

theorem removal_verified (horder : SameOrder before after) :
    (verify before after entryPoints).behaviorPreserved = true :=
  removal_preserved hb ha fun _ => reachableFrom_removed hb ha horder

end

theorem Networkx.Local.reachableFrom_removed {nx : Networkx} (hnx : nx.Local) (j k : Nat)
    (h : Live index entryPoints x) : (nx.index j index.graph).reachableFrom x =
      (nx.index k (removeDeadNodes index.graph index entryPoints)).reachableFrom x :=
  hnx j k _ _ x fun _ hr => edgesOf_removeDeadNodes (h.reaches hr)

end

/-- The index whose sets are iterated in alphabetical order. -/
def GraphIndex.sorted (g : SoftwareGraph) : GraphIndex where
  graph := g
  reachableFrom x := (descendants g.edgeKeys x).insertionSort (· ≤ ·)
  perm _ := List.perm_insertionSort _ _

theorem sameOrder_sorted : SameOrder (.sorted g) (.sorted g') := by
  intro x y h
  exact h.eq_of_pairwise' (List.pairwise_insertionSort _ _) (List.pairwise_insertionSort _ _)

theorem local_sorted {nx : Networkx} (h : ∀ k g, nx.index k g = .sorted g) : nx.Local := by
  intro j k g g' x hsame
  have hedge : ∀ u v, Reaches g.edgeKeys x u → ((u, v) ∈ g.edgeKeys ↔ (u, v) ∈ g'.edgeKeys) := by
    intro u v hr
    simpa using congrArg ((u, v) ∈ ·) (hsame u hr)
  have hreach : ∀ y, Reaches g.edgeKeys x y ↔ Reaches g'.edgeKeys x y := by
    refine fun y => ⟨fun hr => ?_, fun hr => ?_⟩
    · have hkeep : ∀ u v, Reaches g.edgeKeys x u → (u, v) ∈ g.edgeKeys →
          (u, v) ∈ g'.edgeKeys ∧ Reaches g.edgeKeys x v :=
        fun u v hu he => ⟨(hedge u v hu).mp he, hu.tail he⟩
      exact (hr.kept hkeep .refl).1
    · have hkeep : ∀ u v, Reaches g.edgeKeys x u → (u, v) ∈ g'.edgeKeys →
          (u, v) ∈ g.edgeKeys ∧ Reaches g.edgeKeys x v := by
        intro u v hu he
        have he := (hedge u v hu).mpr he
        exact ⟨he, hu.tail he⟩
      exact (hr.kept hkeep .refl).1
  rw [h, h]
  exact sameOrder_sorted x x (((GraphIndex.sorted g).perm x).trans
    ((descendants_perm hreach).trans ((GraphIndex.sorted g').perm x).symm))

def halfDead : SoftwareGraph := callGraph ["main", "leaf", "dead"] [("main", "leaf"), ("dead", "leaf")]

theorem removal_verified_halfDead :
    (verify (.sorted halfDead) (.sorted (removeDeadNodes halfDead (.sorted halfDead) ["main"]))
      ["main"]).behaviorPreserved = true :=
  removal_verified rfl rfl (sameOrder_sorted (g := halfDead))

end Intelliqx.Graph
