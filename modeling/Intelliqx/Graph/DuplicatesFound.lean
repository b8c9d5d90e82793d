import Intelliqx.Graph.SignatureOrder

/-!
# Two copies of one component

Only one and the same component in two layers is ever found twice, as
`signature_eq_iff` says what a signature tells of a component. So the roots of
two copies in one layer make a pair only by what other layers hold
(`duplicates_found_iff`).
-/

namespace Intelliqx.Graph

open Intelliqx.Digraph

-- ---------------------------------------------------------------------------
-- One component in two layers
-- ---------------------------------------------------------------------------

/-- The types of the edges from the one node to the other, in the order of the layer's list. -/
def edgeTypesFrom (l : SGIRGraph) (x y : String) : List EdgeType :=
  (l.edges.filter fun e => e.source = x ∧ e.target = y).map SGIREdge.edgeType

/-- What `x` reaches in the one layer is what `y` reaches in the other: the same nodes of the same types,
and between any two of them edges of the same types in the same order. -/
structure SameComponent (l l' : SGIRGraph) (x y : String) : Prop where
  nodes : ∀ z, Reaches l.edgePairs x z ↔ Reaches l'.edgePairs y z
  nodeTypes : ∀ z, Reaches l.edgePairs x z → typeLabel l z = typeLabel l' z
  edges : ∀ z w, Reaches l.edgePairs x z → edgeTypesFrom l z w = edgeTypesFrom l' z w

/-- What the signature shows of an edge and of its ends. -/
def shownIn (l : SGIRGraph) (e : SGIREdge) : String × String × String × String × EdgeType :=
  (typeLabel l e.source, typeLabel l e.target, shown e)

section
variable {l l' : SGIRGraph} {x y z w : String} {e e' : SGIREdge} {nodeIds nodeIds' : List String}

theorem signatureParts_eq_iff : signatureParts l e = signatureParts l' e' ↔ shownIn l e = shownIn l' e' := by
  constructor
  · intro h
    have hshown := signatureParts_inj h
    simp only [signatureParts, List.flatMap_cons, List.flatMap_nil, List.cons_append, List.nil_append,
      List.cons.injEq] at h
    simp only [shownIn, hshown, h.1, h.2.2.2.2.1]
  · intro h
    simp only [shownIn, shown, Prod.mk.injEq] at h
    obtain ⟨hsourceLabel, htargetLabel, hsource, htarget, htype⟩ := h
    simp only [signatureParts, List.flatMap_cons, List.flatMap_nil]
    rw [hsourceLabel, htargetLabel, hsource, htarget, htype]

theorem subgraphSignature_eq_iff_shownIn : subgraphSignature l nodeIds = subgraphSignature l' nodeIds' ↔
    (sortedEdges l nodeIds).map (shownIn l) = (sortedEdges l' nodeIds').map (shownIn l') := by
  constructor
  · intro h
    have hparts := map_eq_of_flatMap_eq 8 (by decide) (fun _ => rfl) (fun _ => rfl) h
    exact map_eq_map_of (fun _ _ => signatureParts_eq_iff.mp) hparts
  · intro h
    have hparts := map_eq_map_of (fun _ _ => signatureParts_eq_iff.mpr) h
    rw [subgraphSignature, subgraphSignature, List.flatMap_def, List.flatMap_def, hparts]

/-- The edges of the component from `z` to `w`. -/
theorem filter_component (z w : String) :
    (l.edges.filter (Graph.Inside (bfsComponent x l.edgePairs) ·)).filter (sortKey · = toLex (z, w)) =
      if z ∈ bfsComponent x l.edgePairs then l.edges.filter fun e => e.source = z ∧ e.target = w else [] := by
  have hkey : ∀ e : SGIREdge, sortKey e = toLex (z, w) ↔ e.source = z ∧ e.target = w := by
    intro e
    rw [sortKey, toLex_inj, Prod.mk.injEq]
  rw [List.filter_filter]
  split
  · rename_i hz
    refine List.filter_congr fun e he => ?_
    rw [← Bool.decide_and, decide_eq_decide, hkey]
    refine and_iff_left_of_imp ?_
    rintro ⟨rfl, rfl⟩
    refine ⟨hz, mem_bfsComponent.mpr ((mem_bfsComponent.mp hz).tail ?_)⟩
    exact List.mem_map.mpr ⟨e, he, rfl⟩
  · rename_i hz
    refine List.filter_eq_nil_iff.mpr fun e _ h => ?_
    rw [← Bool.decide_and, decide_eq_true_iff, hkey] at h
    obtain ⟨⟨rfl, -⟩, hinside⟩ := h
    exact hz hinside.1

/-- Signatures are equal where they are so edge by edge. -/
theorem signature_eq_iff_filter : signature l x = signature l' y ↔ ∀ z w,
    (if z ∈ bfsComponent x l.edgePairs then l.edges.filter fun e => e.source = z ∧ e.target = w else []).map
        (shownIn l) =
      (if z ∈ bfsComponent y l'.edgePairs then l'.edges.filter fun e => e.source = z ∧ e.target = w else []).map
        (shownIn l') := by
  have hkey : ∀ e f : SGIREdge, shownIn l e = shownIn l' f → sortKey e = sortKey f := by
    intro e f h
    simp only [shownIn, shown, Prod.mk.injEq] at h
    exact sortKey_eq_iff.mpr ⟨h.2.2.1, h.2.2.2.1⟩
  rw [signature, signature, subgraphSignature_eq_iff_shownIn, sortedEdges_eq_sortBy, sortedEdges_eq_sortBy,
    map_sortBy_eq_iff hkey]
  constructor
  · intro h z w
    rw [← filter_component, ← filter_component]
    exact h (toLex (z, w))
  · intro h k
    have hk := h (ofLex k).1 (ofLex k).2
    rwa [← filter_component, ← filter_component] at hk

theorem map_shownIn (z w : String) : (l.edges.filter fun e => e.source = z ∧ e.target = w).map (shownIn l) =
    (edgeTypesFrom l z w).map fun t => (typeLabel l z, typeLabel l w, z, w, t) := by
  rw [edgeTypesFrom, List.map_map]
  refine List.map_congr_left fun e he => ?_
  obtain ⟨rfl, rfl⟩ := of_decide_eq_true (List.mem_filter.mp he).2
  rfl

theorem reaches_of_edgeTypesFrom (hz : Reaches l.edgePairs x z) (h : edgeTypesFrom l z w ≠ []) :
    Reaches l.edgePairs x w := by
  obtain ⟨e, hfilter⟩ := List.exists_mem_of_ne_nil _ (mt List.map_eq_nil_iff.mpr h)
  obtain ⟨he, hends⟩ := List.mem_filter.mp hfilter
  obtain ⟨rfl, rfl⟩ := of_decide_eq_true hends
  exact hz.tail (List.mem_map.mpr ⟨e, he, rfl⟩)

theorem SameComponent.signature_eq (h : SameComponent l l' x y) : signature l x = signature l' y := by
  refine signature_eq_iff_filter.mpr fun z w => ?_
  by_cases hz : Reaches l.edgePairs x z
  · rw [if_pos (mem_bfsComponent.mpr hz), if_pos (mem_bfsComponent.mpr ((h.nodes z).mp hz)), map_shownIn, map_shownIn,
      ← h.edges z w hz, h.nodeTypes z hz]
    refine List.map_congr_left fun t ht => ?_
    rw [h.nodeTypes w (reaches_of_edgeTypesFrom hz (List.ne_nil_of_mem ht))]
  · rw [if_neg (mt mem_bfsComponent.mp hz), if_neg (mt mem_bfsComponent.mp (mt (h.nodes z).mpr hz))]
    rfl

/-- Of a component with two nodes the signature tells the nodes, their types and the edges. -/
theorem signature_eq_iff (hx : Leads l x) (hy : Leads l' y) :
    signature l x = signature l' y ↔ SameComponent l l' x y := by
  refine ⟨fun h => ?_, SameComponent.signature_eq⟩
  have hnodes : ∀ z, Reaches l.edgePairs x z ↔ Reaches l'.edgePairs y z :=
    fun z => ⟨reaches_of_signature h hx, reaches_of_signature h.symm hy⟩
  have hshown : ∀ z w, Reaches l.edgePairs x z →
      (edgeTypesFrom l z w).map (fun t => (typeLabel l z, typeLabel l w, z, w, t)) =
        (edgeTypesFrom l' z w).map fun t => (typeLabel l' z, typeLabel l' w, z, w, t) := by
    intro z w hz
    have hfilter := signature_eq_iff_filter.mp h z w
    rwa [if_pos (mem_bfsComponent.mpr hz), if_pos (mem_bfsComponent.mpr ((hnodes z).mp hz)), map_shownIn,
      map_shownIn] at hfilter
  refine ⟨hnodes, fun z hz => ?_, fun z w hz => ?_⟩
  · -- the type of a node is shown with one of its edges
    obtain ⟨e, he, hend⟩ := exists_edge_of_leads hx hz
    have hmem : shownIn l e ∈ (sortedEdges l' (bfsComponent y l'.edgePairs)).map (shownIn l') :=
      subgraphSignature_eq_iff_shownIn.mp h ▸ List.mem_map_of_mem he
    obtain ⟨e', -, hsame⟩ := List.mem_map.mp hmem
    simp only [shownIn, shown, Prod.mk.injEq] at hsame
    obtain ⟨hsourceLabel, htargetLabel, hsource, htarget, -⟩ := hsame
    rcases hend with rfl | rfl
    · rw [← hsourceLabel, hsource]
    · rw [← htargetLabel, htarget]
  · have htypes := congrArg (List.map fun s : String × String × String × String × EdgeType => s.2.2.2.2)
      (hshown z w hz)
    simpa [Function.comp_def] using htypes

end

/-- Two other layers hold one and the same component, with both nodes in it.
The first layer with it begins it at `x`, a later one at `y`. -/
def HeldElsewhere (g : SoftwareGraph) (l : SGIRGraph) (x y : String) : Prop :=
  ∃ front first between later back, g.layers = front ++ first :: between ++ later :: back ∧
    first ≠ l ∧ later ≠ l ∧ IsStart first x ∧ IsStart later y ∧ SameComponent first later x y ∧
    ∀ l₀ ∈ front, ∀ z, IsStart l₀ z → ¬ SameComponent l₀ later z y

-- ---------------------------------------------------------------------------
-- Copies in one layer
-- ---------------------------------------------------------------------------

/-- A component of the layer: its root comes first and reaches all of it. -/
structure RootedComponent (l : SGIRGraph) (root : String) (nodes : Finset String) : Prop where
  size : 2 ≤ nodes.card
  declared : ∀ x ∈ nodes, x ∈ l.nodeIds
  first : (l.nodes.find? fun n => n.id ∈ nodes).map SGIRNode.id = some root
  reached : ∀ x ∈ nodes, Reaches l.edgePairs root x
  closed : ∀ e ∈ l.edges, e.source ∈ nodes ↔ e.target ∈ nodes

/-- Two components apart from each other, and a bijection that keeps node
types, edge types and the order of the ids. -/
structure StructuralDuplicates (l : SGIRGraph) (a b : String) (A B : Finset String) (f : String → String) : Prop where
  left : RootedComponent l a A
  right : RootedComponent l b B
  disjoint : Disjoint A B
  bijective : Set.BijOn f A B
  nodeTypes : ∀ x ∈ A, typeLabel l (f x) = typeLabel l x
  edgeTypes : ∀ x ∈ A, ∀ y ∈ A, ∀ t, (∃ e ∈ l.edges, e.source = x ∧ e.target = y ∧ e.edgeType = t) ↔
    ∃ e ∈ l.edges, e.source = f x ∧ e.target = f y ∧ e.edgeType = t
  increasing : StrictMonoOn f A

section
variable {g : SoftwareGraph} {l : SGIRGraph} {root a b x y : String} {nodes A B : Finset String} {f : String → String}

theorem RootedComponent.mem_of_reaches (h : RootedComponent l root nodes) (hx : x ∈ nodes)
    (hr : Reaches l.edgePairs x y) : y ∈ nodes := by
  induction hr with
  | refl => exact hx
  | tail _ he ih =>
    obtain ⟨e, hmem, hpair⟩ := List.mem_map.mp he
    obtain ⟨rfl, rfl⟩ := Prod.mk.inj hpair
    exact (h.closed e hmem).mp ih

theorem RootedComponent.root_mem (h : RootedComponent l root nodes) : root ∈ nodes := by
  obtain ⟨n, hn, rfl⟩ := Option.map_eq_some_iff.mp h.first
  simpa using List.find?_some hn

theorem StructuralDuplicates.apart (h : StructuralDuplicates l a b A B f) :
    ¬ Reaches l.edgePairs a b ∧ ¬ Reaches l.edgePairs b a := by
  have hdisjoint := Finset.disjoint_left.mp h.disjoint
  constructor
  · exact fun hr => hdisjoint (h.left.mem_of_reaches h.left.root_mem hr) h.right.root_mem
  · exact fun hr => hdisjoint h.left.root_mem (h.right.mem_of_reaches h.right.root_mem hr)

theorem repeats_iff (hxy : ¬ Reaches l.edgePairs x y) (hyx : ¬ Reaches l.edgePairs y x) :
    Repeats g.layers x y ↔ HeldElsewhere g l x y := by
  constructor
  · rintro ⟨-, later, back, hlayers, hy, front, first, between, rfl, hx, hsame, hnone⟩
    refine ⟨front, first, between, later, back, hlayers, ?_, ?_, hx, hy, (signature_eq_iff hx.1 hy.1).mp hsame,
      fun l₀ hl₀ z hz hheld => hnone l₀ hl₀ z hz hheld.signature_eq⟩
    · rintro rfl
      exact hxy (reaches_of_signature hsame.symm hy.1 .refl)
    · rintro rfl
      exact hyx (reaches_of_signature hsame hx.1 .refl)
  · rintro ⟨front, first, between, later, back, hlayers, -, -, hx, hy, hsame, hnone⟩
    exact ⟨_, later, back, hlayers, hy, front, first, between, rfl, hx, hsame.signature_eq,
      fun l₀ hl₀ z hz hsig => hnone l₀ hl₀ z hz ((signature_eq_iff hz.1 hy.1).mp hsig)⟩

/-- The roots of two copies make a pair only where two other layers hold one
component with both of them. -/
theorem duplicates_found_iff (g : SoftwareGraph) (index : GraphIndex) (l : SGIRGraph) (_ : l ∈ g.layers)
    (h : StructuralDuplicates l a b A B f) :
    ((a, b) ∈ detectDuplicates g index ∨ (b, a) ∈ detectDuplicates g index) ↔
      HeldElsewhere g l a b ∨ HeldElsewhere g l b a := by
  obtain ⟨hab, hba⟩ := h.apart
  rw [mem_detectDuplicates, mem_detectDuplicates, repeats_iff hab hba, repeats_iff hba hab]

end

def twinNode (id : String) : SGIRNode where
  id := id
  name := id
  nodeType := .function

def twinEdge (source target : String) : SGIREdge where
  source := source
  target := target
  edgeType := .call

/-- `a → b` and `c → d` -/
def twinLayer : SGIRGraph where
  layer := .call
  nodes := ["a", "b", "c", "d"].map twinNode
  edges := [twinEdge "a" "b", twinEdge "c" "d"]

def twins : SoftwareGraph where
  repositoryName := "repo"
  layers := [twinLayer]
  keyed := by decide

def twinOf (x : String) : String := if x = "a" then "c" else "d"

theorem twinLayer_left : RootedComponent twinLayer "a" {"a", "b"} := by
  constructor <;> decide

theorem twinLayer_right : RootedComponent twinLayer "c" {"c", "d"} := by
  constructor <;> decide

theorem twinLayer_duplicates : StructuralDuplicates twinLayer "a" "c" {"a", "b"} {"c", "d"} twinOf where
  left := twinLayer_left
  right := twinLayer_right
  disjoint := by decide
  bijective := by
    refine ⟨?_, ?_, ?_⟩
    · simp [Set.MapsTo, twinOf]
    · simp [Set.InjOn, twinOf]
    · simp [Set.SurjOn, Set.image_pair, twinOf]
  nodeTypes := by decide
  edgeTypes := by
    simp [twinLayer, twinEdge, twinOf]
  increasing := by
    have hkept : ∀ x ∈ ["a", "b"], ∀ y ∈ ["a", "b"], x.toList < y.toList → (twinOf x).toList < (twinOf y).toList := by
      decide
    intro x hx y hy hlt
    rw [String.lt_iff_toList_lt] at hlt ⊢
    exact hkept x (by simpa using hx) y (by simpa using hy) hlt

/-- Both components are found and compared, but not with names left out. -/
theorem twins_not_detected : twinLayer ∈ twins.layers ∧
    StructuralDuplicates twinLayer "a" "c" {"a", "b"} {"c", "d"} twinOf ∧
    detectDuplicates twins (.build twins) = [] :=
  ⟨List.mem_singleton_self _, twinLayer_duplicates, by decide⟩

/-- The twins, and two layers that hold a cycle of their roots. -/
def joinedTwins : SoftwareGraph where
  repositoryName := "repo"
  layers := [twinLayer,
    { layer := .dependency, nodes := ["a", "c"].map twinNode, edges := [twinEdge "a" "c", twinEdge "c" "a"] },
    { layer := .controlFlow, nodes := ["c", "a"].map twinNode, edges := [twinEdge "a" "c", twinEdge "c" "a"] }]
  keyed := by decide

theorem duplicates_found_joinedTwins :
    HeldElsewhere joinedTwins twinLayer "a" "c" ∨ HeldElsewhere joinedTwins twinLayer "c" "a" :=
  (duplicates_found_iff joinedTwins (.build joinedTwins) twinLayer List.mem_cons_self twinLayer_duplicates).mp
    (by decide)

end Intelliqx.Graph
