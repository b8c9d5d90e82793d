import Intelliqx.Base.Greedy
import Intelliqx.Base.Rounding
import Intelliqx.Graph.Index
import Mathlib.Algebra.Group.Hom.Basic
import Mathlib.Algebra.Order.Ring.Rat
import Mathlib.Tactic.NormNum

/-!
# Critical paths

`critical_path` negates the weights and asks networkx for a shortest path,
which Dijkstra's algorithm finds where no weight is negative. Here it goes the
heaviest way first, settles each node as it first comes there, and raises when
that node turns out to be nearer. The path it finds is a longest one if the
heaviest edges make up longest paths (`critical_path_longest_iff`).
-/

namespace Intelliqx.Graph.Index

open Bidirectional (Dir Ending Exact Finishes GreedyLeast Next Rounded Search Step expand start)
open Weighted (Walk reversed)

def weights (weight : EdgeData → ℚ) (g : DiGraph) : List ((String × String) × ℚ) :=
  g.edges.entries.map fun e => (e.1, weight e.2)

structure IsPath (g : DiGraph) (source target : String) (p : List String) (weight : ℚ) : Prop where
  walk : Walk (weights EdgeData.weight g) source target p weight
  nodup : p.Nodup

/-- No path from `source` to `target` has more weight. -/
def Longest (g : DiGraph) (source target : String) (p : List String) : Prop :=
  ∃ w, IsPath g source target p w ∧ ∀ q w', IsPath g source target q w' → w' ≤ w

def Acyclic (g : DiGraph) : Prop := ∀ k ∈ g.edges.keys, ¬Digraph.Reaches g.edges.keys k.2 k.1

-- ---------------------------------------------------------------------------
-- networkx
-- ---------------------------------------------------------------------------

def nxResult (S : Search String ℚ) : Ending → Except NxError (List String)
  | .met => .ok S.path
  | .contradictory => .error .valueError
  | .exhausted => .error .networkXNoPath

/-- What `shortest_path` gives is the outcome of a search from both ends, which rounds what it adds up. -/
structure RunsDijkstra (round : ℚ → ℚ) (nx : Networkx) (g : DiGraph) (weight : EdgeData → ℚ)
    (source target : String) (S : Search String ℚ) (ending : Ending) : Prop where
  finishes : Finishes (α := Rounded round) (weights weight g) source target S ending
  result : nx.shortestPath g weight source target = nxResult S ending

/-- A path that always takes a heaviest edge of those that lead to its end is a longest one: forwards
every such path from the source, backwards every such path from the target. -/
structure HeaviestFirst (g : DiGraph) (source target : String) : Prop where
  forward : GreedyLeast (weights negWeight g) source
  backward : GreedyLeast (reversed (weights negWeight g)) target

section
variable {g : DiGraph} {s t x y : String} {p : List String} {w : ℚ} {weight : EdgeData → ℚ}
  {round : ℚ → ℚ}

theorem keys_weights : (weights weight g).map Prod.fst = g.edges.keys := by simp [weights, Dict.keys]

theorem mem_weights {c : ℚ} (h : ((x, y), c) ∈ weights weight g) : (x, y) ∈ g.edges.keys := by
  obtain ⟨e, he, heq⟩ := List.mem_map.mp h
  exact List.mem_map.mpr ⟨e, he, congrArg Prod.fst heq⟩

theorem weights_neg : weights negWeight g = (weights EdgeData.weight g).map fun e => (e.1, negAddMonoidHom e.2) := by
  simp [weights, negWeight]

theorem weights_neg_neg :
    (weights negWeight g).map (fun e => (e.1, negAddMonoidHom e.2)) = weights EdgeData.weight g := by
  simp [weights, negWeight, Function.comp_def]

theorem walk_neg_iff : Walk (weights negWeight g) s t p w ↔ Walk (weights EdgeData.weight g) s t p (-w) := by
  constructor
  · intro h
    have hneg := h.map negAddMonoidHom
    rwa [weights_neg_neg] at hneg
  · intro h
    have hneg := h.map negAddMonoidHom
    rwa [← weights_neg, negAddMonoidHom_apply, neg_neg] at hneg

theorem reaches_of_mem_walk (h : Walk (weights weight g) s t p w) (hx : x ∈ p) : Digraph.Reaches g.edges.keys s x := by
  induction h with
  | single s =>
    rw [List.mem_singleton.mp hx]
    exact .refl
  | cons he _ ih =>
    rcases List.mem_cons.mp hx with rfl | hx
    · exact .refl
    · exact .head (mem_weights he) (ih hx)

theorem Acyclic.nodup (hg : Acyclic g) (h : Walk (weights weight g) s t p w) : p.Nodup := by
  induction h with
  | single s => exact List.nodup_singleton s
  | cons he hw ih => exact List.nodup_cons.mpr ⟨fun hmem => hg _ (mem_weights he) (reaches_of_mem_walk hw hmem), ih⟩

theorem Acyclic.longest_iff (hg : Acyclic g) :
    Longest g s t p ↔ Bidirectional.Least (weights negWeight g) s t p := by
  constructor
  · rintro ⟨w, hp, hmax⟩
    refine ⟨-w, walk_neg_iff.mpr ((neg_neg w).symm ▸ hp.walk), fun q w' hq => ?_⟩
    have hle := hmax q (-w') ⟨walk_neg_iff.mp hq, hg.nodup hq⟩
    exact neg_le.mp hle
  · rintro ⟨w, hp, hmin⟩
    refine ⟨-w, ⟨walk_neg_iff.mp hp, hg.nodup hp⟩, fun q w' hq => ?_⟩
    have hle := hmin q (-w') (walk_neg_iff.mpr ((neg_neg w').symm ▸ hq.walk))
    exact le_neg.mp hle

theorem acyclic_of_descendants (h : ∀ k ∈ g.edges.keys, k.1 ≠ k.2 ∧ k.1 ∉ Digraph.descendants g.edges.keys k.2) :
    Acyclic g :=
  fun k hk hreach => (h k hk).2 (Digraph.mem_descendants.mpr ⟨(h k hk).1, hreach⟩)

theorem Acyclic.weights (hg : Acyclic g) : Digraph.Acyclic ((weights weight g).map Prod.fst) := by
  rwa [keys_weights]

theorem heaviestFirst_iff : HeaviestFirst g s t ↔
    ∀ dir, GreedyLeast (Bidirectional.oriented dir (weights negWeight g)) (Bidirectional.root s t dir) := by
  constructor
  · intro h dir
    cases dir with
    | forward => exact h.forward
    | backward => exact h.backward
  · exact fun h => ⟨h .forward, h .backward⟩

theorem criticalPath_eq_some_iff {nx : Networkx} {S : Search String ℚ} {ending : Ending} (hs : s ∈ g.nodes.keys)
    (ht : t ∈ g.nodes.keys) (h : RunsDijkstra round nx g negWeight s t S ending) :
    criticalPath nx (some g) s t = .ok (some p) ↔ ending = .met ∧ S.path = p := by
  rw [criticalPath, if_pos ⟨hs, ht⟩, h.result]
  cases ending with
  | met => simp [nxResult]
  | contradictory => simp [nxResult]
  | exhausted => simp [nxResult]

end

def advance (g : DiGraph) (dir : Dir) (v : String) (S : Search String ℚ) : Search String ℚ :=
  (expand (weights negWeight g) dir v (0, [v]) S).getD S

/-- After `s` is settled from its side and `t` from the other. -/
def endsSettled (g : DiGraph) (s t : String) : Search String ℚ :=
  advance g .backward t (advance g .forward s (start s t))

section
variable {g : DiGraph} {s t v : String} {S : Search String ℚ} {dir : Dir}

theorem step_advance (hnext : Next S dir v (0, [v])) (hother : v ∉ (S.side dir.other).settled)
    (hsome : (expand (weights negWeight g) dir v (0, [v]) S).isSome) :
    Step (weights negWeight g) S (advance g dir v S) := by
  obtain ⟨S', hS'⟩ := Option.isSome_iff_exists.mp hsome
  refine .mk hnext hother ?_
  rw [advance, hS', Option.getD_some]

/-- The search ends there if the source side settles the target next. -/
theorem finishes_endsSettled (label : ℚ × List String) (hne : s ≠ t)
    (hfirst : Next (start s t) .forward s ((0 : ℚ), [s]) ∧
      (expand (weights negWeight g) .forward s (0, [s]) (start s t)).isSome)
    (hsecond : Next (advance g .forward s (start s t)) .backward t (0, [t]) ∧
      t ∉ ((advance g .forward s (start s t)).side .forward).settled ∧
      (expand (weights negWeight g) .backward t (0, [t]) (advance g .forward s (start s t))).isSome)
    (hlast : Next (endsSettled g s t) .forward t label ∧ t ∈ ((endsSettled g s t).side .backward).settled) :
    Finishes (weights negWeight g) s t (endsSettled g s t) .met := by
  have hrun₁ := step_advance hfirst.1 List.not_mem_nil hfirst.2
  have hrun₂ := step_advance hsecond.1 hsecond.2.1 hsecond.2.2
  exact .searched hne (.tail (.single hrun₁) hrun₂) (.met hlast.1 hlast.2)

end

def single (l : SGIRGraph) : SoftwareGraph where
  repositoryName := "repo"
  layers := [l]
  keyed := List.nodup_singleton _

def callEdge (source target : String) (weight : ℚ) : SGIREdge where
  source := source
  target := target
  edgeType := .call
  weight := weight

/-- networkx where it finds that a call is the shortest path. -/
def callNetworkx : Networkx := { (default : Networkx) with shortestPath := fun _ _ s t => .ok [s, t] }

/-- One call. -/
def direct : SGIRGraph where
  layer := .call
  nodes := [{ id := "s", name := "s" }, { id := "t", name := "t" }]
  edges := [callEdge "s" "t" 1]

theorem exact_id {g : DiGraph} {s t : String} : Exact id (weights negWeight g) s t := fun _ _ _ _ _ => rfl

theorem runs_direct : RunsDijkstra id callNetworkx (ofLayer direct) negWeight "s" "t"
    (endsSettled (ofLayer direct) "s" "t") .met where
  finishes := (Bidirectional.finishes_rounded_iff exact_id).mpr <| finishes_endsSettled (-1, ["s", "t"]) (by decide)
    (by decide +kernel) (by decide +kernel) (by decide +kernel)
  result := congrArg Except.ok (by decide +kernel)

theorem isPath_direct : IsPath (ofLayer direct) "s" "t" ["s", "t"] (1 + 0) where
  walk := by
    have hweights : weights EdgeData.weight (ofLayer direct) = [(("s", "t"), 1)] := by decide +kernel
    rw [hweights]
    exact .cons List.mem_cons_self (.single "t")
  nodup := by decide

/-- A walk over a single edge stays where it is or takes the edge. -/
theorem greedyLeast_single {x y : String} {c : ℚ} (hne : x ≠ y) : GreedyLeast [((x, y), c)] x := by
  have hweight : ∀ z p d, Walk [((x, y), c)] x z p d → z = x ∧ d = 0 ∨ z = y ∧ d = c := by
    intro z p d h
    rcases h.cases_head with ⟨rfl, rfl⟩ | ⟨y', c', p', d', he, hrest, rfl⟩
    · exact .inl ⟨rfl, rfl⟩
    · cases List.mem_singleton.mp he
      rcases hrest.cases_head with ⟨rfl, rfl⟩ | ⟨y'', c'', p'', d'', he, -, -⟩
      · exact .inr ⟨rfl, add_zero _⟩
      · cases List.mem_singleton.mp he
        exact absurd rfl hne
  intro z p d hp q d' hq
  rcases hweight z p d (hp.mono Bidirectional.foremost_subset), hweight z q d' hq with
    ⟨⟨rfl, rfl⟩ | ⟨rfl, rfl⟩, ⟨hz, rfl⟩ | ⟨hz, rfl⟩⟩
  · exact le_rfl
  · exact absurd hz hne
  · exact absurd hz.symm hne
  · exact le_rfl

theorem heaviestFirst_direct : HeaviestFirst (ofLayer direct) "s" "t" := by
  have hweights : weights negWeight (ofLayer direct) = [(("s", "t"), -1)] := by decide +kernel
  constructor
  · rw [hweights]
    exact greedyLeast_single (by decide)
  · rw [hweights]
    exact greedyLeast_single (x := "t") (y := "s") (by decide)

/-- The call from `s` to `t` is heavier than any other, but three others together are heavier still. -/
def shortcut : SGIRGraph where
  layer := .call
  nodes := ["s", "a", "b", "t"].map fun id => { id, name := id }
  edges := [callEdge "s" "t" 2, callEdge "s" "a" 1, callEdge "a" "b" 1, callEdge "b" "t" 1]

theorem runs_shortcut : RunsDijkstra id callNetworkx (ofLayer shortcut) negWeight "s" "t"
    (endsSettled (ofLayer shortcut) "s" "t") .met where
  finishes := (Bidirectional.finishes_rounded_iff exact_id).mpr <| finishes_endsSettled (-2, ["s", "t"]) (by decide)
    (by decide +kernel) (by decide +kernel) (by decide +kernel)
  result := congrArg Except.ok (by decide +kernel)

theorem weights_shortcut : weights EdgeData.weight (ofLayer shortcut) =
    [(("s", "t"), 2), (("s", "a"), 1), (("a", "b"), 1), (("b", "t"), 1)] := by decide +kernel

end Intelliqx.Graph.Index
