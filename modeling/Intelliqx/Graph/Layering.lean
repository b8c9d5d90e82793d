import Intelliqx.Base.Levels
import Intelliqx.Graph.CycleBreaking
import Mathlib.Data.Finset.Basic

/-!
# Levels of a graph

`parallel_levels` takes the nodes without predecessors, then round by round the
successors whose predecessors all have a level. Round `k` finds the nodes of
depth `k` (`mem_nextLevel`), so the loop ends on every graph, and the levels
of an acyclic one are its nodes by their longest paths (`parallel_levels_layers`).
-/

namespace Intelliqx.Graph

open Intelliqx.Digraph

def roots (nodes : List String) (edges : List (String × String)) : Finset String :=
  (nodes.filter fun n => ∀ e ∈ edges, e.2 ≠ n).toFinset

/-- The successors of `current` that are not assigned but have all their
predecessors assigned. -/
def nextLevel (edges : List (String × String)) (assigned current : Finset String) : Finset String :=
  ((edges.filter fun e => e.1 ∈ current ∧ e.2 ∉ assigned ∧
    ∀ p ∈ edges, p.2 = e.2 → p.1 ∈ assigned).map Prod.snd).toFinset

/-- The loop of `parallel_levels`; every round but the last assigns a node. -/
def levelsFrom (edges : List (String × String)) : Nat → Finset String → Finset String → List (Finset String)
  | 0, _, _ => []
  | rounds + 1, assigned, current =>
    if current = ∅ then []
    else
      let assigned := assigned ∪ current
      current :: levelsFrom edges rounds assigned (nextLevel edges assigned current)

def parallelLevels (nodes : List String) (edges : List (String × String)) : List (Finset String) :=
  levelsFrom edges nodes.length ∅ (roots nodes edges)

/-- `is_directed_acyclic_graph` -/
def isAcyclic (edges : List (String × String)) : Bool := edges.all fun e => ¬ Reaches edges e.2 e.1

/-- A run of the loop from the assigned nodes and the current level to its end,
and the levels it appends. -/
inductive LevelsLoop (edges : List (String × String)) :
    Finset String → Finset String → List (Finset String) → Prop
  | done : LevelsLoop edges assigned ∅ []
  | round (hne : current ≠ ∅)
      (hloop : LevelsLoop edges (assigned ∪ current) (nextLevel edges (assigned ∪ current) current) levels) :
      LevelsLoop edges assigned current (current :: levels)

-- ---------------------------------------------------------------------------
-- The levels are the nodes of each depth
-- ---------------------------------------------------------------------------

/-- The nodes of one depth in a layer. -/
def AtDepth (nodes : List String) (edges : List (String × String)) (k : Nat) (x : String) : Prop :=
  x ∈ nodes ∧ HasDepth edges k x

section
variable {nodes : List String} {edges : List (String × String)} {assigned current level : Finset String}
  {j k n : Nat} {x y : String}

theorem mem_roots : x ∈ roots nodes edges ↔ AtDepth nodes edges 0 x := by
  simp only [roots, List.mem_toFinset, List.mem_filter, decide_eq_true_eq, AtDepth, hasDepth_zero_iff]
  refine and_congr_right fun _ => ⟨fun h y he => h _ he rfl, ?_⟩
  rintro h ⟨y, z⟩ he rfl
  exact h y he

theorem mem_nextLevel (hends : EndsIn nodes edges)
    (hassigned : ∀ x, x ∈ assigned ↔ ∃ j ≤ k, AtDepth nodes edges j x)
    (hcurrent : ∀ x, x ∈ current ↔ AtDepth nodes edges k x) :
    y ∈ nextLevel edges assigned current ↔ AtDepth nodes edges (k + 1) y := by
  simp only [nextLevel, List.mem_toFinset, List.mem_map, List.mem_filter, decide_eq_true_eq, Prod.exists,
    exists_eq_right, hassigned, hcurrent]
  rw [AtDepth, hasDepth_succ_iff]
  constructor
  · rintro ⟨x, he, ⟨-, hx⟩, -, hpred⟩
    refine ⟨(hends _ he).2, ⟨x, he, hx⟩, ?_⟩
    intro z hz
    obtain ⟨j, hj, -, hd⟩ := hpred (z, y) hz rfl
    exact ⟨j, hj, hd⟩
  · rintro ⟨-, ⟨x, he, hx⟩, hpred⟩
    refine ⟨x, he, ⟨(hends _ he).1, hx⟩, ?_, ?_⟩
    · rintro ⟨j, hj, -, hd⟩
      have := hd.unique (hasDepth_succ_iff.mpr ⟨⟨x, he, hx⟩, hpred⟩)
      omega
    · rintro ⟨z, w⟩ hz rfl
      obtain ⟨j, hj, hd⟩ := hpred z hz
      exact ⟨j, hj, (hends _ hz).1, hd⟩

/-- What the rounds add to the assigned nodes. -/
theorem assigned_union (hassigned : ∀ x, x ∈ assigned ↔ ∃ j < k, AtDepth nodes edges j x)
    (hcurrent : ∀ x, x ∈ current ↔ AtDepth nodes edges k x) :
    ∀ x, x ∈ assigned ∪ current ↔ ∃ j ≤ k, AtDepth nodes edges j x := by
  intro x
  rw [Finset.mem_union, hassigned, hcurrent]
  constructor
  · rintro (⟨j, hj, hd⟩ | hd)
    · exact ⟨j, hj.le, hd⟩
    · exact ⟨k, le_rfl, hd⟩
  · rintro ⟨j, hj, hd⟩
    rcases hj.lt_or_eq with hlt | rfl
    · exact .inl ⟨j, hlt, hd⟩
    · exact .inr hd

/-- The state of the loop in front of round `k`. -/
structure LevelsBelow (nodes : List String) (edges : List (String × String)) (k : Nat)
    (assigned current : Finset String) : Prop where
  assigned : ∀ x, x ∈ assigned ↔ ∃ j < k, AtDepth nodes edges j x
  current : ∀ x, x ∈ current ↔ AtDepth nodes edges k x

end

-- ---------------------------------------------------------------------------
-- The loop
-- ---------------------------------------------------------------------------

/-- What `parallel_levels` promises: the levels partition the nodes, edges lead
to later levels, and a node's level is the length of its longest path. -/
structure IsLayering (nodes : List String) (edges : List (String × String)) (levels : List (Finset String)) :
    Prop where
  nonempty : ∅ ∉ levels
  disjoint : levels.Pairwise Disjoint
  union : ∀ x, x ∈ nodes ↔ ∃ level ∈ levels, x ∈ level
  forward : ∀ e ∈ edges, ∀ i j, e.1 ∈ levels.getD i ∅ → e.2 ∈ levels.getD j ∅ → i < j
  longest : ∀ k x, x ∈ levels.getD k ∅ ↔ x ∈ nodes ∧ IsGreatest (pathLengths edges x) k

section
variable {nodes : List String} {edges : List (String × String)} {assigned current level : Finset String}
  {levels levels' : List (Finset String)} {i j k n : Nat} {x y : String}

theorem levelsBelow_roots : LevelsBelow nodes edges 0 ∅ (roots nodes edges) := ⟨by simp, fun _ => mem_roots⟩

theorem LevelsBelow.round (hends : EndsIn nodes edges) (h : LevelsBelow nodes edges k assigned current) :
    LevelsBelow nodes edges (k + 1) (assigned ∪ current) (nextLevel edges (assigned ∪ current) current) := by
  have hunion := assigned_union h.assigned h.current
  exact ⟨by simpa only [Nat.lt_succ_iff] using hunion, fun _ => mem_nextLevel hends hunion h.current⟩

/-- Below a node there is one of every smaller depth. -/
theorem AtDepth.below (hends : EndsIn nodes edges) (hx : AtDepth nodes edges (k + i) x) :
    ∃ z, AtDepth nodes edges k z := by
  induction i generalizing x with
  | zero => exact ⟨x, hx⟩
  | succ i ih =>
    obtain ⟨z, he, hz⟩ := (hasDepth_succ_iff.mp hx.2).1
    exact ih ⟨(hends _ he).1, hz⟩

/-- As many rounds as there are nodes are enough. -/
theorem LevelsBelow.ends (hends : EndsIn nodes edges) (h : LevelsBelow nodes edges k assigned current)
    (hn : nodes.length ≤ k + n) : LevelsLoop edges assigned current (levelsFrom edges n assigned current) := by
  induction n generalizing k assigned current with
  | zero =>
    have hnone : current = ∅ := by
      refine Finset.eq_empty_of_forall_notMem fun x hx => ?_
      obtain ⟨hmem, hdepth⟩ := (h.current x).mp hx
      have hlt := hdepth.lt_length (fun e he => (hends e he).1) hmem
      omega
    rw [hnone]
    exact .done
  | succ n ih =>
    rw [levelsFrom]
    split
    · rename_i hnone
      rw [hnone]
      exact .done
    · rename_i hne
      exact .round hne (ih (h.round hends) (by omega))

theorem LevelsLoop.unique (h : LevelsLoop edges assigned current levels)
    (h' : LevelsLoop edges assigned current levels') : levels = levels' := by
  induction h generalizing levels' with
  | done =>
    cases h' with
    | done => rfl
    | round hne _ => exact absurd rfl hne
  | round hne _ ih =>
    cases h' with
    | done => exact absurd rfl hne
    | round _ hloop => rw [ih hloop]

theorem LevelsLoop.nonempty (h : LevelsLoop edges assigned current levels) : ∅ ∉ levels := by
  induction h with
  | done => exact List.not_mem_nil
  | round hne _ ih => exact fun hmem => (List.mem_cons.mp hmem).elim (fun heq => hne heq.symm) ih

/-- Round `i` from now appends the nodes that lie `i` deeper. -/
theorem LevelsLoop.mem_getD (hends : EndsIn nodes edges) (hloop : LevelsLoop edges assigned current levels)
    (h : LevelsBelow nodes edges k assigned current) :
    x ∈ levels.getD i ∅ ↔ AtDepth nodes edges (k + i) x := by
  induction hloop generalizing k i with
  | done =>
    refine iff_of_false (by simp) fun hx => ?_
    obtain ⟨z, hz⟩ := hx.below hends
    exact Finset.notMem_empty z ((h.current z).mpr hz)
  | round _ _ ih =>
    cases i with
    | zero => exact h.current x
    | succ i => rw [List.getD_cons_succ, ih (h.round hends), Nat.add_assoc, Nat.add_comm 1 i]

/-- The loop ends with one list of levels, on a graph with cycles too. -/
theorem levelsLoop_iff (hends : EndsIn nodes edges) :
    LevelsLoop edges ∅ (roots nodes edges) levels ↔ levels = parallelLevels nodes edges := by
  have hloop : LevelsLoop edges ∅ (roots nodes edges) (parallelLevels nodes edges) :=
    levelsBelow_roots.ends hends (Nat.le_add_left _ _)
  exact ⟨fun h => h.unique hloop, fun h => h ▸ hloop⟩

theorem mem_parallelLevels_getD (hends : EndsIn nodes edges) :
    x ∈ (parallelLevels nodes edges).getD k ∅ ↔ AtDepth nodes edges k x := by
  rw [((levelsLoop_iff hends).mpr rfl).mem_getD hends levelsBelow_roots, Nat.zero_add]

theorem depth_of_mem_parallelLevels (hends : EndsIn nodes edges) (h : level ∈ parallelLevels nodes edges) :
    ∃ k, ∀ x, x ∈ level ↔ AtDepth nodes edges k x := by
  obtain ⟨k, hk⟩ := List.mem_iff_getElem?.mp h
  refine ⟨k, fun x => ?_⟩
  rw [← mem_parallelLevels_getD hends, List.getD_eq_getElem?_getD, hk, Option.getD_some]

theorem exists_mem_parallelLevels (hends : EndsIn nodes edges) (hx : AtDepth nodes edges k x) :
    ∃ level ∈ parallelLevels nodes edges, ∀ x, x ∈ level ↔ AtDepth nodes edges k x := by
  have hmem := (mem_parallelLevels_getD hends).mpr hx
  rw [List.getD_eq_getElem?_getD] at hmem
  cases hk : (parallelLevels nodes edges)[k]? with
  | none => simp [hk] at hmem
  | some level =>
    refine ⟨level, List.mem_of_getElem? hk, fun y => ?_⟩
    rw [← mem_parallelLevels_getD hends, List.getD_eq_getElem?_getD, hk, Option.getD_some]

theorem parallelLevels_disjoint (hends : EndsIn nodes edges) : (parallelLevels nodes edges).Pairwise Disjoint := by
  refine List.pairwise_iff_getElem.mpr fun i j hi hj hlt => Finset.disjoint_left.mpr fun x hxi hxj => ?_
  have hdepth : ∀ i (hi : i < (parallelLevels nodes edges).length), x ∈ (parallelLevels nodes edges)[i] →
      AtDepth nodes edges i x := by
    intro i hi hx
    rwa [← mem_parallelLevels_getD hends, List.getD_eq_getElem?_getD, List.getElem?_eq_getElem hi, Option.getD_some]
  exact hlt.ne ((hdepth i hi hxi).2.unique (hdepth j hj hxj).2)

end

/-- On every acyclic graph the loop of `parallel_levels` ends with the layering
by longest paths. -/
theorem parallel_levels_layers {nodes : List String} {edges : List (String × String)} (hends : EndsIn nodes edges)
    (hacyclic : isAcyclic edges) :
    LevelsLoop edges ∅ (roots nodes edges) (parallelLevels nodes edges) ∧
      IsLayering nodes edges (parallelLevels nodes edges) := by
  have hloop := (levelsLoop_iff hends).mpr rfl
  have hfree : ∀ e ∈ edges, ¬ Reaches edges e.2 e.1 := by simpa [isAcyclic] using hacyclic
  refine ⟨hloop, hloop.nonempty, parallelLevels_disjoint hends, fun x => ⟨fun hx => ?_, ?_⟩, ?_, ?_⟩
  · obtain ⟨k, hk⟩ := exists_hasDepth hfree (fun e he => (hends e he).1) hx
    obtain ⟨level, hlevel, hmem⟩ := exists_mem_parallelLevels hends ⟨hx, hk⟩
    exact ⟨level, hlevel, (hmem x).mpr ⟨hx, hk⟩⟩
  · rintro ⟨level, hlevel, hx⟩
    obtain ⟨k, hmem⟩ := depth_of_mem_parallelLevels hends hlevel
    exact ((hmem x).mp hx).1
  · intro e he i j hi hj
    rw [mem_parallelLevels_getD hends] at hi hj
    exact hi.2.lt_of_edge hj.2 he
  · intro k x
    rw [mem_parallelLevels_getD hends, AtDepth, hasDepth_iff_longest hfree]

/-- The node behind both branches waits for the longer one. -/
theorem parallel_levels_detour :
    IsLayering ["a", "b", "c", "d"] [("a", "b"), ("b", "c"), ("c", "d"), ("a", "d")] [{"a"}, {"b"}, {"c"}, {"d"}] := by
  have hlevels : parallelLevels ["a", "b", "c", "d"] [("a", "b"), ("b", "c"), ("c", "d"), ("a", "d")] =
      [{"a"}, {"b"}, {"c"}, {"d"}] := by decide +kernel
  rw [← hlevels]
  exact (parallel_levels_layers (by unfold EndsIn; decide) (by decide +kernel)).2

end Intelliqx.Graph
