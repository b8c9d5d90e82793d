import Intelliqx.Base.Digraph
import Mathlib.Data.List.Chain
import Mathlib.Order.Bounds.Basic
import Mathlib.Order.Nat

/-!
# Levels

A node has depth `k` when the longest walk that ends at it has `k` edges; what
lies behind a cycle has no depth. Nodes of one depth do not reach each other
(`HasDepth.independent`), and a node of depth `k + 1` is a successor of one of
depth `k` all of whose predecessors have depth `k` or less. Without cycles every
node has a depth, the length of a longest path (`hasDepth_iff_longest`).
-/

namespace Intelliqx.Digraph

variable {α : Type u}

/-- Some walk of `k` edges ends at the node. -/
def EndsWalk (edges : List (α × α)) : Nat → α → Prop
  | 0, _ => True
  | k + 1, y => ∃ x, (x, y) ∈ edges ∧ EndsWalk edges k x

/-- The longest walk that ends at the node has `k` edges. -/
structure HasDepth (edges : List (α × α)) (k : Nat) (y : α) : Prop where
  ends : EndsWalk edges k y
  longest : ¬ EndsWalk edges (k + 1) y

section
variable {edges : List (α × α)} {j k : Nat} {x y : α}

theorem EndsWalk.of_succ (h : EndsWalk edges (k + 1) y) : EndsWalk edges k y := by
  induction k generalizing y with
  | zero => trivial
  | succ k ih =>
    obtain ⟨x, he, hx⟩ := h
    exact ⟨x, he, ih hx⟩

theorem EndsWalk.of_le (h : EndsWalk edges k y) (hle : j ≤ k) : EndsWalk edges j y := by
  induction hle with
  | refl => exact h
  | step _ ih => exact ih h.of_succ

theorem EndsWalk.reaches (h : EndsWalk edges k x) (hr : Reaches edges x y) : EndsWalk edges k y := by
  induction hr with
  | refl => exact h
  | tail _ he ih => exact EndsWalk.of_succ ⟨_, he, ih⟩

theorem HasDepth.unique (hj : HasDepth edges j y) (hk : HasDepth edges k y) : j = k := by
  rcases lt_trichotomy j k with hlt | heq | hlt
  · exact absurd (hk.ends.of_le hlt) hj.longest
  · exact heq
  · exact absurd (hj.ends.of_le hlt) hk.longest

theorem exists_depth (h : ¬ EndsWalk edges (k + 1) y) : ∃ j ≤ k, HasDepth edges j y := by
  induction k with
  | zero => exact ⟨0, le_rfl, trivial, h⟩
  | succ k ih =>
    by_cases hk : EndsWalk edges (k + 1) y
    · exact ⟨k + 1, le_rfl, hk, h⟩
    · obtain ⟨j, hj, hd⟩ := ih hk
      exact ⟨j, hj.trans (Nat.le_succ k), hd⟩

theorem hasDepth_zero_iff : HasDepth edges 0 y ↔ ∀ x, (x, y) ∉ edges :=
  ⟨fun h x he => h.longest ⟨x, he, trivial⟩, fun h => ⟨trivial, fun ⟨x, he, _⟩ => h x he⟩⟩

/-- The step from one level to the next one. -/
theorem hasDepth_succ_iff : HasDepth edges (k + 1) y ↔
    (∃ x, (x, y) ∈ edges ∧ HasDepth edges k x) ∧ ∀ x, (x, y) ∈ edges → ∃ j ≤ k, HasDepth edges j x := by
  constructor
  · intro h
    have hpred : ∀ x, (x, y) ∈ edges → ¬ EndsWalk edges (k + 1) x := fun x he hx => h.longest ⟨x, he, hx⟩
    obtain ⟨x, he, hx⟩ := h.ends
    exact ⟨⟨x, he, hx, hpred x he⟩, fun x he => exists_depth (hpred x he)⟩
  · rintro ⟨⟨x, he, hx⟩, hpred⟩
    refine ⟨⟨x, he, hx.ends⟩, ?_⟩
    rintro ⟨x, he, hx⟩
    obtain ⟨j, hj, hd⟩ := hpred x he
    exact hd.longest (hx.of_le (Nat.succ_le_succ hj))

theorem HasDepth.independent (hx : HasDepth edges k x) (hy : HasDepth edges k y) (hne : x ≠ y) :
    ¬ Reaches edges x y := by
  intro hr
  rcases Relation.ReflTransGen.cases_head hr with heq | ⟨z, he, hr⟩
  · exact hne heq
  · have hz : EndsWalk edges (k + 1) z := ⟨x, he, hx.ends⟩
    exact hy.longest (hz.reaches hr)

theorem HasDepth.lt_of_edge (hx : HasDepth edges i x) (hy : HasDepth edges j y) (he : (x, y) ∈ edges) : i < j := by
  by_contra hle
  have hwalk : EndsWalk edges (i + 1) y := ⟨x, he, hx.ends⟩
  exact hy.longest (hwalk.of_le (by omega))

/-- Below a node of depth `k` there is one of every depth, so `k` is less than
the number of nodes. -/
theorem HasDepth.lt_length {nodes : List α} (hends : ∀ e ∈ edges, e.1 ∈ nodes) (hy : y ∈ nodes)
    (h : HasDepth edges k y) : k < nodes.length := by
  have hbelow : ∃ below : List α, below.length = k + 1 ∧ below.Nodup ∧ below ⊆ nodes ∧
      ∀ x ∈ below, ∃ j ≤ k, HasDepth edges j x := by
    induction k generalizing y with
    | zero =>
      refine ⟨[y], rfl, List.nodup_singleton y, fun _ hx => List.mem_singleton.mp hx ▸ hy, ?_⟩
      intro x hx
      exact ⟨0, le_rfl, List.mem_singleton.mp hx ▸ h⟩
    | succ k ih =>
      obtain ⟨x, he, hx⟩ := (hasDepth_succ_iff.mp h).1
      obtain ⟨below, hlen, hnodup, hsub, hdepth⟩ := ih (hends _ he) hx
      refine ⟨y :: below, by rw [List.length_cons, hlen], ?_, List.cons_subset.mpr ⟨hy, hsub⟩, ?_⟩
      · refine List.nodup_cons.mpr ⟨?_, hnodup⟩
        intro hmem
        obtain ⟨j, hj, hd⟩ := hdepth y hmem
        have := hd.unique h
        omega
      · intro z hz
        rcases List.mem_cons.mp hz with rfl | hz
        · exact ⟨k + 1, le_rfl, h⟩
        · obtain ⟨j, hj, hd⟩ := hdepth z hz
          exact ⟨j, hj.trans (Nat.le_succ k), hd⟩
  obtain ⟨below, hlen, hnodup, hsub, -⟩ := hbelow
  have hle := (List.subperm_of_subset hnodup hsub).length_le
  omega

end

-- ---------------------------------------------------------------------------
-- Longest paths
-- ---------------------------------------------------------------------------

/-- A path that ends at the node, by its nodes. -/
structure PathTo (edges : List (α × α)) (y : α) (p : List α) : Prop where
  chain : p.IsChain fun a b => (a, b) ∈ edges
  nodup : p.Nodup
  last : p.getLast? = some y

/-- The numbers of edges of the paths that end at the node. -/
def pathLengths (edges : List (α × α)) (y : α) : Set Nat := {k | ∃ p, PathTo edges y p ∧ p.length = k + 1}

section
variable {edges : List (α × α)} {nodes p : List α} {j k : Nat} {x y : α}

theorem endsWalk_iff_chain : EndsWalk edges k y ↔
    ∃ p : List α, (p.IsChain fun a b => (a, b) ∈ edges) ∧ p.length = k + 1 ∧ p.getLast? = some y := by
  induction k generalizing y with
  | zero => exact ⟨fun _ => ⟨[y], .singleton y, rfl, rfl⟩, fun _ => trivial⟩
  | succ k ih =>
    constructor
    · rintro ⟨x, he, hx⟩
      obtain ⟨p, hchain, hlen, hlast⟩ := ih.mp hx
      refine ⟨p ++ [y], List.isChain_append.mpr ⟨hchain, .singleton y, ?_⟩, ?_, List.getLast?_concat⟩
      · rw [hlast]
        rintro a ⟨⟩ b ⟨⟩
        exact he
      · rw [List.length_append, hlen, List.length_singleton]
    · rintro ⟨p, hchain, hlen, hlast⟩
      obtain ⟨q, rfl⟩ := List.getLast?_eq_some_iff.mp hlast
      have hq : q.length = k + 1 := by simpa using hlen
      obtain ⟨hchain, -, hjoin⟩ := List.isChain_append.mp hchain
      have hne : q ≠ [] := List.ne_nil_of_length_pos (hq ▸ Nat.succ_pos k)
      have hend := List.getLast?_eq_getLast_of_ne_nil hne
      exact ⟨_, hjoin _ hend y rfl, ih.mpr ⟨q, hchain, hq, hend⟩⟩

/-- A walk that comes back to a node closes a cycle. -/
theorem nodup_of_chain (hacyclic : ∀ e ∈ edges, ¬ Reaches edges e.2 e.1)
    (h : p.IsChain fun a b => (a, b) ∈ edges) : p.Nodup := by
  induction h with
  | nil => exact List.nodup_nil
  | singleton a => exact List.nodup_singleton a
  | @cons_cons a b q he hchain ih =>
    refine List.nodup_cons.mpr ⟨fun hmem => hacyclic _ he ?_, ih⟩
    rcases List.mem_cons.mp hmem with rfl | hmem
    · exact .refl
    · exact hchain.cons_induction (fun w => Reaches edges b w) q (fun _ _ he hr => .tail hr he) .refl a hmem

theorem mem_pathLengths (hacyclic : ∀ e ∈ edges, ¬ Reaches edges e.2 e.1) :
    k ∈ pathLengths edges y ↔ EndsWalk edges k y := by
  rw [endsWalk_iff_chain]
  constructor
  · rintro ⟨p, hp, hlen⟩
    exact ⟨p, hp.chain, hlen, hp.last⟩
  · rintro ⟨p, hchain, hlen, hlast⟩
    exact ⟨p, ⟨hchain, nodup_of_chain hacyclic hchain, hlast⟩, hlen⟩

theorem hasDepth_iff_longest (hacyclic : ∀ e ∈ edges, ¬ Reaches edges e.2 e.1) :
    HasDepth edges k y ↔ IsGreatest (pathLengths edges y) k := by
  constructor
  · intro h
    refine ⟨(mem_pathLengths hacyclic).mpr h.ends, fun j hj => ?_⟩
    by_contra hlt
    exact h.longest (((mem_pathLengths hacyclic).mp hj).of_le (Nat.not_le.mp hlt))
  · rintro ⟨hk, hmax⟩
    refine ⟨(mem_pathLengths hacyclic).mp hk, fun h => ?_⟩
    exact Nat.not_succ_le_self k (hmax ((mem_pathLengths hacyclic).mpr h))

theorem exists_hasDepth (hacyclic : ∀ e ∈ edges, ¬ Reaches edges e.2 e.1) (hends : ∀ e ∈ edges, e.1 ∈ nodes)
    (hy : y ∈ nodes) : ∃ k, HasDepth edges k y := by
  have hshort : ¬ EndsWalk edges (nodes.length + 1) y := by
    intro h
    obtain ⟨p, hp, hlen⟩ := (mem_pathLengths hacyclic).mpr h
    have hsub : p ⊆ nodes := by
      intro a ha
      obtain ⟨q, rfl⟩ := List.getLast?_eq_some_iff.mp hp.last
      rcases List.mem_append.mp ha with ha | ha
      · exact hp.chain.backwards_concat_induction (· ∈ nodes) q (fun _ _ he _ => hends _ he) hy a ha
      · exact List.mem_singleton.mp ha ▸ hy
    have hle := (List.subperm_of_subset hp.nodup hsub).length_le
    omega
  obtain ⟨k, -, hk⟩ := exists_depth hshort
  exact ⟨k, hk⟩

end

end Intelliqx.Digraph
