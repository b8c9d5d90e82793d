import Mathlib.Algebra.Order.BigOperators.Group.List
import Mathlib.Data.List.Count
import Mathlib.Data.List.Nodup
import Mathlib.Tactic.Ring

/-!
# Edges counted at their ends

An edge has two ends. Where the nodes fall into classes, each end is in one of
them, so an edge inside a class counts twice there and an edge between two
classes once in each (`sum_inner_crossing`). With a class for each node this is
the sum of the degrees (`sum_incident`).
-/

namespace Intelliqx.Digraph

variable {α : Type u}

def ends (edges : List (α × α)) : List α := edges.flatMap fun e => [e.1, e.2]

section
variable {edges : List (α × α)} {x : α}

theorem length_ends : (ends edges).length = 2 * edges.length := by
  induction edges with
  | nil => rfl
  | cons e es ih =>
    simp only [ends, List.flatMap_cons, List.length_append, List.length_cons, List.length_nil] at ih ⊢
    omega

theorem mem_ends : x ∈ ends edges ↔ ∃ e ∈ edges, x = e.1 ∨ x = e.2 := by
  simp [ends]

end

variable [DecidableEq α]

/-- The edges inside the class. -/
def inner (edges : List (α × α)) (c : List α) : Nat := edges.countP fun e => e.1 ∈ c ∧ e.2 ∈ c

/-- The edges with one end in the class. -/
def crossing (edges : List (α × α)) (c : List α) : Nat :=
  edges.countP fun e => ¬ (e.1 ∈ c ∧ e.2 ∈ c) ∧ (e.1 ∈ c ∨ e.2 ∈ c)

section
variable {edges : List (α × α)} {classes : List (List α)} {nodes c l : List α} {x : α}

theorem countP_ends : (ends edges).countP (· ∈ c) = 2 * inner edges c + crossing edges c := by
  induction edges with
  | nil => rfl
  | cons e es ih =>
    have hends : (ends (e :: es)).countP (· ∈ c) = [e.1, e.2].countP (· ∈ c) + (ends es).countP (· ∈ c) := by
      rw [ends, List.flatMap_cons, List.countP_append]
      rfl
    rw [hends, ih, inner, inner, crossing, crossing]
    simp only [List.countP_cons, List.countP_nil]
    by_cases h1 : e.1 ∈ c <;> by_cases h2 : e.2 ∈ c <;> simp [h1, h2] <;> ring

/-- An element is in one class. -/
theorem sum_mem_of_nodup (h : classes.flatten.Nodup) (hx : x ∈ classes.flatten) :
    (classes.map fun c => if x ∈ c then 1 else 0).sum = 1 := by
  induction classes with
  | nil => cases hx
  | cons c cs ih =>
    rw [List.flatten_cons] at h hx
    obtain ⟨-, hrest, hdisjoint⟩ := List.nodup_append.mp h
    rw [List.map_cons, List.sum_cons]
    by_cases hc : x ∈ c
    · have hnone : ∀ n ∈ cs.map (fun c => if x ∈ c then 1 else 0), n = 0 := by
        intro n hn
        obtain ⟨d, hd, rfl⟩ := List.mem_map.mp hn
        exact if_neg fun hxd => hdisjoint x hc x (List.mem_flatten_of_mem hd hxd) rfl
      rw [if_pos hc, List.sum_eq_zero hnone, add_zero]
    · rw [if_neg hc, ih hrest ((List.mem_append.mp hx).resolve_left hc)]

/-- What lies in the classes is counted once. -/
theorem sum_countP_mem (h : classes.flatten.Nodup) (hl : l ⊆ classes.flatten) :
    (classes.map fun c => l.countP (· ∈ c)).sum = l.length := by
  induction l with
  | nil => simp
  | cons x xs ih =>
    obtain ⟨hx, hxs⟩ := List.cons_subset.mp hl
    have hcons : (fun c : List α => (x :: xs).countP (· ∈ c)) =
        fun c => xs.countP (· ∈ c) + if x ∈ c then 1 else 0 := by
      funext c
      simp [List.countP_cons]
    rw [hcons, List.sum_map_add, ih hxs, sum_mem_of_nodup h hx, List.length_cons]

theorem sum_inner_crossing (h : classes.flatten.Nodup) (hends : ends edges ⊆ classes.flatten) :
    (classes.map fun c => 2 * inner edges c + crossing edges c).sum = 2 * edges.length := by
  simp only [← countP_ends]
  rw [sum_countP_mem h hends, length_ends]

/-- The edges out of a node and into it. -/
theorem countP_ends_singleton : (ends edges).countP (· ∈ [x]) =
    (edges.filter fun e => e.2 = x).length + (edges.filter fun e => e.1 = x).length := by
  induction edges with
  | nil => rfl
  | cons e es ih =>
    have hends : (ends (e :: es)).countP (· ∈ [x]) = [e.1, e.2].countP (· ∈ [x]) + (ends es).countP (· ∈ [x]) := by
      rw [ends, List.flatMap_cons, List.countP_append]
      rfl
    rw [hends, ih]
    simp only [List.countP_cons, List.countP_nil, List.filter_cons, List.mem_singleton]
    by_cases h1 : e.1 = x <;> by_cases h2 : e.2 = x <;> simp [h1, h2] <;> ring

theorem sum_incident (h : nodes.Nodup) (hends : ends edges ⊆ nodes) :
    (nodes.map fun x => (edges.filter fun e => e.2 = x).length + (edges.filter fun e => e.1 = x).length).sum =
      2 * edges.length := by
  have hflatten : (nodes.map fun x => [x]).flatten = nodes := by
    rw [← List.flatMap_def]
    exact List.flatMap_singleton' nodes
  have hsum : ((nodes.map fun x => [x]).map fun c => (ends edges).countP (· ∈ c)).sum = (ends edges).length :=
    sum_countP_mem (hflatten.symm ▸ h) (hflatten.symm ▸ hends)
  simp only [List.map_map, Function.comp_def, countP_ends_singleton, length_ends] at hsum
  exact hsum

end

end Intelliqx.Digraph
