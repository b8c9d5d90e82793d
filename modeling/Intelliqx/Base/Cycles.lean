import Intelliqx.Base.Digraph
import Mathlib.Data.List.Chain
import Mathlib.Data.List.Permutation
import Mathlib.Data.List.Rotate
import Mathlib.Data.List.Sublists

/-!
# Elementary cycles

A cycle is the list of its nodes, the last of which leads back to the first,
and is elementary when no node occurs twice. Two nodes that reach each other
lie on closed walks only, but some elementary cycle through two nodes exists
(`exists_elementary`), so a graph without one has no cycle of two nodes.
-/

namespace Intelliqx.Digraph

variable {α : Type u}

/-- The edges a cycle runs along, the closing one last. -/
def hops (c : List α) : List (α × α) := c.zip (c.rotate 1)

structure IsElementary (edges : List (α × α)) (c : List α) : Prop where
  nonempty : c ≠ []
  distinct : c.Nodup
  along : ∀ e ∈ hops c, e ∈ edges

section
variable {edges edges' : List (α × α)} {c c' : List α} {x y : α}

theorem hops_rotate (c : List α) (n : Nat) : hops (c.rotate n) = (hops c).rotate n := by
  have hlen : c.length = (c.rotate 1).length := (List.length_rotate c 1).symm
  simp only [hops, List.zip, List.zipWith_rotate_distrib _ c (c.rotate 1) n hlen, List.rotate_rotate,
    Nat.add_comm n 1]

theorem mem_hops_of_isRotated (h : c ~r c') : e ∈ hops c ↔ e ∈ hops c' := by
  obtain ⟨n, rfl⟩ := h
  rw [hops_rotate, List.mem_rotate]

theorem map_fst_hops (c : List α) : (hops c).map Prod.fst = c :=
  List.map_fst_zip (List.length_rotate c 1).symm.le

theorem hops_cons_iff : (∀ e ∈ hops (x :: p), e ∈ edges) ↔
    (x :: (p ++ [x])).IsChain fun a b => (a, b) ∈ edges := by
  rw [List.isChain_cons_iff_forall₂, List.forall₂_iff_zip]
  simp [hops]

theorem IsElementary.mono (h : IsElementary edges c) (hsub : ∀ e ∈ hops c, e ∈ edges → e ∈ edges') :
    IsElementary edges' c :=
  ⟨h.nonempty, h.distinct, fun e he => hsub e he (h.along e he)⟩

/-- The nodes of a cycle reach each other. -/
theorem IsElementary.reaches (h : IsElementary edges c) (hx : x ∈ c) (hy : y ∈ c) :
    Reaches edges x y := by
  cases c with
  | nil => cases hx
  | cons z p =>
    have hchain := hops_cons_iff.mp h.along
    have hmem : ∀ w ∈ z :: p, w ∈ z :: (p ++ [z]) := by
      intro w hw
      simp only [List.mem_cons, List.mem_append] at hw ⊢
      exact hw.imp_right .inl
    have hto : ∀ w ∈ z :: (p ++ [z]), Reaches edges w z :=
      hchain.backwards_cons_induction (fun w => Reaches edges w z) _ (by simp) (fun _ _ he hr => .head he hr) .refl
    have hfrom : ∀ w ∈ p ++ [z], Reaches edges z w :=
      hchain.cons_induction (fun w => Reaches edges z w) _ (fun _ _ he hr => .tail hr he) .refl
    refine (hto x (hmem x hx)).trans ?_
    rcases List.mem_cons.mp hy with rfl | hy
    · exact .refl
    · exact hfrom y (List.mem_append_left _ hy)

end

-- ---------------------------------------------------------------------------
-- From reachability to a cycle
-- ---------------------------------------------------------------------------

section
variable [DecidableEq α] {edges : List (α × α)} {x y : α}

/-- A walk that comes back to a node can be cut short there. -/
theorem Reaches.exists_path (h : Reaches edges x y) :
    ∃ p, (x :: p).IsChain (fun a b => (a, b) ∈ edges) ∧ (x :: p).Nodup ∧
      (x :: p).getLast (List.cons_ne_nil x p) = y := by
  induction h using Relation.ReflTransGen.head_induction_on with
  | refl => exact ⟨[], .singleton y, List.nodup_singleton y, rfl⟩
  | @head a z he _ ih =>
    obtain ⟨p, hchain, hnodup, hlast⟩ := ih
    by_cases ha : a ∈ z :: p
    · obtain ⟨s, t, hst⟩ := List.append_of_mem ha
      have hsuffix : (a :: t) <:+ (z :: p) := ⟨s, hst.symm⟩
      refine ⟨t, hchain.suffix hsuffix, hnodup.sublist hsuffix.sublist, ?_⟩
      rw [← hlast, ← hsuffix.getLast]
    · refine ⟨z :: p, .cons_cons he hchain, List.nodup_cons.mpr ⟨ha, hnodup⟩, ?_⟩
      rw [List.getLast_cons (List.cons_ne_nil z p), hlast]

theorem exists_elementary (hne : x ≠ y) (hxy : Reaches edges x y) (hyx : Reaches edges y x) :
    ∃ c, IsElementary edges c ∧ 2 ≤ c.length := by
  obtain ⟨p, hchain, hnodup, hlast⟩ := hxy.exists_path
  cases p with
  | nil => exact absurd hlast hne
  | cons z p =>
    -- back from the second node of the path, over its end, to the first
    have hxz : x ≠ z := fun h => (List.nodup_cons.mp hnodup).1 (by simp [h])
    have hzy : Reaches edges z y := by
      rw [← hlast, List.getLast_cons (List.cons_ne_nil z p)]
      exact List.relationReflTransGen_of_exists_isChain_cons _ (List.isChain_cons_cons.mp hchain).2 rfl
    have hzx : Reaches edges z x := hzy.trans hyx
    obtain ⟨q, hback, hqnodup, hqlast⟩ := hzx.exists_path
    refine ⟨z :: q, ⟨List.cons_ne_nil z q, hqnodup, hops_cons_iff.mpr ?_⟩, ?_⟩
    · change ((z :: q) ++ [z]).IsChain _
      refine hback.append (.singleton z) ?_
      intro a ha b hb
      rw [List.getLast?_eq_getLast_of_ne_nil (List.cons_ne_nil z q), hqlast, Option.mem_some_iff] at ha
      rw [List.head?_cons, Option.mem_some_iff] at hb
      rw [← ha, ← hb]
      exact (List.isChain_cons_cons.mp hchain).1
    · cases q with
      | nil => exact absurd hqlast.symm hxz
      | cons _ _ => simp

end

-- ---------------------------------------------------------------------------
-- Enumerations
-- ---------------------------------------------------------------------------

section
variable [DecidableEq α] {nodes : List α} {edges : List (α × α)} {x y : α}

instance (edges : List (α × α)) (c : List α) : Decidable (IsElementary edges c) :=
  decidable_of_iff (c ≠ [] ∧ c.Nodup ∧ ∀ e ∈ hops c, e ∈ edges)
    ⟨fun ⟨h₁, h₂, h₃⟩ => ⟨h₁, h₂, h₃⟩, fun h => ⟨h.nonempty, h.distinct, h.along⟩⟩

/-- The nodes that reach each other, a component for each node. -/
def components (nodes : List α) (edges : List (α × α)) : List (List α) :=
  (nodes.map fun x => nodes.filter fun y => Reaches edges x y ∧ Reaches edges y x).dedup

theorem mem_components : scc ∈ components nodes edges ↔
    ∃ x ∈ nodes, (nodes.filter fun y => Reaches edges x y ∧ Reaches edges y x) = scc := by
  simp [components]

/-- All elementary cycles, in every rotation. -/
def elementaryCycles (nodes : List α) (edges : List (α × α)) : List (List α) :=
  (nodes.sublists.flatMap List.permutations).filter fun c => IsElementary edges c

theorem mem_elementaryCycles (hedges : ∀ e ∈ edges, e.1 ∈ nodes) :
    c ∈ elementaryCycles nodes edges ↔ IsElementary edges c := by
  simp only [elementaryCycles, List.mem_filter, List.mem_flatMap, List.mem_sublists,
    List.mem_permutations, decide_eq_true_eq, and_iff_right_iff_imp]
  intro h
  have hsub : c ⊆ nodes := by
    intro x hx
    rw [← map_fst_hops c] at hx
    obtain ⟨e, he, rfl⟩ := List.mem_map.mp hx
    exact hedges e (h.along e he)
  obtain ⟨l, hperm, hl⟩ := List.subperm_of_subset h.distinct hsub
  exact ⟨l, hl, hperm.symm⟩

end

end Intelliqx.Digraph
