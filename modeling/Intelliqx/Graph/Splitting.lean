import Intelliqx.Graph.Pipeline

/-!
# Splitting costly nodes

A node that is split becomes a chain of parts. The pass leads the edges into
the node to the last part and lets the edges out of it leave from the first, so
no way runs through the chain: what is left are the ways around the split nodes
(`reaches_reduceLayer_iff`). The pass preserves reachability exactly where these
are enough.
-/

namespace Intelliqx.Graph

open Intelliqx.Digraph

/-- The nodes that stand for a node of the layer after the pass. -/
def standIns (l : SGIRGraph) (x : String) : List String :=
  if x ∈ splitIds l then (List.range defaultSplitParts).map (partId x) else [x]

/-- Nodes that are not split reach each other as before, and a neighbour of a
split node still reaches what that node reached. Where one of the two is split
itself, one of its parts has to do. -/
structure ReachKept (l l' : SGIRGraph) : Prop where
  unsplit : ∀ u ∈ l.nodeIds, ∀ v ∈ l.nodeIds, u ∉ splitIds l → v ∉ splitIds l →
    (Reaches l'.edgePairs u v ↔ Reaches l.edgePairs u v)
  through : ∀ x ∈ splitIds l, ∀ u ∈ l.nodeIds, (u, x) ∈ l.edgePairs →
    ∀ v ∈ l.nodeIds, Reaches l.edgePairs x v →
      ∃ u' ∈ standIns l u, ∃ v' ∈ standIns l v, Reaches l'.edgePairs u' v'

/-- Wherever an edge leads to a split node and another one out of it, a way
around the split nodes leads from the start of the one to the end of the other. -/
def Bypassed (l : SGIRGraph) : Prop :=
  ∀ e ∈ l.edges, e.target ∈ splitIds l → ∀ out ∈ l.edges, out.source = e.target →
    ReachesAround l.edgePairs (splitIds l) e.source out.target

/-- No generated id is the id of a node. -/
def PartsFree (l : SGIRGraph) : Prop :=
  ∀ x ∈ splitIds l, ∀ i < defaultSplitParts, partId x i ∉ l.nodeIds

instance (l : SGIRGraph) : Decidable (Bypassed l) := by
  unfold Bypassed ReachesAround
  infer_instance

instance (l : SGIRGraph) : Decidable (PartsFree l) := by
  unfold PartsFree
  infer_instance

section
variable {l : SGIRGraph} {u v w x y z : String}

-- ---------------------------------------------------------------------------
-- Generated ids
-- ---------------------------------------------------------------------------

theorem partId_cancel (h : partId x i = partId y i) : x = y := by
  have h := congrArg String.toList h
  simp only [partId, String.toList_append, List.append_cancel_right_eq] at h
  exact String.toList_injective h

theorem partId_zero_ne_one : partId x 0 ≠ partId y 1 := by
  intro h
  have hlast := congrArg (fun s => s.toList.getLast?) h
  have hone : Nat.toDigits 10 1 = ['1'] := by decide
  simp [partId, String.toList_append, hone] at hlast

theorem mem_standIns_split (hx : x ∈ splitIds l) : z ∈ standIns l x ↔ z = partId x 0 ∨ z = partId x 1 := by
  simp [standIns, hx, defaultSplitParts, List.range_succ]

theorem mem_standIns_unsplit (hx : x ∉ splitIds l) : z ∈ standIns l x ↔ z = x := by
  simp [standIns, hx]

/-- No node stands for two. -/
theorem standIns_disjoint (hl : PartsFree l) (hx : x ∈ l.nodeIds) (hy : y ∈ l.nodeIds)
    (hzx : z ∈ standIns l x) (hzy : z ∈ standIns l y) : x = y := by
  have hfree : ∀ {a b : String}, a ∈ splitIds l → b ∈ l.nodeIds → ∀ i < defaultSplitParts, partId a i ≠ b := by
    rintro a b ha hb i hi rfl
    exact hl a ha i hi hb
  by_cases hxs : x ∈ splitIds l <;> by_cases hys : y ∈ splitIds l
  · rw [mem_standIns_split hxs] at hzx
    rw [mem_standIns_split hys] at hzy
    rcases hzx with rfl | rfl <;> rcases hzy with h | h
    · exact partId_cancel h
    · exact absurd h partId_zero_ne_one
    · exact absurd h.symm partId_zero_ne_one
    · exact partId_cancel h
  · rw [mem_standIns_split hxs] at hzx
    rw [mem_standIns_unsplit hys] at hzy
    rcases hzx with h | h
    · exact absurd (h.symm.trans hzy) (hfree hxs hy 0 (by decide))
    · exact absurd (h.symm.trans hzy) (hfree hxs hy 1 (by decide))
  · rw [mem_standIns_unsplit hxs] at hzx
    rw [mem_standIns_split hys] at hzy
    rcases hzy with h | h
    · exact absurd (h.symm.trans hzx) (hfree hys hx 0 (by decide))
    · exact absurd (h.symm.trans hzx) (hfree hys hx 1 (by decide))
  · rw [mem_standIns_unsplit hxs] at hzx
    rw [mem_standIns_unsplit hys] at hzy
    exact hzx.symm.trans hzy

-- ---------------------------------------------------------------------------
-- The edges after the pass
-- ---------------------------------------------------------------------------

/-- Where the edges out of a node start after the pass. -/
def leaveFrom (l : SGIRGraph) (x : String) : String := if x ∈ splitIds l then partId x 0 else x

/-- Where the edges into a node end after the pass. -/
def enterAt (l : SGIRGraph) (x : String) : String :=
  if x ∈ splitIds l then partId x (defaultSplitParts - 1) else x

theorem leaveFrom_mem (l : SGIRGraph) (x : String) : leaveFrom l x ∈ standIns l x := by
  unfold leaveFrom
  split
  · rename_i hx; exact (mem_standIns_split hx).mpr (.inl rfl)
  · rename_i hx; exact (mem_standIns_unsplit hx).mpr rfl

theorem enterAt_mem (l : SGIRGraph) (x : String) : enterAt l x ∈ standIns l x := by
  unfold enterAt
  split
  · rename_i hx; exact (mem_standIns_split hx).mpr (.inr rfl)
  · rename_i hx; exact (mem_standIns_unsplit hx).mpr rfl

theorem mem_standIns (hz : z ∈ standIns l x) : z = leaveFrom l x ∨ z = enterAt l x := by
  unfold leaveFrom enterAt
  by_cases hx : x ∈ splitIds l
  · rw [if_pos hx, if_pos hx]
    exact (mem_standIns_split hx).mp hz
  · rw [if_neg hx]
    exact .inl ((mem_standIns_unsplit hx).mp hz)

theorem leaveFrom_ne_enterAt (hx : x ∈ splitIds l) : leaveFrom l x ≠ enterAt l x := by
  simp only [leaveFrom, enterAt, if_pos hx]
  exact partId_zero_ne_one

theorem leaveFrom_unsplit (hx : x ∉ splitIds l) : leaveFrom l x = x := if_neg hx

theorem enterAt_unsplit (hx : x ∉ splitIds l) : enterAt l x = x := if_neg hx

theorem edges_reduceLayer (l : SGIRGraph) :
    (reduceLayer l).edges = l.edges.map (redirect (splitIds l)) ++ (splitIds l).flatMap splitChain := by
  unfold reduceLayer
  simp only
  split
  · rename_i hempty
    have hid : redirect [] = id := by
      funext e
      simp [redirect]
    simp [List.isEmpty_iff.mp hempty, hid]
  · rfl

theorem mem_edgePairs_reduceLayer : (y, z) ∈ (reduceLayer l).edgePairs ↔
    (∃ u v, (u, v) ∈ l.edgePairs ∧ leaveFrom l u = y ∧ enterAt l v = z) ∨
      ∃ x ∈ splitIds l, leaveFrom l x = y ∧ enterAt l x = z := by
  have hchain : ∀ x ∈ splitIds l, ∀ e, e ∈ splitChain x ↔
      e = { source := leaveFrom l x, target := enterAt l x, edgeType := .control, label := "split_chain" } := by
    intro x hx e
    simp [splitChain, defaultSplitParts, leaveFrom, enterAt, hx]
  simp only [SGIRGraph.edgePairs, edges_reduceLayer, List.map_append, List.mem_append, List.map_map]
  refine or_congr ?_ ?_
  · simp only [List.mem_map, Function.comp_apply, Prod.mk.injEq]
    constructor
    · rintro ⟨e, he, hy, hz⟩
      exact ⟨e.source, e.target, ⟨e, he, rfl, rfl⟩, hy, hz⟩
    · rintro ⟨_, _, ⟨e, he, rfl, rfl⟩, hy, hz⟩
      exact ⟨e, he, hy, hz⟩
  · simp only [List.mem_map, List.mem_flatMap, Prod.mk.injEq]
    constructor
    · rintro ⟨e, ⟨x, hx, he⟩, hy, hz⟩
      rw [hchain x hx] at he
      subst he
      exact ⟨x, hx, hy, hz⟩
    · rintro ⟨x, hx, hy, hz⟩
      exact ⟨_, ⟨x, hx, (hchain x hx _).mpr rfl⟩, hy, hz⟩

-- ---------------------------------------------------------------------------
-- The ways that are left
-- ---------------------------------------------------------------------------

/-- A way around the split nodes runs from the first part of its start to the
last part of its end. -/
theorem reaches_of_around (h : ReachesAround l.edgePairs (splitIds l) u v) :
    v = u ∨ Reaches (reduceLayer l).edgePairs (leaveFrom l u) (enterAt l v) := by
  induction h with
  | refl => exact .inl rfl
  | @tail v w _ he ih =>
    obtain ⟨he, hleft⟩ := List.mem_filter.mp he
    have hedge : (leaveFrom l v, enterAt l w) ∈ (reduceLayer l).edgePairs :=
      mem_edgePairs_reduceLayer.mpr (.inl ⟨v, w, he, rfl, rfl⟩)
    right
    rcases ih with rfl | ih
    · exact .single hedge
    · rcases of_decide_eq_true hleft with hvu | hfree
      · simp only at hvu
        exact hvu ▸ .single hedge
      · rw [enterAt_unsplit hfree, ← leaveFrom_unsplit (l := l) hfree] at ih
        exact ih.tail hedge

section
variable (hl : PartsFree l) (hwf : l.WellFormed)
include hl hwf

omit hl in
theorem declared_of_edge (h : (x, y) ∈ l.edgePairs) : x ∈ l.nodeIds ∧ y ∈ l.nodeIds := by
  obtain ⟨e, he, heq⟩ := List.mem_map.mp h
  cases heq
  exact hwf.declared e he

omit hl hwf in
theorem declared_of_split (h : x ∈ splitIds l) : x ∈ l.nodeIds := by
  rw [splitIds, List.mem_dedup] at h
  exact (List.filter_sublist.map _).subset h

/-- An edge out of a node starts at its first part, or is its chain. -/
theorem edge_of_leaveFrom (hu : u ∈ l.nodeIds) (h : (leaveFrom l u, z) ∈ (reduceLayer l).edgePairs) :
    ∃ v ∈ l.nodeIds, z = enterAt l v ∧ (v = u ∨ (u, v) ∈ l.edgePairs) := by
  have hsame : ∀ x ∈ l.nodeIds, leaveFrom l x = leaveFrom l u → x = u := fun x hx heq =>
    standIns_disjoint hl hx hu (leaveFrom_mem l x) (heq ▸ leaveFrom_mem l u)
  rcases mem_edgePairs_reduceLayer.mp h with ⟨x, v, hxv, hx, rfl⟩ | ⟨x, hx, hxu, rfl⟩
  · obtain ⟨hxd, hvd⟩ := declared_of_edge hwf hxv
    exact ⟨v, hvd, rfl, .inr (hsame x hxd hx ▸ hxv)⟩
  · exact ⟨x, declared_of_split hx, rfl, .inl (hsame x (declared_of_split hx) hxu)⟩

/-- Nothing leaves from where the edges into a split node end. -/
theorem edge_of_enterAt (hu : u ∈ l.nodeIds) (h : (enterAt l u, z) ∈ (reduceLayer l).edgePairs) :
    u ∉ splitIds l ∧ ∃ v ∈ l.nodeIds, z = enterAt l v ∧ (u, v) ∈ l.edgePairs := by
  have hsame : ∀ x ∈ l.nodeIds, leaveFrom l x = enterAt l u → x = u ∧ u ∉ splitIds l := by
    intro x hx heq
    have hxu : x = u := standIns_disjoint hl hx hu (leaveFrom_mem l x) (heq ▸ enterAt_mem l u)
    exact ⟨hxu, fun hs => leaveFrom_ne_enterAt hs (hxu ▸ heq)⟩
  rcases mem_edgePairs_reduceLayer.mp h with ⟨x, v, hxv, hx, rfl⟩ | ⟨x, hx, hxu, rfl⟩
  · obtain ⟨hxd, hvd⟩ := declared_of_edge hwf hxv
    obtain ⟨rfl, hfree⟩ := hsame x hxd hx
    exact ⟨hfree, v, hvd, rfl, hxv⟩
  · obtain ⟨rfl, hfree⟩ := hsame x (declared_of_split hx) hxu
    exact absurd hx hfree

theorem around_of_reaches (hu : u ∈ l.nodeIds) (h : Reaches (reduceLayer l).edgePairs (leaveFrom l u) z) :
    z = leaveFrom l u ∨
      ∃ v ∈ l.nodeIds, z = enterAt l v ∧ ReachesAround l.edgePairs (splitIds l) u v := by
  induction h with
  | refl => exact .inl rfl
  | @tail y z _ he ih =>
    right
    rcases ih with rfl | ⟨v, hv, rfl, hav⟩
    · obtain ⟨v, hv, rfl, rfl | huv⟩ := edge_of_leaveFrom hl hwf hu he
      · exact ⟨v, hv, rfl, .refl⟩
      · exact ⟨v, hv, rfl, ReachesAround.tail .refl (.inl rfl) huv⟩
    · obtain ⟨hfree, w, hw, rfl, hvw⟩ := edge_of_enterAt hl hwf hv he
      exact ⟨w, hw, rfl, hav.tail (.inr hfree) hvw⟩

/-- After the pass a node reaches another exactly by the ways around the split
nodes. -/
theorem reaches_reduceLayer_iff (hu : u ∈ l.nodeIds) (hv : v ∈ l.nodeIds) :
    (∃ u' ∈ standIns l u, ∃ v' ∈ standIns l v, Reaches (reduceLayer l).edgePairs u' v') ↔
      ReachesAround l.edgePairs (splitIds l) u v := by
  constructor
  · rintro ⟨u', hu', v', hv', hr⟩
    have hsame : ∀ w ∈ l.nodeIds, v' ∈ standIns l w → w = v := fun w hw h =>
      standIns_disjoint hl hw hv h hv'
    by_cases hstart : u' = leaveFrom l u
    · subst hstart
      rcases around_of_reaches hl hwf hu hr with rfl | ⟨w, hw, rfl, ha⟩
      · exact hsame u hu (leaveFrom_mem l u) ▸ .refl
      · exact hsame w hw (enterAt_mem l w) ▸ ha
    · -- the last part of a split node reaches itself only
      obtain rfl := (mem_standIns hu').resolve_left hstart
      rcases hr.cases_head with rfl | ⟨z, he, -⟩
      · exact hsame u hu (enterAt_mem l u) ▸ .refl
      · have hfree := (edge_of_enterAt hl hwf hu he).1
        exact absurd ((enterAt_unsplit hfree).trans (leaveFrom_unsplit hfree).symm) hstart
  · intro h
    rcases reaches_of_around h with rfl | hr
    · exact ⟨_, leaveFrom_mem l v, _, leaveFrom_mem l v, .refl⟩
    · exact ⟨_, leaveFrom_mem l u, _, enterAt_mem l v, hr⟩

theorem reaches_unsplit_iff (hu : u ∈ l.nodeIds) (hv : v ∈ l.nodeIds) (hus : u ∉ splitIds l)
    (hvs : v ∉ splitIds l) :
    Reaches (reduceLayer l).edgePairs u v ↔ ReachesAround l.edgePairs (splitIds l) u v := by
  rw [← reaches_reduceLayer_iff hl hwf hu hv]
  constructor
  · intro h
    exact ⟨u, (mem_standIns_unsplit hus).mpr rfl, v, (mem_standIns_unsplit hvs).mpr rfl, h⟩
  · rintro ⟨u', hu', v', hv', h⟩
    rwa [(mem_standIns_unsplit hus).mp hu', (mem_standIns_unsplit hvs).mp hv'] at h

-- ---------------------------------------------------------------------------
-- When reachability is kept
-- ---------------------------------------------------------------------------

theorem reachKept_iff : ReachKept l (reduceLayer l) ↔ Bypassed l := by
  constructor
  · intro h e he hsplit out hout heq
    have hedge : (e.source, e.target) ∈ l.edgePairs := List.mem_map_of_mem he
    have hnext : (e.target, out.target) ∈ l.edgePairs := heq ▸ List.mem_map_of_mem hout
    have hu := (declared_of_edge hwf hedge).1
    have hv := (declared_of_edge hwf hnext).2
    exact (reaches_reduceLayer_iff hl hwf hu hv).mp
      (h.through e.target hsplit e.source hu hedge out.target hv (.single hnext))
  · intro h
    have haround : ∀ u v, Reaches l.edgePairs u v → ReachesAround l.edgePairs (splitIds l) u v := by
      intro u v
      apply Reaches.around
      intro x a y hxa ha hay
      obtain ⟨e, he, heq⟩ := List.mem_map.mp hxa
      obtain ⟨out, hout, houteq⟩ := List.mem_map.mp hay
      cases heq
      rw [Prod.mk.injEq] at houteq
      exact houteq.2 ▸ h e he ha out hout houteq.1
    constructor
    · intro u hu v hv hus hvs
      rw [reaches_unsplit_iff hl hwf hu hv hus hvs]
      exact ⟨fun h => h.reaches, haround u v⟩
    · intro x _ u hu hux v hv hxv
      exact (reaches_reduceLayer_iff hl hwf hu hv).mpr (haround u v (.head hux hxv))

end

end

/-- On well-formed layers with room for the generated ids, the pass keeps
reachability exactly where every split node is bypassed. -/
theorem splitting_keeps_reachability_iff (g : SoftwareGraph) (hg : ∀ l ∈ g.layers, l.WellFormed)
    (hfree : ∀ l ∈ g.layers, PartsFree l) :
    List.Forall₂ ReachKept g.layers (reduceComplexity g).layers ↔ ∀ l ∈ g.layers, Bypassed l := by
  rw [reduceComplexity, SoftwareGraph.mapLayers, List.forall₂_map_right_iff, List.forall₂_same]
  exact forall₂_congr fun l hl => reachKept_iff (hfree l hl) (hg l hl)

/-- `a` calls the costly `x`, and `x` calls `b`. -/
def costlyBetween (edges : List (String × String)) : SoftwareGraph where
  repositoryName := "repo"
  layers :=
    [{ layer := .call
       nodes := [{ id := "a", name := "a" }, { id := "x", name := "x", complexity := .cubic },
         { id := "b", name := "b" }]
       edges := edges.map fun e => { source := e.1, target := e.2, edgeType := .call } }]
  keyed := List.nodup_singleton _

theorem splitting_keeps_bypassed :
    List.Forall₂ ReachKept (costlyBetween [("a", "x"), ("x", "b"), ("a", "b")]).layers
      (reduceComplexity (costlyBetween [("a", "x"), ("x", "b"), ("a", "b")])).layers :=
  (splitting_keeps_reachability_iff (costlyBetween [("a", "x"), ("x", "b"), ("a", "b")]) (by decide)
    (by decide)).mpr (by decide)

/-- The call of `x` ends in its last part, and the call of `b` comes from its first. -/
theorem splitting_cuts :
    ¬ List.Forall₂ ReachKept (costlyBetween [("a", "x"), ("x", "b")]).layers
      (reduceComplexity (costlyBetween [("a", "x"), ("x", "b")])).layers := by
  intro h
  cases h with
  | cons hl _ =>
    have hkept := hl.unsplit "a" (by decide) "b" (by decide) (by decide) (by decide)
    exact absurd (hkept.mpr (.head (b := "x") (by decide) (.single (by decide)))) (by decide)

end Intelliqx.Graph
