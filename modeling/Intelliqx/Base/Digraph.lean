import Mathlib.Data.List.Dedup
import Mathlib.Data.List.Perm.Subperm
import Mathlib.Logic.Relation

/-!
# Reachability in a list of edges

`Reaches` is reachability along the edges of a list, `descendants` computes
it. Rounds of a breadth-first search stop at a set that no edge leaves
(`grow_closed`); as many rounds as there are edges are enough.
-/

namespace Intelliqx.Digraph

variable {α : Type u}

/-- Reachability by any number of edges, none included. -/
def Reaches (edges : List (α × α)) : α → α → Prop :=
  Relation.ReflTransGen fun x y => (x, y) ∈ edges

theorem Reaches.mono {edges edges' : List (α × α)} (h : edges ⊆ edges') (hr : Reaches edges x y) :
    Reaches edges' x y :=
  Relation.ReflTransGen.mono (fun _ _ he => h he) _ _ hr

/-- Where the edges that leave a set of nodes are kept and stay in it, so are
the paths. -/
theorem Reaches.kept {edges edges' : List (α × α)} {live : α → Prop}
    (hkeep : ∀ x y, live x → (x, y) ∈ edges → (x, y) ∈ edges' ∧ live y)
    (hx : live x) (hr : Reaches edges x y) : Reaches edges' x y ∧ live y := by
  induction hr with
  | refl => exact ⟨.refl, hx⟩
  | tail _ he ih =>
    obtain ⟨hr', hlive⟩ := ih
    obtain ⟨he', hlive'⟩ := hkeep _ _ hlive he
    exact ⟨hr'.tail he', hlive'⟩

theorem Reaches.simulated {edges edges' : List (α × α)}
    (h : ∀ x y, (x, y) ∈ edges → Reaches edges' x y) (hr : Reaches edges x y) : Reaches edges' x y := by
  induction hr with
  | refl => exact .refl
  | tail _ he ih => exact ih.trans (h _ _ he)

/-- Where nodes are taken out and each of their two-edge detours that starts at
a node that stays is replaced by an edge to a node that stays, the nodes that
stay reach each other as before. -/
theorem Reaches.shortcut {edges edges' : List (α × α)} (out : α → Prop)
    (hkeep : ∀ x y, ¬ out x → (x, y) ∈ edges → ¬ out y → (x, y) ∈ edges')
    (hskip : ∀ x c y, ¬ out x → (x, c) ∈ edges → out c → (c, y) ∈ edges → (x, y) ∈ edges' ∧ ¬ out y)
    (hx : ¬ out x) (hy : ¬ out y) (hr : Reaches edges x y) : Reaches edges' x y := by
  -- a node on the way that is taken out is passed from the node in front of it
  have hway : ∀ z, Reaches edges z y → (¬ out z → Reaches edges' z y) ∧
      (out z → ∀ x, ¬ out x → (x, z) ∈ edges → Reaches edges' x y) := by
    intro z hz
    induction hz using Relation.ReflTransGen.head_induction_on with
    | refl => exact ⟨fun _ => .refl, fun hout => absurd hout hy⟩
    | @head z w he _ ih =>
      constructor
      · intro hz
        by_cases hw : out w
        · exact ih.2 hw z hz he
        · exact .head (hkeep z w hz he hw) (ih.1 hw)
      · intro hz x hx hxz
        obtain ⟨hedge, hw⟩ := hskip x z w hx hxz hz he
        exact .head hedge (ih.1 hw)
  exact (hway x hr).1 hx

variable [DecidableEq α]

/-- Reachability where no node of `avoid` is left but the first one. -/
def ReachesAround (edges : List (α × α)) (avoid : List α) (x y : α) : Prop :=
  Reaches (edges.filter fun e => e.1 = x ∨ e.1 ∉ avoid) x y

section
variable {edges : List (α × α)} {avoid : List α} {x y : α}

theorem ReachesAround.reaches (h : ReachesAround edges avoid x y) : Reaches edges x y :=
  h.mono (List.filter_subset_self _)

theorem ReachesAround.tail (h : ReachesAround edges avoid x y) (hy : y = x ∨ y ∉ avoid)
    (he : (y, z) ∈ edges) : ReachesAround edges avoid x z :=
  Relation.ReflTransGen.tail h (List.mem_filter.mpr ⟨he, decide_eq_true hy⟩)

theorem ReachesAround.cases_tail (h : ReachesAround edges avoid x y) :
    y = x ∨ ∃ z, ReachesAround edges avoid x z ∧ (z = x ∨ z ∉ avoid) ∧ (z, y) ∈ edges := by
  rcases Relation.ReflTransGen.cases_tail h with h | ⟨z, hz, he⟩
  · exact .inl h
  · obtain ⟨he, hleft⟩ := List.mem_filter.mp he
    exact .inr ⟨z, hz, of_decide_eq_true hleft, he⟩

/-- Where every two edges over a node of `avoid` can be replaced by a way
around, so can every path. -/
theorem Reaches.around (h : ∀ x a y, (x, a) ∈ edges → a ∈ avoid → (a, y) ∈ edges →
    ReachesAround edges avoid x y) (hr : Reaches edges x y) : ReachesAround edges avoid x y := by
  induction hr with
  | refl => exact .refl
  | @tail y z _ he ih =>
    by_cases hy : y ∈ avoid
    · rcases ih.cases_tail with rfl | ⟨p, hp, hleft, hpy⟩
      · exact ih.tail (.inl rfl) he
      · -- the way around from `p` is one from `x`, for `p` may be left
        refine hp.trans (Reaches.mono ?_ (h p y z hpy hy he))
        intro e hmem
        obtain ⟨hmem, hfree⟩ := List.mem_filter.mp hmem
        refine List.mem_filter.mpr ⟨hmem, decide_eq_true ?_⟩
        rcases of_decide_eq_true hfree with hep | hfree
        · exact hep ▸ hleft
        · exact .inr hfree
    · exact ih.tail (.inr hy) he

end

def fresh (edges : List (α × α)) (seen : List α) : List α :=
  (((edges.filter fun e => e.1 ∈ seen).map Prod.snd).filter fun y => y ∉ seen).dedup

def grow (edges : List (α × α)) : Nat → List α → List α
  | 0, seen => seen
  | n + 1, seen => if (fresh edges seen).isEmpty then seen else grow edges n (seen ++ fresh edges seen)

/-- The nodes reachable from `x`, without `x`. -/
def descendants (edges : List (α × α)) (x : α) : List α :=
  (grow edges edges.length [x]).filter (· ≠ x)

section
variable {edges : List (α × α)} {seen bound : List α} {x y : α}

theorem mem_fresh : y ∈ fresh edges seen ↔ (∃ x ∈ seen, (x, y) ∈ edges) ∧ y ∉ seen := by
  simp only [fresh, List.mem_dedup, List.mem_filter, List.mem_map, decide_eq_true_eq]
  constructor
  · rintro ⟨⟨⟨x, y'⟩, ⟨he, hx⟩, rfl⟩, hy⟩
    exact ⟨⟨x, hx, he⟩, hy⟩
  · rintro ⟨⟨x, hx, he⟩, hy⟩
    exact ⟨⟨(x, y), ⟨he, hx⟩, rfl⟩, hy⟩

theorem nodup_append_fresh (h : seen.Nodup) : (seen ++ fresh edges seen).Nodup :=
  h.append (List.nodup_dedup _) fun _ hx hf => (mem_fresh.mp hf).2 hx

theorem subset_grow (n : Nat) : seen ⊆ grow edges n seen := by
  induction n generalizing seen with
  | zero => exact List.Subset.refl _
  | succ n ih =>
    unfold grow
    split
    · exact List.Subset.refl _
    · exact List.Subset.trans (List.subset_append_left ..) ih

theorem nodup_grow (n : Nat) (h : seen.Nodup) : (grow edges n seen).Nodup := by
  induction n generalizing seen with
  | zero => exact h
  | succ n ih =>
    unfold grow
    split
    · exact h
    · exact ih (nodup_append_fresh h)

theorem reaches_of_mem_grow (n : Nat) (h : y ∈ grow edges n seen) : ∃ x ∈ seen, Reaches edges x y := by
  induction n generalizing seen with
  | zero => exact ⟨y, h, .refl⟩
  | succ n ih =>
    unfold grow at h
    split at h
    · exact ⟨y, h, .refl⟩
    · obtain ⟨x, hx, hr⟩ := ih h
      rcases List.mem_append.mp hx with hx | hx
      · exact ⟨x, hx, hr⟩
      · obtain ⟨⟨x', hx', he⟩, -⟩ := mem_fresh.mp hx
        exact ⟨x', hx', .head he hr⟩

/-- Rounds enough for every node of `bound` end in a closed set: each
round adds a node or is the last. -/
theorem grow_closed (n : Nat) (hbound : ∀ e ∈ edges, e.2 ∈ bound) (hseen : seen ⊆ bound)
    (hnodup : seen.Nodup) (hn : bound.length ≤ n + seen.length)
    (hx : x ∈ grow edges n seen) (he : (x, y) ∈ edges) : y ∈ grow edges n seen := by
  induction n generalizing seen with
  | zero =>
    have hperm := (List.subperm_of_subset hnodup hseen).perm_of_length_le (by omega)
    exact hperm.symm.subset (hbound _ he)
  | succ n ih =>
    unfold grow at hx ⊢
    split
    · rename_i hempty
      rw [if_pos hempty] at hx
      by_contra hy
      have hm := mem_fresh.mpr ⟨⟨x, hx, he⟩, hy⟩
      rw [List.isEmpty_iff.mp hempty] at hm
      cases hm
    · rename_i hne
      rw [if_neg hne] at hx
      refine ih ?_ (nodup_append_fresh hnodup) ?_ hx
      · refine List.append_subset.mpr ⟨hseen, ?_⟩
        intro z hz
        obtain ⟨⟨z', -, he'⟩, -⟩ := mem_fresh.mp hz
        exact hbound _ he'
      · have hpos : 0 < (fresh edges seen).length := by
          rw [List.length_pos_iff]
          simpa using hne
        rw [List.length_append]
        omega

theorem mem_grow_of_reaches (hx : x ∈ seen) (hseen : seen.Nodup) (hr : Reaches edges x y)
    (hbound : ∀ e ∈ edges, e.2 ∈ bound) (hsub : seen ⊆ bound) (hn : bound.length ≤ n + seen.length) :
    y ∈ grow edges n seen := by
  induction hr with
  | refl => exact subset_grow n hx
  | tail _ he ih => exact grow_closed n hbound hsub hseen hn ih he

theorem mem_descendants : y ∈ descendants edges x ↔ y ≠ x ∧ Reaches edges x y := by
  rw [descendants, List.mem_filter, decide_eq_true_eq, and_comm]
  refine and_congr_right fun _ => ⟨?_, ?_⟩
  · intro h
    obtain ⟨x', hx', hr⟩ := reaches_of_mem_grow _ h
    rwa [List.mem_singleton.mp hx'] at hr
  · intro h
    refine mem_grow_of_reaches (.head _) (List.nodup_singleton x) h
      (fun e he => List.mem_cons_of_mem x (List.mem_map_of_mem (f := Prod.snd) he)) (by simp) ?_
    simp

instance (edges : List (α × α)) (x y : α) : Decidable (Reaches edges x y) :=
  decidable_of_iff (y = x ∨ y ∈ descendants edges x) (by
    rw [mem_descendants]
    by_cases h : y = x
    · subst h
      exact iff_of_true (.inl rfl) .refl
    · simp [h])

theorem nodup_descendants : (descendants edges x).Nodup :=
  (nodup_grow _ (List.nodup_singleton x)).filter _

theorem descendants_perm {edges' : List (α × α)} (h : ∀ y, Reaches edges x y ↔ Reaches edges' x y) :
    (descendants edges x).Perm (descendants edges' x) := by
  refine (List.perm_ext_iff_of_nodup nodup_descendants nodup_descendants).mpr ?_
  intro y
  rw [mem_descendants, mem_descendants, h]

end

end Intelliqx.Digraph
