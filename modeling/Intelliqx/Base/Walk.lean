import Mathlib.Algebra.Group.Hom.Defs

/-!
# Weighted walks

A walk through a list of weighted edges, by its nodes. The weights are summed
up in the order of the walk and may be any monoid.
-/

namespace Intelliqx.Weighted

variable {κ : Type u} {α : Type v}

/-- The edges the other way round. -/
def reversed (edges : List ((κ × κ) × α)) : List ((κ × κ) × α) := edges.map fun e => (e.1.swap, e.2)

section
variable {edges : List ((κ × κ) × α)} {x y : κ} {c : α}

theorem mem_reversed : ((x, y), c) ∈ reversed edges ↔ ((y, x), c) ∈ edges := by
  simp only [reversed, List.mem_map, Prod.mk.injEq]
  constructor
  · rintro ⟨⟨⟨a, b⟩, w⟩, he, hswap, rfl⟩
    cases hswap
    exact he
  · exact fun he => ⟨_, he, rfl, rfl⟩

theorem reversed_reversed (edges : List ((κ × κ) × α)) : reversed (reversed edges) = edges := by
  simp [reversed, Function.comp_def]

end

/-- A walk by its nodes, and what its edges sum up to. -/
inductive Walk [AddMonoid α] (edges : List ((κ × κ) × α)) : κ → κ → List κ → α → Prop
  | single (x : κ) : Walk edges x x [x] 0
  | cons (h : ((x, y), c) ∈ edges) (hw : Walk edges y z p d) : Walk edges x z (x :: p) (c + d)

section
variable [AddMonoid α] {edges : List ((κ × κ) × α)} {x y z a : κ} {p q : List κ} {c d : α}

theorem Walk.ne_nil (h : Walk edges x y p d) : p ≠ [] := by
  cases h <;> exact List.cons_ne_nil _ _

theorem walk_singleton_iff : Walk edges x y [a] d ↔ a = x ∧ x = y ∧ d = 0 := by
  constructor
  · intro h
    cases h with
    | single => exact ⟨rfl, rfl, rfl⟩
    | cons _ hw => exact absurd rfl hw.ne_nil
  · rintro ⟨rfl, rfl, rfl⟩
    exact .single a

theorem walk_cons_iff (hp : p ≠ []) : Walk edges x z (a :: p) d ↔
    a = x ∧ ∃ y c d', ((x, y), c) ∈ edges ∧ Walk edges y z p d' ∧ d = c + d' := by
  constructor
  · intro h
    cases h with
    | single => exact absurd rfl hp
    | cons he hw => exact ⟨rfl, _, _, _, he, hw, rfl⟩
  · rintro ⟨rfl, y, c, d', he, hw, rfl⟩
    exact .cons he hw

theorem Walk.cases_head (h : Walk edges x z p d) :
    (x = z ∧ d = 0) ∨ ∃ y c q d', ((x, y), c) ∈ edges ∧ Walk edges y z q d' ∧ d = c + d' := by
  cases h with
  | single => exact .inl ⟨rfl, rfl⟩
  | cons he hw => exact .inr ⟨_, _, _, _, he, hw, rfl⟩

/-- A walk through `y` is one to `y` and one from there. -/
theorem walk_append_iff : Walk edges x z (p ++ y :: q) d ↔
    ∃ d₁ d₂, Walk edges x y (p ++ [y]) d₁ ∧ Walk edges y z (y :: q) d₂ ∧ d = d₁ + d₂ := by
  induction p generalizing x d with
  | nil =>
    constructor
    · intro h
      have hx : y = x := by
        cases h <;> rfl
      subst hx
      exact ⟨0, d, .single y, h, (zero_add d).symm⟩
    · rintro ⟨d₁, d₂, h₁, h₂, rfl⟩
      obtain ⟨rfl, -, rfl⟩ := walk_singleton_iff.mp h₁
      rwa [zero_add]
  | cons a p ih =>
    rw [List.cons_append, List.cons_append, walk_cons_iff (by simp)]
    constructor
    · rintro ⟨rfl, b, c, d', he, hw, rfl⟩
      obtain ⟨d₁, d₂, h₁, h₂, rfl⟩ := ih.mp hw
      exact ⟨c + d₁, d₂, .cons he h₁, h₂, (add_assoc c d₁ d₂).symm⟩
    · rintro ⟨d₁, d₂, h₁, h₂, rfl⟩
      obtain ⟨rfl, b, c, d', he, hw, rfl⟩ := (walk_cons_iff (by simp)).mp h₁
      exact ⟨rfl, b, c, d' + d₂, he, ih.mpr ⟨d', d₂, hw, h₂, rfl⟩, add_assoc c d' d₂⟩

theorem Walk.snoc (h : Walk edges x y (p ++ [y]) d) (he : ((y, z), c) ∈ edges) :
    Walk edges x z (p ++ [y] ++ [z]) (d + c) := by
  rw [List.append_assoc, ← add_zero c]
  exact walk_append_iff.mpr ⟨d, c + 0, h, .cons he (.single z), rfl⟩

theorem Walk.mono {edges' : List ((κ × κ) × α)} (hsub : edges ⊆ edges') (h : Walk edges x y p d) :
    Walk edges' x y p d := by
  induction h with
  | single x => exact .single x
  | cons he _ ih => exact .cons (hsub he) ih

theorem Walk.append {q : List κ} {d' : α} (h : Walk edges x y p d) (h' : Walk edges y z q d') :
    ∃ r, Walk edges x z r (d + d') := by
  induction h with
  | single x => exact ⟨q, by rwa [zero_add]⟩
  | cons he _ ih =>
    obtain ⟨r, hr⟩ := ih h'
    exact ⟨_, by rw [add_assoc]; exact .cons he hr⟩

theorem Walk.exists_concat (h : Walk edges x y p d) : ∃ q, p = q ++ [y] := by
  induction h with
  | single x => exact ⟨[], rfl⟩
  | cons _ _ ih =>
    obtain ⟨q, rfl⟩ := ih
    exact ⟨_ :: q, rfl⟩

end

theorem Walk.map [AddMonoid α] [AddMonoid β] (f : α →+ β) {edges : List ((κ × κ) × α)} {x y : κ} {p : List κ}
    {d : α} (h : Walk edges x y p d) : Walk (edges.map fun e => (e.1, f e.2)) x y p (f d) := by
  induction h with
  | single x =>
    rw [map_zero]
    exact .single x
  | cons he _ ih =>
    rw [map_add]
    exact .cons (List.mem_map.mpr ⟨_, he, rfl⟩) ih

theorem Walk.reverse [AddCommMonoid α] {edges : List ((κ × κ) × α)} {x y : κ} {p : List κ} {d : α}
    (h : Walk edges x y p d) : Walk (reversed edges) y x p.reverse d := by
  induction h with
  | single x => exact .single x
  | cons he hw ih =>
    obtain ⟨q, hq⟩ := ih.exists_concat
    rw [List.reverse_cons, add_comm, hq]
    exact (hq ▸ ih).snoc (mem_reversed.mpr he)

end Intelliqx.Weighted
