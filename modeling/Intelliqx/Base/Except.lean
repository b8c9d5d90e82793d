import Mathlib.Data.List.Forall2

/-!
# Computations that may raise

Rules for `Except`: what a bind does once its first part is known, and what
`mapM` returns or raises.
-/

namespace Intelliqx

@[simp] theorem bind_ok_eq (a : α) (f : α → Except ε β) : (Except.ok a >>= f) = f a := rfl

@[simp] theorem bind_error_eq (e : ε) (f : α → Except ε β) :
    ((Except.error e : Except ε α) >>= f) = .error e := rfl

/-- What a bind that succeeds has computed. -/
theorem bind_eq_ok {x : Except ε α} {f : α → Except ε β} {b : β} :
    x >>= f = .ok b ↔ ∃ a, x = .ok a ∧ f a = .ok b := by
  cases x <;> simp

@[simp] theorem pure_eq_ok (a : α) : (pure a : Except ε α) = .ok a := rfl

section
variable {f : α → Except ε β} {xs : List α} {ys : List β}

theorem mapM_eq_ok_iff : xs.mapM f = .ok ys ↔ List.Forall₂ (fun x y => f x = .ok y) xs ys := by
  induction xs generalizing ys with
  | nil => cases ys <;> simp
  | cons x xs ih =>
    rw [List.mapM_cons]
    cases hx : f x with
    | error e => cases ys <;> simp [hx]
    | ok y =>
      cases hxs : xs.mapM f with
      | error e => cases ys <;> simp [hx, ← ih, hxs]
      | ok zs => cases ys <;> simp [hx, ← ih, hxs]

theorem mapM_eq_ok_map {g : α → β} (h : ∀ x ∈ xs, f x = .ok (g x)) : xs.mapM f = .ok (xs.map g) := by
  rw [mapM_eq_ok_iff, List.forall₂_map_right_iff, List.forall₂_same]
  exact h

theorem mapM_isOk_iff : (∃ ys, xs.mapM f = .ok ys) ↔ ∀ x ∈ xs, ∃ y, f x = .ok y := by
  induction xs with
  | nil => simp
  | cons x xs ih =>
    rw [List.forall_mem_cons, ← ih, List.mapM_cons]
    cases f x with
    | error e => simp
    | ok y => cases xs.mapM f <;> simp

theorem map_of_mapM_ok {g : β → γ} {k : α → γ} (hg : ∀ x y, f x = .ok y → g y = k x)
    (h : xs.mapM f = .ok ys) : ys.map g = xs.map k := by
  have hxy := mapM_eq_ok_iff.mp h
  clear h
  induction hxy with
  | nil => rfl
  | cons hx _ ih => rw [List.map_cons, List.map_cons, hg _ _ hx, ih]

theorem exists_of_mapM_ok (h : xs.mapM f = .ok ys) (hx : x ∈ xs) : ∃ y ∈ ys, f x = .ok y := by
  have hxy := mapM_eq_ok_iff.mp h
  clear h
  induction hxy with
  | nil => cases hx
  | cons h _ ih =>
    rcases List.mem_cons.mp hx with rfl | hx
    · exact ⟨_, List.mem_cons_self, h⟩
    · obtain ⟨z, hz, hxz⟩ := ih hx
      exact ⟨z, List.mem_cons_of_mem _ hz, hxz⟩

theorem mem_mapM_ok_iff (h : xs.mapM f = .ok ys) {y : β} : y ∈ ys ↔ ∃ x ∈ xs, f x = .ok y := by
  constructor
  · intro hy
    have hxy := mapM_eq_ok_iff.mp h
    clear h
    induction hxy with
    | nil => cases hy
    | cons hx _ ih =>
      rcases List.mem_cons.mp hy with rfl | hy
      · exact ⟨_, List.mem_cons_self, hx⟩
      · obtain ⟨x', hx', hy⟩ := ih hy
        exact ⟨x', List.mem_cons_of_mem _ hx', hy⟩
  · rintro ⟨x, hx, hy⟩
    obtain ⟨z, hz, hxz⟩ := exists_of_mapM_ok h hx
    cases hy.symm.trans hxz
    exact hz

theorem mapM_append_ok {xs' : List α} {ys' : List β} (h : xs.mapM f = .ok ys)
    (h' : xs'.mapM f = .ok ys') : (xs ++ xs').mapM f = .ok (ys ++ ys') := by
  simp [List.mapM_append, h, h']

theorem mapM_append_error {xs' : List α} (h : xs.mapM f = .ok ys) (h' : xs'.mapM f = .error e) :
    (xs ++ xs').mapM f = .error e := by
  simp [List.mapM_append, h, h']

end

end Intelliqx
