import Intelliqx.Base.Machine

/-!
# Events that leave no trace

A view of the states of a machine under which some of the events change
nothing, and the others look as they do in a machine of their own. A run looks
like the run of the others alone (`run_filter`).
-/

namespace Intelliqx.Machine

variable {σ : Type u} {τ : Type v} {ε : Type w} {step : σ → ε → Option σ} {step' : τ → ε → Option τ}
  {view : σ → τ} {keep : ε → Bool} {s : σ} {es : List ε}

theorem run_filter (hkeep : ∀ s e, keep e = true → (step s e).map view = step' (view s) e)
    (hdrop : ∀ s e, keep e = false → (step s e).map view = some (view s)) :
    (run step s es).map view = run step' (view s) (es.filter keep) := by
  induction es generalizing s with
  | nil => rfl
  | cons e es ih =>
    cases hk : keep e with
    | true =>
      rw [List.filter_cons_of_pos hk, run_cons, run_cons, ← hkeep s e hk]
      cases step s e with
      | none => rfl
      | some s' => exact ih
    | false =>
      have hnot : ¬ keep e = true := by simp [hk]
      have hstep := hdrop s e hk
      rw [List.filter_cons_of_neg hnot, run_cons]
      obtain ⟨s', hs', hview⟩ := Option.map_eq_some_iff.mp hstep
      rw [hs', Option.bind_some, ih, hview]

end Intelliqx.Machine
