import Mathlib.Data.List.Basic

/-!
# Runs of a guarded step function

`step s e` is `none` where event `e` cannot happen in state `s`. A run is a
list of events, so an interleaving of several parties is one list of their
events. `Always` speaks about every step of a run, `Stable` about what a run
never makes false again; `stable_iff_always` is the bridge between them.
-/

namespace Intelliqx.Machine

variable {σ : Type u} {ε : Type v} {step : σ → ε → Option σ}

def run (step : σ → ε → Option σ) : σ → List ε → Option σ
  | s, [] => some s
  | s, e :: es => (step s e).bind fun s' => run step s' es

def Always (step : σ → ε → Option σ) (Q : σ → ε → σ → Prop) : σ → List ε → Prop
  | _, [] => True
  | s, e :: es => ∀ s', step s e = some s' → Q s e s' ∧ Always step Q s' es

/-- Once `K` holds on the run it holds for the rest of the run. -/
def Stable (step : σ → ε → Option σ) (K : σ → Prop) (s : σ) (es : List ε) : Prop :=
  ∀ before between after t t', es = before ++ between ++ after →
    run step s before = some t → run step t between = some t' → K t → K t'

@[simp] theorem run_nil : run step s [] = some s := rfl

@[simp] theorem run_cons : run step s (e :: es) = (step s e).bind fun s' => run step s' es := rfl

theorem run_append : run step s (es ++ fs) = (run step s es).bind fun s' => run step s' fs := by
  induction es generalizing s with
  | nil => rfl
  | cons e es ih => cases h : step s e <;> simp [h, ih]

-- ---------------------------------------------------------------------------
-- Invariants
-- ---------------------------------------------------------------------------

/-- `K` holds of every state of the run, the first and the last included. -/
def Everywhere (step : σ → ε → Option σ) (K : σ → Prop) (s : σ) (es : List ε) : Prop :=
  ∀ before after t, es = before ++ after → run step s before = some t → K t

/-- An invariant that may mention the events still to come. -/
theorem run_countdown {I : List ε → σ → Prop}
    (hstep : ∀ e es s s', I (e :: es) s → step s e = some s' → I es s')
    (hinit : I es s) (hrun : run step s es = some t) : I [] t := by
  induction es generalizing s with
  | nil => cases hrun; exact hinit
  | cons e es ih =>
    obtain ⟨s', hs, hr⟩ := Option.bind_eq_some_iff.mp hrun
    exact ih (hstep e es s s' hinit hs) hr

/-- An invariant that may mention the events so far. -/
theorem run_history {I : List ε → σ → Prop}
    (hstep : ∀ es e t t', run step s es = some t → I es t → step t e = some t' → I (es ++ [e]) t')
    (hinit : I [] s) (hrun : run step s es = some t) : I es t := by
  have hfrom (rest before : List ε) (u : σ) (hbefore : run step s before = some u) (hu : I before u)
      (hrest : run step u rest = some t) : I (before ++ rest) t := by
    induction rest generalizing before u with
    | nil =>
      cases hrest
      rwa [List.append_nil]
    | cons e rest ih =>
      obtain ⟨u', hu', hrest⟩ := Option.bind_eq_some_iff.mp hrest
      have hbefore' : run step s (before ++ [e]) = some u' := by
        rw [run_append, hbefore, Option.bind_some, run_cons, hu']
        rfl
      rw [← List.singleton_append, ← List.append_assoc]
      exact ih (before ++ [e]) u' hbefore' (hstep before e u u' hbefore hu hu') hrest
  exact hfrom es [] s rfl hinit hrun

-- ---------------------------------------------------------------------------
-- Every step of a run
-- ---------------------------------------------------------------------------

/-- Two step properties that agree where an invariant holds agree on runs.
The events satisfy `P`, and the steps so far `Q`, which the invariant may need. -/
theorem always_congr {I : σ → Prop} {P : ε → Prop} {Q R : σ → ε → σ → Prop}
    (hkeep : ∀ s e s', P e → I s → step s e = some s' → Q s e s' → I s')
    (hiff : ∀ s e s', P e → I s → step s e = some s' → (Q s e s' ↔ R s e s'))
    (hinit : I s) (hes : ∀ e ∈ es, P e) : Always step Q s es ↔ Always step R s es := by
  induction es generalizing s with
  | nil => exact Iff.rfl
  | cons e es ih =>
    have he : P e := hes e (by simp)
    have hrest : ∀ e ∈ es, P e := fun e h => hes e (List.mem_cons_of_mem _ h)
    apply forall₂_congr
    intro s' hs
    rw [← hiff s e s' he hinit hs]
    exact and_congr_right fun hq => ih (hkeep s e s' he hinit hs hq) hrest

theorem Always.at {Q : σ → ε → σ → Prop} (h : Always step Q s (before ++ e :: after))
    (hrun : run step s before = some t) (hstep : step t e = some t') : Q t e t' := by
  induction before generalizing s with
  | nil => cases hrun; exact (h _ hstep).1
  | cons b bs ih =>
    obtain ⟨s', hs, hr⟩ := Option.bind_eq_some_iff.mp hrun
    exact ih (h s' hs).2 hr

theorem always_of_at {Q : σ → ε → σ → Prop}
    (h : ∀ before e after t t', es = before ++ e :: after → run step s before = some t →
      step t e = some t' → Q t e t') : Always step Q s es := by
  induction es generalizing s with
  | nil => trivial
  | cons e es ih =>
    intro s' hs
    refine ⟨h [] e es s s' rfl rfl hs, ih ?_⟩
    intro before f after t t' he hr ht
    exact h (e :: before) f after t t' (by simp [he]) (by simp [hs, hr]) ht

theorem everywhere_iff_always {K : σ → Prop} :
    Everywhere step K s es ↔ K s ∧ Always step (fun _ _ t => K t) s es := by
  constructor
  · intro h
    refine ⟨h [] es s rfl rfl, always_of_at ?_⟩
    intro before e after t t' he hr ht
    exact h (before ++ [e]) after t' (by simp [he]) (by simp [run_append, hr, ht])
  · rintro ⟨hs, h⟩ before after t he hr
    induction before generalizing s es with
    | nil => cases hr; exact hs
    | cons e before ih =>
      obtain ⟨u, hu, hr⟩ := Option.bind_eq_some_iff.mp hr
      subst he
      obtain ⟨hku, hrest⟩ := h u hu
      exact ih hku hrest rfl hr

theorem always_forall {Q : κ → σ → ε → σ → Prop} :
    (∀ k, Always step (Q k) s es) ↔ Always step (fun t e t' => ∀ k, Q k t e t') s es := by
  constructor
  · intro h
    apply always_of_at
    intro before e after t t' he hr ht k
    have hk : Always step (Q k) s (before ++ e :: after) := he ▸ h k
    exact hk.at hr ht
  · intro h k
    apply always_of_at
    intro before e after t t' he hr ht
    exact Always.at (Q := fun t e t' => ∀ k, Q k t e t') (he ▸ h) hr ht k

theorem stable_iff_always {K : σ → Prop} :
    Stable step K s es ↔ Always step (fun t _ t' => K t → K t') s es := by
  constructor
  · intro h
    apply always_of_at
    intro before e after t t' he hr ht
    exact h before [e] after t t' (by simp [he]) hr (by simp [ht])
  · intro h before between after t t' he hr hr' hk
    induction between generalizing before t with
    | nil => cases hr'; exact hk
    | cons e between ih =>
      obtain ⟨u, hu, hr'⟩ := Option.bind_eq_some_iff.mp hr'
      have hstep : K t → K u := by
        have hes : es = before ++ e :: (between ++ after) := by simp [he]
        exact (hes ▸ h).at hr hu
      refine ih (before ++ [e]) u (by simp [he]) ?_ hr' (hstep hk)
      simp [run_append, hr, hu]

end Intelliqx.Machine
