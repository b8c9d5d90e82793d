import Mathlib.Data.List.Basic

/-!
# Machines that answer

`step s i` answers input `i` in state `s`. `observed` is what the owner of some
of the inputs sees of a run, and `observed_eq_iff` compares that with the
answers of another machine, which is given these inputs alone.
`outputs_eq_iff_throughout` is for two machines that are given every input and
keep in step only as long as they answer alike.
-/

namespace Intelliqx.Mealy

variable {σ : Type u} {σ' : Type v} {ι : Type w} {ο : Type x}

def outputs (step : σ → ι → ο × σ) : σ → List ι → List ο
  | _, [] => []
  | s, i :: is => (step s i).1 :: outputs step (step s i).2 is

def final (step : σ → ι → ο × σ) (s : σ) (is : List ι) : σ := is.foldl (fun s i => (step s i).2) s

/-- The answers to the inputs that satisfy `own`. -/
def observed (step : σ → ι → ο × σ) (own : ι → Bool) : σ → List ι → List ο
  | _, [] => []
  | s, i :: is =>
    if own i then (step s i).1 :: observed step own (step s i).2 is
    else observed step own (step s i).2 is

/-- Every input meets `Ok`, given the inputs before it. -/
def Along (Ok : List ι → ι → Prop) : List ι → List ι → Prop
  | _, [] => True
  | before, i :: is => Ok before i ∧ Along Ok (before ++ [i]) is

/-- Every input meets `Q`, given the state in which it comes. -/
def Throughout (step : σ → ι → ο × σ) (Q : σ → ι → Prop) : σ → List ι → Prop
  | _, [] => True
  | s, i :: is => Q s i ∧ Throughout step Q (step s i).2 is

section
variable {step : σ → ι → ο × σ} {step' : σ' → ι → ο × σ'} {s : σ} {s' : σ'} {before is : List ι}

@[simp] theorem outputs_cons : outputs step s (i :: is) = (step s i).1 :: outputs step (step s i).2 is := rfl

@[simp] theorem final_cons : final step s (i :: is) = final step (step s i).2 is := rfl

-- ---------------------------------------------------------------------------
-- Along
-- ---------------------------------------------------------------------------

theorem along_iff {Ok : List ι → ι → Prop} :
    Along Ok before is ↔ ∀ p i q, is = p ++ i :: q → Ok (before ++ p) i := by
  induction is generalizing before with
  | nil => simp [Along]
  | cons i is ih =>
    rw [Along, ih]
    constructor
    · rintro ⟨hi, his⟩ p j q h
      cases p with
      | nil =>
        cases h
        rwa [List.append_nil]
      | cons k p =>
        cases h
        have hj := his p j q rfl
        rwa [List.append_assoc] at hj
    · intro h
      refine ⟨?_, ?_⟩
      · have hi := h [] i is rfl
        rwa [List.append_nil] at hi
      · intro p j q hq
        have hj := h (i :: p) j q (by rw [hq, List.cons_append])
        rwa [List.append_assoc]

theorem throughout_append {Q : σ → ι → Prop} : Throughout step Q s (is ++ js) ↔
    Throughout step Q s is ∧ Throughout step Q (final step s is) js := by
  induction is generalizing s with
  | nil => simp [Throughout, final]
  | cons i is ih => simp [Throughout, ih, and_assoc]

-- ---------------------------------------------------------------------------
-- Comparing two runs
-- ---------------------------------------------------------------------------

/-- A relation that every input keeps, and under which the answers to an own
input agree exactly where `Ok` holds, decides whether two runs look the same. -/
theorem observed_eq_iff {own : ι → Bool} {P : ι → Prop} {R : List ι → σ → σ' → Prop}
    {Ok : List ι → ι → Prop}
    (hown : ∀ before i s s', P i → own i = true → R before s s' →
      ((step s i).1 = (step' s' i).1 ↔ Ok before i) ∧ R (before ++ [i]) (step s i).2 (step' s' i).2)
    (hother : ∀ before i s s', P i → own i = false → R before s s' →
      R (before ++ [i]) (step s i).2 s')
    (hinit : R before s s') (hP : ∀ i ∈ is, P i) :
    observed step own s is = outputs step' s' (is.filter own) ↔
      Along (fun before i => own i = true → Ok before i) before is := by
  induction is generalizing before s s' with
  | nil => simp [observed, outputs, Along]
  | cons i is ih =>
    have hi : P i := hP i (by simp)
    have his : ∀ i ∈ is, P i := fun i h => hP i (List.mem_cons_of_mem _ h)
    cases ho : own i with
    | true =>
      obtain ⟨houtput, hstep⟩ := hown before i s s' hi ho hinit
      simp only [observed, ho, if_true, List.filter_cons_of_pos ho, outputs, Along, List.cons.injEq]
      rw [houtput, ih hstep his]
      simp
    | false =>
      have hstep := hother before i s s' hi ho hinit
      have hnot : ¬ own i = true := by simp [ho]
      simp only [observed, List.filter_cons_of_neg hnot, Along, ho, Bool.false_eq_true, if_false]
      rw [ih hstep his]
      simp

/-- Two machines side by side. -/
def both (step : σ → ι → ο × σ) (step' : σ' → ι → ο × σ') (s : σ × σ') (i : ι) :
    (ο × ο) × (σ × σ') :=
  (((step s.1 i).1, (step' s.2 i).1), ((step s.1 i).2, (step' s.2 i).2))

/-- A relation that holds as long as the answers look the same, which they do
where `Ok` holds, decides whether two runs look the same. -/
theorem outputs_eq_iff_throughout {look : ο → ω} {P : ι → Prop} {R : σ → σ' → Prop}
    {Ok : σ × σ' → ι → Prop}
    (hstep : ∀ s s' i, P i → R s s' → (look (step s i).1 = look (step' s' i).1 ↔ Ok (s, s') i))
    (hnext : ∀ s s' i, P i → R s s' → Ok (s, s') i → R (step s i).2 (step' s' i).2)
    (hinit : R s s') (hP : ∀ i ∈ is, P i) :
    (outputs step s is).map look = (outputs step' s' is).map look ↔
      Throughout (both step step') Ok (s, s') is := by
  induction is generalizing s s' with
  | nil => simp [outputs, Throughout]
  | cons i is ih =>
    have hi : P i := hP i List.mem_cons_self
    simp only [outputs_cons, List.map_cons, List.cons.injEq, Throughout, hstep s s' i hi hinit]
    apply and_congr_right
    intro hok
    exact ih (hnext s s' i hi hinit hok) fun i h => hP i (List.mem_cons_of_mem _ h)

end

end Intelliqx.Mealy
