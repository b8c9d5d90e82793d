import Intelliqx.Base.Bidirectional

/-!
# Searches that round

A search may round what it adds up. Where the weights of all walks from its two
ends are as they are after rounding, it is the search that adds exactly
(`finishes_rounded_iff`).
-/

namespace Intelliqx.Bidirectional

open Weighted

variable {κ : Type u} {α : Type v}

/-- Weights whose sums are rounded. -/
def Rounded (_ : α → α) : Type v := α

section
variable {round : α → α}

instance [Zero α] : Zero (Rounded round) := inferInstanceAs (Zero α)

instance [Add α] : Add (Rounded round) := ⟨fun a b : α => round (a + b)⟩

instance [LinearOrder α] : LinearOrder (Rounded round) := inferInstanceAs (LinearOrder α)

end

/-- Rounding changes no weight of a walk from one of the ends. -/
def Exact [AddMonoid α] (round : α → α) (edges : List ((κ × κ) × α)) (s t : κ) : Prop :=
  ∀ dir x p d, Walk (oriented dir edges) (root s t dir) x p d → round d = d

-- ---------------------------------------------------------------------------
-- One edge
-- ---------------------------------------------------------------------------

theorem foldlM_cons_none {σ : Type u} {β : Type v} {f : σ → β → Option σ} {x : σ} {b : β} {bs : List β}
    (h : f x b = none) : (b :: bs).foldlM f x = none := by
  rw [List.foldlM_cons, h]
  rfl

theorem foldlM_cons_some {σ : Type u} {β : Type v} {f : σ → β → Option σ} {x y : σ} {b : β} {bs : List β}
    (h : f x b = some y) : (b :: bs).foldlM f x = bs.foldlM f y := by
  rw [List.foldlM_cons, h]
  rfl

section
variable [DecidableEq κ] [Add α] [LinearOrder α] {S : Search κ α} {w : κ} {dir : Dir} {label a b old : α × List κ}
  {e : κ × α}

theorem meet_of_seen (ha : (S.side .forward).seen.get? w = some a) (hb : (S.side .backward).seen.get? w = some b) :
    S.meet w = if ∀ l ∈ S.best, a.1 + b.1 < l.1 then { S with best := some (a.1 + b.1, a.2 ++ b.2.reverse.tail) }
      else S := by
  rw [Search.meet, ha, hb]

theorem meet_of_unseen (h : (S.side .forward).seen.get? w = none ∨ (S.side .backward).seen.get? w = none) :
    S.meet w = S := by
  unfold Search.meet
  split
  · rename_i ha hb
    rw [ha, hb] at h
    rcases h with h | h <;> cases h
  · rfl

theorem relax_of_unseen (h : (S.side dir).seen.get? e.1 = none) :
    relax dir label S e = some ((S.see dir e.1 (label.1 + e.2, label.2 ++ [e.1])).meet e.1) := by
  rw [relax, h]

theorem relax_of_seen (h : (S.side dir).seen.get? e.1 = some old) :
    relax dir label S e = if label.1 + e.2 < old.1 then
      if e.1 ∈ (S.side dir).settled then none
      else some ((S.see dir e.1 (label.1 + e.2, label.2 ++ [e.1])).meet e.1)
    else some S := by
  rw [relax, h]

end

section
variable [DecidableEq κ] [AddCommMonoid α] [LinearOrder α] {round : α → α} {edges : List ((κ × κ) × α)} {s t v w : κ}
  {S S' : Search κ α} {dir : Dir} {label : α × List κ} {pending : Dir → κ → κ × α → Prop} {ending : Ending}

theorem meet_rounded (h : ∀ a b, (S.side .forward).seen.get? w = some a → (S.side .backward).seen.get? w = some b →
    round (a.1 + b.1) = a.1 + b.1) : Search.meet (α := Rounded round) w S = S.meet w := by
  cases hforward : (S.side .forward).seen.get? w with
  | none => exact (meet_of_unseen (α := Rounded round) (.inl hforward)).trans (meet_of_unseen (.inl hforward)).symm
  | some a =>
    cases hbackward : (S.side .backward).seen.get? w with
    | none => exact (meet_of_unseen (α := Rounded round) (.inr hbackward)).trans (meet_of_unseen (.inr hbackward)).symm
    | some b =>
      have hsum := h a b hforward hbackward
      refine (meet_of_seen (α := Rounded round) hforward hbackward).trans ?_
      rw [meet_of_seen hforward hbackward, ← hsum]
      rfl

/-- The walks that are compared where the sides see a node are such walks. -/
theorem meet_see_rounded {l : α × List κ} (hexact : Exact round edges s t) (h : Inv edges s t pending S)
    (hsettled : w ∉ (S.side dir).settled)
    (hwalk : ∃ front, l.2 = front ++ [w] ∧ Walk (oriented dir edges) (root s t dir) w (front ++ [w]) l.1 ∧
      front ⊆ (S.side dir).settled)
    (hless : ∀ old, (S.side dir).seen.get? w = some old → l.1 ≤ old.1) :
    Search.meet (α := Rounded round) w (S.see dir w l) = (S.see dir w l).meet w := by
  have hok := (h.see hsettled hwalk hless).ok
  rw [side_meet] at hok
  refine meet_rounded (α := α) fun a b ha hb => ?_
  obtain ⟨front, back, -, hjoin, -⟩ := exists_join (hok .forward) (hok .backward) ha hb
  exact hexact .forward t _ _ hjoin

theorem relax_rounded {e : κ × α} (hexact : Exact round edges s t) (h : Inv edges s t pending S)
    (hv : Expanded S dir v label) (he : ((v, e.1), e.2) ∈ oriented dir edges) :
    relax (α := Rounded round) dir label S e = relax dir label S e := by
  obtain ⟨front, hlabel, hwalk, hfront⟩ := (h.ok dir).label v label hv.seen
  have hstep := hwalk.snoc he
  have hsum : round (label.1 + e.2) = label.1 + e.2 := hexact dir e.1 _ _ hstep
  have hmeet (hunsettled : e.1 ∉ (S.side dir).settled)
      (hless : ∀ old, (S.side dir).seen.get? e.1 = some old → label.1 + e.2 ≤ old.1) :=
    meet_see_rounded (l := (label.1 + e.2, label.2 ++ [e.1])) hexact h hunsettled ⟨front ++ [v], by rw [hlabel], hstep,
      List.append_subset.mpr ⟨hfront, List.cons_subset.mpr ⟨hv.settled, List.nil_subset _⟩⟩⟩ hless
  cases hold : (S.side dir).seen.get? e.1 with
  | none =>
    have hunsettled : e.1 ∉ (S.side dir).settled := fun hmem => by
      obtain ⟨l, hl⟩ := (h.ok dir).known e.1 hmem
      rw [hold] at hl
      cases hl
    have hmeet := hmeet hunsettled fun old hold' => by
      rw [hold] at hold'
      cases hold'
    refine (relax_of_unseen (α := Rounded round) hold).trans ?_
    rw [relax_of_unseen hold, ← hmeet, ← hsum]
    rfl
  | some old =>
    refine (relax_of_seen (α := Rounded round) hold).trans ?_
    rw [relax_of_seen hold]
    change (if round (label.1 + e.2) < old.1 then
      if e.1 ∈ (S.side dir).settled then none
      else some (Search.meet (α := Rounded round) e.1 (S.see dir e.1 (round (label.1 + e.2), label.2 ++ [e.1])))
      else some S) = _
    rw [hsum]
    split
    · rename_i hless
      split
      · rfl
      · rename_i hunsettled
        refine congrArg some (hmeet hunsettled fun old' hold' => ?_)
        obtain rfl := Option.some.inj (hold.symm.trans hold')
        exact hless.le
    · rfl

-- ---------------------------------------------------------------------------
-- The search
-- ---------------------------------------------------------------------------

theorem relaxAll_rounded {rest : List (κ × α)} (hexact : Exact round edges s t)
    (h : Inv edges s t (expanding dir v rest) S) (hv : Expanded S dir v label)
    (hedges : ∀ e ∈ rest, ((v, e.1), e.2) ∈ oriented dir edges) :
    List.foldlM (m := Option) (relax (α := Rounded round) dir label) S rest =
      List.foldlM (m := Option) (relax dir label) S rest := by
  induction rest generalizing S with
  | nil => rfl
  | cons e rest ih =>
    obtain ⟨he, hrest⟩ := List.forall_mem_cons.mp hedges
    have hfirst := relax_rounded hexact h hv he
    cases hS₁ : relax dir label S e with
    | none => exact (foldlM_cons_none (hfirst.trans hS₁)).trans (foldlM_cons_none hS₁).symm
    | some S₁ =>
      obtain ⟨h₁, hv₁⟩ := h.relax hv he hS₁
      exact (foldlM_cons_some (hfirst.trans hS₁)).trans ((ih h₁ hv₁ hrest).trans (foldlM_cons_some hS₁).symm)

theorem expand_rounded (hexact : Exact round edges s t) (h : Inv edges s t idle S) (hnext : Next S dir v label) :
    expand (α := Rounded round) edges dir v label S = expand edges dir v label S := by
  obtain ⟨hsettle, hv⟩ := h.settle hnext
  exact relaxAll_rounded hexact hsettle hv fun _ he => mem_neighbors.mp he

theorem step_rounded_iff (hexact : Exact round edges s t) (h : Inv edges s t idle S) :
    Step (α := Rounded round) edges S S' ↔ Step edges S S' := by
  constructor
  · rintro ⟨hnext, hother, hexpand⟩
    exact .mk hnext hother ((expand_rounded hexact h hnext).symm.trans hexpand)
  · rintro ⟨hnext, hother, hexpand⟩
    exact .mk hnext hother ((expand_rounded hexact h hnext).trans hexpand)

theorem ends_rounded_iff (hexact : Exact round edges s t) (h : Inv edges s t idle S) :
    Ends (α := Rounded round) edges S ending ↔ Ends edges S ending := by
  constructor
  · rintro (⟨hnext, hother⟩ | ⟨hnext, hother, hexpand⟩ | ⟨hall, hbest⟩)
    · exact .met hnext hother
    · exact .contradictory hnext hother ((expand_rounded hexact h hnext).symm.trans hexpand)
    · exact .exhausted hall hbest
  · rintro (⟨hnext, hother⟩ | ⟨hnext, hother, hexpand⟩ | ⟨hall, hbest⟩)
    · exact .met hnext hother
    · exact .contradictory hnext hother ((expand_rounded hexact h hnext).trans hexpand)
    · exact .exhausted hall hbest

theorem run_rounded_iff (hexact : Exact round edges s t) :
    Relation.ReflTransGen (Step (α := Rounded round) edges) (start s t) S ↔
      Relation.ReflTransGen (Step edges) (start s t) S := by
  constructor
  · intro h
    induction h with
    | refl => exact .refl
    | tail _ hstep ih => exact ih.tail ((step_rounded_iff hexact (inv_of_run ih)).mp hstep)
  · intro h
    induction h with
    | refl => exact .refl
    | tail hrun hstep ih => exact ih.tail ((step_rounded_iff hexact (inv_of_run hrun)).mpr hstep)

theorem finishes_rounded_iff (hexact : Exact round edges s t) :
    Finishes (α := Rounded round) edges s t S ending ↔ Finishes edges s t S ending := by
  constructor
  · rintro (hst | ⟨hst, hrun, hend⟩)
    · exact .same hst
    · have hrun := (run_rounded_iff hexact).mp hrun
      exact .searched hst hrun ((ends_rounded_iff hexact (inv_of_run hrun)).mp hend)
  · rintro (hst | ⟨hst, hrun, hend⟩)
    · exact .same hst
    · exact .searched hst ((run_rounded_iff hexact).mpr hrun) ((ends_rounded_iff hexact (inv_of_run hrun)).mpr hend)

end

end Intelliqx.Bidirectional
