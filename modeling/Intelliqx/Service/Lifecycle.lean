import Mathlib.Logic.Function.Basic
import Intelliqx.Service.State

/-!
# The life of a run

What the queue is for, without its table: every run has a status, every worker
has at most one run in hand, and a change of the system is one of the labels
of `Change`. A worker that dies with a claim in hand has `lost` it: nobody
will record its outcome.

`Exclusive` ties the claims in hand to the statuses. It is kept by every
change except the submission of a run somebody has in hand, and where it holds
the only change that can alter a final status is the recording of an outcome
for a run cancelled meanwhile (`Step.keepsTerminal_iff`).
-/

namespace Intelliqx.Service

inductive Duty (ι : Type)
  | idle
  | holds (r : ι)
  | lost (r : ι)

structure Lifecycle (ι ω : Type) where
  status : ι → Option RunStatus
  duty : ω → Duty ι

inductive Change (ι ω : Type)
  | nothing
  | submit (r : ι)
  | claim (w : ω) (r : ι)
  | exhaust (r : ι)
  | cancel (r : ι)
  | expire (gone : ι → Prop)
  | record (w : ω) (r : ι) (st : RunStatus)
  | lose (w : ω) (r : ι)

namespace Lifecycle

variable {ι ω : Type}

/-- Worker `w` holds run `r`: it claimed it and has not recorded its outcome. -/
def Holds (l : Lifecycle ι ω) (w : ω) (r : ι) : Prop := l.duty w = .holds r ∨ l.duty w = .lost r

/-- No run is in two hands, and a run in hand is running or was cancelled or
deleted meanwhile. -/
structure Exclusive (l : Lifecycle ι ω) : Prop where
  one : ∀ w w' r, l.Holds w r → l.Holds w' r → w = w'
  busy : ∀ w r st, l.Holds w r → l.status r = some st → st = .running ∨ st = .cancelled

def KeepsTerminal (l l' : Lifecycle ι ω) : Prop :=
  ∀ r st, l.status r = some st → st.Terminal → l'.status r = some st

variable {l l' : Lifecycle ι ω} {c : Change ι ω}

theorem Exclusive.free_of_pending (hl : l.Exclusive) (h : l.status r = some .pending) :
    ¬ l.Holds w r := fun hw => by simpa using hl.busy w r _ hw h

variable [DecidableEq ι]

def write (l : Lifecycle ι ω) (r : ι) (st : RunStatus) : ι → Option RunStatus :=
  fun i => if i = r then (l.status r).map fun _ => st else l.status i

theorem write_of_ne (h : r' ≠ r) : l.write r st r' = l.status r' := by simp [write, h]

theorem write_self (h : l.status r = some st') : l.write r st r = some st := by simp [write, h]

@[simp] theorem write_eq_none : l.write r st r' = none ↔ l.status r' = none := by
  by_cases h : r' = r
  · subst h; simp [write]
  · rw [write_of_ne h]

/-- A write of one status to a run that is not in hand, or that leaves it
cancelled, keeps the run of every hand busy. -/
theorem busy_write (hl : l.Exclusive) (hfree : ∀ w, l.Holds w r → st = .cancelled)
    (hw : l.Holds w r') (hs : l.write r st r' = some st') : st' = .running ∨ st' = .cancelled := by
  by_cases h : r' = r
  · subst h
    simp only [write, if_true, Option.map_eq_some_iff] at hs
    obtain ⟨_, -, rfl⟩ := hs
    exact .inr (hfree w hw)
  · exact hl.busy w r' st' hw (by rwa [write_of_ne h] at hs)

theorem keepsTerminal_write (h : ∀ st', l.status r = some st' → ¬ st'.Terminal) :
    l.KeepsTerminal ⟨l.write r st, d⟩ := by
  intro r' st' hs ht
  have hne : r' ≠ r := by
    rintro rfl
    exact h st' hs ht
  simpa [write_of_ne hne] using hs

variable [DecidableEq ω]

inductive Step (l : Lifecycle ι ω) : Change ι ω → Lifecycle ι ω → Prop
  | nothing : Step l .nothing l
  | submit : l.status r = none →
      Step l (.submit r) { l with status := Function.update l.status r (some .pending) }
  | claim : l.status r = some .pending → l.duty w = .idle →
      Step l (.claim w r) ⟨l.write r .running, Function.update l.duty w (.holds r)⟩
  | exhaust : l.status r = some .pending → Step l (.exhaust r) { l with status := l.write r .failed }
  | cancel : l.status r = some .pending ∨ l.status r = some .running →
      Step l (.cancel r) { l with status := l.write r .cancelled }
  | expire [DecidablePred gone] : (∀ r, gone r → l.status r = some .running) →
      Step l (.expire gone) { l with status := fun i => if gone i then none else l.status i }
  | record : l.duty w = .holds r → st ≠ .running → st ≠ .cancelled →
      Step l (.record w r st) ⟨l.write r st, Function.update l.duty w .idle⟩
  | lose : l.duty w = .holds r →
      Step l (.lose w r) { l with duty := Function.update l.duty w (.lost r) }

-- ---------------------------------------------------------------------------
-- Who holds a run after a change of hands
-- ---------------------------------------------------------------------------

omit [DecidableEq ι] in
theorem holds_update_idle {status : ι → Option RunStatus}
    (h : (⟨status, Function.update l.duty w .idle⟩ : Lifecycle ι ω).Holds w' r) :
    w' ≠ w ∧ l.Holds w' r := by
  by_cases hw : w' = w
  · subst hw; simp [Holds] at h
  · exact ⟨hw, by simpa [Holds, hw] using h⟩

omit [DecidableEq ι] in
theorem holds_update_holds {status : ι → Option RunStatus}
    (h : (⟨status, Function.update l.duty w (.holds r)⟩ : Lifecycle ι ω).Holds w' r') :
    (w' = w ∧ r' = r) ∨ l.Holds w' r' := by
  by_cases hw : w' = w
  · subst hw
    simp only [Holds, Function.update_self, Duty.holds.injEq, reduceCtorEq, or_false] at h
    exact .inl ⟨rfl, h.symm⟩
  · exact .inr (by simpa [Holds, hw] using h)

omit [DecidableEq ι] in
theorem holds_update_lost {status : ι → Option RunStatus} (hh : l.duty w = .holds r)
    (h : (⟨status, Function.update l.duty w (.lost r)⟩ : Lifecycle ι ω).Holds w' r') :
    l.Holds w' r' := by
  by_cases hw : w' = w
  · subst hw
    simp only [Holds, Function.update_self, reduceCtorEq, Duty.lost.injEq, false_or] at h
    exact .inl (h ▸ hh)
  · simpa [Holds, hw] using h

-- ---------------------------------------------------------------------------
-- Exclusive claims and final statuses
-- ---------------------------------------------------------------------------

/-- The run was pending, so no other hand held it. -/
theorem Exclusive.claim (hl : l.Exclusive) (hp : l.status r = some .pending) :
    Exclusive ⟨l.write r .running, Function.update l.duty w (.holds r)⟩ := by
  have hfree : ∀ w', ¬ l.Holds w' r := fun w' => hl.free_of_pending hp
  constructor
  · intro w₁ w₂ r' h₁ h₂
    rcases holds_update_holds h₁ with ⟨rfl, rfl⟩ | k₁ <;>
      rcases holds_update_holds h₂ with ⟨rfl, he⟩ | k₂
    · rfl
    · exact absurd k₂ (hfree w₂)
    · exact absurd (he ▸ k₁) (hfree w₁)
    · exact hl.one w₁ w₂ r' k₁ k₂
  · intro w' r' st h hst
    replace hst : l.write r .running r' = some st := hst
    rcases holds_update_holds h with ⟨rfl, rfl⟩ | h
    · rw [write_self hp] at hst
      exact .inl (Option.some.inj hst).symm
    · have hne : r' ≠ r := fun e => hfree w' (e ▸ h)
      exact hl.busy w' r' st h (by rwa [write_of_ne hne] at hst)

theorem Exclusive.record (hl : l.Exclusive) (hh : l.duty w = .holds r) :
    Exclusive ⟨l.write r st, Function.update l.duty w .idle⟩ := by
  constructor
  · intro w₁ w₂ r' h₁ h₂
    exact hl.one w₁ w₂ r' (holds_update_idle h₁).2 (holds_update_idle h₂).2
  · intro w' r' st' h hst
    replace hst : l.write r st r' = some st' := hst
    obtain ⟨hw, hh'⟩ := holds_update_idle h
    have hne : r' ≠ r := by
      rintro rfl
      exact hw (hl.one w' w r' hh' (.inl hh))
    exact hl.busy w' r' st' hh' (by rwa [write_of_ne hne] at hst)

/-- Every change keeps the claims exclusive, as long as nobody submits a run
that is in hand. -/
theorem Exclusive.step (hl : l.Exclusive) (hs : Step l c l')
    (hsubmit : ∀ r, c = .submit r → ∀ w, ¬ l.Holds w r) : l'.Exclusive := by
  cases hs with
  | nothing => exact hl
  | @submit r _ =>
    refine ⟨hl.one, ?_⟩
    intro w r' st hw hst
    have hne : r' ≠ r := by
      rintro rfl
      exact hsubmit _ rfl w hw
    exact hl.busy w r' st hw (by simpa [hne] using hst)
  | claim hp _ => exact hl.claim hp
  | @exhaust r hp =>
    refine ⟨hl.one, fun w r' st hw hst => busy_write hl (?_) hw hst⟩
    intro w h
    exact absurd h (hl.free_of_pending hp)
  | cancel _ => exact ⟨hl.one, fun w r' st hw hst => busy_write hl (fun _ _ => rfl) hw hst⟩
  | @expire gone _ _ =>
    refine ⟨hl.one, ?_⟩
    intro w r' st hw hst
    by_cases hg : gone r'
    · simp [hg] at hst
    · exact hl.busy w r' st hw (by simpa [hg] using hst)
  | record hh _ _ => exact hl.record hh
  | lose hh =>
    constructor
    · intro w₁ w₂ r' h₁ h₂
      exact hl.one w₁ w₂ r' (holds_update_lost hh h₁) (holds_update_lost hh h₂)
    · intro w' r' st h hst
      exact hl.busy w' r' st (holds_update_lost hh h) hst

/-- A change alters a final status exactly when it records an outcome for a
run that was cancelled. -/
theorem Step.keepsTerminal_iff (hl : l.Exclusive) (hs : Step l c l') :
    l.KeepsTerminal l' ↔ ∀ w r st, c = .record w r st → l.status r ≠ some .cancelled := by
  cases hs with
  | nothing => exact ⟨fun _ _ _ _ h => by simp at h, fun _ _ _ h _ => h⟩
  | @submit r hn =>
    refine ⟨fun _ _ _ _ h => by simp at h, fun _ r' st hs _ => ?_⟩
    have hne : r' ≠ r := by
      rintro rfl
      simp [hn] at hs
    simpa [hne] using hs
  | claim hp _ =>
    refine ⟨fun _ _ _ _ h => by simp at h, fun _ => keepsTerminal_write ?_⟩
    rintro st' h
    cases hp.symm.trans h
    simp [RunStatus.Terminal]
  | exhaust hp =>
    refine ⟨fun _ _ _ _ h => by simp at h, fun _ => keepsTerminal_write ?_⟩
    rintro st' h
    cases hp.symm.trans h
    simp [RunStatus.Terminal]
  | cancel hp =>
    refine ⟨fun _ _ _ _ h => by simp at h, fun _ => keepsTerminal_write ?_⟩
    rintro st' h
    rcases hp with hp | hp <;> cases hp.symm.trans h <;> simp [RunStatus.Terminal]
  | @expire gone _ hg =>
    refine ⟨fun _ _ _ _ h => by simp at h, fun _ r st hs ht => ?_⟩
    have hn : ¬ gone r := by
      intro h
      cases (hg r h).symm.trans hs
      simp [RunStatus.Terminal] at ht
    simpa [hn] using hs
  | @record w r st hh hr hc =>
    constructor
    · rintro hk w' r' st' ⟨⟩ hs
      have hk := hk r .cancelled hs trivial
      simp only [write_self hs, Option.some.injEq] at hk
      exact hc hk
    · intro h
      apply keepsTerminal_write
      intro st' hs ht
      rcases hl.busy w r st' (.inl hh) hs with rfl | rfl
      · simp [RunStatus.Terminal] at ht
      · exact h w r st rfl hs
  | lose _ => exact ⟨fun _ _ _ _ h => by simp at h, fun _ _ _ h _ => h⟩

theorem Step.new (hs : Step l (.submit r) l') : l.status r = none := by
  cases hs with
  | submit hn => exact hn

theorem Step.holds_or_known (hs : Step l c l') (h : l'.Holds w r) : l.Holds w r ∨ l.status r ≠ none := by
  cases hs with
  | claim hp _ =>
    rcases holds_update_holds h with ⟨-, rfl⟩ | h
    · exact .inr (by simp [hp])
    · exact .inl h
  | record _ _ _ => exact .inl (holds_update_idle h).2
  | lose hh => exact .inl (holds_update_lost hh h)
  | _ => exact .inl h

theorem Step.known_or_submitted (hs : Step l c l') (h : l'.status r ≠ none) :
    l.status r ≠ none ∨ c = .submit r := by
  cases hs with
  | @submit r' _ =>
    by_cases hr : r = r'
    · exact .inr (hr ▸ rfl)
    · exact .inl (by simpa [hr] using h)
  | expire _ => exact .inl fun hn => h (by simp [hn])
  | nothing | lose _ => exact .inl h
  | _ => exact .inl fun hn => h (write_eq_none.mpr hn)

theorem Step.known_of_known (hs : Step l c l') (hc : ∀ gone, c ≠ .expire gone)
    (h : l.status r ≠ none) : l'.status r ≠ none := by
  cases hs with
  | @submit r' _ => by_cases hr : r = r' <;> simp [hr, h]
  | expire _ => exact absurd rfl (hc _)
  | nothing | lose _ => exact h
  | _ => exact fun hn => h (write_eq_none.mp hn)

end Lifecycle

end Intelliqx.Service
