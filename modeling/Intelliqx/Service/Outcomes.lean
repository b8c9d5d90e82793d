import Intelliqx.Service.Interleavings

/-!
# What an outcome leaves behind

An outcome that the store takes ends its claim: the run is no longer running
and the worker polls again. One that the store refuses raises outside the
`try` of `_process_claim`: the transaction is rolled back, so the run stays as
it was, and the worker's loop ends. So it does where the invocation is
interrupted, which that `try` lets through.
-/

namespace Intelliqx.Service

open Machine Py

/-- A step that finishes a claim leaves its run in a status other than running,
and its worker able to claim again. -/
def Settled (settings : Settings) (s : System) (e : Event) (s' : System) : Prop :=
  ∀ w c result now, e = .finish w result now → s.workers w = .processing c →
    s'.store.statusOf c.runId ≠ some .running ∧
      ∀ choice now', ∃ s'', s'.step settings (.poll w choice now') = some s''

/-- The invocation is not interrupted, and the store takes its outcome. -/
def Accepted (settings : Settings) (s : System) (e : Event) : Prop :=
  ∀ w c result now, e = .finish w result now → s.workers w = .processing c →
    Recordable settings c.attempt result

section
variable {settings : Settings} {s s' : System} {e : Event}

theorem poll_of_polling (h : s.workers w = .polling) (choice : Nat) (now : Time) :
    ∃ s', s.step settings (.poll w choice now) = some s' := by
  cases hc : s.store.claimNext choice now with
  | mk claimed store => cases claimed <;> simp [System.step, h, hc]

theorem finish_recorded (hw : s.workers w = .processing c)
    (hp : processClaim s.store settings c result now = .ok store)
    (hs : s.step settings (.finish w result now) = some s') :
    s'.store = store ∧ s'.workers w = .polling := by
  simp only [System.step, hw, hp, Option.some.injEq] at hs
  subst hs
  exact ⟨rfl, Function.update_self ..⟩

/-- A refused outcome changes nothing but the worker. -/
theorem finish_refused (hw : s.workers w = .processing c)
    (hp : processClaim s.store settings c result now = .error exc)
    (hs : s.step settings (.finish w result now) = some s') :
    s'.store = s.store ∧ s'.workers w = .dead c := by
  simp only [System.step, hw, hp, Option.some.injEq] at hs
  subst hs
  exact ⟨rfl, Function.update_self ..⟩

theorem not_running_of_recorded {store store' : StateStore} {c : Claim}
    (h : processClaim store settings c result now = .ok store') :
    store'.statusOf c.runId ≠ some .running := by
  intro hr
  rw [processClaim_ok h] at hr
  simp only [if_true] at hr
  obtain ⟨_, -, hst⟩ := Option.map_eq_some_iff.mp hr
  exact (outcomeStatus_ne settings c.attempt result).1 hst

theorem settled_iff (hs : s.step settings e = some s') :
    Settled settings s e s' ↔ Accepted settings s e := by
  constructor
  · intro h w c result now he hw
    have hok : (∃ store, processClaim s.store settings c result now = .ok store) ↔
        Recordable settings c.attempt result := processClaim_isOk
    rw [← hok]
    cases hp : processClaim s.store settings c result now with
    | ok store => exact ⟨store, rfl⟩
    | error exc =>
      subst he
      obtain ⟨-, hdead⟩ := finish_refused hw hp hs
      obtain ⟨s'', hpoll⟩ := (h w c result now rfl hw).2 0 0
      simp [System.step, hdead] at hpoll
  · intro h w c result now he hw
    obtain ⟨store, hp⟩ : ∃ store, processClaim s.store settings c result now = .ok store :=
      processClaim_isOk.mpr (h w c result now he hw)
    subst he
    obtain ⟨hstore, hpolling⟩ := finish_recorded hw hp hs
    rw [hstore]
    exact ⟨not_running_of_recorded hp, poll_of_polling hpolling⟩

/-- One run, answered with a value JSON has no spelling for. -/
def answeredWithDatetime : List Event :=
  [.enqueue "r1" "smoke" "t1" (.dict []) 1 0, .poll 0 0 1,
    .finish 0 (.returned { output := .dict [(.str "at", .other "datetime")], durationMs := 5 }) 2]

end

end Intelliqx.Service
