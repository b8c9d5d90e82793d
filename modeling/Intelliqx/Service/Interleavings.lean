import Intelliqx.Service.Worker

/-!
# Every interleaving of the queue

What holds of a run of the system, however its steps fall: at most one worker
holds a run at a time (`held_once`), and a final status stays final exactly as
long as no worker records an outcome for a run cancelled in its hands
(`terminal_final_iff`).
-/

namespace Intelliqx.Service

open Machine Py

def Event.enqueued? : Event → Option String
  | .enqueue runId .. => some runId
  | _ => none

def Event.closesExpired : Event → Bool
  | .closeExpired _ => true
  | _ => false

def enqueuedIds (es : List Event) : List String := es.filterMap Event.enqueued?

section
variable {settings : Settings} {s s' : System} {store : StateStore} {e : Event} {es : List Event}

def Origin (settings : Settings) (s : System) (e : Event) : Change String Nat → Prop
  | .submit runId => e.enqueued? = some runId
  | .expire _ => e.closesExpired = true
  | .record w runId _ => ∃ c result now, e = .finish w result now ∧ s.workers w = .processing c ∧
      c.runId = runId ∧ Recordable settings c.attempt result
  | _ => True

theorem change_origin (settings : Settings) (s : System) (e : Event) :
    Origin settings s e (s.change settings e) := by
  cases e with
  | enqueue => simp only [System.change]; split <;> simp [Origin, Event.enqueued?]
  | cancel => simp only [System.change]; split <;> trivial
  | closeExpired => rfl
  | poll =>
    simp only [System.change]
    split
    · trivial
    · split <;> trivial
  | finish w result now =>
    simp only [System.change]
    split
    · rename_i c hw
      split
      · rename_i store hp
        exact ⟨c, result, now, rfl, hw, rfl, processClaim_isOk.mp ⟨store, hp⟩⟩
      · trivial
    · trivial

theorem change_submit (h : s.change settings e = .submit runId) : e.enqueued? = some runId := by
  simpa [h, Origin] using change_origin settings s e

theorem change_expire (h : s.change settings e = .expire gone) : e.closesExpired = true := by
  simpa [h, Origin] using change_origin settings s e

theorem exclusive_start : (System.start store).lifecycle.Exclusive :=
  ⟨fun _ _ _ h => by simp [Lifecycle.Holds, System.lifecycle, System.start, Worker.duty] at h,
    fun _ _ _ h => by simp [Lifecycle.Holds, System.lifecycle, System.start, Worker.duty] at h⟩

-- ---------------------------------------------------------------------------
-- One hand at a time
-- ---------------------------------------------------------------------------

/-- Claims are exclusive, and no run that is known or in hand is submitted by
the events to come. -/
structure Owned (es : List Event) (s : System) : Prop where
  exclusive : s.lifecycle.Exclusive
  held : ∀ w runId, s.lifecycle.Holds w runId → runId ∉ enqueuedIds es
  known : ∀ runId, s.lifecycle.status runId ≠ none → runId ∉ enqueuedIds es
  once : (enqueuedIds es).Nodup

theorem Owned.step (h : Owned (e :: es) s) (hs : s.step settings e = some s') : Owned es s' := by
  have hr := System.step_refines hs
  have hrest : ∀ runId, runId ∉ enqueuedIds (e :: es) → runId ∉ enqueuedIds es := fun runId hn hm =>
    hn (by unfold enqueuedIds at hm ⊢; exact ((List.sublist_cons_self e es).filterMap _).subset hm)
  have hsubmit : ∀ runId, s.change settings e = .submit runId →
      runId ∈ enqueuedIds (e :: es) ∧ runId ∉ enqueuedIds es := by
    intro runId hc
    have honce := h.once
    simp only [enqueuedIds, List.filterMap_cons, change_submit hc, List.nodup_cons] at honce
    exact ⟨by simp [enqueuedIds, change_submit hc], honce.1⟩
  refine ⟨h.exclusive.step hr ?_, ?_, ?_, ?_⟩
  · exact fun runId hc w hw => h.held w runId hw (hsubmit runId hc).1
  · intro w runId hw
    rcases hr.holds_or_known hw with hw | hk
    · exact hrest runId (h.held w runId hw)
    · exact hrest runId (h.known runId hk)
  · intro runId hk
    rcases hr.known_or_submitted hk with hk | hc
    · exact hrest runId (h.known runId hk)
    · exact (hsubmit runId hc).2
  · exact h.once.sublist ((List.sublist_cons_self e es).filterMap _)

/-- Whatever the interleaving, when no run id is enqueued twice, at most one
worker holds a run, and a run that is held is not pending. -/
theorem held_once (settings : Settings) (store : StateStore) (es : List Event) (s : System)
    (honce : (store.runIds ++ enqueuedIds es).Nodup)
    (hrun : run (System.step settings) (System.start store) es = some s) :
    (∀ w w' runId, s.Holds w runId → s.Holds w' runId → w = w') ∧
      ∀ w runId, s.Holds w runId → s.store.statusOf runId ≠ some .pending := by
  have hinit : Owned es (System.start store) := by
    obtain ⟨-, honce, hdisj⟩ := List.nodup_append.mp honce
    refine ⟨exclusive_start, ?_, ?_, honce⟩
    · intro w runId hw
      simp [Lifecycle.Holds, System.lifecycle, System.start, Worker.duty] at hw
    · intro runId hk hm
      have hmem : runId ∈ store.runIds := by
        by_contra hn
        exact hk (StateStore.statusOf_eq_none.mpr hn)
      exact hdisj runId hmem runId hm rfl
  have h : Owned [] s := run_countdown (fun _ _ _ _ hi hs => hi.step hs) hinit hrun
  simp only [System.holds_iff]
  exact ⟨h.exclusive.one, fun w runId hw hp => h.exclusive.free_of_pending hp hw⟩

def twoWorkers : List Event :=
  [.enqueue "r1" "smoke" "t1" (.dict []) 1 0, .poll 0 0 1, .poll 1 0 2, .closeExpired 9999]

theorem held_once_two_workers :
    ∃ s, run (System.step ⟨1⟩) (System.start ⟨[], 3600, List.nodup_nil⟩) twoWorkers = some s ∧
      (∀ w w' runId, s.Holds w runId → s.Holds w' runId → w = w') ∧
      ∀ w runId, s.Holds w runId → s.store.statusOf runId ≠ some .pending :=
  ⟨_, rfl, held_once ⟨1⟩ ⟨[], 3600, List.nodup_nil⟩ twoWorkers _ (by decide) rfl⟩

-- ---------------------------------------------------------------------------
-- Final statuses
-- ---------------------------------------------------------------------------

/-- A final status, once reached on the run, is never left again. -/
def TerminalFinal (settings : Settings) (s : System) (es : List Event) : Prop :=
  ∀ runId st, st.Terminal → Stable (System.step settings) (fun t => t.store.statusOf runId = some st) s es

/-- After a `cancel` that returned true the run is and stays cancelled. -/
def CancelFinal (settings : Settings) (s : System) (es : List Event) : Prop :=
  ∀ before runId now between after t t', es = before ++ .cancel runId now :: (between ++ after) →
    run (System.step settings) s before = some t → (t.store.cancel runId now).1 = true →
    run (System.step settings) t (.cancel runId now :: between) = some t' →
    t'.store.statusOf runId = some .cancelled

/-- A worker is about to record an outcome for a run that was cancelled while
the worker held it. -/
def LateOutcome (settings : Settings) (s : System) (e : Event) : Prop :=
  ∃ w c result now, e = .finish w result now ∧ s.workers w = .processing c ∧
    s.store.statusOf c.runId = some .cancelled ∧ Recordable settings c.attempt result

theorem lateOutcome_iff : LateOutcome settings s e ↔
    ∃ w runId st, s.change settings e = .record w runId st ∧
      s.lifecycle.status runId = some .cancelled := by
  constructor
  · rintro ⟨w, c, result, now, rfl, hw, hc, hrec⟩
    obtain ⟨store', hp⟩ : ∃ store', processClaim s.store settings c result now = .ok store' :=
      processClaim_isOk.mpr hrec
    exact ⟨w, c.runId, _, by simp only [System.change, hw, hp]; rfl, hc⟩
  · rintro ⟨w, runId, st, hch, hc⟩
    have ho := change_origin settings s e
    rw [hch] at ho
    obtain ⟨c, result, now, rfl, hw, rfl, hrec⟩ := ho
    exact ⟨w, c, result, now, rfl, hw, hc, hrec⟩

structure Present (s : System) : Prop where
  exclusive : s.lifecycle.Exclusive
  present : ∀ w runId, s.lifecycle.Holds w runId → s.lifecycle.status runId ≠ none

theorem Present.step (h : Present s) (he : e.closesExpired = false)
    (hs : s.step settings e = some s') : Present s' := by
  have hr := System.step_refines hs
  have hexp : ∀ gone, s.change settings e ≠ .expire gone := fun gone hc => by
    simp [change_expire hc] at he
  refine ⟨h.exclusive.step hr ?_, ?_⟩
  · intro runId hc w hw
    exact h.present w runId hw (Lifecycle.Step.new (hc ▸ hr))
  · intro w runId hw
    rcases hr.holds_or_known hw with hw | hk
    · exact hr.known_of_known hexp (h.present w runId hw)
    · exact hr.known_of_known hexp hk

theorem present_start : Present (System.start store) :=
  ⟨exclusive_start, fun _ _ h => by
    simp [Lifecycle.Holds, System.lifecycle, System.start, Worker.duty] at h⟩

theorem terminalFinal_iff :
    TerminalFinal settings s es ↔
      Always (System.step settings) (fun t _ t' => t.lifecycle.KeepsTerminal t'.lifecycle) s es := by
  have hkeys : TerminalFinal settings s es ↔ ∀ k : { k : String × RunStatus // k.2.Terminal },
      Always (System.step settings) (fun t _ t' =>
        t.store.statusOf k.1.1 = some k.1.2 → t'.store.statusOf k.1.1 = some k.1.2) s es :=
    ⟨fun h k => stable_iff_always.mp (h k.1.1 k.1.2 k.2),
      fun h runId st ht => stable_iff_always.mpr (h ⟨(runId, st), ht⟩)⟩
  rw [hkeys, always_forall]
  refine always_congr (I := fun _ => True) (P := fun _ => True) (fun _ _ _ _ _ _ _ => trivial)
    (fun t _ t' _ _ _ => ?_) trivial fun _ _ => trivial
  exact ⟨fun h runId st hs ht => h ⟨(runId, st), ht⟩ hs, fun h k hs => h k.1.1 k.1.2 hs k.2⟩

theorem TerminalFinal.cancelFinal (h : TerminalFinal settings s es) : CancelFinal settings s es := by
  intro before runId now between after t t' hes hrun hc hrun'
  obtain ⟨u, hu, hrest⟩ := Option.bind_eq_some_iff.mp hrun'
  have hcancelled : u.store.statusOf runId = some .cancelled := by
    cases hu
    rcases t.store.cancel_cases runId now with hcase | ⟨hst, store, hcase, hstatus⟩
    · simp [hcase] at hc
    · rcases hst with hst | hst <;> simp [hcase, hstatus, hst]
  have hbefore : run (System.step settings) s (before ++ [.cancel runId now]) = some u := by
    simp [run_append, hrun, hu]
  exact h runId .cancelled trivial (before ++ [.cancel runId now]) between after u t'
    (by simp [hes]) hbefore hrest hcancelled

/-- In any interleaving of enqueues, cancels and workers, final statuses are
final, those of cancelled runs among them, exactly when no step of it records
an outcome for a run cancelled meanwhile. -/
theorem terminal_final_iff (settings : Settings) (store : StateStore) (es : List Event)
    (hes : ∀ e ∈ es, e.closesExpired = false) :
    (TerminalFinal settings (System.start store) es ∧ CancelFinal settings (System.start store) es) ↔
      Always (System.step settings) (fun s e _ => ¬ LateOutcome settings s e) (System.start store) es := by
  have hstep : TerminalFinal settings (System.start store) es ↔
      Always (System.step settings) (fun s e _ => ¬ LateOutcome settings s e) (System.start store) es := by
    rw [terminalFinal_iff]
    refine always_congr (I := Present) (P := fun e => e.closesExpired = false)
      (fun s e s' he hp hs _ => hp.step he hs) (fun s e s' _ hp hs => ?_) present_start hes
    rw [(System.step_refines hs).keepsTerminal_iff hp.exclusive, lateOutcome_iff]
    constructor
    · rintro h ⟨w, runId, st, hc, hst⟩; exact h w runId st hc hst
    · intro h w runId st hc hst; exact h ⟨w, runId, st, hc, hst⟩
  exact ⟨fun h => hstep.mp h.1, fun h => ⟨hstep.mpr h, (hstep.mpr h).cancelFinal⟩⟩

def answeredInTime : List Event :=
  [.enqueue "r1" "smoke" "t1" (.dict []) 1 0, .poll 0 0 1,
    .finish 0 (.returned { output := .dict [], durationMs := 5 }) 2]

theorem terminal_final_answered :
    TerminalFinal ⟨1⟩ (System.start ⟨[], 3600, List.nodup_nil⟩) answeredInTime ∧
      CancelFinal ⟨1⟩ (System.start ⟨[], 3600, List.nodup_nil⟩) answeredInTime := by
  apply (terminal_final_iff ⟨1⟩ ⟨[], 3600, List.nodup_nil⟩ answeredInTime (by decide)).mpr
  rintro _ ⟨⟩
  refine ⟨(by rintro ⟨_, _, _, _, h, -⟩; cases h), ?_⟩
  rintro _ ⟨⟩
  refine ⟨(by rintro ⟨_, _, _, _, h, -⟩; cases h), ?_⟩
  rintro _ ⟨⟩
  refine ⟨?_, trivial⟩
  rintro ⟨_, _, _, _, h, hw, hc, -⟩
  cases h
  cases hw
  exact absurd hc (by decide)

def cancelledInFlight : List Event :=
  [.enqueue "r1" "smoke" "t1" (.dict []) 1 0, .poll 0 0 1, .cancel "r1" 2,
    .finish 0 (.returned { output := .dict [], durationMs := 5 }) 3]

/-- The answer overwrites the cancellation: a run whose `cancel` returned true
ends as succeeded. -/
theorem cancelled_then_succeeded :
    ¬ (TerminalFinal ⟨1⟩ (System.start ⟨[], 3600, List.nodup_nil⟩) cancelledInFlight ∧
      CancelFinal ⟨1⟩ (System.start ⟨[], 3600, List.nodup_nil⟩) cancelledInFlight) := by
  rintro ⟨-, h⟩
  have hfinal := h (cancelledInFlight.take 2) "r1" 2 (cancelledInFlight.drop 3) [] _ _ rfl rfl rfl rfl
  exact absurd hfinal (by decide)

end

end Intelliqx.Service
