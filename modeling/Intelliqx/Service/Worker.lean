import Intelliqx.Base.Machine
import Intelliqx.Service.Lifecycle

/-!
# The worker loop

`System` is one store and any number of workers that follow `_worker_loop`: a
worker polls `claim_next`, awaits the runtime and records the outcome, and the
steps of the others fall anywhere in between. `step_refines` shows that every
step is the change of the abstract lifecycle that `System.change` names.
-/

namespace Intelliqx.Service

open Py

structure Settings where
  maxRetries : Int

structure InvocationResponse where
  output : PyValue
  durationMs : Int
  status : String := "ok"
  error : Option String := none

/-- How the runtime ends an invocation. `interrupted` is by an exception that is
no `Exception`, as a cancellation is, which `except Exception` lets through. -/
inductive Invocation
  | returned (response : InvocationResponse)
  | raised (exc : PyException)
  | interrupted (exc : PyException)

/-- `text or fallback`: an empty text is replaced too. -/
def orText : Option String → String → String
  | none, fallback => fallback
  | some text, fallback => if text = "" then fallback else text

def recordOutcome (state : StateStore) (runId : String) (response : InvocationResponse)
    (settings : Settings) (attempt : Int) (now : Time) : Except PyException StateStore :=
  if response.status = "ok" then
    state.complete runId .succeeded (some response.output) none response.durationMs now
  else if attempt ≥ settings.maxRetries then
    state.complete runId .failed none
      (some (orText response.error s!"transport status {response.status}")) response.durationMs now
  else
    .ok (state.requeue runId (attempt + 1) now)

/-- The end of `_process_claim`, once the invocation has ended. An error is an
exception that leaves the function and ends the worker's loop. -/
def processClaim (state : StateStore) (settings : Settings) (claimed : Claim)
    (result : Invocation) (now : Time) : Except PyException StateStore :=
  match result with
  | .returned response => recordOutcome state claimed.runId response settings claimed.attempt now
  | .raised exc =>
    state.complete claimed.runId .failed none (some s!"{exc.typeName}: {exc.text}") 0 now
  | .interrupted exc => .error exc

/-- A worker between two awaits. -/
inductive Worker
  | polling
  | processing (claimed : Claim)
  | dead (claimed : Claim)

structure System where
  store : StateStore
  workers : Nat → Worker

inductive Event
  | enqueue (runId agentName tenantId : String) (inputPayload : PyValue) (maxRetries : Int) (now : Time)
  | cancel (runId : String) (now : Time)
  | closeExpired (now : Time)
  | poll (w : Nat) (choice : Nat) (now : Time)
  | finish (w : Nat) (result : Invocation) (now : Time)

namespace System

/-- One step of the queue; `none` where the worker is not at that point. -/
def step (settings : Settings) (s : System) : Event → Option System
  | .enqueue runId agentName tenantId inputPayload maxRetries now =>
    match s.store.enqueue runId agentName tenantId inputPayload maxRetries now with
    | .ok store => some { s with store }
    | .error _ => some s
  | .cancel runId now => some { s with store := (s.store.cancel runId now).2 }
  | .closeExpired now => some { s with store := (s.store.closeExpired now).2 }
  | .poll w choice now =>
    match s.workers w, s.store.claimNext choice now with
    | .polling, (some claimed, store) =>
      some ⟨store, Function.update s.workers w (.processing claimed)⟩
    | .polling, (none, store) => some { s with store }
    | _, _ => none
  | .finish w result now =>
    match s.workers w with
    | .processing claimed =>
      match processClaim s.store settings claimed result now with
      | .ok store => some ⟨store, Function.update s.workers w .polling⟩
      | .error _ => some { s with workers := Function.update s.workers w (.dead claimed) }
    | _ => none

def start (store : StateStore) : System := ⟨store, fun _ => .polling⟩

def Holds (s : System) (w : Nat) (runId : String) : Prop :=
  ∃ c, c.runId = runId ∧ (s.workers w = .processing c ∨ s.workers w = .dead c)

end System

-- ---------------------------------------------------------------------------
-- The lifecycle a system is in
-- ---------------------------------------------------------------------------

def Worker.duty : Worker → Duty String
  | .polling => .idle
  | .processing c => .holds c.runId
  | .dead c => .lost c.runId

def System.lifecycle (s : System) : Lifecycle String Nat :=
  ⟨s.store.statusOf, fun w => (s.workers w).duty⟩

/-- The status an outcome is recorded under; an interruption is not recorded. -/
def outcomeStatus (settings : Settings) (attempt : Int) : Invocation → RunStatus
  | .returned response =>
    if response.status = "ok" then .succeeded
    else if attempt ≥ settings.maxRetries then .failed
    else .pending
  | .raised _ | .interrupted _ => .failed

/-- The invocation is not interrupted; `json.dumps` takes the output and the
duration fits its column, where the outcome has them stored. -/
def Recordable (settings : Settings) (attempt : Int) : Invocation → Prop
  | .returned response =>
    (response.status = "ok" → ∃ j, jsonDumps response.output = .ok j) ∧
      (response.status = "ok" ∨ attempt ≥ settings.maxRetries →
        -2 ^ 63 ≤ response.durationMs ∧ response.durationMs < 2 ^ 63)
  | .raised _ => True
  | .interrupted _ => False

def System.change (settings : Settings) (s : System) : Event → Change String Nat
  | .enqueue runId agentName tenantId inputPayload maxRetries now =>
    match s.store.enqueue runId agentName tenantId inputPayload maxRetries now with
    | .ok _ => .submit runId
    | .error _ => .nothing
  | .cancel runId now => if (s.store.cancel runId now).1 then .cancel runId else .nothing
  | .closeExpired now => .expire fun runId => ∃ r, s.store.find? runId = some r ∧ s.store.expired now r
  | .poll w choice now =>
    match s.store.nextPending choice with
    | none => .nothing
    | some row =>
      match (s.store.claimNext choice now).1 with
      | none => .exhaust row.runId
      | some _ => .claim w row.runId
  | .finish w result now =>
    match s.workers w with
    | .processing c =>
      match processClaim s.store settings c result now with
      | .ok _ => .record w c.runId (outcomeStatus settings c.attempt result)
      | .error _ => .lose w c.runId
    | _ => .nothing

section
variable {settings : Settings} {s s' : System} {store : StateStore}

theorem System.holds_iff : s.Holds w runId ↔ s.lifecycle.Holds w runId := by
  cases h : s.workers w <;>
    simp [System.Holds, Lifecycle.Holds, System.lifecycle, Worker.duty, h, eq_comm]

theorem duty_update (workers : Nat → Worker) (w : Nat) (x : Worker) :
    (fun w' => (Function.update workers w x w').duty) =
      Function.update (fun w' => (workers w').duty) w x.duty := by
  funext w'
  by_cases h : w' = w
  · subst h; simp
  · simp [h]

theorem outcomeStatus_ne (settings : Settings) (attempt : Int) (result : Invocation) :
    outcomeStatus settings attempt result ≠ .running ∧
      outcomeStatus settings attempt result ≠ .cancelled := by
  cases result with
  | raised _ | interrupted _ => simp [outcomeStatus]
  | returned response =>
    simp only [outcomeStatus]
    split
    · simp
    · split <;> simp

theorem processClaim_ok {c : Claim} (h : processClaim store settings c result now = .ok store') :
    store'.statusOf = fun runId =>
      if runId = c.runId then
        (store.statusOf c.runId).map fun _ => outcomeStatus settings c.attempt result
      else store.statusOf runId := by
  funext runId
  cases result with
  | raised exc => exact StateStore.complete_ok h
  | interrupted exc => cases h
  | returned response =>
    simp only [processClaim, recordOutcome] at h
    by_cases hok : response.status = "ok"
    · rw [if_pos hok] at h
      simpa [outcomeStatus, hok] using StateStore.complete_ok h
    · rw [if_neg hok] at h
      by_cases hlast : c.attempt ≥ settings.maxRetries
      · rw [if_pos hlast] at h
        simpa only [outcomeStatus, if_neg hok, if_pos hlast] using StateStore.complete_ok h
      · rw [if_neg hlast] at h
        cases h
        simpa only [outcomeStatus, if_neg hok, if_neg hlast] using StateStore.statusOf_requeue

theorem processClaim_isOk {c : Claim} :
    (∃ store', processClaim store settings c result now = .ok store') ↔
      Recordable settings c.attempt result := by
  cases result with
  | raised exc => simp [processClaim, StateStore.complete_isOk, Recordable]
  | interrupted exc => simp [processClaim, Recordable]
  | returned response =>
    simp only [processClaim, recordOutcome, Recordable]
    by_cases hok : response.status = "ok"
    · cases hj : jsonDumps response.output <;> simp [StateStore.complete_isOk, hj, hok]
    · by_cases hlast : c.attempt ≥ settings.maxRetries
      · simp [StateStore.complete_isOk, hok, hlast]
      · simp [hok, hlast]

theorem claimNext_some (h : store.claimNext choice now = (some c, store')) :
    ∃ row, store.nextPending choice = some row ∧ c.runId = row.runId ∧
      store'.statusOf = fun runId =>
        if runId = row.runId then (store.statusOf row.runId).map fun _ => .running
        else store.statusOf runId := by
  obtain ⟨-, hnone⟩ | ⟨row, hrow, ⟨-, hfailed⟩ | ⟨-, hclaimed⟩⟩ := store.claimNext_cases choice now
  · cases hnone.symm.trans h
  · cases hfailed.symm.trans h
  · cases hclaimed.symm.trans h
    exact ⟨row, hrow, rfl, funext fun runId => StateStore.statusOf_update fun _ => rfl⟩

theorem claimNext_none (h : store.claimNext choice now = (none, store')) :
    (store.nextPending choice = none ∧ store' = store) ∨
      ∃ row, store.nextPending choice = some row ∧
        store'.statusOf = fun runId =>
          if runId = row.runId then (store.statusOf row.runId).map fun _ => .failed
          else store.statusOf runId := by
  obtain ⟨hrow, hnone⟩ | ⟨row, hrow, ⟨-, hfailed⟩ | ⟨-, hclaimed⟩⟩ := store.claimNext_cases choice now
  · cases hnone.symm.trans h
    exact .inl ⟨hrow, rfl⟩
  · cases hfailed.symm.trans h
    exact .inr ⟨row, hrow, funext fun runId => StateStore.statusOf_update fun _ => rfl⟩
  · cases hclaimed.symm.trans h

theorem enqueue_refines
    (h : s.step settings (.enqueue runId agentName tenantId inputPayload maxRetries now) = some s') :
    Lifecycle.Step s.lifecycle
      (s.change settings (.enqueue runId agentName tenantId inputPayload maxRetries now)) s'.lifecycle := by
  simp only [System.step] at h
  cases he : s.store.enqueue runId agentName tenantId inputPayload maxRetries now with
  | error exc => simp only [he] at h; cases h; simpa [System.change, he] using .nothing
  | ok store =>
    simp only [he] at h
    cases h
    obtain ⟨hnew, hst⟩ := StateStore.enqueue_ok he
    have hstatus : store.statusOf = Function.update s.store.statusOf runId (some .pending) := by
      funext r; rw [hst r]; simp [Function.update_apply]
    simp only [System.change, he, System.lifecycle, hstatus]
    exact .submit (l := s.lifecycle) (StateStore.statusOf_eq_none.mpr hnew)

theorem closeExpired_refines (s : System) (now : Time) :
    Lifecycle.Step s.lifecycle (s.change settings (.closeExpired now))
      (System.lifecycle { s with store := (s.store.closeExpired now).2 }) := by
  have hstatus : (s.store.closeExpired now).2.statusOf = fun runId =>
      if ∃ r, s.store.find? runId = some r ∧ s.store.expired now r then none
      else s.store.statusOf runId := by
    funext runId
    rw [StateStore.statusOf_closeExpired, StateStore.statusOf]
    cases hf : s.store.find? runId with
    | none => simp
    | some r => by_cases he : s.store.expired now r = true <;> simp [he]
  simp only [System.change, System.lifecycle, hstatus]
  apply Lifecycle.Step.expire (l := s.lifecycle)
  rintro runId ⟨r, hf, he⟩
  simp only [StateStore.expired, decide_eq_true_eq] at he
  simp [System.lifecycle, StateStore.statusOf, hf, he.1]

theorem poll_refines (h : s.step settings (.poll w choice now) = some s') :
    Lifecycle.Step s.lifecycle (s.change settings (.poll w choice now)) s'.lifecycle := by
  cases hw : s.workers w with
  | polling =>
    cases hc : s.store.claimNext choice now with
    | mk claimed store =>
      simp only [System.step, hw, hc] at h
      cases claimed with
      | none =>
        cases h
        rcases claimNext_none hc with ⟨hrow, rfl⟩ | ⟨row, hrow, hstatus⟩
        · simpa [System.change, hrow] using .nothing
        · simp only [System.change, hrow, hc, System.lifecycle, hstatus]
          exact .exhaust (l := s.lifecycle) (StateStore.nextPending_status hrow)
      | some c =>
        cases h
        obtain ⟨row, hrow, hid, hstatus⟩ := claimNext_some hc
        have hd : (Worker.processing c).duty = .holds row.runId := by rw [Worker.duty, hid]
        simp only [System.change, hrow, hc, System.lifecycle, hstatus, duty_update, hd]
        apply Lifecycle.Step.claim (l := s.lifecycle) (StateStore.nextPending_status hrow)
        simp [System.lifecycle, hw, Worker.duty]
  | _ => simp [System.step, hw] at h

theorem finish_refines (h : s.step settings (.finish w result now) = some s') :
    Lifecycle.Step s.lifecycle (s.change settings (.finish w result now)) s'.lifecycle := by
  cases hw : s.workers w with
  | processing c =>
    have hduty : s.lifecycle.duty w = .holds c.runId := by
      simp [System.lifecycle, hw, Worker.duty]
    simp only [System.step, hw] at h
    cases hp : processClaim s.store settings c result now with
    | ok store =>
      simp only [hp] at h
      cases h
      obtain ⟨hrun, hcan⟩ := outcomeStatus_ne settings c.attempt result
      simp only [System.change, hw, hp, System.lifecycle, processClaim_ok hp, duty_update]
      exact .record (l := s.lifecycle) hduty hrun hcan
    | error exc =>
      simp only [hp] at h
      cases h
      simp only [System.change, hw, hp, System.lifecycle, duty_update]
      exact .lose (l := s.lifecycle) hduty
  | _ => simp [System.step, hw] at h

/-- Every step of the queue is the change of the lifecycle it is named for. -/
theorem System.step_refines (h : s.step settings e = some s') :
    Lifecycle.Step s.lifecycle (s.change settings e) s'.lifecycle := by
  cases e with
  | enqueue runId agentName tenantId inputPayload maxRetries now => exact enqueue_refines h
  | cancel runId now =>
    cases h
    rcases s.store.cancel_cases runId now with hc | ⟨hst, store, hc, hstatus⟩
    · simpa [System.change, hc] using .nothing
    · simp only [System.change, hc, if_true, System.lifecycle, hstatus]
      exact .cancel (l := s.lifecycle) hst
  | closeExpired now => cases h; exact closeExpired_refines s now
  | poll w choice now => exact poll_refines h
  | finish w result now => exact finish_refines h

end

end Intelliqx.Service
