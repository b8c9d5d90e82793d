import Intelliqx.Service.Interleavings

/-!
# What a step does to the table

Every step of the queue other than the removal of expired runs writes at most
one row. `Writes` lists the writers with their guards and what they set, and
`System.step_writes` finds each step in the list; invariants of the rows are
derived from it.
-/

namespace Intelliqx.Service

open Py

inductive RowWrite
  | nothing
  | insert (row : Run)
  | rewrite (runId : String) (set : Run → Run)

/-- The rows by their ids, after the write. -/
def RowWrite.apply (rows : String → Option Run) : RowWrite → String → Option Run
  | .nothing, id => rows id
  | .insert row, id => if id = row.runId then some row else rows id
  | .rewrite runId set, id => if id = runId then (rows runId).map set else rows id

/-- What `claim_next` returns of a row. -/
def claimOf (row : Run) : Claim :=
  ⟨row.runId, row.agentName, jsonLoads row.inputJson, row.tenantId, row.attempts + 1⟩

/-- A step, what it writes, and where it leaves the workers. -/
inductive Writes (settings : Settings) (s : System) : Event → RowWrite → (Nat → Worker) → Prop
  | enqueued : runId ∉ s.store.runIds → jsonDumps input = .ok inputJson →
      Writes settings s (.enqueue runId agentName tenantId input maxRetries now)
        (.insert { runId, agentName, tenantId, status := .pending, inputJson, maxRetries
                   createdAt := now, updatedAt := now }) s.workers
  | refused : Writes settings s (.enqueue runId agentName tenantId input maxRetries now) .nothing s.workers
  | cancelled : s.store.statusOf runId = some .pending ∨ s.store.statusOf runId = some .running →
      Writes settings s (.cancel runId now)
        (.rewrite runId fun r => { r with status := .cancelled, updatedAt := now }) s.workers
  | uncancelled : Writes settings s (.cancel runId now) .nothing s.workers
  | idle : s.store.nextPending choice = none → Writes settings s (.poll w choice now) .nothing s.workers
  | exhausted : s.store.nextPending choice = some row → row.attempts + 1 > row.maxRetries →
      Writes settings s (.poll w choice now)
        (.rewrite row.runId fun r => { r with status := .failed, updatedAt := now }) s.workers
  | claimed : s.store.nextPending choice = some row → row.attempts + 1 ≤ row.maxRetries →
      Writes settings s (.poll w choice now)
        (.rewrite row.runId fun r => { r with
          status := .running, attempts := row.attempts + 1, updatedAt := now })
        (Function.update s.workers w (.processing (claimOf row)))
  | succeeded : s.workers w = .processing c → outcomeStatus settings c.attempt result = .succeeded →
      Writes settings s (.finish w result now)
        (.rewrite c.runId fun r => { r with
          status := .succeeded, outputJson := some outputJson, error := none, durationMs, updatedAt := now })
        (Function.update s.workers w .polling)
  | failed : s.workers w = .processing c → outcomeStatus settings c.attempt result = .failed →
      Writes settings s (.finish w result now)
        (.rewrite c.runId fun r => { r with
          status := .failed, outputJson := none, error := some error, durationMs, updatedAt := now })
        (Function.update s.workers w .polling)
  | requeued : s.workers w = .processing c → outcomeStatus settings c.attempt result = .pending →
      Writes settings s (.finish w result now)
        (.rewrite c.runId fun r => { r with
          status := .pending, attempts := c.attempt + 1, updatedAt := now })
        (Function.update s.workers w .polling)
  | lost : s.workers w = .processing c → ¬ Recordable settings c.attempt result →
      Writes settings s (.finish w result now) .nothing (Function.update s.workers w (.dead c))

section
variable {settings : Settings} {s s' : System} {store store' : StateStore} {e : Event} {id runId : String}

theorem complete_writes {c : Claim}
    (h : store.complete c.runId st output error ms now = .ok store') :
    ∃ outputJson, output.mapM jsonDumps = .ok outputJson ∧ ∀ id, store'.find? id =
      (RowWrite.rewrite c.runId fun r => { r with
        status := st, outputJson, error, durationMs := ms, updatedAt := now }).apply store.find? id :=
  StateStore.find?_complete h

theorem poll_writes (h : s.step settings (.poll w choice now) = some s') :
    ∃ write workers, Writes settings s (.poll w choice now) write workers ∧ s'.workers = workers ∧
      ∀ id, s'.store.find? id = write.apply s.store.find? id := by
  cases hw : s.workers w with
  | polling =>
    obtain ⟨hrow, hc⟩ | ⟨row, hrow, ⟨hlast, hc⟩ | ⟨hleft, hc⟩⟩ := s.store.claimNext_cases choice now
    · simp only [System.step, hw, hc, Option.some.injEq] at h
      subst h
      exact ⟨_, _, .idle hrow, rfl, fun _ => rfl⟩
    · simp only [System.step, hw, hc, Option.some.injEq] at h
      subst h
      exact ⟨_, _, .exhausted hrow hlast, rfl, fun _ => by rw [StateStore.find?_update]; rfl⟩
    · simp only [System.step, hw, hc, Option.some.injEq] at h
      subst h
      exact ⟨_, _, .claimed hrow hleft, rfl, fun _ => by rw [StateStore.find?_update]; rfl⟩
  | _ => simp [System.step, hw] at h

/-- The claim is recorded: one branch of `_process_claim` for each outcome. -/
theorem processClaim_writes {c : Claim} (hw : s.workers w = .processing c)
    (hp : processClaim s.store settings c result now = .ok store) :
    ∃ write, Writes settings s (.finish w result now) write (Function.update s.workers w .polling) ∧
      ∀ id, store.find? id = write.apply s.store.find? id := by
  cases result with
  | raised exc =>
    obtain ⟨o, ho, hfind⟩ := complete_writes hp
    cases ho
    exact ⟨_, .failed hw rfl, hfind⟩
  | interrupted exc => cases hp
  | returned response =>
    simp only [processClaim, recordOutcome] at hp
    split at hp
    · rename_i hok
      obtain ⟨o, ho, hfind⟩ := complete_writes hp
      cases hj : jsonDumps response.output with
      | error exc => simp [hj] at ho
      | ok j =>
        have ho : some j = o := by simpa [hj] using ho
        subst ho
        exact ⟨_, .succeeded hw (by simp [outcomeStatus, hok]), hfind⟩
    · rename_i hnot
      split at hp
      · rename_i hlast
        obtain ⟨o, ho, hfind⟩ := complete_writes hp
        cases ho
        exact ⟨_, .failed hw (by simp [outcomeStatus, hnot, hlast]), hfind⟩
      · rename_i hleft
        cases hp
        refine ⟨_, .requeued hw (by simp [outcomeStatus, hnot, hleft]), fun _ => ?_⟩
        rw [StateStore.requeue, StateStore.find?_update]
        rfl

theorem finish_writes (h : s.step settings (.finish w result now) = some s') :
    ∃ write workers, Writes settings s (.finish w result now) write workers ∧ s'.workers = workers ∧
      ∀ id, s'.store.find? id = write.apply s.store.find? id := by
  cases hw : s.workers w with
  | processing c =>
    cases hp : processClaim s.store settings c result now with
    | error exc =>
      simp only [System.step, hw, hp, Option.some.injEq] at h
      subst h
      have hno : ¬ Recordable settings c.attempt result := by
        intro hrecordable
        obtain ⟨_, hok⟩ : ∃ store, processClaim s.store settings c result now = .ok store :=
          processClaim_isOk.mpr hrecordable
        cases hp.symm.trans hok
      exact ⟨_, _, .lost hw hno, rfl, fun _ => rfl⟩
    | ok store =>
      simp only [System.step, hw, hp, Option.some.injEq] at h
      subst h
      obtain ⟨write, hwrite, hfind⟩ := processClaim_writes hw hp
      exact ⟨write, _, hwrite, rfl, hfind⟩
  | _ => simp [System.step, hw] at h

theorem System.step_writes (he : e.closesExpired = false) (h : s.step settings e = some s') :
    ∃ write workers, Writes settings s e write workers ∧ s'.workers = workers ∧
      ∀ id, s'.store.find? id = write.apply s.store.find? id := by
  cases e with
  | enqueue runId agentName tenantId input maxRetries now =>
    simp only [System.step] at h
    cases hq : s.store.enqueue runId agentName tenantId input maxRetries now with
    | error exc =>
      simp only [hq, Option.some.injEq] at h
      subst h
      exact ⟨_, _, .refused, rfl, fun _ => rfl⟩
    | ok store =>
      simp only [hq, Option.some.injEq] at h
      subst h
      obtain ⟨hnew, j, hj, hfind⟩ := StateStore.find?_enqueue hq
      exact ⟨_, _, .enqueued hnew hj, rfl, hfind⟩
  | cancel runId now =>
    cases h
    rcases s.store.cancel_cases runId now with hc | ⟨hst, store, hc, -⟩
    · exact ⟨_, _, .uncancelled, rfl, fun _ => by rw [hc]; rfl⟩
    · exact ⟨_, _, .cancelled hst, rfl, fun _ => StateStore.find?_cancel (by rw [hc])⟩
  | closeExpired now => cases he
  | poll w choice now => exact poll_writes h
  | finish w result now => exact finish_writes h

-- ---------------------------------------------------------------------------
-- Rows and claims after a step
-- ---------------------------------------------------------------------------

theorem StateStore.forall_runs_iff {P : Run → Prop} :
    (∀ r ∈ store.runs, P r) ↔ ∀ id r, store.find? id = some r → P r :=
  ⟨fun h _ r hr => h r (List.mem_of_find?_eq_some hr), fun h r hr => h r.runId r (StateStore.find?_of_mem hr)⟩

theorem StateStore.runId_of_find? {r : Run} (h : store.find? id = some r) : r.runId = id := by
  simpa using List.find?_some h

theorem nextPending_find? {row : Run} (h : s.store.nextPending choice = some row) :
    s.store.find? row.runId = some row ∧ row.status = .pending := by
  obtain ⟨hmem, hpending⟩ := StateStore.nextPending_mem h
  exact ⟨StateStore.find?_of_mem hmem, hpending⟩

theorem RowWrite.of_insert {rows : String → Option Run} {row r : Run}
    (h : (RowWrite.insert row).apply rows id = some r) : r = row ∨ rows id = some r := by
  simp only [RowWrite.apply] at h
  split at h
  · exact .inl (Option.some.inj h).symm
  · exact .inr h

theorem RowWrite.of_rewrite {rows : String → Option Run} {set : Run → Run} {r : Run}
    (h : (RowWrite.rewrite runId set).apply rows id = some r) :
    (∃ r₀, rows runId = some r₀ ∧ r = set r₀ ∧ id = runId) ∨ id ≠ runId ∧ rows id = some r := by
  simp only [RowWrite.apply] at h
  split at h
  · rename_i hid
    obtain ⟨r₀, hr₀, rfl⟩ := Option.map_eq_some_iff.mp h
    exact .inl ⟨r₀, hr₀, rfl, hid⟩
  · rename_i hid
    exact .inr ⟨hid, h⟩

theorem rewrite_of_ne {rows : String → Option Run} {set : Run → Run} (h : id ≠ runId) :
    (RowWrite.rewrite runId set).apply rows id = rows id := if_neg h

theorem processing_of_update {workers : Nat → Worker} {x : Worker}
    (h : Function.update workers w x w' = .processing c) :
    x = .processing c ∧ w' = w ∨ workers w' = .processing c := by
  by_cases hw : w' = w
  · subst hw
    rw [Function.update_self] at h
    exact .inl ⟨h, rfl⟩
  · rw [Function.update_of_ne hw] at h
    exact .inr h

end

end Intelliqx.Service
