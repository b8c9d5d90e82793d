import Mathlib.Algebra.Ring.Int.Defs
import Intelliqx.Base.FirstBy
import Intelliqx.Py.Json

/-!
# The run state store

The `runs` table and the operations of `StateStore`. Every operation holds the
store's lock and runs in one `BEGIN IMMEDIATE` transaction, so each is one
atomic step here; an operation that raises has rolled back and leaves no new
store. Times are integer ticks of the clock that `time.time()` reads.
-/

namespace Intelliqx.Service

open Py

abbrev Time := Int

inductive RunStatus
  | pending
  | running
  | succeeded
  | failed
  | cancelled
  deriving DecidableEq, Repr

/-- The statuses `cancel` refuses to leave. -/
def RunStatus.Terminal : RunStatus → Prop
  | .pending | .running => False
  | .succeeded | .failed | .cancelled => True

instance (st : RunStatus) : Decidable st.Terminal := by
  cases st <;> unfold RunStatus.Terminal <;> infer_instance

structure Run where
  runId : String
  agentName : String
  tenantId : String
  status : RunStatus
  inputJson : Json
  outputJson : Option Json := none
  error : Option String := none
  attempts : Int := 0
  maxRetries : Int := 1
  createdAt : Time
  updatedAt : Time
  durationMs : Int := 0

/-- The table, in rowid order, with `run_id` as its primary key. -/
structure StateStore where
  runs : List Run
  runTtlSeconds : Int := 3600
  primaryKey : (runs.map Run.runId).Nodup

structure Claim where
  runId : String
  agentName : String
  input : PyValue
  tenantId : String
  attempt : Int

namespace StateStore

def runIds (s : StateStore) : List String := s.runs.map Run.runId

def find? (s : StateStore) (runId : String) : Option Run := s.runs.find? (·.runId = runId)

def statusOf (s : StateStore) (runId : String) : Option RunStatus := (s.find? runId).map Run.status

/-- `UPDATE runs SET ... WHERE run_id = ?`; the key itself is never written. -/
def update (s : StateStore) (runId : String) (set : Run → Run)
    (hset : ∀ r, (set r).runId = r.runId) : StateStore :=
  { s with
    runs := s.runs.map fun r => if r.runId = runId then set r else r
    primaryKey := by
      have h : (s.runs.map fun r => if r.runId = runId then set r else r).map Run.runId
          = s.runs.map Run.runId := by
        rw [List.map_map]
        refine List.map_congr_left fun r _ => ?_
        by_cases hr : r.runId = runId <;> simp [hr, hset]
      exact h ▸ s.primaryKey }

def enqueue (s : StateStore) (runId agentName tenantId : String) (inputPayload : PyValue)
    (maxRetries : Int) (now : Time) : Except PyException StateStore := do
  let inputJson ← jsonDumps inputPayload
  if h : runId ∈ s.runs.map Run.runId then
    .error ⟨"IntegrityError", "UNIQUE constraint failed: runs.run_id"⟩
  else
    .ok { s with
      runs := s.runs ++ [{
        runId, agentName, tenantId, status := .pending, inputJson, attempts := 0, maxRetries
        createdAt := now, updatedAt := now }]
      primaryKey := by
        simpa [List.nodup_append, s.primaryKey] using h }

/-- The rows `ORDER BY created_at ASC` may put first: SQL leaves the order of
equal creation times open. -/
def oldestPending (s : StateStore) : List Run :=
  let pending := s.runs.filter fun r => r.status = .pending
  pending.filter fun r => pending.all fun r' => r.createdAt ≤ r'.createdAt

/-- The row the `LIMIT 1` keeps; `choice` picks among equally old ones. -/
def nextPending (s : StateStore) (choice : Nat) : Option Run :=
  s.oldestPending[choice % s.oldestPending.length]?

/-- The row is updated by its rowid in the source; its key names the same row. -/
def claimNext (s : StateStore) (choice : Nat) (now : Time) : Option Claim × StateStore :=
  match s.nextPending choice with
  | none => (none, s)
  | some row =>
    let attempts := row.attempts + 1
    if attempts > row.maxRetries then
      (none, s.update row.runId (fun r => { r with status := .failed, updatedAt := now })
        fun _ => rfl)
    else
      (some ⟨row.runId, row.agentName, jsonLoads row.inputJson, row.tenantId, attempts⟩,
        s.update row.runId (fun r => { r with status := .running, attempts, updatedAt := now })
          fun _ => rfl)

/-- An integer as a statement parameter: `sqlite3` refuses what does not fit 64 bits. -/
def bindInteger (n : Int) : Except PyException Int :=
  if -2 ^ 63 ≤ n ∧ n < 2 ^ 63 then .ok n
  else .error ⟨"OverflowError", "Python int too large to convert to SQLite INTEGER"⟩

def complete (s : StateStore) (runId : String) (status : RunStatus) (output : Option PyValue)
    (error : Option String) (durationMs : Int) (now : Time) : Except PyException StateStore := do
  let outputJson ← output.mapM jsonDumps
  let durationMs ← bindInteger durationMs
  .ok (s.update runId
    (fun r => { r with status, outputJson, error, durationMs, updatedAt := now }) fun _ => rfl)

def requeue (s : StateStore) (runId : String) (nextAttempt : Int) (now : Time) : StateStore :=
  s.update runId (fun r => { r with status := .pending, attempts := nextAttempt, updatedAt := now })
    fun _ => rfl

def cancel (s : StateStore) (runId : String) (now : Time) : Bool × StateStore :=
  match s.statusOf runId with
  | some .pending | some .running =>
    (true, s.update runId (fun r => { r with status := .cancelled, updatedAt := now }) fun _ => rfl)
  | _ => (false, s)

def expired (s : StateStore) (now : Time) (r : Run) : Bool :=
  r.status = .running ∧ r.updatedAt < now - s.runTtlSeconds

def closeExpired (s : StateStore) (now : Time) : Nat × StateStore :=
  (s.runs.countP (s.expired now),
    { s with
      runs := s.runs.filter fun r => !s.expired now r
      primaryKey := (List.filter_sublist.map _).nodup s.primaryKey })

-- ---------------------------------------------------------------------------
-- What the operations do to the status of a run
-- ---------------------------------------------------------------------------

variable {s : StateStore} {id id' : String}

theorem statusOf_isSome : (s.statusOf id).isSome ↔ id ∈ s.runIds := by
  simp [statusOf, find?, runIds]

theorem statusOf_eq_none : s.statusOf id = none ↔ id ∉ s.runIds := by
  rw [← statusOf_isSome, Option.not_isSome_iff_eq_none]

theorem find?_of_mem {r : Run} (h : r ∈ s.runs) : s.find? r.runId = some r :=
  (find?_key_iff s.primaryKey).mpr ⟨h, rfl⟩

theorem statusOf_of_mem {r : Run} (h : r ∈ s.runs) : s.statusOf r.runId = some r.status := by
  simp [statusOf, find?_of_mem h]

theorem find?_update {set : Run → Run} {hset : ∀ r, (set r).runId = r.runId} :
    (s.update id set hset).find? id' = if id' = id then (s.find? id).map set else s.find? id' := by
  have hkey : ((fun r => decide (r.runId = id')) ∘ fun r => if r.runId = id then set r else r)
      = fun r : Run => decide (r.runId = id') := by
    funext r
    by_cases hr : r.runId = id <;> simp [hr, hset]
  simp only [find?, update, List.find?_map, hkey]
  cases hf : s.runs.find? (fun r => decide (r.runId = id')) with
  | none =>
    by_cases h : id' = id
    · subst h; simp [hf]
    · simp [h]
  | some r =>
    have hr : r.runId = id' := by simpa using List.find?_some hf
    by_cases h : id' = id
    · subst h; simp [hf, hr]
    · simp [hr, h]

theorem statusOf_update {set : Run → Run} {hset : ∀ r, (set r).runId = r.runId}
    (hst : ∀ r, (set r).status = st) :
    (s.update id set hset).statusOf id' =
      if id' = id then (s.statusOf id).map fun _ => st else s.statusOf id' := by
  by_cases h : id' = id
  · simp [statusOf, find?_update, h, Option.map_map, Function.comp_def, hst]
  · simp [statusOf, find?_update, h]

theorem nextPending_mem {row : Run} (h : s.nextPending choice = some row) :
    row ∈ s.runs ∧ row.status = .pending := by
  have hmem : row ∈ s.oldestPending := List.mem_of_getElem? h
  simp only [oldestPending, List.mem_filter, decide_eq_true_eq] at hmem
  exact hmem.1

theorem nextPending_status {row : Run} (h : s.nextPending choice = some row) :
    s.statusOf row.runId = some .pending := by
  obtain ⟨hmem, hst⟩ := nextPending_mem h
  rw [statusOf_of_mem hmem, hst]

theorem find?_enqueue (h : s.enqueue id agent tenant input retries now = .ok s') :
    id ∉ s.runIds ∧ ∃ inputJson, jsonDumps input = .ok inputJson ∧
      ∀ id', s'.find? id' = if id' = id then some {
        runId := id, agentName := agent, tenantId := tenant, status := .pending, inputJson
        maxRetries := retries, createdAt := now, updatedAt := now } else s.find? id' := by
  cases hj : jsonDumps input with
  | error e => simp [enqueue, hj] at h
  | ok j =>
    simp only [enqueue, hj, bind_ok_eq] at h
    split at h
    · cases h
    · rename_i hnew
      cases h
      refine ⟨hnew, j, rfl, ?_⟩
      intro id'
      have hnone : s.runs.find? (·.runId = id) = none := by
        simpa [find?, statusOf] using statusOf_eq_none.mpr hnew
      by_cases hid : id' = id
      · subst hid; simp [find?, List.find?_append, hnone]
      · simp [find?, List.find?_append, Ne.symm hid, hid]

theorem enqueue_ok (h : s.enqueue id agent tenant input retries now = .ok s') :
    id ∉ s.runIds ∧ ∀ id', s'.statusOf id' = if id' = id then some .pending else s.statusOf id' := by
  obtain ⟨hnew, j, -, hfind⟩ := find?_enqueue h
  refine ⟨hnew, ?_⟩
  intro id'
  rw [statusOf, hfind]
  split <;> rfl

/-- Either nothing is pending, or the chosen row is out of attempts or is claimed. -/
theorem claimNext_cases (s : StateStore) (choice : Nat) (now : Time) :
    (s.nextPending choice = none ∧ s.claimNext choice now = (none, s)) ∨
      ∃ row, s.nextPending choice = some row ∧
        (row.attempts + 1 > row.maxRetries ∧ s.claimNext choice now = (none, s.update row.runId
            (fun r => { r with status := .failed, updatedAt := now }) fun _ => rfl) ∨
          row.attempts + 1 ≤ row.maxRetries ∧ s.claimNext choice now =
            (some ⟨row.runId, row.agentName, jsonLoads row.inputJson, row.tenantId, row.attempts + 1⟩,
              s.update row.runId (fun r => { r with
                status := .running, attempts := row.attempts + 1, updatedAt := now }) fun _ => rfl)) := by
  unfold claimNext
  cases hrow : s.nextPending choice with
  | none => exact .inl ⟨rfl, rfl⟩
  | some row =>
    refine .inr ⟨row, rfl, ?_⟩
    by_cases hlast : row.attempts + 1 > row.maxRetries
    · exact .inl ⟨hlast, by simp [hlast]⟩
    · exact .inr ⟨Int.not_lt.mp hlast, by simp [hlast]⟩

theorem bindInteger_isOk : (∃ m, bindInteger n = .ok m) ↔ -2 ^ 63 ≤ n ∧ n < 2 ^ 63 := by
  unfold bindInteger
  split
  · rename_i hn; exact ⟨fun _ => hn, fun _ => ⟨n, rfl⟩⟩
  · rename_i hn; exact ⟨fun ⟨_, h⟩ => (nomatch h), fun h => absurd h hn⟩

theorem complete_isOk : (∃ s', s.complete id st output error ms now = .ok s') ↔
    (∃ o, output.mapM jsonDumps = .ok o) ∧ -2 ^ 63 ≤ ms ∧ ms < 2 ^ 63 := by
  rw [← bindInteger_isOk]
  cases ho : output.mapM jsonDumps with
  | error e => simp [complete, ho]
  | ok o => cases hm : bindInteger ms <;> simp [complete, ho, hm]

theorem bindInteger_ok (h : bindInteger n = .ok m) : m = n := by
  unfold bindInteger at h
  split at h
  · cases h; rfl
  · cases h

theorem find?_complete (h : s.complete id st output error ms now = .ok s') :
    ∃ outputJson, output.mapM jsonDumps = .ok outputJson ∧
      ∀ id', s'.find? id' = if id' = id then (s.find? id).map fun r =>
        { r with status := st, outputJson, error, durationMs := ms, updatedAt := now } else s.find? id' := by
  cases ho : output.mapM jsonDumps with
  | error e => simp [complete, ho] at h
  | ok o =>
    cases hm : bindInteger ms with
    | error e => simp [complete, ho, hm] at h
    | ok m =>
      simp only [complete, ho, hm, bind_ok_eq, Except.ok.injEq] at h
      subst h
      obtain rfl := bindInteger_ok hm
      exact ⟨o, rfl, fun _ => find?_update⟩

theorem complete_ok (h : s.complete id st output error ms now = .ok s') :
    s'.statusOf id' = if id' = id then (s.statusOf id).map fun _ => st else s.statusOf id' := by
  obtain ⟨o, -, hfind⟩ := find?_complete h
  rw [statusOf, hfind]
  split
  · simp [statusOf, Option.map_map, Function.comp_def]
  · rfl

theorem statusOf_requeue :
    (s.requeue id n now).statusOf id' =
      if id' = id then (s.statusOf id).map fun _ => .pending else s.statusOf id' :=
  statusOf_update fun _ => rfl

theorem cancel_cases (s : StateStore) (id : String) (now : Time) :
    s.cancel id now = (false, s) ∨
      (s.statusOf id = some .pending ∨ s.statusOf id = some .running) ∧
        ∃ s', s.cancel id now = (true, s') ∧ s'.statusOf = fun id' =>
          if id' = id then (s.statusOf id).map fun _ => .cancelled else s.statusOf id' := by
  have hst : ∀ r : Run, { r with status := RunStatus.cancelled, updatedAt := now }.status = .cancelled :=
    fun _ => rfl
  unfold cancel
  split
  · rename_i h; exact .inr ⟨.inl h, _, rfl, funext fun _ => statusOf_update hst⟩
  · rename_i h; exact .inr ⟨.inr h, _, rfl, funext fun _ => statusOf_update hst⟩
  · exact .inl rfl

theorem find?_cancel (h : (s.cancel id now).1 = true) :
    (s.cancel id now).2.find? id' = if id' = id then (s.find? id).map fun r =>
      { r with status := .cancelled, updatedAt := now } else s.find? id' := by
  unfold cancel at h ⊢
  split at h
  · rw [find?_update]
  · rw [find?_update]
  · cases h

theorem find?_closeExpired :
    (s.closeExpired now).2.find? id =
      (s.find? id).bind fun r => if s.expired now r then none else some r := by
  cases hf : s.find? id with
  | none =>
    rw [Option.bind_none, find?, List.find?_eq_none]
    intro r hr
    exact List.find?_eq_none.mp hf r (List.mem_of_mem_filter hr)
  | some r =>
    have hmem : r ∈ s.runs := List.mem_of_find?_eq_some hf
    have hid : r.runId = id := by simpa using List.find?_some hf
    subst hid
    by_cases he : s.expired now r = true
    · rw [Option.bind_some, if_pos he, find?, List.find?_eq_none]
      intro r' hr' hid
      obtain ⟨hm, hlive⟩ := List.mem_filter.mp hr'
      have heq : r' = r := List.inj_on_of_nodup_map s.primaryKey hm hmem (of_decide_eq_true hid)
      simp [heq, he] at hlive
    · rw [Option.bind_some, if_neg he]
      have hlive : r ∈ (s.closeExpired now).2.runs := List.mem_filter.mpr ⟨hmem, by simp [he]⟩
      exact find?_of_mem hlive

theorem statusOf_closeExpired :
    (s.closeExpired now).2.statusOf id =
      (s.find? id).bind fun r => if s.expired now r then none else some r.status := by
  rw [statusOf, find?_closeExpired]
  cases s.find? id with
  | none => rfl
  | some r => by_cases he : s.expired now r = true <;> simp [he]

end StateStore

end Intelliqx.Service
