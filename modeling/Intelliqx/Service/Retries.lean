import Intelliqx.Service.Rows

/-!
# The retry budget

The budget of a run is kept twice: `submit_run` leaves the `max_retries` of the
row at its default of one, and `_record_outcome` looks at that of the settings.
A claim is one invocation of the runtime, so a run that never succeeds is
invoked once, whatever the settings say.
-/

namespace Intelliqx.Service

open Machine Py

/-- The validated body of `POST /v1/runs`. -/
structure RunSubmission where
  agent : String
  tenantId : String := "t1"
  input : List (PyKey × PyValue) := []
  named : agent ≠ ""

/-- The `max_retries` of `enqueue` that `submit_run` does not pass. -/
def defaultMaxRetries : Int := 1

def submitRun (runId : String) (body : RunSubmission) (now : Time) : Event :=
  .enqueue runId body.agent body.tenantId (.dict body.input) defaultMaxRetries now

/-- The step claims the run; `_process_claim` then invokes the runtime for it. -/
def Invokes (s : System) (runId : String) : Event → Prop
  | .poll _ choice now => (s.store.claimNext choice now).1.map Claim.runId = some runId
  | _ => False

instance (s : System) (runId : String) (e : Event) : Decidable (Invokes s runId e) := by
  cases e <;> unfold Invokes <;> infer_instance

/-- How often the runtime is invoked for the run. -/
def invocations (settings : Settings) (runId : String) : System → List Event → Nat
  | _, [] => 0
  | s, e :: es =>
    match s.step settings e with
    | none => 0
    | some s' => (if Invokes s runId e then 1 else 0) + invocations settings runId s' es

/-- The run comes from `submit_run` only, is neither cancelled nor expired, and
every answer to it has a status other than `ok`. -/
def Failing (runId : String) (s : System) : Event → Prop
  | .enqueue id agentName tenantId inputPayload maxRetries now =>
    id = runId → ∃ body, .enqueue id agentName tenantId inputPayload maxRetries now = submitRun id body now
  | .cancel id _ => id ≠ runId
  | .closeExpired now => ∀ r, s.store.find? runId = some r → s.store.expired now r = false
  | .poll .. => True
  | .finish w result _ => ∀ c, s.workers w = .processing c → c.runId = runId →
      ∃ response, result = .returned response ∧ response.status ≠ "ok"

/-- Every failed run was given `settings.max_retries` invocations. -/
def BudgetSpent (settings : Settings) : Prop :=
  ∀ (store : StateStore) (runId : String) (es : List Event) (s : System), runId ∉ store.runIds →
    Always (System.step settings) (fun s e _ => Failing runId s e) (System.start store) es →
    run (System.step settings) (System.start store) es = some s →
    s.store.statusOf runId = some .failed →
    (invocations settings runId (System.start store) es : Int) = settings.maxRetries

-- ---------------------------------------------------------------------------
-- The first attempt is the last one
-- ---------------------------------------------------------------------------

/-- After `n` invocations: the row leaves one attempt, and who holds the run
is at its first. -/
structure OneAttempt (runId : String) (n : Nat) (s : System) : Prop where
  held : ∀ w c, s.workers w = .processing c → c.runId = runId → c.attempt = 1 ∧ n = 1
  row : ∀ r, s.store.find? runId = some r → r.maxRetries = 1 ∧
    (r.status = .pending ∧ r.attempts = 0 ∧ n = 0 ∨ (r.status = .running ∨ r.status = .failed) ∧ n = 1)
  absent : s.store.find? runId = none → n = 0

section
variable {settings : Settings} {s s' : System} {store store' : StateStore} {e : Event}

theorem not_invokes (h : ∀ w choice now, e ≠ .poll w choice now) : ¬ Invokes s runId e := by
  cases e with
  | poll w choice now => exact absurd rfl (h w choice now)
  | _ => exact id

theorem invokes_poll_iff : Invokes s runId (.poll w choice now) ↔
    ∃ row, s.store.nextPending choice = some row ∧ row.attempts + 1 ≤ row.maxRetries ∧ row.runId = runId := by
  obtain ⟨hrow, hc⟩ | ⟨row, hrow, ⟨hlast, hc⟩ | ⟨hleft, hc⟩⟩ := s.store.claimNext_cases choice now
  · simp [Invokes, hc, hrow]
  · simp only [Invokes, hc, hrow, Option.map_none, reduceCtorEq, false_iff]
    rintro ⟨_, ⟨⟩, hleft, -⟩
    omega
  · constructor
    · intro hi
      rw [Invokes, hc] at hi
      exact ⟨row, hrow, hleft, Option.some.inj hi⟩
    · rintro ⟨row', hrow', -, hid⟩
      cases hrow.symm.trans hrow'
      rw [Invokes, hc]
      exact congrArg some hid

/-- A claim that goes through invokes the executor for the claimed run, and for no other. -/
theorem invokes_of_claimed {row : Run} (hrow : s.store.nextPending choice = some row)
    (hleft : row.attempts + 1 ≤ row.maxRetries) : Invokes s runId (.poll w choice now) ↔ row.runId = runId := by
  rw [invokes_poll_iff]
  constructor
  · rintro ⟨row', hrow', -, hid⟩
    cases hrow.symm.trans hrow'
    exact hid
  · intro hid
    exact ⟨row, hrow, hleft, hid⟩

theorem not_invokes_of_idle (hnone : s.store.nextPending choice = none) :
    ¬ Invokes s runId (.poll w choice now) := by
  simp [invokes_poll_iff, hnone]

theorem not_invokes_of_exhausted {row : Run} (hrow : s.store.nextPending choice = some row)
    (hlast : ¬ row.attempts + 1 ≤ row.maxRetries) : ¬ Invokes s runId (.poll w choice now) := by
  rintro hi
  obtain ⟨row', hrow', hleft, -⟩ := invokes_poll_iff.mp hi
  cases hrow.symm.trans hrow'
  exact hlast hleft

/-- A step that leaves the run's row alone and gives nobody the run. -/
theorem OneAttempt.of_unchanged (h : OneAttempt runId n s)
    (hworkers : ∀ w c, s'.workers w = .processing c → c.runId = runId → s.workers w = .processing c)
    (hfind : s'.store.find? runId = s.store.find? runId) : OneAttempt runId n s' where
  held w c hw hc := h.held w c (hworkers w c hw hc) hc
  row r hr := h.row r (hfind ▸ hr)
  absent hr := h.absent (hfind ▸ hr)

theorem OneAttempt.insert {row : Run} (h : OneAttempt runId n s) (hworkers : s'.workers = s.workers)
    (hrows : ∀ id, s'.store.find? id = (RowWrite.insert row).apply s.store.find? id)
    (hnew : row.runId ∉ s.store.runIds) (hrow : row.status = .pending ∧ row.attempts = 0)
    (hbody : row.runId = runId → row.maxRetries = 1) : OneAttempt runId n s' := by
  by_cases hid : row.runId = runId
  · subst hid
    have hn : n = 0 := h.absent (Option.map_eq_none_iff.mp (StateStore.statusOf_eq_none.mpr hnew))
    refine ⟨fun w c hw hc => h.held w c (hworkers ▸ hw) hc, ?_, fun _ => hn⟩
    intro r hr
    rw [hrows, RowWrite.apply, if_pos rfl] at hr
    cases hr
    exact ⟨hbody rfl, .inl ⟨hrow.1, hrow.2, hn⟩⟩
  · refine h.of_unchanged (fun w c hw _ => hworkers ▸ hw) ?_
    rw [hrows, RowWrite.apply, if_neg (Ne.symm hid)]

/-- The run's own row, when a claim looks at it, has its one attempt left. -/
theorem OneAttempt.of_nextPending {row : Run} (h : OneAttempt runId n s)
    (hrow : s.store.nextPending choice = some row) (hid : row.runId = runId) :
    row.maxRetries = 1 ∧ row.attempts = 0 ∧ n = 0 := by
  subst hid
  obtain ⟨hfind, hpending⟩ := nextPending_find? hrow
  obtain ⟨hmax, ⟨-, hattempts, hn⟩ | ⟨hst | hst, -⟩⟩ := h.row row hfind
  · exact ⟨hmax, hattempts, hn⟩
  · simp [hpending] at hst
  · simp [hpending] at hst

theorem OneAttempt.claim {row : Run} (h : OneAttempt runId n s)
    (hrow : s.store.nextPending choice = some row)
    (hworkers : s'.workers = Function.update s.workers w (.processing (claimOf row)))
    (hrows : ∀ id, s'.store.find? id = (RowWrite.rewrite row.runId fun r => { r with
      status := .running, attempts := row.attempts + 1, updatedAt := now }).apply s.store.find? id) :
    OneAttempt runId (n + if row.runId = runId then 1 else 0) s' := by
  have hheld : ∀ w' c, s'.workers w' = .processing c → c = claimOf row ∨ s.workers w' = .processing c := by
    intro w' c hw
    rw [hworkers] at hw
    rcases processing_of_update hw with ⟨heq, -⟩ | hw
    · cases heq
      exact .inl rfl
    · exact .inr hw
  by_cases hid : row.runId = runId
  · obtain ⟨hmax, hattempts, hn⟩ := h.of_nextPending hrow hid
    have hfind := (nextPending_find? hrow).1
    subst hid
    rw [if_pos rfl, hn]
    refine ⟨?_, ?_, ?_⟩
    · intro w' c hw hc
      rcases hheld w' c hw with rfl | hw
      · exact ⟨by simp [claimOf, hattempts], rfl⟩
      · have := (h.held w' c hw hc).2
        omega
    · intro r hr
      rw [hrows, RowWrite.apply, if_pos rfl, hfind] at hr
      cases hr
      exact ⟨hmax, .inr ⟨.inl rfl, rfl⟩⟩
    · intro hr
      rw [hrows, RowWrite.apply, if_pos rfl, hfind] at hr
      cases hr
  · rw [if_neg hid]
    refine h.of_unchanged ?_ ((hrows runId).trans (rewrite_of_ne (Ne.symm hid)))
    intro w' c hw hc
    rcases hheld w' c hw with rfl | hw
    · exact absurd hc hid
    · exact hw

/-- The outcome of a claim of another run, or the failure of this one. -/
theorem OneAttempt.record {set : Run → Run} {c : Claim} (h : OneAttempt runId n s)
    (hw : s.workers w = .processing c)
    (hworkers : s'.workers = Function.update s.workers w .polling)
    (hrows : ∀ id, s'.store.find? id = (RowWrite.rewrite c.runId set).apply s.store.find? id)
    (hset : c.runId = runId → ∀ r, (set r).status = .failed ∧ (set r).maxRetries = r.maxRetries) :
    OneAttempt runId n s' := by
  have hheld : ∀ w' d, s'.workers w' = .processing d → s.workers w' = .processing d := by
    intro w' d hd
    rw [hworkers] at hd
    rcases processing_of_update hd with ⟨heq, -⟩ | hd
    · cases heq
    · exact hd
  by_cases hid : c.runId = runId
  · subst hid
    refine ⟨fun w' d hd hdid => h.held w' d (hheld w' d hd) hdid, ?_, ?_⟩
    · intro r hr
      rw [hrows, RowWrite.apply, if_pos rfl] at hr
      obtain ⟨r₀, hr₀, rfl⟩ := Option.map_eq_some_iff.mp hr
      obtain ⟨hfailed, hmax⟩ := hset rfl r₀
      exact ⟨hmax.trans (h.row r₀ hr₀).1, .inr ⟨.inr hfailed, (h.held w c hw rfl).2⟩⟩
    · intro hr
      rw [hrows, RowWrite.apply, if_pos rfl, Option.map_eq_none_iff] at hr
      exact h.absent hr
  · exact h.of_unchanged (fun w' d hd _ => hheld w' d hd) ((hrows runId).trans (rewrite_of_ne (Ne.symm hid)))

theorem OneAttempt.closeExpired (h : OneAttempt runId n s) (hf : Failing runId s (.closeExpired now)) :
    OneAttempt runId n { s with store := (s.store.closeExpired now).2 } := by
  refine h.of_unchanged (fun _ _ hw _ => hw) ?_
  rw [StateStore.find?_closeExpired]
  cases hr : s.store.find? runId with
  | none => rfl
  | some r => simp [hf r hr]

theorem OneAttempt.step (h : OneAttempt runId n s) (hsettings : settings.maxRetries = 1)
    (hf : Failing runId s e) (hs : s.step settings e = some s') :
    OneAttempt runId (n + if Invokes s runId e then 1 else 0) s' := by
  by_cases hclose : ∃ now, e = .closeExpired now
  · obtain ⟨now, rfl⟩ := hclose
    cases hs
    rw [if_neg (not_invokes (by simp))]
    exact h.closeExpired hf
  · have he : e.closesExpired = false := by
      cases e with
      | closeExpired now => exact absurd ⟨now, rfl⟩ hclose
      | _ => rfl
    obtain ⟨write, workers, hwrite, hworkers, hrows⟩ := System.step_writes he hs
    have hsame : workers = s.workers → ∀ w c, s'.workers w = .processing c → c.runId = runId →
        s.workers w = .processing c := by
      intro heq w c hw _
      rwa [hworkers, heq] at hw
    cases hwrite with
    | enqueued hnew _ =>
      rw [if_neg (not_invokes (by simp))]
      refine h.insert hworkers hrows hnew ⟨rfl, rfl⟩ ?_
      intro hid
      obtain ⟨body, hbody⟩ := hf hid
      simp only [submitRun, Event.enqueue.injEq] at hbody
      exact hbody.2.2.2.2.1
    | refused | uncancelled =>
      rw [if_neg (not_invokes (by simp))]
      exact h.of_unchanged (hsame rfl) (hrows runId)
    | cancelled _ =>
      rw [if_neg (not_invokes (by simp))]
      exact h.of_unchanged (hsame rfl) ((hrows runId).trans (rewrite_of_ne (Ne.symm hf)))
    | idle hnone =>
      rw [if_neg (not_invokes_of_idle hnone)]
      exact h.of_unchanged (hsame rfl) (hrows runId)
    | @exhausted choice row w now hrow hlast =>
      have hid : row.runId ≠ runId := by
        intro hid
        obtain ⟨hmax, hattempts, -⟩ := h.of_nextPending hrow hid
        omega
      rw [if_neg (not_invokes_of_exhausted hrow (by omega))]
      exact h.of_unchanged (hsame rfl) ((hrows runId).trans (rewrite_of_ne (Ne.symm hid)))
    | claimed hrow hleft =>
      simpa only [invokes_of_claimed hrow hleft] using h.claim hrow hworkers hrows
    | @succeeded w c result now outputJson durationMs hw hst =>
      rw [if_neg (not_invokes (by simp))]
      refine h.record hw hworkers hrows ?_
      intro hid
      obtain ⟨response, rfl, hnot⟩ := hf c hw hid
      simp only [outcomeStatus, if_neg hnot] at hst
      split at hst <;> cases hst
    | failed hw _ =>
      rw [if_neg (not_invokes (by simp))]
      exact h.record hw hworkers hrows fun _ _ => ⟨rfl, rfl⟩
    | @requeued w c result now hw hst =>
      rw [if_neg (not_invokes (by simp))]
      refine h.record hw hworkers hrows ?_
      intro hid
      obtain ⟨response, rfl, hnot⟩ := hf c hw hid
      simp [outcomeStatus, hnot, hsettings, (h.held w c hw hid).1] at hst
    | @lost w c result now hw _ =>
      rw [if_neg (not_invokes (by simp))]
      refine h.of_unchanged ?_ (hrows runId)
      intro w' d hd _
      rw [hworkers] at hd
      rcases processing_of_update hd with ⟨heq, -⟩ | hd
      · cases heq
      · exact hd

/-- After a run of the queue the count of the invocations is the one the row stands at. -/
theorem OneAttempt.run (h : OneAttempt runId n s) (hsettings : settings.maxRetries = 1)
    (hf : Always (System.step settings) (fun s e _ => Failing runId s e) s es)
    (hrun : Machine.run (System.step settings) s es = some s') :
    OneAttempt runId (n + invocations settings runId s es) s' := by
  induction es generalizing s n with
  | nil => cases hrun; exact h
  | cons e es ih =>
    obtain ⟨t, ht, hrest⟩ := Option.bind_eq_some_iff.mp hrun
    obtain ⟨hfail, hfails⟩ := hf t ht
    have hcount : invocations settings runId s (e :: es) =
        (if Invokes s runId e then 1 else 0) + invocations settings runId t es := by
      simp only [invocations, ht]
    rw [hcount, ← Nat.add_assoc]
    exact ih (h.step hsettings hfail ht) hfails hrest

theorem oneAttempt_start (h : runId ∉ store.runIds) : OneAttempt runId 0 (System.start store) where
  held _ _ hw := by simp [System.start] at hw
  row r hr := by
    have hnone := StateStore.statusOf_eq_none.mpr h
    simp only [StateStore.statusOf, Option.map_eq_none_iff] at hnone
    exact absurd (hnone.symm.trans hr) (by simp)
  absent _ := rfl

theorem OneAttempt.invoked_once (h : OneAttempt runId n s)
    (hst : s.store.statusOf runId = some .failed) : n = 1 := by
  obtain ⟨r, hr, hfailed⟩ := Option.map_eq_some_iff.mp hst
  obtain ⟨-, ⟨hpending, -, -⟩ | ⟨-, hn⟩⟩ := h.row r hr
  · simp [hfailed] at hpending
  · exact hn

end

-- ---------------------------------------------------------------------------
-- The budget of the settings
-- ---------------------------------------------------------------------------

/-- One submitted run, claimed, answered with an error, and polled for again. -/
def erroredOnce : List Event :=
  [submitRun "r1" ⟨"smoke", "t1", [], by decide⟩ 0, .poll 0 0 1,
    .finish 0 (.returned { output := .dict [], durationMs := 5, status := "error" }) 2, .poll 0 0 3]

theorem failing_erroredOnce (settings : Settings) :
    Always (System.step settings) (fun s e _ => Failing "r1" s e)
      (System.start ⟨[], 3600, List.nodup_nil⟩) erroredOnce := by
  intro _ _
  refine ⟨fun _ => ⟨⟨"smoke", "t1", [], by decide⟩, rfl⟩, ?_⟩
  intro _ _
  refine ⟨trivial, ?_⟩
  intro _ _
  refine ⟨fun _ _ _ => ⟨_, rfl, by decide⟩, ?_⟩
  intro _ _
  exact ⟨trivial, trivial⟩

/-- With a larger budget the run is requeued, and refused by the next claim. -/
theorem erroredOnce_failed (k : Nat) : ∃ s,
    run (System.step ⟨Int.ofNat (k + 2)⟩) (System.start ⟨[], 3600, List.nodup_nil⟩) erroredOnce = some s ∧
      s.store.statusOf "r1" = some .failed ∧
      invocations ⟨Int.ofNat (k + 2)⟩ "r1" (System.start ⟨[], 3600, List.nodup_nil⟩) erroredOnce = 1 :=
  ⟨_, rfl, rfl, rfl⟩

/-- A run that always fails is invoked as often as the settings say only where
they say once. -/
theorem budgetSpent_iff (settings : Settings) (hN : 1 ≤ settings.maxRetries) :
    BudgetSpent settings ↔ settings.maxRetries = 1 := by
  constructor
  · intro h
    by_contra hne
    obtain ⟨k, hk⟩ : ∃ k : Nat, settings = ⟨Int.ofNat (k + 2)⟩ := by
      obtain ⟨n, hn⟩ := Int.eq_ofNat_of_zero_le (a := settings.maxRetries - 2) (by omega)
      refine ⟨n, ?_⟩
      cases settings
      simp only [Settings.mk.injEq, Int.ofNat_eq_natCast] at hn ⊢
      omega
    subst hk
    obtain ⟨s, hrun, hst, hcount⟩ := erroredOnce_failed k
    have hspent := h _ "r1" erroredOnce s (by simp [StateStore.runIds]) (failing_erroredOnce _) hrun hst
    rw [hcount] at hspent
    simp only [Int.ofNat_eq_natCast] at hspent
    omega
  · intro hone store runId es s hnew hfailing hrun hst
    have hcount := ((oneAttempt_start hnew).run hone hfailing hrun).invoked_once hst
    rw [hone]
    omega

theorem budgetSpent_one : 1 ≤ (⟨1⟩ : Settings).maxRetries ∧ BudgetSpent ⟨1⟩ :=
  ⟨by decide, (budgetSpent_iff ⟨1⟩ (by decide)).mpr rfl⟩

/-- Two retries are asked for, and the run fails after one invocation. -/
theorem budget_not_spent : ¬ BudgetSpent ⟨2⟩ := by
  intro h
  obtain ⟨s, hrun, hst, hcount⟩ := erroredOnce_failed 0
  have hspent := h _ "r1" erroredOnce s (by simp [StateStore.runIds]) (failing_erroredOnce _) hrun hst
  have htwo : (1 : Int) = 2 := (congrArg Int.ofNat hcount).symm.trans hspent
  cases htwo

end Intelliqx.Service
