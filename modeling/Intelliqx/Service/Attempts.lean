import Intelliqx.Service.Payloads
import Intelliqx.Service.Retries

/-!
# The attempts column

`claim_next` counts its claim in the `attempts` of the row, and a requeue
counts it once more. The column is the number of claims of the run for as long
as no outcome is requeued (`attempts_counted_iff`).
-/

namespace Intelliqx.Service

open Machine Py

/-- The outcome is recorded by `requeue`: not `ok`, and the budget of the
settings is not spent. -/
def Requeues (settings : Settings) (s : System) : Event → Prop
  | .finish w (.returned response) _ => ∃ c, s.workers w = .processing c ∧
      response.status ≠ "ok" ∧ c.attempt < settings.maxRetries
  | _ => False

/-- In every state of the run each row stands at the claims of its run so far;
`claims` are those before the run. -/
def AttemptsCounted (settings : Settings) (claims : String → Nat) (s : System) (es : List Event) : Prop :=
  ∀ before after t, es = before ++ after → run (System.step settings) s before = some t →
    ∀ r ∈ t.store.runs, r.attempts = claims r.runId + invocations settings r.runId s before

/-- The claims after one more step. -/
def claimsAfter (s : System) (e : Event) (claims : String → Nat) : String → Nat :=
  fun id => claims id + if Invokes s id e then 1 else 0

/-- Rows, hands and the number of claims agree. -/
structure Tally (claims : String → Nat) (s : System) : Prop where
  present : Present s
  rows : ∀ id r, s.store.find? id = some r → r.attempts = claims id
  held : ∀ w c, s.workers w = .processing c → c.attempt = claims c.runId
  new : ∀ id, s.store.find? id = none → claims id = 0

section
variable {settings : Settings} {s s' : System} {e : Event} {claims : String → Nat} {id : String}

theorem outcomeStatus_pending_iff :
    outcomeStatus settings attempt result = .pending ↔
      ∃ response, result = .returned response ∧ response.status ≠ "ok" ∧ attempt < settings.maxRetries := by
  cases result with
  | raised _ | interrupted _ => simp [outcomeStatus]
  | returned response =>
    by_cases hok : response.status = "ok"
    · simp [outcomeStatus, hok]
    · by_cases hlast : settings.maxRetries ≤ attempt
      · simp [outcomeStatus, hok, hlast]
      · simp [outcomeStatus, hok, hlast, Int.not_le.mp hlast]

theorem claimsAfter_of_not (h : ¬ Invokes s id e) : claimsAfter s e claims id = claims id := by
  simp [claimsAfter, h]

-- ---------------------------------------------------------------------------
-- One step
-- ---------------------------------------------------------------------------

theorem rewrite_eq_none {rows : String → Option Run} {set : Run → Run}
    (h : (RowWrite.rewrite runId set).apply rows id = none) : rows id = none := by
  simp only [RowWrite.apply] at h
  split at h
  · rename_i hid; exact hid ▸ Option.map_eq_none_iff.mp h
  · exact h

/-- A step that claims nothing and leaves all counts alone. -/
theorem Tally.of_quiet (h : Tally claims s) (hpresent : Present s') (hquiet : ∀ id, ¬ Invokes s id e)
    (hworkers : ∀ w c, s'.workers w = .processing c → s.workers w = .processing c)
    (hrows : ∀ id r, s'.store.find? id = some r → ∃ r₀, s.store.find? id = some r₀ ∧ r.attempts = r₀.attempts)
    (hnone : ∀ id, s'.store.find? id = none → s.store.find? id = none) : Tally (claimsAfter s e claims) s' where
  present := hpresent
  rows id r hr := by
    obtain ⟨r₀, hr₀, hattempts⟩ := hrows id r hr
    rw [claimsAfter_of_not (hquiet id), hattempts, h.rows id r₀ hr₀]
  held w c hw := by rw [claimsAfter_of_not (hquiet c.runId), h.held w c (hworkers w c hw)]
  new id hid := by rw [claimsAfter_of_not (hquiet id), h.new id (hnone id hid)]

theorem Tally.of_nothing (h : Tally claims s) (hpresent : Present s') (hquiet : ∀ id, ¬ Invokes s id e)
    (hworkers : ∀ w c, s'.workers w = .processing c → s.workers w = .processing c)
    (hrows : ∀ id, s'.store.find? id = RowWrite.nothing.apply s.store.find? id) :
    Tally (claimsAfter s e claims) s' :=
  h.of_quiet hpresent hquiet hworkers (fun id r hr => ⟨r, (hrows id).symm.trans hr, rfl⟩)
    fun id hid => (hrows id).symm.trans hid

/-- The rewritten row keeps its count. -/
theorem Tally.of_rewrite {set : Run → Run} (h : Tally claims s) (hpresent : Present s')
    (hquiet : ∀ id, ¬ Invokes s id e)
    (hworkers : ∀ w c, s'.workers w = .processing c → s.workers w = .processing c)
    (hrows : ∀ id, s'.store.find? id = (RowWrite.rewrite runId set).apply s.store.find? id)
    (hset : ∀ r, (set r).attempts = r.attempts) : Tally (claimsAfter s e claims) s' := by
  refine h.of_quiet hpresent hquiet hworkers ?_ ?_
  · intro id r hr
    rw [hrows id] at hr
    rcases RowWrite.of_rewrite hr with ⟨r₀, hr₀, rfl, rfl⟩ | ⟨-, hr⟩
    · exact ⟨r₀, hr₀, hset r₀⟩
    · exact ⟨r, hr, rfl⟩
  · intro id hid
    exact rewrite_eq_none ((hrows id).symm.trans hid)

theorem Tally.claim {row : Run} (h : Tally claims s) (hpresent : Present s')
    (hrow : s.store.nextPending choice = some row) (hleft : row.attempts + 1 ≤ row.maxRetries)
    (hworkers : s'.workers = Function.update s.workers w (.processing (claimOf row)))
    (hrows : ∀ id, s'.store.find? id = (RowWrite.rewrite row.runId fun r => { r with
      status := .running, attempts := row.attempts + 1, updatedAt := now }).apply s.store.find? id) :
    Tally (claimsAfter s (.poll w choice now) claims) s' := by
  obtain ⟨hfind, hpending⟩ := nextPending_find? hrow
  have hinvokes : ∀ id, Invokes s id (.poll w choice now) ↔ row.runId = id :=
    fun _ => invokes_of_claimed hrow hleft
  have hclaimed : claimsAfter s (.poll w choice now) claims row.runId = row.attempts + 1 := by
    simp [claimsAfter, hinvokes, h.rows _ row hfind]
  have hother : ∀ id, id ≠ row.runId → claimsAfter s (.poll w choice now) claims id = claims id := by
    intro id hid
    exact claimsAfter_of_not fun hi => hid ((hinvokes id).mp hi).symm
  refine ⟨hpresent, ?_, ?_, ?_⟩
  · intro id r hr
    rw [hrows id] at hr
    rcases RowWrite.of_rewrite hr with ⟨r₀, -, rfl, rfl⟩ | ⟨hid, hr⟩
    · exact hclaimed.symm
    · rw [hother id hid, h.rows id r hr]
  · intro w' c hc
    rw [hworkers] at hc
    rcases processing_of_update hc with ⟨heq, -⟩ | hc
    · cases heq
      exact hclaimed.symm
    · -- the claimed run was pending, so nobody held it
      have hne : c.runId ≠ row.runId := by
        intro heq
        rcases h.present.busy hc (heq ▸ hfind) with hst | hst <;> simp [hpending] at hst
      rw [hother _ hne, h.held w' c hc]
  · intro id hid
    rw [hrows id] at hid
    have hnone := rewrite_eq_none hid
    have hne : id ≠ row.runId := by
      rintro rfl
      simp [hfind] at hnone
    rw [hother id hne, h.new id hnone]

theorem Tally.insert {row : Run} (h : Tally claims s) (hpresent : Present s') (hquiet : ∀ id, ¬ Invokes s id e)
    (hworkers : ∀ w c, s'.workers w = .processing c → s.workers w = .processing c)
    (hrows : ∀ id, s'.store.find? id = (RowWrite.insert row).apply s.store.find? id)
    (hnew : row.runId ∉ s.store.runIds) (hrow : row.attempts = 0) : Tally (claimsAfter s e claims) s' where
  present := hpresent
  rows id r hr := by
    rw [claimsAfter_of_not (hquiet id)]
    rw [hrows id, RowWrite.apply] at hr
    split at hr
    · rename_i hid
      cases hr
      have hnone : s.store.find? id = none := by
        rw [hid]
        exact Option.map_eq_none_iff.mp (StateStore.statusOf_eq_none.mpr hnew)
      rw [hrow, h.new id hnone]
      rfl
    · exact h.rows id r hr
  held w c hw := by rw [claimsAfter_of_not (hquiet c.runId), h.held w c (hworkers w c hw)]
  new id hid := by
    rw [claimsAfter_of_not (hquiet id)]
    rw [hrows id, RowWrite.apply] at hid
    split at hid
    · cases hid
    · exact h.new id hid

theorem Tally.step (h : Tally claims s) (he : e.closesExpired = false) (hs : s.step settings e = some s')
    (hre : ¬ Requeues settings s e) : Tally (claimsAfter s e claims) s' := by
  have hpresent := h.present.step he hs
  obtain ⟨write, workers, hwrite, hworkers, hrows⟩ := System.step_writes he hs
  have hsame : workers = s.workers → ∀ w c, s'.workers w = .processing c → s.workers w = .processing c := by
    intro heq w c hw
    rwa [hworkers, heq] at hw
  have hput : ∀ x w', workers = Function.update s.workers w' x → (∀ c, x ≠ .processing c) →
      ∀ w c, s'.workers w = .processing c → s.workers w = .processing c := by
    intro x w' heq hx w c hw
    rw [hworkers, heq] at hw
    rcases processing_of_update hw with ⟨hc, -⟩ | hw
    · exact absurd hc (hx c)
    · exact hw
  have hquiet : (∀ w choice now, e ≠ .poll w choice now) → ∀ id, ¬ Invokes s id e := fun h _ => not_invokes h
  cases hwrite with
  | enqueued hnew _ => exact h.insert hpresent (hquiet (by simp)) (hsame rfl) hrows hnew rfl
  | refused | uncancelled => exact h.of_nothing hpresent (hquiet (by simp)) (hsame rfl) hrows
  | cancelled _ => exact h.of_rewrite hpresent (hquiet (by simp)) (hsame rfl) hrows fun _ => rfl
  | idle hnone => exact h.of_nothing hpresent (fun _ => not_invokes_of_idle hnone) (hsame rfl) hrows
  | exhausted hrow hlast =>
    refine h.of_rewrite hpresent ?_ (hsame rfl) hrows fun _ => rfl
    exact fun _ => not_invokes_of_exhausted hrow (by omega)
  | claimed hrow hleft => exact h.claim hpresent hrow hleft hworkers hrows
  | succeeded _ _ | failed _ _ =>
    exact h.of_rewrite hpresent (hquiet (by simp)) (hput _ _ rfl (by simp)) hrows fun _ => rfl
  | requeued hw hst =>
    obtain ⟨response, rfl, hnot, hleft⟩ := outcomeStatus_pending_iff.mp hst
    exact absurd ⟨_, hw, hnot, hleft⟩ hre
  | lost _ _ => exact h.of_nothing hpresent (hquiet (by simp)) (hput _ _ rfl (by simp)) hrows

/-- A requeue counts the claim again. -/
theorem not_counted_of_requeues (h : Tally claims s) (hs : s.step settings e = some s')
    (hre : Requeues settings s e) :
    ¬ ∀ r ∈ s'.store.runs, r.attempts = claimsAfter s e claims r.runId := by
  intro hcounted
  cases e with
  | finish w result now =>
    cases result with
    | raised _ | interrupted _ => exact hre
    | returned response =>
      obtain ⟨c, hw, hnot, hleft⟩ := hre
      have hholds : s.lifecycle.Holds w c.runId := .inl (by simp [System.lifecycle, hw, Worker.duty])
      obtain ⟨r, hr⟩ : ∃ r, s.store.find? c.runId = some r := by
        have hpresent := h.present.present w c.runId hholds
        rw [← Option.isSome_iff_exists, ← Option.isSome_map (f := Run.status)]
        exact Option.isSome_iff_ne_none.mpr hpresent
      have hrow : s'.store.find? c.runId = some { r with
          status := .pending, attempts := c.attempt + 1, updatedAt := now } := by
        simp only [System.step, hw, processClaim, recordOutcome, if_neg hnot, if_neg (Int.not_le.mpr hleft),
          Option.some.injEq] at hs
        subst hs
        simp [StateStore.requeue, StateStore.find?_update, hr]
      have hattempts := StateStore.forall_runs_iff.mp hcounted _ _ hrow
      have hid := StateStore.runId_of_find? hr
      rw [claimsAfter_of_not (not_invokes (by simp))] at hattempts
      simp only [hid, h.held w c hw] at hattempts
      omega
  | _ => exact hre

-- ---------------------------------------------------------------------------
-- Runs
-- ---------------------------------------------------------------------------

theorem attemptsCounted_cons : AttemptsCounted settings claims s (e :: es) ↔
    (∀ r ∈ s.store.runs, r.attempts = claims r.runId) ∧
      ∀ s', s.step settings e = some s' → AttemptsCounted settings (claimsAfter s e claims) s' es := by
  constructor
  · intro h
    refine ⟨fun r hr => by simpa [invocations] using h [] (e :: es) s rfl rfl r hr, ?_⟩
    intro s' hs before after t hes hrun r hr
    have hcount := h (e :: before) after t (by simp [hes]) (by simp [hs, hrun]) r hr
    simp only [invocations, hs] at hcount
    rw [hcount, claimsAfter]
    push_cast
    rw [Int.add_assoc]
  · rintro ⟨hrows, h⟩ before after t hes hrun r hr
    cases before with
    | nil =>
      cases hrun
      simpa [invocations] using hrows r hr
    | cons b before =>
      obtain ⟨rfl, rfl⟩ : e = b ∧ es = before ++ after := by simpa using hes
      obtain ⟨s', hs, hrun⟩ := Option.bind_eq_some_iff.mp hrun
      have hcount := h s' hs before after t rfl hrun r hr
      simp only [invocations, hs]
      rw [hcount, claimsAfter]
      push_cast
      rw [Int.add_assoc]

theorem Tally.counted_iff (h : Tally claims s) (hes : ∀ e ∈ es, e.closesExpired = false) :
    AttemptsCounted settings claims s es ↔
      Always (System.step settings) (fun s e _ => ¬ Requeues settings s e) s es := by
  have hrows : ∀ r ∈ s.store.runs, r.attempts = claims r.runId :=
    StateStore.forall_runs_iff.mpr fun id r hr => StateStore.runId_of_find? hr ▸ h.rows id r hr
  induction es generalizing s claims with
  | nil =>
    refine iff_of_true ?_ trivial
    intro before after t hes hrun r hr
    obtain ⟨rfl, -⟩ := List.nil_eq_append_iff.mp hes
    cases hrun
    simpa [invocations] using hrows r hr
  | cons e es ih =>
    rw [attemptsCounted_cons, and_iff_right hrows]
    apply forall₂_congr
    intro s' hs
    have hrest : ∀ e ∈ es, e.closesExpired = false := fun e he => hes e (List.mem_cons_of_mem _ he)
    by_cases hre : Requeues settings s e
    · refine iff_of_false ?_ fun hno => hno.1 hre
      intro hcounted
      refine not_counted_of_requeues h hs hre ?_
      intro r hr
      simpa [invocations] using hcounted [] es s' rfl rfl r hr
    · have h' := h.step (hes e List.mem_cons_self) hs hre
      rw [and_iff_right hre]
      exact ih h' hrest (StateStore.forall_runs_iff.mpr fun id r hr =>
        StateStore.runId_of_find? hr ▸ h'.rows id r hr)

end

/-- In any interleaving of enqueues, cancels and workers the attempts of every
run are its claims, exactly when no outcome is requeued. The table may hold runs
that an earlier process has claimed. -/
theorem attempts_counted_iff (settings : Settings) (store : StateStore) (claims : String → Nat) (es : List Event)
    (hes : ∀ e ∈ es, e.closesExpired = false) (hrows : ∀ r ∈ store.runs, r.attempts = claims r.runId)
    (hnew : ∀ id, id ∉ store.runIds → claims id = 0) :
    AttemptsCounted settings claims (System.start store) es ↔
      Always (System.step settings) (fun s e _ => ¬ Requeues settings s e) (System.start store) es := by
  have hinit : Tally claims (System.start store) := by
    refine ⟨present_start, ?_, fun w c hw => by simp [System.start] at hw, ?_⟩
    · intro id r hr
      exact StateStore.runId_of_find? hr ▸ StateStore.forall_runs_iff.mp hrows id r hr
    · intro id hid
      exact hnew id (StateStore.statusOf_eq_none.mp (Option.map_eq_none_iff.mpr hid))
  exact hinit.counted_iff hes

theorem attempts_counted_answered :
    AttemptsCounted ⟨1⟩ (fun _ => 0) (System.start ⟨[], 3600, List.nodup_nil⟩) answeredInTime := by
  apply (attempts_counted_iff ⟨1⟩ ⟨[], 3600, List.nodup_nil⟩ (fun _ => 0) answeredInTime (by decide) (by simp)
    fun _ _ => rfl).mpr
  rintro _ ⟨⟩
  refine ⟨id, ?_⟩
  rintro _ ⟨⟩
  refine ⟨id, ?_⟩
  rintro _ ⟨⟩
  refine ⟨?_, trivial⟩
  rintro ⟨c, -, hnot, -⟩
  exact hnot rfl

/-- One claim, and a count of two. -/
theorem requeue_counted_twice :
    ¬ AttemptsCounted ⟨2⟩ (fun _ => 0) (System.start ⟨[], 3600, List.nodup_nil⟩) requeuedOnce := by
  intro h
  have hcount := h (requeuedOnce.take 3) (requeuedOnce.drop 3) _ rfl rfl _ List.mem_cons_self
  exact absurd hcount (by decide)

end Intelliqx.Service
