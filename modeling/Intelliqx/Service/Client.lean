import Intelliqx.Service.Api
import Intelliqx.Service.Rows

/-!
# What a client sees

Every step of the service is a step of the queue or leaves it alone, so a row
keeps what was submitted for as long as the service runs. A run that was
accepted is reported from then on as it was submitted, and an unknown one never
(`submitted_run_reported`). The output that is reported for it is one that an
invocation of its agent on its input returned (`reported_output_invoked`).
-/

namespace Intelliqx.Service.Api

open Machine Py

/-- The row as it was inserted. -/
def asInserted (r : Run) : Run :=
  { r with
    status := .pending, outputJson := none, error := none, attempts := 0
    updatedAt := r.createdAt, durationMs := 0 }

/-- The request was a submission, and it was accepted. -/
def Exchange.Submits (x : Exchange) : Prop :=
  x.request.route = .submitRun ∧ x.answer = .ok (acceptance x.moment.uuid)

/-- The record is that of the submission. -/
structure RunRecord.Reports (record : RunRecord) (moment : Moment) (run : RunSubmission) : Prop where
  runId : record.runId = moment.uuid
  agentName : record.agentName = run.agent
  tenantId : record.tenantId = run.tenantId
  inputPayload : record.inputPayload = .dict run.input
  maxRetries : record.maxRetries = 1
  createdAt : record.createdAt = moment.now

section
variable {p : Reading} {settings : Settings} {s s' : App} {e : Event} {request : Request} {moment : Moment}
  {es : List Event} {store : StateStore} {id : String} {r : Run}

-- ---------------------------------------------------------------------------
-- What a request does
-- ---------------------------------------------------------------------------

/-- A request, by what it does to the store. -/
inductive Serves (p : Reading) (s : App) (request : Request) (moment : Moment) : Answer → StateStore → Prop
  | submitted {run : RunSubmission} {store : StateStore} (hroute : request.route = .submitRun)
    (hrun : submission p request.body = .ok run)
    (henqueue : s.system.store.enqueue moment.uuid run.agent run.tenantId (.dict run.input) 1 moment.now =
      .ok store) :
    Serves p s request moment (.ok (acceptance moment.uuid)) store
  | cancelled {runId : String} {response : Response} {store : StateStore}
    (hroute : request.route = .cancelRun runId)
    (hcancel : s.system.store.cancel runId moment.now = (true, store)) :
    Serves p s request moment (.ok response) store
  | nothing {answer : Answer} (hanswer : request.route = .submitRun → ∃ f, answer = .error f) :
    Serves p s request moment answer s.system.store

theorem serves (p : Reading) (settings : Settings) (s : App) (request : Request) (moment : Moment) :
    ∃ answer store, Serves p s request moment answer store ∧
      (endpoint p settings s.system.store request moment).map Prod.fst = answer ∧
      s.serve p settings request moment =
        { system := { s.system with store }, exchanges := s.exchanges ++ [⟨request, moment, answer⟩] } := by
  cases hresult : endpoint p settings s.system.store request moment with
  | error f =>
    refine ⟨.error f, s.system.store, .nothing fun _ => ⟨f, rfl⟩, rfl, ?_⟩
    simp only [App.serve, hresult]
    rfl
  | ok result =>
    obtain ⟨response, store⟩ := result
    refine ⟨.ok response, store, ?_, rfl, by simp only [App.serve, hresult]; rfl⟩
    have hread (hroute : request.route ≠ .submitRun) : Serves p s request moment (.ok response) s.system.store :=
      .nothing fun h => absurd h hroute
    unfold endpoint at hresult
    cases hroute : request.route with
    | healthz | readyz | metrics =>
      rw [hroute] at hresult
      cases hresult
      exact hread (by simp [hroute])
    | submitRun =>
      rw [hroute] at hresult
      obtain ⟨-, -, hresult⟩ := bind_eq_ok.mp hresult
      obtain ⟨run, hrun, hresult⟩ := bind_eq_ok.mp hresult
      obtain ⟨-, -, hresult⟩ := bind_eq_ok.mp hresult
      obtain ⟨-, -, hresult⟩ := bind_eq_ok.mp hresult
      split at hresult
      · cases hresult
      · rename_i store' henqueue
        cases hresult
        exact .submitted hroute hrun henqueue
    | getRun runId =>
      rw [hroute] at hresult
      obtain ⟨-, -, hresult⟩ := bind_eq_ok.mp hresult
      cases hget : getRun p s.system.store runId with
      | error f =>
        rw [hget] at hresult
        cases hresult
      | ok response' =>
        rw [hget] at hresult
        cases hresult
        exact hread (by simp [hroute])
    | cancelRun runId =>
      rw [hroute] at hresult
      obtain ⟨-, -, hresult⟩ := bind_eq_ok.mp hresult
      unfold cancelRun at hresult
      split at hresult
      · cases hresult
      · rename_i store' hcancel
        cases hresult
        exact .cancelled hroute hcancel

/-- A row stays, and keeps what was inserted. -/
theorem queue_keeps_row {t t' : System} {q : Service.Event} (hq : q.closesExpired = false)
    (h : t.step settings.toSettings q = some t') (hr : t.store.find? id = some r) :
    ∃ r', t'.store.find? id = some r' ∧ asInserted r' = asInserted r := by
  obtain ⟨write, workers, hwrite, -, hrows⟩ := System.step_writes hq h
  have hrewrite {runId : String} {set : Run → Run}
      (hrows : ∀ id, t'.store.find? id = (RowWrite.rewrite runId set).apply t.store.find? id)
      (hset : ∀ r, asInserted (set r) = asInserted r) :
      ∃ r', t'.store.find? id = some r' ∧ asInserted r' = asInserted r := by
    rw [hrows, RowWrite.apply]
    split
    · rename_i hid
      subst hid
      exact ⟨set r, by rw [hr]; rfl, hset r⟩
    · exact ⟨r, hr, rfl⟩
  cases hwrite with
  | enqueued hnew _ =>
    have hknown : id ∈ t.store.runIds := StateStore.statusOf_isSome.mp (by simp [StateStore.statusOf, hr])
    refine ⟨r, ?_, rfl⟩
    rw [hrows, RowWrite.apply, if_neg, hr]
    rintro rfl
    exact hnew hknown
  | refused | uncancelled | idle _ | lost _ _ => exact ⟨r, (hrows id).trans hr, rfl⟩
  | cancelled _ | exhausted _ _ | claimed _ _ | succeeded _ _ | failed _ _ | requeued _ _ =>
    exact hrewrite hrows fun _ => rfl

-- ---------------------------------------------------------------------------
-- What is submitted
-- ---------------------------------------------------------------------------

/-- The row of a submission. -/
def rowOf (moment : Moment) (run : RunSubmission) (inputJson : Json) : Run where
  runId := moment.uuid
  agentName := run.agent
  tenantId := run.tenantId
  status := .pending
  inputJson := inputJson
  maxRetries := 1
  createdAt := moment.now
  updatedAt := moment.now

theorem reports_of_asInserted {run : RunSubmission} {inputJson : Json}
    (hinput : jsonLoads inputJson = .dict run.input) (h : asInserted r = rowOf moment run inputJson) :
    (rowToRecord r).Reports moment run where
  runId := congrArg Run.runId h
  agentName := congrArg Run.agentName h
  tenantId := congrArg Run.tenantId h
  inputPayload := (congrArg (fun r : Run => jsonLoads r.inputJson) h).trans hinput
  maxRetries := congrArg Run.maxRetries h
  createdAt := congrArg Run.createdAt h

theorem lookup_mem {es : List (PyKey × PyValue)} {k : PyKey} {v : PyValue} (h : es.lookup k = some v) :
    (k, v) ∈ es := by
  obtain ⟨l, r, rfl, -⟩ := List.lookup_eq_some_iff.mp h
  exact List.mem_append_right l List.mem_cons_self

theorem representable_readJsonObject {body : Body} {parsed : List (PyKey × PyValue)}
    (h : readJsonObject p body = .ok parsed) : ∀ e ∈ parsed, e.2.Representable := by
  unfold readJsonObject at h
  split at h
  · cases h
    exact List.forall_mem_nil _
  · split at h
    · split at h <;> cases h
    · rename_i j hj
      split at h
      · rename_i parsed' hparsed
        cases h
        have hread : (PyValue.dict parsed).Representable := hparsed ▸ representable_jsonLoads j
        exact fun e he => (entriesRepresentable_iff.mp hread.1 e he).2
      · cases h

/-- The input comes from a JSON text, so it has a spelling in JSON. -/
theorem representable_submission {body : Body} {run : RunSubmission} (h : submission p body = .ok run) :
    (PyValue.dict run.input).Representable := by
  obtain ⟨parsed, hparsed, h⟩ := bind_eq_ok.mp h
  have hentries := representable_readJsonObject hparsed
  cases hvalid : modelValidate parsed with
  | none =>
    rw [hvalid] at h
    cases h
  | some run' =>
    rw [hvalid] at h
    cases h
    unfold modelValidate at hvalid
    split at hvalid
    · split at hvalid
      · rename_i agent tenantId input hagent htenant hinput
        split at hvalid
        · cases hvalid
          cases hlookup : parsed.lookup (.str "input") with
          | none =>
            rw [hlookup] at hinput
            cases hinput
            exact ⟨trivial, List.nodup_nil⟩
          | some v =>
            rw [hlookup] at hinput
            obtain rfl : v = .dict input := hinput
            exact hentries _ (lookup_mem hlookup)
        · cases hvalid
      · cases hvalid
    · cases hvalid

/-- What an accepted submission leaves in the table. -/
theorem find?_of_enqueue {run : RunSubmission} {store' : StateStore} (hrun : submission p request.body = .ok run)
    (h : store.enqueue moment.uuid run.agent run.tenantId (.dict run.input) 1 moment.now = .ok store') :
    moment.uuid ∉ store.runIds ∧ ∃ inputJson, jsonLoads inputJson = .dict run.input ∧
      ∀ id, store'.find? id = if id = moment.uuid then some (rowOf moment run inputJson) else store.find? id := by
  obtain ⟨hnew, inputJson, hdumps, hfind⟩ := StateStore.find?_enqueue h
  obtain ⟨j, hdumps', hloads⟩ := jsonLoads_jsonDumps _ (representable_submission hrun)
  obtain rfl : inputJson = j := Except.ok.inj (hdumps.symm.trans hdumps')
  exact ⟨hnew, inputJson, hloads, hfind⟩

-- ---------------------------------------------------------------------------
-- What is reported
-- ---------------------------------------------------------------------------

/-- What the run is reported as, after the exchanges before. The record of a known run is answered
if it renders. -/
structure AnswersGet (p : Reading) (store : StateStore) (runId : String) (before : List Exchange)
    (answer : Answer) : Prop where
  submitted : ∀ x ∈ before, x.Submits → x.moment.uuid = runId → ∃ run, ∃ record : RunRecord,
    submission p x.request.body = .ok run ∧ record.Reports x.moment run ∧
      answer = jsonResponse p (record.asDict p)
  unknown : runId ∉ store.runIds → (∀ x ∈ before, x.Submits → x.moment.uuid ≠ runId) →
    answer = .error (.httpException 404 "run not found")

/-- Every request for a run is answered as it should be. -/
def Answered (p : Reading) (settings : Settings) (store : StateStore) (exchanges : List Exchange) : Prop :=
  ∀ before y after, exchanges = before ++ y :: after → admitted p settings y.request = true →
    ∀ runId, y.request.route = .getRun runId → AnswersGet p store runId before y.answer

/-- The rows are those of the table at the start and of the submissions accepted since. -/
structure Kept (p : Reading) (store : StateStore) (s : App) : Prop where
  initial : ∀ id ∈ store.runIds, s.system.store.find? id ≠ none
  known : ∀ id, s.system.store.find? id ≠ none →
    id ∈ store.runIds ∨ ∃ x ∈ s.exchanges, x.Submits ∧ x.moment.uuid = id
  kept : ∀ x ∈ s.exchanges, x.Submits → ∃ run inputJson r, submission p x.request.body = .ok run ∧
    jsonLoads inputJson = .dict run.input ∧ s.system.store.find? x.moment.uuid = some r ∧
    asInserted r = rowOf x.moment run inputJson
  fresh : ∀ x ∈ s.exchanges, x.Submits → x.moment.uuid ∉ store.runIds
  distinct : s.exchanges.Pairwise fun x y => x.Submits → y.Submits → x.moment.uuid ≠ y.moment.uuid

/-- No row is lost or new, and no submission accepted. -/
theorem Kept.quiet {new : List Exchange} (h : Kept p store s) (hexchanges : s'.exchanges = s.exchanges ++ new)
    (hnew : ∀ x ∈ new, ¬ x.Submits)
    (hkeep : ∀ id r, s.system.store.find? id = some r →
      ∃ r', s'.system.store.find? id = some r' ∧ asInserted r' = asInserted r)
    (hold : ∀ id, s'.system.store.find? id ≠ none → s.system.store.find? id ≠ none) : Kept p store s' where
  initial id hid := by
    obtain ⟨r, hr⟩ := Option.ne_none_iff_exists'.mp (h.initial id hid)
    obtain ⟨r', hr', -⟩ := hkeep id r hr
    rw [hr']
    exact Option.some_ne_none _
  known id hid := by
    rw [hexchanges]
    refine (h.known id (hold id hid)).imp_right ?_
    rintro ⟨x, hx, hsubmits⟩
    exact ⟨x, List.mem_append_left new hx, hsubmits⟩
  kept x hx hsubmits := by
    rw [hexchanges] at hx
    have hx := (List.mem_append.mp hx).resolve_right fun hx => hnew x hx hsubmits
    obtain ⟨run, inputJson, r, hrun, hinput, hr, hrow⟩ := h.kept x hx hsubmits
    obtain ⟨r', hr', hsame⟩ := hkeep _ r hr
    exact ⟨run, inputJson, r', hrun, hinput, hr', hsame.trans hrow⟩
  fresh x hx hsubmits := by
    rw [hexchanges] at hx
    exact h.fresh x ((List.mem_append.mp hx).resolve_right fun hx => hnew x hx hsubmits) hsubmits
  distinct := by
    rw [hexchanges]
    refine List.pairwise_append.mpr ⟨h.distinct, ?_, fun x _ y hy _ hsubmits => absurd hsubmits (hnew y hy)⟩
    exact List.pairwise_iff_forall_sublist.mpr fun hsub hsubmits =>
      absurd hsubmits (hnew _ (hsub.subset List.mem_cons_self))

theorem Kept.submitted {run : RunSubmission} {store' : StateStore} (h : Kept p store s)
    (hroute : request.route = .submitRun) (hrun : submission p request.body = .ok run)
    (henqueue : s.system.store.enqueue moment.uuid run.agent run.tenantId (.dict run.input) 1 moment.now =
      .ok store') :
    Kept p store { system := { s.system with store := store' },
                   exchanges := s.exchanges ++ [⟨request, moment, .ok (acceptance moment.uuid)⟩] } := by
  obtain ⟨hnew, inputJson, hinput, hfind⟩ := find?_of_enqueue hrun henqueue
  have hnone : s.system.store.find? moment.uuid = none := by
    simpa [StateStore.statusOf] using StateStore.statusOf_eq_none.mpr hnew
  have hkeep : ∀ id r, s.system.store.find? id = some r → store'.find? id = some r := by
    intro id r hr
    rw [hfind, if_neg, hr]
    rintro rfl
    cases hnone.symm.trans hr
  -- what was accepted before has another id
  have hother : ∀ x ∈ s.exchanges, x.Submits → x.moment.uuid ≠ moment.uuid := by
    intro x hx hsubmits heq
    obtain ⟨_, _, r, -, -, hr, -⟩ := h.kept x hx hsubmits
    rw [heq, hnone] at hr
    cases hr
  refine ⟨fun id hid => ?_, fun id hid => ?_, fun x hx hsubmits => ?_, fun x hx hsubmits => ?_, ?_⟩
  · obtain ⟨r, hr⟩ := Option.ne_none_iff_exists'.mp (h.initial id hid)
    rw [hkeep id r hr]
    exact Option.some_ne_none _
  · by_cases heq : id = moment.uuid
    · exact .inr ⟨_, List.mem_append_right _ (List.mem_singleton.mpr rfl), ⟨hroute, rfl⟩, heq.symm⟩
    · rw [hfind, if_neg heq] at hid
      refine (h.known id hid).imp_right ?_
      rintro ⟨x, hx, hsubmits⟩
      exact ⟨x, List.mem_append_left _ hx, hsubmits⟩
  · rcases List.mem_append.mp hx with hx | hx
    · obtain ⟨run', inputJson', r, hrun', hinput', hr, hrow⟩ := h.kept x hx hsubmits
      exact ⟨run', inputJson', r, hrun', hinput', hkeep _ r hr, hrow⟩
    · cases List.mem_singleton.mp hx
      exact ⟨run, inputJson, _, hrun, hinput, (hfind _).trans (if_pos rfl), rfl⟩
  · rcases List.mem_append.mp hx with hx | hx
    · exact h.fresh x hx hsubmits
    · cases List.mem_singleton.mp hx
      exact fun hid => h.initial _ hid hnone
  · refine List.pairwise_append.mpr ⟨h.distinct, List.pairwise_singleton _ _, ?_⟩
    intro x hx y hy hsubmits _
    cases List.mem_singleton.mp hy
    exact hother x hx hsubmits

/-- Only a submission makes a run known. -/
theorem queue_known {t t' : System} {q : Service.Event} (hq : q.enqueued? = none)
    (h : t.step settings.toSettings q = some t') (hid : t'.store.find? id ≠ none) : t.store.find? id ≠ none := by
  have hstatus : ∀ u : System, u.lifecycle.status id ≠ none ↔ u.store.find? id ≠ none := by
    intro u
    simp [System.lifecycle, StateStore.statusOf]
  rw [← hstatus] at hid ⊢
  refine (System.step_refines h).known_or_submitted hid |>.resolve_right fun hsubmit => ?_
  cases hq.symm.trans (change_submit hsubmit)

theorem Kept.step (h : Kept p store s) (hs : s.step p settings e = some s') : Kept p store s' := by
  cases e with
  | request request moment =>
    obtain ⟨answer, store', hserves, -, hserve⟩ := serves p settings s request moment
    cases hs
    rw [hserve]
    cases hserves with
    | submitted hroute hrun henqueue => exact h.submitted hroute hrun henqueue
    | @cancelled runId _ _ hroute hcancel =>
      have hstep : s.system.step settings.toSettings (.cancel runId moment.now) =
          some { s.system with store := store' } := by
        simp only [System.step, hcancel]
      refine h.quiet rfl (fun x hx hsubmits => ?_) (fun id r hr => queue_keeps_row rfl hstep hr)
        fun id hid => queue_known rfl hstep hid
      cases List.mem_singleton.mp hx
      cases hroute.symm.trans hsubmits.1
    | nothing hanswer =>
      refine h.quiet rfl (fun x hx hsubmits => ?_) (fun id r hr => ⟨r, hr, rfl⟩) fun id hid => hid
      cases List.mem_singleton.mp hx
      obtain ⟨f, hf⟩ := hanswer hsubmits.1
      cases hf.symm.trans hsubmits.2
  | poll w choice now =>
    obtain ⟨-, system, hstep, rfl⟩ := poll_eq_some.mp hs
    exact h.quiet (List.append_nil _).symm (List.forall_mem_nil _) (fun id r hr => queue_keeps_row rfl hstep hr)
      fun id hid => queue_known rfl hstep hid
  | finish w result now =>
    obtain ⟨system, hstep, rfl⟩ := Option.map_eq_some_iff.mp hs
    exact h.quiet (List.append_nil _).symm (List.forall_mem_nil _) (fun id r hr => queue_keeps_row rfl hstep hr)
      fun id hid => queue_known rfl hstep hid

theorem eq_of_jsonResponse {content : PyValue} {response : Response} (h : jsonResponse p content = .ok response) :
    response = .json 200 content := by
  unfold jsonResponse at h
  split at h
  · cases h
    rfl
  · cases h

theorem endpoint_getRun {runId : String} (hadmitted : admitted p settings request = true)
    (hroute : request.route = .getRun runId) :
    (endpoint p settings store request moment).map Prod.fst = getRun p store runId := by
  have hprotected : request.route.Protected := by
    rw [hroute]
    trivial
  have htoken := (of_decide_eq_true hadmitted).resolve_left (not_not.mpr hprotected)
  have hrequire : requireToken p settings request.authorization = .ok () := if_pos htoken
  simp only [endpoint, hroute, hrequire, bind_ok_eq]
  cases getRun p store runId <;> rfl

/-- A request for a run is answered from its row. -/
theorem Kept.answersGet (h : Kept p store s) (hadmitted : admitted p settings request = true) {runId : String}
    (hroute : request.route = .getRun runId) : AnswersGet p store runId s.exchanges
      ((endpoint p settings s.system.store request moment).map Prod.fst) := by
  rw [endpoint_getRun hadmitted hroute, getRun]
  constructor
  · rintro x hx hsubmits rfl
    obtain ⟨run, inputJson, r, hrun, hinput, hr, hrow⟩ := h.kept x hx hsubmits
    refine ⟨run, rowToRecord r, hrun, reports_of_asInserted hinput hrow, ?_⟩
    rw [hr]
  · intro hinitial hnot
    have hnone : s.system.store.find? runId = none := by
      by_contra hsome
      rcases h.known runId hsome with hid | ⟨x, hx, hsubmits, hid⟩
      · exact hinitial hid
      · exact hnot x hx hsubmits hid
    rw [hnone]

/-- What holds of every place in a list and of one more item at its end holds of every place. -/
theorem forall_split_concat {α : Type} {P : List α → α → Prop} {l : List α} {a : α}
    (h : ∀ before y after, l = before ++ y :: after → P before y) (ha : P l a) :
    ∀ before y after, l ++ [a] = before ++ y :: after → P before y := by
  intro before y after heq
  rcases List.eq_nil_or_concat' after with rfl | ⟨after, b, rfl⟩
  · obtain ⟨rfl, hlast⟩ := List.append_inj' heq rfl
    cases hlast
    exact ha
  · rw [← List.cons_append, ← List.append_assoc] at heq
    obtain ⟨hl, -⟩ := List.append_inj' heq rfl
    exact h before y after hl

theorem Answered.step (h : Answered p settings store s.exchanges) (hkept : Kept p store s)
    (hs : s.step p settings e = some s') : Answered p settings store s'.exchanges := by
  cases e with
  | request request moment =>
    obtain ⟨answer, store', -, hanswer, hserve⟩ := serves p settings s request moment
    cases hs
    rw [hserve]
    refine forall_split_concat h fun hadmitted runId hroute => ?_
    rw [← hanswer]
    exact hkept.answersGet hadmitted hroute
  | poll w choice now =>
    obtain ⟨-, system, hstep, rfl⟩ := poll_eq_some.mp hs
    exact h
  | finish w result now =>
    obtain ⟨system, hstep, rfl⟩ := Option.map_eq_some_iff.mp hs
    exact h

theorem kept_start : Kept p store (.start store) where
  initial id hid := by
    have hsome := StateStore.statusOf_isSome.mpr hid
    intro hnone
    have hstatus : store.statusOf id = none := congrArg (Option.map Run.status) hnone
    rw [hstatus] at hsome
    cases hsome
  known id hid := by
    left
    by_contra hnot
    have hnone : store.find? id = none := by simpa [StateStore.statusOf] using StateStore.statusOf_eq_none.mpr hnot
    exact hid hnone
  kept := List.forall_mem_nil _
  fresh := List.forall_mem_nil _
  distinct := .nil

/-- In every interleaving of requests and workers: no run id is given out twice, or for a run that was there
before. From its acceptance on a run is reported as it was submitted, whatever else has happened, and a run
that was neither there nor accepted is not found. -/
theorem submitted_run_reported (hrun : run (App.step p settings) (.start store) es = some s) :
    (s.exchanges.Pairwise fun x y => x.Submits → y.Submits → x.moment.uuid ≠ y.moment.uuid) ∧
      (∀ x ∈ s.exchanges, x.Submits → x.moment.uuid ∉ store.runIds) ∧
      Answered p settings store s.exchanges := by
  have hinit : Answered p settings store (App.start store).exchanges := by
    intro before y after heq
    exact absurd heq.symm (by simp [App.start])
  have h : Kept p store s ∧ Answered p settings store s.exchanges :=
    run_countdown (I := fun _ s => Kept p store s ∧ Answered p settings store s.exchanges)
      (fun _ _ _ _ h hs => ⟨h.1.step hs, h.2.step h.1 hs⟩) ⟨kept_start, hinit⟩ hrun
  exact ⟨h.1.distinct, h.1.fresh, h.2⟩

end

/-- Readings of the texts that follow. -/
def smokeReading : Reading where
  lower s := .ofList (s.toList.map Char.toLower)
  repr s := "'" ++ s ++ "'"
  int := String.toInt?
  encode s := .ok s.toUTF8.toList
  loads _ := .ok (.obj [("agent", .str "smoke"), ("input", .obj [("text", .str "hi")])])
  compact _ := "JSON"
  isoformat := toString

def smokeToken : String := "0123456789abcdef0123456789abcdef"

theorem strong_smokeToken : minTokenLength ≤ smokeToken.length := by decide +kernel

theorem stripped_smokeToken : strip smokeToken = smokeToken := by decide +kernel

def smokeSettings : Settings where
  maxRetries := 1
  token := smokeToken
  statePath := ":memory:"
  workerCount := 1
  runTtlSeconds := 3600
  strong := strong_smokeToken
  stripped := stripped_smokeToken

def smokeRequest (route : Route) (body : Body) : Request where
  route := route
  authorization := some ("Bearer  " ++ smokeToken)
  body := body

/-- A run is submitted, claimed, asked for and answered, and asked for again. -/
def smokeEvents : List Event :=
  [.request (smokeRequest .submitRun [123, 125]) { now := 1, uuid := "r1" }, .poll 0 0 2,
   .request (smokeRequest (.getRun "r1") []) { now := 3, uuid := "" },
   .finish 0 (.returned { output := .dict [(.str "result", .str "hi")], durationMs := 5 }) 4,
   .request (smokeRequest (.getRun "r1") []) { now := 5, uuid := "" }]

theorem admitted_smokeRequest (route : Route) (body : Body) :
    admitted smokeReading smokeSettings (smokeRequest route body) = true := by
  have htoken : bearerTokenFromHeader smokeReading (some ("Bearer  " ++ smokeToken)) = some smokeToken := by
    decide +kernel
  exact decide_eq_true (.inr htoken)

theorem submitted_run_reported_smoke : ∃ s,
    run (App.step smokeReading smokeSettings) (.start ⟨[], 3600, List.nodup_nil⟩) smokeEvents = some s ∧
      ∃ x ∈ s.exchanges, x.request.route = .getRun "r1" ∧ ∃ record : RunRecord,
        x.answer = .ok (.json 200 (record.asDict smokeReading)) ∧ record.agentName = "smoke" := by
  have hrun : run (App.step smokeReading smokeSettings) (.start ⟨[], 3600, List.nodup_nil⟩) smokeEvents =
    some _ := rfl
  obtain ⟨-, -, hanswered⟩ := submitted_run_reported hrun
  have hsubmits : Exchange.Submits ⟨smokeRequest .submitRun [123, 125], { now := 1, uuid := "r1" },
    .ok (acceptance "r1")⟩ := ⟨rfl, rfl⟩
  obtain ⟨run, record, hsubmission, hreports, hanswer⟩ := (hanswered [_, _] _ [] rfl
    (admitted_smokeRequest _ _) "r1" rfl).submitted _ List.mem_cons_self hsubmits rfl
  obtain ⟨response, hok⟩ : ∃ response, jsonResponse smokeReading (record.asDict smokeReading) = .ok response :=
    ⟨_, hanswer.symm⟩
  refine ⟨_, hrun, _, List.mem_cons_of_mem _ (List.mem_cons_of_mem _ List.mem_cons_self), rfl, record,
    hanswer.trans (hok.trans (congrArg _ (eq_of_jsonResponse hok))), ?_⟩
  cases hsubmission
  exact hreports.agentName

section
variable {p : Reading} {settings : Settings} {s s' : App} {e : Event} {request : Request} {moment : Moment}
  {es : List Event} {store : StateStore} {id : String} {r : Run}

-- ---------------------------------------------------------------------------
-- What is invoked
-- ---------------------------------------------------------------------------

/-- The claim is of the row, with its agent and its input. -/
structure MadeOf (c : Claim) (row : Run) : Prop where
  runId : c.runId = row.runId
  agentName : c.agentName = row.agentName
  tenantId : c.tenantId = row.tenantId
  input : c.input = jsonLoads row.inputJson

/-- A worker that held the row was answered this. -/
def Invoked (p : Reading) (settings : Settings) (store : StateStore) (es : List Event) (row : Run)
    (response : InvocationResponse) : Prop :=
  ∃ before w now after s c, es = before ++ .finish w (.returned response) now :: after ∧
    run (App.step p settings) (.start store) before = some s ∧ s.system.workers w = .processing c ∧ MadeOf c row

/-- The output of the row is what an invocation returned. -/
def Produced (p : Reading) (settings : Settings) (store : StateStore) (es : List Event) (row : Run) : Prop :=
  ∃ response j, row.outputJson = some j ∧ jsonDumps response.output = .ok j ∧ response.status = "ok" ∧
    Invoked p settings store es row response

structure Traced (p : Reading) (settings : Settings) (store : StateStore) (es : List Event) (s : App) : Prop where
  claims : ∀ w c, s.system.workers w = .processing c →
    ∃ row, s.system.store.find? c.runId = some row ∧ MadeOf c row
  outputs : ∀ id row, id ∉ store.runIds → s.system.store.find? id = some row → row.status = .succeeded →
    Produced p settings store es row

theorem MadeOf.congr {c : Claim} {row row' : Run} (h : MadeOf c row) (hsame : asInserted row' = asInserted row) :
    MadeOf c row' where
  runId := h.runId.trans (congrArg Run.runId hsame).symm
  agentName := h.agentName.trans (congrArg Run.agentName hsame).symm
  tenantId := h.tenantId.trans (congrArg Run.tenantId hsame).symm
  input := h.input.trans (congrArg (fun r : Run => jsonLoads r.inputJson) hsame).symm

theorem Invoked.of_append {row : Run} {response : InvocationResponse}
    (h : Invoked p settings store es row response) (fs : List Event) :
    Invoked p settings store (es ++ fs) row response := by
  obtain ⟨before, w, now, after, s, c, rfl, h⟩ := h
  exact ⟨before, w, now, after ++ fs, s, c, by simp, h⟩

theorem Produced.of_append {row : Run} (h : Produced p settings store es row) (fs : List Event) :
    Produced p settings store (es ++ fs) row := by
  obtain ⟨response, j, hj, hdumps, hok, hinvoked⟩ := h
  exact ⟨response, j, hj, hdumps, hok, hinvoked.of_append fs⟩

/-- The row is succeeded by the outcome. -/
def Succeeds (t : System) (c : Claim) (result : Invocation) (r' : Run) : Prop :=
  ∃ response j r, result = .returned response ∧ response.status = "ok" ∧ jsonDumps response.output = .ok j ∧
    r'.outputJson = some j ∧ t.store.find? c.runId = some r ∧ asInserted r' = asInserted r

theorem processClaim_succeeded {t : System} {store' : StateStore} {c : Claim} {result : Invocation} {now : Time}
    {r' : Run} (h : processClaim t.store settings.toSettings c result now = .ok store')
    (hr' : store'.find? id = some r') (hst : r'.status = .succeeded) :
    t.store.find? id = some r' ∨ id = c.runId ∧ Succeeds t c result r' := by
  -- another status is recorded
  have hother {set : Run → Run} (hfind : store'.find? id = (RowWrite.rewrite c.runId set).apply t.store.find? id)
      (hset : ∀ r, (set r).status ≠ .succeeded) :
      t.store.find? id = some r' ∨ id = c.runId ∧ Succeeds t c result r' := by
    rcases RowWrite.of_rewrite (hfind.symm.trans hr') with ⟨r, -, rfl, -⟩ | ⟨-, hr⟩
    · exact absurd hst (hset r)
    · exact .inl hr
  cases result with
  | raised exc =>
    obtain ⟨o, -, hfind⟩ := complete_writes h
    exact hother (hfind id) fun _ h => by cases h
  | interrupted exc => cases h
  | returned response =>
    simp only [processClaim, recordOutcome] at h
    split at h
    · rename_i hok
      obtain ⟨o, ho, hfind⟩ := complete_writes h
      rcases RowWrite.of_rewrite ((hfind id).symm.trans hr') with ⟨r, hr, rfl, hid⟩ | ⟨-, hr⟩
      · cases hj : jsonDumps response.output with
        | error exc => simp [hj] at ho
        | ok j =>
          have ho : some j = o := by simpa [hj] using ho
          exact .inr ⟨hid, response, j, r, rfl, hok, hj, ho.symm, hr, rfl⟩
      · exact .inl hr
    · split at h
      · obtain ⟨o, -, hfind⟩ := complete_writes h
        exact hother (hfind id) fun _ h => by cases h
      · cases h
        exact hother StateStore.find?_update fun _ h => by cases h

/-- A row that is succeeded was before, or a worker that holds it is answered so. -/
theorem queue_succeeded {t t' : System} {q : Service.Event} {r' : Run} (hq : q.closesExpired = false)
    (h : t.step settings.toSettings q = some t') (hr' : t'.store.find? id = some r')
    (hst : r'.status = .succeeded) :
    t.store.find? id = some r' ∨ ∃ w c result now, q = .finish w result now ∧ t.workers w = .processing c ∧
      id = c.runId ∧ Succeeds t c result r' := by
  cases q with
  | finish w result now =>
    cases hw : t.workers w with
    | processing c =>
      cases hp : processClaim t.store settings.toSettings c result now with
      | error exc =>
        simp only [System.step, hw, hp, Option.some.injEq] at h
        subst h
        exact .inl hr'
      | ok store' =>
        simp only [System.step, hw, hp, Option.some.injEq] at h
        subst h
        exact (processClaim_succeeded hp hr' hst).imp_right fun hs => ⟨w, c, result, now, rfl, hw, hs⟩
    | _ => simp [System.step, hw] at h
  | closeExpired now => cases hq
  | enqueue =>
    obtain ⟨write, workers, hwrite, -, hrows⟩ := System.step_writes rfl h
    rw [hrows id] at hr'
    cases hwrite with
    | refused => exact .inl hr'
    | enqueued _ _ =>
      rcases RowWrite.of_insert hr' with rfl | hr'
      · cases hst
      · exact .inl hr'
  | cancel =>
    obtain ⟨write, workers, hwrite, -, hrows⟩ := System.step_writes rfl h
    rw [hrows id] at hr'
    cases hwrite with
    | uncancelled => exact .inl hr'
    | cancelled _ =>
      rcases RowWrite.of_rewrite hr' with ⟨r, -, rfl, -⟩ | ⟨-, hr⟩
      · cases hst
      · exact .inl hr
  | poll =>
    obtain ⟨write, workers, hwrite, -, hrows⟩ := System.step_writes rfl h
    rw [hrows id] at hr'
    cases hwrite with
    | idle _ => exact .inl hr'
    | exhausted _ _ | claimed _ _ =>
      rcases RowWrite.of_rewrite hr' with ⟨r, -, rfl, -⟩ | ⟨-, hr⟩
      · cases hst
      · exact .inl hr

/-- What a worker holds it held before, or it is claimed from a row. -/
theorem queue_claims {t t' : System} {q : Service.Event} {w : Nat} {c : Claim} (hq : q.closesExpired = false)
    (h : t.step settings.toSettings q = some t') (hw : t'.workers w = .processing c) :
    t.workers w = .processing c ∨ ∃ row, t.store.find? row.runId = some row ∧ c = claimOf row := by
  obtain ⟨write, workers, hwrite, hworkers, -⟩ := System.step_writes hq h
  rw [hworkers] at hw
  cases hwrite with
  | enqueued _ _ | refused | cancelled _ | uncancelled | idle _ | exhausted _ _ => exact .inl hw
  | claimed hrow _ =>
    rcases processing_of_update hw with ⟨hc, -⟩ | hw
    · exact .inr ⟨_, (nextPending_find? hrow).1, (Worker.processing.inj hc).symm⟩
    · exact .inl hw
  | succeeded _ _ | failed _ _ | requeued _ _ | lost _ _ =>
    exact .inl ((processing_of_update hw).resolve_left fun h => by cases h.1)

theorem Traced.queue {q : Service.Event} (h : Traced p settings store es s) (hq : q.closesExpired = false)
    (hstep : s.system.step settings.toSettings q = some s'.system)
    (hrun : run (App.step p settings) (.start store) es = some s)
    (hfinish : ∀ w result now, q = .finish w result now → e = .finish w result now) :
    Traced p settings store (es ++ [e]) s' where
  claims w c hw := by
    have hold : ∃ row, s.system.store.find? c.runId = some row ∧ MadeOf c row := by
      rcases queue_claims hq hstep hw with hw | ⟨row, hrow, rfl⟩
      · exact h.claims w c hw
      · exact ⟨row, hrow, rfl, rfl, rfl, rfl⟩
    obtain ⟨row, hrow, hmade⟩ := hold
    obtain ⟨row', hrow', hsame⟩ := queue_keeps_row hq hstep hrow
    exact ⟨row', hrow', hmade.congr hsame⟩
  outputs id row hid hrow hst := by
    rcases queue_succeeded hq hstep hrow hst with hrow | ⟨w, c, result, now, hevent, hw, rfl, hsucceeds⟩
    · exact (h.outputs id row hid hrow hst).of_append [e]
    · obtain ⟨response, j, r, rfl, hok, hdumps, hj, hr, hsame⟩ := hsucceeds
      obtain ⟨row', hrow', hmade⟩ := h.claims w c hw
      obtain rfl : row' = r := Option.some.inj (hrow'.symm.trans hr)
      obtain rfl := hfinish _ _ _ hevent
      exact ⟨response, j, hj, hdumps, hok, es, w, now, [], s, c, rfl, hrun, hw, hmade.congr hsame⟩

theorem Traced.step (h : Traced p settings store es s)
    (hrun : run (App.step p settings) (.start store) es = some s) (hs : s.step p settings e = some s') :
    Traced p settings store (es ++ [e]) s' := by
  cases e with
  | request request moment =>
    obtain ⟨answer, store', hserves, -, hserve⟩ := serves p settings s request moment
    cases hs
    rw [hserve]
    cases hserves with
    | @submitted run _ _ _ henqueue =>
      have hstep : s.system.step settings.toSettings
          (.enqueue moment.uuid run.agent run.tenantId (.dict run.input) 1 moment.now) =
            some { s.system with store := store' } := by
        simp only [System.step, henqueue]
      exact h.queue rfl hstep hrun fun _ _ _ h => by cases h
    | @cancelled runId _ _ _ hcancel =>
      have hstep : s.system.step settings.toSettings (.cancel runId moment.now) =
          some { s.system with store := store' } := by
        simp only [System.step, hcancel]
      exact h.queue rfl hstep hrun fun _ _ _ h => by cases h
    | nothing _ => exact ⟨h.claims, fun id row hid hrow hst => (h.outputs id row hid hrow hst).of_append _⟩
  | poll w choice now =>
    obtain ⟨-, system, hstep, rfl⟩ := poll_eq_some.mp hs
    exact h.queue rfl hstep hrun fun _ _ _ h => by cases h
  | finish w result now =>
    obtain ⟨system, hstep, rfl⟩ := Option.map_eq_some_iff.mp hs
    refine h.queue rfl hstep hrun fun _ _ _ h => ?_
    cases h
    rfl

theorem traced_start : Traced p settings store [] (.start store) where
  claims _ _ hw := by cases hw
  outputs id row hid hrow _ := by
    have hknown := StateStore.statusOf_isSome.mp (congrArg (fun r => (Option.map Run.status r).isSome) hrow)
    exact absurd hknown hid

/-- What is reported of a run that was not there at the start, after the events before. -/
def ReportsInvoked (p : Reading) (settings : Settings) (store : StateStore) (es : List Event) (x : Exchange) :
    Prop :=
  admitted p settings x.request = true → ∀ runId, x.request.route = .getRun runId → runId ∉ store.runIds →
    ∀ response, x.answer = .ok response →
      ∃ row before after, es = before ++ .request x.request x.moment :: after ∧
      response = .json 200 ((rowToRecord row).asDict p) ∧ row.runId = runId ∧
      (row.status = .succeeded → Produced p settings store before row)

theorem ReportsInvoked.of_append {x : Exchange} (h : ReportsInvoked p settings store es x) (fs : List Event) :
    ReportsInvoked p settings store (es ++ fs) x := by
  intro hadmitted runId hroute hid response hanswer
  obtain ⟨row, before, after, rfl, hrow⟩ := h hadmitted runId hroute hid response hanswer
  exact ⟨row, before, after ++ fs, by simp, hrow⟩

theorem Traced.reports (h : Traced p settings store es s) {answer : Answer}
    (hanswer : (endpoint p settings s.system.store request moment).map Prod.fst = answer) :
    ReportsInvoked p settings store (es ++ [.request request moment]) ⟨request, moment, answer⟩ := by
  intro hadmitted runId hroute hid response hresponse
  have hget : getRun p s.system.store runId = .ok response :=
    (endpoint_getRun hadmitted hroute).symm.trans (hanswer.trans hresponse)
  unfold getRun at hget
  cases hrow : s.system.store.find? runId with
  | none =>
    rw [hrow] at hget
    cases hget
  | some row =>
    rw [hrow] at hget
    exact ⟨row, es, [], rfl, eq_of_jsonResponse hget, StateStore.runId_of_find? hrow, h.outputs runId row hid hrow⟩

/-- Where a request reports a run that was not there before, it reports a row of the table, and if that has
succeeded, a worker that held the run, with the agent and the input that are reported, was answered the
output that is reported. -/
theorem reported_output_invoked (hrun : run (App.step p settings) (.start store) es = some s) :
    ∀ x ∈ s.exchanges, ReportsInvoked p settings store es x := by
  have hinv : Traced p settings store es s ∧ ∀ x ∈ s.exchanges, ReportsInvoked p settings store es x := by
    refine run_history (I := fun es s => Traced p settings store es s ∧
      ∀ x ∈ s.exchanges, ReportsInvoked p settings store es x) (fun es e s s' hrun h hs => ?_)
      ⟨traced_start, List.forall_mem_nil _⟩ hrun
    refine ⟨h.1.step hrun hs, ?_⟩
    have hold : ∀ x ∈ s.exchanges, ReportsInvoked p settings store (es ++ [e]) x :=
      fun x hx => (h.2 x hx).of_append [e]
    cases e with
    | request request moment =>
      obtain ⟨answer, store', -, hanswer, hserve⟩ := serves p settings s request moment
      cases hs
      rw [hserve]
      exact List.forall_mem_append.mpr ⟨hold, List.forall_mem_singleton.mpr (h.1.reports hanswer)⟩
    | poll w choice now =>
      obtain ⟨-, system, -, rfl⟩ := poll_eq_some.mp hs
      exact hold
    | finish w result now =>
      obtain ⟨system, -, rfl⟩ := Option.map_eq_some_iff.mp hs
      exact hold
  exact hinv.2

end

theorem reported_output_invoked_smoke : ∃ s,
    run (App.step smokeReading smokeSettings) (.start ⟨[], 3600, List.nodup_nil⟩) smokeEvents = some s ∧
      ∃ x ∈ s.exchanges, x.request.route = .getRun "r1" ∧ x.moment.now = 5 ∧
        (∃ response, x.answer = .ok response) ∧
          ReportsInvoked smokeReading smokeSettings ⟨[], 3600, List.nodup_nil⟩ smokeEvents x := by
  have hrun : run (App.step smokeReading smokeSettings) (.start ⟨[], 3600, List.nodup_nil⟩) smokeEvents =
    some _ := rfl
  refine ⟨_, hrun, _, List.mem_cons_of_mem _ (List.mem_cons_of_mem _ List.mem_cons_self), rfl, rfl, ⟨_, rfl⟩, ?_⟩
  exact reported_output_invoked hrun _ (List.mem_cons_of_mem _ (List.mem_cons_of_mem _ List.mem_cons_self))

end Intelliqx.Service.Api
