import Intelliqx.Base.Erasure
import Intelliqx.Py.Text
import Intelliqx.Service.Worker

/-!
# The HTTP service

The routes of the service over the queue and its workers. Requests fall
anywhere between the steps of the workers. Each is one step here: between what
it awaits, its body and its dependencies, it does not touch the store.
A protected request without the token of the service is refused, and as far as
everybody else can tell it was never made (`unauthorized_requests_erased`).
-/

namespace Intelliqx.Service.Api

open Machine Py

abbrev Body := List UInt8

/-- What the service needs of Python: `str.lower`, `repr` and `int` of a text and its UTF-8, which a lone
surrogate has none of, `json.loads` of a body, the text of a JSON document and a time as ISO 8601. -/
structure Reading where
  lower : String → String
  repr : String → String
  int : String → Option Int
  encode : String → Except PyException Body
  loads : Body → Except PyException Json
  compact : Json → String
  isoformat : Time → String

-- ---------------------------------------------------------------------------
-- Settings
-- ---------------------------------------------------------------------------

def apiTokenEnv : String := "INTELLIQX_API_TOKEN"
def stateDbEnv : String := "INTELLIQX_STATE_DB"
def workerCountEnv : String := "INTELLIQX_WORKERS"
def maxRetriesEnv : String := "INTELLIQX_MAX_RETRIES"
def runTtlEnv : String := "INTELLIQX_RUN_TTL"

def minTokenLength : Nat := 32
def defaultStatePath : String := ":memory:"
def defaultWorkerCount : Int := 1
def defaultMaxRetries : Int := 1
def defaultRunTtlSeconds : Int := 3600

/-- The settings of a service that has started. -/
structure Settings extends Service.Settings where
  token : String
  statePath : String
  workerCount : Int
  runTtlSeconds : Int
  strong : minTokenLength ≤ token.length
  stripped : strip token = token

/-- The workers that are started. -/
def Settings.workers (settings : Settings) : Nat := (max settings.workerCount 1).toNat

def parseInt (p : Reading) (raw : Option String) (default : Int) : Except PyException Int :=
  match raw with
  | none => .ok default
  | some raw =>
    if strip raw = "" then .ok default
    else
      match p.int raw with
      | some n => .ok n
      | none => .error ⟨"ValueError", "expected integer, got " ++ p.repr raw⟩

def fromEnv (p : Reading) (env : Dict String String) : Except PyException Settings :=
  let token := strip ((env.get? apiTokenEnv).getD "")
  if h : token.length < minTokenLength then
    .error ⟨"RuntimeError", s!"{apiTokenEnv} must be set to a value of at least {minTokenLength} " ++
      "characters; refusing to start with a weak or default token."⟩
  else do
    let workerCount ← parseInt p (env.get? workerCountEnv) defaultWorkerCount
    let maxRetries ← parseInt p (env.get? maxRetriesEnv) defaultMaxRetries
    let runTtlSeconds ← parseInt p (env.get? runTtlEnv) defaultRunTtlSeconds
    .ok
      { token, workerCount, maxRetries, runTtlSeconds
        statePath := (truthy (env.get? stateDbEnv)).getD defaultStatePath
        strong := Nat.le_of_not_lt h
        stripped := strip_strip _ }

-- ---------------------------------------------------------------------------
-- Authorization
-- ---------------------------------------------------------------------------

def bearerScheme : String := "bearer"
def headerSeparator : Char := ' '

def bearerTokenFromHeader (p : Reading) (header : Option String) : Option String :=
  match truthy header with
  | none => none
  | some header =>
    match header.toList.dropWhile (· ≠ headerSeparator) with
    | [] => none
    | _ :: token =>
      if p.lower (.ofList (header.toList.takeWhile (· ≠ headerSeparator))) ≠ bearerScheme then none
      else truthy (some (strip (.ofList token)))

/-- What keeps a request from an answer of its own. -/
inductive Failure
  | httpException (statusCode : Nat) (detail : String)
  | raised (e : PyException)

def unauthorized : Failure := .httpException 401 "invalid or missing token"

/-- Texts are compared as their UTF-8 bytes in the source, which are equal where the texts are. -/
def requireToken (p : Reading) (settings : Settings) (authorization : Option String) : Except Failure Unit :=
  if bearerTokenFromHeader p authorization = some settings.token then .ok () else .error unauthorized

-- ---------------------------------------------------------------------------
-- Routes
-- ---------------------------------------------------------------------------

inductive Route
  | healthz
  | readyz
  | metrics
  | submitRun
  | getRun (runId : String)
  | cancelRun (runId : String)
  deriving DecidableEq

/-- The routes that depend on `require_token`. -/
def Route.Protected : Route → Prop
  | .healthz | .readyz | .metrics => False
  | .submitRun | .getRun _ | .cancelRun _ => True

instance (route : Route) : Decidable route.Protected := by
  cases route <;> unfold Route.Protected <;> infer_instance

structure Request where
  route : Route
  authorization : Option String := none
  body : Body := []

/-- What a request finds: the clock, what `uuid4` gives, the error of the database, if it has one, and
the page of metrics. -/
structure Moment where
  now : Time
  uuid : String
  sqliteError : Option String := none
  metricsPage : String := ""

inductive Response
  | json (statusCode : Nat) (content : PyValue)
  | text (content mediaType : String)

abbrev Answer := Except Failure Response

/-- `JSONResponse.render`: the bytes of the content. -/
def render (p : Reading) (content : PyValue) : Except PyException Body := do
  let j ← jsonDumps content
  j.compliant
  p.encode (p.compact j)

/-- Rendered as it is made: what has no rendering raises in the endpoint. -/
def jsonResponse (p : Reading) (content : PyValue) : Answer :=
  match render p content with
  | .ok _ => .ok (.json 200 content)
  | .error e => .error (.raised e)

/-- A body that is valid for `POST /v1/runs`. -/
structure RunSubmission where
  agent : String
  tenantId : String
  input : List (PyKey × PyValue)
  named : agent ≠ ""

/-- The fields are required to have their types, and there are no others. -/
def modelValidate (body : List (PyKey × PyValue)) : Option RunSubmission :=
  if body.all fun e => e.1 ∈ [PyKey.str "agent", .str "tenant_id", .str "input"] then
    match body.lookup (.str "agent"), (body.lookup (.str "tenant_id")).getD (.str "t1"),
      (body.lookup (.str "input")).getD (.dict []) with
    | some (.str agent), .str tenantId, .dict input =>
      if named : agent ≠ "" then some { agent, tenantId, input, named } else none
    | _, _, _ => none
  else none

def readJsonObject (p : Reading) (body : Body) : Except Failure (List (PyKey × PyValue)) :=
  if body = [] then .ok []
  else
    match p.loads body with
    | .error e =>
      if e.typeName = "JSONDecodeError" then .error (.httpException 400 ("invalid json: " ++ e.text))
      else .error (.raised e)
    | .ok j =>
      match jsonLoads j with
      | .dict parsed => .ok parsed
      | _ => .error (.httpException 400 "expected object body")

def value : RunStatus → String
  | .pending => "PENDING"
  | .running => "RUNNING"
  | .succeeded => "SUCCEEDED"
  | .failed => "FAILED"
  | .cancelled => "CANCELLED"

/-- The submission in the body, where `run_submission` has one. -/
def submission (p : Reading) (body : Body) : Except Failure RunSubmission := do
  match modelValidate (← readJsonObject p body) with
  | some submission => .ok submission
  | none => .error (.raised ⟨"ValidationError", "RunSubmission"⟩)

/-- SQLite takes the text. -/
def bound (p : Reading) (text : String) : Except Failure Unit :=
  match p.encode text with
  | .ok _ => .ok ()
  | .error e => .error (.raised e)

-- What the other routes answer is ASCII, so it always renders.
def acceptance (runId : String) : Response :=
  .json 202 (.dict [(.str "run_id", .str runId), (.str "status", .str (value .pending))])

def submitRun (p : Reading) (store : StateStore) (body : Body) (moment : Moment) :
    Except Failure (Response × StateStore) := do
  let run ← submission p body
  bound p run.agent
  bound p run.tenantId
  match store.enqueue moment.uuid run.agent run.tenantId (.dict run.input) 1 moment.now with
  | .error e => .error (.raised e)
  | .ok store => .ok (acceptance moment.uuid, store)

structure RunRecord where
  runId : String
  agentName : String
  tenantId : String
  status : RunStatus
  inputPayload : PyValue
  output : Option PyValue
  error : Option String
  attempts : Int
  maxRetries : Int
  createdAt : Time
  updatedAt : Time
  durationMs : Int

def rowToRecord (row : Run) : RunRecord where
  runId := row.runId
  agentName := row.agentName
  tenantId := row.tenantId
  status := row.status
  inputPayload := jsonLoads row.inputJson
  output := row.outputJson.map jsonLoads
  error := row.error
  attempts := row.attempts
  maxRetries := row.maxRetries
  createdAt := row.createdAt
  updatedAt := row.updatedAt
  durationMs := row.durationMs

def RunRecord.asDict (p : Reading) (r : RunRecord) : PyValue :=
  .dict
    [(.str "run_id", .str r.runId), (.str "agent_name", .str r.agentName), (.str "tenant_id", .str r.tenantId),
     (.str "status", .str (value r.status)), (.str "input", r.inputPayload), (.str "output", r.output.getD .none),
     (.str "error", (r.error.map .str).getD .none), (.str "attempts", .int r.attempts),
     (.str "max_retries", .int r.maxRetries), (.str "created_at", .str (p.isoformat r.createdAt)),
     (.str "updated_at", .str (p.isoformat r.updatedAt)), (.str "duration_ms", .int r.durationMs)]

def getRun (p : Reading) (store : StateStore) (runId : String) : Answer :=
  match store.find? runId with
  | none => .error (.httpException 404 "run not found")
  | some row => jsonResponse p ((rowToRecord row).asDict p)

def cancelRun (store : StateStore) (runId : String) (now : Time) : Except Failure (Response × StateStore) :=
  match store.cancel runId now with
  | (false, _) => .error (.httpException 409 "run not in a cancellable state")
  | (true, store) =>
    .ok (.json 200 (.dict [(.str "run_id", .str runId), (.str "status", .str (value .cancelled))]), store)

def readyz (moment : Moment) : Response :=
  match moment.sqliteError with
  | some text => .json 503 (.dict [(.str "status", .str "error"), (.str "error", .str text)])
  | none => .json 200 (.dict [(.str "status", .str "ok")])

/-- The endpoint of the route, behind its dependencies. -/
def endpoint (p : Reading) (settings : Settings) (store : StateStore) (request : Request) (moment : Moment) :
    Except Failure (Response × StateStore) :=
  match request.route with
  | .healthz => .ok (.json 200 (.dict [(.str "status", .str "ok")]), store)
  | .readyz => .ok (readyz moment, store)
  | .metrics => .ok (.text moment.metricsPage "text/plain; version=0.0.4", store)
  | .submitRun => do
    requireToken p settings request.authorization
    submitRun p store request.body moment
  | .getRun runId => do
    requireToken p settings request.authorization
    (getRun p store runId).map (·, store)
  | .cancelRun runId => do
    requireToken p settings request.authorization
    cancelRun store runId moment.now

-- ---------------------------------------------------------------------------
-- The app
-- ---------------------------------------------------------------------------

structure Exchange where
  request : Request
  moment : Moment
  answer : Answer

/-- The queue and its workers, and the requests answered so far. -/
structure App where
  system : System
  exchanges : List Exchange

inductive Event
  | request (request : Request) (moment : Moment)
  | poll (w choice : Nat) (now : Time)
  | finish (w : Nat) (result : Invocation) (now : Time)

/-- An endpoint that raises leaves the store as it was. -/
def App.serve (p : Reading) (settings : Settings) (s : App) (request : Request) (moment : Moment) : App :=
  let result := endpoint p settings s.system.store request moment
  { system := { s.system with store := (result.toOption.map Prod.snd).getD s.system.store }
    exchanges := s.exchanges ++ [⟨request, moment, result.map Prod.fst⟩] }

def App.step (p : Reading) (settings : Settings) (s : App) : Event → Option App
  | .request request moment => some (s.serve p settings request moment)
  | .poll w choice now =>
    if w < settings.workers then
      (s.system.step settings.toSettings (.poll w choice now)).map fun system => { s with system }
    else none
  | .finish w result now =>
    (s.system.step settings.toSettings (.finish w result now)).map fun system => { s with system }

def App.start (store : StateStore) : App := ⟨.start store, []⟩

-- ---------------------------------------------------------------------------
-- Requests without the token
-- ---------------------------------------------------------------------------

/-- The scheme in any case, a space, and the token with any white space around it. -/
def Presents (p : Reading) (token : String) (authorization : Option String) : Prop :=
  ∃ scheme rest : List Char, authorization = some (.ofList (scheme ++ ' ' :: rest)) ∧ ' ' ∉ scheme ∧
    p.lower (.ofList scheme) = "bearer" ∧ strip (.ofList rest) = token

/-- What `require_token` lets through, where the route depends on it. -/
def admitted (p : Reading) (settings : Settings) (request : Request) : Bool :=
  ¬ request.route.Protected ∨ bearerTokenFromHeader p request.authorization = some settings.token

def Event.admitted (p : Reading) (settings : Settings) : Event → Bool
  | .request r _ => Api.admitted p settings r
  | _ => true

def Event.request? : Event → Option (Request × Moment)
  | .request r moment => some (r, moment)
  | _ => none

/-- What those see whose requests are let through. -/
def App.view (p : Reading) (settings : Settings) (s : App) : App :=
  { s with exchanges := s.exchanges.filter fun x => admitted p settings x.request }

section
variable {p : Reading} {settings : Settings} {header : Option String} {token : String} {s s' : App}
  {request : Request} {moment : Moment} {es : List Event}

/-- A service that starts has the token of its environment. -/
theorem token_of_fromEnv {env : Dict String String} (h : fromEnv p env = .ok settings) :
    settings.token = strip ((env.get? apiTokenEnv).getD "") := by
  unfold fromEnv at h
  dsimp only at h
  split at h
  · cases h
  · obtain ⟨workerCount, -, h⟩ := bind_eq_ok.mp h
    obtain ⟨maxRetries, -, h⟩ := bind_eq_ok.mp h
    obtain ⟨runTtlSeconds, -, h⟩ := bind_eq_ok.mp h
    cases h
    rfl

theorem truthy_eq_some {s : Option String} {t : String} : truthy s = some t ↔ s = some t ∧ t ≠ "" := by
  simp [truthy, Option.filter_eq_some_iff]

theorem takeWhile_ne {c : Char} {scheme : List Char} (rest : List Char) (h : c ∉ scheme) :
    (scheme ++ c :: rest).takeWhile (· ≠ c) = scheme ∧ (scheme ++ c :: rest).dropWhile (· ≠ c) = c :: rest := by
  have hscheme : ∀ a ∈ scheme, decide (a ≠ c) = true := fun a ha => decide_eq_true fun heq => h (heq ▸ ha)
  constructor
  · rw [List.takeWhile_append_of_pos hscheme, List.takeWhile_cons_of_neg (by simp), List.append_nil]
  · rw [List.dropWhile_append_of_pos hscheme, List.dropWhile_cons_of_neg (by simp)]

theorem bearerTokenFromHeader_split {scheme rest : List Char} (h : headerSeparator ∉ scheme) :
    bearerTokenFromHeader p (some (.ofList (scheme ++ headerSeparator :: rest))) =
      if p.lower (.ofList scheme) = "bearer" then truthy (some (strip (.ofList rest))) else none := by
  have htext : truthy (some (String.ofList (scheme ++ headerSeparator :: rest))) =
      some (.ofList (scheme ++ headerSeparator :: rest)) := truthy_eq_some.mpr ⟨rfl, by simp⟩
  obtain ⟨htake, hdrop⟩ := takeWhile_ne rest h
  simp only [bearerTokenFromHeader, htext, String.toList_ofList, htake, hdrop, bearerScheme]
  by_cases hlower : p.lower (.ofList scheme) = "bearer"
  · rw [if_pos hlower, if_neg (not_not.mpr hlower)]
  · rw [if_neg hlower, if_pos hlower]

theorem bearerTokenFromHeader_of_no_space {text : List Char} (h : headerSeparator ∉ text) :
    bearerTokenFromHeader p (some (.ofList text)) = none := by
  have hdrop : text.dropWhile (· ≠ headerSeparator) = [] :=
    List.dropWhile_eq_nil_iff.mpr fun c hc => decide_eq_true fun heq => h (heq ▸ hc)
  unfold bearerTokenFromHeader
  cases htext : truthy (some (String.ofList text)) with
  | none => rfl
  | some header =>
    obtain rfl : String.ofList text = header := Option.some.inj (truthy_eq_some.mp htext).1
    simp only [String.toList_ofList, hdrop]

theorem bearerTokenFromHeader_iff (htoken : token ≠ "") :
    bearerTokenFromHeader p header = some token ↔ Presents p token header := by
  constructor
  · intro h
    cases header with
    | none => cases h
    | some header =>
      obtain ⟨text, rfl⟩ : ∃ text, header = .ofList text := ⟨header.toList, String.ofList_toList.symm⟩
      have hspace : headerSeparator ∈ text := by
        by_contra hnone
        rw [bearerTokenFromHeader_of_no_space hnone] at h
        cases h
      obtain ⟨scheme, rest, rfl, hscheme⟩ := List.eq_append_cons_of_mem hspace
      rw [bearerTokenFromHeader_split hscheme] at h
      split at h
      · rename_i hlower
        exact ⟨scheme, rest, rfl, hscheme, hlower, Option.some.inj (truthy_eq_some.mp h).1⟩
      · cases h
  · rintro ⟨scheme, rest, rfl, hscheme, hlower, htail⟩
    refine (bearerTokenFromHeader_split hscheme).trans ?_
    rw [if_pos hlower]
    exact truthy_eq_some.mpr ⟨congrArg some htail, htoken⟩

/-- No token is as short as none. -/
theorem Settings.token_ne (settings : Settings) : settings.token ≠ "" := by
  intro h
  have hstrong := settings.strong
  rw [h] at hstrong
  exact absurd hstrong (by decide)

theorem admitted_iff (hprotected : request.route.Protected) :
    admitted p settings request = true ↔ Presents p settings.token request.authorization := by
  rw [admitted, decide_eq_true_iff, ← bearerTokenFromHeader_iff settings.token_ne]
  exact or_iff_right (not_not.mpr hprotected)

/-- What is refused is refused before the store is looked at. -/
theorem endpoint_of_not_admitted {store : StateStore} (h : admitted p settings request = false) :
    endpoint p settings store request moment = .error unauthorized := by
  have hnot := of_decide_eq_false h
  rw [not_or, not_not] at hnot
  have hrefused : requireToken p settings request.authorization = .error unauthorized := if_neg hnot.2
  unfold endpoint
  cases hroute : request.route with
  | healthz | readyz | metrics =>
    rw [hroute] at hnot
    exact hnot.1.elim
  | submitRun | getRun runId | cancelRun runId => simp only [hrefused, bind_error_eq]

theorem serve_of_not_admitted (h : admitted p settings request = false) :
    s.serve p settings request moment =
      { s with exchanges := s.exchanges ++ [⟨request, moment, .error unauthorized⟩] } := by
  simp only [App.serve, endpoint_of_not_admitted h]
  rfl

theorem view_serve (h : admitted p settings request = true) :
    (s.serve p settings request moment).view p settings = (s.view p settings).serve p settings request moment := by
  simp only [App.view, App.serve, List.filter_append, List.filter_cons_of_pos, h, List.filter_nil]

theorem view_step {e : Event} (h : e.admitted p settings = true) :
    (s.step p settings e).map (App.view p settings) = (s.view p settings).step p settings e := by
  cases e with
  | request r moment => exact congrArg some (view_serve h)
  | poll w choice now =>
    simp only [App.step]
    split
    · rw [Option.map_map]
      rfl
    · rfl
  | finish w result now =>
    simp only [App.step, Option.map_map]
    rfl

theorem view_of_not_admitted {e : Event} (h : e.admitted p settings = false) :
    (s.step p settings e).map (App.view p settings) = some (s.view p settings) := by
  cases e with
  | request r moment =>
    have hdrop : ¬ admitted p settings r = true := by
      rw [Bool.not_eq_true]
      exact h
    have hlast : [(⟨r, moment, .error unauthorized⟩ : Exchange)].filter
        (fun x => admitted p settings x.request) = [] := List.filter_cons_of_neg hdrop
    rw [App.step, serve_of_not_admitted h, Option.map_some]
    simp only [App.view, List.filter_append, hlast, List.append_nil]
  | poll w choice now => cases h
  | finish w result now => cases h

theorem poll_eq_some {w choice : Nat} {now : Time} : s.step p settings (.poll w choice now) = some s' ↔
    w < settings.workers ∧ ∃ system, s.system.step settings.toSettings (.poll w choice now) = some system ∧
      { s with system } = s' := by
  rw [App.step, Option.ite_none_right_eq_some, Option.map_eq_some_iff]

/-- Every request is answered once, and the answers come in the order of the requests. -/
theorem exchanges_of_run (hrun : run (App.step p settings) s es = some s') :
    s'.exchanges.map (fun x => (x.request, x.moment)) =
      s.exchanges.map (fun x => (x.request, x.moment)) ++ es.filterMap Event.request? := by
  induction es generalizing s with
  | nil =>
    cases hrun
    simp
  | cons e es ih =>
    obtain ⟨t, ht, hrest⟩ := Option.bind_eq_some_iff.mp hrun
    rw [ih hrest]
    cases e with
    | request r moment =>
      cases ht
      simp [App.serve, Event.request?]
    | poll w choice now =>
      obtain ⟨-, u, -, rfl⟩ := poll_eq_some.mp ht
      rfl
    | finish w result now =>
      obtain ⟨u, -, rfl⟩ := Option.map_eq_some_iff.mp ht
      rfl

theorem answer_of_not_admitted
    (hinit : ∀ x ∈ s.exchanges, admitted p settings x.request = false → x.answer = .error unauthorized)
    (hrun : run (App.step p settings) s es = some s') :
    ∀ x ∈ s'.exchanges, admitted p settings x.request = false → x.answer = .error unauthorized := by
  refine run_countdown (I := fun _ s => ∀ x ∈ s.exchanges, admitted p settings x.request = false →
    x.answer = .error unauthorized) (fun e es s s' h hs => ?_) hinit hrun
  cases e with
  | request r moment =>
    cases hs
    intro x hx hadmitted
    rcases List.mem_append.mp hx with hx | hx
    · exact h x hx hadmitted
    · cases List.mem_singleton.mp hx
      exact congrArg (Except.map Prod.fst) (endpoint_of_not_admitted hadmitted)
  | poll w choice now =>
    obtain ⟨-, u, -, rfl⟩ := poll_eq_some.mp hs
    exact h
  | finish w result now =>
    obtain ⟨u, -, rfl⟩ := Option.map_eq_some_iff.mp hs
    exact h

/-- Requests that are refused are answered by that, and have no other effect: the state of the queue, the
workers and the answers to all other requests are those of a run in which they are not made. -/
theorem unauthorized_requests_erased (p : Reading) (settings : Settings) (store : StateStore) (es : List Event) :
    (run (App.step p settings) (.start store) es).map (App.view p settings) =
        run (App.step p settings) (.start store) (es.filter (Event.admitted p settings)) ∧
      (∀ s, run (App.step p settings) (.start store) es = some s →
        (s.exchanges.map fun x => (x.request, x.moment)) = es.filterMap Event.request? ∧
        ∀ x ∈ s.exchanges, admitted p settings x.request = false → x.answer = .error unauthorized) ∧
      ∀ r : Request, admitted p settings r = false ↔
        r.route.Protected ∧ ¬ Presents p settings.token r.authorization := by
  refine ⟨?_, fun s hrun => ⟨exchanges_of_run hrun, answer_of_not_admitted ?_ hrun⟩, fun r => ?_⟩
  · exact run_filter (fun s e he => view_step he) fun s e he => view_of_not_admitted he
  · exact List.forall_mem_nil _
  · by_cases hprotected : r.route.Protected
    · rw [← Bool.not_eq_true, admitted_iff hprotected, and_iff_right hprotected]
    · have hopen : admitted p settings r = true := decide_eq_true (.inl hprotected)
      simp [hopen, hprotected]

end

end Intelliqx.Service.Api
