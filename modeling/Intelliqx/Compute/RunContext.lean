import Intelliqx.Compute.Runtime
import Intelliqx.Py.ContextVars
import Intelliqx.Tenant.Isolation

/-!
# The context of a run

`bind_run` and `with_tenant` set a context variable for a block. The workers of
the service are tasks that invoke one agent after another; in whatever order
they run, an agent finds its own run in `current_run`, and so does every task
and thread it starts (`agents_see_own_run`). The same goes for `current_tenant`
in a block of `with_tenant` (`blocks_see_own_tenant`), so that no request sees
another tenant than its headers name (`requests_see_own_tenant`).
-/

namespace Intelliqx.Compute

open Py

-- ---------------------------------------------------------------------------
-- The variables
-- ---------------------------------------------------------------------------

/-- The run as it is bound. What comes from the metadata of a request may be anything. -/
structure RunContext where
  runId : PyValue
  planId : PyValue
  tenantId : String
  agentName : Option String := none
  nodeId : PyValue := .none

/-- A context of the resolver with all it says of the tenant. -/
structure TenantContext extends Tenant.TenantContext where
  userId : Option String := none
  roles : List String := []
  traceId : Option String := none

/-- `TenantResolver.from_headers`. Of headers whose names differ by case alone the last counts. -/
def fromHeaders (lower : String → String) (headers : Dict String String) : Except PyException TenantContext :=
  let headers := Dict.index (fun h => lower h.1) Prod.snd headers.entries
  match headers.get? "x-intelliqx-tenant" with
  | none => .error ⟨"ValueError", "Missing X-IntelliqX-Tenant header"⟩
  | some tid =>
    if h : tid = "" then .error ⟨"ValueError", "Missing X-IntelliqX-Tenant header"⟩
    else
      .ok
        { tenantId := tid
          accepted := h
          userId := headers.get? "x-intelliqx-user"
          traceId := headers.get? "x-trace-id" }

inductive ContextVar
  | ctx
  | run
  deriving DecidableEq

def ContextVar.Value : ContextVar → Type
  | .ctx => TenantContext
  | .run => RunContext

abbrev Reads := List ((x : ContextVar) × Option x.Value)

section
variable {ε ρ : Type}

/-- How a block ends that does nothing but pass on what happened. -/
def ended : Except ε ρ → Prog ContextVar.Value ε ρ
  | .ok r => .returns r
  | .error e => .raises e

def bindRun (run : RunContext) (body : Prog ContextVar.Value ε ρ) : Prog ContextVar.Value ε ρ :=
  .within .run run body ended

def currentRun (next : Option RunContext → Prog ContextVar.Value ε ρ) : Prog ContextVar.Value ε ρ := .get .run next

def withTenant (tenant : TenantContext) (body : Prog ContextVar.Value ε ρ) : Prog ContextVar.Value ε ρ :=
  .within .ctx tenant body ended

def currentTenant (next : Option TenantContext → Prog ContextVar.Value ε ρ) : Prog ContextVar.Value ε ρ :=
  .get .ctx next

-- ---------------------------------------------------------------------------
-- Invocations
-- ---------------------------------------------------------------------------

def runContext (request : InvocationRequest) : RunContext where
  runId := (request.metadata.get? "run_id").getD (.str "ad-hoc")
  planId := (request.metadata.get? "plan_id").getD (.str "")
  tenantId := request.tenantId
  agentName := some request.agentName
  nodeId := (request.metadata.get? "node_id").getD .none

/-- The handler that `register_compute_handlers` registers: it builds the agent and runs it. -/
def handle (build : Prog ContextVar.Value ε ρ) (run : InvocationRequest → Prog ContextVar.Value ε ρ)
    (request : InvocationRequest) : Prog ContextVar.Value ε ρ :=
  build.thenDo fun
    | .ok _ => bindRun (runContext request) (run request)
    | .error e => .raises e

/-- `invoke`. What it makes of the end of the handler, or of there being none, is `respond`. -/
def invokeIn (respond : InvocationRequest → Option (Except ε ρ) → Except ε ρ)
    (handlers : Dict String (InvocationRequest → Prog ContextVar.Value ε ρ)) (request : InvocationRequest) :
    Prog ContextVar.Value ε ρ :=
  bindRun (runContext request)
    (match handlers.get? request.agentName with
     | none => ended (respond request none)
     | some handler => (handler request).thenDo fun o => ended (respond request (some o)))

def invocationTimeoutSeconds : Int := 300

def buildInvocationRequest (runId agentName tenantId : String) (inputPayload : Attrs) (attempt : Int) :
    InvocationRequest where
  agentName := agentName
  input := inputPayload
  tenantId := tenantId
  timeoutSeconds := invocationTimeoutSeconds
  metadata := .ofList [("run_id", .str runId), ("attempt", .int attempt)]

/-- What is no `Exception` ends a worker. -/
def goOn (isException : ε → Bool) (next : Prog ContextVar.Value ε ρ) : Except ε ρ → Prog ContextVar.Value ε ρ
  | .ok _ => next
  | .error e => if isException e then next else .raises e

/-- `_worker_loop`: what it claims, one run after another, or nothing, and it waits. -/
def workerLoop (isException : ε → Bool) (stopped : ρ) (invoke : InvocationRequest → Prog ContextVar.Value ε ρ) :
    List (Option InvocationRequest) → Prog ContextVar.Value ε ρ
  | [] => .returns stopped
  | none :: claims => .suspend fun
    | none => workerLoop isException stopped invoke claims
    | some e => .raises e
  | some request :: claims =>
    (invoke request).thenDo (goOn isException (workerLoop isException stopped invoke claims))

-- ---------------------------------------------------------------------------
-- Runs
-- ---------------------------------------------------------------------------

/-- Of the run the request is for. -/
def OfRun (request : InvocationRequest) : (x : ContextVar) → Option x.Value → Prop
  | .run, v => v = some (runContext request)
  | .ctx, _ => True

variable {respond : InvocationRequest → Option (Except ε ρ) → Except ε ρ}
  {handlers : Dict String (InvocationRequest → Prog ContextVar.Value ε ρ)} {request : InvocationRequest}
  {env : Context ContextVar.Value} {n : Nat} {signals : Nat → Option ε} {isException : ε → Bool} {stopped : ρ}

theorem allSet_ended {C : (x : ContextVar) → Option x.Value → Prop} (o : Except ε ρ) : (ended o).AllSet C := by
  cases o <;> trivial

theorem eval_ended (o : Except ε ρ) (m : Nat) :
    ((ended o).eval signals env m).reads = [] ∧ ((ended o).eval signals env m).spawned = [] := by
  cases o <;> exact ⟨rfl, rfl⟩

/-- A handler that is registered binds the run again, and nothing else where its agent does not. -/
theorem allSet_handle {build : Prog ContextVar.Value ε ρ} {run : InvocationRequest → Prog ContextVar.Value ε ρ}
    (hbuild : build.AllSet (OfRun request)) (hrun : (run request).AllSet (OfRun request)) :
    (handle build run request).AllSet (OfRun request) := by
  refine hbuild.thenDo fun o => ?_
  cases o with
  | error e => trivial
  | ok r => exact ⟨rfl, hrun, allSet_ended⟩

/-- What an invocation reads is its run, and what it creates tasks with. -/
theorem eval_invokeIn (respond : InvocationRequest → Option (Except ε ρ) → Except ε ρ)
    (signals : Nat → Option ε) (env : Context ContextVar.Value) (n : Nat) (request : InvocationRequest)
    (hhandlers : ∀ name handler, handlers.get? name = some handler →
      ∀ request, (handler request).AllSet (OfRun request)) :
    (∀ r ∈ ((invokeIn respond handlers request).eval signals env n).reads, OfRun request r.1 r.2) ∧
      ∀ o ∈ ((invokeIn respond handlers request).eval signals env n).spawned,
        (∀ x, OfRun request x (o.1 x)) ∧ o.2.AllSet (OfRun request) := by
  -- the body is run where the run is bound
  have hbody : (match handlers.get? request.agentName with
      | none => ended (respond request none)
      | some handler => (handler request).thenDo fun o => ended (respond request (some o))).AllSet
        (OfRun request) := by
    cases h : handlers.get? request.agentName with
    | none => exact allSet_ended _
    | some handler => exact (hhandlers _ _ h request).thenDo fun o => allSet_ended _
  have hbound : ∀ x, OfRun request x (Function.update env ContextVar.run (some (runContext request)) x) := by
    intro x
    cases x with
    | ctx => trivial
    | run => exact Function.update_self ..
  obtain ⟨hreads, hspawned⟩ := Prog.eval_allSet signals n hbound hbody
  simp only [invokeIn, bindRun, Prog.eval, Run.after, (eval_ended _ _).1, (eval_ended _ _).2, List.append_nil]
  exact ⟨hreads, hspawned⟩

theorem goOn_cases (next : Prog ContextVar.Value ε ρ) (o : Except ε ρ) :
    goOn isException next o = next ∨ ∃ e, goOn isException next o = .raises e := by
  cases o with
  | ok r => exact .inl rfl
  | error e =>
    rw [goOn]
    split
    · exact .inl rfl
    · exact .inr ⟨e, rfl⟩

/-- A worker reads the runs it has claimed, one after another. -/
theorem eval_workerLoop (isException : ε → Bool) (stopped : ρ)
    (respond : InvocationRequest → Option (Except ε ρ) → Except ε ρ) (signals : Nat → Option ε)
    (env : Context ContextVar.Value) (n : Nat) (hhandlers : ∀ name handler, handlers.get? name = some handler →
      ∀ request, (handler request).AllSet (OfRun request)) (claims : List (Option InvocationRequest)) :
    ∃ runs : List (InvocationRequest × Reads),
      runs.map Prod.fst <+: claims.filterMap id ∧
      ((workerLoop isException stopped (invokeIn respond handlers) claims).eval signals env n).reads =
        (runs.map Prod.snd).flatten ∧
      (∀ run ∈ runs, ∀ r ∈ run.2, OfRun run.1 r.1 r.2) ∧
      ∀ o ∈ ((workerLoop isException stopped (invokeIn respond handlers) claims).eval signals env n).spawned,
        ∃ request, some request ∈ claims ∧ (∀ x, OfRun request x (o.1 x)) ∧ o.2.AllSet (OfRun request) := by
  induction claims generalizing n with
  | nil => exact ⟨[], List.nil_prefix, rfl, List.forall_mem_nil _, List.forall_mem_nil _⟩
  | cons claim claims ih =>
    cases claim with
    | none =>
      rw [workerLoop, Prog.eval]
      cases signals n with
      | some e => exact ⟨[], List.nil_prefix, rfl, List.forall_mem_nil _, List.forall_mem_nil _⟩
      | none =>
        obtain ⟨runs, hruns, hreads, hown, hspawned⟩ := ih (n + 1)
        refine ⟨runs, hruns, hreads, hown, fun o ho => ?_⟩
        obtain ⟨request, hmem, h⟩ := hspawned o ho
        exact ⟨request, List.mem_cons_of_mem _ hmem, h⟩
    | some request =>
      obtain ⟨hreads, hspawned⟩ := eval_invokeIn respond signals env n request hhandlers
      have hmine : ∀ o ∈ ((invokeIn respond handlers request).eval signals env n).spawned,
          ∃ request', some request' ∈ some request :: claims ∧ (∀ x, OfRun request' x (o.1 x)) ∧
            o.2.AllSet (OfRun request') := fun o ho => ⟨request, List.mem_cons_self, hspawned o ho⟩
      rw [workerLoop, Prog.eval_thenDo]
      generalize (invokeIn respond handlers request).eval signals env n = run at hreads hmine ⊢
      rcases goOn_cases (workerLoop isException stopped (invokeIn respond handlers) claims) run.outcome with
        hgo | ⟨e, hgo⟩
      · obtain ⟨runs, hruns, hreads', hown, hspawned'⟩ := ih run.suspensions
        rw [hgo]
        refine ⟨(request, run.reads) :: runs, List.cons_prefix_cons.mpr ⟨rfl, hruns⟩, ?_, ?_, fun o ho => ?_⟩
        · simp only [Run.after, hreads', List.map_cons, List.flatten_cons]
        · exact List.forall_mem_cons.mpr ⟨hreads, hown⟩
        · rcases List.mem_append.mp ho with ho | ho
          · exact hmine o ho
          · obtain ⟨request', hmem, h⟩ := hspawned' o ho
            exact ⟨request', List.mem_cons_of_mem _ hmem, h⟩
      · rw [hgo]
        refine ⟨[(request, run.reads)], List.cons_prefix_cons.mpr ⟨rfl, List.nil_prefix⟩, ?_, ?_, fun o ho => ?_⟩
        · simp [Run.after, Prog.eval]
        · exact List.forall_mem_cons.mpr ⟨hreads, List.forall_mem_nil _⟩
        · exact hmine o ((List.mem_append.mp ho).resolve_right List.not_mem_nil)

variable {workers : List (Context ContextVar.Value × List (Option InvocationRequest))} {schedule : List Nat}
  {signalsOf : Nat → Nat → Option ε} {s : Py.System ContextVar.Value ε ρ} {t : Task ContextVar.Value ε ρ} {i : Nat}

/-- The workers of the service. -/
def workerTasks (isException : ε → Bool) (stopped : ρ) (invoke : InvocationRequest → Prog ContextVar.Value ε ρ)
    (workers : List (Context ContextVar.Value × List (Option InvocationRequest))) :
    Py.System ContextVar.Value ε ρ :=
  System.start (workers.map fun w => (w.1, workerLoop isException stopped invoke w.2))

/-- In whatever order the workers run: what a worker reads are, one after another, the runs it has
claimed, and a task that is started in a run reads that run. A worker has no run between two of them. -/
theorem agents_see_own_run (hhandlers : ∀ name handler, handlers.get? name = some handler →
      ∀ request, (handler request).AllSet (OfRun request))
    (hrun : Machine.run (System.step signalsOf)
      (workerTasks isException stopped (invokeIn respond handlers) workers) schedule = some s)
    (ht : s[i]? = some t) :
    (t.frames = [] → t.context = t.origin.1) ∧
      ((∃ env claims, ∃ runs : List (InvocationRequest × Reads), workers[i]? = some (env, claims) ∧
          runs.map Prod.fst <+: claims.filterMap id ∧ t.reads <+: (runs.map Prod.snd).flatten ∧
          ∀ run ∈ runs, ∀ v, ⟨.run, v⟩ ∈ run.2 → v = some (runContext run.1)) ∨
        ∃ env claims request, workers[t.root]? = some (env, claims) ∧ some request ∈ claims ∧
          t.origin.1 .run = some (runContext request) ∧ ∀ v, ⟨.run, v⟩ ∈ t.reads → v = some (runContext request)) := by
  have hlex := System.lexical hrun ht
  refine ⟨hlex.sofar.2.2, ?_⟩
  have horigin : ∀ (r : Nat) (o : Context ContextVar.Value × Prog ContextVar.Value ε ρ),
      (workers.map fun w => (w.1, workerLoop isException stopped (invokeIn respond handlers) w.2))[r]? = some o →
      ∃ env claims, workers[r]? = some (env, claims) ∧
        o = (env, workerLoop isException stopped (invokeIn respond handlers) claims) := by
    intro r o ho
    rw [List.getElem?_map] at ho
    obtain ⟨⟨env, claims⟩, hw, rfl⟩ := Option.map_eq_some_iff.mp ho
    exact ⟨env, claims, hw, rfl⟩
  let Born (r : Nat) (o : Context ContextVar.Value × Prog ContextVar.Value ε ρ) : Prop :=
    ∃ env claims request, workers[r]? = some (env, claims) ∧ some request ∈ claims ∧
      (∀ x, OfRun request x (o.1 x)) ∧ o.2.AllSet (OfRun request)
  have hfirst : ∀ r o, (workers.map fun w =>
      (w.1, workerLoop isException stopped (invokeIn respond handlers) w.2))[r]? = some o →
      ∀ c ∈ (o.2.eval (signalsOf r) o.1 0).spawned, Born r c := by
    intro r o ho c hc
    obtain ⟨env, claims, hw, rfl⟩ := horigin r o ho
    obtain ⟨-, -, -, -, hspawned⟩ :=
      eval_workerLoop isException stopped respond (signalsOf r) env 0 hhandlers claims
    obtain ⟨request, hmem, h⟩ := hspawned c hc
    exact ⟨env, claims, request, hw, hmem, h⟩
  have hborn : ∀ r o, Born r o → ∀ sig, ∀ c ∈ (o.2.eval sig o.1 0).spawned, Born r c := by
    rintro r o ⟨env, claims, request, hw, hmem, henv, hall⟩ sig c hc
    exact ⟨env, claims, request, hw, hmem, (Prog.eval_allSet sig 0 henv hall).2 c hc⟩
  rcases System.first_or_born hfirst hborn hrun ht with ⟨-, ho⟩ | ⟨env, claims, request, hw, hmem, henv, hall⟩
  · obtain ⟨env, claims, hw, ho⟩ := horigin i _ ho
    have hreads := hlex.sofar.1
    obtain ⟨runs, hruns, heval, hown, -⟩ :=
      eval_workerLoop isException stopped respond (signalsOf i) env 0 hhandlers claims
    rw [ho, heval] at hreads
    exact .inl ⟨env, claims, runs, hw, hruns, hreads, fun run hr v hv => hown run hr _ hv⟩
  · refine .inr ⟨env, claims, request, hw, hmem, henv .run, fun v hv => ?_⟩
    exact (Prog.eval_allSet _ 0 henv hall).1 _ (hlex.sofar.1.subset hv)

/-- An agent that is suspended before it asks for its run. -/
def asking : InvocationRequest → Prog ContextVar.Value String Unit :=
  handle (.returns ()) fun _ => .suspend fun _ => currentRun fun _ => .returns ()

theorem allSet_asking (request : InvocationRequest) : (asking request).AllSet (OfRun request) :=
  allSet_handle trivial fun _ _ _ => trivial

/-- Two workers with a run each. The second run begins while the agent of the first is suspended. -/
def twoRuns : Py.System ContextVar.Value String Unit :=
  workerTasks (fun _ => true) () (invokeIn (fun _ o => o.getD (.ok ())) (.ofList [("asking", asking)]))
    [(fun _ => none, [some (buildInvocationRequest "r1" "asking" "t1" .empty 1)]),
     (fun _ => none, [some (buildInvocationRequest "r2" "asking" "t2" .empty 1)])]

theorem agents_see_own_run_two : ∃ s t,
      Machine.run (System.step fun _ _ => none) twoRuns [0, 0, 0, 1, 1, 1, 1, 0, 1, 0] = some s ∧
        s[0]? = some t ∧ t.reads ≠ [] ∧
      ∀ v, ⟨.run, v⟩ ∈ t.reads → v = some (runContext (buildInvocationRequest "r1" "asking" "t1" .empty 1)) := by
  have hhandlers : ∀ name handler, (Dict.ofList [("asking", asking)]).get? name = some handler →
      ∀ request, (handler request).AllSet (OfRun request) := by
    intro name handler h request
    have hget : (name, handler) ∈ [("asking", asking)] := Dict.get?_eq_some_iff.mp h
    cases List.mem_singleton.mp hget
    exact allSet_asking request
  have hrun : Machine.run (System.step fun _ _ => none) twoRuns [0, 0, 0, 1, 1, 1, 1, 0, 1, 0] = some _ := rfl
  refine ⟨_, _, hrun, rfl, List.cons_ne_nil _ _, ?_⟩
  obtain ⟨-, ⟨env, claims, runs, hw, hruns, hreads, hown⟩ | ⟨env, claims, request, hw, hmem, -, hown⟩⟩ :=
    agents_see_own_run (i := 0) hhandlers hrun rfl
  · cases hw
    intro v hv
    obtain ⟨l, hl, hv⟩ := List.mem_flatten.mp (hreads.subset hv)
    obtain ⟨run, hr, rfl⟩ := List.mem_map.mp hl
    have hreq := hruns.subset (List.mem_map_of_mem hr)
    rw [hown run hr v hv, List.mem_singleton.mp hreq]
  · cases hw
    cases List.mem_singleton.mp hmem
    exact hown

-- ---------------------------------------------------------------------------
-- Tenants
-- ---------------------------------------------------------------------------

def OfTenant (tenant : TenantContext) : (x : ContextVar) → Option x.Value → Prop
  | .ctx, v => v = some tenant
  | .run, _ => True

/-- A block of `with_tenant`, where it is entered. -/
structure Block (ε ρ : Type) where
  env : Context ContextVar.Value
  tenant : TenantContext
  body : Prog ContextVar.Value ε ρ

def Block.task (b : Block ε ρ) : Context ContextVar.Value × Prog ContextVar.Value ε ρ :=
  (b.env, withTenant b.tenant b.body)

theorem eval_withTenant {b : Block ε ρ} (hbody : b.body.AllSet (OfTenant b.tenant)) :
    (∀ r ∈ (b.task.2.eval signals b.task.1 n).reads, OfTenant b.tenant r.1 r.2) ∧
      ∀ o ∈ (b.task.2.eval signals b.task.1 n).spawned,
        (∀ x, OfTenant b.tenant x (o.1 x)) ∧ o.2.AllSet (OfTenant b.tenant) := by
  have hbound : ∀ x, OfTenant b.tenant x (Function.update b.env ContextVar.ctx (some b.tenant) x) := by
    intro x
    cases x with
    | ctx => exact Function.update_self ..
    | run => trivial
  obtain ⟨hreads, hspawned⟩ := Prog.eval_allSet signals n hbound hbody
  simp only [Block.task, withTenant, Prog.eval, Run.after, (eval_ended _ _).1, (eval_ended _ _).2, List.append_nil]
  exact ⟨hreads, hspawned⟩

/-- What is read in the tasks that come of a block is the tenant of the block. -/
theorem reads_of_block {blocks : List (Block ε ρ)} (hbodies : ∀ b ∈ blocks, b.body.AllSet (OfTenant b.tenant))
    (hrun : Machine.run (System.step signalsOf) (System.start (blocks.map Block.task)) schedule = some s)
    (ht : s[i]? = some t) : ∃ b, blocks[t.root]? = some b ∧ ∀ v, ⟨.ctx, v⟩ ∈ t.reads → v = some b.tenant := by
  have hlex := System.lexical hrun ht
  have horigin : ∀ (r : Nat) (o : Context ContextVar.Value × Prog ContextVar.Value ε ρ),
      (blocks.map Block.task)[r]? = some o →
        ∃ b, blocks[r]? = some b ∧ b.body.AllSet (OfTenant b.tenant) ∧ o = b.task := by
    intro r o ho
    rw [List.getElem?_map] at ho
    obtain ⟨b, hb, rfl⟩ := Option.map_eq_some_iff.mp ho
    exact ⟨b, hb, hbodies b (List.mem_of_getElem? hb), rfl⟩
  let Born (r : Nat) (o : Context ContextVar.Value × Prog ContextVar.Value ε ρ) : Prop :=
    ∃ b, blocks[r]? = some b ∧ (∀ x, OfTenant b.tenant x (o.1 x)) ∧ o.2.AllSet (OfTenant b.tenant)
  have hfirst : ∀ r o, (blocks.map Block.task)[r]? = some o →
      ∀ c ∈ (o.2.eval (signalsOf r) o.1 0).spawned, Born r c := by
    intro r o ho c hc
    obtain ⟨b, hb, hbody, rfl⟩ := horigin r o ho
    exact ⟨b, hb, (eval_withTenant hbody).2 c hc⟩
  have hborn : ∀ r o, Born r o → ∀ sig, ∀ c ∈ (o.2.eval sig o.1 0).spawned, Born r c := by
    rintro r o ⟨b, hb, henv, hall⟩ sig c hc
    exact ⟨b, hb, (Prog.eval_allSet sig 0 henv hall).2 c hc⟩
  rcases System.first_or_born hfirst hborn hrun ht with ⟨hroot, ho⟩ | ⟨b, hb, henv, hall⟩
  · obtain ⟨b, hb, hbody, ho⟩ := horigin i _ ho
    have hreads := hlex.sofar.1
    rw [ho] at hreads
    exact ⟨b, hroot ▸ hb, fun v hv => (eval_withTenant hbody).1 _ (hreads.subset hv)⟩
  · exact ⟨b, hb, fun v hv => (Prog.eval_allSet _ 0 henv hall).1 _ (hlex.sofar.1.subset hv)⟩

/-- In whatever order tasks run, what is read in a block of `with_tenant`, and in the tasks and threads
that come of it, is its tenant, as long as it is not set to another there. Behind the block the context is
what it was before, however the block has ended. -/
theorem blocks_see_own_tenant {blocks : List (Block ε ρ)}
    (hbodies : ∀ b ∈ blocks, b.body.AllSet (OfTenant b.tenant))
    (hrun : Machine.run (System.step signalsOf) (System.start (blocks.map Block.task)) schedule = some s)
    (ht : s[i]? = some t) :
    (t.frames = [] → t.context = t.origin.1) ∧
      ∃ b, blocks[t.root]? = some b ∧ ∀ v, ⟨.ctx, v⟩ ∈ t.reads → v = some b.tenant :=
  ⟨(System.lexical hrun ht).sofar.2.2, reads_of_block hbodies hrun ht⟩

/-- The tenant is named by a header. -/
theorem exists_header_of_fromHeaders {lower : String → String} {headers : Dict String String} {tenant : TenantContext}
    (h : fromHeaders lower headers = .ok tenant) :
    ∃ e ∈ headers.entries, lower e.1 = "x-intelliqx-tenant" ∧ e.2 = tenant.tenantId := by
  unfold fromHeaders at h
  simp only at h
  split at h
  · cases h
  · rename_i tid htid
    split at h
    · cases h
    · cases h
      exact Dict.exists_of_get?_index htid

/-- Where blocks are entered with the tenants that requests name in their headers, no request gets to
see another tenant than its own. -/
theorem requests_see_own_tenant {lower : String → String} {requests : List (Dict String String × Block ε ρ)}
    (hheaders : ∀ r ∈ requests, fromHeaders lower r.1 = .ok r.2.tenant)
    (hbodies : ∀ r ∈ requests, r.2.body.AllSet (OfTenant r.2.tenant))
    (hrun : Machine.run (System.step signalsOf) (System.start (requests.map fun r => r.2.task)) schedule = some s)
    (ht : s[i]? = some t) :
    ∃ headers block, requests[t.root]? = some (headers, block) ∧ ∀ v, ⟨.ctx, v⟩ ∈ t.reads →
      ∃ tenant : TenantContext, v = some tenant ∧
        ∃ e ∈ headers.entries, lower e.1 = "x-intelliqx-tenant" ∧ e.2 = tenant.tenantId := by
  have hmap : requests.map (fun r => r.2.task) = (requests.map Prod.snd).map Block.task := by
    rw [List.map_map]
    rfl
  rw [hmap] at hrun
  have hbodies' : ∀ b ∈ requests.map Prod.snd, b.body.AllSet (OfTenant b.tenant) := by
    intro b hb
    obtain ⟨r, hr, rfl⟩ := List.mem_map.mp hb
    exact hbodies r hr
  obtain ⟨b, hb, hreads⟩ := reads_of_block hbodies' hrun ht
  rw [List.getElem?_map] at hb
  obtain ⟨⟨headers, block⟩, hr, rfl⟩ := Option.map_eq_some_iff.mp hb
  have hheader := exists_header_of_fromHeaders (hheaders _ (List.mem_of_getElem? hr))
  exact ⟨headers, block, hr, fun v hv => ⟨block.tenant, hreads v hv, hheader⟩⟩

def acme : TenantContext where
  tenantId := "acme"
  accepted h := absurd (congrArg String.length h) (by simp)

def globex : TenantContext where
  tenantId := "globex"
  accepted h := absurd (congrArg String.length h) (by simp)

def askingTenant : Prog ContextVar.Value String Unit :=
  .spawn (currentTenant fun _ => .returns ()) (.suspend fun _ => currentTenant fun _ => .raises "cancelled")

/-- Each creates a task that asks, is suspended and asks itself. -/
def twoBlocks : List (Block String Unit) :=
  [⟨fun _ => none, acme, askingTenant⟩, ⟨fun _ => none, globex, askingTenant⟩]

theorem blocks_see_own_tenant_two : ∃ s t, Machine.run (System.step fun _ _ => none)
      (System.start (twoBlocks.map Block.task))
      [0, 1, 0, 1, 2, 1, 0, 3, 0, 1, 0] = some s ∧ s[2]? = some t ∧ t.reads ≠ [] ∧
      ∀ v, ⟨.ctx, v⟩ ∈ t.reads → v = some acme := by
  have hbodies : ∀ b ∈ twoBlocks, b.body.AllSet (OfTenant b.tenant) := by
    intro b hb
    have hbody : ∀ tenant, askingTenant.AllSet (OfTenant tenant) :=
      fun _ => ⟨fun _ _ => trivial, fun _ _ _ => trivial⟩
    rcases List.mem_cons.mp hb with rfl | hb
    · exact hbody acme
    · rw [List.mem_singleton.mp hb]
      exact hbody globex
  have hrun : Machine.run (System.step fun _ _ => none) (System.start (twoBlocks.map Block.task))
      [0, 1, 0, 1, 2, 1, 0, 3, 0, 1, 0] = some _ := rfl
  refine ⟨_, _, hrun, rfl, List.cons_ne_nil _ _, ?_⟩
  obtain ⟨-, b, hb, hown⟩ := blocks_see_own_tenant (i := 2) hbodies hrun rfl
  cases hb
  exact hown

end

end Intelliqx.Compute
