import Intelliqx.Base.Dict
import Intelliqx.Py.Coroutine
import Intelliqx.Py.Json

/-!
# The in-process compute runtime

`invoke` runs the handler of an agent under a timeout and tells how it went by
the status of its response. `invoke_classifies_iff` says which handlers are told
apart as they should be.
-/

namespace Intelliqx.Compute

open Py

abbrev Attrs := Dict String PyValue

-- ---------------------------------------------------------------------------
-- Requests and responses
-- ---------------------------------------------------------------------------

structure InvocationRequest where
  agentName : String
  input : Attrs
  tenantId : String
  timeoutSeconds : Int := 300
  metadata : Attrs := .empty

structure InvocationResponse where
  agentName : String
  output : Attrs
  durationMs : Nat
  status : String := "ok"
  error : Option String := none

/-- What leaves `invoke` other than by a response. -/
inductive Escape
  /-- The output of the handler is no `dict[str, Any]`, or the text of its
  exception no Unicode. -/
  | validationError
  /-- `str()` of the exception raised by the handler raises. -/
  | textRaised (e : Raised)

/-- What `invoke` needs of Python and pydantic: `repr` of a text, and a value
read as `dict[str, Any]`. -/
structure Reading (ν : Type) where
  repr : String → String
  output : ν → Option Attrs

/-- An async handler. Values are of any type. -/
abbrev AgentCallable (ν : Type) := InvocationRequest → Coroutine ν

abbrev Handlers (ν : Type) := Dict String (AgentCallable ν)

def register (handlers : Handlers ν) (agentName : String) (handler : AgentCallable ν) : Handlers ν :=
  handlers.insert agentName handler

-- ---------------------------------------------------------------------------
-- Invoking
-- ---------------------------------------------------------------------------

def failed (request : InvocationRequest) (ms : Nat) (status error : String) : InvocationResponse where
  agentName := request.agentName
  output := .empty
  durationMs := ms
  status := status
  error := some error

/-- The response to what came out of `wait_for`. -/
def respond (rd : Reading ν) (request : InvocationRequest) (ms : Nat) : Ending ν → Except Escape InvocationResponse
  | .raises e =>
    -- `except TimeoutError` comes first, whoever has raised it
    if e.isTimeoutError then .ok (failed request ms "timeout" "Invocation timed out")
    else match e.text with
      | .text text => .ok (failed request ms "error" (e.typeName ++ ": " ++ text))
      | .notUnicode => .error .validationError
      | .raises => .error (.textRaised e)
  | .returns v =>
    match rd.output v with
    | some output => .ok { agentName := request.agentName, output := output, durationMs := ms }
    | none => .error .validationError

/-- `invoke`; `none` where it never ends. -/
def invoke (rd : Reading ν) (handlers : Handlers ν) (request : InvocationRequest) :
    Option (Except Escape InvocationResponse) :=
  match handlers.get? request.agentName with
  | none => some (.ok (failed request 0 "not_found" ("No handler registered for agent " ++ rd.repr request.agentName)))
  | some handler =>
    ((handler request).waitFor request.timeoutSeconds).map fun waited => respond rd request waited.1 waited.2

-- ---------------------------------------------------------------------------
-- How it should go
-- ---------------------------------------------------------------------------

/-- The status of a run that ends in time, or does not. -/
def expectedStatus (rd : Reading ν) : Option (Ending ν) → String
  | none => "timeout"
  | some (.raises _) => "error"
  | some (.returns v) => if (rd.output v).isSome then "ok" else "error"

/-- `invoke` responds, with the status the handler has earned. -/
def Classified (rd : Reading ν) (handlers : Handlers ν) (request : InvocationRequest) (handler : AgentCallable ν) :
    Prop :=
  ∃ response, invoke rd handlers request = some (.ok response) ∧
    response.status = expectedStatus rd ((handler request).inTime request.timeoutSeconds)

/-- Whether an exception can be told. -/
def tellable (e : Raised) : Bool :=
  match e.text with
  | .text _ => true
  | .notUnicode | .raises => false

/-- Whether a run ends in time by an exception or without a valid output. -/
def fails (rd : Reading ν) : Option (Ending ν) → Bool
  | some (.raises _) => true
  | some (.returns v) => (rd.output v).isNone
  | none => false

/-- Whether `CancelledError` leaves it, or a `TimeoutError` instead. -/
def givesUpOnCancel : OnCancel ν → Bool
  | .stops _ => true
  | .ends _ (.raises e) => e.isTimeoutError
  | .ends _ (.returns _) | .never => false

/-- Whether a coroutine gives up at its deadline: where it is suspended then (by
a yield that begins behind the deadline: where it is suspended next), by letting
`CancelledError` or a `TimeoutError` out; when it goes on to its end, by raising
a `TimeoutError` there. -/
def givesUp (deadline : Nat) (due : Bool) (now : Nat) : Coroutine ν → Bool
  | .ends (.raises e) => e.isTimeoutError
  | .ends (.returns _) => false
  | .works ms next => ms.any fun d => givesUp deadline due (now + d) next
  | .yields next onCancel =>
    if due then givesUpOnCancel onCancel else givesUp deadline (decide (deadline ≤ now)) now next
  | .awaits ms next onCancel =>
    match ms with
    | some d => if now + d < deadline then givesUp deadline due (now + d) next else givesUpOnCancel onCancel
    | none => givesUpOnCancel onCancel

/-- What a handler is asked for: in time, a valid output or an exception that
can be told and is no `TimeoutError`; late, to give up. Under a timeout that is
no float it has to fail. -/
def Orderly (rd : Reading ν) (seconds : Int) (c : Coroutine ν) : Prop :=
  if floatLimit ≤ seconds then fails rd (c.inTime seconds) = true
  else match c.inTime seconds with
    | some (.returns v) => (rd.output v).isSome
    | some (.raises e) => e.isTimeoutError = false ∧ tellable e
    | none => seconds ≤ 0 ∨ givesUp (seconds.toNat * 1000) false 0 c

-- ---------------------------------------------------------------------------
-- Late handlers
-- ---------------------------------------------------------------------------

/-- Whether `invoke` takes it for a timeout. -/
def isTimeout : Ending ν → Bool
  | .raises e => e.isTimeoutError
  | .returns _ => false

section
variable {rd : Reading ν} {handlers : Handlers ν} {request : InvocationRequest} {handler : AgentCallable ν}
  {c : Coroutine ν} {onCancel : OnCancel ν} {e : Ending ν} {deadline now ms : Nat} {due : Bool} {seconds : Int}

theorem one_lt_floatLimit : 1 < floatLimit := by decide +kernel

theorem givesUpOnCancel_eq : givesUpOnCancel onCancel = (onCancel.result now).any fun w => isTimeout w.2 := by
  cases onCancel with
  | stops ms => rfl
  | ends ms e => cases e <;> rfl
  | never => rfl

theorem givesUp_eq : givesUp deadline due now c = (c.waitUntil deadline due now).any fun w => isTimeout w.2 := by
  induction c generalizing now due with
  | ends e => cases e <;> rfl
  | works ms next ih =>
    cases ms with
    | none => rfl
    | some d => exact ih
  | yields next onCancel ih =>
    rw [givesUp, Coroutine.waitUntil]
    split
    · exact givesUpOnCancel_eq
    · exact ih
  | awaits ms next onCancel ih =>
    cases ms with
    | none => exact givesUpOnCancel_eq
    | some d =>
      rw [givesUp, Coroutine.waitUntil]
      split
      · exact ih
      · exact givesUpOnCancel_eq

theorem respond_timeout_iff :
    (∃ response, respond rd request ms e = .ok response ∧ response.status = "timeout") ↔ isTimeout e := by
  cases e with
  | raises e =>
    cases hown : e.isTimeoutError with
    | true => simp [respond, isTimeout, hown, failed]
    | false => cases htext : e.text <;> simp [respond, isTimeout, hown, htext, failed]
  | returns v => cases hout : rd.output v <;> simp [respond, isTimeout, hout]

theorem late_iff (hfloat : seconds < floatLimit) :
    seconds ≤ 0 ∨ givesUp (seconds.toNat * 1000) false 0 c ↔ (c.waitFor seconds).any fun w => isTimeout w.2 := by
  rw [givesUp_eq, Coroutine.waitFor]
  split
  · rename_i htime
    exact iff_of_true (.inl htime) rfl
  · rename_i htime
    rw [if_neg (Int.not_le.mpr hfloat)]
    exact or_iff_right htime

/-- The response to a run that ended in time. -/
theorem respond_ended_iff :
    (∃ response, respond rd request ms e = .ok response ∧ response.status = expectedStatus rd (some e)) ↔
      match e with
      | .returns v => (rd.output v).isSome
      | .raises e => e.isTimeoutError = false ∧ tellable e := by
  cases e with
  | raises e =>
    cases hown : e.isTimeoutError with
    | true => simp [respond, expectedStatus, hown, failed]
    | false => cases htext : e.text <;> simp [respond, expectedStatus, hown, htext, failed, tellable]
  | returns v => cases hout : rd.output v <;> simp [respond, expectedStatus, hout]

theorem fails_iff {ended : Option (Ending ν)} : fails rd ended ↔ "error" = expectedStatus rd ended := by
  cases ended with
  | none => simp [fails, expectedStatus]
  | some e =>
    cases e with
    | raises e => simp [fails, expectedStatus]
    | returns v => cases hout : rd.output v <;> simp [fails, expectedStatus, hout]

/-- `wait_for` refuses a timeout that is no float, and the handler never runs. -/
theorem respond_overflow (rd : Reading ν) (request : InvocationRequest) (hfloat : floatLimit ≤ seconds) :
    ∃ response, ((c.waitFor seconds).map fun waited => respond rd request waited.1 waited.2) = some (.ok response) ∧
      response.status = "error" := by
  have hwait : c.waitFor seconds = some (0, .raises overflowError) := by
    rw [Coroutine.waitFor, if_neg (by have := one_lt_floatLimit; omega), if_pos hfloat]
  rw [hwait]
  exact ⟨_, rfl, rfl⟩

/-- `invoke` tells handlers apart as it should exactly where they are orderly. -/
theorem invoke_classifies_iff (h : handlers.get? request.agentName = some handler) :
    Classified rd handlers request handler ↔ Orderly rd request.timeoutSeconds (handler request) := by
  have hinvoke : invoke rd handlers request = ((handler request).waitFor request.timeoutSeconds).map
      fun waited => respond rd request waited.1 waited.2 := by rw [invoke, h]
  rw [Classified, hinvoke, Orderly]
  split
  · rename_i hfloat
    obtain ⟨response, hresponse, hstatus⟩ := respond_overflow rd request hfloat
    rw [hresponse, fails_iff, ← hstatus]
    exact ⟨fun ⟨_, h, hexpected⟩ => by cases h; exact hexpected, fun hexpected => ⟨_, rfl, hexpected⟩⟩
  · rename_i hfloat
    replace hfloat := Int.not_le.mp hfloat
    cases htime : (handler request).inTime request.timeoutSeconds with
    | some e =>
      obtain ⟨ms, hwait⟩ := Coroutine.waitFor_of_inTime htime hfloat
      rw [hwait]
      simp only [Option.map_some, Option.some.injEq]
      rw [respond_ended_iff]
      cases e <;> rfl
    | none =>
      simp only [expectedStatus]
      rw [late_iff hfloat]
      cases (handler request).waitFor request.timeoutSeconds with
      | none => simp
      | some waited =>
        simp only [Option.map_some, Option.some.injEq, Option.any_some]
        exact respond_timeout_iff

end

-- ---------------------------------------------------------------------------
-- Two handlers
-- ---------------------------------------------------------------------------

/-- Only dictionaries with text keys are outputs. -/
def plainReading : Reading (Option Attrs) := ⟨fun s => "'" ++ s ++ "'", id⟩

def echoRequest : InvocationRequest where
  agentName := "echo"
  input := .empty
  tenantId := "t1"
  timeoutSeconds := 1

/-- Suspended for a minute; it does not catch `CancelledError`. -/
def sleeper : AgentCallable (Option Attrs) := fun _ => .awaits (some 60000) (.ends (.returns (some .empty))) (.stops 0)

theorem sleeper_times_out : Classified plainReading (register .empty "echo" sleeper) echoRequest sleeper := by
  have horderly : Orderly plainReading echoRequest.timeoutSeconds (sleeper echoRequest) := by
    have hfloat : ¬ floatLimit ≤ echoRequest.timeoutSeconds := Int.not_le.mpr one_lt_floatLimit
    have hlate : (sleeper echoRequest).inTime echoRequest.timeoutSeconds = none := by decide +kernel
    rw [Orderly, if_neg hfloat, hlate]
    exact .inr (by decide +kernel)
  exact (invoke_classifies_iff rfl).mpr horderly

/-- A handler that forgets its return value. -/
def forgetful : AgentCallable (Option Attrs) := fun _ => .ends (.returns none)

theorem forgetful_escapes :
    invoke plainReading (register .empty "echo" forgetful) echoRequest = some (.error .validationError) ∧
      ¬ Classified plainReading (register .empty "echo" forgetful) echoRequest forgetful := by
  have hraises : invoke plainReading (register .empty "echo" forgetful) echoRequest =
      some (.error .validationError) := by
    have hwait : (forgetful echoRequest).waitFor 1 = some (0, .returns none) := by
      rw [Coroutine.waitFor, if_neg (by decide), if_neg (Int.not_le.mpr one_lt_floatLimit)]
      rfl
    change ((forgetful echoRequest).waitFor 1).map _ = _
    rw [hwait]
    rfl
  refine ⟨hraises, ?_⟩
  rintro ⟨response, h, -⟩
  rw [hraises] at h
  cases h

end Intelliqx.Compute
