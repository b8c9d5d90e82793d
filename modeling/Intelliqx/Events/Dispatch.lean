import Intelliqx.Base.Machine
import Intelliqx.Events.Bus
import Intelliqx.Py.Json

/-!
# Dispatch

`System` is one bus with any number of `publish` calls in progress. A handler
may subscribe, unsubscribe, reset and publish while it runs, and an awaited one
lets every other caller do so, hence the steps of all of them may fall between
any two steps of a publish. `log` is what the callers and the handlers have
seen, and the statements below read everything off it.
-/

namespace Intelliqx.Events

open Machine (run run_append run_countdown)
open Py (PyException truthy)

/-- How an invocation ends. `interrupted` is by an exception that is no
`Exception`, as a cancellation is, which `except Exception` lets through. -/
inductive HandlerResult
  | returned
  | raised (exc : PyException)
  | interrupted (exc : PyException)
  deriving DecidableEq

/-- The `except` clause: the bus after it, or the exception it lets through. -/
def InMemoryEventBus.settle (self : InMemoryEventBus) (event : Event) (handler : EventHandler) :
    HandlerResult → Except PyException InMemoryEventBus
  | .returned => .ok self
  | .raised exc =>
    if (truthy handler.dlq).isSome then .ok (self.park event handler.dlq) else .error exc
  | .interrupted exc => .error exc

inductive Status
  | looping
  | running (handler : EventHandler)
  | returned (eventId : String)
  | raised (exc : PyException)
  deriving DecidableEq

/-- A `publish` call: the list it iterates over and what is left of it. -/
structure Publish where
  event : Event
  snapshot : List EventHandler
  remaining : List EventHandler
  status : Status
  deriving DecidableEq

inductive Effect
  | subscribed (subscription : Subscription)
  | unsubscribed (subscriptionId : Option String)
  | cleared
  | invoked (p : Nat) (event : Event) (handler : EventHandler)
  | ended (p : Nat) (event : Event) (handler : EventHandler) (result : HandlerResult)
  deriving DecidableEq

/-- `fresh` is the next object, so no two handler objects share their `ident`. -/
structure System where
  bus : InMemoryEventBus
  publishes : List Publish
  fresh : Nat
  log : List Effect
  deriving DecidableEq

inductive Action
  | subscribe (topic : String) (handler : Subscriber) (dlq : Option String)
  | unsubscribe (subscriptionId : Option String)
  | reset
  | publish (topic : String) (event : Event)
  /-- The loop takes its next handler and calls it, or ends. -/
  | advance (p : Nat)
  | finish (p : Nat) (result : HandlerResult)
  deriving DecidableEq

namespace System

def start : System := ⟨.empty, [], 0, []⟩

def record (s : System) (p : Nat) (f : Publish) (effects : List Effect) : System :=
  { s with publishes := s.publishes.set p f, log := s.log ++ effects }

/-- `none` where the publish call is not at that point. -/
def step (s : System) : Action → Option System
  | .subscribe topic handler dlq =>
    match s.bus.subscribe s.fresh topic handler dlq, registered s.fresh handler dlq with
    | (some id, bus), some handler =>
      some { s with bus, fresh := s.fresh + 1, log := s.log ++ [.subscribed ⟨id, topic, handler⟩] }
    | (_, bus), _ => some { s with bus }
  | .unsubscribe subscriptionId =>
    some { s with bus := s.bus.unsubscribe subscriptionId, log := s.log ++ [.unsubscribed subscriptionId] }
  | .reset => some { s with bus := s.bus.reset, log := s.log ++ [.cleared] }
  | .publish topic event =>
    let snapshot := s.bus.handlers topic
    some { s with publishes := s.publishes ++ [⟨event, snapshot, snapshot, .looping⟩] }
  | .advance p =>
    match s.publishes[p]? with
    | some ⟨event, snapshot, handler :: remaining, .looping⟩ =>
      some (s.record p ⟨event, snapshot, remaining, .running handler⟩ [.invoked p event handler])
    | some ⟨event, snapshot, [], .looping⟩ =>
      some (s.record p ⟨event, snapshot, [], .returned event.publishedId⟩ [])
    | _ => none
  | .finish p result =>
    match s.publishes[p]? with
    | some ⟨event, snapshot, remaining, .running handler⟩ =>
      match s.bus.settle event handler result with
      | .ok bus =>
        some (record { s with bus } p ⟨event, snapshot, remaining, .looping⟩
          [.ended p event handler result])
      | .error exc =>
        some (s.record p ⟨event, snapshot, remaining, .raised exc⟩ [.ended p event handler result])
    | _ => none

end System

-- ---------------------------------------------------------------------------
-- What the log says
-- ---------------------------------------------------------------------------

def Effect.onLive (live : List Subscription) : Effect → List Subscription
  | .subscribed subscription => live ++ [subscription]
  | .unsubscribed (some id) => live.filter (·.id ≠ id)
  | .unsubscribed none | .cleared => []
  | _ => live

/-- The subscriptions made and not removed, in the order they were made. -/
def live (log : List Effect) : List Subscription := log.foldl Effect.onLive []

def Effect.invokedBy (p : Nat) (event : Event) : Effect → Option EventHandler
  | .invoked q event' handler => if q = p ∧ event' = event then some handler else none
  | _ => none

def Effect.outcomeOf (p : Nat) (event : Event) : Effect → Option (EventHandler × HandlerResult)
  | .ended q event' handler result => if q = p ∧ event' = event then some (handler, result) else none
  | _ => none

/-- The handlers a publish has invoked with its event, in order. -/
def invokedBy (p : Nat) (event : Event) (log : List Effect) : List EventHandler :=
  log.filterMap (Effect.invokedBy p event)

/-- The invocations of a publish that have ended, in order, and how. -/
def outcomesOf (p : Nat) (event : Event) (log : List Effect) : List (EventHandler × HandlerResult) :=
  log.filterMap (Effect.outcomeOf p event)

/-- The DLQ of a handler that raised an `Exception`. -/
def parkedIn (handler : EventHandler) : HandlerResult → Option String
  | .raised _ => truthy handler.dlq
  | _ => none

/-- The exception that ends the publish: that of a handler without a DLQ, or one
that is no `Exception`. -/
def escaping (handler : EventHandler) : HandlerResult → Option PyException
  | .returned => none
  | .raised exc => if (truthy handler.dlq).isSome then none else some exc
  | .interrupted exc => some exc

def Effect.onDlq (dlqName : String) (parked : List Event) : Effect → List Event
  | .cleared => []
  | .ended _ event handler result =>
    if parkedIn handler result = some dlqName then parked ++ [event] else parked
  | _ => parked

/-- The events of the invocations, since the last reset, that went to the DLQ. -/
def parked (dlqName : String) (log : List Effect) : List Event := log.foldl (Effect.onDlq dlqName) []

section
variable {log : List Effect} {e : Effect} {p : Nat} {event : Event}

@[simp] theorem live_append : live (log ++ [e]) = e.onLive (live log) := by simp [live]

@[simp] theorem parked_append : parked d (log ++ [e]) = e.onDlq d (parked d log) := by simp [parked]

@[simp] theorem invokedBy_append {effects : List Effect} :
    invokedBy p event (log ++ effects) = invokedBy p event log ++ invokedBy p event effects :=
  List.filterMap_append

@[simp] theorem outcomesOf_append {effects : List Effect} :
    outcomesOf p event (log ++ effects) = outcomesOf p event log ++ outcomesOf p event effects :=
  List.filterMap_append

@[simp] theorem invokedBy_nil : invokedBy p event [] = [] := rfl

@[simp] theorem outcomesOf_nil : outcomesOf p event [] = [] := rfl

@[simp] theorem invokedBy_invoked {handler : EventHandler} :
    invokedBy p event [.invoked q event' handler] = if q = p ∧ event' = event then [handler] else [] := by
  simp only [invokedBy, Effect.invokedBy, List.filterMap_cons, List.filterMap_nil]
  split <;> simp_all

@[simp] theorem outcomesOf_ended {handler : EventHandler} {result : HandlerResult} :
    outcomesOf p event [.ended q event' handler result] =
      if q = p ∧ event' = event then [(handler, result)] else [] := by
  simp only [outcomesOf, Effect.outcomeOf, List.filterMap_cons, List.filterMap_nil]
  split <;> simp_all

@[simp] theorem outcomesOf_invoked {handler : EventHandler} :
    outcomesOf p event [.invoked q event' handler] = [] := rfl

@[simp] theorem invokedBy_ended {handler : EventHandler} {result : HandlerResult} :
    invokedBy p event [.ended q event' handler result] = [] := rfl

end

-- ---------------------------------------------------------------------------
-- One publish
-- ---------------------------------------------------------------------------

/-- None of the invocations let an exception through. -/
def Absorbed (outcomes : List (EventHandler × HandlerResult)) : Prop :=
  ∀ o ∈ outcomes, escaping o.1 o.2 = none

def Status.running? : Status → List EventHandler
  | .running handler => [handler]
  | _ => []

/-- What the status says of the invocations that have ended. -/
def Verdict (f : Publish) (outcomes : List (EventHandler × HandlerResult)) : Prop :=
  match f.status with
  | .looping | .running _ => Absorbed outcomes
  | .returned eventId => Absorbed outcomes ∧ f.remaining = [] ∧ eventId = f.event.publishedId
  | .raised exc => ∃ earlier handler result, outcomes = earlier ++ [(handler, result)] ∧
      Absorbed earlier ∧ escaping handler result = some exc

/-- The publish has invoked its snapshot in order, each handler once, all of it
when it returns and up to the exception when it raises. -/
structure Dispatched (f : Publish) (invoked : List EventHandler)
    (outcomes : List (EventHandler × HandlerResult)) : Prop where
  inOrder : f.snapshot = invoked ++ f.remaining
  ended : invoked = outcomes.map Prod.fst ++ f.status.running?
  verdict : Verdict f outcomes

section
variable {event : Event} {snapshot remaining invoked : List EventHandler} {handler : EventHandler}
  {outcomes : List (EventHandler × HandlerResult)} {result : HandlerResult} {exc : PyException}

theorem Absorbed.snoc (h : Absorbed outcomes) (hr : escaping handler result = none) :
    Absorbed (outcomes ++ [(handler, result)]) := by
  intro o ho
  rcases List.mem_append.mp ho with ho | ho
  · exact h o ho
  · cases List.mem_singleton.mp ho
    exact hr

theorem Dispatched.start : Dispatched ⟨event, snapshot, snapshot, .looping⟩ [] [] where
  inOrder := rfl
  ended := rfl
  verdict _ ho := absurd ho List.not_mem_nil

theorem Dispatched.invoke
    (h : Dispatched ⟨event, snapshot, handler :: remaining, .looping⟩ invoked outcomes) :
    Dispatched ⟨event, snapshot, remaining, .running handler⟩ (invoked ++ [handler]) outcomes where
  inOrder := by simpa using h.inOrder
  ended := by simpa [Status.running?] using h.ended
  verdict := h.verdict

theorem Dispatched.return (h : Dispatched ⟨event, snapshot, [], .looping⟩ invoked outcomes) :
    Dispatched ⟨event, snapshot, [], .returned event.publishedId⟩ invoked outcomes where
  inOrder := h.inOrder
  ended := h.ended
  verdict := ⟨h.verdict, rfl, rfl⟩

theorem Dispatched.continue
    (h : Dispatched ⟨event, snapshot, remaining, .running handler⟩ invoked outcomes)
    (hr : escaping handler result = none) :
    Dispatched ⟨event, snapshot, remaining, .looping⟩ invoked (outcomes ++ [(handler, result)]) where
  inOrder := h.inOrder
  ended := by simpa [Status.running?] using h.ended
  verdict := Absorbed.snoc h.verdict hr

theorem Dispatched.raise
    (h : Dispatched ⟨event, snapshot, remaining, .running handler⟩ invoked outcomes)
    (hr : escaping handler result = some exc) :
    Dispatched ⟨event, snapshot, remaining, .raised exc⟩ invoked (outcomes ++ [(handler, result)]) where
  inOrder := h.inOrder
  ended := by simpa [Status.running?] using h.ended
  verdict := ⟨outcomes, handler, result, rfl, h.verdict, hr⟩

end

-- ---------------------------------------------------------------------------
-- All of them
-- ---------------------------------------------------------------------------

structure Serves (publishes : List Publish) (log : List Effect) : Prop where
  dispatched : ∀ p f, publishes[p]? = some f →
    Dispatched f (invokedBy p f.event log) (outcomesOf p f.event log)
  unstarted : ∀ p event, publishes.length ≤ p → invokedBy p event log = [] ∧ outcomesOf p event log = []

section
variable {publishes : List Publish} {log effects : List Effect} {f f' : Publish} {p : Nat}

/-- An effect of no publish. -/
theorem Serves.quiet {e : Effect} (h : Serves publishes log)
    (he : ∀ p event, e.invokedBy p event = none ∧ e.outcomeOf p event = none) :
    Serves publishes (log ++ [e]) := by
  have hsame : ∀ p event, invokedBy p event (log ++ [e]) = invokedBy p event log ∧
      outcomesOf p event (log ++ [e]) = outcomesOf p event log := by
    intro p event
    simp [invokedBy, outcomesOf, he p event]
  constructor
  · intro p f hf
    rw [(hsame p f.event).1, (hsame p f.event).2]
    exact h.dispatched p f hf
  · intro p event hp
    rw [(hsame p event).1, (hsame p event).2]
    exact h.unstarted p event hp

theorem Serves.publish (h : Serves publishes log) {event : Event} {snapshot : List EventHandler} :
    Serves (publishes ++ [⟨event, snapshot, snapshot, .looping⟩]) log := by
  constructor
  · intro p f hf
    rw [List.getElem?_append] at hf
    split at hf
    · exact h.dispatched p f hf
    · rename_i hp
      obtain ⟨hi, ho⟩ := h.unstarted p f.event (Nat.le_of_not_lt hp)
      rw [hi, ho]
      cases List.mem_singleton.mp (List.mem_of_getElem? hf)
      exact .start
  · intro p event hp
    rw [List.length_append] at hp
    exact h.unstarted p event (Nat.le_of_add_right_le hp)

/-- A step of the publish `p`, whose effects are its own. -/
theorem Serves.record (h : Serves publishes log) (hf : publishes[p]? = some f) (hevent : f'.event = f.event)
    (heffects : ∀ q event, q ≠ p → invokedBy q event effects = [] ∧ outcomesOf q event effects = [])
    (hd : Dispatched f' (invokedBy p f.event log ++ invokedBy p f.event effects)
      (outcomesOf p f.event log ++ outcomesOf p f.event effects)) :
    Serves (publishes.set p f') (log ++ effects) := by
  have hp : p < publishes.length := (List.getElem?_eq_some_iff.mp hf).1
  have hother : ∀ q event, q ≠ p → invokedBy q event (log ++ effects) = invokedBy q event log ∧
      outcomesOf q event (log ++ effects) = outcomesOf q event log := by
    intro q event hq
    obtain ⟨hi, ho⟩ := heffects q event hq
    rw [invokedBy_append, outcomesOf_append, hi, ho, List.append_nil, List.append_nil]
    exact ⟨rfl, rfl⟩
  constructor
  · intro q g hg
    by_cases hq : q = p
    · subst hq
      rw [List.getElem?_set_self hp] at hg
      cases hg
      rw [invokedBy_append, outcomesOf_append, hevent]
      exact hd
    · rw [List.getElem?_set_ne (Ne.symm hq)] at hg
      rw [(hother q g.event hq).1, (hother q g.event hq).2]
      exact h.dispatched q g hg
  · intro q event hq
    rw [List.length_set] at hq
    have hne : q ≠ p := by omega
    rw [(hother q event hne).1, (hother q event hne).2]
    exact h.unstarted q event hq

end

-- ---------------------------------------------------------------------------
-- The bus and its log
-- ---------------------------------------------------------------------------

theorem registered_ident {handler : EventHandler} (h : registered ident subscriber dlq = some handler) :
    handler.ident = ident := by
  cases subscriber with
  | callable callback name =>
    obtain ⟨name, -, rfl⟩ := Option.map_eq_some_iff.mp h
    rfl
  | handler given => cases h; rfl

theorem getDlq_push {bus : InMemoryEventBus} {event : Event} {handler : EventHandler} {name : String}
    (hname : truthy handler.dlq = some name) :
    (bus.park event handler.dlq).getDlq d =
      bus.getDlq d ++ if some name = some d then [event] else [] := by
  simp only [InMemoryEventBus.park, InMemoryEventBus.getDlq, Dict.push, hname, Option.getD_some,
    Dict.get?_insert]
  by_cases hd : d = name
  · simp [hd]
  · simp [hd, Ne.symm hd]

/-- The clause goes on, the event in the handler's DLQ if it raised, or lets the
exception through and parks nothing. -/
theorem settle_cases (bus : InMemoryEventBus) (event : Event) (handler : EventHandler) (result : HandlerResult) :
    (∃ bus', bus.settle event handler result = .ok bus' ∧ escaping handler result = none ∧
      bus'.subscriptions = bus.subscriptions ∧ bus'.subscriptionIds = bus.subscriptionIds ∧
      bus'.nextSubId = bus.nextSubId ∧
      ∀ d, bus'.getDlq d = bus.getDlq d ++ if parkedIn handler result = some d then [event] else []) ∨
    ∃ exc, bus.settle event handler result = .error exc ∧ escaping handler result = some exc ∧
      parkedIn handler result = none := by
  cases result with
  | returned => exact .inl ⟨bus, rfl, rfl, rfl, rfl, rfl, fun d => by simp [parkedIn]⟩
  | raised exc =>
    cases hname : truthy handler.dlq with
    | none => exact .inr ⟨exc, by simp [InMemoryEventBus.settle, hname], by simp [escaping, hname], hname⟩
    | some name =>
      refine .inl ⟨bus.park event handler.dlq, by simp [InMemoryEventBus.settle, hname],
        by simp [escaping, hname], rfl, rfl, rfl, ?_⟩
      intro d
      rw [getDlq_push hname, parkedIn, hname]
  | interrupted exc => exact .inr ⟨exc, rfl, rfl, rfl⟩

/-- The bus is what its log makes of it. -/
structure Faithful (s : System) : Prop where
  registers : Registers (live s.log) s.bus s.fresh
  serves : Serves s.publishes s.log
  dlqs : ∀ d, s.bus.getDlq d = parked d s.log

section
variable {s s' : System}

theorem Faithful.start : Faithful System.start where
  registers := .nil
  serves := ⟨fun _ _ hf => (nomatch hf), fun _ _ _ => ⟨rfl, rfl⟩⟩
  dlqs _ := rfl

theorem Faithful.subscribe (h : Faithful s) (hs : s.step (.subscribe topic handler dlq) = some s') :
    Faithful s' := by
  cases hreg : registered s.fresh handler dlq with
  | none =>
    simp only [System.step, InMemoryEventBus.subscribe, hreg, Option.some.injEq] at hs
    subst hs
    exact ⟨h.registers.of_same rfl rfl (Nat.le_succ _) (le_refl _), h.serves, h.dlqs⟩
  | some made =>
    simp only [System.step, InMemoryEventBus.subscribe, hreg, Option.some.injEq] at hs
    subst hs
    refine ⟨?_, h.serves.quiet fun _ _ => ⟨rfl, rfl⟩, fun d => ?_⟩
    · rw [live_append]
      exact h.registers.subscribe (registered_ident hreg)
    · rw [parked_append]
      exact h.dlqs d

theorem Faithful.unsubscribe (h : Faithful s) (subscriptionId : Option String) :
    Faithful { s with
      bus := s.bus.unsubscribe subscriptionId, log := s.log ++ [.unsubscribed subscriptionId] } where
  registers := by
    rw [live_append]
    cases subscriptionId with
    | none => exact .nil
    | some id => exact h.registers.unsubscribe id
  serves := h.serves.quiet fun _ _ => ⟨rfl, rfl⟩
  dlqs d := by
    rw [parked_append]
    refine Eq.trans ?_ (h.dlqs d)
    cases subscriptionId with
    | none => rfl
    | some id => rw [InMemoryEventBus.unsubscribe]; split <;> rfl

theorem Faithful.reset (h : Faithful s) :
    Faithful { s with bus := s.bus.reset, log := s.log ++ [.cleared] } where
  registers := by rw [live_append]; exact .nil
  serves := h.serves.quiet fun _ _ => ⟨rfl, rfl⟩
  dlqs d := by rw [parked_append]; rfl

theorem Faithful.advance (h : Faithful s) (hs : s.step (.advance p) = some s') : Faithful s' := by
  simp only [System.step] at hs
  split at hs
  · rename_i event snapshot handler remaining hf
    cases hs
    refine ⟨?_, h.serves.record hf rfl ?_ ?_, fun d => ?_⟩
    · simpa [System.record, Effect.onLive] using h.registers
    · intro q event' hq
      simp [Ne.symm hq]
    · simpa using (h.serves.dispatched p _ hf).invoke
    · simpa [System.record, Effect.onDlq] using h.dlqs d
  · rename_i event snapshot hf
    cases hs
    refine ⟨?_, h.serves.record hf rfl (fun _ _ _ => ⟨rfl, rfl⟩) ?_, fun d => ?_⟩
    · simpa [System.record] using h.registers
    · rw [invokedBy_nil, outcomesOf_nil, List.append_nil, List.append_nil]
      exact (h.serves.dispatched p _ hf).return
    · simpa [System.record] using h.dlqs d
  · cases hs

theorem Faithful.finish (h : Faithful s) (hs : s.step (.finish p result) = some s') : Faithful s' := by
  simp only [System.step] at hs
  split at hs
  · rename_i event snapshot remaining handler hf
    have hd := h.serves.dispatched p _ hf
    have hquiet : ∀ q event', q ≠ p → invokedBy q event' [.ended p event handler result] = [] ∧
        outcomesOf q event' [.ended p event handler result] = [] := by
      intro q event' hq
      simp [Ne.symm hq]
    rcases settle_cases s.bus event handler result with
      ⟨bus, hsettle, hescape, hsubs, hids, hnext, hdlq⟩ | ⟨exc, hsettle, hescape, hparked⟩
    · simp only [hsettle, Option.some.injEq] at hs
      subst hs
      refine ⟨?_, h.serves.record hf rfl hquiet ?_, fun d => ?_⟩
      · simp only [System.record, live_append]
        exact h.registers.of_same hsubs hids hnext.ge (le_refl _)
      · simpa using hd.continue hescape
      · simp only [System.record, parked_append, Effect.onDlq, hdlq, h.dlqs]
        split <;> simp
    · simp only [hsettle, Option.some.injEq] at hs
      subst hs
      refine ⟨?_, h.serves.record hf rfl hquiet ?_, fun d => ?_⟩
      · simp only [System.record, live_append]
        exact h.registers
      · simpa using hd.raise hescape
      · simp only [System.record, parked_append, Effect.onDlq, hparked, h.dlqs]
        simp
  · cases hs

theorem Faithful.step {a : Action} (h : Faithful s) (hs : s.step a = some s') : Faithful s' := by
  cases a with
  | subscribe topic handler dlq => exact h.subscribe hs
  | unsubscribe subscriptionId => cases hs; exact h.unsubscribe subscriptionId
  | reset => cases hs; exact h.reset
  | publish topic event => cases hs; exact ⟨h.registers, h.serves.publish, h.dlqs⟩
  | advance p => exact h.advance hs
  | finish p result => exact h.finish hs

theorem Faithful.run {actions : List Action} (h : Faithful s)
    (hrun : Machine.run System.step s actions = some s') : Faithful s' :=
  run_countdown (I := fun _ => Faithful) (fun _ _ _ _ h hs => h.step hs) h hrun

/-- The publish `p` is a call with this event on this snapshot. -/
def Called (p : Nat) (event : Event) (snapshot : List EventHandler) (s : System) : Prop :=
  ∃ f, s.publishes[p]? = some f ∧ f.event = event ∧ f.snapshot = snapshot

theorem Called.record {event : Event} {snapshot : List EventHandler} {f f' : Publish}
    (h : Called p event snapshot s) (hf : s.publishes[q]? = some f) (hevent : f'.event = f.event)
    (hsnapshot : f'.snapshot = f.snapshot) : Called p event snapshot (s.record q f' effects) := by
  obtain ⟨g, hg, he, hs⟩ := h
  by_cases hq : q = p
  · subst hq
    cases hg.symm.trans hf
    have hlt : q < s.publishes.length := (List.getElem?_eq_some_iff.mp hf).1
    exact ⟨f', List.getElem?_set_self hlt, hevent.trans he, hsnapshot.trans hs⟩
  · exact ⟨g, (List.getElem?_set_ne hq).trans hg, he, hs⟩

theorem Called.step {event : Event} {snapshot : List EventHandler} {a : Action}
    (h : Called p event snapshot s) (hs : s.step a = some s') : Called p event snapshot s' := by
  cases a with
  | subscribe topic handler dlq =>
    simp only [System.step] at hs
    split at hs <;> cases hs <;> exact h
  | unsubscribe subscriptionId => cases hs; exact h
  | reset => cases hs; exact h
  | publish topic event' =>
    cases hs
    obtain ⟨f, hf, he, hs⟩ := h
    exact ⟨f, List.getElem?_append_left (List.getElem?_eq_some_iff.mp hf).1 ▸ hf, he, hs⟩
  | advance q =>
    simp only [System.step] at hs
    split at hs
    · rename_i hf
      cases hs
      exact h.record hf rfl rfl
    · rename_i hf
      cases hs
      exact h.record hf rfl rfl
    · cases hs
  | finish q result =>
    simp only [System.step] at hs
    split at hs
    · rename_i hf
      split at hs
      · cases hs
        exact Called.record (s := { s with bus := _ }) h hf rfl rfl
      · cases hs
        exact h.record hf rfl rfl
    · cases hs

/-- The lists hold the live subscriptions, every publish goes through the
handlers that were live when it started, and each DLQ holds what was parked in
it since the last reset. -/
theorem bus_delivers {actions : List Action}
    (hrun : Machine.run System.step System.start actions = some s) :
    (∀ topic, s.bus.handlers topic = handlersOf topic (live s.log)) ∧
      (∀ before topic event after t, actions = before ++ .publish topic event :: after →
        Machine.run System.step System.start before = some t →
        ∃ f, s.publishes[t.publishes.length]? = some f ∧ f.event = event ∧
          f.snapshot = handlersOf topic (live t.log) ∧ (f.snapshot.map (·.ident)).Nodup ∧
          Dispatched f (invokedBy t.publishes.length event s.log)
            (outcomesOf t.publishes.length event s.log)) ∧
      ∀ dlqName, s.bus.getDlq dlqName = parked dlqName s.log := by
  have h : Faithful s := Faithful.start.run hrun
  refine ⟨h.registers.handlers, ?_, h.dlqs⟩
  intro before topic event after t hactions ht
  have hbefore : Faithful t := Faithful.start.run ht
  rw [hactions, run_append, ht, Option.bind_some, Machine.run_cons] at hrun
  obtain ⟨u, hu, hrest⟩ := Option.bind_eq_some_iff.mp hrun
  cases hu
  have hcalled : Called t.publishes.length event (handlersOf topic (live t.log)) s := by
    refine run_countdown (I := fun _ => Called _ _ _) (fun _ _ _ _ h hs => h.step hs) ?_ hrest
    exact ⟨_, List.getElem?_concat_length, rfl, hbefore.registers.handlers topic⟩
  obtain ⟨f, hf, rfl, hsnapshot⟩ := hcalled
  refine ⟨f, hf, rfl, hsnapshot, ?_, h.serves.dispatched _ f hf⟩
  rw [hsnapshot, handlersOf, List.map_map]
  exact hbefore.registers.objects.sublist (List.filter_sublist.map _)

end

theorem bus_delivers_toDlq :
    ∃ s f, run System.step System.start [.subscribe "a" (.callable 0 (some "h")) (some "a.dlq"),
        .publish "a" ⟨7, none⟩, .advance 0, .unsubscribe none, .finish 0 (.raised ⟨"RuntimeError", "boom"⟩),
        .advance 0] = some s ∧
      s.bus.handlers "a" = handlersOf "a" (live s.log) ∧ s.publishes[0]? = some f ∧
      Dispatched f (invokedBy 0 ⟨7, none⟩ s.log) (outcomesOf 0 ⟨7, none⟩ s.log) ∧
      s.bus.getDlq "a.dlq" = parked "a.dlq" s.log := by
  obtain ⟨s, hs⟩ := Option.isSome_iff_exists.mp (show
    (run System.step System.start [.subscribe "a" (.callable 0 (some "h")) (some "a.dlq"),
        .publish "a" ⟨7, none⟩, .advance 0, .unsubscribe none, .finish 0 (.raised ⟨"RuntimeError", "boom"⟩),
        .advance 0]).isSome by decide +kernel)
  obtain ⟨hlists, hpublish, hdlqs⟩ := bus_delivers hs
  obtain ⟨f, hf, -, -, -, hd⟩ := hpublish [_] "a" ⟨7, none⟩ _ _ rfl rfl
  exact ⟨s, f, hs, hlists "a", hf, hd, hdlqs "a.dlq"⟩

/-- A handler with a DLQ whose exception is no `Exception`: the event is not
parked and the publish raises. -/
theorem interrupted_past_dlq : ∃ s f handler,
    run System.step System.start [.subscribe "a" (.callable 0 (some "h")) (some "a.dlq"),
      .publish "a" ⟨7, none⟩, .advance 0, .finish 0 (.interrupted ⟨"CancelledError", ""⟩)] = some s ∧
    s.publishes[0]? = some f ∧ f.snapshot = [handler] ∧ truthy handler.dlq = some "a.dlq" ∧
    f.status = .raised ⟨"CancelledError", ""⟩ ∧ s.bus.getDlq "a.dlq" = [] :=
  ⟨_, _, _, rfl, rfl, rfl, rfl, rfl, rfl⟩

-- The handler subscribes another one while it runs: the publish in progress does
-- not call it, and the next one does.
example : (run System.step System.start [.subscribe "a" (.callable 0 (some "h")) none,
      .publish "a" ⟨7, none⟩, .advance 0, .subscribe "a" (.callable 1 (some "g")) none, .finish 0 .returned,
      .advance 0, .publish "a" ⟨8, none⟩]).map (fun s => s.publishes.map (·.snapshot.map (·.callback))) =
    some [[0], [0, 1]] := by decide +kernel

end Intelliqx.Events
