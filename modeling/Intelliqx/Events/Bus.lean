import Intelliqx.Base.Dict
import Intelliqx.Py.Text

/-!
# The in-memory event bus

`InMemoryEventBus` keeps two maps of one set of subscriptions: the handlers of
each topic, and the topic and handler of each subscription id. `Registers` says
which subscriptions both of them hold, and each operation changes that list the
way its caller expects.
-/

namespace Intelliqx.Events

open Py (truthy)

/-- A handler object. `ident` is what `is` compares: two handlers with the same
fields are still two objects. -/
structure EventHandler where
  ident : Nat
  name : String
  callback : Nat
  dlq : Option String
  deriving DecidableEq

/-- What `subscribe` is given: a callable, with the `__name__` it may have, or a
handler. -/
inductive Subscriber
  | callable (callback : Nat) (name : Option String)
  | handler (handler : EventHandler)
  deriving DecidableEq

/-- A published event object and the id in its metadata, if it carries one. -/
structure Event where
  ident : Nat
  eventId : Option String
  deriving DecidableEq

structure InMemoryEventBus where
  subscriptions : Dict String (List EventHandler)
  subscriptionIds : Dict String (String × EventHandler)
  nextSubId : Nat
  dlqs : Dict String (List Event)
  deriving DecidableEq

/-- The handler object `subscribe` registers, or `none` where it raises: a
callable without a `__name__`. -/
def registered (ident : Nat) (handler : Subscriber) (dlq : Option String) : Option EventHandler :=
  match handler with
  | .callable callback name => name.map fun name => ⟨ident, name, callback, dlq⟩
  | .handler handler => some { handler with ident, dlq := (truthy dlq).or handler.dlq }

/-- What `publish` returns. -/
def Event.publishedId (event : Event) : String :=
  (truthy event.eventId).getD ("local-" ++ toString event.ident)

namespace InMemoryEventBus

def empty : InMemoryEventBus := ⟨.empty, .empty, 0, .empty⟩

/-- The handlers `publish` takes its snapshot of. -/
def handlers (self : InMemoryEventBus) (topic : String) : List EventHandler :=
  (self.subscriptions.get? topic).getD []

/-- The subscription id, or `none` where `subscribe` raises, which it does with
the counter already raised. `ident` is the object it makes. -/
def subscribe (self : InMemoryEventBus) (ident : Nat) (topic : String) (handler : Subscriber)
    (dlq : Option String) : Option String × InMemoryEventBus :=
  let nextSubId := self.nextSubId + 1
  let subId := "sub-" ++ toString nextSubId
  match registered ident handler dlq with
  | none => (none, { self with nextSubId })
  | some handler =>
    (some subId, { self with
      nextSubId
      subscriptions := self.subscriptions.push topic handler
      subscriptionIds := self.subscriptionIds.insert subId (topic, handler) })

def unsubscribe (self : InMemoryEventBus) : Option String → InMemoryEventBus
  | none => { self with subscriptions := .empty, subscriptionIds := .empty }
  | some subscriptionId =>
    match self.subscriptionIds.get? subscriptionId with
    | none => self
    | some (topic, handler) =>
      let kept := (self.handlers topic).filter fun registered => registered.ident ≠ handler.ident
      let subscriptions := self.subscriptions.insert topic kept
      { self with
        subscriptionIds := self.subscriptionIds.erase subscriptionId
        subscriptions := if kept = [] then subscriptions.erase topic else subscriptions }

/-- The method `dlq`: park an event. -/
def park (self : InMemoryEventBus) (event : Event) (topic : Option String) : InMemoryEventBus :=
  { self with dlqs := self.dlqs.push ((truthy topic).getD "dlq") event }

def getDlq (self : InMemoryEventBus) (dlqName : String) : List Event :=
  (self.dlqs.get? dlqName).getD []

def reset (_ : InMemoryEventBus) : InMemoryEventBus := ⟨.empty, .empty, 0, .empty⟩

end InMemoryEventBus

-- ---------------------------------------------------------------------------
-- Live subscriptions
-- ---------------------------------------------------------------------------

structure Subscription where
  id : String
  topic : String
  handler : EventHandler
  deriving DecidableEq

def handlersOf (topic : String) (live : List Subscription) : List EventHandler :=
  (live.filter (·.topic = topic)).map (·.handler)

/-- Both maps hold the subscriptions of `live`, in the order they were made, and
each has an object of its own from before `fresh`. -/
structure Registers (live : List Subscription) (bus : InMemoryEventBus) (fresh : Nat) : Prop where
  handlers : ∀ topic, bus.handlers topic = handlersOf topic live
  ids : bus.subscriptionIds.entries = live.map fun s => (s.id, s.topic, s.handler)
  numbered : ∀ s ∈ live, ∃ n ≤ bus.nextSubId, s.id = "sub-" ++ toString n
  objects : (live.map (·.handler.ident)).Nodup
  old : ∀ s ∈ live, s.handler.ident < fresh

section
variable {live : List Subscription} {bus : InMemoryEventBus} {fresh : Nat}

@[simp] theorem handlersOf_nil : handlersOf topic [] = [] := rfl

theorem handlersOf_append {more : List Subscription} :
    handlersOf topic (live ++ more) = handlersOf topic live ++ handlersOf topic more := by
  simp [handlersOf]

theorem Registers.nil {nextSubId : Nat} {dlqs : Dict String (List Event)} :
    Registers [] ⟨.empty, .empty, nextSubId, dlqs⟩ fresh where
  handlers _ := rfl
  ids := rfl
  numbered _ hs := absurd hs List.not_mem_nil
  objects := List.nodup_nil
  old _ hs := absurd hs List.not_mem_nil

/-- Only the two maps and the counter matter. -/
theorem Registers.of_same {bus' : InMemoryEventBus} (h : Registers live bus fresh)
    (hsubs : bus'.subscriptions = bus.subscriptions) (hids : bus'.subscriptionIds = bus.subscriptionIds)
    (hnext : bus.nextSubId ≤ bus'.nextSubId) (hfresh : fresh ≤ fresh') : Registers live bus' fresh' where
  handlers topic := by rw [InMemoryEventBus.handlers, hsubs]; exact h.handlers topic
  ids := hids ▸ h.ids
  numbered s hs := by
    obtain ⟨n, hn, hid⟩ := h.numbered s hs
    exact ⟨n, hn.trans hnext, hid⟩
  objects := h.objects
  old s hs := (h.old s hs).trans_le hfresh

theorem Registers.keys (h : Registers live bus fresh) : bus.subscriptionIds.keys = live.map (·.id) := by
  rw [Dict.keys, h.ids, List.map_map]
  rfl

/-- A new subscription has a new id. -/
theorem Registers.next_not_mem (h : Registers live bus fresh) :
    "sub-" ++ toString (bus.nextSubId + 1) ∉ bus.subscriptionIds.keys := by
  rw [h.keys]
  intro hmem
  obtain ⟨s, hs, hid⟩ := List.mem_map.mp hmem
  obtain ⟨n, hn, hid'⟩ := h.numbered s hs
  have heq : n = bus.nextSubId + 1 := Py.append_toString_inj.mp (hid'.symm.trans hid)
  omega

theorem Registers.subscribe {handler : EventHandler} (h : Registers live bus fresh)
    (hident : handler.ident = fresh) :
    Registers (live ++ [⟨"sub-" ++ toString (bus.nextSubId + 1), topic, handler⟩])
      { bus with
        nextSubId := bus.nextSubId + 1
        subscriptions := bus.subscriptions.push topic handler
        subscriptionIds := bus.subscriptionIds.insert ("sub-" ++ toString (bus.nextSubId + 1)) (topic, handler) }
      (fresh + 1) where
  handlers t := by
    have hbefore := h.handlers t
    simp only [InMemoryEventBus.handlers, Dict.push, Dict.get?_insert, handlersOf_append] at hbefore ⊢
    by_cases ht : t = topic
    · subst ht
      simp [hbefore, handlersOf]
    · simp [ht, hbefore, handlersOf, Ne.symm ht]
  ids := by
    rw [Dict.entries_insert_of_not_mem h.next_not_mem, h.ids, List.map_append]
    rfl
  numbered s hs := by
    rcases List.mem_append.mp hs with hs | hs
    · obtain ⟨n, hn, hid⟩ := h.numbered s hs
      exact ⟨n, hn.trans (Nat.le_succ _), hid⟩
    · cases List.mem_singleton.mp hs
      exact ⟨bus.nextSubId + 1, le_refl _, rfl⟩
  objects := by
    rw [List.map_append]
    apply h.objects.append (List.nodup_singleton _)
    intro ident hident' hnew
    obtain ⟨s, hs, rfl⟩ := List.mem_map.mp hident'
    have hlt := h.old s hs
    have heq : s.handler.ident = handler.ident := by simpa using hnew
    omega
  old s hs := by
    rcases List.mem_append.mp hs with hs | hs
    · exact (h.old s hs).trans (Nat.lt_succ_self _)
    · cases List.mem_singleton.mp hs
      exact hident ▸ Nat.lt_succ_self _

/-- Among the live subscriptions the id and the object name the same one. -/
theorem Registers.same_iff {s s' : Subscription} (h : Registers live bus fresh) (hs : s ∈ live)
    (hs' : s' ∈ live) : s'.handler.ident = s.handler.ident ↔ s'.id = s.id := by
  constructor
  · intro hident
    rw [List.inj_on_of_nodup_map h.objects hs' hs hident]
  · intro hid
    have hnodup : (live.map (·.id)).Nodup := h.keys ▸ bus.subscriptionIds.nodup
    rw [List.inj_on_of_nodup_map hnodup hs' hs hid]

theorem Registers.exists_of_get? {id : String} (h : Registers live bus fresh)
    (hget : bus.subscriptionIds.get? id = some (topic, handler)) : ⟨id, topic, handler⟩ ∈ live := by
  have hmem := Dict.get?_eq_some_iff.mp hget
  rw [h.ids] at hmem
  obtain ⟨s, hs, heq⟩ := List.mem_map.mp hmem
  cases heq
  exact hs

/-- The two ways of removing one subscription, by object and by id. -/
theorem Registers.kept_eq {s : Subscription} (h : Registers live bus fresh) (hs : s ∈ live) :
    (bus.handlers s.topic).filter (fun registered => registered.ident ≠ s.handler.ident) =
      handlersOf s.topic (live.filter (·.id ≠ s.id)) := by
  rw [h.handlers, handlersOf, handlersOf, List.filter_map, List.filter_filter, List.filter_filter]
  congr 1
  apply List.filter_congr
  intro s' hs'
  simp only [Function.comp_apply, ne_eq, decide_not, h.same_iff hs hs']
  exact Bool.and_comm ..

theorem handlersOf_filter_of_ne {s : Subscription} (hn : (live.map (·.id)).Nodup) (hs : s ∈ live)
    (ht : topic ≠ s.topic) : handlersOf topic (live.filter (·.id ≠ s.id)) = handlersOf topic live := by
  rw [handlersOf, handlersOf, List.filter_filter]
  congr 1
  apply List.filter_congr
  intro s' hs'
  by_cases hid : s'.id = s.id
  · cases List.inj_on_of_nodup_map hn hs' hs hid
    simp [Ne.symm ht]
  · simp [hid]

/-- The list of one topic is replaced, and the topic goes with its last handler. -/
theorem handlers_replaced {d : Dict String (List EventHandler)} {kept : List EventHandler} :
    ((if kept = [] then (d.insert topic kept).erase topic else d.insert topic kept).get? t).getD [] =
      if t = topic then kept else (d.get? t).getD [] := by
  by_cases ht : t = topic
  · by_cases hk : kept = []
    · simp [ht, hk, Dict.get?_erase]
    · simp [ht, hk]
  · by_cases hk : kept = []
    · simp [ht, hk, Dict.get?_erase, Dict.get?_insert]
    · simp [ht, hk, Dict.get?_insert]

theorem Registers.unsubscribe (h : Registers live bus fresh) (id : String) :
    Registers (live.filter (·.id ≠ id)) (bus.unsubscribe (some id)) fresh := by
  have hn : (live.map (·.id)).Nodup := h.keys ▸ bus.subscriptionIds.nodup
  cases hget : bus.subscriptionIds.get? id with
  | none =>
    have habsent : ∀ s ∈ live, s.id ≠ id := by
      intro s hs hid
      have hkey : s.id ∈ bus.subscriptionIds.keys := h.keys ▸ List.mem_map_of_mem hs
      rw [hid, ← Dict.isSome_get?_iff, hget] at hkey
      cases hkey
    rw [List.filter_eq_self.mpr (by simpa using habsent), InMemoryEventBus.unsubscribe, hget]
    exact h
  | some found =>
    obtain ⟨topic, handler⟩ := found
    have hs := h.exists_of_get? hget
    have hkept := h.kept_eq hs
    have hentries : (bus.subscriptionIds.erase id).entries =
        bus.subscriptionIds.entries.filter (·.1 ≠ id) := rfl
    rw [InMemoryEventBus.unsubscribe, hget]
    refine ⟨fun t => handlers_replaced.trans ?_, hentries.trans ?_, ?_, ?_, ?_⟩
    · by_cases ht : t = topic
      · subst ht
        rw [if_pos rfl]
        exact hkept
      · rw [if_neg ht, handlersOf_filter_of_ne hn hs ht]
        exact h.handlers t
    · rw [h.ids, List.filter_map]
      rfl
    · exact fun s hs => h.numbered s (List.mem_of_mem_filter hs)
    · exact h.objects.sublist (List.filter_sublist.map _)
    · exact fun s hs => h.old s (List.mem_of_mem_filter hs)

end

end Intelliqx.Events
