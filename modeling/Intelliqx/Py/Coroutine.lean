import Mathlib.Algebra.Group.Int.Defs
import Mathlib.Data.Nat.Basic
import Mathlib.Data.Option.Basic
import Mathlib.Order.Basic

/-!
# Coroutines and `wait_for`

A coroutine works, is suspended from time to time, and ends. `wait_for` cancels
it in the suspension in which its deadline passes: `CancelledError` is raised in
the coroutine, and what the coroutine does with it decides what comes out. While
it works nothing can interrupt it, and it is cancelled once.

A bare yield, `sleep(0)`, is suspended for one turn of the event loop. When it
begins behind the deadline, the coroutine is queued before the timer: it goes
on, and is cancelled where it is suspended next.
-/

namespace Intelliqx.Py

/-- What `str()` of an exception gives. -/
inductive ErrorText
  | text (s : String)
  /-- A text with lone surrogates. -/
  | notUnicode
  | raises

structure Raised where
  typeName : String
  isTimeoutError : Bool
  text : ErrorText

inductive Ending (ν : Type)
  | returns (v : ν)
  | raises (e : Raised)

/-- What a coroutine does with the `CancelledError` raised in it, and for how long. -/
inductive OnCancel (ν : Type)
  /-- `CancelledError` leaves it. -/
  | stops (ms : Nat)
  | ends (ms : Nat) (e : Ending ν)
  | never

/-- Without a time, work or a suspension lasts forever. -/
inductive Coroutine (ν : Type)
  | ends (e : Ending ν)
  | works (ms : Option Nat) (next : Coroutine ν)
  | yields (next : Coroutine ν) (onCancel : OnCancel ν)
  | awaits (ms : Option Nat) (next : Coroutine ν) (onCancel : OnCancel ν)

def timeoutError : Raised := ⟨"TimeoutError", true, .text ""⟩

def overflowError : Raised := ⟨"OverflowError", false, .text "int too large to convert to float"⟩

/-- The least positive integer that is too large for a float. -/
@[irreducible] def floatLimit : Int := 2 ^ 1024 - 2 ^ 970

/-- What comes out of `wait_for`, and when, of a coroutine cancelled at `now`. -/
def OnCancel.result (now : Nat) : OnCancel ν → Option (Nat × Ending ν)
  | .stops ms => some (now + ms, .raises timeoutError)
  | .ends ms e => some (now + ms, e)
  | .never => none

namespace Coroutine

def finish (now : Nat) : Coroutine ν → Option (Nat × Ending ν)
  | .ends e => some (now, e)
  | .works ms next | .awaits ms next _ => ms.bind fun d => next.finish (now + d)
  | .yields next _ => next.finish now

/-- What comes out when it is cancelled at the deadline. `due` says that the
timer is queued. -/
def waitUntil (deadline : Nat) (due : Bool) (now : Nat) : Coroutine ν → Option (Nat × Ending ν)
  | .ends e => some (now, e)
  | .works ms next => ms.bind fun d => next.waitUntil deadline due (now + d)
  | .yields next onCancel =>
    if due then onCancel.result now else next.waitUntil deadline (decide (deadline ≤ now)) now
  | .awaits ms next onCancel =>
    match ms with
    | some d =>
      -- where both end in one turn of the loop, the timer cancels the waiting coroutine
      if now + d < deadline then next.waitUntil deadline due (now + d) else onCancel.result (max now deadline)
    | none => onCancel.result (max now deadline)

/-- `wait_for`. Without time the coroutine is cancelled before it has begun; a
timeout that is no float is refused before. -/
def waitFor (seconds : Int) (c : Coroutine ν) : Option (Nat × Ending ν) :=
  if seconds ≤ 0 then some (0, .raises timeoutError)
  else if floatLimit ≤ seconds then some (0, .raises overflowError)
  else c.waitUntil (seconds.toNat * 1000) false 0

def inTime (seconds : Int) (c : Coroutine ν) : Option (Ending ν) :=
  if seconds ≤ 0 then none
  else (c.finish 0).bind fun e => if e.1 < seconds.toNat * 1000 then some e.2 else none

section
variable {c : Coroutine ν} {deadline now t : Nat} {e : Ending ν}

theorem le_of_finish (h : c.finish now = some (t, e)) : now ≤ t := by
  induction c generalizing now with
  | ends e =>
    cases h
    exact le_rfl
  | works ms next ih | awaits ms next onCancel ih =>
    obtain ⟨d, rfl, hnext⟩ := Option.bind_eq_some_iff.mp h
    exact (Nat.le_add_right now d).trans (ih hnext)
  | yields next onCancel ih => exact ih h

theorem waitUntil_of_finish (h : c.finish now = some (t, e)) (ht : t < deadline) :
    c.waitUntil deadline false now = some (t, e) := by
  induction c generalizing now with
  | ends e =>
    cases h
    rfl
  | works ms next ih =>
    obtain ⟨d, rfl, hnext⟩ := Option.bind_eq_some_iff.mp h
    exact ih hnext
  | yields next onCancel ih =>
    have hnow : ¬ deadline ≤ now := ((le_of_finish h).trans_lt ht).not_ge
    rw [waitUntil, if_neg Bool.false_ne_true, decide_eq_false hnow]
    exact ih h
  | awaits ms next onCancel ih =>
    obtain ⟨d, rfl, hnext⟩ := Option.bind_eq_some_iff.mp h
    rw [waitUntil, if_pos ((le_of_finish hnext).trans_lt ht), ih hnext]

theorem waitFor_of_inTime {seconds : Int} (h : c.inTime seconds = some e) (hfloat : seconds < floatLimit) :
    ∃ ms, c.waitFor seconds = some (ms, e) := by
  rw [inTime] at h
  split at h
  · cases h
  · rename_i htime
    obtain ⟨⟨t, e'⟩, hfinish, h⟩ := Option.bind_eq_some_iff.mp h
    split at h
    · rename_i ht
      cases h
      exact ⟨t, by rw [waitFor, if_neg htime, if_neg (Int.not_le.mpr hfloat), waitUntil_of_finish hfinish ht]⟩
    · cases h

end

end Coroutine

end Intelliqx.Py
