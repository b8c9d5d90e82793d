import Mathlib.Algebra.Order.Field.Rat
import Mathlib.Tactic.NormNum
import Intelliqx.Base.Dict
import Intelliqx.Base.Machine
import Intelliqx.Base.TokenBucket

/-!
# The rate limiter

`System` is one limiter with any number of `acquire` calls on it. A call that
finds no token sleeps and tries again, so between two of its polls any other
call may start, poll, return or be cancelled. `Metered` is the budget of a
window that every poll keeps.
-/

namespace Intelliqx.Tools

open Machine (run run_countdown)
open TokenBucket (Budget Within)

structure RateLimiter where
  buckets : Dict String (TokenBucket ℚ)

namespace RateLimiter

def empty : RateLimiter := ⟨.empty⟩

/-- `self.buckets[key]`; a missing bucket starts without tokens at the clock
reading `created`. -/
def bucket (self : RateLimiter) (key : String) (created : ℚ) : TokenBucket ℚ :=
  (self.buckets.get? key).getD ⟨0, created⟩

/-- One pass through the loop of `acquire`, the lock held throughout: whether a
token was deducted, and the limiter after it. -/
def attempt (self : RateLimiter) (key : String) (ratePerMinute : Int) (created now : ℚ) :
    Bool × RateLimiter :=
  let capacity : ℚ := ratePerMinute
  let refillPerSec := capacity / 60
  let b := self.bucket key created
  let elapsed := now - b.lastRefill
  let tokens := min capacity (b.tokens + elapsed * refillPerSec)
  if 1 ≤ tokens then (true, ⟨self.buckets.insert key ⟨tokens - 1, now⟩⟩)
  else (false, ⟨self.buckets.insert key ⟨tokens, now⟩⟩)

variable {self : RateLimiter} {key key' : String} {ratePerMinute : Int} {created now : ℚ}

/-- A pass polls the key's token bucket. -/
theorem attempt_eq : self.attempt key ratePerMinute created now =
    let polled := (self.bucket key created).poll (ratePerMinute : ℚ) (ratePerMinute / 60) now
    (polled.1, ⟨self.buckets.insert key polled.2⟩) := by
  rcases ((self.bucket key created).refill (ratePerMinute : ℚ) (ratePerMinute / 60) now).take_cases with
    ⟨hone, ht⟩ | ⟨hfew, ht⟩
  · rw [TokenBucket.poll, ht]
    exact if_pos hone
  · rw [TokenBucket.poll, ht]
    exact if_neg (not_le_of_gt hfew)

theorem bucket_attempt_self : (self.attempt key ratePerMinute created now).2.bucket key later =
    ((self.bucket key created).poll (ratePerMinute : ℚ) (ratePerMinute / 60) now).2 := by
  simp [attempt_eq, bucket]

theorem bucket_attempt_of_ne (h : key' ≠ key) :
    (self.attempt key ratePerMinute created now).2.bucket key' later = self.bucket key' later := by
  simp [attempt_eq, bucket, Dict.get?_insert_ne h]

end RateLimiter

-- ---------------------------------------------------------------------------
-- Concurrent calls
-- ---------------------------------------------------------------------------

inductive Outcome
  | waiting
  | granted (now : ℚ)
  | cancelled
  deriving DecidableEq

/-- An `acquire` call: what it was called with and what became of it. -/
structure Call where
  key : String
  ratePerMinute : Int
  outcome : Outcome
  deriving DecidableEq

/-- The limiter, every call so far and the last reading of the clock. -/
structure System where
  limiter : RateLimiter
  calls : List Call
  clock : ℚ

inductive Event
  | acquire (key : String) (ratePerMinute : Int)
  | poll (i : Nat) (created now : ℚ)
  | cancel (i : Nat)
  deriving DecidableEq

namespace System

def start (clock : ℚ) : System := ⟨.empty, [], clock⟩

/-- `none` where the call is not waiting or the clock would go back. -/
def step (s : System) : Event → Option System
  | .acquire key ratePerMinute => some { s with calls := s.calls ++ [⟨key, ratePerMinute, .waiting⟩] }
  | .poll i created now =>
    match s.calls[i]? with
    | some ⟨key, ratePerMinute, .waiting⟩ =>
      if s.clock ≤ created ∧ created ≤ now then
        let (granted, limiter) := s.limiter.attempt key ratePerMinute created now
        let outcome := if granted then .granted now else .waiting
        some ⟨limiter, s.calls.set i ⟨key, ratePerMinute, outcome⟩, now⟩
      else none
    | _ => none
  | .cancel i =>
    match s.calls[i]? with
    | some ⟨key, ratePerMinute, .waiting⟩ =>
      some { s with calls := s.calls.set i ⟨key, ratePerMinute, .cancelled⟩ }
    | _ => none

end System

/-- The call is one for the key and was granted within the window. -/
def Call.GrantedIn (key : String) (opens closes : ℚ) (call : Call) : Prop :=
  call.key = key ∧ ∃ now, call.outcome = .granted now ∧ Within opens closes now

instance : DecidablePred (Call.GrantedIn key opens closes)
  | ⟨key', _, .granted now⟩ =>
    decidable_of_iff (key' = key ∧ Within opens closes now) (by simp [Call.GrantedIn])
  | ⟨_, _, .waiting⟩ => isFalse (by simp [Call.GrantedIn])
  | ⟨_, _, .cancelled⟩ => isFalse (by simp [Call.GrantedIn])

/-- How many calls for the key the window has granted. -/
def grants (key : String) (opens closes : ℚ) (calls : List Call) : Nat :=
  calls.countP fun call => call.GrantedIn key opens closes

section
variable {calls : List Call} {call : Call} {key : String} {ratePerMinute : Int} {outcome : Outcome}
  {opens closes : ℚ}

theorem not_grantedIn_waiting : ¬ Call.GrantedIn key opens closes ⟨key', ratePerMinute, .waiting⟩ := by
  simp [Call.GrantedIn]

theorem grants_append_waiting :
    grants key opens closes (calls ++ [⟨key', ratePerMinute, .waiting⟩]) = grants key opens closes calls := by
  simp [grants, not_grantedIn_waiting]

theorem grants_set (h : calls[i]? = some ⟨key', ratePerMinute, .waiting⟩) :
    grants key opens closes (calls.set i call) =
      grants key opens closes calls + if call.GrantedIn key opens closes then 1 else 0 := by
  obtain ⟨hi, hcall⟩ := List.getElem?_eq_some_iff.mp h
  simp [grants, List.countP_set hi, hcall, not_grantedIn_waiting]

/-- The count after a poll. -/
theorem grants_answered (h : calls[i]? = some ⟨key', ratePerMinute, .waiting⟩) (granted : Bool) :
    grants key opens closes
        (calls.set i ⟨key', ratePerMinute, if granted then .granted now else .waiting⟩) =
      grants key opens closes calls +
        if key' = key ∧ granted ∧ Within opens closes now then 1 else 0 := by
  rw [grants_set h]
  congr 1
  cases granted <;> simp [Call.GrantedIn]

end

-- ---------------------------------------------------------------------------
-- The budget of a window
-- ---------------------------------------------------------------------------

/-- The key is acquired at the rate `R` only, and its bucket keeps the budget of
the window. -/
structure Metered (key : String) (R : Int) (opens closes : ℚ) (s : System) : Prop where
  rates : ∀ call ∈ s.calls, call.key = key → call.ratePerMinute = R
  starved : (R : ℚ) < 1 → grants key opens closes s.calls = 0
  budget : (0 : ℚ) ≤ R → ∀ created, s.clock ≤ created →
    (s.limiter.bucket key created).lastRefill ≤ created ∧
      Budget (R : ℚ) (R / 60) opens closes (grants key opens closes s.calls) (s.limiter.bucket key created)

section
variable {key : String} {R : Int} {opens closes : ℚ} {s s' : System}

theorem rate_nonneg (hR : (0 : ℚ) ≤ R) : (0 : ℚ) ≤ R / 60 :=
  div_nonneg hR (by norm_num)

theorem Metered.start (clock : ℚ) : Metered key R opens closes (System.start clock) where
  rates _ hcall := absurd hcall List.not_mem_nil
  starved _ := rfl
  budget hR created _ := ⟨le_refl created, .empty hR (rate_nonneg hR)⟩

theorem Metered.acquire (h : Metered key R opens closes s) (hrate : key' = key → ratePerMinute = R) :
    Metered key R opens closes { s with calls := s.calls ++ [⟨key', ratePerMinute, .waiting⟩] } where
  rates call hcall hkey := by
    rcases List.mem_append.mp hcall with hcall | hcall
    · exact h.rates call hcall hkey
    · cases List.mem_singleton.mp hcall
      exact hrate hkey
  starved hR := grants_append_waiting.trans (h.starved hR)
  budget hR created hclock := by
    rw [grants_append_waiting]
    exact h.budget hR created hclock

/-- An answered call keeps its key and its rate. -/
theorem Metered.rates_set (h : Metered key R opens closes s)
    (hcall : s.calls[i]? = some ⟨key', ratePerMinute, .waiting⟩) (outcome : Outcome) :
    ∀ call ∈ s.calls.set i ⟨key', ratePerMinute, outcome⟩, call.key = key → call.ratePerMinute = R := by
  intro call hmem hkey
  rcases List.mem_or_eq_of_mem_set hmem with hmem | rfl
  · exact h.rates call hmem hkey
  · exact h.rates ⟨key', ratePerMinute, .waiting⟩ (List.mem_of_getElem? hcall) hkey

theorem Metered.cancel (h : Metered key R opens closes s)
    (hcall : s.calls[i]? = some ⟨key', ratePerMinute, .waiting⟩) :
    Metered key R opens closes { s with calls := s.calls.set i ⟨key', ratePerMinute, .cancelled⟩ } := by
  have hgrants : grants key opens closes (s.calls.set i ⟨key', ratePerMinute, .cancelled⟩) =
      grants key opens closes s.calls := by
    rw [grants_set hcall, if_neg (by simp [Call.GrantedIn]), Nat.add_zero]
  refine ⟨h.rates_set hcall _, fun hR => hgrants.trans (h.starved hR), fun hR created hclock => ?_⟩
  rw [hgrants]
  exact h.budget hR created hclock

theorem Metered.poll (h : Metered key R opens closes s)
    (hcall : s.calls[i]? = some ⟨key', ratePerMinute, .waiting⟩)
    (hcreated : s.clock ≤ created) (hnow : created ≤ now) :
    Metered key R opens closes ⟨(s.limiter.attempt key' ratePerMinute created now).2,
      s.calls.set i ⟨key', ratePerMinute,
        if (s.limiter.attempt key' ratePerMinute created now).1 then .granted now else .waiting⟩, now⟩ := by
  by_cases hkey : key' = key
  · subst hkey
    obtain rfl : ratePerMinute = R := h.rates _ (List.mem_of_getElem? hcall) rfl
    refine ⟨h.rates_set hcall _, fun hR => ?_, fun hR later hlater => ?_⟩
    · have hfew : (s.limiter.attempt key' ratePerMinute created now).1 = false := by
        rw [RateLimiter.attempt_eq]
        exact TokenBucket.poll_of_capacity_lt_one hR
      rw [grants_answered hcall, hfew, h.starved hR]
      simp
    · obtain ⟨hlast, hbudget⟩ := h.budget hR created hcreated
      have hpolled := hbudget.poll hR (rate_nonneg hR) (hlast.trans hnow)
      rw [grants_answered hcall, RateLimiter.bucket_attempt_self]
      refine ⟨TokenBucket.poll_lastRefill.le.trans hlater, ?_⟩
      simpa only [RateLimiter.attempt_eq, true_and] using hpolled
  · have hgrants : grants key opens closes (s.calls.set i ⟨key', ratePerMinute,
        if (s.limiter.attempt key' ratePerMinute created now).1 then .granted now else .waiting⟩) =
        grants key opens closes s.calls := by
      rw [grants_answered hcall, if_neg fun hi : key' = key ∧ _ => hkey hi.1, Nat.add_zero]
    refine ⟨h.rates_set hcall _, fun hR => hgrants.trans (h.starved hR), fun hR later hlater => ?_⟩
    have hbefore : s.clock ≤ later := hcreated.trans (hnow.trans hlater)
    rw [hgrants, RateLimiter.bucket_attempt_of_ne (Ne.symm hkey)]
    exact h.budget hR later hbefore

theorem Metered.step (h : Metered key R opens closes s)
    (hrate : ∀ ratePerMinute, e = .acquire key ratePerMinute → ratePerMinute = R)
    (hs : s.step e = some s') : Metered key R opens closes s' := by
  cases e with
  | acquire key' ratePerMinute =>
    cases hs
    exact h.acquire fun hkey => hrate ratePerMinute (hkey ▸ rfl)
  | poll i created now =>
    simp only [System.step] at hs
    split at hs
    · rename_i hcall
      split at hs
      · rename_i hclock
        cases hs
        exact h.poll hcall hclock.1 hclock.2
      · cases hs
    · cases hs
  | cancel i =>
    simp only [System.step] at hs
    split at hs
    · rename_i hcall
      cases hs
      exact h.cancel hcall
    · cases hs

theorem Metered.run {es : List Event} (h : Metered key R opens closes s)
    (hrate : ∀ ratePerMinute, Event.acquire key ratePerMinute ∈ es → ratePerMinute = R)
    (hrun : Machine.run System.step s es = some s') : Metered key R opens closes s' := by
  refine (run_countdown (I := fun es s => Metered key R opens closes s ∧
    ∀ ratePerMinute, Event.acquire key ratePerMinute ∈ es → ratePerMinute = R) ?_ ⟨h, hrate⟩ hrun).1
  rintro e es s s' ⟨h, hrate⟩ hs
  refine ⟨h.step (fun ratePerMinute he => hrate ratePerMinute (he ▸ List.mem_cons_self)) hs, ?_⟩
  exact fun ratePerMinute he => hrate ratePerMinute (List.mem_cons_of_mem _ he)

/-- In no window does a key get more tokens than one full bucket and the refill
of the window. A negative rate grants nothing. -/
theorem rate_respected {clock : ℚ} {es : List Event}
    (hrate : ∀ ratePerMinute, Event.acquire key ratePerMinute ∈ es → ratePerMinute = R)
    (hrun : Machine.run System.step (System.start clock) es = some s) :
    (0 ≤ R → opens ≤ closes → (grants key opens closes s.calls : ℚ) ≤ R + R * (closes - opens) / 60) ∧
      (R < 0 → grants key opens closes s.calls = 0) := by
  have h : Metered key R opens closes s := (Metered.start clock).run hrate hrun
  constructor
  · intro hR hwindow
    have hbudget := (h.budget (by exact_mod_cast hR) s.clock (le_refl _)).2
    rw [mul_div_right_comm]
    exact hbudget.spent hwindow
  · intro hR
    have hfew : (R : ℚ) < 0 := by exact_mod_cast hR
    exact h.starved (hfew.trans zero_lt_one)

end

/-- Two callers of one key wait at the same time; each gets a token, a second apart. -/
def twoCallers : List Event :=
  [.acquire "echo" 60, .acquire "echo" 60, .poll 0 0 0, .poll 1 0 0, .poll 1 1 1, .poll 0 1 1, .poll 0 2 2]

theorem rate_respected_twoCallers :
    ∃ s, run System.step (System.start 0) twoCallers = some s ∧ grants "echo" 0 2 s.calls = 2 ∧
      (grants "echo" 0 2 s.calls : ℚ) ≤ (60 : Int) + (60 : Int) * (2 - 0) / 60 := by
  obtain ⟨s, hs, hgrants⟩ := Option.map_eq_some_iff.mp (show
    (run System.step (System.start 0) twoCallers).map (fun s => grants "echo" 0 2 s.calls) = some 2 by
      decide +kernel)
  exact ⟨s, hs, hgrants, (rate_respected (R := 60) (by simp [twoCallers]) hs).1 (by decide) (by norm_num)⟩

/-- `rate_per_minute` is any integer; below zero the stated bound is below zero
too, and no number of grants meets it. -/
theorem negative_rate_bound :
    ∃ es s, (∀ ratePerMinute, Event.acquire "echo" ratePerMinute ∈ es → ratePerMinute = -60) ∧
      run System.step (System.start 0) es = some s ∧
      ¬ (grants "echo" 0 60 s.calls : ℚ) ≤ (-60 : Int) + (-60 : Int) * (60 - 0) / 60 := by
  obtain ⟨s, hs, hgrants⟩ := Option.map_eq_some_iff.mp (show
    (run System.step (System.start 0) [.acquire "echo" (-60), .poll 0 0 60]).map
      (fun s => grants "echo" 0 60 s.calls) = some 0 by decide +kernel)
  refine ⟨_, s, by simp, hs, ?_⟩
  rw [hgrants]
  norm_num

-- The token of the first second is gone, and the next poll waits for another.
example : (run System.step (System.start 0)
      [.acquire "echo" 60, .acquire "echo" 60, .poll 0 0 0, .poll 0 1 1, .poll 1 1 1]).map (·.calls) =
    some [⟨"echo", 60, .granted 1⟩, ⟨"echo", 60, .waiting⟩] := by decide +kernel

end Intelliqx.Tools
