import Mathlib.Algebra.Order.Field.Basic
import Mathlib.Tactic.Linarith
import Mathlib.Tactic.Ring

/-!
# Token buckets

A bucket fills at `rate` up to `capacity`, and a poll takes one token when there
is one. `Budget` is what bounds the takings of a window: what the window has
taken and what is left for it never exceed the capacity and the refill since it
opened.
-/

namespace Intelliqx

structure TokenBucket (K : Type u) where
  tokens : K
  /-- The clock reading of the last refill. -/
  lastRefill : K
  deriving DecidableEq

namespace TokenBucket

variable {K : Type u} [Field K] [LinearOrder K] {capacity rate opens closes now : K}

def refill (capacity rate : K) (b : TokenBucket K) (now : K) : TokenBucket K :=
  ⟨min capacity (b.tokens + (now - b.lastRefill) * rate), now⟩

/-- Whether there was a token to take, and what is left. -/
def take (b : TokenBucket K) : Bool × TokenBucket K :=
  if 1 ≤ b.tokens then (true, { b with tokens := b.tokens - 1 }) else (false, b)

def poll (capacity rate : K) (b : TokenBucket K) (now : K) : Bool × TokenBucket K :=
  (b.refill capacity rate now).take

variable {b : TokenBucket K}

theorem take_cases : 1 ≤ b.tokens ∧ b.take = (true, { b with tokens := b.tokens - 1 }) ∨
    b.tokens < 1 ∧ b.take = (false, b) := by
  by_cases h : 1 ≤ b.tokens
  · exact .inl ⟨h, if_pos h⟩
  · exact .inr ⟨lt_of_not_ge h, if_neg h⟩

@[simp] theorem refill_lastRefill : (b.refill capacity rate now).lastRefill = now := rfl

@[simp] theorem poll_lastRefill : (b.poll capacity rate now).2.lastRefill = now := by
  rcases (b.refill capacity rate now).take_cases with ⟨-, h⟩ | ⟨-, h⟩ <;> simp [poll, h]

/-- A bucket too small for one token never grants one. -/
theorem poll_of_capacity_lt_one (h : capacity < 1) : (b.poll capacity rate now).1 = false := by
  have hfew : (b.refill capacity rate now).tokens < 1 := lt_of_le_of_lt (min_le_left _ _) h
  rw [poll, take, if_neg (not_le_of_gt hfew)]

-- ---------------------------------------------------------------------------
-- What a window can take
-- ---------------------------------------------------------------------------

/-- The clock reading falls into the window, its two ends included. -/
abbrev Within (opens closes now : K) : Prop := opens ≤ now ∧ now ≤ closes

/-- After `n` grants in the window from `opens` to `closes`. -/
structure Budget (capacity rate opens closes : K) (n : ℕ) (b : TokenBucket K) : Prop where
  nonneg : 0 ≤ b.tokens
  capped : b.tokens ≤ capacity
  unopened : b.lastRefill < opens → n = 0
  running : Within opens closes b.lastRefill → n + b.tokens ≤ capacity + rate * (b.lastRefill - opens)
  spent : opens ≤ closes → (n : K) ≤ capacity + rate * (closes - opens)

variable [IsStrictOrderedRing K]

theorem bound_nonneg (hcapacity : 0 ≤ capacity) (hrate : 0 ≤ rate) (hwindow : opens ≤ closes) :
    0 ≤ capacity + rate * (closes - opens) :=
  add_nonneg hcapacity (mul_nonneg hrate (sub_nonneg.mpr hwindow))

theorem Budget.empty (hcapacity : 0 ≤ capacity) (hrate : 0 ≤ rate) :
    Budget capacity rate opens closes 0 ⟨0, now⟩ where
  nonneg := le_refl 0
  capped := hcapacity
  unopened _ := rfl
  running h := by simpa using bound_nonneg hcapacity hrate h.1
  spent h := by simpa using bound_nonneg hcapacity hrate h

theorem Budget.refill {n : ℕ} (h : Budget capacity rate opens closes n b) (hcapacity : 0 ≤ capacity)
    (hrate : 0 ≤ rate) (hclock : b.lastRefill ≤ now) :
    Budget capacity rate opens closes n (b.refill capacity rate now) where
  nonneg := by
    have hgain : 0 ≤ (now - b.lastRefill) * rate := mul_nonneg (sub_nonneg.mpr hclock) hrate
    exact le_min hcapacity (add_nonneg h.nonneg hgain)
  capped := min_le_left _ _
  unopened hnow := h.unopened (lt_of_le_of_lt hclock hnow)
  running hnow := by
    rcases lt_or_ge b.lastRefill opens with hlast | hlast
    · -- the first poll of the window finds at most a full bucket
      have hfull : (b.refill capacity rate now).tokens ≤ capacity := min_le_left _ _
      have hgain : 0 ≤ rate * (now - opens) := mul_nonneg hrate (sub_nonneg.mpr hnow.1)
      rw [h.unopened hlast, Nat.cast_zero, zero_add, refill_lastRefill]
      exact le_add_of_le_of_nonneg hfull hgain
    · have hfill : (b.refill capacity rate now).tokens ≤ b.tokens + (now - b.lastRefill) * rate :=
        min_le_right _ _
      have hbefore := h.running ⟨hlast, hclock.trans hnow.2⟩
      have hsplit : rate * (now - opens) =
          rate * (b.lastRefill - opens) + (now - b.lastRefill) * rate := by ring
      rw [refill_lastRefill]
      linarith
  spent := h.spent

theorem Budget.take {n : ℕ} (h : Budget capacity rate opens closes n b) (hrate : 0 ≤ rate) :
    Budget capacity rate opens closes
      (n + if b.take.1 ∧ Within opens closes b.lastRefill then 1 else 0) b.take.2 := by
  rcases b.take_cases with ⟨hone, ht⟩ | ⟨-, ht⟩
  · rw [ht]
    have hleft : 0 ≤ b.tokens - 1 := sub_nonneg.mpr hone
    have hcapped : b.tokens - 1 ≤ capacity := (sub_le_self _ zero_le_one).trans h.capped
    by_cases hw : Within opens closes b.lastRefill
    · have hrunning := h.running hw
      have hgain : rate * (b.lastRefill - opens) ≤ rate * (closes - opens) :=
        mul_le_mul_of_nonneg_left (sub_le_sub_right hw.2 opens) hrate
      rw [if_pos ⟨rfl, hw⟩]
      refine ⟨hleft, hcapped, fun hlast => absurd hw.1 (not_le_of_gt hlast), fun _ => ?_, fun _ => ?_⟩
      · push_cast
        linarith
      · push_cast
        linarith
    · rw [if_neg (by simp [hw]), Nat.add_zero]
      exact ⟨hleft, hcapped, h.unopened, fun hnow => absurd hnow hw, h.spent⟩
  · rw [ht, if_neg (by simp), Nat.add_zero]
    exact h

/-- A poll at a later clock reading. -/
theorem Budget.poll {n : ℕ} (h : Budget capacity rate opens closes n b) (hcapacity : 0 ≤ capacity)
    (hrate : 0 ≤ rate) (hclock : b.lastRefill ≤ now) :
    Budget capacity rate opens closes
      (n + if (b.poll capacity rate now).1 ∧ Within opens closes now then 1 else 0)
      (b.poll capacity rate now).2 :=
  (h.refill hcapacity hrate hclock).take hrate

end TokenBucket

end Intelliqx
