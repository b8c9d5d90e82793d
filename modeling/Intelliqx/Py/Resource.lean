import Mathlib.Data.Nat.Basic
import Mathlib.Logic.Function.Basic
import Mathlib.Order.Basic

/-!
# Resource limits

`setrlimit` of an unprivileged process: the soft limit is at most the hard one,
and the hard limit never rises. So what has lowered a hard limit cannot be undone.
-/

namespace Intelliqx.Py

inductive Resource
  | cpu
  | as
  | nofile
  deriving DecidableEq

structure Rlimit where
  soft : Nat
  hard : Nat
  soft_le : soft ≤ hard

/-- The limits of a process. -/
abbrev Limits := Resource → Rlimit

def hardOf (limits : Limits) (r : Resource) : Nat := (limits r).hard

/-- An exception: its type, whether it is an `OSError` or a `ValueError`, and its text. -/
structure OsException where
  typeName : String
  isOsOrValueError : Bool
  text : String
  deriving DecidableEq

def rlimInfinity : Nat := 0xffffffffffffffff

/-- An int as `setrlimit` passes it on: a C long, read as an unsigned limit, so
that -1 is `rlimInfinity`. -/
def rlim (n : Int) : Except OsException Nat :=
  if -0x8000000000000000 ≤ n ∧ n < 0x8000000000000000 then .ok (n % 0x10000000000000000).toNat
  else .error ⟨"OverflowError", false, "Python int too large to convert to C long"⟩

/-- `setrlimit` of one resource. -/
def setrlimit (limits : Limits) (r : Resource) (soft hard : Nat) : Except OsException Limits :=
  if h : soft ≤ hard then
    if hard ≤ hardOf limits r then .ok (Function.update limits r ⟨soft, hard, h⟩)
    else .error ⟨"ValueError", true, "not allowed to raise maximum limit"⟩
  else .error ⟨"ValueError", true, "current limit exceeds maximum limit"⟩

section
variable {limits limits' old : Limits} {r s : Resource} {soft hard : Nat}

/-- Setting both limits of a resource to one value. -/
theorem setrlimit_both (limits : Limits) (r : Resource) (n : Nat) : setrlimit limits r n n =
    if n ≤ hardOf limits r then .ok (Function.update limits r ⟨n, n, le_rfl⟩)
    else .error ⟨"ValueError", true, "not allowed to raise maximum limit"⟩ := by
  rw [setrlimit, dif_pos le_rfl]

/-- Setting a resource back to limits it has had. -/
theorem setrlimit_back (limits : Limits) (r : Resource) (old : Rlimit) : setrlimit limits r old.soft old.hard =
    if old.hard ≤ hardOf limits r then .ok (Function.update limits r old)
    else .error ⟨"ValueError", true, "not allowed to raise maximum limit"⟩ := by
  rw [setrlimit, dif_pos old.soft_le]

/-- No hard limit rises. -/
def Lowers (limits limits' : Limits) : Prop := ∀ r, hardOf limits' r ≤ hardOf limits r

theorem Lowers.refl (limits : Limits) : Lowers limits limits := fun _ => le_rfl

theorem Lowers.trans {limits'' : Limits} (h : Lowers limits limits') (h' : Lowers limits' limits'') :
    Lowers limits limits'' := fun r => (h' r).trans (h r)

theorem hardOf_update (limits : Limits) (r : Resource) (new : Rlimit) :
    hardOf (Function.update limits r new) = Function.update (hardOf limits) r new.hard := by
  funext s
  rw [hardOf, Function.apply_update (fun _ => Rlimit.hard)]
  rfl

/-- A hard limit that is set to itself stays. -/
theorem hardOf_update_self {new : Rlimit} (h : new.hard = hardOf limits r) :
    hardOf (Function.update limits r new) = hardOf limits := by
  rw [hardOf_update, h, Function.update_eq_self]

theorem lowers_update {new : Rlimit} (h : new.hard ≤ hardOf limits r) :
    Lowers limits (Function.update limits r new) := by
  intro s
  rw [hardOf_update]
  by_cases hs : s = r
  · subst hs
    rwa [Function.update_self]
  · rw [Function.update_of_ne hs]

theorem setrlimit_lowers (h : setrlimit limits r soft hard = .ok limits') : Lowers limits limits' := by
  unfold setrlimit at h
  split at h
  · split at h
    · rename_i hle
      cases h
      exact lowers_update hle
    · cases h
  · cases h

end

end Intelliqx.Py
