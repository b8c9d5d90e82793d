import Intelliqx.Base.Dict
import Mathlib.Algebra.BigOperators.Group.List.Basic
import Mathlib.Algebra.Ring.Nat

/-!
# Tallies

`tally key l` counts how many items of `l` have each key. Its counts for some
keys add up to the number of the items that have one of them.
-/

namespace Intelliqx

variable {α : Type u} {κ : Type v} [DecidableEq κ]

/-- One more of the key. -/
def bump (d : Dict κ Nat) (k : κ) : Dict κ Nat := d.insert k ((d.get? k).getD 0 + 1)

def tally (key : α → κ) (l : List α) : Dict κ Nat := l.foldl (fun d a => bump d (key a)) .empty

/-- The counts of the keys that satisfy `p`. -/
def total (p : κ → Bool) (d : Dict κ Nat) : Nat := ((d.entries.filter fun e => p e.1).map Prod.snd).sum

section
variable {d : Dict κ Nat} {k k' : κ} {key : α → κ} {l : List α} {p : κ → Bool}

theorem getD_bump : ((bump d k).get? k').getD 0 = (d.get? k').getD 0 + if k' = k then 1 else 0 := by
  rw [bump, Dict.get?_insert]
  split
  · rename_i h
    rw [h]
    rfl
  · rfl

theorem total_bump : total p (bump d k) = total p d + if p k then 1 else 0 := by
  by_cases hk : k ∈ d.keys
  · obtain ⟨n, hn⟩ := Option.isSome_iff_exists.mp (Dict.isSome_get?_iff.mpr hk)
    obtain ⟨rest, hold, hnew⟩ := Dict.insert_perm (v := n + 1) hn
    rw [bump, hn, Option.getD_some, total, total, ((hnew.filter _).map _).sum_eq, ((hold.filter _).map _).sum_eq]
    by_cases hp : p k = true
    · simp only [List.filter_cons_of_pos, hp, List.map_cons, List.sum_cons, if_true]
      omega
    · simp [hp]
  · have hnone : d.get? k = none := by
      rw [← Option.not_isSome_iff_eq_none, Dict.isSome_get?_iff]
      exact hk
    rw [bump, hnone, total, total, Dict.entries_insert_of_not_mem hk, List.filter_append, List.map_append,
      List.sum_append]
    by_cases hp : p k = true <;> simp [hp]

theorem getD_tally : ((tally key l).get? k).getD 0 = l.countP fun a => key a = k := by
  have hfold (d : Dict κ Nat) : ((l.foldl (fun d a => bump d (key a)) d).get? k).getD 0 =
      (d.get? k).getD 0 + l.countP fun a => key a = k := by
    induction l generalizing d with
    | nil => rfl
    | cons a l ih =>
      rw [List.foldl_cons, ih, getD_bump, List.countP_cons]
      simp only [decide_eq_true_eq, @eq_comm _ k (key a)]
      omega
  rw [tally, hfold, Dict.get?_empty, Option.getD_none, zero_add]

theorem total_tally : total p (tally key l) = l.countP fun a => p (key a) := by
  have hfold (d : Dict κ Nat) : total p (l.foldl (fun d a => bump d (key a)) d) =
      total p d + l.countP fun a => p (key a) := by
    induction l generalizing d with
    | nil => rfl
    | cons a l ih =>
      rw [List.foldl_cons, ih, total_bump, List.countP_cons]
      omega
  rw [tally, hfold]
  exact Nat.zero_add _

end

end Intelliqx
