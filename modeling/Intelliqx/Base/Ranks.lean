import Mathlib.Algebra.Order.Floor.Semiring
import Mathlib.Data.List.Sort
import Mathlib.Data.Rat.Floor

/-!
# Nearest ranks

The nearest-rank quantile of a list is its smallest element with enough elements
at or below it, which is the element of rank `⌈r⌉` in order (`nearestRank_iff`).
-/

namespace Intelliqx

variable {α : Type u} [LinearOrder α]

/-- The smallest element such that at least `r` elements are at most it. -/
def NearestRank (xs : List α) (r : ℚ) (x : α) : Prop :=
  IsLeast {y | y ∈ xs ∧ r ≤ (xs.countP (· ≤ y) : ℚ)} x

def inOrder (xs : List α) : List α := xs.insertionSort (· ≤ ·)

section
variable {xs ys : List α} {x : α} {r : ℚ} {i m n : Nat}

theorem inOrder_perm : (inOrder xs).Perm xs := List.perm_insertionSort _ _

theorem length_inOrder : (inOrder xs).length = xs.length := inOrder_perm.length_eq

theorem pairwise_inOrder : (inOrder xs).Pairwise (· ≤ ·) := List.pairwise_insertionSort _ _

/-- In order, the elements that are at most `x` come first. -/
theorem lt_countP_iff (hys : ys.Pairwise (· ≤ ·)) (hi : i < ys.length) : i < ys.countP (· ≤ x) ↔ ys[i] ≤ x := by
  induction ys generalizing i with
  | nil => exact absurd hi (Nat.not_lt_zero i)
  | cons y ys ih =>
    obtain ⟨hy, hys⟩ := List.pairwise_cons.mp hys
    by_cases hle : y ≤ x
    · have hcount : (y :: ys).countP (· ≤ x) = ys.countP (· ≤ x) + 1 :=
        List.countP_cons_of_pos (p := fun y => decide (y ≤ x)) (decide_eq_true hle)
      rw [hcount]
      cases i with
      | zero => exact iff_of_true (Nat.succ_pos _) hle
      | succ i => rw [Nat.succ_lt_succ_iff, ih hys (Nat.lt_of_succ_lt_succ hi), List.getElem_cons_succ]
    · have hnone : (y :: ys).countP (· ≤ x) = 0 := by
        refine List.countP_eq_zero.mpr fun z hz => ?_
        rcases List.mem_cons.mp hz with rfl | hz
        · simpa using hle
        · simpa using (not_le.mp hle).trans_le (hy z hz)
      rw [hnone]
      refine iff_of_false (Nat.not_lt_zero i) fun h => hle ?_
      rcases List.mem_cons.mp (List.getElem_mem hi) with heq | hmem
      · exact heq ▸ h
      · exact (hy _ hmem).trans h

theorem nearestRank_iff (hpos : 0 < r) (hle : r ≤ xs.length) :
    NearestRank xs r x ↔ (inOrder xs)[⌈r⌉₊ - 1]? = some x := by
  have hk : 0 < ⌈r⌉₊ := Nat.ceil_pos.mpr hpos
  have hn : ⌈r⌉₊ ≤ xs.length := Nat.ceil_le.mpr hle
  have hi : ⌈r⌉₊ - 1 < (inOrder xs).length := by
    rw [length_inOrder]
    omega
  have hset : {y | y ∈ xs ∧ r ≤ (xs.countP (· ≤ y) : ℚ)} = {y | y ∈ xs ∧ (inOrder xs)[⌈r⌉₊ - 1] ≤ y} := by
    ext y
    refine and_congr_right fun _ => ?_
    rw [← lt_countP_iff pairwise_inOrder hi, inOrder_perm.countP_eq, ← Nat.ceil_le]
    omega
  have hleast : IsLeast {y | y ∈ xs ∧ (inOrder xs)[⌈r⌉₊ - 1] ≤ y} (inOrder xs)[⌈r⌉₊ - 1] :=
    ⟨⟨inOrder_perm.mem_iff.mp (List.getElem_mem hi), le_rfl⟩, fun y hy => hy.2⟩
  rw [NearestRank, hset, List.getElem?_eq_getElem hi, Option.some_inj]
  exact ⟨fun h => hleast.unique h, fun h => h ▸ hleast⟩

/-- Rounding the rank down gives the next element where the rank is whole. -/
theorem floor_rank_iff (hpos : 0 < r) : (inOrder xs)[⌊r⌋₊]? = (inOrder xs)[⌈r⌉₊ - 1]? ↔
    ∀ m : Nat, r = m → (inOrder xs)[m]? = (inOrder xs)[m - 1]? := by
  by_cases hwhole : ∃ m : Nat, r = m
  · obtain ⟨m, rfl⟩ := hwhole
    rw [Nat.floor_natCast, Nat.ceil_natCast]
    refine ⟨fun h k hk => ?_, fun h => h m rfl⟩
    rwa [← Nat.cast_injective hk]
  · refine iff_of_true ?_ fun m hm => absurd ⟨m, hm⟩ hwhole
    have hlt : (⌊r⌋₊ : ℚ) < r := lt_of_le_of_ne (Nat.floor_le hpos.le) fun h => hwhole ⟨_, h.symm⟩
    have hlow : ⌊r⌋₊ < ⌈r⌉₊ := Nat.lt_ceil.mpr hlt
    have hhigh := Nat.ceil_le_floor_add_one r
    have heq : ⌈r⌉₊ - 1 = ⌊r⌋₊ := by omega
    rw [heq]

end

end Intelliqx
