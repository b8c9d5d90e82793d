import Mathlib.Data.List.Basic
import Mathlib.Data.List.TakeWhile

/-!
# Replacing the first occurrence

`replaceFirst` finds its place by searching from the left. It replaces what
stands behind `front` exactly if no occurrence begins in `front` (`Absent`).

How far a text reaches up to a character outside of a class, or up to the next
one (`reach`), tells a replacement in one place from a replacement in another:
what takes characters of the class away never lets a text reach further.
-/

namespace Intelliqx.Py

variable {α : Type}

section
variable [DecidableEq α] {old new front rest text : List α}

/-- `str.replace(old, new, 1)` -/
def replaceFirst (old new : List α) : List α → List α
  | [] => if old = [] then new else []
  | c :: cs => if old <+: c :: cs then new ++ (c :: cs).drop old.length else c :: replaceFirst old new cs

/-- No occurrence begins in `front`. -/
def Absent (old : List α) : List α → List α → Prop
  | [], _ => True
  | c :: cs, rest => ¬ old <+: c :: (cs ++ rest) ∧ Absent old cs rest

theorem replaceFirst_append (h : old ≠ []) (new rest : List α) :
    replaceFirst old new (old ++ rest) = new ++ rest := by
  obtain ⟨c, cs, rfl⟩ := List.exists_cons_of_ne_nil h
  rw [List.cons_append, replaceFirst, if_pos ⟨rest, rfl⟩, ← List.cons_append, List.drop_left]

theorem replaceFirst_of_absent (h : Absent old front rest) (new : List α) :
    replaceFirst old new (front ++ rest) = front ++ replaceFirst old new rest := by
  induction front with
  | nil => rfl
  | cons c cs ih =>
    obtain ⟨hc, hcs⟩ := h
    rw [List.cons_append, replaceFirst, if_neg hc, ih hcs, List.cons_append]

theorem exists_of_not_absent (h : ¬ Absent old front rest) (new : List α) :
    ∃ a b c, front = a ++ b ∧ b ≠ [] ∧ b ++ rest = old ++ c ∧
      replaceFirst old new (front ++ rest) = a ++ (new ++ c) := by
  induction front with
  | nil => exact absurd trivial h
  | cons x xs ih =>
    by_cases hx : old <+: x :: (xs ++ rest)
    · obtain ⟨c, hc⟩ := hx
      refine ⟨[], x :: xs, c, rfl, List.cons_ne_nil x xs, hc.symm, ?_⟩
      rw [List.cons_append, replaceFirst, if_pos ⟨c, hc⟩, ← hc, List.drop_left, List.nil_append]
    · obtain ⟨a, b, c, rfl, hb, hc, hreplace⟩ := ih fun hxs => h ⟨hx, hxs⟩
      refine ⟨x :: a, b, c, rfl, hb, hc, ?_⟩
      rw [List.cons_append, replaceFirst, if_neg hx, hreplace, List.cons_append]

/-- What is replaced is the first occurrence, if there is one. -/
theorem replaceFirst_cases (hold : old ≠ []) (new text : List α) :
    replaceFirst old new text = text ∨
      ∃ a c, text = a ++ (old ++ c) ∧ replaceFirst old new text = a ++ (new ++ c) := by
  by_cases h : Absent old text []
  · have hnone := replaceFirst_of_absent h new
    rw [replaceFirst, if_neg hold, List.append_nil] at hnone
    exact .inl hnone
  · obtain ⟨a, b, c, rfl, -, hc, hreplace⟩ := exists_of_not_absent h new
    rw [List.append_nil] at hc hreplace
    exact .inr ⟨a, c, by rw [hc], hreplace⟩

end

-- ---------------------------------------------------------------------------
-- How far a text reaches
-- ---------------------------------------------------------------------------

/-- The characters in front of the first one outside of the class, after `n` of them. -/
def reach (p : α → Bool) : Nat → List α → Nat
  | _, [] => 0
  | 0, c :: cs => if p c then reach p 0 cs + 1 else 0
  | n + 1, c :: cs => (if p c then reach p (n + 1) cs else reach p n cs) + 1

section
variable {p : α → Bool} {n : Nat} {a b w text : List α}

theorem reach_cons (hc : p c) (n : Nat) (cs : List α) : reach p n (c :: cs) = reach p n cs + 1 := by
  cases n <;> simp [reach, hc]

theorem reach_zero (text : List α) : reach p 0 text = (text.takeWhile p).length := by
  induction text with
  | nil => rfl
  | cons c cs ih =>
    rw [reach, List.takeWhile_cons]
    split
    · rw [ih, List.length_cons]
    · rfl

theorem reach_append_of_all (hw : ∀ c ∈ w, p c) (n : Nat) (text : List α) :
    reach p n (w ++ text) = w.length + reach p n text := by
  induction w with
  | nil => exact (Nat.zero_add _).symm
  | cons c w ih =>
    obtain ⟨hc, hw⟩ := List.forall_mem_cons.mp hw
    rw [List.cons_append, reach_cons hc, ih hw, List.length_cons]
    omega

/-- Characters of the class can only lengthen what the text reaches. -/
theorem reach_le_insert (hw : ∀ c ∈ w, p c) (n : Nat) (a b : List α) :
    reach p n (a ++ b) ≤ reach p n (a ++ (w ++ b)) := by
  induction a generalizing n with
  | nil =>
    rw [List.nil_append, List.nil_append, reach_append_of_all hw]
    exact Nat.le_add_left _ _
  | cons c a ih =>
    rw [List.cons_append, List.cons_append]
    by_cases hc : p c
    · rw [reach_cons hc, reach_cons hc]
      exact Nat.succ_le_succ (ih n)
    · cases n with
      | zero => simp [reach, hc]
      | succ n => simpa [reach, hc] using ih n

/-- A text reaches to the end of its front, counted by the characters outside of the class, and over
the characters of the class behind it. -/
theorem reach_append (a b : List α) :
    reach p (a.countP fun c => !p c) (a ++ b) = a.length + (b.takeWhile p).length := by
  induction a with
  | nil => rw [List.countP_nil, List.nil_append, reach_zero, List.length_nil, Nat.zero_add]
  | cons c a ih =>
    by_cases hc : p c
    · rw [List.countP_cons_of_neg (by simpa using hc), List.cons_append, reach_cons hc, ih, List.length_cons]
      omega
    · rw [List.countP_cons_of_pos (by simpa using hc), List.cons_append, reach, if_neg hc, ih, List.length_cons]
      omega

theorem reach_replaceFirst_le [DecidableEq α] (hw : ∀ c ∈ w, p c) (hold : a ++ (w ++ b) ≠ []) (n : Nat)
    (text : List α) :
    reach p n (replaceFirst (a ++ (w ++ b)) (a ++ b) text) ≤ reach p n text := by
  obtain hsame | ⟨front, back, rfl, hreplace⟩ := replaceFirst_cases hold (a ++ b) text
  · exact (congrArg (reach p n) hsame).le
  · have hle := reach_le_insert hw n (front ++ a) (b ++ back)
    rw [hreplace]
    simpa only [List.append_assoc] using hle

end

end Intelliqx.Py
