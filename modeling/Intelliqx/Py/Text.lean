import Mathlib.Data.List.DropRight
import Mathlib.Data.List.Infix
import Mathlib.Data.List.TakeWhile

/-!
# Python text

The string operations the code uses, on lists of characters where a proof
looks inside the text.
-/

namespace Intelliqx.Py

/-- `f"{n:08d}"` for `width` 8: the decimal digits, filled up with zeros. -/
def zeroPadded (width n : Nat) : String :=
  .ofList (List.leftpad width '0' (Nat.toDigits 10 n))

theorem zeroPadded_injective (width : Nat) : Function.Injective (zeroPadded width) := by
  have hvalue : ∀ n, Nat.ofDigitChars 10 (zeroPadded width n).toList 0 = n := fun n => by
    simp [zeroPadded, List.leftpad, Nat.ofDigitChars_append]
  intro n m h
  rw [← hvalue n, ← hvalue m, h]

theorem toString_nat_injective : Function.Injective (toString : Nat → String) := by
  intro n m h
  apply zeroPadded_injective 0
  simpa only [zeroPadded, List.leftpad, Nat.toString_eq_ofList_toDigits, Nat.zero_sub,
    List.replicate_zero, List.nil_append] using h

/-- A name that ends in a counter, as `f"sub-{n}"`. -/
theorem append_toString_inj {pre : String} {n m : Nat} :
    pre ++ toString n = pre ++ toString m ↔ n = m := by
  refine ⟨?_, fun h => h ▸ rfl⟩
  intro h
  have h := congrArg String.toList h
  simp only [String.toList_append, List.append_cancel_left_eq] at h
  exact toString_nat_injective (String.toList_injective h)

/-- An optional text where the code tests its truth: the empty text counts as absent. -/
def truthy (s : Option String) : Option String := s.filter (· ≠ "")

/-- `pattern in text` -/
def within (pattern text : String) : Bool := decide (pattern.toList <:+: text.toList)

-- ---------------------------------------------------------------------------
-- Whitespace
-- ---------------------------------------------------------------------------

/-- `str.isspace` of one character. -/
def isSpace (c : Char) : Bool :=
  let n := c.toNat
  (9 ≤ n && n ≤ 13) || (28 ≤ n && n ≤ 32) || n == 0x85 || n == 0xa0 || n == 0x1680 ||
    (0x2000 ≤ n && n ≤ 0x200a) || n == 0x2028 || n == 0x2029 || n == 0x202f || n == 0x205f || n == 0x3000

/-- `str.strip()`. -/
def strip (s : String) : String :=
  .ofList ((s.toList.dropWhile isSpace).rdropWhile isSpace)

theorem dropWhile_initial {p : α → Bool} {l m : List α} (h : m <+: l.dropWhile p) :
    m.dropWhile p = m := by
  cases m with
  | nil => rfl
  | cons a m =>
    obtain ⟨rest, h⟩ := h
    have ha : ¬ p a := by
      have := List.head_dropWhile_not p (l := l) (by simp [← h])
      simpa [← h] using this
    simp [ha]

@[simp] theorem strip_strip (s : String) : strip (strip s) = strip s := by
  simp only [strip, String.toList_ofList]
  rw [dropWhile_initial (List.rdropWhile_prefix _ _), List.rdropWhile_idempotent]

theorem rdropWhile_append_of_ne_nil {p : α → Bool} {l m : List α} (h : m.rdropWhile p ≠ []) :
    (l ++ m).rdropWhile p = l ++ m.rdropWhile p := by
  rw [List.rdropWhile, ne_eq, List.reverse_eq_nil_iff, ← List.isEmpty_iff] at h
  rw [List.rdropWhile, List.reverse_append, List.dropWhile_append, if_neg h, List.reverse_append,
    List.reverse_reverse, List.rdropWhile]

theorem rdropWhile_cons_of_neg {p : α → Bool} {a : α} {l : List α} (h : ¬ p a) :
    (a :: l).rdropWhile p = a :: l.rdropWhile p := by
  by_cases hl : l.rdropWhile p = []
  · have hall : ∀ x ∈ l.reverse, p x := by simpa [List.rdropWhile] using hl
    rw [hl, List.rdropWhile, List.reverse_cons, List.dropWhile_append_of_pos hall]
    simp [h]
  · exact rdropWhile_append_of_ne_nil (l := [a]) hl

theorem strip_ofList (l : List Char) :
    strip (.ofList l) = .ofList ((l.dropWhile isSpace).rdropWhile isSpace) := by
  rw [strip, String.toList_ofList]

theorem strip_of_not_space {l : List Char} (h : ∀ c ∈ l, isSpace c = false) :
    strip (.ofList l) = .ofList l := by
  have hdrop : l.dropWhile isSpace = l := by
    cases l with
    | nil => rfl
    | cons c l => simp [h c List.mem_cons_self]
  have hlast : l.rdropWhile isSpace = l :=
    List.rdropWhile_eq_self_iff.mpr fun hne => by simp [h _ (List.getLast_mem hne)]
  rw [strip_ofList, hdrop, hlast]

/-- `str.split()`: the words between runs of whitespace. -/
def splitWords (s : String) : List String :=
  go s.toList []
where
  go : List Char → List Char → List String
    | [], word => if word.isEmpty then [] else [.ofList word.reverse]
    | c :: cs, word =>
      if isSpace c then (if word.isEmpty then go cs [] else .ofList word.reverse :: go cs [])
      else go cs (c :: word)

/-- `bytes.decode("utf-8")`, where nothing stands for the `UnicodeDecodeError`. -/
def decodeUtf8 (content : List UInt8) : Option String := String.fromUTF8? ⟨content.toArray⟩

/-- `str.encode("utf-8")` -/
def encodeUtf8 (s : String) : List UInt8 := s.toByteArray.data.toList

@[simp] theorem decodeUtf8_encodeUtf8 (s : String) : decodeUtf8 (encodeUtf8 s) = some s := by
  rw [decodeUtf8, encodeUtf8, Array.toArray_toList, String.fromUTF8?, dif_pos s.isValidUTF8]
  rfl

-- ---------------------------------------------------------------------------
-- Characters and lines
-- ---------------------------------------------------------------------------

/-- `str.replace` of one character by another. -/
def replaceChar (old new : Char) (s : String) : String :=
  .ofList (s.toList.map fun c => if c = old then new else c)

/-- The boundaries `str.splitlines` knows. -/
def isLineBreak (c : Char) : Bool :=
  let n := c.toNat
  (10 ≤ n && n ≤ 13) || (28 ≤ n && n ≤ 30) || n == 0x85 || n == 0x2028 || n == 0x2029

/-- `str.splitlines(True)` -/
def splitLines (s : String) : List String :=
  go s.toList []
where
  go : List Char → List Char → List String
    | [], line => if line.isEmpty then [] else [.ofList line.reverse]
    | '\r' :: '\n' :: cs, line => .ofList ('\n' :: '\r' :: line).reverse :: go cs []
    | c :: cs, line =>
      if isLineBreak c then .ofList (c :: line).reverse :: go cs [] else go cs (c :: line)

theorem flatten_splitLines_go (text line : List Char) :
    ((splitLines.go text line).map String.toList).flatten = line.reverse ++ text := by
  induction text, line using splitLines.go.induct with
  | case1 line h => simp [splitLines.go, List.isEmpty_iff.mp h]
  | case2 line h => simp [splitLines.go, h]
  | case3 cs line ih => simp [splitLines.go, ih]
  | case4 c cs line happart hbreak ih => simp [splitLines.go, hbreak, ih]
  | case5 c cs line happart hbreak ih => simp [splitLines.go, hbreak, ih]

theorem flatten_splitLines (s : String) : ((splitLines s).map String.toList).flatten = s.toList :=
  flatten_splitLines_go s.toList []

/-- `textwrap.indent`: lines of whitespace stay as they are. -/
def indent (text margin : String) : String :=
  String.join ((splitLines text).map fun line => if strip line ≠ "" then margin ++ line else line)

end Intelliqx.Py
