import Mathlib.Data.Rat.Defs
import Intelliqx.Py.Json

/-!
# Equality of values

`==` on the values that JSON has: numbers of all types are compared by what
they are worth, and dictionaries do not mind the order of their entries.
-/

namespace Intelliqx.Py

/-- The number that the `repr` of a finite float spells. -/
def floatValue (repr : String) : Option ℚ :=
  match repr.splitOn "e" with
  | [mantissa] => decimal mantissa
  | [mantissa, exponent] => do
    let m ← decimal mantissa
    let e ← (exponent.replace "+" "").toInt?
    return if 0 ≤ e then m * 10 ^ e.toNat else m / 10 ^ (-e).toNat
  | _ => none
where
  decimal (text : String) : Option ℚ :=
    match text.splitOn "." with
    | [digits] => digits.toInt?.map fun n => (n : ℚ)
    | [digits, fraction] => (digits ++ fraction).toInt?.map fun n => (n : ℚ) / 10 ^ fraction.length
    | _ => none

def Json.number : Json → Option ℚ
  | .bool b => some (if b then 1 else 0)
  | .int n _ => some n
  | .float r => floatValue r
  | _ => none

mutual
/-- A value is equal to itself, a `nan` too, since the same object is. -/
def Json.same : Json → Json → Bool
  | .arr xs, .arr ys => (Json.arr xs).beq (.arr ys) || itemsSame xs ys
  | .obj es, .obj fs => (Json.obj es).beq (.obj fs) || (es.length == fs.length && entriesSame es fs)
  | x, y => x.beq y || (x.number.isSome && x.number == y.number)
def itemsSame : List Json → List Json → Bool
  | [], [] => true
  | x :: xs, y :: ys => x.same y && itemsSame xs ys
  | _, _ => false
def entriesSame : List (String × Json) → List (String × Json) → Bool
  | [], _ => true
  | (k, x) :: es, fs => ((fs.lookup k).map fun y => x.same y).getD false && entriesSame es fs
end

theorem Json.same_refl (x : Json) : x.same x = true := by
  have h : x.beq x = true := (Json.beq_iff x x).mpr rfl
  cases x <;> simp [Json.same, h]

/-- Equal dictionaries. -/
def sameDict (d d' : Dict String Json) : Bool := (Json.obj d.entries).same (.obj d'.entries)

theorem sameDict_refl (d : Dict String Json) : sameDict d d = true := Json.same_refl _

example : sameDict (Dict.ofList [("n", .int 1 (by decide)), ("s", .str "x")])
    (Dict.ofList [("s", .str "x"), ("n", .bool true)]) = true := by decide

end Intelliqx.Py
