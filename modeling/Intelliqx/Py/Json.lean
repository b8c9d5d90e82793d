import Intelliqx.Base.Dict
import Intelliqx.Base.Except

/-!
# Python values and their JSON text

`jsonDumps` is `json.dumps` with its default options and `jsonLoads` is
`json.loads`. A JSON text is kept as the tree it denotes: every text in the
model is written by the one and read by the other. `jsonLoads_jsonDumps`
says which values survive the round trip unchanged.
-/

namespace Intelliqx.Py

/-- An exception instance: the name of its type and its `str()`. -/
structure PyException where
  typeName : String
  text : String
  deriving DecidableEq, Repr

/-- A dictionary key. Keys of other types are named by their type. -/
inductive PyKey
  | none
  | bool (b : Bool)
  | int (n : Int)
  | float (repr : String)
  | str (s : String)
  | bytes (content : List UInt8)
  | other (typeName : String)
  deriving DecidableEq, Repr

/-- A Python value, as far as serialisation can tell values apart. A float is
its `repr`, a set has its members in the order of iteration; objects that are
none of these, such as datetimes, are named by their type. -/
inductive PyValue
  | none
  | bool (b : Bool)
  | int (n : Int)
  | float (repr : String)
  | str (s : String)
  | bytes (content : List UInt8)
  | list (items : List PyValue)
  | tuple (items : List PyValue)
  | set (items : List PyValue)
  | dict (entries : List (PyKey × PyValue))
  | other (typeName : String)

/-- Integers that have a decimal text: `sys.get_int_max_str_digits()` allows 4300 digits. -/
def Short (n : Int) : Prop := (Nat.toDigits 10 n.natAbs).length ≤ 4300

instance (n : Int) : Decidable (Short n) := inferInstanceAs (Decidable (_ ≤ _))

inductive Json
  | null
  | bool (b : Bool)
  | int (n : Int) (short : Short n)
  | float (repr : String)
  | str (s : String)
  | arr (items : List Json)
  | obj (entries : List (String × Json))

mutual
def Json.beq : Json → Json → Bool
  | .null, .null => true
  | .bool a, .bool b => a == b
  | .int a _, .int b _ => a == b
  | .float a, .float b => a == b
  | .str a, .str b => a == b
  | .arr xs, .arr ys => itemsBeq xs ys
  | .obj xs, .obj ys => entriesBeq xs ys
  | _, _ => false
def itemsBeq : List Json → List Json → Bool
  | [], [] => true
  | x :: xs, y :: ys => x.beq y && itemsBeq xs ys
  | _, _ => false
def entriesBeq : List (String × Json) → List (String × Json) → Bool
  | [], [] => true
  | (k, x) :: xs, (l, y) :: ys => k == l && x.beq y && entriesBeq xs ys
  | _, _ => false
end

mutual
theorem Json.beq_iff : ∀ a b : Json, a.beq b = true ↔ a = b
  | .null, b => by cases b <;> simp [Json.beq]
  | .bool _, b => by cases b <;> simp [Json.beq]
  | .int _ _, b => by cases b <;> simp [Json.beq]
  | .float _, b => by cases b <;> simp [Json.beq]
  | .str _, b => by cases b <;> simp [Json.beq]
  | .arr xs, b => by cases b <;> simp [Json.beq, itemsBeq_iff xs]
  | .obj xs, b => by cases b <;> simp [Json.beq, entriesBeq_iff xs]
theorem itemsBeq_iff : ∀ xs ys, itemsBeq xs ys = true ↔ xs = ys
  | [], ys => by cases ys <;> simp [itemsBeq]
  | x :: xs, ys => by cases ys <;> simp [itemsBeq, Json.beq_iff x, itemsBeq_iff xs]
theorem entriesBeq_iff : ∀ xs ys, entriesBeq xs ys = true ↔ xs = ys
  | [], ys => by cases ys <;> simp [entriesBeq]
  | (_, x) :: xs, ys => by
    cases ys <;> simp [entriesBeq, Json.beq_iff x, entriesBeq_iff xs, Prod.ext_iff]
end

instance : DecidableEq Json := fun a b => decidable_of_iff _ (Json.beq_iff a b)

/-- What the text of an integer raises that is too long. -/
def tooLong : PyException :=
  ⟨"ValueError", "Exceeds the limit (4300 digits) for integer string conversion; "
    ++ "use sys.set_int_max_str_digits() to increase the limit"⟩

/-- The spelling of a float in JSON. -/
def floatText : String → String
  | "nan" => "NaN"
  | "inf" => "Infinity"
  | "-inf" => "-Infinity"
  | r => r

def dumpsKey : PyKey → Except PyException String
  | .none => .ok "null"
  | .bool b => .ok (if b then "true" else "false")
  | .int n => if Short n then .ok (toString n) else .error tooLong
  | .float r => .ok (floatText r)
  | .str s => .ok s
  | .bytes _ => .error ⟨"TypeError", "keys must be str, int, float, bool or None, not bytes"⟩
  | .other t =>
    .error ⟨"TypeError", s!"keys must be str, int, float, bool or None, not {t}"⟩

mutual
def jsonDumps : PyValue → Except PyException Json
  | .none => .ok .null
  | .bool b => .ok (.bool b)
  | .int n => if h : Short n then .ok (.int n h) else .error tooLong
  | .float r => .ok (.float r)
  | .str s => .ok (.str s)
  | .list xs => do .ok (.arr (← dumpsItems xs))
  | .tuple xs => do .ok (.arr (← dumpsItems xs))
  | .dict es => do .ok (.obj (← dumpsEntries es))
  | .bytes _ => .error ⟨"TypeError", "Object of type bytes is not JSON serializable"⟩
  | .set _ => .error ⟨"TypeError", "Object of type set is not JSON serializable"⟩
  | .other t => .error ⟨"TypeError", s!"Object of type {t} is not JSON serializable"⟩
def dumpsItems : List PyValue → Except PyException (List Json)
  | [] => .ok []
  | x :: xs => do
    let j ← jsonDumps x
    let js ← dumpsItems xs
    .ok (j :: js)
def dumpsEntries : List (PyKey × PyValue) → Except PyException (List (String × Json))
  | [] => .ok []
  | (k, x) :: es => do
    let k ← dumpsKey k
    let j ← jsonDumps x
    let js ← dumpsEntries es
    .ok ((k, j) :: js)
end

/-- The floats JSON itself has no spelling for. -/
def nonFinite : List String := ["nan", "inf", "-inf"]

mutual
/-- What `allow_nan=False` adds: the first float that is not finite raises. -/
def Json.compliant : Json → Except PyException Unit
  | .float r =>
    if r ∈ nonFinite then .error ⟨"ValueError", s!"Out of range float values are not JSON compliant: {r}"⟩
    else .ok ()
  | .arr js => itemsCompliant js
  | .obj es => entriesCompliant es
  | _ => .ok ()
def itemsCompliant : List Json → Except PyException Unit
  | [] => .ok ()
  | j :: js => do
    j.compliant
    itemsCompliant js
def entriesCompliant : List (String × Json) → Except PyException Unit
  | [] => .ok ()
  | (_, j) :: es => do
    j.compliant
    entriesCompliant es
end

mutual
def jsonLoads : Json → PyValue
  | .null => .none
  | .bool b => .bool b
  | .int n _ => .int n
  | .float r => .float r
  | .str s => .str s
  | .arr js => .list (loadsItems js)
  -- of two equal keys the later value wins, at the place of the first
  | .obj es => .dict (Dict.ofList (loadsEntries es)).entries
def loadsItems : List Json → List PyValue
  | [] => []
  | j :: js => jsonLoads j :: loadsItems js
def loadsEntries : List (String × Json) → List (PyKey × PyValue)
  | [] => []
  | (k, j) :: es => (.str k, jsonLoads j) :: loadsEntries es
end

mutual
/-- The values JSON has a spelling for: no tuples, no bytes, sets or foreign
objects, only short integers, and dictionaries with distinct string keys. -/
def PyValue.Representable : PyValue → Prop
  | .int n => Short n
  | .list xs => ItemsRepresentable xs
  | .dict es => EntriesRepresentable es ∧ (es.map Prod.fst).Nodup
  | .bytes _ | .tuple _ | .set _ | .other _ => False
  | _ => True
def ItemsRepresentable : List PyValue → Prop
  | [] => True
  | x :: xs => x.Representable ∧ ItemsRepresentable xs
def EntriesRepresentable : List (PyKey × PyValue) → Prop
  | [] => True
  | (k, x) :: es => (∃ s, k = .str s) ∧ x.Representable ∧ EntriesRepresentable es
end

mutual
theorem jsonLoads_jsonDumps :
    ∀ v : PyValue, v.Representable → ∃ j, jsonDumps v = .ok j ∧ jsonLoads j = v
  | .none, _ | .bool _, _ | .float _, _ | .str _, _ => ⟨_, by rfl, by rfl⟩
  | .int n, h => ⟨.int n h, by rw [jsonDumps]; exact dif_pos h, by rfl⟩
  | .list xs, h => by
    obtain ⟨js, hd, hl⟩ := loadsItems_dumpsItems xs h
    exact ⟨.arr js, by simp [jsonDumps, hd], by simp [jsonLoads, hl]⟩
  | .dict es, h => by
    obtain ⟨js, hd, hl⟩ := loadsEntries_dumpsEntries es h.1
    refine ⟨.obj js, by simp [jsonDumps, hd], ?_⟩
    simp [jsonLoads, hl, Dict.entries_ofList es h.2]
  | .bytes _, h | .tuple _, h | .set _, h | .other _, h => h.elim
theorem loadsItems_dumpsItems :
    ∀ xs, ItemsRepresentable xs → ∃ js, dumpsItems xs = .ok js ∧ loadsItems js = xs
  | [], _ => ⟨[], by rfl, by rfl⟩
  | x :: xs, ⟨hx, hxs⟩ => by
    obtain ⟨j, hd, hl⟩ := jsonLoads_jsonDumps x hx
    obtain ⟨js, hds, hls⟩ := loadsItems_dumpsItems xs hxs
    exact ⟨j :: js, by simp [dumpsItems, hd, hds], by simp [loadsItems, hl, hls]⟩
theorem loadsEntries_dumpsEntries :
    ∀ es, EntriesRepresentable es → ∃ js, dumpsEntries es = .ok js ∧ loadsEntries js = es
  | [], _ => ⟨[], by rfl, by rfl⟩
  | (_, x) :: es, ⟨⟨s, rfl⟩, hx, hes⟩ => by
    obtain ⟨j, hd, hl⟩ := jsonLoads_jsonDumps x hx
    obtain ⟨js, hds, hls⟩ := loadsEntries_dumpsEntries es hes
    exact ⟨(s, j) :: js, by simp [dumpsEntries, dumpsKey, hd, hds], by simp [loadsEntries, hl, hls]⟩
end

theorem entriesRepresentable_iff {es : List (PyKey × PyValue)} :
    EntriesRepresentable es ↔ ∀ e ∈ es, (∃ s, e.1 = .str s) ∧ e.2.Representable := by
  induction es with
  | nil => simp [EntriesRepresentable]
  | cons e es ih => simp [EntriesRepresentable, ih, and_assoc]

mutual
/-- What is read of a JSON text has a spelling in JSON. -/
theorem representable_jsonLoads : ∀ j, (jsonLoads j).Representable
  | .null | .bool _ | .float _ | .str _ => trivial
  | .int _ short => short
  | .arr js => representable_loadsItems js
  | .obj es => by
    refine ⟨entriesRepresentable_iff.mpr fun e he => ?_, (Dict.ofList (loadsEntries es)).nodup⟩
    obtain ⟨e', he', hkey, hval⟩ := Dict.exists_of_get?_index (Dict.get?_eq_some_iff.mpr he)
    have hread := entriesRepresentable_iff.mp (representable_loadsEntries es) e' he'
    rwa [hkey, hval] at hread
theorem representable_loadsItems : ∀ js, ItemsRepresentable (loadsItems js)
  | [] => trivial
  | j :: js => ⟨representable_jsonLoads j, representable_loadsItems js⟩
theorem representable_loadsEntries : ∀ es, EntriesRepresentable (loadsEntries es)
  | [] => trivial
  | (k, j) :: es => ⟨⟨k, rfl⟩, representable_jsonLoads j, representable_loadsEntries es⟩
end

end Intelliqx.Py
