import Intelliqx.Py.Parameters
import Intelliqx.Py.Text

/-!
# Parameter lists as text

The text of a parameter list, and its reader. How an expression is written
and read is a parameter, `ExprSyntax`: what `ast.unparse` writes and what the
parser of the language makes of it.
-/

namespace Intelliqx.Py

def isBlank (c : Char) : Bool := c = ' ' || c = '\t' || c = '\n' || c = '\r' || c = '\x0c'

def skip (cs : List Char) : List Char := cs.dropWhile isBlank

def atEnd : List Char → Bool
  | [] => true
  | c :: _ => c = ','

/-- Where an expression stops: at a comma, at the end, or at the ` =` of a default. -/
def AtStop (rest : List Char) : Prop :=
  atEnd rest ∨ ∃ r, rest = ' ' :: '=' :: r ∧ r.head? ≠ some '='

def Trimmed (l : List Char) : Prop :=
  (∃ c ∈ l.head?, isSpace c = false) ∧ ∃ c ∈ l.getLast?, isSpace c = false

def beforeColon (l : List Char) : List Char := l.takeWhile (· ≠ ':')

theorem beforeColon_append {l r : List Char} (h : ':' ∉ l) : beforeColon (l ++ r) = l ++ beforeColon r :=
  List.takeWhile_append_of_pos fun c hc => by simpa using fun (he : c = ':') => h (he ▸ hc)

theorem beforeColon_of_not_mem {l : List Char} (h : ':' ∉ l) : beforeColon l = l := by
  simpa [beforeColon] using fun (c : Char) (hc : c ∈ l) (he : c = ':') => h (he ▸ hc)

theorem not_mem_beforeColon {l : List Char} : ':' ∉ beforeColon l := fun h => by
  simpa using List.mem_takeWhile_imp h

theorem eq_beforeColon_append {l : List Char} (h : ':' ∈ l) : ∃ r, l = beforeColon l ++ ':' :: r := by
  obtain ⟨l, r, rfl, hl⟩ := List.eq_append_cons_of_mem h
  exact ⟨r, by rw [beforeColon_append hl]; simp [beforeColon]⟩

/-- Expressions: `unparse` writes one, `scan` reads the one at the head of a text. -/
structure ExprSyntax (ε : Type u) where
  unparse : ε → String
  scan : List Char → Option (ε × List Char)
  trimmed : ∀ e, Trimmed (unparse e).toList
  /-- What is written is read back, and the reader stops behind it. -/
  scan_unparse : ∀ e rest, AtStop rest → scan ((unparse e).toList ++ rest) = some (e, rest)

/-- `unparse` of the parser, which gives nothing where `ast.unparse` raises. -/
def ExprSyntax.unparse? {ε : Type u} (S : ExprSyntax ε) (e : ε) : Option String := some (S.unparse e)

-- ---------------------------------------------------------------------------
-- Names
-- ---------------------------------------------------------------------------

def isNameChar (c : Char) : Bool :=
  let n := c.toNat
  (48 ≤ n && n ≤ 57) || (65 ≤ n && n ≤ 90) || n == 95 || (97 ≤ n && n ≤ 122) || (128 ≤ n && !isSpace c)

def isName (name : String) : Bool :=
  match name.toList with
  | [] => false
  | c :: cs => !c.isDigit && (c :: cs).all isNameChar

/-- Where a parameter begins: at its name, a star or the slash. -/
def isItemHead (c : Char) : Bool := isNameChar c || c = '*' || c = '/'

/-- What stands behind a parameter: nothing, or a comma, a blank and the next one. -/
def AtItem (rest : List Char) : Prop := rest = [] ∨ ∃ c r, rest = ',' :: ' ' :: c :: r ∧ isItemHead c

theorem AtItem.atEnd {rest : List Char} (h : AtItem rest) : atEnd rest := by
  obtain rfl | ⟨c, r, rfl, -⟩ := h <;> rfl

/-- A colon of an expression stands inside brackets, quotes or a lambda, so the text in front of it is
not the expression, at the end of a list or in front of a further parameter. (In front of a comma that
ends a list it may be: `lambda x,: 0` is `lambda x: 0`.) -/
def ExprSyntax.CutsMisread {ε : Type u} (S : ExprSyntax ε) : Prop :=
  ∀ e rest r, ':' ∈ (S.unparse e).toList → AtItem rest →
    S.scan ((beforeColon (S.unparse e).toList).rdropWhile isSpace ++ rest) ≠ some (e, r)

theorem isSpace_of_isNameChar (h : isNameChar c) : isSpace c = false := by
  simp only [isNameChar, Bool.or_eq_true, Bool.and_eq_true, decide_eq_true_eq, beq_iff_eq,
    Bool.not_eq_true'] at h
  rcases h with (((h | h) | h) | h) | ⟨-, h⟩
  case inr => exact h
  all_goals
    simp only [isSpace, Bool.or_eq_false_iff, Bool.and_eq_false_iff, decide_eq_false_iff_not,
      beq_eq_false_iff_ne]
    omega

theorem isSpace_of_isBlank (h : isBlank c) : isSpace c := by
  simp only [isBlank, Bool.or_eq_true, decide_eq_true_eq] at h
  rcases h with (((rfl | rfl) | rfl) | rfl) | rfl <;> rfl

theorem isBlank_of_isSpace (h : isSpace c = false) : isBlank c = false := by
  rw [← Bool.not_eq_true] at h ⊢
  exact mt isSpace_of_isBlank h

theorem isBlank_of_isItemHead (h : isItemHead c) : isBlank c = false := by
  simp only [isItemHead, Bool.or_eq_true, decide_eq_true_eq] at h
  obtain (h | rfl) | rfl := h
  · exact isBlank_of_isSpace (isSpace_of_isNameChar h)
  · rfl
  · rfl

theorem isNameChar_of_isName {name : String} (h : isName name) : ∀ c ∈ name.toList, isNameChar c := by
  unfold isName at h
  split at h
  · cases h
  · rename_i heq
    rw [heq]
    exact List.all_eq_true.mp (Bool.and_eq_true_iff.mp h).2

theorem toList_ne_nil_of_isName {name : String} (h : isName name) : name.toList ≠ [] := by
  intro he
  simp [isName, he] at h

-- ---------------------------------------------------------------------------
-- Writing and reading
-- ---------------------------------------------------------------------------

section
variable {ε : Type u} (S : ExprSyntax ε)

def annotationText : Option ε → String
  | some e => ": " ++ S.unparse e
  | none => ""

def defaultText : Option ε → String
  | some e => " = " ++ S.unparse e
  | none => ""

def Param.text (p : Param ε) : String := p.arg ++ annotationText S p.annotation ++ defaultText S p.default

def Item.text : Item ε → String
  | .slash => "/"
  | .star => "*"
  | .plain p => p.text S
  | .starred a => "*" ++ a.arg ++ annotationText S a.annotation
  | .doubleStarred a => "**" ++ a.arg ++ annotationText S a.annotation

def readPart (mark : Char) (cs : List Char) : Option (Option ε × List Char) :=
  match cs with
  | [] => some (none, [])
  | c :: rest =>
    if c = mark then (S.scan (skip rest)).map fun (e, r) => (some e, skip r) else some (none, cs)

def readParam (cs : List Char) : Option (Param ε × List Char) := do
  let name := String.ofList (cs.takeWhile isNameChar)
  if isName name then
    let (ann, rest) ← readPart S ':' (skip (cs.dropWhile isNameChar))
    let (default, rest) ← readPart S '=' rest
    return ({ arg := name, annotation := ann, default }, rest)
  else none

/-- A starred parameter has no default. -/
def readStarred (cs : List Char) : Option (Arg ε × List Char) := do
  let (p, rest) ← readParam S (skip cs)
  if p.default.isSome then none else return (p.toArg, rest)

def readItem : List Char → Option (Item ε × List Char)
  | '/' :: rest => some (.slash, rest)
  | '*' :: '*' :: rest => (readStarred S rest).map fun (a, r) => (.doubleStarred a, r)
  | '*' :: rest =>
    if atEnd (skip rest) then some (.star, skip rest)
    else (readStarred S rest).map fun (a, r) => (.starred a, r)
  | cs => (readParam S cs).map fun (p, r) => (.plain p, r)

/-- The items between the commas; a comma may stand behind the last one. -/
def readItems : Nat → List Char → Option (List (Item ε))
  | 0, _ => none
  | fuel + 1, cs =>
    match skip cs with
    | [] => some []
    | c :: cs => do
      let (item, rest) ← readItem S (c :: cs)
      match skip rest with
      | [] => return [item]
      | ',' :: rest => return item :: (← readItems fuel rest)
      | _ => none

/-- The tree of a parameter list, `none` when the text is no parameter list. -/
def parseParameters (text : String) : Option (Arguments ε) := do
  let items ← readItems S (text.toList.length + 1) text.toList
  arrange items

end

-- ---------------------------------------------------------------------------
-- What is written is read back
-- ---------------------------------------------------------------------------

section
variable {ε : Type u} {S : ExprSyntax ε} {rest : List Char}

theorem skip_of_atEnd (h : atEnd rest) : skip rest = rest := by
  cases rest with
  | nil => rfl
  | cons c rest =>
    have hc : c = ',' := by simpa [atEnd] using h
    subst hc
    rfl

theorem skip_blank (h : isBlank c) : skip (c :: rest) = skip rest := List.dropWhile_cons_of_pos h

theorem skip_of_trimmed {l : List Char} (h : Trimmed l) : skip (l ++ rest) = l ++ rest := by
  obtain ⟨⟨c, hc, hs⟩, -⟩ := h
  obtain ⟨l, rfl⟩ := List.head?_eq_some_iff.mp hc
  simp [skip, isBlank_of_isSpace hs]

namespace Trimmed

variable {l r : List Char}

theorem head (h : Trimmed l) : ∃ c cs, l = c :: cs ∧ isSpace c = false := by
  obtain ⟨⟨c, hc, hs⟩, -⟩ := h
  obtain ⟨cs, rfl⟩ := List.head?_eq_some_iff.mp hc
  exact ⟨c, cs, rfl, hs⟩

theorem append (hl : Trimmed l) (hr : Trimmed r) (m : List Char) : Trimmed (l ++ (m ++ r)) := by
  obtain ⟨⟨c, hc, hs⟩, -⟩ := hl
  obtain ⟨-, c', hc', hs'⟩ := hr
  have hhead : (l ++ (m ++ r)).head? = some c := by rw [List.head?_append, hc, Option.some_or]
  have hlast : (l ++ (m ++ r)).getLast? = some c' := by
    rw [List.getLast?_append, List.getLast?_append, hc', Option.some_or, Option.some_or]
  exact ⟨⟨c, hhead, hs⟩, c', hlast, hs'⟩

theorem rdropWhile (h : Trimmed l) : l.rdropWhile isSpace = l := by
  obtain ⟨-, c, hc, hs⟩ := h
  apply List.rdropWhile_eq_self_iff.mpr
  intro hne
  have hlast := List.getLast?_eq_some_getLast hne
  rw [hc, Option.some_inj] at hlast
  simp [← hlast, hs]

theorem beforeColon_cases (h : Trimmed l) :
    beforeColon l = [] ∨ ∃ c cs, beforeColon l = c :: cs ∧ isSpace c = false := by
  obtain ⟨c, cs, rfl, hc⟩ := h.head
  by_cases hcolon : c = ':'
  · exact .inl (by simp [beforeColon, hcolon])
  · exact .inr ⟨c, beforeColon cs, by simp [beforeColon, hcolon], hc⟩

theorem dropWhile_beforeColon (h : Trimmed l) :
    (beforeColon (' ' :: l)).dropWhile isSpace = beforeColon l := by
  have hspace : beforeColon (' ' :: l) = ' ' :: beforeColon l := by simp [beforeColon]
  rw [hspace, List.dropWhile_cons_of_pos rfl]
  rcases h.beforeColon_cases with hnil | ⟨c, cs, hcons, hc⟩
  · rw [hnil]
    rfl
  · rw [hcons, List.dropWhile_cons_of_neg (by simp [hc])]

theorem skip_beforeColon (h : Trimmed l) (hr : atEnd rest) :
    skip ((beforeColon l).rdropWhile isSpace ++ rest) = (beforeColon l).rdropWhile isSpace ++ rest := by
  rcases h.beforeColon_cases with hnil | ⟨c, cs, hcons, hc⟩
  · rw [hnil]
    exact skip_of_atEnd hr
  · rw [hcons, rdropWhile_cons_of_neg (by simp [hc])]
    exact List.dropWhile_cons_of_neg (by simp [isBlank_of_isSpace hc])

theorem blank_beforeColon (h : Trimmed l) (hr : atEnd rest) :
    ((' ' :: beforeColon l).rdropWhile isSpace ++ rest).head? ≠ some '=' ∧
      skip ((' ' :: beforeColon l).rdropWhile isSpace ++ rest) =
        (beforeColon l).rdropWhile isSpace ++ rest := by
  rcases h.beforeColon_cases with hnil | ⟨c, cs, hcons, hc⟩
  · have hblank : ([' '] : List Char).rdropWhile isSpace = [] := rfl
    rw [hnil, hblank]
    refine ⟨?_, skip_of_atEnd hr⟩
    intro he
    cases rest with
    | nil => cases he
    | cons c rest => simp_all [atEnd]
  · have hne : (c :: cs).rdropWhile isSpace ≠ [] := by
      rw [rdropWhile_cons_of_neg (by simp [hc])]
      exact List.cons_ne_nil _ _
    have hkeep : (' ' :: c :: cs).rdropWhile isSpace = ' ' :: (c :: cs).rdropWhile isSpace :=
      rdropWhile_append_of_ne_nil (l := [' ']) hne
    rw [hcons, hkeep, ← hcons]
    exact ⟨by simp, (skip_blank rfl).trans (h.skip_beforeColon hr)⟩

end Trimmed

theorem scan_of_readPart {mark : Char} {cs r : List Char} {e : ε}
    (h : readPart S mark (mark :: cs) = some (some e, r)) :
    ∃ r', S.scan (skip cs) = some (e, r') ∧ r = skip r' := by
  rw [readPart, if_pos rfl] at h
  obtain ⟨⟨e', r'⟩, hscan, he⟩ := Option.map_eq_some_iff.mp h
  cases he
  exact ⟨r', hscan, rfl⟩

theorem readPart_absent {mark : Char} {cs : List Char} (h : cs.head? ≠ some mark) :
    readPart S mark cs = some (none, cs) := by
  cases cs with
  | nil => rfl
  | cons c cs => exact if_neg fun hc => h (congrArg some hc)

theorem readPart_unparse {mark : Char} {e : ε} (hr : AtStop rest) :
    readPart S mark (mark :: ' ' :: ((S.unparse e).toList ++ rest)) = some (some e, skip rest) := by
  have hskip : skip (' ' :: ((S.unparse e).toList ++ rest)) = (S.unparse e).toList ++ rest :=
    (skip_blank rfl).trans (skip_of_trimmed (S.trimmed e))
  rw [readPart, if_pos rfl, hskip, S.scan_unparse e rest hr]
  rfl

theorem span_name {name : String} (hname : isName name) (hr : ∀ c ∈ rest.head?, isNameChar c = false) :
    (name.toList ++ rest).takeWhile isNameChar = name.toList ∧
      (name.toList ++ rest).dropWhile isNameChar = rest := by
  have hall := isNameChar_of_isName hname
  rw [List.takeWhile_append_of_pos hall, List.dropWhile_append_of_pos hall]
  cases rest with
  | nil => simp
  | cons c rest =>
    have hc := hr c rfl
    simp [hc]

theorem arg_of_readParam {cs : List Char} {p : Param ε} (h : readParam S cs = some (p, r)) :
    p.arg = .ofList (cs.takeWhile isNameChar) := by
  unfold readParam at h
  simp only at h
  split at h
  · obtain ⟨⟨a, r'⟩, -, h⟩ := Option.bind_eq_some_iff.mp h
    obtain ⟨⟨d, r''⟩, -, h⟩ := Option.bind_eq_some_iff.mp h
    cases h
    rfl
  · cases h

theorem readParam_name {name : String} {cs : List Char} (hname : isName name)
    (hr : ∀ c ∈ cs.head?, isNameChar c = false) :
    readParam S (name.toList ++ cs) = (do
      let (ann, rest) ← readPart S ':' (skip cs)
      let (default, rest) ← readPart S '=' rest
      return ({ arg := name, annotation := ann, default }, rest)) := by
  obtain ⟨htake, hdrop⟩ := span_name hname hr
  rw [readParam, htake, hdrop, String.ofList_toList]
  exact if_pos hname

theorem atStop_defaultText (d : Option ε) (hr : atEnd rest) :
    AtStop ((defaultText S d).toList ++ rest) := by
  cases d with
  | none => exact .inl (by simpa [defaultText] using hr)
  | some e => exact .inr ⟨' ' :: ((S.unparse e).toList ++ rest), by simp [defaultText], by simp⟩

theorem readPart_default (d : Option ε) (hr : atEnd rest) :
    readPart S '=' (skip ((defaultText S d).toList ++ rest)) = some (d, rest) := by
  cases d with
  | none =>
    have hskip : skip ((defaultText S none).toList ++ rest) = rest := by
      simpa [defaultText] using skip_of_atEnd hr
    rw [hskip, readPart_absent fun h => ?_]
    cases rest with
    | nil => cases h
    | cons c rest => simp_all [atEnd]
  | some e =>
    have hskip : skip ((defaultText S (some e)).toList ++ rest) =
        '=' :: ' ' :: ((S.unparse e).toList ++ rest) := by
      simp [defaultText, skip, isBlank]
    rw [hskip, readPart_unparse (.inl hr), skip_of_atEnd hr]

theorem readPart_annotation (a d : Option ε) (hr : atEnd rest) :
    readPart S ':' (skip ((annotationText S a).toList ++ ((defaultText S d).toList ++ rest))) =
      some (a, skip ((defaultText S d).toList ++ rest)) := by
  cases a with
  | none =>
    rw [annotationText, String.toList_empty, List.nil_append]
    apply readPart_absent
    intro h
    cases d with
    | none =>
      have hskip : skip ((defaultText S none).toList ++ rest) = rest := by
        simpa [defaultText] using skip_of_atEnd hr
      rw [hskip] at h
      cases rest with
      | nil => cases h
      | cons c rest => simp_all [atEnd]
    | some e => simp [defaultText, skip, isBlank] at h
  | some e =>
    have hskip : skip ((annotationText S (some e)).toList ++ ((defaultText S d).toList ++ rest)) =
        ':' :: ' ' :: ((S.unparse e).toList ++ ((defaultText S d).toList ++ rest)) := by
      simp [annotationText, skip, isBlank]
    rw [hskip, readPart_unparse (atStop_defaultText d hr)]

theorem not_nameChar_behind (a d : Option ε) (hr : atEnd rest) :
    ∀ c ∈ ((annotationText S a).toList ++ ((defaultText S d).toList ++ rest)).head?,
      isNameChar c = false := by
  intro c hc
  cases a with
  | some e =>
    simp [annotationText] at hc
    subst hc
    decide
  | none =>
    cases d with
    | some e =>
      simp [annotationText, defaultText] at hc
      subst hc
      decide
    | none =>
      cases rest with
      | nil => simp [annotationText, defaultText] at hc
      | cons c' rest =>
        simp [annotationText, defaultText] at hc
        simp [atEnd] at hr
        subst hc hr
        decide

theorem readParam_text {p : Param ε} (hp : isName p.arg) (hr : atEnd rest) :
    readParam S ((p.text S).toList ++ rest) = some (p, rest) := by
  rw [Param.text, String.toList_append, String.toList_append, List.append_assoc, List.append_assoc,
    readParam_name hp (not_nameChar_behind _ _ hr), readPart_annotation _ _ hr]
  simp only [Option.bind_eq_bind, Option.bind_some]
  rw [readPart_default _ hr]
  rfl

end

-- ---------------------------------------------------------------------------
-- Items
-- ---------------------------------------------------------------------------

/-- Whatever follows at a comma or the end, the text is read as the item. -/
def Reads {ε : Type u} (S : ExprSyntax ε) (t : List Char) (i : Item ε) : Prop :=
  ∀ rest, atEnd rest → readItem S (t ++ rest) = some (i, rest)

/-- The text is never read as the item. -/
def Misreads {ε : Type u} (S : ExprSyntax ε) (t : List Char) (i : Item ε) : Prop :=
  ∀ rest r, AtItem rest → readItem S (t ++ rest) ≠ some (i, r)

section
variable {ε : Type u} {S : ExprSyntax ε} {rest : List Char}

theorem exists_head_of_isName {name : String} (h : isName name) :
    ∃ c cs, name.toList = c :: cs ∧ isNameChar c := by
  obtain ⟨c, cs, hc⟩ := List.exists_cons_of_ne_nil (toList_ne_nil_of_isName h)
  exact ⟨c, cs, hc, isNameChar_of_isName h c (hc ▸ List.mem_cons_self)⟩

theorem skip_name {name : String} (h : isName name) : skip (name.toList ++ rest) = name.toList ++ rest := by
  obtain ⟨c, cs, hc, hname⟩ := exists_head_of_isName h
  simp [hc, skip, isBlank_of_isSpace (isSpace_of_isNameChar hname)]

theorem readItem_nameChar (h : isNameChar c) :
    readItem S (c :: rest) = (readParam S (c :: rest)).map fun (p, r) => (.plain p, r) := by
  have hslash : c ≠ '/' := fun he => absurd (he ▸ h) (by decide)
  have hstar : c ≠ '*' := fun he => absurd (he ▸ h) (by decide)
  unfold readItem
  split <;> simp_all

theorem readItem_starred {name : String} (h : isName name) :
    readItem S ('*' :: (name.toList ++ rest)) =
      (readStarred S (name.toList ++ rest)).map fun (a, r) => (.starred a, r) := by
  obtain ⟨c, cs, hc, hname⟩ := exists_head_of_isName h
  have hstar : c ≠ '*' := fun he => absurd (he ▸ hname) (by decide)
  have hend : atEnd (skip (name.toList ++ rest)) = false := by
    rw [skip_name h, hc]
    exact decide_eq_false fun he => absurd (he ▸ hname) (by decide)
  simp only [hc, List.cons_append] at hend ⊢
  unfold readItem
  split <;> simp_all

theorem readStarred_text {a : Arg ε} (ha : isName a.arg) (hr : atEnd rest) :
    readStarred S (a.arg.toList ++ ((annotationText S a.annotation).toList ++ rest)) = some (a, rest) := by
  have hread := readParam_text (S := S) (p := ⟨a, none⟩) ha hr
  simp only [Param.text, defaultText, String.append_empty, String.toList_append, List.append_assoc] at hread
  rw [readStarred, skip_name ha, hread]
  rfl

def Item.stars : Item ε → String
  | .starred _ => "*"
  | .doubleStarred _ => "**"
  | _ => ""

theorem text_of_param? {i : Item ε} {p : Param ε} (h : i.param? = some p) :
    i.text S = i.stars ++ (p.arg ++ (annotationText S p.annotation ++ defaultText S p.default)) := by
  cases i <;> cases h <;>
    simp [Item.text, Item.stars, Param.text, defaultText, String.append_assoc]

theorem readParam_of_readItem {i : Item ε} {p : Param ε} {name : String} (h : i.param? = some p)
    (hname : isName name) (hread : readItem S (i.stars.toList ++ (name.toList ++ rest)) = some (i, r)) :
    readParam S (name.toList ++ rest) = some (p, r) := by
  have hstarred : ∀ {a : Arg ε}, readStarred S (name.toList ++ rest) = some (a, r) →
      readParam S (name.toList ++ rest) = some (⟨a, none⟩, r) := fun {a} ha => by
    rw [readStarred, skip_name hname] at ha
    obtain ⟨⟨⟨b, d⟩, r'⟩, hp, hd⟩ := Option.bind_eq_some_iff.mp ha
    cases d with
    | some d => cases hd
    | none => cases hd; exact hp
  cases i with
  | slash | star => cases h
  | plain q =>
    cases h
    obtain ⟨c, cs, hc, hchar⟩ := exists_head_of_isName hname
    simp only [Item.stars, String.toList_empty, List.nil_append, hc, List.cons_append] at hread ⊢
    rw [readItem_nameChar hchar] at hread
    obtain ⟨⟨q', r'⟩, hq, he⟩ := Option.map_eq_some_iff.mp hread
    cases he
    exact hq
  | starred a =>
    cases h
    have hstars : (Item.starred a).stars.toList ++ (name.toList ++ rest) = '*' :: (name.toList ++ rest) := by
      simp [Item.stars]
    rw [hstars, readItem_starred hname] at hread
    obtain ⟨⟨a', r'⟩, ha, he⟩ := Option.map_eq_some_iff.mp hread
    cases he
    exact hstarred ha
  | doubleStarred a =>
    cases h
    have hstars : (Item.doubleStarred a).stars.toList ++ (name.toList ++ rest) =
        '*' :: '*' :: (name.toList ++ rest) := by
      simp [Item.stars]
    rw [hstars, readItem] at hread
    obtain ⟨⟨a', r'⟩, ha, he⟩ := Option.map_eq_some_iff.mp hread
    cases he
    exact hstarred ha

theorem reads_text {i : Item ε} (hi : ∀ p ∈ i.param?, isName p.arg) : Reads S (i.text S).toList i := by
  intro rest hr
  cases i with
  | slash => simp [Item.text, readItem]
  | star =>
    cases rest with
    | nil => simp [Item.text, readItem, skip, atEnd]
    | cons c rest =>
      have hc : c = ',' := by simpa [atEnd] using hr
      subst hc
      simp [Item.text, readItem, skip, isBlank, atEnd]
  | plain p =>
    have hname : isName p.arg := hi _ rfl
    obtain ⟨c, cs, hc, hchar⟩ := exists_head_of_isName hname
    have hread := readParam_text (S := S) hname hr
    simp only [Param.text, String.toList_append, hc, List.cons_append] at hread
    simp only [Item.text, Param.text, String.toList_append, hc, List.cons_append]
    rw [readItem_nameChar hchar, hread]
    rfl
  | starred a =>
    have hname : isName a.arg := hi _ rfl
    have htext : ((Item.starred a).text S).toList ++ rest =
        '*' :: (a.arg.toList ++ ((annotationText S a.annotation).toList ++ rest)) := by
      simp [Item.text]
    rw [htext, readItem_starred hname, readStarred_text hname hr]
    rfl
  | doubleStarred a =>
    have hname : isName a.arg := hi _ rfl
    have htext : ((Item.doubleStarred a).text S).toList ++ rest =
        '*' :: '*' :: (a.arg.toList ++ ((annotationText S a.annotation).toList ++ rest)) := by
      simp [Item.text]
    rw [htext, readItem, readStarred_text hname hr]
    rfl

-- ---------------------------------------------------------------------------
-- The whole list
-- ---------------------------------------------------------------------------

def BeginsAt (t : List Char) : Prop := ∃ c cs, t = c :: cs ∧ isItemHead c

theorem intercalate_comma {t u : List Char} {us : List (List Char)} :
    (", ".toList).intercalate (t :: u :: us) = t ++ ',' :: ' ' :: (", ".toList).intercalate (u :: us) := by
  rw [List.intercalate_cons_cons]
  simp

theorem exists_rest_intercalate (t : List Char) {ts : List (List Char)} (hts : ∀ u ∈ ts, BeginsAt u) :
    ∃ rest, (", ".toList).intercalate (t :: ts) = t ++ rest ∧ AtItem rest := by
  cases ts with
  | nil => exact ⟨[], by simp, .inl rfl⟩
  | cons u us =>
    obtain ⟨c, cs, rfl, hc⟩ := hts u List.mem_cons_self
    have hhead : ∃ r, (", ".toList).intercalate ((c :: cs) :: us) = c :: r := by
      cases us with
      | nil => exact ⟨cs, by simp⟩
      | cons v vs => exact ⟨_, intercalate_comma⟩
    obtain ⟨r, hr⟩ := hhead
    exact ⟨_, intercalate_comma, .inr ⟨c, r, by rw [hr], hc⟩⟩

theorem readItems_blank (fuel : Nat) (h : isBlank c) :
    readItems S fuel (c :: rest) = readItems S fuel rest := by
  cases fuel with
  | zero => rfl
  | succ fuel => simp only [readItems, skip_blank h]

theorem readItem_of_readItems {fuel : Nat} {t : List Char} (ht : BeginsAt t)
    (h : readItems S fuel (t ++ rest) = some (i :: items)) : ∃ r, readItem S (t ++ rest) = some (i, r) := by
  obtain ⟨c, cs, rfl, hc⟩ := ht
  cases fuel with
  | zero => cases h
  | succ fuel =>
    have hskip : skip (c :: cs ++ rest) = c :: cs ++ rest :=
      List.dropWhile_cons_of_neg (by simp [isBlank_of_isItemHead hc])
    rw [readItems, hskip] at h
    obtain ⟨⟨i', r⟩, hread, h⟩ := Option.bind_eq_some_iff.mp h
    simp only at h
    split at h
    · cases h
      exact ⟨r, hread⟩
    · obtain ⟨items', -, h⟩ := Option.bind_eq_some_iff.mp h
      cases h
      exact ⟨r, hread⟩
    · cases h

theorem readItems_last {fuel : Nat} {t : List Char} (ht : BeginsAt t) (hr : Reads S t i) :
    readItems S (fuel + 1) t = some [i] := by
  have hread := hr [] rfl
  obtain ⟨c, cs, rfl, hc⟩ := ht
  have hskip : skip (c :: cs) = c :: cs := List.dropWhile_cons_of_neg (by simp [isBlank_of_isItemHead hc])
  rw [List.append_nil] at hread
  rw [readItems, hskip]
  simp [hread, skip]

theorem readItems_next {fuel : Nat} {t : List Char} (ht : BeginsAt t) (hr : Reads S t i) :
    readItems S (fuel + 1) (t ++ ',' :: rest) = (readItems S fuel rest).map (i :: ·) := by
  have hread := hr (',' :: rest) rfl
  obtain ⟨c, cs, rfl, hc⟩ := ht
  have hskip : skip (c :: cs ++ ',' :: rest) = c :: (cs ++ ',' :: rest) :=
    List.dropWhile_cons_of_neg (by simp [isBlank_of_isItemHead hc])
  rw [List.cons_append] at hread
  have hcomma : skip (',' :: rest) = ',' :: rest := rfl
  rw [readItems, hskip]
  simp only [hread, Option.bind_eq_bind, Option.bind_some, hcomma]
  cases readItems S fuel rest <;> rfl

theorem exists_cons_of_readItems {fuel : Nat} {t : List Char} (ht : BeginsAt t) (hr : Reads S t i)
    (hend : atEnd rest) (h : readItems S fuel (t ++ rest) = some items) :
    ∃ items', items = i :: items' ∧
      ∀ rest', rest = ',' :: rest' → ∃ fuel', readItems S fuel' rest' = some items' := by
  cases fuel with
  | zero => cases h
  | succ fuel =>
    cases rest with
    | nil =>
      rw [List.append_nil, readItems_last ht hr] at h
      cases h
      exact ⟨[], rfl, fun _ he => nomatch he⟩
    | cons c rest =>
      have hc : c = ',' := by simpa [atEnd] using hend
      subst hc
      rw [readItems_next ht hr] at h
      obtain ⟨items', hitems, rfl⟩ := Option.map_eq_some_iff.mp h
      exact ⟨items', rfl, fun rest' he => by cases he; exact ⟨fuel, hitems⟩⟩

/-- A list of texts that are each read or misread is read as the items when all are read. -/
theorem readItems_eq_some_iff {t : Item ε → List Char} {items : List (Item ε)} {fuel : Nat}
    (hbegin : ∀ i ∈ items, BeginsAt (t i)) (hcase : ∀ i ∈ items, Reads S (t i) i ∨ Misreads S (t i) i)
    (hfuel : items.length < fuel) :
    readItems S fuel ((", ".toList).intercalate (items.map t)) = some items ↔
      ∀ i ∈ items, Reads S (t i) i := by
  induction items generalizing fuel with
  | nil =>
    obtain ⟨fuel, rfl⟩ := Nat.exists_eq_add_one_of_ne_zero (Nat.ne_of_gt hfuel)
    simp [readItems, skip]
  | cons i items ih =>
    obtain ⟨hi, hitems⟩ := List.forall_mem_cons.mp hbegin
    obtain ⟨hci, hcitems⟩ := List.forall_mem_cons.mp hcase
    obtain ⟨fuel, rfl⟩ := Nat.exists_eq_add_one_of_ne_zero (Nat.ne_of_gt (Nat.zero_lt_of_lt hfuel))
    rw [List.map_cons, List.forall_mem_cons]
    rcases hci with hr | hm
    · cases items with
      | nil => simp [readItems_last hi hr, hr]
      | cons j items =>
        rw [List.map_cons, intercalate_comma, readItems_next hi hr, readItems_blank fuel rfl,
          ← List.map_cons, ← ih hitems hcitems (Nat.lt_of_succ_lt_succ hfuel)]
        simp [hr]
    · refine iff_of_false (?_) fun ⟨hr, _⟩ => hm [] [] (.inl rfl) (hr [] rfl)
      intro h
      obtain ⟨rest, htext, hend⟩ := exists_rest_intercalate (t i) (List.forall_mem_map.mpr hitems)
      rw [htext] at h
      obtain ⟨r, hread⟩ := readItem_of_readItems hi h
      exact hm rest r hend hread

theorem length_le_intercalate (ts : List (List Char)) (h : ∀ t ∈ ts, BeginsAt t) :
    ts.length ≤ ((", ".toList).intercalate ts).length := by
  induction ts with
  | nil => simp
  | cons t ts ih =>
    obtain ⟨ht, hts⟩ := List.forall_mem_cons.mp h
    obtain ⟨c, cs, rfl, -⟩ := ht
    have ih := ih hts
    cases ts with
    | nil => simp
    | cons u us =>
      rw [intercalate_comma]
      simp only [List.length_cons, List.length_append] at ih ⊢
      omega

variable {A : Arguments ε} {t : Item ε → String}

theorem parseParameters_eq_some_iff (hA : A.WellFormed) (hbegin : ∀ i ∈ A.items, BeginsAt (t i).toList)
    (hcase : ∀ i ∈ A.items, Reads S (t i).toList i ∨ Misreads S (t i).toList i) :
    parseParameters S (", ".intercalate (A.items.map t)) = some A ↔
      ∀ i ∈ A.items, Reads S (t i).toList i := by
  have htext : (", ".intercalate (A.items.map t)).toList =
      (", ".toList).intercalate (A.items.map fun i => (t i).toList) := by
    rw [String.toList_intercalate, List.map_map]
    rfl
  have hlen := length_le_intercalate (A.items.map fun i => (t i).toList) (by simpa using hbegin)
  rw [List.length_map] at hlen
  rw [← readItems_eq_some_iff hbegin hcase (Nat.lt_succ_of_le hlen), ← htext]
  simp only [parseParameters, Option.bind_eq_bind, Option.bind_eq_some_iff, arrange_eq_some_iff]
  constructor
  · rintro ⟨items, hread, -, rfl⟩
    exact hread
  · intro hread
    exact ⟨A.items, hread, hA, rfl⟩

theorem beginsAt_text {i : Item ε} (hi : ∀ p ∈ i.param?, isName p.arg) : BeginsAt (i.text S).toList := by
  cases i with
  | slash | star | starred a | doubleStarred a => simp [BeginsAt, Item.text, isItemHead]
  | plain p =>
    obtain ⟨c, cs, hc, hchar⟩ := exists_head_of_isName (hi _ rfl)
    exact ⟨c, _, by rw [Item.text, Param.text, String.toList_append, String.toList_append, hc]; rfl,
      by simp [isItemHead, hchar]⟩

end

-- ---------------------------------------------------------------------------
-- Names as expressions
-- ---------------------------------------------------------------------------

theorem trimmed_of_isName {name : String} (h : isName name) : Trimmed name.toList := by
  have hspace : ∀ c ∈ name.toList, isSpace c = false := fun c hc =>
    isSpace_of_isNameChar (isNameChar_of_isName h c hc)
  have hne := toList_ne_nil_of_isName h
  exact ⟨⟨_, List.head?_eq_some_head hne, hspace _ (List.head_mem hne)⟩,
    _, List.getLast?_eq_some_getLast hne, hspace _ (List.getLast_mem hne)⟩

theorem isNameChar_of_atStop {rest : List Char} (h : AtStop rest) :
    ∀ c ∈ rest.head?, isNameChar c = false := by
  intro c hc
  rcases h with h | ⟨r, rfl, -⟩
  · cases rest with
    | nil => cases hc
    | cons c' rest =>
      cases hc
      have he : c = ',' := by simpa [atEnd] using h
      rw [he]
      decide
  · cases hc
    decide

/-- The part of the language whose expressions are names. -/
def nameSyntax : ExprSyntax { name : String // isName name } where
  unparse e := e.val
  scan cs :=
    if h : isName (.ofList (cs.takeWhile isNameChar)) then some (⟨_, h⟩, cs.dropWhile isNameChar) else none
  trimmed e := trimmed_of_isName e.property
  scan_unparse e rest hr := by
    obtain ⟨htake, hdrop⟩ := span_name e.property (isNameChar_of_atStop hr)
    simp [htake, hdrop, e.property]

theorem cutsMisread_nameSyntax : nameSyntax.CutsMisread := fun e _ _ hcolon _ =>
  absurd (isNameChar_of_isName e.property _ hcolon) (by decide)

end Intelliqx.Py
