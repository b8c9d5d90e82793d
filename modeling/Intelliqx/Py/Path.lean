import Mathlib.Data.List.Induction
import Mathlib.Data.List.Infix

/-!
# Pure paths

`pathlib.PurePosixPath`: paths as text, without a look at the file system.
-/

namespace Intelliqx.Py

/-- A component of a path. -/
abbrev Part := List Char

def dot : Part := ['.']

def dotDot : Part := ['.', '.']

/-- Exactly two leading slashes are a root of their own, as in POSIX. -/
inductive Root
  | none
  | slash
  | doubleSlash
  deriving DecidableEq, Repr

def Root.text : Root → List Char
  | .none => []
  | .slash => ['/']
  | .doubleSlash => ['/', '/']

structure PurePath where
  root : Root
  parts : List Part
  deriving DecidableEq, Repr

theorem slash_not_mem_of_splitOn {text : List Char} {part : Part} (h : part ∈ text.splitOn '/') : '/' ∉ part := by
  induction text generalizing part with
  | nil =>
    rw [List.splitOn_nil, List.mem_singleton] at h
    rw [h]
    exact List.not_mem_nil
  | cons c text ih =>
    rw [List.splitOn_cons_eq_if_modifyHead] at h
    split at h
    · rcases List.mem_cons.mp h with rfl | h
      · exact List.not_mem_nil
      · exact ih h
    · rename_i hc
      obtain ⟨first, rest, hsplit⟩ := List.exists_cons_of_ne_nil (List.splitOn_ne_nil '/' text)
      rw [hsplit, List.modifyHead_cons] at h
      rcases List.mem_cons.mp h with rfl | h
      · have hfirst := ih (hsplit ▸ List.mem_cons_self)
        simp only [beq_iff_eq] at hc
        simp [hfirst, Ne.symm hc]
      · exact ih (hsplit ▸ List.mem_cons_of_mem _ h)

namespace PurePath

/-- `posixpath.splitroot` -/
def splitroot : List Char → Root × List Char
  | '/' :: '/' :: '/' :: rest => (.slash, '/' :: '/' :: rest)
  | '/' :: '/' :: rest => (.doubleSlash, rest)
  | '/' :: rest => (.slash, rest)
  | text => (.none, text)

/-- `PurePosixPath(text)`: empty components and dots go, `..` stays. -/
def ofText (text : List Char) : PurePath where
  root := (splitroot text).1
  parts := ((splitroot text).2.splitOn '/').filter fun part => part ≠ [] ∧ part ≠ dot

/-- `path` with further components. -/
def append (path : PurePath) (parts : List Part) : PurePath :=
  { path with parts := path.parts ++ parts }

/-- `path / text`: an absolute right side replaces the left one. -/
def join (path : PurePath) (text : List Char) : PurePath :=
  match (ofText text).root with
  | .none => path.append (ofText text).parts
  | _ => ofText text

def parent (path : PurePath) : PurePath := { path with parts := path.parts.dropLast }

/-- `path.relative_to(other)`, where nothing stands for the `ValueError`. -/
def relativeTo (path other : PurePath) : Option PurePath :=
  if path.root = other.root ∧ other.parts <+: path.parts then
    some { root := .none, parts := path.parts.drop other.parts.length }
  else none

/-- `str(path)` -/
def str (path : PurePath) : String :=
  if path.root = .none ∧ path.parts = [] then "."
  else .ofList (path.root.text ++ ['/'].intercalate path.parts)

-- ---------------------------------------------------------------------------
-- Adding components
-- ---------------------------------------------------------------------------

variable {path : PurePath} {parts parts' : List Part}

@[simp] theorem append_nil : path.append [] = path := by simp [append]

@[simp] theorem append_append : (path.append parts).append parts' = path.append (parts ++ parts') := by
  simp [append]

theorem parent_append (h : parts ≠ []) : (path.append parts).parent = path.append parts.dropLast := by
  simp [append, parent, List.dropLast_append_of_ne_nil h]

@[simp] theorem relativeTo_append :
    (path.append parts).relativeTo path = some { root := .none, parts } := by
  simp [relativeTo, append]

theorem join_of_relative (h : (ofText text).root = .none) :
    path.join text = path.append (ofText text).parts := by
  simp [join, h]

theorem splitroot_of_no_slash (h : text.head? ≠ some '/') : splitroot text = (.none, text) := by
  unfold splitroot
  split
  all_goals simp_all

theorem slash_of_rooted (h : (ofText text).root ≠ .none) : text.head? = some '/' := by
  by_contra hno
  exact h (by simp [ofText, splitroot_of_no_slash hno])

end PurePath

-- ---------------------------------------------------------------------------
-- Collapsing dots
-- ---------------------------------------------------------------------------

/-- A component that names something in the directory it stands in. -/
def IsName (part : Part) : Prop := part ≠ [] ∧ part ≠ dot ∧ part ≠ dotDot

instance : Decidable (IsName part) := inferInstanceAs (Decidable (part ≠ [] ∧ part ≠ dot ∧ part ≠ dotDot))

def collapseStep (loc : List Part) (part : Part) : List Part :=
  if part = [] ∨ part = dot then loc else if part = dotDot then loc.dropLast else loc ++ [part]

/-- Where components lead to from the top, without a look at what lies on the way. -/
def collapse (parts : List Part) : List Part := parts.foldl collapseStep []

section
variable {loc parts parts' : List Part} {part : Part}

theorem collapseStep_name (h : IsName part) : collapseStep loc part = loc ++ [part] := by
  rw [collapseStep, if_neg (not_or.mpr ⟨h.1, h.2.1⟩), if_neg h.2.2]

theorem collapse_append : collapse (parts ++ parts') = parts'.foldl collapseStep (collapse parts) :=
  List.foldl_append

theorem foldl_collapseStep_names (h : ∀ part ∈ parts, IsName part) :
    parts.foldl collapseStep loc = loc ++ parts := by
  induction parts generalizing loc with
  | nil => simp
  | cons part parts ih =>
    obtain ⟨hpart, hparts⟩ := List.forall_mem_cons.mp h
    rw [List.foldl_cons, collapseStep_name hpart, ih hparts, List.append_assoc, List.singleton_append]

theorem collapse_names (h : ∀ part ∈ parts, IsName part) : collapse parts = parts := by
  rw [collapse, foldl_collapseStep_names h, List.nil_append]

/-- Empty components and dots lead nowhere. -/
theorem foldl_collapseStep_filter (keep : Part → Bool) (h : ∀ part, ¬ keep part → part = [] ∨ part = dot) :
    (parts.filter keep).foldl collapseStep loc = parts.foldl collapseStep loc := by
  induction parts generalizing loc with
  | nil => rfl
  | cons part parts ih =>
    by_cases hpart : keep part
    · rw [List.filter_cons_of_pos hpart, List.foldl_cons, List.foldl_cons, ih]
    · rw [List.filter_cons_of_neg hpart, List.foldl_cons, ih, collapseStep, if_pos (h part hpart)]

theorem isName_collapseStep (h : ∀ part ∈ loc, IsName part) (part : Part) :
    ∀ part' ∈ collapseStep loc part, IsName part' := by
  rw [collapseStep]
  split
  · exact h
  · rename_i hdot
    split
    · exact fun part' hpart' => h part' (List.mem_of_mem_dropLast hpart')
    · rename_i hdots
      rintro part' hpart'
      rcases List.mem_append.mp hpart' with hloc | hnew
      · exact h part' hloc
      · rw [List.mem_singleton.mp hnew]
        exact ⟨fun he => hdot (.inl he), fun he => hdot (.inr he), hdots⟩

theorem mem_collapseStep (h : part' ∈ collapseStep loc part) : part' ∈ loc ∨ part' = part := by
  rw [collapseStep] at h
  split at h
  · exact .inl h
  · split at h
    · exact .inl (List.mem_of_mem_dropLast h)
    · exact (List.mem_append.mp h).imp id List.mem_singleton.mp

theorem mem_of_mem_collapse (h : part ∈ collapse parts) : part ∈ parts := by
  rw [collapse] at h
  induction parts using List.reverseRecOn with
  | nil => cases h
  | append_singleton parts last ih =>
    rw [List.foldl_append] at h
    rcases mem_collapseStep h with hfront | hlast
    · exact List.mem_append_left _ (ih hfront)
    · exact List.mem_append_right _ (List.mem_singleton.mpr hlast)

theorem isName_collapse (parts : List Part) : ∀ part ∈ collapse parts, IsName part := by
  rw [collapse]
  induction parts using List.reverseRecOn with
  | nil => simp
  | append_singleton parts part ih =>
    rw [List.foldl_append]
    exact isName_collapseStep ih part

/-- How far components lead up from where they start, and the names they lead down by from there. -/
def climbStep (up : Nat × List Part) (part : Part) : Nat × List Part :=
  if part = [] ∨ part = dot then up
  else if part = dotDot then (if up.2 = [] then (up.1 + 1, []) else (up.1, up.2.dropLast))
  else (up.1, up.2 ++ [part])

def climb (parts : List Part) : Nat × List Part := parts.foldl climbStep (0, [])

/-- From a location, components lead up first and then down. -/
theorem foldl_collapseStep_eq_climb (loc parts : List Part) :
    parts.foldl collapseStep loc = loc.take (loc.length - (climb parts).1) ++ (climb parts).2 := by
  induction parts using List.reverseRecOn with
  | nil => simp [climb]
  | append_singleton parts part ih =>
    rw [climb, List.foldl_append, List.foldl_append, ih, ← climb]
    obtain ⟨⟨n, names⟩, hclimb⟩ : ∃ up, climb parts = up := ⟨_, rfl⟩
    simp only [hclimb, List.foldl_cons, List.foldl_nil, collapseStep, climbStep]
    split
    · rfl
    · split
      · split
        · rename_i hnames
          rw [hnames, List.append_nil, List.append_nil, List.dropLast_eq_take, List.take_take, List.length_take]
          congr 1
          omega
        · rename_i hnames
          rw [List.dropLast_append_of_ne_nil hnames]
      · rw [List.append_assoc]

end

end Intelliqx.Py
