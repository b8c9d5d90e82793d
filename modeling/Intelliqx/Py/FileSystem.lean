import Intelliqx.Base.Dict
import Intelliqx.Base.Except
import Intelliqx.Py.Path

/-!
# A file system

What `pathlib.Path` reads and writes: a tree of directories and files without
links, where a component leads on from a directory only and `..` leads to the
directory above. Permissions, limits on lengths and other processes are left
out. The tree is kept as what lies at each location. Every location hangs from
a directory, and so does the process.
-/

namespace Intelliqx.Py

/-- Where something lies: the names on the way down from the top. -/
abbrev Location := List Part

inductive Node
  | file (content : List UInt8)
  | directory
  deriving DecidableEq

inductive PathError
  | fileNotFoundError
  | notADirectoryError
  | isADirectoryError
  | fileExistsError
  | valueError
  deriving DecidableEq, Repr

/-- Without the character that no name of a file holds. -/
def NulFree (parts : List Part) : Prop := ∀ part ∈ parts, '\x00' ∉ part

instance : Decidable (NulFree parts) := inferInstanceAs (Decidable (∀ part ∈ parts, '\x00' ∉ part))

/-- What lies at a location of a tree; the top is a directory. -/
def nodeAt (nodes : Dict Location Node) (loc : Location) : Option Node :=
  if loc = [] then some .directory else nodes.get? loc

structure FileSystem where
  nodes : Dict Location Node
  cwd : Location
  hangs : ∀ loc ∈ nodes.keys, nodeAt nodes loc.dropLast = some .directory
  stands : nodeAt nodes cwd = some .directory

namespace FileSystem

def node? (fs : FileSystem) (loc : Location) : Option Node := nodeAt fs.nodes loc

@[simp] theorem node?_nil (fs : FileSystem) : fs.node? [] = some .directory := rfl

theorem node?_of_ne (fs : FileSystem) (h : loc ≠ []) : fs.node? loc = fs.nodes.get? loc := by
  simp [node?, nodeAt, h]

theorem directory_above (fs : FileSystem) (h : fs.node? loc = some node) :
    fs.node? loc.dropLast = some .directory := by
  by_cases hloc : loc = []
  · subst hloc
    rfl
  · rw [fs.node?_of_ne hloc] at h
    exact fs.hangs loc (Dict.isSome_get?_iff.mp (by simp [h]))

/-- What lies below something lies in a directory. -/
theorem directory_of_append (fs : FileSystem) (h : fs.node? (here ++ parts) = some node)
    (hne : parts ≠ []) : fs.node? here = some .directory := by
  induction parts using List.reverseRecOn generalizing node with
  | nil => exact absurd rfl hne
  | append_singleton parts part ih =>
    have habove := fs.directory_above h
    rw [← List.append_assoc, List.dropLast_concat] at habove
    by_cases hparts : parts = []
    · rwa [hparts, List.append_nil] at habove
    · exact ih habove hparts

-- ---------------------------------------------------------------------------
-- Changing what lies at one location
-- ---------------------------------------------------------------------------

/-- There is a directory to write into, and no directory is replaced. -/
def Vacant (fs : FileSystem) (loc : Location) : Prop :=
  fs.node? loc.dropLast = some .directory ∧ fs.node? loc ≠ some .directory

theorem Vacant.ne_nil {fs : FileSystem} (h : fs.Vacant loc) : loc ≠ [] := by
  rintro rfl
  exact h.2 rfl

theorem nodeAt_insert {nodes : Dict Location Node} (h : loc ≠ []) :
    nodeAt (nodes.insert loc node) = Function.update (nodeAt nodes) loc (some node) := by
  funext l
  by_cases hl : l = loc
  · subst hl
    simp [nodeAt, h]
  · simp [nodeAt, Dict.get?_insert, hl]

theorem hangs_insert {fs : FileSystem} (h : fs.Vacant loc) :
    ∀ l ∈ (fs.nodes.insert loc node).keys,
      nodeAt (fs.nodes.insert loc node) l.dropLast = some .directory := by
  intro l hl
  have habove : fs.node? l.dropLast = some .directory := by
    rcases Dict.mem_keys_insert.mp hl with rfl | hl
    · exact h.1
    · exact fs.hangs l hl
  have hne : l.dropLast ≠ loc := fun heq => h.2 (heq ▸ habove)
  rw [nodeAt_insert h.ne_nil, Function.update_of_ne hne]
  exact habove

theorem stands_insert {fs : FileSystem} (h : fs.Vacant loc) :
    nodeAt (fs.nodes.insert loc node) fs.cwd = some .directory := by
  have hne : fs.cwd ≠ loc := fun heq => h.2 (heq ▸ fs.stands)
  rw [nodeAt_insert h.ne_nil, Function.update_of_ne hne]
  exact fs.stands

def insert (fs : FileSystem) (loc : Location) (node : Node) (h : fs.Vacant loc) : FileSystem where
  nodes := fs.nodes.insert loc node
  cwd := fs.cwd
  hangs := hangs_insert h
  stands := stands_insert h

@[simp] theorem node?_insert {fs : FileSystem} (h : fs.Vacant loc) :
    (fs.insert loc node h).node? = Function.update fs.node? loc (some node) :=
  nodeAt_insert h.ne_nil

theorem ne_of_file {fs : FileSystem} (h : fs.node? loc = some (.file content))
    (hdir : fs.node? l = some .directory) : l ≠ loc := by
  rintro rfl
  exact absurd (h.symm.trans hdir) (by simp)

theorem nodeAt_erase {nodes : Dict Location Node} (h : loc ≠ []) :
    nodeAt (nodes.erase loc) = Function.update (nodeAt nodes) loc none := by
  funext l
  by_cases hl : l = loc
  · subst hl
    simp [nodeAt, h, Dict.get?_erase]
  · simp [nodeAt, Dict.get?_erase, hl]

section
variable {fs : FileSystem} (h : fs.node? loc = some (.file content))
include h

theorem ne_nil_of_file : loc ≠ [] := (ne_of_file h fs.node?_nil).symm

theorem hangs_erase :
    ∀ l ∈ (fs.nodes.erase loc).keys, nodeAt (fs.nodes.erase loc) l.dropLast = some .directory := by
  intro l hl
  have habove := fs.hangs l (Dict.mem_keys_erase.mp hl).2
  rw [nodeAt_erase (ne_nil_of_file h), Function.update_of_ne (ne_of_file h habove)]
  exact habove

theorem stands_erase : nodeAt (fs.nodes.erase loc) fs.cwd = some .directory := by
  rw [nodeAt_erase (ne_nil_of_file h), Function.update_of_ne (ne_of_file h fs.stands)]
  exact fs.stands

end

def erase (fs : FileSystem) (loc : Location) (h : fs.node? loc = some (.file content)) :
    FileSystem where
  nodes := fs.nodes.erase loc
  cwd := fs.cwd
  hangs := hangs_erase h
  stands := stands_erase h

@[simp] theorem node?_erase {fs : FileSystem} (h : fs.node? loc = some (.file content)) :
    (fs.erase loc h).node? = Function.update fs.node? loc none :=
  nodeAt_erase (ne_nil_of_file h)

-- ---------------------------------------------------------------------------
-- Following a path
-- ---------------------------------------------------------------------------

def walk (fs : FileSystem) : Location → List Part → Except PathError Location
  | here, [] => .ok here
  | here, part :: parts =>
    match fs.node? here with
    | some .directory => fs.walk (if part = dotDot then here.dropLast else here ++ [part]) parts
    | some (.file _) => .error .notADirectoryError
    | none => .error .fileNotFoundError

/-- The location a path denotes, whether or not something lies there. -/
def locate (fs : FileSystem) (path : PurePath) : Except PathError Location :=
  if NulFree path.parts then fs.walk (if path.root = .none then fs.cwd else []) path.parts
  else .error .valueError

theorem walk_append (fs : FileSystem) : fs.walk here (parts ++ parts') =
    (fs.walk here parts >>= fun there => fs.walk there parts') := by
  induction parts generalizing here with
  | nil => rfl
  | cons part parts ih =>
    rw [List.cons_append, walk, walk]
    split
    · exact ih
    · rfl
    · rfl

theorem locate_append (fs : FileSystem) (h : NulFree parts) (hl : fs.locate path = .ok here) :
    fs.locate (path.append parts) = fs.walk here parts := by
  unfold locate at hl ⊢
  split at hl
  · rename_i hpath
    have hall : NulFree (path.append parts).parts := by
      intro part hpart
      rcases List.mem_append.mp hpart with hpart | hpart
      · exact hpath part hpart
      · exact h part hpart
    rw [if_pos hall]
    show fs.walk (if path.root = .none then fs.cwd else []) (path.parts ++ parts) = _
    rw [walk_append, hl, bind_ok_eq]
  · cases hl

theorem walk_keeps_above (fs : FileSystem) (h : fs.walk here parts = .ok loc)
    (habove : fs.node? here.dropLast = some .directory) :
    fs.node? loc.dropLast = some .directory := by
  induction parts generalizing here with
  | nil =>
    cases h
    exact habove
  | cons part parts ih =>
    rw [walk] at h
    split at h
    · rename_i hhere
      apply ih h
      split
      · exact fs.directory_above habove
      · rwa [List.dropLast_concat]
    · cases h
    · cases h

theorem vacant_of_locate (fs : FileSystem) (hloc : fs.locate path = .ok loc)
    (hnode : fs.node? loc ≠ some .directory) : fs.Vacant loc := by
  refine ⟨?_, hnode⟩
  unfold locate at hloc
  split at hloc
  · apply fs.walk_keeps_above hloc
    split
    · exact fs.directory_above fs.stands
    · rfl
  · cases hloc

/-- Without `..`, a walk goes down one component after the other. -/
theorem eq_append_of_walk (fs : FileSystem) (hdots : dotDot ∉ parts)
    (h : fs.walk here parts = .ok loc) : loc = here ++ parts := by
  induction parts generalizing here with
  | nil =>
    cases h
    rw [List.append_nil]
  | cons part parts ih =>
    rw [List.mem_cons, not_or] at hdots
    rw [walk] at h
    split at h
    · rw [if_neg (Ne.symm hdots.1)] at h
      rw [ih hdots.2 h, List.append_assoc, List.singleton_append]
    · cases h
    · cases h

theorem walk_to (fs : FileSystem) (hdots : dotDot ∉ parts)
    (h : parts ≠ [] → fs.node? (here ++ parts.dropLast) = some .directory) :
    fs.walk here parts = .ok (here ++ parts) := by
  induction parts using List.reverseRecOn with
  | nil => rw [List.append_nil, walk]
  | append_singleton parts part ih =>
    have hlast : fs.node? (here ++ parts) = some .directory := by simpa using h
    rw [List.mem_append, List.mem_singleton, not_or] at hdots
    have hparts : fs.walk here parts = .ok (here ++ parts) := by
      apply ih hdots.1
      intro hne
      have habove := fs.directory_above hlast
      rwa [List.dropLast_append_of_ne_nil hne] at habove
    rw [walk_append, hparts, bind_ok_eq, walk, hlast]
    simp [walk, Ne.symm hdots.2]

theorem walk_to_node (fs : FileSystem) (hdots : dotDot ∉ parts)
    (hnode : fs.node? (here ++ parts) = some node) : fs.walk here parts = .ok (here ++ parts) := by
  apply fs.walk_to hdots
  intro hne
  have habove := fs.directory_above hnode
  rwa [List.dropLast_append_of_ne_nil hne] at habove

theorem locate_to (fs : FileSystem) (hl : fs.locate path = .ok here) (hnul : NulFree parts)
    (hdots : dotDot ∉ parts)
    (h : parts ≠ [] → fs.node? (here ++ parts.dropLast) = some .directory) :
    fs.locate (path.append parts) = .ok (here ++ parts) :=
  (fs.locate_append hnul hl).trans (fs.walk_to hdots h)

/-- With no file in the way, all that can be wrong is that something is missing. -/
theorem error_of_walk (fs : FileSystem) (hdots : dotDot ∉ parts)
    (hfree : ∀ initial, initial <+: parts → ∀ content, fs.node? (here ++ initial) ≠ some (.file content))
    (h : fs.walk here parts = .error e) : e = .fileNotFoundError := by
  induction parts generalizing here with
  | nil => cases h
  | cons part parts ih =>
    rw [List.mem_cons, not_or] at hdots
    rw [walk] at h
    split at h
    · rw [if_neg (Ne.symm hdots.1)] at h
      apply ih hdots.2 ?_ h
      intro initial hinitial content
      rw [List.append_assoc, List.singleton_append]
      exact hfree (part :: initial) (List.cons_prefix_cons.mpr ⟨rfl, hinitial⟩) content
    · rename_i content hhere
      refine absurd ?_ (hfree [] List.nil_prefix content)
      rwa [List.append_nil]
    · cases h
      rfl

-- ---------------------------------------------------------------------------
-- Changes that keep the directories
-- ---------------------------------------------------------------------------

def KeepsDirectories (fs fs' : FileSystem) : Prop :=
  fs'.cwd = fs.cwd ∧ ∀ loc, fs.node? loc = some .directory → fs'.node? loc = some .directory

theorem KeepsDirectories.refl (fs : FileSystem) : fs.KeepsDirectories fs := ⟨rfl, fun _ => id⟩

theorem KeepsDirectories.trans {fs fs' fs'' : FileSystem} (h : fs.KeepsDirectories fs')
    (h' : fs'.KeepsDirectories fs'') : fs.KeepsDirectories fs'' :=
  ⟨h'.1.trans h.1, fun loc hloc => h'.2 loc (h.2 loc hloc)⟩

theorem keepsDirectories_insert {fs : FileSystem} (h : fs.Vacant loc) :
    fs.KeepsDirectories (fs.insert loc node h) := by
  refine ⟨rfl, ?_⟩
  intro l hl
  have hne : l ≠ loc := fun heq => h.2 (heq ▸ hl)
  rw [node?_insert, Function.update_of_ne hne, hl]

theorem keepsDirectories_erase {fs : FileSystem} (h : fs.node? loc = some (.file content)) :
    fs.KeepsDirectories (fs.erase loc h) := by
  refine ⟨rfl, ?_⟩
  intro l hl
  rw [node?_erase, Function.update_of_ne (ne_of_file h hl), hl]

theorem KeepsDirectories.walk {fs fs' : FileSystem} (h : fs.KeepsDirectories fs')
    (hwalk : fs.walk here parts = .ok loc) : fs'.walk here parts = .ok loc := by
  induction parts generalizing here with
  | nil => exact hwalk
  | cons part parts ih =>
    rw [FileSystem.walk] at hwalk ⊢
    split at hwalk
    · rename_i hhere
      rw [h.2 here hhere]
      exact ih hwalk
    · cases hwalk
    · cases hwalk

theorem KeepsDirectories.locate {fs fs' : FileSystem} (h : fs.KeepsDirectories fs')
    (hloc : fs.locate path = .ok loc) : fs'.locate path = .ok loc := by
  unfold FileSystem.locate at hloc ⊢
  split at hloc
  · rename_i hnul
    rw [if_pos hnul, h.1]
    exact h.walk hloc
  · cases hloc

-- ---------------------------------------------------------------------------
-- Reading
-- ---------------------------------------------------------------------------

def stat (fs : FileSystem) (path : PurePath) : Except PathError Node :=
  match fs.locate path with
  | .error e => .error e
  | .ok loc =>
    match fs.node? loc with
    | some node => .ok node
    | none => .error .fileNotFoundError

/-- `path.exists()`: what cannot be looked up does not exist. -/
def «exists» (fs : FileSystem) (path : PurePath) : Bool :=
  match fs.stat path with
  | .ok _ => true
  | .error _ => false

def isDir (fs : FileSystem) (path : PurePath) : Bool :=
  match fs.stat path with
  | .ok .directory => true
  | _ => false

def isFile (fs : FileSystem) (path : PurePath) : Bool :=
  match fs.stat path with
  | .ok (.file _) => true
  | _ => false

def readBytes (fs : FileSystem) (path : PurePath) : Except PathError (List UInt8) :=
  match fs.stat path with
  | .error e => .error e
  | .ok .directory => .error .isADirectoryError
  | .ok (.file content) => .ok content

/-- `path.rglob("*")`: everything below a directory, in no particular order. -/
def rglob (fs : FileSystem) (path : PurePath) : List PurePath :=
  match fs.locate path with
  | .error _ => []
  | .ok here =>
    if fs.node? here = some .directory then
      (fs.nodes.keys.filter fun loc => here <+: loc ∧ loc ≠ here).map fun loc =>
        path.append (loc.drop here.length)
    else []

-- ---------------------------------------------------------------------------
-- Writing
-- ---------------------------------------------------------------------------

/-- `os.mkdir(path)` -/
def osMkdir (fs : FileSystem) (path : PurePath) : Except PathError FileSystem :=
  match hloc : fs.locate path with
  | .error e => .error e
  | .ok loc =>
    if hnode : fs.node? loc = none then
      .ok (fs.insert loc .directory (fs.vacant_of_locate hloc (hnode ▸ nofun)))
    else .error .fileExistsError

/-- `path.mkdir(exist_ok=True)` -/
def mkdirHere (fs : FileSystem) (path : PurePath) : Except PathError FileSystem :=
  match fs.osMkdir path with
  | .ok fs' => .ok fs'
  | .error .fileNotFoundError => .error .fileNotFoundError
  | .error .valueError => .error .valueError
  | .error e => if fs.isDir path then .ok fs else .error e

/-- `path.mkdir(parents=True, exist_ok=True)`, on the components from the last
to the first. The directories made before a failure stay. -/
def mkdirParents (fs : FileSystem) (root : Root) : List Part → Except PathError Unit × FileSystem
  | [] =>
    match fs.mkdirHere { root, parts := [] } with
    | .ok fs' => (.ok (), fs')
    | .error e => (.error e, fs)
  | part :: above =>
    let path : PurePath := { root, parts := (part :: above).reverse }
    match fs.mkdirHere path with
    | .ok fs' => (.ok (), fs')
    | .error .fileNotFoundError =>
      match fs.mkdirParents root above with
      | (.error e, fs') => (.error e, fs')
      | (.ok (), fs') =>
        match fs'.mkdirHere path with
        | .ok fs'' => (.ok (), fs'')
        | .error e => (.error e, fs')
    | .error e => (.error e, fs)

def mkdir (fs : FileSystem) (path : PurePath) : Except PathError Unit × FileSystem :=
  fs.mkdirParents path.root path.parts.reverse

theorem mkdir_eq (fs : FileSystem) (path : PurePath) : fs.mkdir path =
    match fs.mkdirHere path with
    | .ok fs' => (.ok (), fs')
    | .error .fileNotFoundError =>
      if path.parts = [] then (.error .fileNotFoundError, fs) else
      match fs.mkdir path.parent with
      | (.error e, fs') => (.error e, fs')
      | (.ok (), fs') =>
        match fs'.mkdirHere path with
        | .ok fs'' => (.ok (), fs'')
        | .error e => (.error e, fs')
    | .error e => (.error e, fs) := by
  cases hparts : path.parts.reverse with
  | nil =>
    have hpath : path = { root := path.root, parts := [] } := by
      rw [List.reverse_eq_nil_iff] at hparts
      rw [← hparts]
    rw [mkdir, hparts, mkdirParents, ← hpath, if_pos (List.reverse_eq_nil_iff.mp hparts)]
    rcases fs.mkdirHere path with (_ | _ | _ | _ | _) | _ <;> rfl
  | cons part above =>
    have hpath : path = { root := path.root, parts := (part :: above).reverse } := by
      rw [← hparts, List.reverse_reverse]
    have hne : path.parts ≠ [] := by
      rintro hnil
      rw [hnil] at hparts
      cases hparts
    have hparent : fs.mkdir path.parent = fs.mkdirParents path.root above := by
      rw [mkdir, PurePath.parent, ← List.tail_reverse, hparts, List.tail_cons]
    rw [mkdir, hparts, mkdirParents, ← hpath, if_neg hne, hparent]

def writeBytes (fs : FileSystem) (path : PurePath) (value : List UInt8) :
    Except PathError FileSystem :=
  match hloc : fs.locate path with
  | .error e => .error e
  | .ok loc =>
    if hnode : fs.node? loc = some .directory then .error .isADirectoryError
    else .ok (fs.insert loc (.file value) (fs.vacant_of_locate hloc hnode))

def unlink (fs : FileSystem) (path : PurePath) : Except PathError FileSystem :=
  match fs.locate path with
  | .error e => .error e
  | .ok loc =>
    match hnode : fs.node? loc with
    | none => .error .fileNotFoundError
    | some .directory => .error .isADirectoryError
    | some (.file _) => .ok (fs.erase loc hnode)

end FileSystem

end Intelliqx.Py
