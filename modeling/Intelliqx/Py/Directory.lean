import Mathlib.Data.List.Infix
import Intelliqx.Py.Path

/-!
# Walking a directory

`os.walk` from the top, where the caller strikes out the subdirectories it does
not want to enter. The walk comes by every file that has no such directory
above it, in the order of the tree (`filesOf_walk`).
-/

namespace Intelliqx.Py

/-- The names in a directory, in the order of its scan. A link to a directory
and a directory that cannot be listed count as empty ones, as they are to the walk. -/
inductive Directory
  | mk (filenames : List String) (dirnames : List (String × Directory))

/-- A file: the directories above it and its name. -/
abbrev FilePath := List String × String

def FilePath.under (name : String) (f : FilePath) : FilePath := (name :: f.1, f.2)

mutual
def Directory.files : Directory → List FilePath
  | .mk filenames dirnames => filenames.map (([], ·)) ++ Directory.filesAll dirnames
def Directory.filesAll : List (String × Directory) → List FilePath
  | [] => []
  | (name, d) :: rest => d.files.map (FilePath.under name) ++ Directory.filesAll rest
end

section
variable (enters : String → Bool)

mutual
/-- The directories that are entered, with the names of their files. -/
def walk (dirpath : List String) : Directory → List (List String × List String)
  | .mk filenames dirnames => (dirpath, filenames) :: walkAll dirpath dirnames
def walkAll (dirpath : List String) : List (String × Directory) → List (List String × List String)
  | [] => []
  | (name, d) :: rest =>
    (if enters name then walk (dirpath ++ [name]) d else []) ++ walkAll dirpath rest
end

end

def filesOf (rows : List (List String × List String)) : List FilePath :=
  rows.flatMap fun row => row.2.map fun filename => (row.1, filename)

section
variable {enters : String → Bool} {fs : List FilePath} {dirpath : List String}

/-- The files without a directory above them that is not entered, below another directory. -/
def reached (enters : String → Bool) (dirpath : List String) (fs : List FilePath) : List FilePath :=
  (fs.filter fun f => f.1.all enters).map fun f => (dirpath ++ f.1, f.2)

theorem reached_append (fs' : List FilePath) :
    reached enters dirpath (fs ++ fs') = reached enters dirpath fs ++ reached enters dirpath fs' := by
  simp [reached]

theorem reached_under (name : String) : reached enters dirpath (fs.map (FilePath.under name)) =
    if enters name then reached enters (dirpath ++ [name]) fs else [] := by
  unfold reached
  rw [List.filter_map, List.map_map]
  split
  · rename_i hname
    simp [Function.comp_def, FilePath.under, hname]
  · rename_i hname
    simp [Function.comp_def, FilePath.under, hname]

theorem filesOf_append (rows rows' : List (List String × List String)) :
    filesOf (rows ++ rows') = filesOf rows ++ filesOf rows' :=
  List.flatMap_append

mutual
theorem filesOf_walk_below : (d : Directory) → (dirpath : List String) →
    filesOf (walk enters dirpath d) = reached enters dirpath d.files
  | .mk filenames dirnames, dirpath => by
    have hhere : reached enters dirpath (filenames.map (([], ·))) = filenames.map ((dirpath, ·)) := by
      simp [reached, List.filter_map, Function.comp_def]
    rw [Directory.files, reached_append, hhere, ← filesOf_walkAll dirnames dirpath]
    rfl
theorem filesOf_walkAll : (ds : List (String × Directory)) → (dirpath : List String) →
    filesOf (walkAll enters dirpath ds) = reached enters dirpath (Directory.filesAll ds)
  | [], _ => rfl
  | (name, d) :: rest, dirpath => by
    rw [walkAll, Directory.filesAll, filesOf_append, reached_append, reached_under, filesOf_walkAll rest dirpath]
    congr 1
    split
    · exact filesOf_walk_below d (dirpath ++ [name])
    · rfl
end

theorem filesOf_walk (enters : String → Bool) (d : Directory) :
    filesOf (walk enters [] d) = d.files.filter fun f => f.1.all enters := by
  rw [filesOf_walk_below]
  simp [reached]

end

namespace PurePath

/-- `PurePath.suffix` of a name: from its last dot on, unless that is its first or last character. -/
def suffix (name : Part) : Part :=
  let ext := (name.reverse.takeWhile (· ≠ '.')).reverse
  if '.' ∈ name ∧ ext ≠ [] ∧ ext.length + 1 < name.length then '.' :: ext else []

end PurePath

end Intelliqx.Py
