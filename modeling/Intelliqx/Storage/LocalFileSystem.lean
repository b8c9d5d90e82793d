import Intelliqx.Py.FileSystem
import Intelliqx.Storage.InMemory
import Mathlib.Data.List.Lex

/-!
# The object store on the local file system

Each key names a file below the root directory. `LocalFileSystemObjectStore`
carries the file system it works on.
-/

namespace Intelliqx.Storage

open Py

structure LocalFileSystemObjectStore where
  root : PurePath
  fs : FileSystem

def StoreError.ofPath : PathError → StoreError
  | .valueError => .valueError
  | _ => .osError

/-- One leading slash is stripped from keys and prefixes. -/
def stripSlash : List Char → List Char
  | '/' :: rest => rest
  | text => text

namespace LocalFileSystemObjectStore

/-- `__init__` -/
def init (fs : FileSystem) (root : String) : Except StoreError LocalFileSystemObjectStore :=
  match fs.mkdir (.ofText root.toList) with
  | (.ok (), fs) => .ok { root := .ofText root.toList, fs }
  | (.error e, _) => .error (.ofPath e)

def path (s : LocalFileSystemObjectStore) (key : String) : PurePath :=
  s.root.join (stripSlash key.toList)

/-- The file is as long as `value` when its size is read for the answer. -/
def put (s : LocalFileSystemObjectStore) (key : String) (value : Bytes) :
    Except StoreError String × LocalFileSystemObjectStore :=
  let path := s.path key
  match s.fs.mkdir path.parent with
  | (.error e, fs) => (.error (.ofPath e), { s with fs })
  | (.ok (), fs) =>
    match fs.writeBytes path value with
    | .error e => (.error (.ofPath e), { s with fs })
    | .ok fs => (.ok ("local-" ++ toString value.length), { s with fs })

def get (s : LocalFileSystemObjectStore) (key : String) : Except StoreError Bytes :=
  let path := s.path key
  if s.fs.exists path then (s.fs.readBytes path).mapError .ofPath else .error (.notFoundError key)

def «exists» (s : LocalFileSystemObjectStore) (key : String) : Bool := s.fs.exists (s.path key)

def delete (s : LocalFileSystemObjectStore) (key : String) :
    Except StoreError LocalFileSystemObjectStore :=
  let path := s.path key
  if s.fs.exists path then
    match s.fs.unlink path with
    | .error e => .error (.ofPath e)
    | .ok fs => .ok { s with fs }
  else .ok s

/-- The files below a path. Paths are sorted component by component. -/
def found (s : LocalFileSystemObjectStore) (base : PurePath) : List PurePath :=
  ((s.fs.rglob base).insertionSort fun p q => p.parts ≤ q.parts).filter s.fs.isFile

/-- `str(p.relative_to(self.root))` -/
def keyOf (s : LocalFileSystemObjectStore) (p : PurePath) : Except StoreError String :=
  match p.relativeTo s.root with
  | none => .error .valueError
  | some p => .ok p.str

/-- The answer is what a loop over all the keys collects, or what it raises. -/
def list (s : LocalFileSystemObjectStore) (pre : String) : Except StoreError (List String) :=
  let base := s.root.join (stripSlash pre.toList)
  if s.fs.exists base then (s.found base).mapM s.keyOf else .ok []

def step (s : LocalFileSystemObjectStore) : Call → Reply × LocalFileSystemObjectStore
  | .put key value =>
    match s.put key value with
    | (.ok tag, s') => (.str tag, s')
    | (.error e, s') => (.raised e, s')
  | .get key =>
    match s.get key with
    | .ok value => (.bytes value, s)
    | .error e => (.raised e, s)
  | .exists key => (.bool (s.exists key), s)
  | .delete key =>
    match s.delete key with
    | .ok s' => (.none, s')
    | .error e => (.raised e, s)
  | .list pre =>
    match s.list pre with
    | .ok keys => (.keys keys, s)
    | .error e => (.raised e, s)

end LocalFileSystemObjectStore

end Intelliqx.Storage
