import Intelliqx.Base.Dict
import Intelliqx.Base.Mealy
import Intelliqx.Py.Text
import Mathlib.Data.List.Sort
import Mathlib.Data.String.Basic

/-!
# Object stores

The calls of an object store and their results, and the store in memory. The
metadata of an object is left out, since no call reads it back.
-/

namespace Intelliqx.Storage

abbrev Bytes := List UInt8

inductive Call
  | put (key : String) (value : Bytes)
  | get (key : String)
  | «exists» (key : String)
  | delete (key : String)
  | list (pre : String)
  deriving DecidableEq

inductive StoreError
  | notFoundError (key : String)
  | valueError
  | osError
  deriving DecidableEq, Repr

/-- What a call returns or raises. -/
inductive Reply
  | str (s : String)
  | bytes (value : Bytes)
  | bool (b : Bool)
  | none
  | keys (keys : List String)
  | raised (e : StoreError)
  deriving DecidableEq, Repr

structure InMemoryObjectStore where
  store : Dict String Bytes := .empty

namespace InMemoryObjectStore

def put (s : InMemoryObjectStore) (key : String) (value : Bytes) : String × InMemoryObjectStore :=
  let store := s.store.insert key value
  ("mem-" ++ toString store.keys.length, { store })

def get (s : InMemoryObjectStore) (key : String) : Except StoreError Bytes :=
  match s.store.get? key with
  | none => .error (.notFoundError key)
  | some value => .ok value

def «exists» (s : InMemoryObjectStore) (key : String) : Bool := s.store.contains key

def delete (s : InMemoryObjectStore) (key : String) : InMemoryObjectStore :=
  { store := s.store.erase key }

def list (s : InMemoryObjectStore) (pre : String) : List String :=
  (s.store.keys.insertionSort (· ≤ ·)).filter fun k => pre.toList.isPrefixOf k.toList

def step (s : InMemoryObjectStore) : Call → Reply × InMemoryObjectStore
  | .put key value => (.str (s.put key value).1, (s.put key value).2)
  | .get key =>
    match s.get key with
    | .ok value => (.bytes value, s)
    | .error e => (.raised e, s)
  | .exists key => (.bool (s.exists key), s)
  | .delete key => (.none, s.delete key)
  | .list pre => (.keys (s.list pre), s)

end InMemoryObjectStore

/-- What a call does to the stored objects. -/
def Call.effect : Call → Dict String Bytes → Dict String Bytes
  | .put key value, store => store.insert key value
  | .delete key, store => store.erase key
  | _, store => store

theorem InMemoryObjectStore.store_step (s : InMemoryObjectStore) (c : Call) :
    (s.step c).2.store = c.effect s.store := by
  cases c with
  | get key => cases h : s.get key <;> simp [step, h, Call.effect]
  | _ => rfl

end Intelliqx.Storage
