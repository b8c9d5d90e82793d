import Intelliqx.Base.Dict
import Intelliqx.Base.Mealy
import Mathlib.Algebra.Order.Ring.Rat

/-!
# The state store

`InMemoryStateStore` files values, hashes and lists under keys and keeps one
deadline for each key. A key whose deadline has passed is dropped by the calls
that look. `ReferenceStore` drops every such key before each call.
-/

namespace Intelliqx.State

abbrev Bytes := List UInt8

-- ---------------------------------------------------------------------------
-- Counters
-- ---------------------------------------------------------------------------

def isSpace (b : UInt8) : Bool := b == 32 || (9 ≤ b && b ≤ 13)

/-- Decimal digits with single underscores between them. `afterDigit` says
whether the byte before was a digit. -/
def parseDigits : Nat → Bool → Bytes → Option Nat
  | n, afterDigit, [] => if afterDigit then some n else none
  | n, afterDigit, b :: bs =>
    if 48 ≤ b ∧ b ≤ 57 then parseDigits (10 * n + (b.toNat - 48)) true bs
    else if b = 95 ∧ afterDigit then parseDigits n false bs
    else none

/-- `int` of a byte string, without the interpreter's limit on digits. -/
def parseInt (value : Bytes) : Option Int :=
  match (((value.dropWhile isSpace).reverse.dropWhile isSpace).reverse) with
  | 43 :: bs => (parseDigits 0 false bs).map Int.ofNat
  | 45 :: bs => (parseDigits 0 false bs).map fun n => -Int.ofNat n
  | bs => (parseDigits 0 false bs).map Int.ofNat

/-- `str(n).encode("utf-8")` -/
def encodeInt (n : Int) : Bytes := (toString n).toUTF8.toList

-- ---------------------------------------------------------------------------
-- The store
-- ---------------------------------------------------------------------------

inductive Op
  | get (key : String)
  | set (key : String) (value : Bytes) (ttlSeconds : Option Int)
  | delete (key : String)
  | incr (key : String) (amount : Int)
  | expire (key : String) (ttlSeconds : Int)
  | keys (pre : String)
  | hset (key field value : String)
  | hgetall (key : String)
  | hkeys (key : String)
  | lpush (key value : String)
  | rpop (key : String)

/-- A call and the time at which it is made. -/
structure Call where
  time : ℚ
  op : Op

inductive Reply
  | none
  | bytes (value : Option Bytes)
  | int (n : Int)
  | keys (keys : List String)
  | fields (fields : Dict String String)
  | names (names : List String)
  | str (value : Option String)
  | valueError
  deriving DecidableEq

structure InMemoryStateStore where
  kv : Dict String Bytes := .empty
  expiry : Dict String ℚ := .empty
  hashes : Dict String (Dict String String) := .empty
  lists : Dict String (List String) := .empty

namespace InMemoryStateStore

variable (s : InMemoryStateStore) (now : ℚ) (key : String)

def expired : Bool :=
  match s.expiry.get? key with
  | none => false
  | some exp => exp ≤ now

/-- The store without anything filed under the key. -/
def drop : InMemoryStateStore where
  kv := s.kv.erase key
  expiry := s.expiry.erase key
  hashes := s.hashes.erase key
  lists := s.lists.erase key

def purgeExpired : Bool × InMemoryStateStore :=
  if s.expired now key then (true, s.drop key) else (false, s)

def get : Option Bytes × InMemoryStateStore :=
  let (purged, s) := s.purgeExpired now key
  if purged then (none, s) else (s.kv.get? key, s)

def set (value : Bytes) (ttlSeconds : Option Int) : InMemoryStateStore :=
  { s with
    kv := s.kv.insert key value
    expiry := match ttlSeconds with
      | some ttl => s.expiry.insert key (now + ttl)
      | none => s.expiry.erase key }

def delete : InMemoryStateStore := s.drop key

def incr (amount : Int) : Option Int × InMemoryStateStore :=
  match parseInt ((s.kv.get? key).getD [48]) with
  | none => (none, s)
  | some cur =>
    let cur := cur + amount
    (some cur, { s with kv := s.kv.insert key (encodeInt cur) })

def expire (ttlSeconds : Int) : InMemoryStateStore :=
  { s with expiry := s.expiry.insert key (now + ttlSeconds) }

def keys (pre : String) : List String :=
  let snapshot := s.kv.keys.filter fun k => ¬ s.expired now k
  snapshot.filter fun k => pre.toList.isPrefixOf k.toList

def hset (field value : String) : InMemoryStateStore :=
  let s := (s.purgeExpired now key).2
  { s with hashes := s.hashes.insert key (((s.hashes.get? key).getD .empty).insert field value) }

def hgetall : Dict String String × InMemoryStateStore :=
  let (purged, s) := s.purgeExpired now key
  if purged then (.empty, s) else ((s.hashes.get? key).getD .empty, s)

def hkeys : List String × InMemoryStateStore :=
  let (purged, s) := s.purgeExpired now key
  if purged then ([], s) else (((s.hashes.get? key).getD .empty).keys, s)

def lpush (value : String) : Nat × InMemoryStateStore :=
  let items := value :: (s.lists.get? key).getD []
  (items.length, { s with lists := s.lists.insert key items })

def rpop : Option String × InMemoryStateStore :=
  match (s.lists.get? key).getD [] with
  | [] => (none, s)
  | item :: items =>
    ((item :: items).getLast?, { s with lists := s.lists.insert key (item :: items).dropLast })

omit key

def step : Op → Reply × InMemoryStateStore
  | .get key => (.bytes (s.get now key).1, (s.get now key).2)
  | .set key value ttl => (.none, s.set now key value ttl)
  | .delete key => (.none, s.delete key)
  | .incr key amount =>
    ((s.incr key amount).1.elim .valueError .int, (s.incr key amount).2)
  | .expire key ttl => (.none, s.expire now key ttl)
  | .keys pre => (.keys (s.keys now pre), s)
  | .hset key field value => (.none, s.hset now key field value)
  | .hgetall key => (.fields (s.hgetall now key).1, (s.hgetall now key).2)
  | .hkeys key => (.names (s.hkeys now key).1, (s.hkeys now key).2)
  | .lpush key value => (.int (s.lpush key value).1, (s.lpush key value).2)
  | .rpop key => (.str (s.rpop key).1, (s.rpop key).2)

def call (c : Call) : Reply × InMemoryStateStore := s.step c.time c.op

-- ---------------------------------------------------------------------------
-- The reference
-- ---------------------------------------------------------------------------

/-- The store without the value, hash, list and deadline of any expired key. -/
def purgeAll : InMemoryStateStore where
  kv := s.kv.restrict fun k => ¬ s.expired now k
  expiry := s.expiry.restrict fun k => ¬ s.expired now k
  hashes := s.hashes.restrict fun k => ¬ s.expired now k
  lists := s.lists.restrict fun k => ¬ s.expired now k

def present (key : String) : Bool :=
  s.kv.contains key || s.hashes.contains key || s.lists.contains key

/-- A call on the reference store: expired keys go first, and `expire` leaves
an absent key as it is. -/
def referenceCall (c : Call) : Reply × InMemoryStateStore :=
  let s := s.purgeAll c.time
  match c.op with
  | .expire key ttl => (.none, if s.present key then s.expire c.time key ttl else s)
  | op => s.step c.time op

end InMemoryStateStore

end Intelliqx.State
