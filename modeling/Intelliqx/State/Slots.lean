import Intelliqx.State.Store

/-!
# What is filed under one key

A call on a key reads and writes the slot of that key alone, and all that is
left of the other keys is the order of the values (`slot_step`, `keys_step`).
So the store and the reference are compared slot by slot.
-/

namespace Intelliqx.State

open InMemoryStateStore

/-- The value, hash, list and deadline of a key. An absent hash or list is an
empty one, except that a key with an empty list is there. -/
@[ext] structure Slot where
  value : Option Bytes
  hash : Dict String String
  list : List String
  deadline : Option ℚ
  present : Bool

namespace Slot

def gone : Slot := ⟨none, .empty, [], none, false⟩

def stale (now : ℚ) (x : Slot) : Bool :=
  match x.deadline with
  | none => false
  | some exp => exp ≤ now

def purge (now : ℚ) (x : Slot) : Slot := if x.stale now then gone else x

/-- A call on the slot of its key. -/
def act (now : ℚ) : Op → Slot → Reply × Slot
  | .get _, x => (.bytes (x.purge now).value, x.purge now)
  | .set _ value ttl, x =>
    (.none, { x with value := some value, deadline := ttl.map fun t => now + t, present := true })
  | .delete _, _ => (.none, gone)
  | .incr _ amount, x =>
    match parseInt (x.value.getD [48]) with
    | none => (.valueError, x)
    | some cur => (.int (cur + amount), { x with value := some (encodeInt (cur + amount)), present := true })
  | .expire _ ttl, x => (.none, { x with deadline := some (now + ttl) })
  | .keys _, x => (.keys [], x)
  | .hset _ field value, x =>
    (.none, { x.purge now with hash := (x.purge now).hash.insert field value, present := true })
  | .hgetall _, x => (.fields (x.purge now).hash, x.purge now)
  | .hkeys _, x => (.names (x.purge now).hash.keys, x.purge now)
  | .lpush _ value, x =>
    (.int (value :: x.list).length, { x with list := value :: x.list, present := true })
  | .rpop _, x =>
    match x.list with
    | [] => (.str none, x)
    | item :: items => (.str (item :: items).getLast?, { x with list := (item :: items).dropLast })

/-- The same call on the reference. -/
def referenceAct (now : ℚ) : Op → Slot → Reply × Slot
  | .expire key ttl, x =>
    if (x.purge now).present then act now (.expire key ttl) (x.purge now) else (.none, x.purge now)
  | op, x => act now op (x.purge now)

@[simp] theorem stale_gone (now : ℚ) : gone.stale now = false := rfl

@[simp] theorem purge_gone (now : ℚ) : gone.purge now = gone := rfl

theorem purge_of_stale {x : Slot} (h : x.stale now = true) : x.purge now = gone := if_pos h

theorem purge_of_not_stale {x : Slot} (h : x.stale now = false) : x.purge now = x := by
  simp [purge, h]

end Slot

def slot (s : InMemoryStateStore) (key : String) : Slot where
  value := s.kv.get? key
  hash := (s.hashes.get? key).getD .empty
  list := (s.lists.get? key).getD []
  deadline := s.expiry.get? key
  present := s.present key

/-- The key of a call on one key. -/
def Op.key? : Op → Option String
  | .keys _ => none
  | .get key | .set key _ _ | .delete key | .incr key _ | .expire key _ | .hset key _ _
  | .hgetall key | .hkeys key | .lpush key _ | .rpop key => some key

/-- The keys in the order of their values, when `key` has a value or not. -/
def place (key : String) (valued : Bool) (keys : List String) : List String :=
  if valued then (if key ∈ keys then keys else keys ++ [key]) else keys.filter (· ≠ key)

section
variable {s : InMemoryStateStore} {now : ℚ} {key k : String}

theorem expired_eq_stale : s.expired now key = (slot s key).stale now := rfl

theorem slot_drop : slot (s.drop key) k = if k = key then Slot.gone else slot s k := by
  split
  · rename_i h
    subst h
    simp [slot, drop, Dict.get?_erase, Slot.gone, present, Dict.contains, Dict.mem_keys_erase]
  · rename_i h
    simp [slot, drop, Dict.get?_erase, h, present, Dict.contains, Dict.mem_keys_erase]

theorem slot_purgeExpired :
    slot (s.purgeExpired now key).2 k = if k = key then (slot s key).purge now else slot s k := by
  unfold purgeExpired Slot.purge
  rw [expired_eq_stale]
  split
  · rw [slot_drop]
  · split
    · rename_i h
      rw [h]
    · rfl

theorem slot_purgeAll : slot (s.purgeAll now) k = (slot s k).purge now := by
  cases h : s.expired now k with
  | true =>
    rw [Slot.purge_of_stale (expired_eq_stale ▸ h)]
    simp [slot, purgeAll, Dict.get?_restrict, h, Slot.gone, present, Dict.contains, Dict.keys_restrict]
  | false =>
    rw [Slot.purge_of_not_stale (expired_eq_stale ▸ h)]
    simp [slot, purgeAll, Dict.get?_restrict, h, present, Dict.contains, Dict.keys_restrict]

theorem valued_iff : (slot s key).value.isSome = true ↔ key ∈ s.kv.keys := Dict.isSome_get?_iff

theorem place_self : place key (slot s key).value.isSome s.kv.keys = s.kv.keys := by
  unfold place
  split
  · rename_i h
    rw [if_pos (valued_iff.mp h)]
  · rename_i h
    rw [List.filter_eq_self]
    intro k hk
    have hne : k ≠ key := fun he => h (valued_iff.mpr (he ▸ hk))
    simpa using hne

-- ---------------------------------------------------------------------------
-- Writing one field
-- ---------------------------------------------------------------------------

theorem slot_insert_kv (v : Bytes) : slot { s with kv := s.kv.insert key v } k =
    if k = key then { slot s key with value := some v, present := true } else slot s k := by
  split
  · rename_i h
    subst h
    simp [slot, present, Dict.contains, Dict.mem_keys_insert]
  · rename_i h
    simp [slot, present, Dict.contains, Dict.mem_keys_insert, Dict.get?_insert, h]

theorem slot_insert_hashes (key : String) (v : Dict String String) :
    slot { s with hashes := s.hashes.insert key v } k =
      if k = key then { slot s key with hash := v, present := true } else slot s k := by
  split
  · rename_i h
    subst h
    simp [slot, present, Dict.contains, Dict.mem_keys_insert]
  · rename_i h
    simp [slot, present, Dict.contains, Dict.mem_keys_insert, Dict.get?_insert, h]

theorem slot_insert_lists (v : List String) :
    slot { s with lists := s.lists.insert key v } k =
      if k = key then { slot s key with list := v, present := true } else slot s k := by
  split
  · rename_i h
    subst h
    simp [slot, present, Dict.contains, Dict.mem_keys_insert]
  · rename_i h
    simp [slot, present, Dict.contains, Dict.mem_keys_insert, Dict.get?_insert, h]

theorem slot_expiry (key : String) {expiry : Dict String ℚ}
    (h : ∀ k, k ≠ key → expiry.get? k = s.expiry.get? k) :
    slot { s with expiry } k =
      if k = key then { slot s key with deadline := expiry.get? key } else slot s k := by
  split
  · rename_i hk
    subst hk
    rfl
  · rename_i hk
    simp [slot, present, h k hk]

theorem slot_set (v : Bytes) (ttl : Option Int) : slot (s.set now key v ttl) k =
    if k = key then (Slot.act now (.set key v ttl) (slot s key)).2 else slot s k := by
  have hset : s.set now key v ttl =
      { ({ s with kv := s.kv.insert key v } : InMemoryStateStore) with
        expiry := (s.set now key v ttl).expiry } := rfl
  rw [hset, slot_expiry key, slot_insert_kv, slot_insert_kv]
  · cases ttl <;> split <;> simp_all [Slot.act, InMemoryStateStore.set, Dict.get?_erase]
  · intro k hk
    cases ttl <;> simp [InMemoryStateStore.set, Dict.get?_insert, Dict.get?_erase, hk]

/-- The looking calls read the store after the purge. -/
theorem get_eq : s.get now key =
    ((slot s key).purge now |>.value, (s.purgeExpired now key).2) := by
  unfold InMemoryStateStore.get purgeExpired Slot.purge
  rw [← expired_eq_stale]
  cases s.expired now key <;> rfl

theorem hgetall_eq : s.hgetall now key =
    ((slot s key).purge now |>.hash, (s.purgeExpired now key).2) := by
  unfold InMemoryStateStore.hgetall purgeExpired Slot.purge
  rw [← expired_eq_stale]
  cases s.expired now key <;> rfl

theorem hkeys_eq : s.hkeys now key =
    (((slot s key).purge now).hash.keys, (s.purgeExpired now key).2) := by
  unfold InMemoryStateStore.hkeys purgeExpired Slot.purge
  rw [← expired_eq_stale]
  cases s.expired now key <;> rfl

/-- A call answers from its slot. -/
theorem reply_step (hkey : op.key? = some key) :
    (s.step now op).1 = (Slot.act now op (slot s key)).1 := by
  cases op <;> cases hkey
  case get => simp only [step, get_eq, Slot.act]
  case hgetall => simp only [step, hgetall_eq, Slot.act]
  case hkeys => simp only [step, hkeys_eq, Slot.act]
  case incr amount =>
    simp only [step, InMemoryStateStore.incr, Slot.act, slot]
    cases parseInt ((s.kv.get? key).getD [48]) <;> rfl
  case rpop =>
    simp only [step, InMemoryStateStore.rpop, Slot.act, slot]
    cases (s.lists.get? key).getD [] <;> rfl
  all_goals rfl

theorem slot_hset (field value : String) : slot (s.hset now key field value) k =
    if k = key then (Slot.act now (.hset key field value) (slot s key)).2 else slot s k := by
  have h := slot_insert_hashes (s := (s.purgeExpired now key).2) key (k := k)
    ((((s.purgeExpired now key).2.hashes.get? key).getD .empty).insert field value)
  have hown : slot (s.purgeExpired now key).2 key = (slot s key).purge now := by
    simp [slot_purgeExpired]
  have hhash : ((s.purgeExpired now key).2.hashes.get? key).getD .empty =
      ((slot s key).purge now).hash := by
    rw [← hown]
    rfl
  rw [hown, hhash, slot_purgeExpired] at h
  simp only [InMemoryStateStore.hset, hhash, h, Slot.act]
  split <;> rfl

/-- The list of a key is there while it has an item. -/
theorem present_of_lists (h : (s.lists.get? key).getD [] = item :: items) : (slot s key).present = true := by
  have hmem : key ∈ s.lists.keys := by
    rw [← Dict.isSome_get?_iff]
    cases hg : s.lists.get? key with
    | none => simp [hg] at h
    | some v => rfl
  simp [slot, present, Dict.contains, hmem]

theorem slot_rpop : slot (s.rpop key).2 k =
    if k = key then (Slot.act now (.rpop key) (slot s key)).2 else slot s k := by
  have hlist : (slot s key).list = (s.lists.get? key).getD [] := rfl
  simp only [InMemoryStateStore.rpop, Slot.act, hlist]
  cases hl : (s.lists.get? key).getD [] with
  | nil => simp +contextual
  | cons item items => rw [slot_insert_lists, present_of_lists hl]

/-- What a call does to the slots: it acts on its own and leaves the others. -/
theorem slot_step (hkey : op.key? = some key) :
    slot (s.step now op).2 k =
      if k = key then (Slot.act now op (slot s key)).2 else slot s k := by
  cases op <;> cases hkey
  case get => simp only [step, get_eq, slot_purgeExpired, Slot.act]
  case set value ttl => exact slot_set value ttl
  case delete => exact slot_drop
  case incr amount =>
    simp only [step, InMemoryStateStore.incr, Slot.act]
    have hvalue : (slot s key).value = s.kv.get? key := rfl
    rw [hvalue]
    cases parseInt ((s.kv.get? key).getD [48]) with
    | none => simp +contextual
    | some cur => exact slot_insert_kv _
  case expire ttl =>
    have h : slot { s with expiry := s.expiry.insert key (now + ttl) } k =
        if k = key then { slot s key with deadline := (s.expiry.insert key (now + ttl)).get? key }
        else slot s k := slot_expiry key fun k hk => Dict.get?_insert_ne hk
    simpa [step, InMemoryStateStore.expire, Slot.act] using h
  case hset field value => exact slot_hset field value
  case hgetall => simp only [step, hgetall_eq, slot_purgeExpired, Slot.act]
  case hkeys => simp only [step, hkeys_eq, slot_purgeExpired, Slot.act]
  case lpush value => exact slot_insert_lists _
  case rpop => exact slot_rpop

-- ---------------------------------------------------------------------------
-- The order of the values
-- ---------------------------------------------------------------------------

section
variable {s' : InMemoryStateStore}

theorem keys_of_same (h : s'.kv = s.kv) :
    s'.kv.keys = place key (slot s' key).value.isSome s.kv.keys := by
  rw [← h, place_self]

theorem keys_of_erase (h : s'.kv = s.kv.erase key) :
    s'.kv.keys = place key (slot s' key).value.isSome s.kv.keys := by
  have hvalue : (slot s' key).value = none := by simp [slot, h, Dict.get?_erase]
  rw [hvalue, h, Dict.erase, Dict.keys_restrict]
  rfl

theorem keys_of_insert (h : s'.kv = s.kv.insert key v) :
    s'.kv.keys = place key (slot s' key).value.isSome s.kv.keys := by
  have hvalue : (slot s' key).value = some v := by simp [slot, h]
  rw [hvalue, h, Dict.keys_insert]
  rfl

end

theorem keys_purgeExpired : (s.purgeExpired now key).2.kv.keys =
    place key (slot (s.purgeExpired now key).2 key).value.isSome s.kv.keys := by
  cases h : s.expired now key with
  | true => exact keys_of_erase (by simp [purgeExpired, h, drop])
  | false => exact keys_of_same (by simp [purgeExpired, h])

theorem keys_step (hkey : op.key? = some key) : (s.step now op).2.kv.keys =
    place key (slot (s.step now op).2 key).value.isSome s.kv.keys := by
  cases op <;> cases hkey
  case get => simpa only [step, get_eq] using keys_purgeExpired
  case set value ttl => exact keys_of_insert rfl
  case delete => exact keys_of_erase rfl
  case incr amount =>
    simp only [step, InMemoryStateStore.incr]
    cases parseInt ((s.kv.get? key).getD [48]) with
    | none => exact keys_of_same rfl
    | some cur => exact keys_of_insert rfl
  case expire ttl => exact keys_of_same rfl
  case hset field value => exact keys_purgeExpired
  case hgetall => simpa only [step, hgetall_eq] using keys_purgeExpired
  case hkeys => simpa only [step, hkeys_eq] using keys_purgeExpired
  case lpush value => exact keys_of_same rfl
  case rpop =>
    simp only [step, InMemoryStateStore.rpop]
    cases (s.lists.get? key).getD [] <;> exact keys_of_same rfl

end

end Intelliqx.State
