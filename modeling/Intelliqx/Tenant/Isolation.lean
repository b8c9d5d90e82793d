import Intelliqx.Storage.InMemory

/-!
# Tenants on one object store

Two tenants share a store in memory and reach it through the namespaces of
their enforcers. `namespaces_disjoint_iff` says when the namespaces of two ids
never meet. `noninterference_iff` says, for calls whose keys do not meet, when
a tenant sees what it would see alone: `put` answers with the number of all
stored objects, so every object of the other tenant shows in it.
-/

namespace Intelliqx.Tenant

open Mealy Storage

/-- A context as `TenantResolver` builds it, which refuses an empty tenant id. -/
structure TenantContext where
  tenantId : String
  accepted : tenantId ≠ ""
  deriving DecidableEq

/-- `IsolationEnforcer(tenant).namespace(key)` -/
def «namespace» (tenant : TenantContext) (key : String) : String :=
  tenant.tenantId ++ "/" ++ key

/-- The calls that a tenant makes with keys of its own choice. -/
inductive TenantCall
  | put (key : String) (value : Bytes)
  | get (key : String)
  | «exists» (key : String)
  | delete (key : String)

def TenantCall.key : TenantCall → String
  | .put key _ | .get key | .exists key | .delete key => key

structure Request where
  tenant : TenantContext
  call : TenantCall

namespace Request

def key (r : Request) : String := «namespace» r.tenant r.call.key

/-- The call of the store, with the key in the namespace of the tenant. -/
def storeCall (r : Request) : Call :=
  match r.call with
  | .put _ value => .put r.key value
  | .get _ => .get r.key
  | .exists _ => .exists r.key
  | .delete _ => .delete r.key

end Request

def serve (s : InMemoryObjectStore) (r : Request) : Reply × InMemoryObjectStore := s.step r.storeCall

/-- What `tenant` observes of the run is what it observes when it is alone. -/
def SeesOnlyItself (tenant : TenantContext) (reqs : List Request) : Prop :=
  observed serve (fun r => r.tenant = tenant) {} reqs =
    outputs serve {} (reqs.filter fun r => r.tenant = tenant)

/-- No two calls of different tenants use the same key of the store. -/
def KeysApart (reqs : List Request) : Prop :=
  ∀ r ∈ reqs, ∀ r' ∈ reqs, r.tenant ≠ r'.tenant → r.key ≠ r'.key

/-- The id of `a` goes on after the id of `b` and a slash. -/
def Extends (a b : TenantContext) : Prop :=
  ∃ rest, a.tenantId = b.tenantId ++ "/" ++ rest

/-- Somebody else than `tenant` put the key and nobody deleted it since. -/
def StoredByOther (tenant : TenantContext) (before : List Request) (key : String) : Prop :=
  ∃ p r q value, before = p ++ r :: q ∧ r.tenant ≠ tenant ∧ r.storeCall = .put key value ∧
    ∀ r' ∈ q, r'.storeCall ≠ .delete key

/-- Every `put` comes when no other tenant has an object in the store. -/
def PutsAlone (reqs : List Request) : Prop :=
  ∀ p r q key value, reqs = p ++ r :: q → r.storeCall = .put key value →
    ∀ key', ¬ StoredByOther r.tenant p key'

-- ---------------------------------------------------------------------------
-- Namespaces
-- ---------------------------------------------------------------------------

section
variable {a b : TenantContext}

theorem extends_of_namespace_eq (hab : a ≠ b) (h : «namespace» a k = «namespace» b k') :
    Extends a b ∨ Extends b a := by
  have hid : a.tenantId.toList ≠ b.tenantId.toList := by
    intro he
    obtain ⟨a, ha⟩ := a
    obtain ⟨b, hb⟩ := b
    obtain rfl : a = b := String.toList_injective he
    exact hab rfl
  have hkey : a.tenantId.toList ++ '/' :: k.toList = b.tenantId.toList ++ '/' :: k'.toList := by
    simpa [«namespace»] using congrArg String.toList h
  have hslash : ∀ {x y rest : List Char}, x ≠ [] → '/' :: y = x ++ rest → ∃ x', x = '/' :: x' := by
    intro x y rest hx he
    cases x with
    | nil => exact absurd rfl hx
    | cons c x' =>
      cases he
      exact ⟨x', rfl⟩
  rcases List.append_eq_append_iff.mp hkey with ⟨more, hb, hrest⟩ | ⟨more, ha, hrest⟩
  · obtain ⟨rest, rfl⟩ := hslash (fun hm => hid (by simp [hb, hm])) hrest
    refine .inr ⟨.ofList rest, String.toList_injective ?_⟩
    simp [hb]
  · obtain ⟨rest, rfl⟩ := hslash (fun hm => hid (by simp [ha, hm])) hrest
    refine .inl ⟨.ofList rest, String.toList_injective ?_⟩
    simp [ha]

theorem namespace_of_extends (h : a.tenantId = b.tenantId ++ "/" ++ rest) (key : String) :
    «namespace» a key = «namespace» b (rest ++ "/" ++ key) := by
  simp [«namespace», h, String.append_assoc]

/-- Whether two tenants can ever use the same key of the store. -/
theorem namespaces_disjoint_iff (hab : a ≠ b) :
    (∀ k k', «namespace» a k ≠ «namespace» b k') ↔ ¬ Extends a b ∧ ¬ Extends b a := by
  constructor
  · intro h
    refine ⟨?_, ?_⟩
    · rintro ⟨rest, he⟩
      exact h "k" _ (namespace_of_extends he "k")
    · rintro ⟨rest, he⟩
      exact h _ "k" (namespace_of_extends he "k").symm
  · rintro ⟨hab', hba'⟩ k k' h
    rcases extends_of_namespace_eq hab h with he | he
    · exact hab' he
    · exact hba' he

end

-- ---------------------------------------------------------------------------
-- Requests
-- ---------------------------------------------------------------------------

section
variable {tenant : TenantContext} {reqs before : List Request} {r : Request} {key : String}

theorem Request.storeCall_cases (r : Request) :
    (∃ value, r.storeCall = .put r.key value) ∨ r.storeCall = .get r.key ∨
      r.storeCall = .exists r.key ∨ r.storeCall = .delete r.key := by
  obtain ⟨t, call⟩ := r
  cases call with
  | put key value => exact .inl ⟨value, rfl⟩
  | get key => exact .inr (.inl rfl)
  | «exists» key => exact .inr (.inr (.inl rfl))
  | delete key => exact .inr (.inr (.inr rfl))

theorem storedByOther_snoc : StoredByOther tenant (before ++ [r]) key ↔
    (r.tenant ≠ tenant ∧ ∃ value, r.storeCall = .put key value) ∨
      (StoredByOther tenant before key ∧ r.storeCall ≠ .delete key) := by
  constructor
  · rintro ⟨p, r', q, value, heq, ht, hput, hq⟩
    rcases List.eq_nil_or_concat q with rfl | ⟨q, r'', rfl⟩
    · obtain ⟨-, hr⟩ := List.append_inj' heq rfl
      cases hr
      exact .inl ⟨ht, value, hput⟩
    · rw [List.concat_eq_append, ← List.cons_append, ← List.append_assoc] at heq
      obtain ⟨hp, hr⟩ := List.append_inj' heq rfl
      cases hr
      refine .inr ⟨⟨p, r', q, value, hp, ht, hput, ?_⟩, hq r (by simp)⟩
      intro r'' hr''
      exact hq r'' (by simp [hr''])
  · rintro (⟨ht, value, hput⟩ | ⟨⟨p, r', q, value, rfl, ht, hput, hq⟩, hdel⟩)
    · exact ⟨before, r, [], value, rfl, ht, hput, by simp⟩
    · refine ⟨p, r', q ++ [r], value, by simp, ht, hput, ?_⟩
      intro r'' hr''
      rcases List.mem_append.mp hr'' with hr'' | hr''
      · exact hq r'' hr''
      · rw [List.mem_singleton.mp hr'']
        exact hdel

/-- The keys that `tenant` uses. -/
def ownKeys (tenant : TenantContext) (reqs : List Request) : List String :=
  (reqs.filter fun r => r.tenant = tenant).map Request.key

theorem key_mem_ownKeys (hr : r ∈ reqs) : r.key ∈ ownKeys r.tenant reqs :=
  List.mem_map_of_mem (List.mem_filter.mpr ⟨hr, decide_eq_true rfl⟩)

theorem key_not_mem_ownKeys (hapart : KeysApart reqs) (hr : r ∈ reqs) (ht : r.tenant ≠ tenant) :
    r.key ∉ ownKeys tenant reqs := by
  intro hm
  obtain ⟨r', hr', heq⟩ := List.mem_map.mp hm
  obtain ⟨hr', ht'⟩ := List.mem_filter.mp hr'
  have ht' : r'.tenant = tenant := of_decide_eq_true ht'
  exact hapart r hr r' hr' (ht' ▸ ht) heq.symm

/-- How the store of the run looks beside the store of a run of `tenant` alone. -/
structure Seen (tenant : TenantContext) (reqs before : List Request)
    (s s' : InMemoryObjectStore) : Prop where
  own : s'.store = s.store.restrict (· ∈ ownKeys tenant reqs)
  other : ∀ key, key ∉ ownKeys tenant reqs → (key ∈ s.store.keys ↔ StoredByOther tenant before key)
  apart : ∀ key, StoredByOther tenant before key → key ∉ ownKeys tenant reqs

section
variable {s s' : InMemoryObjectStore}

theorem Seen.length_eq_iff (h : Seen tenant reqs before s s') (hkey : key ∈ ownKeys tenant reqs) :
    (s.store.insert key value).keys.length = (s'.store.insert key value).keys.length ↔
      ∀ key', ¬ StoredByOther tenant before key' := by
  have hown : s'.store.insert key value =
      (s.store.insert key value).restrict (· ∈ ownKeys tenant reqs) := by
    rw [h.own, Dict.restrict_insert, if_pos (decide_eq_true hkey)]
  rw [hown, Dict.keys_restrict, eq_comm, List.length_filter_eq_length_iff]
  constructor
  · intro hall key' hstored
    have hkey' := (h.other key' (h.apart key' hstored)).mpr hstored
    exact h.apart key' hstored (of_decide_eq_true (hall key' (Dict.mem_keys_insert.mpr (.inr hkey'))))
  · intro hnone key' hkey'
    apply decide_eq_true
    by_contra hout
    rcases Dict.mem_keys_insert.mp hkey' with rfl | hkey'
    · exact hout hkey
    · exact hnone key' ((h.other key' hout).mp hkey')

/-- A call of `tenant` is answered as when it is alone, but that `put` tells
whether somebody else has an object in the store. -/
theorem Seen.reply_iff (h : Seen tenant reqs before s s') (hkey : r.key ∈ ownKeys tenant reqs) :
    (serve s r).1 = (serve s' r).1 ↔
      ∀ key value, r.storeCall = .put key value → ∀ key', ¬ StoredByOther tenant before key' := by
  have hget : s'.store.get? r.key = s.store.get? r.key := by
    rw [h.own, Dict.get?_restrict, if_pos (decide_eq_true hkey)]
  obtain ⟨value, hc⟩ | hc | hc | hc := r.storeCall_cases
  · have hlength : (s.store.insert r.key value).keys.length =
        (s'.store.insert r.key value).keys.length ↔ ∀ key', ¬ StoredByOther tenant before key' :=
      h.length_eq_iff hkey
    simp only [serve, hc, InMemoryObjectStore.step, InMemoryObjectStore.put, Reply.str.injEq,
      Py.append_toString_inj, hlength]
    constructor
    · intro hnone _ _ _
      exact hnone
    · intro hnone
      exact hnone _ _ rfl
  · simp only [serve, hc, InMemoryObjectStore.step, InMemoryObjectStore.get, hget]
    cases s.store.get? r.key <;> simp
  · have hmem : r.key ∈ s'.store.keys ↔ r.key ∈ s.store.keys := by
      rw [← Dict.isSome_get?_iff, hget, Dict.isSome_get?_iff]
    simp [serve, hc, InMemoryObjectStore.step, InMemoryObjectStore.exists, Dict.contains, hmem]
  · simp [serve, hc, InMemoryObjectStore.step]

theorem Seen.own_step (h : Seen tenant reqs before s s') (ht : r.tenant = tenant)
    (hkey : r.key ∈ ownKeys tenant reqs) :
    Seen tenant reqs (before ++ [r]) (serve s r).2 (serve s' r).2 := by
  have hne : ∀ key, key ∉ ownKeys tenant reqs → key ≠ r.key := by
    rintro key hout rfl
    exact hout hkey
  refine ⟨?_, ?_, ?_⟩
  · simp only [serve, InMemoryObjectStore.store_step, h.own]
    obtain ⟨value, hc⟩ | hc | hc | hc := r.storeCall_cases <;>
      simp [hc, Call.effect, Dict.restrict_insert, Dict.restrict_erase, hkey]
  · intro key hout
    rw [serve, InMemoryObjectStore.store_step, storedByOther_snoc, ← h.other key hout]
    have hne := hne key hout
    obtain ⟨value, hc⟩ | hc | hc | hc := r.storeCall_cases <;>
      simp [hc, ht, Call.effect, Dict.mem_keys_insert, Dict.mem_keys_erase, hne, hne.symm]
  · intro key hs
    rcases storedByOther_snoc.mp hs with ⟨hother, -⟩ | ⟨hs, -⟩
    · exact absurd ht hother
    · exact h.apart key hs

theorem Seen.other_step (h : Seen tenant reqs before s s') (ht : r.tenant ≠ tenant)
    (hkey : r.key ∉ ownKeys tenant reqs) : Seen tenant reqs (before ++ [r]) (serve s r).2 s' := by
  have hgone : r.key ∉ (s.store.restrict (· ∈ ownKeys tenant reqs)).keys := by
    simp [Dict.keys_restrict, hkey]
  refine ⟨?_, ?_, ?_⟩
  · rw [serve, InMemoryObjectStore.store_step, h.own]
    obtain ⟨value, hc⟩ | hc | hc | hc := r.storeCall_cases <;>
      simp [hc, Call.effect, Dict.restrict_insert, Dict.restrict_erase, hkey, Dict.erase_of_not_mem hgone]
  · intro key hout
    rw [serve, InMemoryObjectStore.store_step, storedByOther_snoc, ← h.other key hout]
    obtain ⟨value, hc⟩ | hc | hc | hc := r.storeCall_cases <;>
      simp [hc, ht, Call.effect, Dict.mem_keys_insert, Dict.mem_keys_erase, eq_comm, and_comm]
  · intro key hs
    rcases storedByOther_snoc.mp hs with ⟨-, value, hput⟩ | ⟨hs, -⟩
    · obtain ⟨_, hc⟩ | hc | hc | hc := r.storeCall_cases
      · cases hc.symm.trans hput
        exact hkey
      all_goals cases hc.symm.trans hput
    · exact h.apart key hs

end

/-- What `tenant` sees of calls whose keys do not meet. -/
theorem seesOnlyItself_iff (hapart : KeysApart reqs) (tenant : TenantContext) :
    SeesOnlyItself tenant reqs ↔ ∀ p r q, reqs = p ++ r :: q → r.tenant = tenant →
      ∀ key value, r.storeCall = .put key value → ∀ key', ¬ StoredByOther tenant p key' := by
  have h : observed serve (fun r => decide (r.tenant = tenant)) {} reqs =
      outputs serve {} (reqs.filter fun r => decide (r.tenant = tenant)) ↔
      Along (fun before r => decide (r.tenant = tenant) = true → ∀ key value,
        r.storeCall = .put key value → ∀ key', ¬ StoredByOther tenant before key') [] reqs := by
    refine observed_eq_iff (P := (· ∈ reqs)) (R := Seen tenant reqs) ?_ ?_ ?_ (fun _ hr => hr)
    · intro before r s s' hr ht hseen
      obtain rfl : r.tenant = tenant := of_decide_eq_true ht
      exact ⟨hseen.reply_iff (key_mem_ownKeys hr), hseen.own_step rfl (key_mem_ownKeys hr)⟩
    · intro before r s s' hr ht hseen
      have ht : r.tenant ≠ tenant := of_decide_eq_false ht
      exact hseen.other_step ht (key_not_mem_ownKeys hapart hr ht)
    · refine ⟨rfl, ?_, ?_⟩
      · intro key _
        simp [StoredByOther, Dict.keys]
      · intro key hs
        simp [StoredByOther] at hs
  rw [SeesOnlyItself, h, along_iff]
  simp

end

-- ---------------------------------------------------------------------------
-- Two tenants
-- ---------------------------------------------------------------------------

section
variable {a b : TenantContext} {reqs : List Request}

def Between (a b : TenantContext) (reqs : List Request) : Prop :=
  ∀ r ∈ reqs, r.tenant = a ∨ r.tenant = b

theorem keysApart_of_disjoint (hreqs : Between a b reqs)
    (h : a ≠ b → ∀ k k', «namespace» a k ≠ «namespace» b k') : KeysApart reqs := by
  rintro r hr r' hr' hne
  rcases hreqs r hr with ha | hb <;> rcases hreqs r' hr' with ha' | hb'
  · exact absurd (ha.trans ha'.symm) hne
  · rw [Request.key, Request.key, ha, hb']
    exact h (by rwa [ha, hb'] at hne) _ _
  · rw [Request.key, Request.key, hb, ha']
    exact (h (by rw [hb, ha'] at hne; exact hne.symm) _ _).symm
  · exact absurd (hb.trans hb'.symm) hne

theorem between_see_iff (hreqs : Between a b reqs) (hapart : KeysApart reqs) :
    SeesOnlyItself a reqs ∧ SeesOnlyItself b reqs ↔ PutsAlone reqs := by
  rw [seesOnlyItself_iff hapart, seesOnlyItself_iff hapart]
  constructor
  · rintro ⟨ha, hb⟩ p r q key value heq hput
    rcases hreqs r (by simp [heq]) with ht | ht
    · rw [ht]
      exact ha p r q heq ht key value hput
    · rw [ht]
      exact hb p r q heq ht key value hput
  · intro h
    refine ⟨?_, ?_⟩ <;>
    · rintro p r q heq rfl key value hput
      exact h p r q key value heq hput

/-- `a` puts an object and `b` reads it, under a key of its own choice. -/
def crossing (a b : TenantContext) (rest : String) : List Request :=
  [⟨a, .put "k" []⟩, ⟨b, .get (rest ++ "/" ++ "k")⟩]

theorem crossing_putsAlone : PutsAlone (crossing a b rest) := by
  rintro p r q key value heq hput key' ⟨p', r', q', _, rfl, -⟩
  -- a put that comes after another request would be the second of the two
  have hlen := congrArg List.length heq
  simp only [crossing, List.length_append, List.length_cons, List.length_nil] at hlen
  obtain ⟨rfl, rfl, rfl⟩ : p' = [] ∧ q' = [] ∧ q = [] := by
    refine ⟨List.eq_nil_of_length_eq_zero ?_, List.eq_nil_of_length_eq_zero ?_,
      List.eq_nil_of_length_eq_zero ?_⟩ <;> omega
  cases heq
  cases hput

theorem crossing_seen (hab : a ≠ b) (h : a.tenantId = b.tenantId ++ "/" ++ rest) :
    ¬ SeesOnlyItself b (crossing a b rest) := by
  have hkey := namespace_of_extends h "k"
  simp [SeesOnlyItself, crossing, observed, outputs, hab, serve, Request.storeCall, Request.key,
    TenantCall.key, InMemoryObjectStore.step, InMemoryObjectStore.put, InMemoryObjectStore.get, hkey]

theorem noninterference_iff (a b : TenantContext) (hab : a ≠ b) :
    (∀ reqs, Between a b reqs → KeysApart reqs →
      (SeesOnlyItself a reqs ∧ SeesOnlyItself b reqs ↔ PutsAlone reqs)) ∧
    ((∀ reqs, Between a b reqs → PutsAlone reqs → SeesOnlyItself a reqs ∧ SeesOnlyItself b reqs) ↔
      ¬ Extends a b ∧ ¬ Extends b a) := by
  refine ⟨fun reqs => between_see_iff, ?_⟩
  constructor
  · intro h
    refine ⟨?_, ?_⟩
    · rintro ⟨rest, he⟩
      have hreqs : Between a b (crossing a b rest) := by simp [Between, crossing]
      exact crossing_seen hab he (h _ hreqs crossing_putsAlone).2
    · rintro ⟨rest, he⟩
      have hreqs : Between a b (crossing b a rest) := by simp [Between, crossing]
      exact crossing_seen hab.symm he (h _ hreqs crossing_putsAlone).1
  · intro h reqs hreqs hputs
    have hapart := keysApart_of_disjoint hreqs fun hab => (namespaces_disjoint_iff hab).mpr h
    exact (between_see_iff hreqs hapart).mpr hputs

end

def acme : TenantContext := ⟨"acme", by decide⟩

def acmeEu : TenantContext := ⟨"acme/eu", by decide⟩

theorem noninterference_acme :
    (∀ reqs, Between acme acmeEu reqs → KeysApart reqs →
      (SeesOnlyItself acme reqs ∧ SeesOnlyItself acmeEu reqs ↔ PutsAlone reqs)) ∧
    ((∀ reqs, Between acme acmeEu reqs → PutsAlone reqs →
        SeesOnlyItself acme reqs ∧ SeesOnlyItself acmeEu reqs) ↔
      ¬ Extends acme acmeEu ∧ ¬ Extends acmeEu acme) :=
  noninterference_iff acme acmeEu (by decide)

theorem acme_reads_acmeEu : ¬ ∀ (a b : TenantContext), a ≠ b → ∀ reqs, Between a b reqs →
    SeesOnlyItself a reqs ∧ SeesOnlyItself b reqs := by
  intro h
  have hreqs : Between acme acmeEu (crossing acmeEu acme "eu") := by simp [Between, crossing]
  exact crossing_seen (by decide) (by rfl) (h acme acmeEu (by decide) _ hreqs).1

end Intelliqx.Tenant
