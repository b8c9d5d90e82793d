import Intelliqx.State.Expiry

/-!
# Runs of the state store

A run whose calls are all harmless is answered as on the reference. After one
that is not, a few harmless calls tell the stores apart.
-/

namespace Intelliqx.State

open InMemoryStateStore Mealy

def NonDecreasing (calls : List Call) : Prop := calls.Pairwise fun c d => c.time ≤ d.time

def HarmlessCall (s : InMemoryStateStore) (c : Call) : Prop := Harmless s c.time c.op

-- ---------------------------------------------------------------------------
-- Harmless runs
-- ---------------------------------------------------------------------------

section
variable {s r : InMemoryStateStore} {now : ℚ} {calls : List Call}

theorem sync_initial : Sync now {} {} := by
  refine ⟨fun _ => rfl, rfl, ?_⟩
  intro k _
  rfl

theorem outputs_eq_of_harmless (hs : Sync now s r) (hnow : ∀ c ∈ calls, now ≤ c.time)
    (hcalls : NonDecreasing calls) (h : Throughout call HarmlessCall s calls) :
    outputs call s calls = outputs referenceCall r calls := by
  induction calls generalizing now s r with
  | nil => rfl
  | cons c calls ih =>
    obtain ⟨hc, hrest⟩ := h
    obtain ⟨hle, hcalls⟩ := List.pairwise_cons.mp hcalls
    obtain ⟨hreply, hsync⟩ := (hs.later (hnow c (by simp))).call hc
    have hrest := ih hsync hle hcalls hrest
    exact List.cons_eq_cons.mpr ⟨hreply, hrest⟩

end

-- ---------------------------------------------------------------------------
-- Runs on one key
-- ---------------------------------------------------------------------------

namespace Slot

def call (x : Slot) (c : Call) : Reply × Slot := act c.time c.op x

def referenceCall (x : Slot) (c : Call) : Reply × Slot := referenceAct c.time c.op x

end Slot

section
variable {s r : InMemoryStateStore} {key : String} {calls : List Call}

theorem outputs_slot (h : ∀ c ∈ calls, c.op.key? = some key) :
    outputs call s calls = outputs Slot.call (slot s key) calls := by
  induction calls generalizing s with
  | nil => rfl
  | cons c calls ih =>
    have hkey := h c (by simp)
    have hslot : slot (s.call c).2 key = ((slot s key).call c).2 := by
      rw [InMemoryStateStore.call, slot_step hkey, if_pos rfl]
      rfl
    rw [outputs_cons, outputs_cons, ih (fun d hd => h d (List.mem_cons_of_mem _ hd)), hslot]
    exact congrArg (· :: _) (reply_step hkey)

theorem outputs_slot_reference (h : ∀ c ∈ calls, c.op.key? = some key) :
    outputs referenceCall r calls = outputs Slot.referenceCall (slot r key) calls := by
  induction calls generalizing r with
  | nil => rfl
  | cons c calls ih =>
    have hkey := h c (by simp)
    have hslot : slot (r.referenceCall c).2 key = ((slot r key).referenceCall c).2 := by
      have hstep : slot (r.referenceCall c).2 key = if key = key then
          (Slot.referenceAct c.time c.op (slot r key)).2 else (slot r key).purge c.time :=
        slot_referenceCall hkey
      rwa [if_pos rfl] at hstep
    rw [outputs_cons, outputs_cons, ih (fun d hd => h d (List.mem_cons_of_mem _ hd)), hslot]
    exact congrArg (· :: _) (reply_referenceCall hkey)

end

-- ---------------------------------------------------------------------------
-- Telling the stores apart
-- ---------------------------------------------------------------------------

/-- Calls on `key` that come at `now` or later and are harmless after `x`. -/
structure Probe (key : String) (now : ℚ) (x : Slot) (rest : List Call) : Prop where
  key : ∀ c ∈ rest, c.op.key? = some key
  readOnly : ∀ c ∈ rest, ∀ k value ttl, c.op ≠ .set k value ttl
  later : ∀ c ∈ rest, now ≤ c.time
  sorted : NonDecreasing rest
  harmless : Throughout Slot.call (fun x c => x.Harmless c.time c.op) x rest

section
variable {x : Slot} {now : ℚ} {key : String} {op : Op}

theorem Probe.nil : Probe key now x [] := ⟨by simp, by simp, by simp, .nil, trivial⟩

theorem Probe.cons {c : Call} {rest : List Call} (hkey : c.op.key? = some key)
    (hset : ∀ k value ttl, c.op ≠ .set k value ttl) (hnow : now ≤ c.time)
    (h : x.Harmless c.time c.op) (hrest : Probe key c.time (x.call c).2 rest) :
    Probe key now x (c :: rest) where
  key := List.forall_mem_cons.mpr ⟨hkey, hrest.key⟩
  readOnly := List.forall_mem_cons.mpr ⟨hset, hrest.readOnly⟩
  later := List.forall_mem_cons.mpr ⟨hnow, fun d hd => le_trans hnow (hrest.later d hd)⟩
  sorted := List.pairwise_cons.mpr ⟨hrest.later, hrest.sorted⟩
  harmless := ⟨h, hrest.harmless⟩

end

namespace Slot

variable {x : Slot} {now : ℚ} {key : String} {op : Op}

theorem not_stale_of_deadline (hd : x.deadline = some d) (h : now < d) : x.stale now = false := by
  rw [stale, hd]
  exact decide_eq_false (not_le.mpr h)

theorem not_stale_of_ttl {ttl : Option Int} (h : ¬ ∃ t, ttl = some t ∧ t ≤ 0)
    (hd : x.deadline = ttl.map fun t => now + t) : x.stale now = false := by
  cases ttl with
  | none => simp [stale, hd]
  | some t =>
    have ht : (0 : ℚ) < t := by
      have hpos : 0 < t := Int.not_le.mp fun ht => h ⟨t, rfl, ht⟩
      exact_mod_cast hpos
    exact not_stale_of_deadline hd (lt_add_of_pos_right now ht)

/-- Some probe sees that the slot is not the reference's after the call. -/
def Diverges (key : String) (now : ℚ) (op : Op) (x : Slot) : Prop :=
  ∃ rest, Probe key now (act now op x).2 rest ∧
    outputs call x (⟨now, op⟩ :: rest) ≠ outputs referenceCall x (⟨now, op⟩ :: rest)

theorem diverges_set {value : Bytes} (hs : x.stale now = true)
    (hlasting : ¬ ∃ t, ttl = some t ∧ t ≤ 0) (hleft : ¬ (x.hash = .empty ∧ x.list = [])) :
    x.Diverges key now (.set key value ttl) := by
  have hx := purge_of_stale hs
  have hy := purge_of_not_stale (x := (act now (.set key value ttl) x).2)
    (not_stale_of_ttl hlasting rfl)
  have hr := purge_of_not_stale (x := (act now (.set key value ttl) gone).2)
    (not_stale_of_ttl hlasting rfl)
  by_cases hhash : x.hash = .empty
  · have hlist : x.list ≠ [] := fun hl => hleft ⟨hhash, hl⟩
    refine ⟨[⟨now, .rpop key⟩], .cons rfl (by simp) le_rfl ?_ .nil, ?_⟩
    · intro hstale
      cases (not_stale_of_ttl hlasting rfl).symm.trans hstale
    · intro heq
      simp only [outputs, call, referenceCall, referenceAct, hx, hr, List.cons.injEq, and_true] at heq
      obtain ⟨item, items, hl⟩ := List.exists_cons_of_ne_nil hlist
      simp [act, hl, gone] at heq
  · refine ⟨[⟨now, .hgetall key⟩], .cons rfl (by simp) le_rfl trivial .nil, ?_⟩
    intro heq
    simp only [outputs, call, referenceCall, referenceAct, hx, hr, List.cons.injEq, and_true] at heq
    have hfields : ((act now (.set key value ttl) x).2.purge now).hash =
        ((act now (.set key value ttl) gone).2.purge now).hash := Reply.fields.inj heq.2
    rw [hy, hr] at hfields
    exact hhash hfields

theorem diverges_incr (hs : x.stale now = true) : x.Diverges key now (.incr key amount) := by
  have hx := purge_of_stale hs
  refine ⟨[⟨now, .get key⟩], .cons rfl (by simp) le_rfl trivial .nil, ?_⟩
  intro heq
  simp only [outputs, call, referenceCall, referenceAct, hx, List.cons.injEq, and_true] at heq
  have hzero : parseInt (gone.value.getD [48]) = some 0 := by decide
  cases hp : parseInt (x.value.getD [48]) with
  | none => simp [act, hp, hzero] at heq
  | some cur =>
    have hy : (act now (.incr key amount) x).2.purge now = gone := by
      rw [act, hp]
      exact purge_of_stale hs
    have hr : ((act now (.incr key amount) gone).2.purge now).value =
        some (encodeInt (0 + amount)) := by
      rw [act, hzero]
      rfl
    have hvalue : ((act now (.incr key amount) x).2.purge now).value =
        ((act now (.incr key amount) gone).2.purge now).value := by
      simpa [act] using heq.2
    rw [hy, hr] at hvalue
    cases hvalue

theorem diverges_expire (hx : x.purge now = gone) (ht : ¬ ttl ≤ 0) :
    x.Diverges key now (.expire key ttl) := by
  have hpos : (0 : ℚ) < ttl := by exact_mod_cast Int.not_le.mp ht
  have hy : ({ x with deadline := some (now + ttl) } : Slot).purge now =
      { x with deadline := some (now + ttl) } :=
    purge_of_not_stale (not_stale_of_deadline rfl (lt_add_of_pos_right now hpos))
  -- the key made now is gone once the revived deadline has passed
  refine ⟨[⟨now, .hset key "f" "v"⟩, ⟨now + ttl, .hgetall key⟩],
    .cons rfl (by simp) le_rfl trivial (.cons rfl (by simp) ?_ trivial .nil), ?_⟩
  · exact le_add_of_nonneg_right hpos.le
  · intro heq
    simp only [outputs, call, referenceAct_expire_of_absent hx, referenceCall] at heq
    simp [act, referenceAct, hy] at heq
    rw [purge_of_stale (by simp [stale]), purge_of_not_stale (by rfl)] at heq
    cases congrArg Dict.entries heq

theorem diverges_lpush {value : String} (hs : x.stale now = true) :
    x.Diverges key now (.lpush key value) := by
  have hx := purge_of_stale hs
  have hy : (act now (.lpush key value) x).2.purge now = gone := purge_of_stale hs
  refine ⟨[⟨now, .hgetall key⟩, ⟨now, .rpop key⟩],
    .cons rfl (by simp) le_rfl trivial (.cons rfl (by simp) le_rfl ?_ .nil), ?_⟩
  · intro hstale
    rw [call, act, stale_purge] at hstale
    cases hstale
  · intro heq
    simp only [outputs, call, referenceCall, referenceAct, hx, List.cons.injEq, and_true] at heq
    have hr : (act now (.lpush key value) gone).2.purge now =
        { gone with list := [value], present := true } := by
      rfl
    have hlast := heq.2.2
    rw [hr, act, hy] at hlast
    cases hlast

theorem diverges_rpop (hs : x.stale now = true) (hlist : x.list ≠ []) :
    x.Diverges key now (.rpop key) := by
  refine ⟨[], .nil, ?_⟩
  intro heq
  simp only [outputs, call, referenceCall, referenceAct, purge_of_stale hs, List.cons.injEq, and_true] at heq
  obtain ⟨item, items, hl⟩ := List.exists_cons_of_ne_nil hlist
  simp [act, hl, gone] at heq

theorem diverges (hkey : op.key? = some key) (h : ¬ x.Harmless now op)
    (habsent : x.stale now = false → x.present = false → x = gone) : x.Diverges key now op := by
  cases op <;> cases hkey
  case set value ttl =>
    obtain ⟨hs, hne⟩ := Classical.not_imp.mp h
    obtain ⟨hlasting, hleft⟩ := not_or.mp hne
    exact diverges_set hs hlasting hleft
  case incr amount => exact diverges_incr (by simpa [Slot.Harmless] using h)
  case expire ttl =>
    obtain ⟨hs, ht⟩ := Classical.not_imp.mp h
    refine diverges_expire ?_ ht
    cases hstale : x.stale now with
    | true => exact purge_of_stale hstale
    | false =>
      rw [purge_of_not_stale hstale]
      exact habsent hstale (hs.resolve_left (by simp [hstale]))
  case lpush value => exact diverges_lpush (by simpa [Slot.Harmless] using h)
  case rpop =>
    obtain ⟨hs, hlist⟩ := Classical.not_imp.mp h
    exact diverges_rpop hs hlist
  all_goals exact absurd trivial h

end Slot

section
variable {s r : InMemoryStateStore} {now : ℚ} {calls : List Call} {op : Op}

/-- For every call but `set` the slot of its key says whether it is harmless. -/
theorem harmless_of_slot (hkey : op.key? = some key) (hset : ∀ k value ttl, op ≠ .set k value ttl)
    (h : (slot s key).Harmless now op) : Harmless s now op := by
  cases op <;> cases hkey
  case set value ttl => exact absurd rfl (hset _ _ _)
  all_goals exact h

theorem throughout_of_probe {key : String} {x : Slot} {rest : List Call} (h : Probe key now x rest)
    (hx : slot s key = x) : Throughout call HarmlessCall s rest := by
  induction rest generalizing now s x with
  | nil => trivial
  | cons c rest ih =>
    have hkey := h.key c (by simp)
    obtain ⟨hlater, hsorted⟩ := List.pairwise_cons.mp h.sorted
    have hrest : Probe key c.time (x.call c).2 rest :=
      ⟨fun d hd => h.key d (List.mem_cons_of_mem _ hd), fun d hd => h.readOnly d (List.mem_cons_of_mem _ hd),
        hlater, hsorted, h.harmless.2⟩
    have hslot : slot (s.call c).2 key = (x.call c).2 := by
      rw [InMemoryStateStore.call, slot_step hkey, if_pos rfl, hx]
      rfl
    exact ⟨harmless_of_slot hkey (h.readOnly c (by simp)) (hx ▸ h.harmless.1), ih hrest hslot⟩

theorem keys_all (s : InMemoryStateStore) (now : ℚ) : s.keys now "" = liveKeys s now := by
  rw [InMemoryStateStore.keys, ← liveKeys, List.filter_eq_self]
  intro k _
  simp

/-- Where the slot of its key does not make a `set` harmful, a live key behind does. -/
theorem exists_live_behind (h : ¬ Harmless s now (.set key value ttl))
    (hslot : (slot s key).Harmless now (.set key value ttl)) :
    s.expired now key = true ∧ (¬ ∃ t, ttl = some t ∧ t ≤ 0) ∧
      ∃ k ∈ behind key s.kv.keys, ¬ s.expired now k = true := by
  obtain ⟨hstale, hne⟩ := Classical.not_imp.mp h
  obtain ⟨hlasting, hleft⟩ := not_or.mp hne
  obtain ⟨hhash, hlist⟩ := (hslot hstale).resolve_left hlasting
  refine ⟨hstale, hlasting, ?_⟩
  by_contra hnone
  refine hleft ⟨hhash, hlist, ?_⟩
  intro k hk
  by_contra hlive
  exact hnone ⟨k, hk, hlive⟩

theorem mem_of_cons_eq_concat {keys : List String} (h : key :: keys = keys ++ [key]) (hne : keys ≠ []) :
    key ∈ keys := by
  cases keys with
  | nil => exact absurd rfl hne
  | cons k rest =>
    rw [List.cons_append, List.cons.injEq] at h
    rw [h.1]
    exact List.mem_cons_self

/-- Where only the order of the keys makes a `set` harmful, the order shows it. -/
theorem order_seen (hs : Sync now s r) (h : ¬ Harmless s now (.set key value ttl))
    (hslot : (slot s key).Harmless now (.set key value ttl)) :
    liveKeys (s.step now (.set key value ttl)).2 now ≠
      liveKeys (r.referenceCall ⟨now, .set key value ttl⟩).2 now := by
  obtain ⟨hstale, hlasting, k, hk, hlive⟩ := exists_live_behind h hslot
  have hnodup : s.kv.keys.Nodup := s.kv.nodup
  obtain ⟨before, heq, hplace⟩ := place_revived (fun k => decide ¬ s.expired now k = true)
    hnodup (mem_of_behind hk) (by simpa using hstale)
  intro hsame
  rw [liveKeys_step rfl, liveKeys_referenceCall rfl, ← hs.order] at hsame
  have hy : (Slot.act now (.set key value ttl) (slot s key)).2.stale now = false :=
    Slot.not_stale_of_ttl hlasting rfl
  have hr : (Slot.referenceAct now (.set key value ttl) (slot r key)).2.stale now = false :=
    Slot.not_stale_of_ttl hlasting rfl
  have hgone : key ∉ liveKeys s now := by simp [liveKeys, hstale]
  have hplace' : (place key true (liveKeys s now)).filter (fun k => if k = key then true else true) =
      liveKeys s now ++ [key] := by
    simp [place, hgone]
  simp only [hy, hr, Bool.not_false] at hsame
  have hsame := (hplace.symm.trans hsame).trans hplace'
  rw [liveKeys, heq, List.append_assoc, List.append_cancel_left_eq] at hsame
  -- the live keys behind are now listed after `key` in one store and before it in the other
  have hsome : k ∈ (behind key s.kv.keys).filter fun k => decide ¬ s.expired now k = true :=
    List.mem_filter.mpr ⟨hk, by simpa using hlive⟩
  have hkey := mem_of_cons_eq_concat hsame (List.ne_nil_of_mem hsome)
  simp [hstale] at hkey

/-- A probe after a call that is not harmless. -/
theorem harmful_seen (hs : Sync now s r) (h : ¬ Harmless s now op) :
    ∃ rest, (∀ c ∈ rest, now ≤ c.time) ∧ NonDecreasing rest ∧
      Throughout call HarmlessCall (s.step now op).2 rest ∧
      outputs call s (⟨now, op⟩ :: rest) ≠ outputs referenceCall r (⟨now, op⟩ :: rest) := by
  cases hkey : op.key? with
  | none =>
    cases op
    case keys pre => exact absurd trivial h
    all_goals cases hkey
  | some key =>
    by_cases hslot : (slot s key).Harmless now op
    · obtain ⟨key', value, ttl, rfl⟩ : ∃ key' value ttl, op = .set key' value ttl := by
        by_contra hset
        refine h (harmless_of_slot hkey ?_ hslot)
        intro k value ttl he
        exact hset ⟨k, value, ttl, he⟩
      cases hkey
      refine ⟨[⟨now, .keys ""⟩], by simp, List.pairwise_singleton .., ⟨trivial, trivial⟩, ?_⟩
      intro heq
      have hkeys : Reply.keys ((s.step now (.set key value ttl)).2.keys now "") =
          Reply.keys (((r.referenceCall ⟨now, .set key value ttl⟩).2.purgeAll now).keys now "") := by
        simpa [outputs, call, referenceCall, step] using heq
      rw [keys_all, keys_all, liveKeys_of_purgeAll] at hkeys
      exact order_seen hs h hslot (Reply.keys.inj hkeys)
    · obtain ⟨rest, hprobe, hne⟩ := Slot.diverges hkey hslot hs.absent
      have hkeys : ∀ c ∈ (⟨now, op⟩ :: rest : List Call), c.op.key? = some key :=
        List.forall_mem_cons.mpr ⟨hkey, hprobe.key⟩
      have hslot' : slot (s.step now op).2 key = (Slot.act now op (slot s key)).2 := by
        rw [slot_step hkey, if_pos rfl]
      refine ⟨rest, hprobe.later, hprobe.sorted, throughout_of_probe hprobe hslot', ?_⟩
      rw [outputs_slot hkeys, outputs_slot_reference hkeys]
      have hfirst : (slot r key).referenceCall ⟨now, op⟩ = (slot s key).referenceCall ⟨now, op⟩ :=
        (Slot.referenceAct_congr (hs.slots key)).symm
      rwa [outputs_cons (s := slot r key), hfirst, ← outputs_cons]

/-- Runs that agree with the reference whatever harmless calls come next are
made of harmless calls. -/
theorem throughout_of_agree (hs : Sync now s r) (hnow : ∀ c ∈ calls, now ≤ c.time)
    (hcalls : NonDecreasing calls)
    (h : ∀ p rest, p <+: calls → (∀ c ∈ p ++ rest, now ≤ c.time) → NonDecreasing (p ++ rest) →
      Throughout call HarmlessCall (final call s p) rest →
      outputs call s (p ++ rest) = outputs referenceCall r (p ++ rest)) :
    Throughout call HarmlessCall s calls := by
  induction calls generalizing now s r with
  | nil => trivial
  | cons c calls ih =>
    have hle := hnow c (by simp)
    obtain ⟨hlater, hcalls⟩ := List.pairwise_cons.mp hcalls
    have hs := hs.later hle
    have hc : HarmlessCall s c := by
      by_contra hharm
      obtain ⟨rest, htime, hsorted, hrest, hne⟩ := harmful_seen hs hharm
      refine hne (h [c] rest ?_ ?_ ?_ hrest)
      · exact List.prefix_append [c] calls
      · exact List.forall_mem_cons.mpr ⟨hle, fun d hd => le_trans hle (htime d hd)⟩
      · exact List.pairwise_cons.mpr ⟨htime, hsorted⟩
    refine ⟨hc, ih (hs.call hc).2 hlater hcalls ?_⟩
    intro p rest hp htime hsorted hrest
    have houtputs := h (c :: p) rest (List.cons_prefix_cons.mpr ⟨rfl, hp⟩) ?_ ?_ hrest
    · exact (List.cons_eq_cons.mp houtputs).2
    · exact List.forall_mem_cons.mpr ⟨hle, fun d hd => le_trans hle (htime d hd)⟩
    · exact List.pairwise_cons.mpr ⟨htime, hsorted⟩

theorem exists_start (h : NonDecreasing calls) : ∃ now, ∀ c ∈ calls, now ≤ c.time := by
  cases calls with
  | nil => exact ⟨0, by simp⟩
  | cons c calls =>
    exact ⟨c.time, List.forall_mem_cons.mpr ⟨le_rfl, (List.pairwise_cons.mp h).1⟩⟩

theorem expired_absent_iff (hcalls : NonDecreasing calls) :
    Throughout call HarmlessCall {} calls ↔
      ∀ p rest, p <+: calls → NonDecreasing (p ++ rest) →
        Throughout call HarmlessCall (final call {} p) rest →
        outputs call {} (p ++ rest) = outputs referenceCall {} (p ++ rest) := by
  constructor
  · rintro h p rest ⟨q, rfl⟩ hsorted hrest
    obtain ⟨now, hnow⟩ := exists_start hsorted
    have hall := throughout_append.mpr ⟨(throughout_append.mp h).1, hrest⟩
    exact outputs_eq_of_harmless sync_initial hnow hsorted hall
  · intro h
    obtain ⟨now, hnow⟩ := exists_start hcalls
    refine throughout_of_agree sync_initial hnow hcalls ?_
    intro p rest hp _ hsorted hrest
    exact h p rest hp hsorted hrest

end

/-- A counter that is incremented after its deadline counts on from its old value. -/
def staleCounter : List Call :=
  [⟨0, .set "c" [53] (some 1)⟩, ⟨2, .incr "c" 1⟩]

theorem staleCounter_sorted : NonDecreasing staleCounter := List.pairwise_pair.mpr (by decide)

theorem expired_absent_staleCounter :
    Throughout call HarmlessCall {} staleCounter ↔
      ∀ p rest, p <+: staleCounter → NonDecreasing (p ++ rest) →
        Throughout call HarmlessCall (final call {} p) rest →
        outputs call {} (p ++ rest) = outputs referenceCall {} (p ++ rest) :=
  expired_absent_iff staleCounter_sorted

theorem stale_counter_read : ¬ ∀ calls, NonDecreasing calls →
    outputs call {} calls = outputs referenceCall {} calls := by
  intro h
  have heq := h staleCounter staleCounter_sorted
  have hstore : outputs call {} staleCounter = [.none, .int 6] := by decide +kernel
  have hreference : outputs referenceCall {} staleCounter = [.none, .int 1] := by decide +kernel
  rw [hstore, hreference] at heq
  simp at heq

end Intelliqx.State
