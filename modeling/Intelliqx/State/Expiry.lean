import Intelliqx.State.Slots
import Mathlib.Data.List.TakeWhile

/-!
# Expired keys

`InMemoryStateStore` against the reference. Of the calls that write, only
`hset` and `delete` drop what an expired key left behind; `Harmless` says when
the others do as if they did, and `expired_absent_iff` that this is exactly
what keeps the two stores in step.
-/

namespace Intelliqx.State

open InMemoryStateStore Mealy

def behind (key : String) (keys : List String) : List String := (keys.dropWhile (· ≠ key)).tail

/-- The call does about an expired key what it does about an absent one. -/
def Harmless (s : InMemoryStateStore) (now : ℚ) : Op → Prop
  | .set key _ ttl => s.expired now key = true →
    (∃ t, ttl = some t ∧ t ≤ 0) ∨
      ((s.hashes.get? key).getD .empty = .empty ∧ (s.lists.get? key).getD [] = [] ∧
        ∀ k ∈ behind key s.kv.keys, s.expired now k = true)
  | .incr key _ | .lpush key _ => s.expired now key = false
  | .rpop key => s.expired now key = true → (s.lists.get? key).getD [] = []
  | .expire key ttl => s.expired now key = true ∨ s.present key = false → ttl ≤ 0
  | _ => True

-- ---------------------------------------------------------------------------
-- One slot
-- ---------------------------------------------------------------------------

namespace Slot

variable {x y : Slot} {now later : ℚ} {op : Op}

theorem stale_later (hle : now ≤ later) (h : x.stale now = true) : x.stale later = true := by
  obtain ⟨value, hash, list, deadline, present⟩ := x
  cases deadline with
  | none => cases h
  | some exp => exact decide_eq_true (le_trans (of_decide_eq_true h) hle)

theorem purge_later (hle : now ≤ later) : (x.purge now).purge later = x.purge later := by
  cases h : x.stale now with
  | true => rw [purge_of_stale h, purge_gone, purge_of_stale (stale_later hle h)]
  | false => rw [purge_of_not_stale h]

@[simp] theorem purge_purge : (x.purge now).purge now = x.purge now := purge_later le_rfl

theorem stale_purge : (x.purge now).stale now = false := by
  cases h : x.stale now with
  | true => rw [purge_of_stale h, stale_gone]
  | false => rwa [purge_of_not_stale h]

theorem referenceAct_congr (h : x.purge now = y.purge now) :
    referenceAct now op x = referenceAct now op y := by
  cases op <;> simp only [referenceAct, h]

/-- `Harmless` as the slot of the key sees it. -/
def Harmless (now : ℚ) (x : Slot) : Op → Prop
  | .set _ _ ttl => x.stale now = true →
    (∃ t, ttl = some t ∧ t ≤ 0) ∨ (x.hash = .empty ∧ x.list = [])
  | .incr _ _ | .lpush _ _ => x.stale now = false
  | .rpop _ => x.stale now = true → x.list = []
  | .expire _ ttl => x.stale now = true ∨ x.present = false → ttl ≤ 0
  | _ => True

theorem stale_of_deadline {t : Int} (ht : t ≤ 0) (hd : x.deadline = some (now + t)) :
    x.stale now = true := by
  have hle : (t : ℚ) ≤ 0 := by exact_mod_cast ht
  simp only [stale, hd, decide_eq_true_eq]
  exact add_le_of_nonpos_right hle

theorem referenceAct_expire_of_absent {ttl : Int} (h : x.purge now = gone) :
    referenceAct now (.expire key ttl) x = (.none, gone) := by
  simp only [referenceAct, h]
  rfl

/-- Where a call is harmless it answers as on the reference and leaves what
looks the same. -/
theorem act_agree (h : x.Harmless now op)
    (habsent : x.stale now = false → x.present = false → x = gone) :
    (act now op x).1 = (referenceAct now op x).1 ∧
      (act now op x).2.purge now = (referenceAct now op x).2.purge now := by
  cases hs : x.stale now with
  | false =>
    have hx := purge_of_not_stale hs
    cases op
    case expire key ttl =>
      cases hp : x.present with
      | true => simp [referenceAct, hx, hp]
      | false =>
        have hstale : (act now (.expire key ttl) x).2.stale now = true :=
          stale_of_deadline (h (.inr hp)) rfl
        rw [purge_of_stale hstale, referenceAct_expire_of_absent (hx.trans (habsent hs hp))]
        exact ⟨rfl, rfl⟩
    all_goals simp only [referenceAct, hx, and_self]
  | true =>
    have hx := purge_of_stale hs
    cases op
    case set key value ttl =>
      simp only [referenceAct, hx]
      refine ⟨rfl, ?_⟩
      rcases h hs with ⟨t, rfl, ht⟩ | ⟨hhash, hlist⟩
      · -- both are expired again at once
        rw [purge_of_stale (stale_of_deadline ht rfl), purge_of_stale (stale_of_deadline ht rfl)]
      · simp only [act, hhash, hlist]
        rfl
    case incr => cases h.symm.trans hs
    case lpush => cases h.symm.trans hs
    case rpop key =>
      simp only [referenceAct, act, hx, h hs]
      exact ⟨rfl, rfl⟩
    case expire key ttl =>
      have hstale : (act now (.expire key ttl) x).2.stale now = true :=
        stale_of_deadline (h (.inl hs)) rfl
      rw [purge_of_stale hstale, referenceAct_expire_of_absent hx]
      exact ⟨rfl, rfl⟩
    all_goals simp only [referenceAct, act, hx, purge_gone, and_self]

/-- Of an expired key only `set` makes a value that is there to stay. -/
theorem act_revives (hs : x.stale now = true) (h : x.Harmless now op)
    (hv : ((act now op x).2.purge now).value.isSome = true) :
    ∃ key value ttl, op = .set key value ttl ∧ ¬ ∃ t, ttl = some t ∧ t ≤ 0 := by
  have hx := purge_of_stale hs
  cases op
  case set key value ttl =>
    refine ⟨key, value, ttl, rfl, ?_⟩
    rintro ⟨t, rfl, ht⟩
    rw [purge_of_stale (stale_of_deadline ht rfl)] at hv
    cases hv
  case incr => cases h.symm.trans hs
  case lpush => cases h.symm.trans hs
  case rpop key =>
    simp only [act, h hs, hx] at hv
    cases hv
  case expire key ttl =>
    rw [purge_of_stale (stale_of_deadline (h (.inl hs)) rfl)] at hv
    cases hv
  all_goals
    simp only [act, hx, purge_gone] at hv
    cases hv

theorem value_purge : (x.purge now).value.isSome = (x.value.isSome && !x.stale now) := by
  cases hs : x.stale now with
  | true => simp [purge_of_stale hs, gone]
  | false => simp [purge_of_not_stale hs]

/-- The reference never keeps a deadline for a key that is not there. -/
def Dated (x : Slot) : Prop := x.present = false → x.deadline = none

theorem Dated.purge (h : x.Dated) : (x.purge now).Dated := by
  cases hs : x.stale now with
  | true =>
    rw [purge_of_stale hs]
    exact fun _ => rfl
  | false => rwa [purge_of_not_stale hs]

theorem Dated.referenceAct (h : x.Dated) : (referenceAct now op x).2.Dated := by
  have hx : (x.purge now).Dated := h.purge
  cases op
  case expire key ttl =>
    simp only [Slot.referenceAct]
    split
    · rename_i hp
      intro hp'
      cases hp.symm.trans hp'
    · exact hx
  case incr key amount =>
    simp only [Slot.referenceAct, act]
    cases parseInt ((x.purge now).value.getD [48]) with
    | none => exact hx
    | some cur =>
      intro hp
      cases hp
  case rpop key =>
    simp only [Slot.referenceAct, act]
    cases (x.purge now).list <;> exact hx
  case delete key => exact fun _ => rfl
  case keys pre => exact hx
  case get | hgetall | hkeys =>
    simp only [Slot.referenceAct, act, purge_purge]
    exact hx
  all_goals
    intro hp
    cases hp

end Slot

def liveKeys (s : InMemoryStateStore) (now : ℚ) : List String :=
  s.kv.keys.filter fun k => ¬ s.expired now k

/-- At `now` and later the two stores show the same, whatever the first still
keeps of expired keys. -/
structure Sync (now : ℚ) (s r : InMemoryStateStore) : Prop where
  slots : ∀ k, (slot s k).purge now = (slot r k).purge now
  order : liveKeys s now = liveKeys r now
  dated : ∀ k, (slot r k).Dated

-- ---------------------------------------------------------------------------
-- One call
-- ---------------------------------------------------------------------------

section
variable {key : String} {keys : List String} {live : String → Bool} {v l v' l' : Bool}

theorem split_behind (hkey : key ∈ keys) :
    ∃ before, keys = before ++ key :: behind key keys ∧ key ∉ before := by
  obtain ⟨before, after, rfl, hbefore⟩ := List.eq_append_cons_of_mem hkey
  refine ⟨before, ?_, hbefore⟩
  have hne : ∀ k ∈ before, decide (k ≠ key) = true := by
    intro k hk
    have h : k ≠ key := fun he => hbefore (he ▸ hk)
    simpa using h
  rw [behind, List.dropWhile_append_of_pos hne]
  simp

theorem mem_of_behind (h : k ∈ behind key keys) : key ∈ keys := by
  by_contra hkey
  have hnil : keys.dropWhile (· ≠ key) = [] := by
    rw [List.dropWhile_eq_nil_iff]
    intro k' hk'
    have hne : k' ≠ key := fun he => hkey (he ▸ hk')
    simpa using hne
  rw [behind, hnil] at h
  cases h

theorem place_of_gone (h : (v && l) = false) :
    (place key v keys).filter (fun k => if k = key then l else live k) =
      (keys.filter live).filter (· ≠ key) := by
  have hout : ∀ ks : List String, ks.filter (fun k => decide (k ≠ key) && live k) =
      (ks.filter live).filter (· ≠ key) := by
    intro ks
    rw [List.filter_filter]
  cases v with
  | false =>
    rw [← hout, place, if_neg (by simp), List.filter_filter]
    apply List.filter_congr
    intro k _
    by_cases hk : k = key <;> simp [hk]
  | true =>
    obtain rfl : l = false := h
    have hsame : ∀ ks : List String, ks.filter (fun k => if k = key then false else live k) =
        ks.filter fun k => decide (k ≠ key) && live k := by
      intro ks
      apply List.filter_congr
      intro k _
      by_cases hk : k = key <;> simp [hk]
    rw [hsame, ← hout, place, if_pos rfl]
    split
    · rfl
    · simp [List.filter_append]

/-- A value that takes the place of an expired one stands before the keys behind it. -/
theorem place_revived (live : String → Bool) (hnodup : keys.Nodup) (hkey : key ∈ keys) (hlive : live key = false) :
    ∃ before, keys.filter live = before ++ (behind key keys).filter live ∧
      (place key true keys).filter (fun k => if k = key then true else live k) =
        before ++ key :: (behind key keys).filter live := by
  obtain ⟨before, heq, hbefore⟩ := split_behind hkey
  have hafter : key ∉ behind key keys := by
    rw [heq] at hnodup
    exact (List.nodup_cons.mp hnodup.of_append_right).1
  have hsame : ∀ ks : List String, key ∉ ks →
      ks.filter (fun k => if k = key then true else live k) = ks.filter live := by
    intro ks hks
    apply List.filter_congr
    intro k hk
    have hne : k ≠ key := fun he => hks (he ▸ hk)
    rw [if_neg hne]
  refine ⟨before.filter live, ?_, ?_⟩
  · conv_lhs => rw [heq]
    simp only [List.filter_append, List.filter_cons, hlive, Bool.false_eq_true, if_false]
  · rw [place, if_pos rfl, if_pos hkey]
    conv_lhs => rw [heq]
    simp only [List.filter_append, List.filter_cons, if_true, hsame before hbefore,
      hsame (behind key keys) hafter]

/-- Where the values of the keys come in the same order before a call, and the
value of `key` is there after it in both or in neither, they still do. -/
theorem place_agree (hnodup : keys.Nodup) (h : (v && l) = (v' && l'))
    (hbehind : (v && l) = true → key ∈ keys → live key = false →
      ∀ k ∈ behind key keys, live k = false) :
    (place key v keys).filter (fun k => if k = key then l else live k) =
      (place key v' (keys.filter live)).filter fun k => if k = key then l' else true := by
  cases hv : v && l with
  | false =>
    rw [place_of_gone hv, place_of_gone (h ▸ hv)]
    simp
  | true =>
    obtain ⟨rfl, rfl⟩ : v = true ∧ l = true := by simpa using hv
    obtain ⟨rfl, rfl⟩ : v' = true ∧ l' = true := by simpa using h.symm
    by_cases hkey : key ∈ keys
    · cases hlive : live key with
      | true =>
        simp only [place, if_true, ite_self, List.filter_true, if_pos hkey,
          if_pos (List.mem_filter.mpr ⟨hkey, hlive⟩)]
        apply List.filter_congr
        intro k _
        by_cases hk : k = key <;> simp [hk, hlive]
      | false =>
        obtain ⟨before, heq, hplace⟩ := place_revived live hnodup hkey hlive
        have hnone : (behind key keys).filter live = [] := by
          rw [List.filter_eq_nil_iff]
          intro k hk
          rw [hbehind rfl hkey hlive k hk]
          exact Bool.false_ne_true
        rw [hplace, place, if_pos rfl, if_neg (by simp [hlive]), heq, hnone]
        simp
    · simp only [place, if_true, ite_self, List.filter_true, if_neg hkey,
        if_neg (fun hm => hkey (List.mem_of_mem_filter hm)), List.filter_append, List.filter_cons,
        List.filter_nil, List.append_cancel_right_eq]
      apply List.filter_congr
      intro k hk
      have hne : k ≠ key := fun he => hkey (he ▸ hk)
      rw [if_neg hne]

end

section
variable {s r : InMemoryStateStore} {now next : ℚ} {key k : String} {op : Op}

theorem slot_referenceCall (hkey : op.key? = some key) :
    slot (r.referenceCall ⟨now, op⟩).2 k =
      if k = key then (Slot.referenceAct now op (slot r key)).2 else (slot r k).purge now := by
  have hstep : slot ((r.purgeAll now).step now op).2 k =
      if k = key then (Slot.act now op (slot (r.purgeAll now) key)).2 else slot (r.purgeAll now) k :=
    slot_step hkey
  simp only [slot_purgeAll] at hstep
  cases op
  case expire key' ttl =>
    cases hkey
    have hp : (r.purgeAll now).present key = ((slot r key).purge now).present :=
      congrArg Slot.present slot_purgeAll
    simp only [referenceCall, Slot.referenceAct, hp]
    split
    · exact hstep
    · simp +contextual [slot_purgeAll]
  all_goals exact hstep

theorem reply_referenceCall (hkey : op.key? = some key) :
    (r.referenceCall ⟨now, op⟩).1 = (Slot.referenceAct now op (slot r key)).1 := by
  have hreply : ((r.purgeAll now).step now op).1 =
      (Slot.act now op (slot (r.purgeAll now) key)).1 := reply_step hkey
  rw [slot_purgeAll] at hreply
  cases op
  case expire key' ttl =>
    simp only [referenceCall, Slot.referenceAct]
    split <;> rfl
  all_goals exact hreply

theorem keys_referenceCall (hkey : op.key? = some key) :
    (r.referenceCall ⟨now, op⟩).2.kv.keys =
      place key (slot (r.referenceCall ⟨now, op⟩).2 key).value.isSome (r.purgeAll now).kv.keys := by
  have hkeys : ((r.purgeAll now).step now op).2.kv.keys =
      place key (slot ((r.purgeAll now).step now op).2 key).value.isSome (r.purgeAll now).kv.keys :=
    keys_step hkey
  cases op
  case expire key' ttl =>
    simp only [referenceCall]
    split
    · exact hkeys
    · exact place_self.symm
  all_goals exact hkeys

theorem slot_absent (h : (slot s k).present = false) :
    (slot s k).value = none ∧ (slot s k).hash = .empty ∧ (slot s k).list = [] := by
  have hnone : ∀ {ν : Type} {d : Dict String ν}, d.contains k = false → d.get? k = none := by
    intro ν d hd
    rw [← Option.not_isSome_iff_eq_none, Dict.isSome_get?_iff, ← Dict.contains_iff]
    simp [hd]
  simp only [slot, present, Bool.or_eq_false_iff] at h
  simp only [slot, hnone h.1.1, hnone h.1.2, hnone h.2, Option.getD_none, and_self]

theorem not_stale_of_mem_liveKeys (h : k ∈ liveKeys s now) : (slot s k).stale now = false := by
  simpa [← expired_eq_stale] using (List.mem_filter.mp h).2

theorem liveKeys_later (hle : now ≤ next) :
    liveKeys s next = (liveKeys s now).filter fun k => ¬ s.expired next k := by
  rw [liveKeys, liveKeys, List.filter_filter]
  apply List.filter_congr
  intro k _
  cases h : s.expired next k with
  | true => simp
  | false =>
    have hnow : s.expired now k = false := by
      cases hn : s.expired now k with
      | true => cases h.symm.trans (Slot.stale_later (x := slot s k) hle hn)
      | false => rfl
    simp [hnow]

theorem liveKeys_purgeAll : (r.purgeAll now).kv.keys = liveKeys r now := by
  rw [purgeAll, Dict.keys_restrict]
  rfl

theorem expired_purgeAll : (r.purgeAll now).expired now k = false := by
  rw [expired_eq_stale, slot_purgeAll, Slot.stale_purge]

theorem liveKeys_of_purgeAll : liveKeys (r.purgeAll now) now = liveKeys r now := by
  have hall : liveKeys (r.purgeAll now) now = (r.purgeAll now).kv.keys := by
    rw [liveKeys, List.filter_eq_self]
    intro k _
    simp [expired_purgeAll]
  rw [hall, liveKeys_purgeAll]

theorem Sync.slot_eq (hs : Sync now s r) (hk : k ∈ liveKeys s now) : slot s k = slot r k := by
  have hk' : k ∈ liveKeys r now := hs.order ▸ hk
  have h := hs.slots k
  rwa [Slot.purge_of_not_stale (not_stale_of_mem_liveKeys hk),
    Slot.purge_of_not_stale (not_stale_of_mem_liveKeys hk')] at h

theorem Sync.later (hs : Sync now s r) (hle : now ≤ next) : Sync next s r := by
  refine ⟨?_, ?_, hs.dated⟩
  · intro k
    rw [← Slot.purge_later hle, hs.slots k, Slot.purge_later hle]
  · rw [liveKeys_later hle, liveKeys_later hle, ← hs.order]
    apply List.filter_congr
    intro k hk
    rw [expired_eq_stale, expired_eq_stale, hs.slot_eq hk]

theorem Sync.purgeAll (hs : Sync now s r) : Sync now s (r.purgeAll now) := by
  refine ⟨?_, ?_, ?_⟩
  · intro k
    rw [slot_purgeAll, Slot.purge_purge, hs.slots k]
  · rw [liveKeys_of_purgeAll, hs.order]
  · intro k
    rw [slot_purgeAll]
    exact (hs.dated k).purge

/-- A key that is neither expired nor there has nothing at all. -/
theorem Sync.absent (hs : Sync now s r) (hlive : (slot s k).stale now = false)
    (hp : (slot s k).present = false) : slot s k = Slot.gone := by
  have h := hs.slots k
  rw [Slot.purge_of_not_stale hlive] at h
  have hdeadline : (slot s k).deadline = none := by
    rw [h] at hp ⊢
    exact (hs.dated k).purge hp
  obtain ⟨hvalue, hhash, hlist⟩ := slot_absent hp
  exact Slot.ext hvalue hhash hlist hdeadline hp

theorem Harmless.toSlot (h : Harmless s now op) (hkey : op.key? = some key) :
    (slot s key).Harmless now op := by
  cases op <;> cases hkey
  case set value ttl =>
    intro hstale
    rcases h hstale with ht | ⟨hhash, hlist, -⟩
    · exact .inl ht
    · exact .inr ⟨hhash, hlist⟩
  all_goals exact h

/-- The order of the values after a call, from what is left of the slot. -/
theorem liveKeys_step (hkey : op.key? = some key) :
    liveKeys (s.step now op).2 now =
      (place key (Slot.act now op (slot s key)).2.value.isSome s.kv.keys).filter fun k =>
        if k = key then !(Slot.act now op (slot s key)).2.stale now else decide ¬ s.expired now k := by
  rw [liveKeys, keys_step hkey]
  simp only [expired_eq_stale, slot_step hkey, if_true]
  apply List.filter_congr
  intro k _
  split <;> simp

theorem liveKeys_referenceCall (hkey : op.key? = some key) :
    liveKeys (r.referenceCall ⟨now, op⟩).2 now =
      (place key (Slot.referenceAct now op (slot r key)).2.value.isSome (liveKeys r now)).filter fun k =>
        if k = key then !(Slot.referenceAct now op (slot r key)).2.stale now else true := by
  rw [liveKeys, keys_referenceCall hkey, liveKeys_purgeAll]
  simp only [expired_eq_stale, slot_referenceCall hkey, if_true]
  apply List.filter_congr
  intro k _
  split <;> simp [Slot.stale_purge]

theorem Harmless.none_behind (h : Harmless s now op) (hkey : op.key? = some key)
    (hstale : s.expired now key = true)
    (hv : ((Slot.act now op (slot s key)).2.purge now).value.isSome = true) :
    ∀ k ∈ behind key s.kv.keys, s.expired now k = true := by
  obtain ⟨key', value, ttl, rfl, hlasting⟩ := Slot.act_revives (x := slot s key) hstale (h.toSlot hkey) hv
  cases hkey
  rcases h hstale with ht | ⟨-, -, hbehind⟩
  · exact absurd ht hlasting
  · exact hbehind

/-- A harmless call is answered as on the reference, and leaves the stores in step. -/
theorem Sync.call (hs : Sync now s r) (h : Harmless s now op) :
    (s.step now op).1 = (r.referenceCall ⟨now, op⟩).1 ∧
      Sync now (s.step now op).2 (r.referenceCall ⟨now, op⟩).2 := by
  cases hkey : op.key? with
  | none =>
    cases op
    case keys pre =>
      refine ⟨?_, hs.purgeAll⟩
      have horder := hs.purgeAll.order
      simp only [step, referenceCall, InMemoryStateStore.keys]
      rw [← liveKeys, ← liveKeys, horder]
    all_goals cases hkey
  | some key =>
    obtain ⟨hreply, hview⟩ := Slot.act_agree (h.toSlot hkey) hs.absent
    rw [Slot.referenceAct_congr (hs.slots key)] at hreply hview
    refine ⟨?_, ?_, ?_, ?_⟩
    · rw [reply_step hkey, reply_referenceCall hkey, hreply]
    · intro k
      rw [slot_step hkey, slot_referenceCall hkey]
      split
      · exact hview
      · rw [Slot.purge_purge, hs.slots k]
    · rw [liveKeys_step hkey, liveKeys_referenceCall hkey, ← hs.order]
      apply place_agree s.kv.nodup
      · rw [← Slot.value_purge, ← Slot.value_purge, hview]
      · intro hv _ hlive k hk
        rw [← Slot.value_purge] at hv
        have hstale : s.expired now key = true := by simpa using hlive
        simpa using h.none_behind hkey hstale hv k hk
    · intro k
      rw [slot_referenceCall hkey]
      split
      · exact (hs.dated key).referenceAct
      · exact (hs.dated k).purge

end

end Intelliqx.State
