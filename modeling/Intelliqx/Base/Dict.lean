import Mathlib.Data.List.Nodup
import Mathlib.Data.List.Lookmap

/-!
# Insertion-ordered dictionaries

A dictionary lists its entries in the order their keys were first inserted.
Writing a key that is there keeps its place and replaces its value. The keys
are distinct by construction, so a reading never has to say which entry wins.
-/

namespace Intelliqx

/-- Write `k`, in place when it is there and at the end when it is not. -/
def insertEntry [DecidableEq κ] (k : κ) (v : ν) : List (κ × ν) → List (κ × ν)
  | [] => [(k, v)]
  | (k', v') :: rest => if k' = k then (k, v) :: rest else (k', v') :: insertEntry k v rest

section
variable {κ : Type u} {ν : Type v} [DecidableEq κ] {k : κ} {v : ν} {entries : List (κ × ν)}

theorem insertEntry_of_mem (h : k ∈ entries.map Prod.fst) :
    (insertEntry k v entries).map Prod.fst = entries.map Prod.fst := by
  induction entries with
  | nil => simp at h
  | cons e rest ih =>
    obtain ⟨k', v'⟩ := e
    by_cases hk : k' = k
    · simp [insertEntry, hk]
    · have hr : k ∈ rest.map Prod.fst := by simpa [Ne.symm hk] using h
      simp [insertEntry, hk, ih hr]

theorem insertEntry_of_not_mem (h : k ∉ entries.map Prod.fst) :
    insertEntry k v entries = entries ++ [(k, v)] := by
  induction entries with
  | nil => rfl
  | cons e rest ih =>
    obtain ⟨k', v'⟩ := e
    simp only [List.map_cons, List.mem_cons, not_or] at h
    simp [insertEntry, Ne.symm h.1, ih h.2]

theorem nodup_insertEntry (h : (entries.map Prod.fst).Nodup) :
    ((insertEntry k v entries).map Prod.fst).Nodup := by
  by_cases hk : k ∈ entries.map Prod.fst
  · rwa [insertEntry_of_mem hk]
  · rw [insertEntry_of_not_mem hk, List.map_append]
    apply h.append (by simp)
    simpa [List.disjoint_singleton] using hk

theorem lookup_cons_ite (k' : κ) (e : κ × ν) :
    (e :: entries).lookup k' = if k' = e.1 then some e.2 else entries.lookup k' := by
  rw [List.lookup_cons]
  by_cases h : k' = e.1
  · simp [h]
  · have hb : (k' == e.1) = false := by simpa using h
    simp [h, hb]

theorem lookup_insertEntry (k' : κ) :
    (insertEntry k v entries).lookup k' = if k' = k then some v else entries.lookup k' := by
  induction entries with
  | nil => simp [insertEntry, lookup_cons_ite]
  | cons e rest ih =>
    by_cases hj : e.1 = k
    · subst hj
      by_cases h : k' = e.1 <;> simp [insertEntry, lookup_cons_ite, h]
    · by_cases h : k' = e.1
      · subst h; simp [insertEntry, hj, lookup_cons_ite]
      · simp [insertEntry, hj, lookup_cons_ite, ih, h]

end

structure Dict (κ : Type u) (ν : Type v) where
  entries : List (κ × ν)
  nodup : (entries.map Prod.fst).Nodup
  deriving DecidableEq

namespace Dict

variable {κ : Type u} {ν : Type v}

def empty : Dict κ ν := ⟨[], List.nodup_nil⟩

instance : Inhabited (Dict κ ν) := ⟨empty⟩

@[simp] theorem entries_empty : (empty : Dict κ ν).entries = [] := rfl

@[ext] theorem ext {d d' : Dict κ ν} (h : d.entries = d'.entries) : d = d' := by
  cases d; cases d'; congr

def keys (d : Dict κ ν) : List κ := d.entries.map Prod.fst

def values (d : Dict κ ν) : List ν := d.entries.map Prod.snd

variable [DecidableEq κ]

def get? (d : Dict κ ν) (k : κ) : Option ν := d.entries.lookup k

def contains (d : Dict κ ν) (k : κ) : Bool := decide (k ∈ d.keys)

def insert (d : Dict κ ν) (k : κ) (v : ν) : Dict κ ν :=
  ⟨insertEntry k v d.entries, nodup_insertEntry d.nodup⟩

/-- Write the entries in order, as a dictionary display does. -/
def ofList (l : List (κ × ν)) : Dict κ ν := l.foldl (fun d e => d.insert e.1 e.2) empty

variable {d : Dict κ ν} {k k' : κ} {v : ν}

@[simp] theorem get?_empty : (empty : Dict κ ν).get? k = none := rfl

@[simp] theorem contains_iff : d.contains k = true ↔ k ∈ d.keys := by simp [contains]

theorem get?_insert : (d.insert k v).get? k' = if k' = k then some v else d.get? k' :=
  lookup_insertEntry k'

@[simp] theorem get?_insert_self : (d.insert k v).get? k = some v := by simp [get?_insert]

theorem get?_insert_ne (h : k' ≠ k) : (d.insert k v).get? k' = d.get? k' := by
  simp [get?_insert, h]

theorem entries_insert_of_not_mem (h : k ∉ d.keys) :
    (d.insert k v).entries = d.entries ++ [(k, v)] :=
  insertEntry_of_not_mem h

theorem keys_insert : (d.insert k v).keys = if k ∈ d.keys then d.keys else d.keys ++ [k] := by
  split
  · rename_i h; exact insertEntry_of_mem h
  · rename_i h; simp [keys, entries_insert_of_not_mem h]

theorem mem_keys_insert : k' ∈ (d.insert k v).keys ↔ k' = k ∨ k' ∈ d.keys := by
  rw [keys_insert]
  split
  · rename_i h
    exact ⟨.inr, fun h' => h'.elim (fun e => e ▸ h) id⟩
  · simp [or_comm]

theorem get?_eq_some_iff : d.get? k = some v ↔ (k, v) ∈ d.entries := by
  obtain ⟨entries, nodup⟩ := d
  simp only [get?]
  induction entries with
  | nil => simp
  | cons e rest ih =>
    obtain ⟨j, w⟩ := e
    obtain ⟨hj, hrest⟩ := List.nodup_cons.mp nodup
    have ih := ih hrest
    by_cases h : k = j
    · subst h
      have hk : (k, v) ∉ rest := fun hm => hj (List.mem_map.mpr ⟨_, hm, rfl⟩)
      simp [lookup_cons_ite, eq_comm, hk]
    · simp [lookup_cons_ite, ih, h]

theorem insert_perm (h : d.get? k = some old) :
    ∃ rest, d.entries.Perm ((k, old) :: rest) ∧ (d.insert k v).entries.Perm ((k, v) :: rest) := by
  obtain ⟨entries, nodup⟩ := d
  simp only [get?, insert] at h ⊢
  clear nodup
  induction entries with
  | nil => simp at h
  | cons e entries ih =>
    by_cases hk : e.1 = k
    · subst hk
      have he : e = (e.1, old) := by simpa [lookup_cons_ite, Prod.ext_iff] using h
      exact ⟨entries, by rw [← he], by simp [insertEntry]⟩
    · obtain ⟨rest, ho, hn⟩ := ih (by simpa [lookup_cons_ite, Ne.symm hk] using h)
      refine ⟨e :: rest, (ho.cons e).trans (.swap ..), ?_⟩
      simpa [insertEntry, hk] using (hn.cons e).trans (.swap ..)

theorem isSome_get?_iff : (d.get? k).isSome ↔ k ∈ d.keys := by
  rw [Option.isSome_iff_exists, keys, List.mem_map]
  constructor
  · rintro ⟨v, h⟩; exact ⟨(k, v), get?_eq_some_iff.mp h, rfl⟩
  · rintro ⟨⟨j, v⟩, h, rfl⟩; exact ⟨v, get?_eq_some_iff.mpr h⟩

theorem entries_ofList_append (l : List (κ × ν)) (hd : d.entries ++ l = es)
    (hn : (es.map Prod.fst).Nodup) : (l.foldl (fun d e => d.insert e.1 e.2) d).entries = es := by
  induction l generalizing d with
  | nil => simpa using hd
  | cons e l ih =>
    have hk : e.1 ∉ d.keys := by
      rw [← hd, List.map_append, List.nodup_append] at hn
      intro h
      exact hn.2.2 e.1 h e.1 (by simp) rfl
    apply ih (d := d.insert e.1 e.2)
    simpa [entries_insert_of_not_mem hk] using hd

theorem entries_ofList (l : List (κ × ν)) (hn : (l.map Prod.fst).Nodup) :
    (ofList l).entries = l :=
  entries_ofList_append l (by simp) hn

@[simp] theorem ofList_entries (d : Dict κ ν) : ofList d.entries = d := ext (entries_ofList _ d.nodup)

section
variable {ks : List κ} {vs : List ν} (hn : ks.Nodup) (hl : vs.length = ks.length)
include hn hl

theorem entries_ofList_zip : (ofList (ks.zip vs)).entries = ks.zip vs :=
  entries_ofList _ (by rwa [List.map_fst_zip (Nat.le_of_eq hl.symm)])

theorem map_get?_ofList_zip : ks.map (ofList (ks.zip vs)).get? = vs.map some := by
  apply List.ext_getElem (by simp [hl])
  intro i hk hv
  rw [List.getElem_map, List.getElem_map, get?_eq_some_iff, entries_ofList_zip hn hl]
  rw [List.length_map] at hk hv
  exact List.mem_iff_getElem.mpr ⟨i, by simp; omega, List.getElem_zip⟩

theorem get?_ofList_zip_of_not_mem (hk : k ∉ ks) : (ofList (ks.zip vs)).get? k = none := by
  rw [← Option.not_isSome_iff_eq_none, isSome_get?_iff, keys, entries_ofList_zip hn hl,
    List.map_fst_zip (Nat.le_of_eq hl.symm)]
  exact hk

end

-- ---------------------------------------------------------------------------
-- Removing entries
-- ---------------------------------------------------------------------------

/-- The entries whose keys satisfy `p`. -/
def restrict (p : κ → Bool) (d : Dict κ ν) : Dict κ ν where
  entries := d.entries.filter fun e => p e.1
  nodup := d.nodup.sublist (List.filter_sublist.map Prod.fst)

/-- `d.pop(k, None)` -/
def erase (d : Dict κ ν) (k : κ) : Dict κ ν := d.restrict (· ≠ k)

section
variable {p q : κ → Bool}

omit [DecidableEq κ] in
theorem keys_restrict : (d.restrict p).keys = d.keys.filter p := by
  simp [keys, restrict, List.filter_map, Function.comp_def]

theorem get?_restrict : (d.restrict p).get? k = if p k then d.get? k else none := by
  ext v
  rw [get?_eq_some_iff, restrict, List.mem_filter]
  cases p k <;> simp [get?_eq_some_iff]

omit [DecidableEq κ] in
theorem restrict_restrict : (d.restrict p).restrict q = d.restrict fun k => p k && q k := by
  apply ext
  simp only [restrict, List.filter_filter]
  congr 1
  funext e
  exact Bool.and_comm ..

theorem restrict_insert :
    (d.insert k v).restrict p = if p k then (d.restrict p).insert k v else d.restrict p := by
  obtain ⟨entries, nodup⟩ := d
  apply ext
  simp only [insert, restrict, apply_ite Dict.entries]
  clear nodup
  induction entries with
  | nil => cases hk : p k <;> simp [insertEntry, hk]
  | cons e rest ih =>
    by_cases he : e.1 = k
    · subst he
      cases hk : p e.1 <;> simp [insertEntry, hk]
    · cases hk : p k <;> cases hj : p e.1 <;> simp_all [insertEntry]

theorem get?_erase : (d.erase k).get? k' = if k' = k then none else d.get? k' := by
  by_cases h : k' = k <;> simp [erase, get?_restrict, h]

theorem mem_keys_erase : k' ∈ (d.erase k).keys ↔ k' ≠ k ∧ k' ∈ d.keys := by
  simp [erase, keys_restrict, and_comm]

theorem restrict_erase : (d.erase k).restrict p = (d.restrict p).erase k := by
  simp only [erase, restrict_restrict, Bool.and_comm]

theorem erase_of_not_mem (h : k ∉ d.keys) : d.erase k = d := by
  apply ext
  simp only [erase, restrict, List.filter_eq_self]
  intro e he
  have hne : e.1 ≠ k := fun heq => h (heq ▸ List.mem_map_of_mem he)
  simpa using hne

end

-- ---------------------------------------------------------------------------
-- Indexes over a list
-- ---------------------------------------------------------------------------

def index (key : α → κ) (val : α → ν) (l : List α) : Dict κ ν :=
  l.foldl (fun d a => d.insert (key a) (val a)) empty

/-- `d.setdefault(k, []).append(v)` -/
def push (d : Dict κ (List ν)) (k : κ) (v : ν) : Dict κ (List ν) :=
  d.insert k ((d.get? k).getD [] ++ [v])

def group (key : α → κ) (val : α → ν) (l : List α) : Dict κ (List ν) :=
  l.foldl (fun d a => d.push (key a) (val a)) empty

def insertNew (key : α → κ) (val : α → ν) (l : List α) (d : Dict κ ν) : Dict κ ν :=
  l.foldl (fun d a => if d.contains (key a) then d else d.insert (key a) (val a)) d

section
variable {key : α → κ} {val : α → ν} {l : List α}

theorem get?_foldl_insert :
    (l.foldl (fun d a => d.insert (key a) (val a)) d).get? k =
      (((l.filter fun a => key a = k).getLast?).map val).or (d.get? k) := by
  induction l generalizing d with
  | nil => rfl
  | cons a l ih =>
    rw [List.foldl_cons, ih, get?_insert, List.filter_cons]
    by_cases h : key a = k
    · cases hl : (l.filter fun a => key a = k).getLast? <;> simp [h, hl, List.getLast?_cons]
    · simp [h, Ne.symm h]

theorem get?_index :
    (index key val l).get? k = ((l.filter fun a => key a = k).getLast?).map val := by
  simp [index, get?_foldl_insert]

theorem exists_of_get?_index (h : (index key val l).get? k = some v) :
    ∃ a ∈ l, key a = k ∧ val a = v := by
  rw [get?_index] at h
  obtain ⟨a, ha, rfl⟩ := Option.map_eq_some_iff.mp h
  have hm := List.mem_of_getLast? ha
  simp only [List.mem_filter, decide_eq_true_eq] at hm
  exact ⟨a, hm.1, hm.2, rfl⟩

theorem keys_foldl_insert_sublist :
    (l.foldl (fun d a => d.insert (key a) (val a)) d).keys.Sublist (d.keys ++ l.map key) := by
  induction l generalizing d with
  | nil => simp
  | cons a l ih =>
    have hl : (l.foldl (fun d a => d.insert (key a) (val a)) (d.insert (key a) (val a))).keys.Sublist
        ((d.insert (key a) (val a)).keys ++ l.map key) := ih
    rw [keys_insert] at hl
    rw [List.foldl_cons, List.map_cons]
    split at hl
    · exact hl.trans ((List.sublist_cons_self _ _).append_left d.keys)
    · rwa [List.append_assoc] at hl

theorem keys_index_sublist : (index key val l).keys.Sublist (l.map key) := keys_foldl_insert_sublist

theorem isSome_get?_index : ((index key val l).get? k).isSome ↔ k ∈ l.map key := by
  rw [get?_index, Option.isSome_map, List.getLast?_isSome, ne_eq, List.filter_eq_nil_iff]
  simp

theorem getD_foldl_push (d : Dict κ (List ν)) :
    ((l.foldl (fun d a => d.push (key a) (val a)) d).get? k).getD [] =
      (d.get? k).getD [] ++ (l.filter fun a => key a = k).map val := by
  induction l generalizing d with
  | nil => simp
  | cons a l ih =>
    rw [List.foldl_cons, ih, push, get?_insert, List.filter_cons]
    by_cases h : key a = k
    · simp [h]
    · simp [h, Ne.symm h]

theorem insertEntry_append {front back : List (κ × ν)} (h : k ∉ front.map Prod.fst) :
    insertEntry k v (front ++ back) = front ++ insertEntry k v back := by
  induction front with
  | nil => rfl
  | cons e front ih =>
    obtain ⟨he, hfront⟩ := not_or.mp (mt List.mem_cons.mpr h)
    rw [List.cons_append, insertEntry, if_neg (Ne.symm he), ih hfront, List.cons_append]

/-- Entries that are there already keep their places, and those of the first keys of `l` are in theirs. -/
theorem entries_foldl_insert_of_prefix {done rest : List (κ × ν)} (hd : d.entries = done ++ rest)
    (hn : (done.map Prod.fst ++ l.map key).Nodup) (h : rest.map Prod.fst <+: l.map key) :
    (l.foldl (fun d a => d.insert (key a) (val a)) d).entries = done ++ l.map fun a => (key a, val a) := by
  induction l generalizing d done rest with
  | nil =>
    rw [List.map_nil, List.prefix_nil, List.map_eq_nil_iff] at h
    rw [List.foldl_nil, hd, h, List.map_nil]
  | cons a l ih =>
    have hfresh : key a ∉ done.map Prod.fst := fun hmem =>
      (List.nodup_append.mp hn).2.2 _ hmem _ List.mem_cons_self rfl
    have hn' : ((done ++ [(key a, val a)]).map Prod.fst ++ l.map key).Nodup := by
      rw [List.map_append, List.append_assoc]
      exact hn
    have hinsert : (d.insert (key a) (val a)).entries = done ++ insertEntry (key a) (val a) rest :=
      (congrArg (insertEntry (key a) (val a)) hd).trans (insertEntry_append hfresh)
    rw [List.foldl_cons, List.map_cons, List.append_cons]
    cases rest with
    | nil =>
      rw [insertEntry, ← List.append_nil (done ++ [_])] at hinsert
      exact ih hinsert hn' List.nil_prefix
    | cons e rest =>
      obtain ⟨he, hrest⟩ := List.cons_prefix_cons.mp h
      rw [insertEntry, if_pos he, List.append_cons] at hinsert
      exact ih hinsert hn' hrest

theorem entries_foldl_push_append {d d' front : Dict κ (List ν)}
    (hd : d.entries = front.entries ++ d'.entries) (h : ∀ a ∈ l, key a ∉ front.keys) :
    (l.foldl (fun d a => d.push (key a) (val a)) d).entries =
      front.entries ++ (l.foldl (fun d a => d.push (key a) (val a)) d').entries := by
  induction l generalizing d d' with
  | nil => exact hd
  | cons a l ih =>
    have ha : key a ∉ front.entries.map Prod.fst := h a List.mem_cons_self
    apply ih ?_ fun b hb => h b (List.mem_cons_of_mem _ hb)
    have hget : d.get? (key a) = d'.get? (key a) := by
      have hnone : front.entries.lookup (key a) = none := by
        rw [← Option.not_isSome_iff_eq_none]
        exact fun hs => ha (isSome_get?_iff.mp hs)
      rw [get?, get?, hd, List.lookup_append, hnone, Option.none_or]
    change insertEntry (key a) _ d.entries = front.entries ++ insertEntry (key a) _ d'.entries
    rw [hget, hd, insertEntry_append ha]

theorem mem_keys_foldl_push {d : Dict κ (List ν)} :
    k ∈ (l.foldl (fun d a => d.push (key a) (val a)) d).keys ↔ k ∈ d.keys ∨ ∃ a ∈ l, key a = k := by
  induction l generalizing d with
  | nil => simp
  | cons a l ih =>
    rw [List.foldl_cons, ih, push, mem_keys_insert, eq_comm, or_assoc, or_left_comm]
    simp only [List.mem_cons, exists_eq_or_imp]

theorem mem_keys_group : k ∈ (group key val l).keys ↔ ∃ a ∈ l, key a = k := by
  rw [group, mem_keys_foldl_push]
  simp [keys]

/-- Blocks that share no key are grouped one by one. -/
theorem entries_group_flatMap {f : β → List α} {bs : List β}
    (h : bs.Pairwise fun b b' => ∀ a ∈ f b, ∀ a' ∈ f b', key a ≠ key a') :
    (group key val (bs.flatMap f)).entries = bs.flatMap fun b => (group key val (f b)).entries := by
  induction bs with
  | nil => rfl
  | cons b bs ih =>
    obtain ⟨hb, hbs⟩ := List.pairwise_cons.mp h
    rw [List.flatMap_cons, List.flatMap_cons, ← ih hbs, group, List.foldl_append]
    apply entries_foldl_push_append (by simp [group])
    intro a ha hkey
    obtain ⟨b', hb', ha⟩ := List.mem_flatMap.mp ha
    obtain ⟨a', ha', he⟩ := mem_keys_group.mp hkey
    exact hb b' hb' a' ha' a ha he

theorem getD_group :
    ((group key val l).get? k).getD [] = (l.filter fun a => key a = k).map val := by
  rw [group, getD_foldl_push]
  simp

theorem mem_entries_group {vs : List ν} (h : (k, vs) ∈ (group key val l).entries) :
    vs = (l.filter fun a => key a = k).map val := by
  rw [← getD_group, get?_eq_some_iff.mpr h]
  rfl

theorem exists_mem_entries_group {a : α} (h : a ∈ l) :
    ∃ vs, (key a, vs) ∈ (group key val l).entries ∧ val a ∈ vs := by
  have hkey : key a ∈ (group key val l).keys := mem_keys_group.mpr ⟨a, h, rfl⟩
  obtain ⟨⟨k, vs⟩, he, rfl⟩ := List.mem_map.mp hkey
  refine ⟨vs, he, ?_⟩
  rw [mem_entries_group he]
  exact List.mem_map_of_mem (List.mem_filter.mpr ⟨h, by simp⟩)

theorem get?_insertNew :
    (insertNew key val l d).get? k = (d.get? k).or ((l.find? fun a => key a = k).map val) := by
  unfold insertNew
  induction l generalizing d with
  | nil => simp
  | cons a l ih =>
    rw [List.foldl_cons, ih, List.find?_cons]
    by_cases hc : d.contains (key a) = true
    · by_cases h : key a = k
      · obtain ⟨v, hv⟩ := Option.isSome_iff_exists.mp (isSome_get?_iff.mpr (contains_iff.mp hc))
        simp [hc, ← h, hv]
      · simp [hc, h]
    · by_cases h : key a = k
      · have hn : d.get? (key a) = none := by
          rw [← Option.not_isSome_iff_eq_none, isSome_get?_iff, ← contains_iff]
          exact hc
        simp [hc, ← h, hn]
      · simp [hc, h, get?_insert_ne (Ne.symm h)]

end

theorem flatMap_values_eq_singleton_iff {f : ν → List β} :
    d.values.flatMap f = [b] ↔ ∃ k v, d.get? k = some v ∧ f v = [b] ∧
      ∀ k' v', d.get? k' = some v' → k' ≠ k → f v' = [] := by
  obtain ⟨entries, nodup⟩ := d
  simp only [get?_eq_some_iff, values]
  induction entries with
  | nil => simp
  | cons e rest ih =>
    obtain ⟨j, w⟩ := e
    obtain ⟨hj, hrest⟩ := List.nodup_cons.mp nodup
    have hother : ∀ {k v}, (k, v) ∈ rest → k ≠ j := fun hm he =>
      hj (List.mem_map.mpr ⟨_, hm, he⟩)
    rw [List.map_cons, List.flatMap_cons, List.append_eq_singleton_iff, ih hrest]
    constructor
    · rintro (⟨hw, k, v, hm, hv, hn⟩ | ⟨hw, hnil⟩)
      · refine ⟨k, v, List.mem_cons_of_mem _ hm, hv, ?_⟩
        intro k' v' hm' hne
        rcases List.mem_cons.mp hm' with he | hm'
        · cases he; exact hw
        · exact hn k' v' hm' hne
      · refine ⟨j, w, List.mem_cons_self, hw, ?_⟩
        intro k' v' hm' hne
        rcases List.mem_cons.mp hm' with he | hm'
        · cases he; exact absurd rfl hne
        · exact List.flatMap_eq_nil_iff.mp hnil v' (List.mem_map.mpr ⟨_, hm', rfl⟩)
    · rintro ⟨k, v, hm, hv, hn⟩
      rcases List.mem_cons.mp hm with he | hm
      · cases he
        refine .inr ⟨hv, List.flatMap_eq_nil_iff.mpr ?_⟩
        intro v' hv'
        obtain ⟨⟨k', _⟩, hm', rfl⟩ := List.mem_map.mp hv'
        exact hn k' _ (List.mem_cons_of_mem _ hm') (hother hm')
      · refine .inl ⟨hn j w List.mem_cons_self (hother hm).symm, k, v, hm, hv, ?_⟩
        intro k' v' hm'
        exact hn k' v' (List.mem_cons_of_mem _ hm')

end Dict

end Intelliqx
