import Mathlib.Data.List.Sort

/-!
# Sorting by a key

A sort by a key keeps the elements of one key in their order (`filter_sortBy`).
So what is read off the sorted list does not depend on the order of the list
exactly if elements of one key read the same (`sortBy_order_free_iff`).
-/

namespace Intelliqx

variable {α : Type u} {κ : Type v} {γ : Type w} [LinearOrder κ]

def sortBy (key : α → κ) (l : List α) : List α := l.insertionSort fun a b => key a ≤ key b

section
variable {key : α → κ} {g : α → γ} {l l' : List α} {a b : α} {k : κ}

theorem sortBy_perm : (sortBy key l).Perm l := List.perm_insertionSort _ _

@[simp] theorem mem_sortBy : a ∈ sortBy key l ↔ a ∈ l := sortBy_perm.mem_iff

theorem pairwise_sortBy : (sortBy key l).Pairwise fun a b => key a ≤ key b := by
  have : Std.Total fun a b : α => key a ≤ key b := ⟨fun a b => le_total (key a) (key b)⟩
  have : IsTrans α fun a b => key a ≤ key b := ⟨fun _ _ _ => le_trans⟩
  exact List.pairwise_insertionSort _ _

theorem filter_sortBy : (sortBy key l).filter (key · = k) = l.filter (key · = k) := by
  have : Std.Total fun a b : α => key a ≤ key b := ⟨fun a b => le_total (key a) (key b)⟩
  have : IsTrans α fun a b => key a ≤ key b := ⟨fun _ _ _ => le_trans⟩
  have hpairwise : (l.filter (key · = k)).Pairwise fun a b => key a ≤ key b := by
    refine List.pairwise_of_forall_mem_list fun a ha b hb => ?_
    have ha := of_decide_eq_true (List.mem_filter.mp ha).2
    have hb := of_decide_eq_true (List.mem_filter.mp hb).2
    exact (ha.trans hb.symm).le
  -- the elements of the key are in order already, so the sort leaves them one after the other
  have hsub : (l.filter (key · = k)).Sublist (sortBy key l) :=
    List.sublist_insertionSort hpairwise List.filter_sublist
  have hsub' := hsub.filter (key · = k)
  rw [List.filter_filter] at hsub'
  simp only [Bool.and_self] at hsub'
  exact (hsub'.eq_of_length (sortBy_perm.filter _).length_eq.symm).symm

theorem orderedInsert_of_forall_le (h : ∀ b ∈ l, key a ≤ key b) :
    l.orderedInsert (fun a b => key a ≤ key b) a = a :: l := by
  cases l with
  | nil => rfl
  | cons b l => exact List.orderedInsert_cons_of_le _ l (h b List.mem_cons_self)

theorem filter_orderedInsert (q : α → Bool) (h : l.Pairwise fun a b => key a ≤ key b) :
    (l.orderedInsert (fun a b => key a ≤ key b) a).filter q =
      if q a then (l.filter q).orderedInsert (fun a b => key a ≤ key b) a else l.filter q := by
  induction l with
  | nil => by_cases hq : q a <;> simp [hq]
  | cons b l ih =>
    obtain ⟨hb, hl⟩ := List.pairwise_cons.mp h
    by_cases hab : key a ≤ key b
    · have hle : ∀ c ∈ (b :: l).filter q, key a ≤ key c := by
        intro c hc
        rcases List.mem_cons.mp (List.mem_of_mem_filter hc) with rfl | hc
        · exact hab
        · exact hab.trans (hb c hc)
      rw [List.orderedInsert_cons_of_le _ l hab, orderedInsert_of_forall_le hle, List.filter_cons]
    · rw [List.orderedInsert_of_not_le _ l hab, List.filter_cons, ih hl, List.filter_cons]
      by_cases hqa : q a <;> by_cases hqb : q b <;> simp [hqa, hqb, hab]

/-- What is sorted out before the sort or behind it is the same. -/
theorem sortBy_filter (q : α → Bool) : sortBy key (l.filter q) = (sortBy key l).filter q := by
  induction l with
  | nil => rfl
  | cons a l ih =>
    have hcons : sortBy key (a :: l) = (sortBy key l).orderedInsert (fun a b => key a ≤ key b) a := rfl
    rw [hcons, filter_orderedInsert q pairwise_sortBy, ← ih, List.filter_cons]
    split
    · rfl
    · rfl

theorem map_key_sortBy_of_perm (h : l'.Perm l) : (sortBy key l').map key = (sortBy key l).map key := by
  have hsorted : ∀ m : List α, ((sortBy key m).map key).Pairwise (· ≤ ·) :=
    fun m => List.pairwise_map.mpr pairwise_sortBy
  exact (((sortBy_perm.trans h).trans sortBy_perm.symm).map key).eq_of_pairwise' (hsorted l') (hsorted l)

theorem map_sortBy_of_perm (hsame : ∀ a ∈ l, ∀ b ∈ l, key a = key b → g a = g b) (h : l'.Perm l) :
    (sortBy key l').map g = (sortBy key l).map g := by
  -- what an element reads can be looked up by its key
  have hfind : ∀ a ∈ l, (l.find? (key · = key a)).map g = some (g a) := by
    intro a ha
    cases hb : l.find? (key · = key a) with
    | none => exact absurd (decide_eq_true rfl) (List.find?_eq_none.mp hb a ha)
    | some b =>
      have hkey : key b = key a := by simpa using List.find?_some hb
      rw [Option.map_some, hsame b (List.mem_of_find?_eq_some hb) a ha hkey]
  have hread : ∀ m : List α, (∀ a ∈ m, a ∈ l) →
      (m.map g).map some = (m.map key).map fun k => (l.find? (key · = k)).map g := by
    intro m hm
    rw [List.map_map, List.map_map]
    exact List.map_congr_left fun a ha => (hfind a (hm a ha)).symm
  refine List.map_injective_iff.mpr (Option.some_injective γ) ?_
  rw [hread _ fun a ha => h.mem_iff.mp (mem_sortBy.mp ha), hread _ fun a ha => mem_sortBy.mp ha,
    map_key_sortBy_of_perm h]

section
variable {g' : α → γ}

/-- What two lists read alike they read alike key by key. -/
theorem map_filter_of_map_eq (hkey : ∀ a b, g a = g' b → key a = key b) (h : l.map g = l'.map g') (k : κ) :
    (l.filter (key · = k)).map g = (l'.filter (key · = k)).map g' := by
  induction l generalizing l' with
  | nil =>
    obtain rfl : l' = [] := List.map_eq_nil_iff.mp h.symm
    rfl
  | cons a l ih =>
    cases l' with
    | nil => cases h
    | cons b l' =>
      obtain ⟨hab, hrest⟩ := List.cons.inj h
      rw [List.filter_cons, List.filter_cons, hkey a b hab]
      split
      · rw [List.map_cons, List.map_cons, hab, ih hrest]
      · exact ih hrest

/-- Lists with the keys in the same places read alike if they do so key by key. -/
theorem map_eq_of_map_filter (hkeys : l.map key = l'.map key)
    (h : ∀ k, (l.filter (key · = k)).map g = (l'.filter (key · = k)).map g') : l.map g = l'.map g' := by
  induction l generalizing l' with
  | nil =>
    obtain rfl : l' = [] := List.map_eq_nil_iff.mp hkeys.symm
    rfl
  | cons a l ih =>
    cases l' with
    | nil => cases hkeys
    | cons b l' =>
      obtain ⟨hab, hrest⟩ := List.cons.inj hkeys
      have hread : g a = g' b ∧ (l.filter (key · = key a)).map g = (l'.filter (key · = key a)).map g' := by
        have hhead := h (key a)
        rw [List.filter_cons_of_pos (by simp), List.filter_cons_of_pos (by simpa using hab.symm)] at hhead
        exact List.cons.inj hhead
      rw [List.map_cons, List.map_cons, hread.1, ih hrest fun k => ?_]
      by_cases hk : k = key a
      · subst hk
        exact hread.2
      · have htail := h k
        rwa [List.filter_cons_of_neg (by simpa using Ne.symm hk),
          List.filter_cons_of_neg (by simpa using fun hb : key b = k => hk (hb.symm.trans hab.symm))] at htail

/-- Sorted lists read alike exactly if the lists do so key by key. -/
theorem map_sortBy_eq_iff (hkey : ∀ a b, g a = g' b → key a = key b) :
    (sortBy key l).map g = (sortBy key l').map g' ↔
      ∀ k, (l.filter (key · = k)).map g = (l'.filter (key · = k)).map g' := by
  constructor
  · intro h k
    have hfilter := map_filter_of_map_eq hkey h k
    rwa [filter_sortBy, filter_sortBy] at hfilter
  · intro h
    have hcount : ∀ (m : List α) k, (m.map key).count k = (m.filter (key · = k)).length := by
      intro m k
      rw [List.count, List.countP_map, List.countP_eq_length_filter]
      exact congrArg List.length (List.filter_congr fun a _ => beq_eq_decide _ _)
    have hperm : (l.map key).Perm (l'.map key) := by
      refine List.perm_iff_count.mpr fun k => ?_
      rw [hcount, hcount, ← List.length_map g, h k, List.length_map]
    have hsorted : ∀ m : List α, ((sortBy key m).map key).Pairwise (· ≤ ·) :=
      fun m => List.pairwise_map.mpr pairwise_sortBy
    have hkeys : (sortBy key l).map key = (sortBy key l').map key :=
      (((sortBy_perm.map key).trans hperm).trans (sortBy_perm.map key).symm).eq_of_pairwise'
        (hsorted l) (hsorted l')
    refine map_eq_of_map_filter hkeys fun k => ?_
    rw [filter_sortBy, filter_sortBy]
    exact h k

end

/-- Two elements can be put in front. -/
theorem exists_perm_cons_cons (ha : a ∈ l) (hb : b ∈ l) (hne : a ≠ b) : ∃ rest, l.Perm (a :: b :: rest) := by
  obtain ⟨front, back, rfl⟩ := List.append_of_mem ha
  have hb : b ∈ front ++ back := by
    simpa [hne.symm] using hb
  obtain ⟨front', back', hsplit⟩ := List.append_of_mem hb
  refine ⟨front' ++ back', List.perm_middle.trans (.cons a ?_)⟩
  rw [hsplit]
  exact List.perm_middle

/-- Where the key can be read off too. -/
theorem sortBy_order_free_iff (hkey : ∀ a b, g a = g b → key a = key b) :
    (∀ l', l'.Perm l → (sortBy key l').map g = (sortBy key l).map g) ↔
      ∀ a ∈ l, ∀ b ∈ l, key a = key b → g a = g b := by
  refine ⟨fun h a ha b hb hab => ?_, fun h l' => map_sortBy_of_perm h⟩
  by_contra hne
  obtain ⟨rest, hperm⟩ := exists_perm_cons_cons ha hb fun heq => hne (congrArg g heq)
  have hswap := (h _ hperm.symm).trans (h _ ((List.Perm.swap a b rest).trans hperm.symm)).symm
  -- the first of the key is `a` on the one side and `b` on the other
  classical
  have hfilter : ∀ m : List α, ((sortBy key m).map g).filter (fun c => ∃ d, g d = c ∧ key d = key a) =
      (m.filter (key · = key a)).map g := by
    intro m
    rw [List.filter_map, ← filter_sortBy]
    refine congrArg _ (List.filter_congr fun d _ => decide_eq_decide.mpr ⟨?_, fun hd => ⟨d, rfl, hd⟩⟩)
    rintro ⟨d', hd', hka⟩
    exact (hkey d d' hd'.symm).trans hka
  have hheads := (hfilter _).symm.trans ((congrArg _ hswap).trans (hfilter _))
  have hfirst : ∀ d (m : List α), key d = key a →
      ((d :: m).filter (key · = key a)).map g = g d :: (m.filter (key · = key a)).map g := by
    intro d m hd
    simp [hd]
  exact hne (List.cons.inj ((hfirst a _ rfl).symm.trans (hheads.trans (hfirst b _ hab.symm)))).1

end

end Intelliqx
