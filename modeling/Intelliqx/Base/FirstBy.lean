import Mathlib.Data.List.Nodup

/-!
# The first item of each key

`firstBy key l` keeps the items of `l` whose key no earlier item has: what a
loop with a set of seen keys appends.
-/

namespace Intelliqx

variable {α : Type u} {κ : Type v} [DecidableEq κ]

def firstBy (key : α → κ) (l : List α) : List α := go [] l
where
  go (seen : List κ) : List α → List α
    | [] => []
    | a :: rest => if key a ∈ seen then go seen rest else a :: go (key a :: seen) rest

section
variable {key : α → κ} {seen : List κ} {l : List α} {a : α}

theorem firstBy_go_sublist : (firstBy.go key seen l).Sublist l := by
  induction l generalizing seen with
  | nil => exact .slnil
  | cons b rest ih =>
    unfold firstBy.go
    split
    · exact ih.cons b
    · exact ih.cons_cons b

theorem firstBy_sublist : (firstBy key l).Sublist l := firstBy_go_sublist

theorem mem_of_mem_firstBy (h : a ∈ firstBy key l) : a ∈ l := firstBy_sublist.subset h

theorem exists_mem_firstBy_go (key : α → κ) (h : a ∈ l) :
    key a ∈ seen ∨ ∃ b ∈ firstBy.go key seen l, key b = key a := by
  induction l generalizing seen with
  | nil => cases h
  | cons b rest ih =>
    unfold firstBy.go
    rcases List.mem_cons.mp h with rfl | h
    · split
      · exact .inl ‹_›
      · exact .inr ⟨a, List.mem_cons_self, rfl⟩
    · split
      · exact ih h
      · rcases ih h with hs | ⟨c, hc, hk⟩
        · rcases List.mem_cons.mp hs with hb | hs
          · exact .inr ⟨b, List.mem_cons_self, hb.symm⟩
          · exact .inl hs
        · exact .inr ⟨c, List.mem_cons_of_mem _ hc, hk⟩

theorem exists_mem_firstBy (key : α → κ) (h : a ∈ l) : ∃ b ∈ firstBy key l, key b = key a :=
  (exists_mem_firstBy_go key h).resolve_left List.not_mem_nil

theorem firstBy_go_fresh (h : a ∈ firstBy.go key seen l) : key a ∉ seen := by
  induction l generalizing seen with
  | nil => cases h
  | cons b rest ih =>
    unfold firstBy.go at h
    split at h
    · exact ih h
    · rcases List.mem_cons.mp h with rfl | h
      · assumption
      · exact fun hs => ih h (List.mem_cons_of_mem _ hs)

theorem nodup_firstBy_go : ((firstBy.go key seen l).map key).Nodup := by
  induction l generalizing seen with
  | nil => exact .nil
  | cons b rest ih =>
    unfold firstBy.go
    split
    · exact ih
    · refine List.nodup_cons.mpr ⟨?_, ih⟩
      intro hb
      obtain ⟨c, hc, hk⟩ := List.mem_map.mp hb
      exact firstBy_go_fresh hc (hk ▸ List.mem_cons_self)

theorem nodup_firstBy : ((firstBy key l).map key).Nodup := nodup_firstBy_go

theorem mem_map_firstBy {k : κ} : k ∈ (firstBy key l).map key ↔ ∃ a ∈ l, key a = k := by
  simp only [List.mem_map]
  constructor
  · rintro ⟨a, ha, rfl⟩
    exact ⟨a, mem_of_mem_firstBy ha, rfl⟩
  · rintro ⟨a, ha, rfl⟩
    exact exists_mem_firstBy key ha

theorem firstBy_go_congr {seen' : List κ} (h : ∀ a ∈ l, key a ∈ seen ↔ key a ∈ seen') :
    firstBy.go key seen l = firstBy.go key seen' l := by
  induction l generalizing seen seen' with
  | nil => rfl
  | cons b rest ih =>
    have hb := h b List.mem_cons_self
    have hrest : ∀ a ∈ rest, key a ∈ seen ↔ key a ∈ seen' := fun a ha => h a (List.mem_cons_of_mem _ ha)
    unfold firstBy.go
    by_cases hseen : key b ∈ seen
    · rw [if_pos hseen, if_pos (hb.mp hseen), ih hrest]
    · have hnext : ∀ a ∈ rest, key a ∈ key b :: seen ↔ key a ∈ key b :: seen' :=
        fun a ha => by simp [hrest a ha]
      rw [if_neg hseen, if_neg (hseen ∘ hb.mpr), ih hnext]

theorem firstBy_go_append {m : List α} :
    firstBy.go key seen (l ++ m) = firstBy.go key seen l ++ firstBy.go key (l.map key ++ seen) m := by
  induction l generalizing seen with
  | nil => rfl
  | cons b rest ih =>
    rw [List.cons_append, firstBy.go, firstBy.go]
    split
    · rename_i hb
      rw [ih]
      congr 1
      apply firstBy_go_congr
      intro a _
      simp only [List.mem_append, List.map_cons, List.mem_cons]
      constructor
      · exact fun h => h.elim (.inl ∘ .inr) .inr
      · rintro ((he | h) | h)
        · exact .inr (he ▸ hb)
        · exact .inl h
        · exact .inr h
    · rw [ih, List.cons_append]
      congr 2
      apply firstBy_go_congr
      intro a _
      simp only [List.mem_append, List.map_cons, List.mem_cons]
      exact ⟨fun h => h.elim (.inl ∘ .inr) fun h => h.elim (.inl ∘ .inl) .inr,
        fun h => h.elim (fun h => h.elim (.inr ∘ .inl) .inl) (.inr ∘ .inr)⟩

/-- Blocks that share no key are worked off one by one. -/
theorem firstBy_flatMap {f : β → List α} {bs : List β}
    (h : bs.Pairwise fun b b' => ∀ a ∈ f b, ∀ a' ∈ f b', key a ≠ key a') :
    firstBy key (bs.flatMap f) = bs.flatMap fun b => firstBy key (f b) := by
  induction bs with
  | nil => rfl
  | cons b bs ih =>
    obtain ⟨hb, hbs⟩ := List.pairwise_cons.mp h
    rw [List.flatMap_cons, List.flatMap_cons, ← ih hbs, firstBy, firstBy_go_append]
    congr 1
    apply firstBy_go_congr
    intro a ha
    obtain ⟨b', hb', ha⟩ := List.mem_flatMap.mp ha
    simp only [List.append_nil, List.mem_map, List.not_mem_nil, iff_false, not_exists, not_and]
    exact fun a' ha' => hb b' hb' a' ha' a ha

omit [DecidableEq κ] in
/-- A place in a longer list is one in the shorter list, or the last one. -/
theorem exists_split_concat {p : List α → α → Prop} :
    (∃ front a back, l ++ [b] = front ++ a :: back ∧ p front a) ↔
      (∃ front a back, l = front ++ a :: back ∧ p front a) ∨ p l b := by
  constructor
  · rintro ⟨front, a, back, hsplit, hp⟩
    rcases List.eq_nil_or_concat' back with rfl | ⟨back, c, rfl⟩
    · obtain ⟨rfl, hlast⟩ := List.append_inj' hsplit rfl
      obtain rfl := List.singleton_inj.mp hlast
      exact .inr hp
    · rw [← List.cons_append, ← List.append_assoc] at hsplit
      exact .inl ⟨front, a, back, (List.append_inj' hsplit rfl).1, hp⟩
  · rintro (⟨front, a, back, rfl, hp⟩ | hp)
    · exact ⟨front, a, back ++ [b], by simp, hp⟩
    · exact ⟨l, b, [], rfl, hp⟩

/-- A search finds the same in any order where all that it can find looks the same. -/
theorem map_find?_congr {l' : List α} {p p' : α → Bool} {f : α → β}
    (h : ∀ a, a ∈ l ∧ p a = true ↔ a ∈ l' ∧ p' a = true)
    (hf : ∀ a ∈ l, ∀ b ∈ l, p a = true → p b = true → f a = f b) :
    (l.find? p).map f = (l'.find? p').map f := by
  cases hl : l.find? p with
  | none =>
    have hnone : l'.find? p' = none := by
      rw [List.find?_eq_none]
      intro a ha hp
      obtain ⟨ha, hp⟩ := (h a).mpr ⟨ha, hp⟩
      exact List.find?_eq_none.mp hl a ha hp
    rw [hnone]
  | some a =>
    have ha := List.mem_of_find?_eq_some hl
    have hpa := List.find?_some hl
    cases hl' : l'.find? p' with
    | none =>
      obtain ⟨ha', hpa'⟩ := (h a).mp ⟨ha, hpa⟩
      exact absurd hpa' (List.find?_eq_none.mp hl' a ha')
    | some b =>
      obtain ⟨hb, hpb⟩ := (h b).mpr ⟨List.mem_of_find?_eq_some hl', List.find?_some hl'⟩
      exact congrArg some (hf a ha b hb hpa hpb)

theorem find?_eq_some_of_only {p : α → Bool} (ha : a ∈ l) (hp : p a) (honly : ∀ b ∈ l, p b → b = a) :
    l.find? p = some a := by
  cases hl : l.find? p with
  | none => exact absurd hp (List.find?_eq_none.mp hl a ha)
  | some b => rw [honly b (List.mem_of_find?_eq_some hl) (List.find?_some hl)]

/-- A key that no two members share finds its member. -/
theorem find?_key_iff {key : α → κ} (hn : (l.map key).Nodup) {k : κ} :
    l.find? (fun x => key x = k) = some a ↔ a ∈ l ∧ key a = k := by
  constructor
  · intro h
    exact ⟨List.mem_of_find?_eq_some h, by simpa using List.find?_some h⟩
  · rintro ⟨ha, rfl⟩
    exact find?_eq_some_of_only ha (by simp) fun b hb hkey =>
      List.inj_on_of_nodup_map hn hb ha (of_decide_eq_true hkey)

/-- What is found although it comes last is all that can be found. -/
theorem only_of_find?_last [DecidableEq α] {p : α → Bool} (hn : l.Nodup)
    (h : (l.erase a ++ [a]).find? p = some a) : p a ∧ ∀ b ∈ l, p b → b = a := by
  refine ⟨List.find?_some h, fun b hb hpb => ?_⟩
  by_contra hne
  rw [List.find?_append, Option.or_eq_some_iff] at h
  rcases h with h | ⟨h, -⟩
  · exact hn.not_mem_erase (List.mem_of_find?_eq_some h)
  · exact List.find?_eq_none.mp h b ((List.mem_erase_of_ne hne).mpr hb) hpb

/-- What a search from the back finds is related to what one from the front finds. -/
theorem rel_find?_reverse_iff {p : α → Bool} {R : α → α → Prop} (hrefl : ∀ a, R a a) :
    Option.Rel R (l.reverse.find? p) (l.find? p) ↔
      ∀ before a between b after, l = before ++ a :: (between ++ b :: after) → p a → p b →
        (∀ x ∈ before, ¬ p x) → (∀ x ∈ after, ¬ p x) → R b a := by
  constructor
  · rintro h before a between b after rfl ha hb hbefore hafter
    have hfirst : (before ++ a :: (between ++ b :: after)).find? p = some a :=
      List.find?_eq_some_iff_append.mpr ⟨ha, before, _, rfl, by simpa using hbefore⟩
    have hlast : (before ++ a :: (between ++ b :: after)).reverse.find? p = some b :=
      List.find?_eq_some_iff_append.mpr ⟨hb, after.reverse, between.reverse ++ a :: before.reverse, by simp,
        by simpa using hafter⟩
    rw [hfirst, hlast] at h
    cases h
    assumption
  · intro h
    cases hfirst : l.find? p with
    | none =>
      have hnone := List.find?_eq_none.mp hfirst
      rw [List.find?_eq_none.mpr fun x hx => hnone x (List.mem_reverse.mp hx)]
      exact .none
    | some a =>
      obtain ⟨ha, before, rest, rfl, hbefore⟩ := List.find?_eq_some_iff_append.mp hfirst
      rw [List.reverse_append, List.reverse_cons, List.append_assoc, List.find?_append]
      -- either something behind `a` matches too, or `a` is the last match
      cases hlast : rest.reverse.find? p with
      | none => simpa [ha] using hrefl a
      | some b =>
        obtain ⟨hb, after, between, hrest, hafter⟩ := List.find?_eq_some_iff_append.mp hlast
        have hrest : rest = between.reverse ++ b :: after.reverse := by
          rw [← List.reverse_reverse rest, hrest]
          simp
        subst hrest
        rw [Option.some_or]
        exact .some (h before a _ b _ rfl ha hb (by simpa using hbefore) (by simpa using hafter))

end

end Intelliqx
