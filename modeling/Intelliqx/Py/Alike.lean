import Intelliqx.Py.Regex
import Mathlib.Data.List.Forall2

/-!
# Texts a pattern cannot tell apart

Two texts are alike when their characters are related one by one, up to a
character that stops both. A pattern that is blind to the relation and takes no
character that stops has related matches in both (`run_alike`), so what it does
with a text is known from one text like it.
-/

namespace Intelliqx.Py.Regex

/-- Related one by one, to the end or up to a character that stops both. -/
inductive Alike (R : Char → Char → Prop) (stop : Char → Prop) : List Char → List Char → Prop
  | nil : Alike R stop [] []
  | cons {c d : Char} {cs ds : List Char} : R c d → Alike R stop cs ds → Alike R stop (c :: cs) (d :: ds)
  | stop {c : Char} (cs ds : List Char) : stop c → Alike R stop (c :: cs) (c :: ds)

/-- No part of the pattern tells related characters apart, and none takes a
character that stops. Lazy repetitions are left out. -/
def Blind (R : Char → Char → Prop) (stop : Char → Prop) : Regex → Prop
  | .eps | .textStart => True
  | .set p => (∀ c d, R c d → p c = p d) ∧ ∀ c, stop c → p c = false
  | .lineStart | .lineEnd => ∀ c d, R c d → (c = '\n' ↔ d = '\n')
  | .boundary isWord => ∀ c d, R c d → isWord c = isWord d
  | .seq r s | .alt r s => r.Blind R stop ∧ s.Blind R stop
  | .upTo _ r | .star r | .group _ r => r.Blind R stop
  | .lazyStar _ => False

structure MatchAlike (R : Char → Char → Prop) (stop : Char → Prop) (m m' : Match) : Prop where
  text : List.Forall₂ R m.text m'.text
  rest : Alike R stop m.rest m'.rest
  groups : m.groups.map Prod.fst = m'.groups.map Prod.fst

def StepAlike (R : Char → Char → Prop) (stop : Char → Prop) (step step' : Step) : Prop :=
  ∀ before before' text text', Option.Rel R before before' → Alike R stop text text' →
    List.Forall₂ (MatchAlike R stop) (step before text) (step' before' text')

section
variable {R : Char → Char → Prop} {stop : Char → Prop} {before before' : Option Char}
  {text text' w w' : List Char} {m m' : Match} {ms ms' : List Match} {step step' more more' : Step} {r : Regex}

theorem alike_append {c : Char} (h : List.Forall₂ R w w') (hc : stop c) (rest rest' : List Char) :
    Alike R stop (w ++ c :: rest) (w' ++ c :: rest') := by
  induction h with
  | nil => exact .stop rest rest' hc
  | cons hd _ ih => exact .cons hd ih

theorem matchAlike_empty (h : Alike R stop text text') : MatchAlike R stop (.empty text) (.empty text') :=
  ⟨.nil, h, rfl⟩

theorem lastOf_alike (hbefore : Option.Rel R before before') (h : List.Forall₂ R w w') :
    Option.Rel R (lastOf before w) (lastOf before' w') := by
  induction h generalizing before before' with
  | nil => exact hbefore
  | cons hc _ ih =>
    rw [lastOf_cons, lastOf_cons]
    exact ih (.some hc)

theorem bind_alike (hbefore : Option.Rel R before before') (hms : List.Forall₂ (MatchAlike R stop) ms ms')
    (hmore : StepAlike R stop more more') : List.Forall₂ (MatchAlike R stop)
      (ms.flatMap fun m => m.andThen (more (lastOf before m.text) m.rest))
      (ms'.flatMap fun m => m.andThen (more' (lastOf before' m.text) m.rest)) := by
  refine List.rel_flatMap hms fun m m' hm => ?_
  refine List.rel_map ?_ (hmore _ _ _ _ (lastOf_alike hbefore hm.text) hm.rest)
  intro next next' hnext
  refine ⟨List.rel_append hm.text hnext.text, hnext.rest, ?_⟩
  rw [List.map_append, List.map_append, hnext.groups, hm.groups]

theorem rounds_alike (hstep : StepAlike R stop step step') (hmore : StepAlike R stop more more') :
    StepAlike R stop (rounds step more) (rounds step' more') := by
  intro before before' text text' hbefore htext
  refine bind_alike hbefore (List.rel_filter ?_ (hstep _ _ _ _ hbefore htext)) hmore
  intro m m' hm
  have hnil : m.text = [] ↔ m'.text = [] := by
    rw [← List.length_eq_zero_iff, ← List.length_eq_zero_iff, hm.text.length_eq]
  simp only [decide_eq_true_eq, ne_eq, hnil]

theorem greedy_alike (hstep : StepAlike R stop step step') (n : Nat) :
    StepAlike R stop (greedy step n) (greedy step' n) := by
  induction n with
  | zero => exact fun _ _ _ _ _ h => .cons (matchAlike_empty h) .nil
  | succ n ih => exact fun before before' text text' hbefore h =>
      List.rel_append (rounds_alike hstep ih before before' text text' hbefore h) (.cons (matchAlike_empty h) .nil)

theorem assertion_alike {holds holds' : Bool} (hholds : holds = holds') (h : Alike R stop text text') :
    List.Forall₂ (MatchAlike R stop) (assertion holds text) (assertion holds' text') := by
  subst hholds
  cases holds with
  | false => exact .nil
  | true => exact .cons (matchAlike_empty h) .nil

/-- More rounds than the text has characters are not made. -/
theorem greedy_of_le (hstep : Splits step) {n : Nat} (h : text.length ≤ n) :
    greedy step n before text = greedy step text.length before text := by
  induction n using Nat.strong_induction_on generalizing before text with
  | _ n ih =>
    cases hn : text.length with
    | zero =>
      obtain rfl := List.length_eq_zero_iff.mp hn
      cases n with
      | zero => rfl
      | succ n =>
        have hnone : (step before []).filter (fun m => m.text ≠ []) = [] := by
          refine List.filter_eq_nil_iff.mpr fun m hm => ?_
          simpa using (List.append_eq_nil_iff.mp (hstep before [] m hm)).1
        simp only [greedy, rounds, hnone]
        rfl
    | succ k =>
      obtain ⟨n, rfl⟩ := Nat.exists_eq_succ_of_ne_zero (show n ≠ 0 by omega)
      simp only [greedy, rounds]
      congr 1
      refine List.flatMap_congr fun m hm => ?_
      obtain ⟨hmem, hne⟩ := List.mem_filter.mp hm
      have hlen := congrArg List.length (hstep before text m hmem)
      have hpos := List.length_pos_of_ne_nil (of_decide_eq_true hne)
      rw [List.length_append] at hlen
      rw [ih n (by omega) (by omega), ih k (by omega) (by omega)]

/-- A pattern that is blind to a relation has related matches in texts that are alike. -/
theorem run_alike (h : r.Blind R stop) : StepAlike R stop r.run r.run := by
  induction r with
  | eps => exact fun _ _ _ _ _ h => .cons (matchAlike_empty h) .nil
  | set p =>
    intro before before' text text' _ htext
    cases htext with
    | nil => exact .nil
    | cons hc hrest =>
      simp only [run, h.1 _ _ hc]
      split
      · exact .cons ⟨.cons hc .nil, hrest, rfl⟩ .nil
      · exact .nil
    | stop cs ds hstop =>
      simp only [run, h.2 _ hstop]
      exact .nil
  | lineStart =>
    intro before before' text text' hbefore htext
    refine assertion_alike ?_ htext
    cases hbefore with
    | none => rfl
    | some hc => simp [h _ _ hc]
  | lineEnd =>
    intro before before' text text' _ htext
    refine assertion_alike ?_ htext
    cases htext with
    | nil => rfl
    | cons hc _ => simp [h _ _ hc]
    | stop => simp
  | textStart =>
    intro before before' text text' hbefore htext
    refine assertion_alike ?_ htext
    cases hbefore with
    | none => rfl
    | some => rfl
  | boundary isWord =>
    intro before before' text text' hbefore htext
    refine assertion_alike ?_ htext
    have hleft : before.any isWord = before'.any isWord := by
      cases hbefore with
      | none => rfl
      | some hc => exact h _ _ hc
    have hright : text.head?.any isWord = text'.head?.any isWord := by
      cases htext with
      | nil => rfl
      | cons hc _ => exact h _ _ hc
      | stop => rfl
    rw [hleft, hright]
  | seq r s ihr ihs =>
    intro before before' text text' hbefore htext
    exact bind_alike hbefore (ihr h.1 before before' text text' hbefore htext) (ihs h.2)
  | alt r s ihr ihs =>
    intro before before' text text' hbefore htext
    exact List.rel_append (ihr h.1 _ _ _ _ hbefore htext) (ihs h.2 _ _ _ _ hbefore htext)
  | upTo n r ih => exact greedy_alike (ih h) n
  | star r ih =>
    intro before before' text text' hbefore htext
    simp only [run]
    rw [← greedy_of_le (splits_run r) (Nat.le_max_left text.length text'.length),
      ← greedy_of_le (splits_run r) (Nat.le_max_right text.length text'.length)]
    exact greedy_alike (ih h) _ before before' text text' hbefore htext
  | lazyStar r => cases h
  | group name r ih =>
    intro before before' text text' hbefore htext
    refine List.rel_map ?_ (ih h before before' text text' hbefore htext)
    exact fun m m' hm => ⟨hm.text, hm.rest, congrArg (name :: ·) hm.groups⟩

/-- What a pattern takes of a text up to a character that stops, it takes of every text like it. -/
theorem run_eq_of_alike {c : Char} {rest : List Char} (hr : r.Blind R stop) (hc : stop c)
    (h : List.Forall₂ R w w') (hbefore : Option.Rel R before before)
    (hrun : run r before (w' ++ [c]) = [⟨w', [c], []⟩]) : run r before (w ++ c :: rest) = [⟨w, c :: rest, []⟩] := by
  have halike := run_alike hr before before _ _ hbefore (alike_append h hc rest [])
  rw [hrun, List.forall₂_cons_right_iff] at halike
  obtain ⟨⟨u, rest', groups⟩, ms, hm, hms, heq⟩ := halike
  have hmem : ⟨u, rest', groups⟩ ∈ run r before (w ++ c :: rest) := heq ▸ List.mem_cons_self
  have hlen : u.length = w.length := hm.text.length_eq.trans h.length_eq.symm
  obtain ⟨rfl, rfl⟩ := List.append_inj (splits_run r before _ _ hmem) hlen
  obtain rfl := List.map_eq_nil_iff.mp hm.groups
  rw [heq, List.forall₂_nil_right_iff.mp hms]

end

end Intelliqx.Py.Regex
