import Intelliqx.Base.Bidirectional
import Mathlib.Data.List.MinMax
import Mathlib.Data.List.Perm.Subperm

/-!
# Steps of a bidirectional search

An expansion leaves the walks to settled nodes as they are. No node is settled
from both ends before the search ends, and none twice from one, so the nodes
run out: a search that comes to no contradiction may settle, from one end
alone, all that it can reach from there (`exists_closed`).
-/

namespace Intelliqx.Bidirectional

open Weighted

variable {κ : Type u} {α : Type v}

def nodes (edges : List ((κ × κ) × α)) (s t : κ) : List κ := s :: t :: edges.map (·.1.1) ++ edges.map (·.1.2)

/-- No node is settled twice. -/
structure Tidy (S : Search κ α) : Prop where
  nodup : ∀ dir, (S.side dir).settled.Nodup
  disjoint : ∀ v, v ∈ (S.side .forward).settled → v ∉ (S.side .backward).settled

section
variable {S : Search κ α} {v : κ} {dir : Dir}

theorem Tidy.settle (h : Tidy S) (hv : v ∉ (S.side dir).settled) (hother : v ∉ (S.side dir.other).settled) :
    Tidy (S.settle dir v) where
  nodup dir' := by
    by_cases hdir : dir' = dir
    · subst hdir
      rw [side_settle_self]
      exact List.nodup_cons.mpr ⟨hv, h.nodup dir'⟩
    · rw [side_settle_of_ne hdir]
      exact h.nodup dir'
  disjoint x hforward hbackward := by
    cases dir with
    | forward =>
      rw [side_settle_self] at hforward
      rw [side_settle_of_ne (by decide)] at hbackward
      rcases List.mem_cons.mp hforward with rfl | hforward
      · exact hother hbackward
      · exact h.disjoint x hforward hbackward
    | backward =>
      rw [side_settle_of_ne (by decide)] at hforward
      rw [side_settle_self] at hbackward
      rcases List.mem_cons.mp hbackward with rfl | hbackward
      · exact hother hforward
      · exact h.disjoint x hforward hbackward

def count (S : Search κ α) : Nat := (S.side .forward).settled.length + (S.side .backward).settled.length

theorem count_settle : count (S.settle dir v) = count S + 1 := by
  cases dir with
  | forward =>
    rw [count, side_settle_self, side_settle_of_ne (by decide), count, List.length_cons]
    omega
  | backward =>
    rw [count, side_settle_self, side_settle_of_ne (by decide), count, List.length_cons]
    omega

end

theorem tidy_start [DecidableEq κ] [AddMonoid α] (s t : κ) : Tidy (start s t : Search κ α) where
  nodup dir := by cases dir <;> exact List.nodup_nil
  disjoint _ h := nomatch h

theorem exists_next [DecidableEq κ] [LinearOrder α] {S : Search κ α} {dir : Dir} {w : κ} {l : α × List κ}
    (hl : (S.side dir).seen.get? w = some l) (hunsettled : w ∉ (S.side dir).settled) :
    ∃ v label, Next S dir v label := by
  have hmem {w : κ} {l : α × List κ} (hl : (S.side dir).seen.get? w = some l) (hw : w ∉ (S.side dir).settled) :
      (w, l) ∈ (S.side dir).seen.entries.filter fun e => e.1 ∉ (S.side dir).settled :=
    List.mem_filter.mpr ⟨Dict.get?_eq_some_iff.mp hl, decide_eq_true hw⟩
  cases hmin : ((S.side dir).seen.entries.filter fun e => e.1 ∉ (S.side dir).settled).argmin fun e => e.2.1 with
  | none =>
    have hnil := List.argmin_eq_none.mp hmin
    have hwl := hmem hl hunsettled
    rw [hnil] at hwl
    cases hwl
  | some e =>
    obtain ⟨he, hesettled⟩ := List.mem_filter.mp (List.argmin_mem hmin)
    exact ⟨e.1, e.2, Dict.get?_eq_some_iff.mpr he, of_decide_eq_true hesettled,
      fun w l hl hw => List.le_of_mem_argmin (f := fun e => e.2.1) (hmem hl hw) hmin⟩

section
variable [DecidableEq κ] [Add α] {edges : List ((κ × κ) × α)} {v : κ} {S S' : Search κ α} {dir : Dir}
  {label : α × List κ}

/-- What an expansion can do. -/
structure Expansion (edges : List ((κ × κ) × α)) (dir : Dir) (v : κ) (label : α × List κ) (S S' : Search κ α) :
    Prop where
  settled : ∀ dir', (S'.side dir').settled = (S.side dir').settled
  other : ∀ dir', dir' ≠ dir → (S'.side dir').seen = (S.side dir').seen
  seen : ∀ w l, (S'.side dir).seen.get? w = some l → (S.side dir).seen.get? w = some l ∨
    ∃ c, ((v, w), c) ∈ oriented dir edges ∧ l = (label.1 + c, label.2 ++ [w])
  kept : ∀ w ∈ (S.side dir).settled, ∀ l, (S.side dir).seen.get? w = some l → (S'.side dir).seen.get? w = some l
  mono : ∀ w l, (S.side dir).seen.get? w = some l → ∃ l', (S'.side dir).seen.get? w = some l'

theorem Expansion.refl : Expansion edges dir v label S S :=
  ⟨fun _ => rfl, fun _ _ => rfl, fun _ _ => .inl, fun _ _ _ => id, fun _ l hl => ⟨l, hl⟩⟩

theorem Expansion.trans {S₁ : Search κ α} (h : Expansion edges dir v label S S₁)
    (h' : Expansion edges dir v label S₁ S') : Expansion edges dir v label S S' where
  settled dir' := (h'.settled dir').trans (h.settled dir')
  other dir' hdir := (h'.other dir' hdir).trans (h.other dir' hdir)
  seen w l hl := (h'.seen w l hl).elim (h.seen w l) .inr
  kept w hw l hl := h'.kept w (h.settled dir ▸ hw) l (h.kept w hw l hl)
  mono w l hl := by
    obtain ⟨l₁, hl₁⟩ := h.mono w l hl
    exact h'.mono w l₁ hl₁

theorem Expansion.side_of_ne {dir' : Dir} (h : Expansion edges dir v label S S') (hdir : dir' ≠ dir) :
    S'.side dir' = S.side dir' := by
  have hsettled := h.settled dir'
  have hseen := h.other dir' hdir
  cases hS : S.side dir' with
  | mk settled seen =>
    cases hS' : S'.side dir' with
    | mk settled' seen' =>
      rw [hS, hS'] at hsettled hseen
      cases hsettled
      cases hseen
      rfl

theorem Expansion.known (h : Expansion edges dir v label S S')
    (hknown : ∀ w ∈ (S.side dir).settled, ∃ l, (S.side dir).seen.get? w = some l) :
    ∀ w ∈ (S'.side dir).settled, ∃ l, (S'.side dir).seen.get? w = some l := by
  intro w hw
  obtain ⟨l, hl⟩ := hknown w (h.settled dir ▸ hw)
  exact h.mono w l hl

end

section
variable [DecidableEq κ] [AddCommMonoid α] [LinearOrder α] {edges : List ((κ × κ) × α)} {s t v w : κ}
  {S S' : Search κ α} {dir dir' : Dir} {label : α × List κ}

theorem expansion_of_relax {e : κ × α} (he : ((v, e.1), e.2) ∈ oriented dir edges)
    (h : relax dir label S e = some S') (hknown : ∀ w ∈ (S.side dir).settled, ∃ l, (S.side dir).seen.get? w = some l) :
    Expansion edges dir v label S S' := by
  rcases relax_cases h with ⟨rfl, hless⟩ | ⟨rfl, -⟩
  · have hunsettled : e.1 ∉ (S.side dir).settled := fun hmem => by
      obtain ⟨l, hl⟩ := hknown e.1 hmem
      exact (hless l hl).2 hmem
    constructor
    case settled => exact fun dir' => by rw [side_meet, settled_see]
    case other => exact fun dir' hdir => by rw [side_meet, side_see_of_ne hdir]
    all_goals rw [side_meet, side_see_self]
    case seen =>
      intro w l hl
      rw [Dict.get?_insert] at hl
      split at hl
      · rename_i hw
        cases hl
        exact .inr ⟨e.2, hw ▸ he, by rw [hw]⟩
      · exact .inl hl
    case kept =>
      intro w hw l hl
      have hne : w ≠ e.1 := fun hwe => hunsettled (hwe ▸ hw)
      exact (Dict.get?_insert_ne hne).trans hl
    case mono =>
      intro w l hl
      by_cases hw : w = e.1
      · subst hw
        exact ⟨_, Dict.get?_insert_self⟩
      · exact ⟨l, (Dict.get?_insert_ne hw).trans hl⟩
  · exact .refl

theorem expansion_of_relaxAll {rest : List (κ × α)} (hedges : ∀ e ∈ rest, ((v, e.1), e.2) ∈ oriented dir edges)
    (h : rest.foldlM (relax dir label) S = some S')
    (hknown : ∀ w ∈ (S.side dir).settled, ∃ l, (S.side dir).seen.get? w = some l) :
    Expansion edges dir v label S S' := by
  induction rest generalizing S with
  | nil =>
    cases h
    exact .refl
  | cons e rest ih =>
    rw [List.foldlM_cons] at h
    obtain ⟨S₁, hS₁, h⟩ := Option.bind_eq_some_iff.mp h
    obtain ⟨he, hrest⟩ := List.forall_mem_cons.mp hedges
    have hfirst := expansion_of_relax he hS₁ hknown
    exact hfirst.trans (ih hrest h (hfirst.known hknown))

/-- A contradiction is a lesser distance to a settled node. -/
theorem exists_lesser {rest : List (κ × α)} (hedges : ∀ e ∈ rest, ((v, e.1), e.2) ∈ oriented dir edges)
    (h : rest.foldlM (relax dir label) S = none)
    (hknown : ∀ w ∈ (S.side dir).settled, ∃ l, (S.side dir).seen.get? w = some l) :
    ∃ e ∈ rest, e.1 ∈ (S.side dir).settled ∧ ∃ old, (S.side dir).seen.get? e.1 = some old ∧ label.1 + e.2 < old.1 := by
  induction rest generalizing S with
  | nil => cases h
  | cons e rest ih =>
    obtain ⟨he, hrest⟩ := List.forall_mem_cons.mp hedges
    rw [List.foldlM_cons] at h
    cases hS₁ : relax dir label S e with
    | none =>
      refine ⟨e, .head _, ?_⟩
      unfold relax at hS₁
      simp only at hS₁
      split at hS₁
      · cases hS₁
      · rename_i old hold
        split at hS₁
        · rename_i hless
          split at hS₁
          · rename_i hsettled
            exact ⟨hsettled, old, hold, hless⟩
          · cases hS₁
        · cases hS₁
    | some S₁ =>
      rw [hS₁] at h
      have hexpansion := expansion_of_relax he hS₁ hknown
      obtain ⟨e', he', hsettled, old, hold, hless⟩ := ih hrest h (hexpansion.known hknown)
      rw [hexpansion.settled] at hsettled
      obtain ⟨old', hold'⟩ := hknown e'.1 hsettled
      obtain rfl := Option.some.inj ((hexpansion.kept e'.1 hsettled old' hold').symm.trans hold)
      exact ⟨e', .tail _ he', hsettled, old', hold', hless⟩

theorem expansion_of_expand (hinv : Inv edges s t idle S) (hnext : Next S dir v label)
    (h : expand edges dir v label S = some S') : Expansion edges dir v label (S.settle dir v) S' :=
  expansion_of_relaxAll (fun _ he => mem_neighbors.mp he) h ((hinv.settle hnext).1.ok dir).known

theorem Step.tidy (hinv : Inv edges s t idle S) (h : Tidy S) (hstep : Step edges S S') :
    Tidy S' ∧ count S' = count S + 1 := by
  obtain ⟨hnext, hother, hexpand⟩ := hstep
  have hsettle := h.settle hnext.unsettled hother
  have hsettled := (expansion_of_expand hinv hnext hexpand).settled
  refine ⟨⟨fun dir' => hsettled dir' ▸ hsettle.nodup dir', ?_⟩, ?_⟩
  · rw [hsettled .forward, hsettled .backward]
    exact hsettle.disjoint
  · rw [count, hsettled .forward, hsettled .backward]
    exact count_settle

theorem mem_nodes_of_seen (h : Inv edges s t idle S) (hw : (S.side dir).seen.get? w = some label) :
    w ∈ nodes edges s t := by
  obtain ⟨front, -, hwalk, -⟩ := (h.ok dir).label w label hw
  have hlast : ∀ {edges' : List ((κ × κ) × α)} {x y : κ} {p : List κ} {d : α}, Walk edges' x y p d →
      y = x ∨ y ∈ edges'.map (·.1.2) := by
    intro edges' x y p d hwalk
    induction hwalk with
    | single => exact .inl rfl
    | cons he _ ih =>
      rcases ih with rfl | ih
      · exact .inr (List.mem_map.mpr ⟨_, he, rfl⟩)
      · exact .inr ih
  simp only [nodes, List.cons_append, List.mem_cons, List.mem_append]
  cases dir with
  | forward =>
    rcases hlast hwalk with hw | hw
    · exact .inl hw
    · exact .inr (.inr (.inr hw))
  | backward =>
    rcases hlast hwalk with hw | hw
    · exact .inr (.inl hw)
    · rw [oriented, reversed, List.map_map] at hw
      exact .inr (.inr (.inl hw))

theorem count_le (h : Inv edges s t idle S) (htidy : Tidy S) : count S ≤ 2 * (nodes edges s t).length := by
  have hside (dir : Dir) : (S.side dir).settled.length ≤ (nodes edges s t).length := by
    refine (List.subperm_of_subset (htidy.nodup dir) fun w hw => ?_).length_le
    obtain ⟨label, hlabel⟩ := (h.ok dir).known w hw
    exact mem_nodes_of_seen h hlabel
  have hforward := hside .forward
  have hbackward := hside .backward
  rw [count]
  omega

theorem tidy_of_run (h : Relation.ReflTransGen (Step edges) (start s t) S) : Tidy S := by
  induction h with
  | refl => exact tidy_start s t
  | tail hrun hstep ih => exact (hstep.tidy (inv_of_run hrun) ih).1

-- ---------------------------------------------------------------------------
-- Searches from one end
-- ---------------------------------------------------------------------------

/-- No search comes to a contradiction. -/
def Consistent (edges : List ((κ × κ) × α)) (s t : κ) : Prop :=
  ∀ S ending, Finishes edges s t S ending → ending ≠ .contradictory

/-- A search that has settled nodes from one end only. -/
structure Lone (edges : List ((κ × κ) × α)) (s t : κ) (dir : Dir) (S : Search κ α) : Prop where
  run : Relation.ReflTransGen (Step edges) (start s t) S
  alone : (S.side dir.other).settled = []

theorem lone_start (edges : List ((κ × κ) × α)) (s t : κ) (dir : Dir) : Lone edges s t dir (start s t) :=
  ⟨.refl, by cases dir <;> rfl⟩

theorem other_ne (dir : Dir) : dir.other ≠ dir := by cases dir <;> decide

/-- Without contradictions it can go on. -/
theorem Lone.exists_expand (h : Lone edges s t dir S) (hst : s ≠ t) (hfree : Consistent edges s t)
    (hnext : Next S dir v label) :
    ∃ S', expand edges dir v label S = some S' ∧ Lone edges s t dir S' ∧ count S' = count S + 1 := by
  have hinv := inv_of_run h.run
  have hother : v ∉ (S.side dir.other).settled := by simp [h.alone]
  cases hexpand : expand edges dir v label S with
  | none => exact absurd rfl (hfree S _ (.searched hst h.run (.contradictory hnext hother hexpand)))
  | some S' =>
    have hstep : Step edges S S' := .mk hnext hother hexpand
    refine ⟨S', rfl, ⟨h.run.tail hstep, ?_⟩, (hstep.tidy hinv (tidy_of_run h.run)).2⟩
    rw [(expansion_of_expand hinv hnext hexpand).settled, side_settle_of_ne (other_ne dir), h.alone]

/-- Such a search cannot go on for ever. -/
@[elab_as_elim]
theorem Lone.induction {motive : Search κ α → Prop} (h : Lone edges s t dir S)
    (hstep : ∀ S, Lone edges s t dir S →
      (∀ S', Lone edges s t dir S' → count S' = count S + 1 → motive S') → motive S) : motive S := by
  obtain ⟨n, hn⟩ : ∃ n, 2 * (nodes edges s t).length < count S + n := ⟨2 * (nodes edges s t).length + 1, by omega⟩
  induction n generalizing S with
  | zero =>
    have hle := count_le (inv_of_run h.run) (tidy_of_run h.run)
    omega
  | succ n ih => exact hstep S h fun S' h' hcount => ih h' (by omega)

/-- It settles all that it sees in the end, and leaves settled nodes as they are. -/
theorem Lone.exists_closed (h : Lone edges s t dir S) (hst : s ≠ t) (hfree : Consistent edges s t) :
    ∃ S', Lone edges s t dir S' ∧ (∀ w l, (S'.side dir).seen.get? w = some l → w ∈ (S'.side dir).settled) ∧
      ∀ w ∈ (S.side dir).settled, ∀ l, (S.side dir).seen.get? w = some l → (S'.side dir).seen.get? w = some l := by
  refine h.induction fun S h ih => ?_
  by_cases hall : ∀ w l, (S.side dir).seen.get? w = some l → w ∈ (S.side dir).settled
  · exact ⟨S, h, hall, fun _ _ _ => id⟩
  · push Not at hall
    obtain ⟨w, l, hl, hunsettled⟩ := hall
    obtain ⟨v, label, hnext⟩ := exists_next hl hunsettled
    obtain ⟨S₁, hexpand, h₁, hcount⟩ := h.exists_expand hst hfree hnext
    obtain ⟨S', h', hclosed, hkept⟩ := ih S₁ h₁ hcount
    have hexpansion := expansion_of_expand (inv_of_run h.run) hnext hexpand
    refine ⟨S', h', hclosed, fun w hw l hl => hkept w ?_ l (hexpansion.kept w ?_ l ?_)⟩
    · rw [hexpansion.settled]
      exact settled_subset_settle hw
    · exact settled_subset_settle hw
    · rwa [seen_settle]

end

end Intelliqx.Bidirectional
