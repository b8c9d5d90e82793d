import Intelliqx.Base.Dict
import Intelliqx.Base.Walk
import Mathlib.Algebra.Order.Monoid.Defs
import Mathlib.Data.List.Induction
import Mathlib.Logic.Function.Basic
import Mathlib.Logic.Relation

/-!
# Bidirectional search

Dijkstra's algorithm from both ends: either side settles a node of least
tentative distance and relaxes its edges, until a node is settled from both.
Nothing is assumed of the weights, so a settled node may turn out to be nearer,
which is a contradiction. The search finds a least walk exactly if it comes to
no contradiction and has settled such a walk, all but the node where its sides
meet (`finds_least_iff`).
-/

namespace Intelliqx.Bidirectional

open Weighted

variable {κ : Type u} {α : Type v}

-- ---------------------------------------------------------------------------
-- The search
-- ---------------------------------------------------------------------------

inductive Dir
  | forward
  | backward
  deriving DecidableEq, Repr

def Dir.other : Dir → Dir
  | .forward => .backward
  | .backward => .forward

/-- The edges as the side walks them. -/
def oriented : Dir → List ((κ × κ) × α) → List ((κ × κ) × α)
  | .forward, edges => edges
  | .backward, edges => reversed edges

/-- The nodes that are settled, and the walk to each node that is known. -/
structure Side (κ : Type u) (α : Type v) where
  settled : List κ := []
  seen : Dict κ (α × List κ)

/-- `best` is the least walk found from end to end. -/
structure Search (κ : Type u) (α : Type v) where
  side : Dir → Side κ α
  best : Option (α × List κ)

def Search.path (S : Search κ α) : List κ := (S.best.map Prod.snd).getD []

section
variable [DecidableEq κ] [Add α] [Zero α] [LinearOrder α]

def start (s t : κ) : Search κ α where
  side
    | .forward => { seen := Dict.empty.insert s (0, [s]) }
    | .backward => { seen := Dict.empty.insert t (0, [t]) }
  best := if s = t then some (0, [s]) else none

/-- Compare the walk through `w` with the best, if there is one. -/
def Search.meet (w : κ) (S : Search κ α) : Search κ α :=
  match (S.side .forward).seen.get? w, (S.side .backward).seen.get? w with
  | some (a, p), some (b, q) =>
    if ∀ l ∈ S.best, a + b < l.1 then { S with best := some (a + b, p ++ q.reverse.tail) } else S
  | _, _ => S

def Search.see (dir : Dir) (w : κ) (label : α × List κ) (S : Search κ α) : Search κ α :=
  { S with side := Function.update S.side dir { S.side dir with seen := (S.side dir).seen.insert w label } }

def Search.settle (dir : Dir) (v : κ) (S : Search κ α) : Search κ α :=
  { S with side := Function.update S.side dir { S.side dir with settled := v :: (S.side dir).settled } }

/-- Relax an edge from a node with this label; a settled node cannot get a lesser one. -/
def relax (dir : Dir) (label : α × List κ) (S : Search κ α) (e : κ × α) : Option (Search κ α) :=
  let improved := (S.see dir e.1 (label.1 + e.2, label.2 ++ [e.1])).meet e.1
  match (S.side dir).seen.get? e.1 with
  | none => some improved
  | some old =>
    if label.1 + e.2 < old.1 then if e.1 ∈ (S.side dir).settled then none else some improved
    else some S

def neighbors (edges : List ((κ × κ) × α)) (v : κ) : List (κ × α) :=
  edges.filterMap fun e => if e.1.1 = v then some (e.1.2, e.2) else none

def expand (edges : List ((κ × κ) × α)) (dir : Dir) (v : κ) (label : α × List κ) (S : Search κ α) :
    Option (Search κ α) :=
  (neighbors (oriented dir edges) v).foldlM (relax dir label) (S.settle dir v)

/-- The side may settle `v` next. -/
structure Next (S : Search κ α) (dir : Dir) (v : κ) (label : α × List κ) : Prop where
  seen : (S.side dir).seen.get? v = some label
  unsettled : v ∉ (S.side dir).settled
  least : ∀ w l, (S.side dir).seen.get? w = some l → w ∉ (S.side dir).settled → label.1 ≤ l.1

instance (S : Search κ α) (dir : Dir) (v : κ) (label : α × List κ) : Decidable (Next S dir v label) :=
  decidable_of_iff ((S.side dir).seen.get? v = some label ∧ v ∉ (S.side dir).settled ∧
      ∀ e ∈ (S.side dir).seen.entries, e.1 ∉ (S.side dir).settled → label.1 ≤ e.2.1)
    ⟨fun ⟨hseen, hunsettled, hleast⟩ =>
      ⟨hseen, hunsettled, fun w l hl => hleast (w, l) (Dict.get?_eq_some_iff.mp hl)⟩,
    fun h => ⟨h.seen, h.unsettled, fun e he => h.least e.1 e.2 (Dict.get?_eq_some_iff.mpr he)⟩⟩

inductive Step (edges : List ((κ × κ) × α)) : Search κ α → Search κ α → Prop
  | mk {S S' : Search κ α} (hnext : Next S dir v label) (hother : v ∉ (S.side dir.other).settled)
    (hexpand : expand edges dir v label S = some S') : Step edges S S'

inductive Ending
  | met
  | contradictory
  | exhausted
  deriving DecidableEq, Repr

inductive Ends (edges : List ((κ × κ) × α)) (S : Search κ α) : Ending → Prop
  | met (hnext : Next S dir v label) (hother : v ∈ (S.side dir.other).settled) : Ends edges S .met
  | contradictory (hnext : Next S dir v label) (hother : v ∉ (S.side dir.other).settled)
    (hexpand : expand edges dir v label S = none) : Ends edges S .contradictory
  | exhausted (hall : ∀ v ∈ (S.side dir).seen.keys, v ∈ (S.side dir).settled) (hbest : S.best = none) :
    Ends edges S .exhausted

/-- A search may go this way, and end so in the state `S`. From a node to itself there is nothing to do. -/
inductive Finishes (edges : List ((κ × κ) × α)) (s t : κ) : Search κ α → Ending → Prop
  | same (h : s = t) : Finishes edges s t (start s t) .met
  | searched (h : s ≠ t) (hrun : Relation.ReflTransGen (Step edges) (start s t) S) (hend : Ends edges S ending) :
    Finishes edges s t S ending

end

section
variable {S : Search κ α} {w : κ} {dir dir' : Dir}

theorem side_settle_self : (S.settle dir w).side dir = { S.side dir with settled := w :: (S.side dir).settled } :=
  Function.update_self ..

theorem side_settle_of_ne (h : dir' ≠ dir) : (S.settle dir w).side dir' = S.side dir' := Function.update_of_ne h ..

theorem seen_settle : ((S.settle dir w).side dir').seen = (S.side dir').seen := by
  by_cases h : dir' = dir
  · subst h
    rw [side_settle_self]
  · rw [side_settle_of_ne h]

theorem settled_subset_settle : (S.side dir').settled ⊆ ((S.settle dir w).side dir').settled := by
  by_cases h : dir' = dir
  · subst h
    rw [side_settle_self]
    exact List.subset_cons_self ..
  · rw [side_settle_of_ne h]
    exact List.Subset.refl _

end

section
variable [DecidableEq κ] {edges : List ((κ × κ) × α)} {S : Search κ α} {v w x : κ} {dir dir' : Dir}
  {l : α × List κ}

theorem mem_neighbors {e : κ × α} : e ∈ neighbors edges v ↔ ((v, e.1), e.2) ∈ edges := by
  simp only [neighbors, List.mem_filterMap, Option.ite_none_right_eq_some, Option.some.injEq]
  constructor
  · rintro ⟨⟨⟨x, y⟩, c⟩, he, rfl, rfl⟩
    exact he
  · exact fun he => ⟨_, he, rfl, rfl⟩

theorem side_see_self : (S.see dir w l).side dir = { S.side dir with seen := (S.side dir).seen.insert w l } :=
  Function.update_self ..

theorem side_see_of_ne (h : dir' ≠ dir) : (S.see dir w l).side dir' = S.side dir' := Function.update_of_ne h ..

theorem settled_see : ((S.see dir w l).side dir').settled = (S.side dir').settled := by
  by_cases h : dir' = dir
  · subst h
    rw [side_see_self]
  · rw [side_see_of_ne h]

theorem get?_see_of_ne (h : x ≠ w) : ((S.see dir w l).side dir').seen.get? x = (S.side dir').seen.get? x := by
  by_cases hdir : dir' = dir
  · subst hdir
    rw [side_see_self]
    exact Dict.get?_insert_ne h
  · rw [side_see_of_ne hdir]

end

-- ---------------------------------------------------------------------------
-- What a search knows
-- ---------------------------------------------------------------------------

theorem get?_single [DecidableEq κ] [Zero α] {x y : κ} {l : α × List κ}
    (h : (Dict.empty.insert x (0, [x])).get? y = some l) : y = x ∧ l = (0, [x]) := by
  rw [Dict.get?_insert] at h
  split at h
  · rename_i hy
    exact ⟨hy, (Option.some.inj h).symm⟩
  · cases h

section
variable [DecidableEq κ] [AddCommMonoid α] [LinearOrder α]

/-- The edge is no shortcut to `w`. -/
def Relaxed (side : Side κ α) (u w : κ) (c : α) : Prop :=
  ∀ l, side.seen.get? u = some l → ∃ l', side.seen.get? w = some l' ∧ l'.1 ≤ l.1 + c

/-- The walk to a node leads over settled nodes. -/
structure SideOk (edges : List ((κ × κ) × α)) (root : κ) (side : Side κ α) : Prop where
  label : ∀ w l, side.seen.get? w = some l →
    ∃ front, l.2 = front ++ [w] ∧ Walk edges root w (front ++ [w]) l.1 ∧ front ⊆ side.settled
  root : ∃ l, side.seen.get? root = some l ∧ l.1 ≤ 0
  known : ∀ u ∈ side.settled, ∃ l, side.seen.get? u = some l

section
variable {edges : List ((κ × κ) × α)} {root u v w y : κ} {side : Side κ α} {label l : α × List κ} {c : α}
  {front : List κ} {d : α}

theorem SideOk.see (h : SideOk edges root side) (hsettled : w ∉ side.settled)
    (hwalk : ∃ front, l.2 = front ++ [w] ∧ Walk edges root w (front ++ [w]) l.1 ∧ front ⊆ side.settled)
    (hless : ∀ old, side.seen.get? w = some old → l.1 ≤ old.1) :
    SideOk edges root { side with seen := side.seen.insert w l } where
  label x l' hl' := by
    rw [Dict.get?_insert] at hl'
    split at hl'
    · rename_i hx
      cases hl'
      exact hx ▸ hwalk
    · exact h.label x l' hl'
  root := by
    obtain ⟨old, hold, hle⟩ := h.root
    by_cases hroot : root = w
    · subst hroot
      exact ⟨l, Dict.get?_insert_self, (hless old hold).trans hle⟩
    · exact ⟨old, (Dict.get?_insert_ne hroot).trans hold, hle⟩
  known u hu := by
    obtain ⟨lu, hlu⟩ := h.known u hu
    have hne : u ≠ w := fun he => hsettled (he ▸ hu)
    exact ⟨lu, (Dict.get?_insert_ne hne).trans hlu⟩

theorem SideOk.settle (h : SideOk edges root side) (hv : side.seen.get? v = some label) :
    SideOk edges root { side with settled := v :: side.settled } where
  label w l hl := by
    obtain ⟨front, hl₂, hwalk, hfront⟩ := h.label w l hl
    exact ⟨front, hl₂, hwalk, List.subset_cons_of_subset v hfront⟩
  root := h.root
  known u hu := by
    rcases List.mem_cons.mp hu with rfl | hu
    · exact ⟨label, hv⟩
    · exact h.known u hu

theorem Relaxed.see (h : Relaxed side u y c) (hne : u ≠ w)
    (hless : ∀ old, side.seen.get? w = some old → l.1 ≤ old.1) :
    Relaxed { side with seen := side.seen.insert w l } u y c := by
  intro lu hlu
  obtain ⟨ly, hly, hle⟩ := h lu ((Dict.get?_insert_ne hne).symm.trans hlu)
  by_cases hy : y = w
  · subst hy
    exact ⟨l, Dict.get?_insert_self, (hless ly hly).trans hle⟩
  · exact ⟨ly, (Dict.get?_insert_ne hy).trans hly, hle⟩

theorem SideOk.exists_label [IsOrderedAddMonoid α] (h : SideOk edges root side)
    (hrelaxed : ∀ u ∈ side.settled, ∀ w c, ((u, w), c) ∈ edges → Relaxed side u w c)
    (hwalk : Walk edges root w (front ++ [w]) d) (hfront : front ⊆ side.settled) :
    ∃ l, side.seen.get? w = some l ∧ l.1 ≤ d := by
  induction front using List.reverseRecOn generalizing w d with
  | nil =>
    obtain ⟨rfl, -, rfl⟩ := walk_singleton_iff.mp hwalk
    exact h.root
  | append_singleton front u ih =>
    obtain ⟨hfront, hu⟩ := List.append_subset.mp hfront
    rw [List.append_assoc] at hwalk
    obtain ⟨d₁, d₂, h₁, h₂, rfl⟩ := walk_append_iff.mp hwalk
    obtain ⟨-, y, c, d', he, hlast, rfl⟩ := (walk_cons_iff (List.cons_ne_nil w [])).mp h₂
    obtain ⟨rfl, -, rfl⟩ := walk_singleton_iff.mp hlast
    obtain ⟨lu, hlu, hle⟩ := ih h₁ hfront
    obtain ⟨l, hl, hstep⟩ := hrelaxed u (hu List.mem_cons_self) w c he lu hlu
    refine ⟨l, hl, hstep.trans ?_⟩
    rw [add_zero]
    exact add_le_add_left hle c

end

-- ---------------------------------------------------------------------------
-- Meeting
-- ---------------------------------------------------------------------------

section
variable {S : Search κ α} {w : κ} {l a b : α × List κ} {dir dir' : Dir}

theorem side_meet (w : κ) (S : Search κ α) : (S.meet w).side = S.side := by
  unfold Search.meet
  split
  · split <;> rfl
  · rfl

theorem best_meet (h : (S.meet w).best = some l) : S.best = some l ∨
    ∃ a b, (S.side .forward).seen.get? w = some a ∧ (S.side .backward).seen.get? w = some b ∧
      l = (a.1 + b.1, a.2 ++ b.2.reverse.tail) := by
  unfold Search.meet at h
  split at h
  · rename_i hforward hbackward
    split at h
    · exact .inr ⟨_, _, hforward, hbackward, (Option.some.inj h).symm⟩
    · exact .inl h
  · exact .inl h

/-- The best gets no worse, and is no worse than the walk through `w`. -/
theorem exists_best_meet (h : S.best = some l) : ∃ l', (S.meet w).best = some l' ∧ l'.1 ≤ l.1 := by
  unfold Search.meet
  split
  · split
    · rename_i hless
      exact ⟨_, rfl, (hless l h).le⟩
    · exact ⟨l, h, le_rfl⟩
  · exact ⟨l, h, le_rfl⟩

theorem exists_best_of_met (ha : (S.side .forward).seen.get? w = some a)
    (hb : (S.side .backward).seen.get? w = some b) : ∃ l, (S.meet w).best = some l ∧ l.1 ≤ a.1 + b.1 := by
  rw [Search.meet, ha, hb]
  simp only
  split
  · exact ⟨_, rfl, le_rfl⟩
  · rename_i hless
    push Not at hless
    obtain ⟨l, hl, hle⟩ := hless
    exact ⟨l, hl, hle⟩

end

/-- What relaxing an edge can do. -/
theorem relax_cases {S S' : Search κ α} {dir : Dir} {label : α × List κ} {e : κ × α}
    (h : relax dir label S e = some S') :
    (S' = (S.see dir e.1 (label.1 + e.2, label.2 ++ [e.1])).meet e.1 ∧
        ∀ old, (S.side dir).seen.get? e.1 = some old → label.1 + e.2 < old.1 ∧ e.1 ∉ (S.side dir).settled) ∨
      (S' = S ∧ ∃ old, (S.side dir).seen.get? e.1 = some old ∧ old.1 ≤ label.1 + e.2) := by
  unfold relax at h
  simp only at h
  split at h
  · rename_i hnew
    cases h
    exact .inl ⟨rfl, fun old hold => by
      rw [hnew] at hold
      cases hold⟩
  · rename_i old hold
    split at h
    · rename_i hless
      split at h
      · cases h
      · rename_i hsettled
        cases h
        exact .inl ⟨rfl, fun old' hold' => by
          rw [hold] at hold'
          cases hold'
          exact ⟨hless, hsettled⟩⟩
    · rename_i hless
      cases h
      exact .inr ⟨rfl, old, hold, not_lt.mp hless⟩

/-- Where the sides have seen a node, their walks to it are one from end to end. -/
theorem exists_join {edges : List ((κ × κ) × α)} {s t w : κ} {F B : Side κ α} {a b : α × List κ}
    (hF : SideOk edges s F) (hB : SideOk (reversed edges) t B) (ha : F.seen.get? w = some a)
    (hb : B.seen.get? w = some b) : ∃ front back, a.2 ++ b.2.reverse.tail = front ++ w :: back ∧
      Walk edges s t (front ++ w :: back) (a.1 + b.1) ∧ front ⊆ F.settled ∧ back ⊆ B.settled := by
  obtain ⟨front, ha₂, hfront, hF⟩ := hF.label w a ha
  obtain ⟨back, hb₂, hback, hB⟩ := hB.label w b hb
  have hrev := hback.reverse
  rw [reversed_reversed, List.reverse_concat] at hrev
  refine ⟨front, back.reverse, ?_, walk_append_iff.mpr ⟨a.1, b.1, hfront, hrev, rfl⟩, hF, ?_⟩
  · rw [ha₂, hb₂, List.reverse_concat, List.tail_cons, List.append_assoc, List.singleton_append]
  · exact fun x hx => hB (List.mem_reverse.mp hx)

-- ---------------------------------------------------------------------------
-- The invariant
-- ---------------------------------------------------------------------------

def root (s t : κ) : Dir → κ
  | .forward => s
  | .backward => t

/-- What holds throughout, but that the edges of `pending` are still to be relaxed. -/
structure Inv (edges : List ((κ × κ) × α)) (s t : κ) (pending : Dir → κ → κ × α → Prop) (S : Search κ α) : Prop where
  ok : ∀ dir, SideOk (oriented dir edges) (root s t dir) (S.side dir)
  relaxed : ∀ dir, ∀ u ∈ (S.side dir).settled, ∀ w c, ((u, w), c) ∈ oriented dir edges → ¬pending dir u (w, c) →
    Relaxed (S.side dir) u w c
  sound : ∀ l, S.best = some l → ∃ front w back, l.2 = front ++ w :: back ∧ Walk edges s t (front ++ w :: back) l.1 ∧
    front ⊆ (S.side .forward).settled ∧ back ⊆ (S.side .backward).settled
  least : ∀ w a b, (S.side .forward).seen.get? w = some a → (S.side .backward).seen.get? w = some b →
    ∃ l, S.best = some l ∧ l.1 ≤ a.1 + b.1

section
variable {edges : List ((κ × κ) × α)} {s t v w : κ} {S S' : Search κ α} {dir : Dir}
  {label l : α × List κ} {c : α} {pending : Dir → κ → κ × α → Prop}

/-- A lesser walk to a node that is not settled, and the comparison that follows it. -/
theorem Inv.see (h : Inv edges s t pending S) (hsettled : w ∉ (S.side dir).settled)
    (hwalk : ∃ front, l.2 = front ++ [w] ∧ Walk (oriented dir edges) (root s t dir) w (front ++ [w]) l.1 ∧
      front ⊆ (S.side dir).settled)
    (hless : ∀ old, (S.side dir).seen.get? w = some old → l.1 ≤ old.1) :
    Inv edges s t pending ((S.see dir w l).meet w) := by
  have hok : ∀ dir', SideOk (oriented dir' edges) (root s t dir') ((S.see dir w l).side dir') := by
    intro dir'
    by_cases hdir : dir' = dir
    · subst hdir
      rw [side_see_self]
      exact (h.ok dir').see hsettled hwalk hless
    · rw [side_see_of_ne hdir]
      exact h.ok dir'
  constructor
  case ok =>
    rw [side_meet]
    exact hok
  case relaxed =>
    rw [side_meet]
    intro dir' u hu y c he hpending
    rw [settled_see] at hu
    have hold := h.relaxed dir' u hu y c he hpending
    by_cases hdir : dir' = dir
    · subst hdir
      rw [side_see_self]
      exact hold.see (fun hw => hsettled (hw ▸ hu)) hless
    · rwa [side_see_of_ne hdir]
  case sound =>
    rw [side_meet]
    intro l' hl'
    rcases best_meet hl' with hold | ⟨a, b, ha, hb, rfl⟩
    · obtain ⟨front, y, back, hl₂, hw, hfront, hback⟩ := h.sound l' hold
      rw [settled_see, settled_see]
      exact ⟨front, y, back, hl₂, hw, hfront, hback⟩
    · obtain ⟨front, back, hjoin, hw, hfront, hback⟩ := exists_join (hok .forward) (hok .backward) ha hb
      exact ⟨front, w, back, hjoin, hw, hfront, hback⟩
  case least =>
    rw [side_meet]
    intro y a b ha hb
    by_cases hy : y = w
    · subst hy
      exact exists_best_of_met ha hb
    · rw [get?_see_of_ne hy] at ha hb
      obtain ⟨l', hl', hle⟩ := h.least y a b ha hb
      obtain ⟨l'', hl'', hle'⟩ := exists_best_meet (S := S.see dir w l) (w := w) hl'
      exact ⟨l'', hl'', hle'.trans hle⟩

/-- While `v` is expanded, with these edges to come. -/
def expanding (dir : Dir) (v : κ) (rest : List (κ × α)) : Dir → κ → κ × α → Prop :=
  fun dir' u e => dir' = dir ∧ u = v ∧ e ∈ rest

theorem Inv.of_relaxed {e : κ × α} {rest : List (κ × α)} (h : Inv edges s t (expanding dir v (e :: rest)) S)
    (hr : Relaxed (S.side dir) v e.1 e.2) : Inv edges s t (expanding dir v rest) S where
  ok := h.ok
  sound := h.sound
  least := h.least
  relaxed dir' u hu w c he hpending := by
    by_cases hfirst : dir' = dir ∧ u = v ∧ (w, c) = e
    · obtain ⟨rfl, rfl, rfl⟩ := hfirst
      exact hr
    · refine h.relaxed dir' u hu w c he fun hrest => ?_
      obtain ⟨hdir, hu', hmem⟩ := hrest
      rcases List.mem_cons.mp hmem with hfirst' | hmem
      · exact hfirst ⟨hdir, hu', hfirst'⟩
      · exact hpending ⟨hdir, hu', hmem⟩

/-- `v` is settled with this label. -/
structure Expanded (S : Search κ α) (dir : Dir) (v : κ) (label : α × List κ) : Prop where
  settled : v ∈ (S.side dir).settled
  seen : (S.side dir).seen.get? v = some label

theorem Inv.relax {e : κ × α} {rest : List (κ × α)} (h : Inv edges s t (expanding dir v (e :: rest)) S)
    (hv : Expanded S dir v label) (he : ((v, e.1), e.2) ∈ oriented dir edges)
    (hS' : Bidirectional.relax dir label S e = some S') :
    Inv edges s t (expanding dir v rest) S' ∧ Expanded S' dir v label := by
  rcases relax_cases hS' with ⟨rfl, hless⟩ | ⟨rfl, old, hold, hle⟩
  · have hsettled : e.1 ∉ (S.side dir).settled := fun hmem => by
      obtain ⟨l, hl⟩ := (h.ok dir).known e.1 hmem
      exact (hless l hl).2 hmem
    have hne : v ≠ e.1 := fun hve => hsettled (hve ▸ hv.settled)
    have hexpanded : Expanded ((S.see dir e.1 (label.1 + e.2, label.2 ++ [e.1])).meet e.1) dir v label := by
      constructor
      · rw [side_meet, settled_see]
        exact hv.settled
      · rw [side_meet, get?_see_of_ne hne]
        exact hv.seen
    refine ⟨(h.see hsettled ?_ fun old hold => (hless old hold).1.le).of_relaxed ?_, hexpanded⟩
    · obtain ⟨front, hlabel, hwalk, hfront⟩ := (h.ok dir).label v label hv.seen
      rw [hlabel]
      exact ⟨front ++ [v], rfl, hwalk.snoc he,
        List.append_subset.mpr ⟨hfront, List.cons_subset.mpr ⟨hv.settled, List.nil_subset _⟩⟩⟩
    · intro l hl
      rw [hexpanded.seen] at hl
      cases hl
      refine ⟨(label.1 + e.2, label.2 ++ [e.1]), ?_, le_rfl⟩
      rw [side_meet, side_see_self]
      exact Dict.get?_insert_self
  · refine ⟨h.of_relaxed fun l hl => ⟨old, hold, ?_⟩, hv⟩
    rw [hv.seen] at hl
    cases hl
    exact hle

def idle : Dir → κ → κ × α → Prop := fun _ _ _ => False

theorem Inv.settle (h : Inv edges s t idle S) (hnext : Next S dir v label) :
    Inv edges s t (expanding dir v (neighbors (oriented dir edges) v)) (S.settle dir v) ∧
      Expanded (S.settle dir v) dir v label := by
  constructor
  · constructor
    case ok =>
      intro dir'
      by_cases hdir : dir' = dir
      · subst hdir
        rw [side_settle_self]
        exact (h.ok dir').settle hnext.seen
      · rw [side_settle_of_ne hdir]
        exact h.ok dir'
    case relaxed =>
      intro dir' u hu w c he hpending
      have hold : Relaxed (S.side dir') u w c := by
        refine h.relaxed dir' u ?_ w c he id
        by_cases hdir : dir' = dir
        · subst hdir
          rw [side_settle_self] at hu
          refine (List.mem_cons.mp hu).resolve_left fun huv => ?_
          subst huv
          exact hpending ⟨rfl, rfl, mem_neighbors.mpr he⟩
        · rwa [side_settle_of_ne hdir] at hu
      rw [Relaxed, seen_settle]
      exact hold
    case sound =>
      intro l hl
      obtain ⟨front, y, back, hl₂, hw, hfront, hback⟩ := h.sound l hl
      exact ⟨front, y, back, hl₂, hw, List.Subset.trans hfront settled_subset_settle,
        List.Subset.trans hback settled_subset_settle⟩
    case least =>
      rw [seen_settle, seen_settle]
      exact h.least
  · constructor
    · rw [side_settle_self]
      exact List.mem_cons_self
    · rw [seen_settle]
      exact hnext.seen

theorem Inv.relaxAll {rest : List (κ × α)} (h : Inv edges s t (expanding dir v rest) S)
    (hv : Expanded S dir v label) (hedges : ∀ e ∈ rest, ((v, e.1), e.2) ∈ oriented dir edges)
    (hS' : rest.foldlM (Bidirectional.relax dir label) S = some S') : Inv edges s t idle S' := by
  induction rest generalizing S with
  | nil =>
    cases hS'
    refine ⟨h.ok, fun dir' u hu w c he _ => h.relaxed dir' u hu w c he ?_, h.sound, h.least⟩
    rintro ⟨-, -, hmem⟩
    cases hmem
  | cons e rest ih =>
    rw [List.foldlM_cons] at hS'
    obtain ⟨S₁, hS₁, hS'⟩ := Option.bind_eq_some_iff.mp hS'
    obtain ⟨he, hrest⟩ := List.forall_mem_cons.mp hedges
    obtain ⟨h₁, hv₁⟩ := h.relax hv he hS₁
    exact ih h₁ hv₁ hrest hS'

theorem Inv.relaxed_idle (h : Inv edges s t idle S) (dir : Dir) :
    ∀ u ∈ (S.side dir).settled, ∀ w c, ((u, w), c) ∈ oriented dir edges → Relaxed (S.side dir) u w c :=
  fun u hu w c he => h.relaxed dir u hu w c he id

theorem Inv.step (h : Inv edges s t idle S) (hstep : Step edges S S') : Inv edges s t idle S' := by
  obtain ⟨hnext, -, hexpand⟩ := hstep
  obtain ⟨hsettle, hv⟩ := h.settle hnext
  exact hsettle.relaxAll hv (fun e he => mem_neighbors.mp he) hexpand

theorem sideOk_start (edges : List ((κ × κ) × α)) (x : κ) :
    SideOk edges x { seen := Dict.empty.insert x (0, [x]) } where
  label w l hl := by
    obtain ⟨rfl, rfl⟩ := get?_single hl
    exact ⟨[], rfl, .single w, List.nil_subset _⟩
  root := ⟨(0, [x]), Dict.get?_insert_self, le_rfl⟩
  known _ hu := nomatch hu

theorem inv_start (edges : List ((κ × κ) × α)) (s t : κ) : Inv edges s t idle (start s t) where
  ok dir := by
    cases dir with
    | forward => exact sideOk_start edges s
    | backward => exact sideOk_start (reversed edges) t
  relaxed dir u hu := by cases dir <;> cases hu
  sound l hl := by
    obtain ⟨hst, hl⟩ := Option.ite_none_right_eq_some.mp hl
    cases hl
    subst hst
    exact ⟨[], s, [], rfl, .single s, List.nil_subset _, List.nil_subset _⟩
  least w a b ha hb := by
    obtain ⟨rfl, rfl⟩ := get?_single ha
    obtain ⟨hst, rfl⟩ := get?_single hb
    exact ⟨(0, [w]), if_pos hst, by rw [add_zero]⟩

theorem inv_of_run (h : Relation.ReflTransGen (Step edges) (start s t) S) : Inv edges s t idle S := by
  induction h with
  | refl => exact inv_start edges s t
  | tail _ hstep ih => exact ih.step hstep

theorem Finishes.inv {ending : Ending} (h : Finishes edges s t S ending) : Inv edges s t idle S := by
  cases h with
  | same _ => exact inv_start edges s t
  | searched _ hrun _ => exact inv_of_run hrun

end

-- ---------------------------------------------------------------------------
-- Least walks
-- ---------------------------------------------------------------------------

/-- No walk from `s` to `t` has less weight. -/
def Least (edges : List ((κ × κ) × α)) (s t : κ) (p : List κ) : Prop :=
  ∃ d, Walk edges s t p d ∧ ∀ q d', Walk edges s t q d' → d ≤ d'

/-- But for one node the walk is settled: from `s` up to there, from `t` behind it. -/
def Settles (S : Search κ α) (p : List κ) : Prop :=
  ∃ front w back, p = front ++ w :: back ∧ front ⊆ (S.side .forward).settled ∧ back ⊆ (S.side .backward).settled

section
variable {edges : List ((κ × κ) × α)} {s t : κ} {S : Search κ α} {p : List κ} {d : α} {ending : Ending}

/-- The node at which a settled walk may be joined is seen from both ends, by walks that are no heavier. -/
theorem Inv.exists_labels [IsOrderedAddMonoid α] {front back : List κ} {w : κ} (h : Inv edges s t idle S)
    (hwalk : Walk edges s t (front ++ w :: back) d) (hfront : front ⊆ (S.side .forward).settled)
    (hback : back ⊆ (S.side .backward).settled) :
    ∃ a b, (S.side .forward).seen.get? w = some a ∧ (S.side .backward).seen.get? w = some b ∧ a.1 + b.1 ≤ d := by
  obtain ⟨d₁, d₂, h₁, h₂, rfl⟩ := walk_append_iff.mp hwalk
  have hrev := h₂.reverse
  rw [List.reverse_cons] at hrev
  obtain ⟨a, ha, hle₁⟩ := (h.ok .forward).exists_label (h.relaxed_idle .forward) h₁ hfront
  obtain ⟨b, hb, hle₂⟩ := (h.ok .backward).exists_label (h.relaxed_idle .backward) hrev
    fun x hx => hback (List.mem_reverse.mp hx)
  exact ⟨a, b, ha, hb, add_le_add hle₁ hle₂⟩

/-- Where the search has settled a walk it has found one that is no heavier. -/
theorem Inv.exists_best [IsOrderedAddMonoid α] (h : Inv edges s t idle S) (hwalk : Walk edges s t p d)
    (hsettled : Settles S p) : ∃ l, S.best = some l ∧ l.1 ≤ d := by
  obtain ⟨front, w, back, rfl, hfront, hback⟩ := hsettled
  obtain ⟨a, b, ha, hb, hab⟩ := h.exists_labels hwalk hfront hback
  obtain ⟨l, hl, hle⟩ := h.least w a b ha hb
  exact ⟨l, hl, hle.trans hab⟩

theorem ne_exhausted (h : Finishes edges s t S ending) (hbest : S.best ≠ none) : ending ≠ .exhausted := by
  rintro rfl
  cases h with
  | searched _ _ hend =>
    cases hend with
    | exhausted _ hnone => exact hbest hnone

/-- The search finds a least walk exactly if it comes to no contradiction and has settled such a
walk, all but a node, when it ends. -/
theorem finds_least_iff [IsOrderedAddMonoid α] (h : Finishes edges s t S ending) :
    (ending = .met ∧ Least edges s t S.path) ↔ ending ≠ .contradictory ∧ ∃ p, Least edges s t p ∧ Settles S p := by
  have hinv := h.inv
  constructor
  · rintro ⟨rfl, d, hwalk, hleast⟩
    refine ⟨by rintro ⟨⟩, S.path, ⟨d, hwalk, hleast⟩, ?_⟩
    cases hbest : S.best with
    | none =>
      rw [Search.path, hbest] at hwalk
      exact absurd rfl hwalk.ne_nil
    | some l =>
      obtain ⟨front, w, back, hl, -, hfront, hback⟩ := hinv.sound l hbest
      rw [Search.path, hbest]
      exact ⟨front, w, back, hl, hfront, hback⟩
  · rintro ⟨hne, p, ⟨d, hwalk, hleast⟩, hsettled⟩
    obtain ⟨l, hbest, hle⟩ := hinv.exists_best hwalk hsettled
    have hexhausted := ne_exhausted h (by rw [hbest]; exact Option.some_ne_none l)
    obtain ⟨front, w, back, hl, hpath, -, -⟩ := hinv.sound l hbest
    refine ⟨by cases ending <;> first | rfl | contradiction, l.1, ?_, fun q d' hq => hle.trans (hleast q d' hq)⟩
    rw [Search.path, hbest, Option.map_some, Option.getD_some, hl]
    exact hpath

end

end

end Intelliqx.Bidirectional
