import Intelliqx.Base.Ancestors
import Intelliqx.Base.BidirectionalSteps

/-!
# Searches over weights that are not positive

Where no weight is positive, what a settled node leads to is no farther than the
node itself. So a search first settles all that lies behind a least edge, and
comes to each node by a walk that takes a least edge of those that lead there.
It finds a least walk, however it goes, exactly if all such walks are least
(`all_find_least_iff`).
-/

namespace Intelliqx.Bidirectional

open Weighted

variable {κ : Type u} {α : Type v}

def Leads (edges : List ((κ × κ) × α)) : κ → κ → Prop := Digraph.Reaches (edges.map Prod.fst)

instance [DecidableEq κ] (edges : List ((κ × κ) × α)) (x y : κ) : Decidable (Leads edges x y) :=
  inferInstanceAs (Decidable (Digraph.Reaches (edges.map Prod.fst) x y))

/-- The edges beside which no lesser one leads to `x`. -/
def foremost [DecidableEq κ] [LinearOrder α] (edges : List ((κ × κ) × α)) (x : κ) : List ((κ × κ) × α) :=
  edges.filter fun e => ∀ e' ∈ edges, e'.1.1 = e.1.1 → e'.2 < e.2 → ¬ Leads edges e'.1.2 x

/-- A walk that always takes a least edge of those that lead to its end is a least one. -/
def GreedyLeast [DecidableEq κ] [AddMonoid α] [LinearOrder α] (edges : List ((κ × κ) × α)) (root : κ) : Prop :=
  ∀ x p d, Walk (foremost edges x) root x p d → ∀ q d', Walk edges root x q d' → d ≤ d'

-- ---------------------------------------------------------------------------
-- Edges and walks
-- ---------------------------------------------------------------------------

section
variable {edges : List ((κ × κ) × α)} {x y z : κ} {c : α}

theorem leads_of_edge (he : ((x, y), c) ∈ edges) : Leads edges x y := .single (List.mem_map_of_mem he)

theorem Leads.trans (h : Leads edges x y) (h' : Leads edges y z) : Leads edges x z :=
  Relation.ReflTransGen.trans h h'

theorem exists_edge (he : (x, y) ∈ edges.map Prod.fst) : ∃ c, ((x, y), c) ∈ edges := by
  obtain ⟨⟨_, c⟩, he, rfl⟩ := List.mem_map.mp he
  exact ⟨c, he⟩

theorem leads_reversed_iff : Leads (reversed edges) x y ↔ Leads edges y x := by
  have hkeys : (reversed edges).map Prod.fst = (edges.map Prod.fst).map Prod.swap := by simp [reversed]
  have hedge : ∀ a b, (a, b) ∈ (reversed edges).map Prod.fst ↔ (b, a) ∈ edges.map Prod.fst := by
    intro a b
    rw [hkeys, ← List.mem_map_of_injective Prod.swap_injective (a := (b, a))]
    rfl
  unfold Leads Digraph.Reaches
  rw [← Relation.reflTransGen_swap]
  simp only [hedge]

theorem oriented_other (dir : Dir) (edges : List ((κ × κ) × α)) :
    oriented dir.other edges = reversed (oriented dir edges) := by
  cases dir with
  | forward => rfl
  | backward => exact (reversed_reversed edges).symm

theorem oriented_nonpos [Zero α] [LE α] (hnonpos : ∀ e ∈ edges, e.2 ≤ 0) (dir : Dir) :
    ∀ e ∈ oriented dir edges, e.2 ≤ 0 := by
  cases dir with
  | forward => exact hnonpos
  | backward =>
    rintro ⟨⟨x, y⟩, c⟩ he
    exact hnonpos ((y, x), c) (mem_reversed.mp he)

theorem mem_foremost [DecidableEq κ] [LinearOrder α] : ((x, y), c) ∈ foremost edges z ↔
    ((x, y), c) ∈ edges ∧ ∀ w c', ((x, w), c') ∈ edges → c' < c → ¬ Leads edges w z := by
  rw [foremost, List.mem_filter, decide_eq_true_eq]
  refine and_congr_right fun _ => ⟨fun h w c' he hless => h _ he rfl hless, ?_⟩
  rintro h ⟨⟨x', w⟩, c'⟩ he rfl hless
  exact h w c' he hless

theorem foremost_subset [DecidableEq κ] [LinearOrder α] : foremost edges x ⊆ edges := List.filter_subset_self _

end

section
variable [AddCommMonoid α] {edges : List ((κ × κ) × α)} {x y z : κ} {p : List κ} {c d : α}

theorem leads_of_walk (h : Walk edges x y p d) : Leads edges x y := by
  induction h with
  | single x => exact .refl
  | cons he _ ih => exact (leads_of_edge he).trans ih

theorem leads_of_mem_walk (h : Walk edges x y p d) (hz : z ∈ p) : Leads edges x z := by
  induction h with
  | single x => exact List.mem_singleton.mp hz ▸ .refl
  | cons he _ ih =>
    rcases List.mem_cons.mp hz with rfl | hz
    · exact .refl
    · exact (leads_of_edge he).trans (ih hz)

end

-- ---------------------------------------------------------------------------
-- How a side grows
-- ---------------------------------------------------------------------------

section
variable [DecidableEq κ] [AddCommMonoid α] [LinearOrder α]

/-- What is known of a node it has from a settled one. What a lesser edge beside
the walk to a settled node leads to is settled before that node. -/
structure Deep (edges : List ((κ × κ) × α)) (root : κ) (side : Side κ α) : Prop where
  tree : ∀ w l, side.seen.get? w = some l → w = root ∧ l = (0, [root]) ∨ ∃ u lu c, u ∈ side.settled ∧
    side.seen.get? u = some lu ∧ ((u, w), c) ∈ edges ∧ l = (lu.1 + c, lu.2 ++ [w])
  greedy : ∀ v ∈ side.settled, ∀ l, side.seen.get? v = some l → ∀ x, x = v ∨ x ∉ side.settled →
    Walk (foremost edges x) root v l.2 l.1
  rooted : side.settled = [] ∨ root ∈ side.settled

section
variable {edges : List ((κ × κ) × α)} {v x : κ} {S S' : Search κ α} {dir : Dir} {label : α × List κ}

theorem Deep.expansion (h : Deep (oriented dir edges) x (S.side dir)) (hexpansion : Expansion edges dir v label S S')
    (hv : Expanded S dir v label) (hknown : ∀ w ∈ (S.side dir).settled, ∃ l, (S.side dir).seen.get? w = some l) :
    Deep (oriented dir edges) x (S'.side dir) := by
  have hkept := hexpansion.kept
  have hsettled := hexpansion.settled dir
  constructor
  case tree =>
    intro w l hl
    rw [hsettled]
    rcases hexpansion.seen w l hl with hl | ⟨c, he, rfl⟩
    · rcases h.tree w l hl with hroot | ⟨u, lu, c, hu, hlu, he, hw⟩
      · exact .inl hroot
      · exact .inr ⟨u, lu, c, hu, hkept u hu lu hlu, he, hw⟩
    · exact .inr ⟨v, label, c, hv.settled, hkept v hv.settled label hv.seen, he, rfl⟩
  case greedy =>
    rw [hsettled]
    intro w hw l hl
    obtain ⟨l', hl'⟩ := hknown w hw
    obtain rfl := Option.some.inj ((hkept w hw l' hl').symm.trans hl)
    exact h.greedy w hw l' hl'
  case rooted =>
    rw [hsettled]
    exact h.rooted

end

theorem deep_start (edges : List ((κ × κ) × α)) (x : κ) : Deep edges x { seen := Dict.empty.insert x (0, [x]) } where
  tree _ _ hl := .inl (get?_single hl)
  greedy _ hv := nomatch hv
  rooted := .inl rfl

end

section
variable [DecidableEq κ] [AddCommMonoid α] [LinearOrder α] [IsOrderedCancelAddMonoid α]
  {edges : List ((κ × κ) × α)} {root v x y : κ} {side : Side κ α} {label l : α × List κ}

/-- What a seen node leads to is settled, or some node on the way is no farther
and is not. -/
theorem exists_unsettled (hnonpos : ∀ e ∈ edges, e.2 ≤ 0)
    (hrelaxed : ∀ u ∈ side.settled, ∀ w c, ((u, w), c) ∈ edges → Relaxed side u w c)
    (hy : side.seen.get? y = some l) (hlead : Leads edges y x) (hx : x ∉ side.settled) :
    ∃ z lz, side.seen.get? z = some lz ∧ z ∉ side.settled ∧ Leads edges z x ∧ lz.1 ≤ l.1 := by
  induction hlead using Relation.ReflTransGen.head_induction_on generalizing l with
  | refl => exact ⟨x, l, hy, hx, .refl, le_rfl⟩
  | @head y w he hrest ih =>
    by_cases hsettled : y ∈ side.settled
    · obtain ⟨c, he⟩ := exists_edge he
      obtain ⟨lw, hlw, hle⟩ := hrelaxed y hsettled w c he l hy
      obtain ⟨z, lz, hz, hunsettled, hleads, hlez⟩ := ih hlw
      have hstep : l.1 + c ≤ l.1 := add_le_of_nonpos_right (hnonpos _ he)
      exact ⟨z, lz, hz, hunsettled, hleads, hlez.trans (hle.trans hstep)⟩
    · exact ⟨y, l, hy, hsettled, .head he hrest, le_rfl⟩

/-- A node of least distance is reached by a foremost walk. -/
theorem Deep.next (h : Deep edges root side) (hok : SideOk edges root side) (hnonpos : ∀ e ∈ edges, e.2 ≤ 0)
    (hrelaxed : ∀ u ∈ side.settled, ∀ w c, ((u, w), c) ∈ edges → Relaxed side u w c)
    (hseen : side.seen.get? v = some label)
    (hleast : ∀ w l, side.seen.get? w = some l → w ∉ side.settled → label.1 ≤ l.1) (hx : x ∉ side.settled) :
    Walk (foremost edges x) root v label.2 label.1 := by
  rcases h.tree v label hseen with ⟨rfl, rfl⟩ | ⟨u, lu, c, hu, hlu, he, rfl⟩
  · exact .single v
  · have hwalk := h.greedy u hu lu hlu x (.inr hx)
    obtain ⟨front, hfront, -, -⟩ := hok.label u lu hlu
    have hedge : ((u, v), c) ∈ foremost edges x := by
      refine mem_foremost.mpr ⟨he, fun w c' he' hless hlead => ?_⟩
      -- behind the lesser edge some node is nearer than `v`
      obtain ⟨lw, hlw, hle⟩ := hrelaxed u hu w c' he' lu hlu
      obtain ⟨z, lz, hz, hunsettled, -, hlez⟩ := exists_unsettled hnonpos hrelaxed hlw hlead hx
      have hnear : lz.1 < lu.1 + c := (hlez.trans hle).trans_lt (add_lt_add_right hless lu.1)
      exact absurd (hleast z lz hz hunsettled) (not_le.mpr hnear)
    simp only
    rw [hfront] at hwalk ⊢
    exact hwalk.snoc hedge

end

section
variable [DecidableEq κ] [AddCommMonoid α] [LinearOrder α] [IsOrderedCancelAddMonoid α]
  {edges : List ((κ × κ) × α)} {s t v w x : κ} {S S' : Search κ α} {dir : Dir} {label l : α × List κ}

theorem Next.walk (hnext : Next S dir v label) (hinv : Inv edges s t idle S)
    (hdeep : Deep (oriented dir edges) (root s t dir) (S.side dir)) (hnonpos : ∀ e ∈ edges, e.2 ≤ 0)
    (hx : x ∉ (S.side dir).settled) : Walk (foremost (oriented dir edges) x) (root s t dir) v label.2 label.1 :=
  hdeep.next (hinv.ok dir) (oriented_nonpos hnonpos dir) (hinv.relaxed_idle dir) hnext.seen hnext.least hx

theorem Deep.settle (h : Deep (oriented dir edges) (root s t dir) (S.side dir)) (hinv : Inv edges s t idle S)
    (hnonpos : ∀ e ∈ edges, e.2 ≤ 0) (hnext : Next S dir v label) :
    Deep (oriented dir edges) (root s t dir) ((S.settle dir v).side dir) := by
  rw [side_settle_self]
  constructor
  case tree =>
    intro w l hl
    rcases h.tree w l hl with hroot | ⟨u, lu, c, hu, hlu, he, hw⟩
    · exact .inl hroot
    · exact .inr ⟨u, lu, c, .tail _ hu, hlu, he, hw⟩
  case greedy =>
    intro w hw l hl x hx
    have hx' : x = w ∨ x ∉ (S.side dir).settled := hx.imp_right fun hx hmem => hx (.tail _ hmem)
    rcases List.mem_cons.mp hw with rfl | hw
    · obtain rfl := Option.some.inj (hnext.seen.symm.trans hl)
      refine hnext.walk hinv h hnonpos ?_
      rcases hx' with rfl | hx'
      · exact hnext.unsettled
      · exact hx'
    · exact h.greedy w hw l hl x hx'
  case rooted =>
    rcases h.tree v label hnext.seen with ⟨rfl, -⟩ | ⟨u, -, -, hu, -⟩
    · exact .inr (.head _)
    · rcases h.rooted with hnone | hroot
      · rw [hnone] at hu
        cases hu
      · exact .inr (.tail _ hroot)

theorem deep_of_run (hnonpos : ∀ e ∈ edges, e.2 ≤ 0) (h : Relation.ReflTransGen (Step edges) (start s t) S)
    (dir : Dir) : Deep (oriented dir edges) (root s t dir) (S.side dir) := by
  induction h with
  | refl =>
    cases dir with
    | forward => exact deep_start edges s
    | backward => exact deep_start (reversed edges) t
  | tail hrun hstep ih =>
    obtain @⟨dir', v, label, S, S', hnext, -, hexpand⟩ := hstep
    have hinv := inv_of_run hrun
    have hexpansion := expansion_of_expand hinv hnext hexpand
    obtain ⟨hsettle, hv⟩ := hinv.settle hnext
    by_cases hdir : dir = dir'
    · subst hdir
      exact (ih.settle hinv hnonpos hnext).expansion hexpansion hv (hsettle.ok dir).known
    · rw [hexpansion.side_of_ne hdir, side_settle_of_ne hdir]
      exact ih

end

-- ---------------------------------------------------------------------------
-- Where greedy walks are least
-- ---------------------------------------------------------------------------

theorem not_leads {edges : List ((κ × κ) × α)} (h : Digraph.Acyclic (edges.map Prod.fst)) (he : ((x, y), c) ∈ edges) :
    ¬ Leads edges y x :=
  h (x, y) (List.mem_map_of_mem he)

theorem acyclic_oriented {edges : List ((κ × κ) × α)} (h : Digraph.Acyclic (edges.map Prod.fst)) (dir : Dir) :
    Digraph.Acyclic ((oriented dir edges).map Prod.fst) := by
  cases dir with
  | forward => exact h
  | backward =>
    rintro ⟨x, y⟩ he hlead
    obtain ⟨c, he⟩ := exists_edge he
    exact not_leads h (mem_reversed.mp he) (leads_reversed_iff.mp hlead)

/-- Of the edges out of a node that lead to `x` one is least. -/
theorem exists_foremost [DecidableEq κ] [LinearOrder α] {edges : List ((κ × κ) × α)} (he : ((v, w), c) ∈ edges)
    (hlead : Leads edges w x) : ∃ y c', ((v, y), c') ∈ foremost edges x ∧ Leads edges y x := by
  have hmem : ∀ u c', ((v, u), c') ∈ edges → Leads edges u x →
      ((v, u), c') ∈ edges.filter fun e => e.1.1 = v ∧ Leads edges e.1.2 x :=
    fun u c' hu hlead => List.mem_filter.mpr ⟨hu, decide_eq_true ⟨rfl, hlead⟩⟩
  cases hmin : (edges.filter fun e => e.1.1 = v ∧ Leads edges e.1.2 x).argmin fun e => e.2 with
  | none => exact absurd (List.argmin_eq_none.mp hmin) (List.ne_nil_of_mem (hmem w c he hlead))
  | some e =>
    obtain ⟨⟨v', y⟩, c'⟩ := e
    obtain ⟨hedge, hfrom⟩ := List.mem_filter.mp (List.argmin_mem hmin)
    obtain ⟨rfl, hy⟩ := of_decide_eq_true hfrom
    refine ⟨y, c', mem_foremost.mpr ⟨hedge, fun u c'' hu hless hlead => ?_⟩, hy⟩
    exact absurd (List.le_of_mem_argmin (f := fun e => e.2) (hmem u c'' hu hlead) hmin) (not_le.mpr hless)

/-- An edge leads to a node that leads to fewer: not to itself, and to none that
the node before it does not lead to. -/
theorem length_descendants_lt [DecidableEq κ] {edges : List ((κ × κ) × α)}
    (hacyclic : Digraph.Acyclic (edges.map Prod.fst)) (he : ((x, y), c) ∈ edges) :
    (Digraph.descendants (edges.map Prod.fst) y).length < (Digraph.descendants (edges.map Prod.fst) x).length := by
  have hnodup : (y :: Digraph.descendants (edges.map Prod.fst) y).Nodup :=
    List.nodup_cons.mpr ⟨fun h => (Digraph.mem_descendants.mp h).1 rfl, Digraph.nodup_descendants⟩
  refine (List.subperm_of_subset hnodup fun z hz => ?_).length_le
  have hyz : Leads edges y z := by
    rcases List.mem_cons.mp hz with rfl | hz
    · exact .refl
    · exact (Digraph.mem_descendants.mp hz).2
  refine Digraph.mem_descendants.mpr ⟨?_, (leads_of_edge he).trans hyz⟩
  rintro rfl
  exact not_leads hacyclic he hyz

/-- What leads somewhere does so by a foremost walk. -/
theorem exists_greedy [DecidableEq κ] [AddCommMonoid α] [LinearOrder α] {edges : List ((κ × κ) × α)}
    (hacyclic : Digraph.Acyclic (edges.map Prod.fst)) {v x : κ} (hlead : Leads edges v x) :
    ∃ p d, Walk (foremost edges x) v x p d := by
  induction hn : (Digraph.descendants (edges.map Prod.fst) v).length using Nat.strong_induction_on generalizing v with
  | _ n ih =>
    rcases hlead.cases_head with rfl | ⟨w, he, hrest⟩
    · exact ⟨[v], 0, .single v⟩
    · obtain ⟨c, he⟩ := exists_edge he
      obtain ⟨y, c', hforemost, hy⟩ := exists_foremost he hrest
      have hfewer := length_descendants_lt hacyclic (foremost_subset hforemost)
      obtain ⟨p, d, hp⟩ := ih _ (hn ▸ hfewer) hy rfl
      exact ⟨_, _, .cons hforemost hp⟩

section
variable [DecidableEq κ] [AddCommMonoid α] [LinearOrder α] [IsOrderedCancelAddMonoid α]
  {edges : List ((κ × κ) × α)} {s t v w x : κ} {S S' : Search κ α} {dir : Dir} {label l : α × List κ}

theorem expand_ne_none (hinv : Inv edges s t idle S) (hnonpos : ∀ e ∈ edges, e.2 ≤ 0)
    (hdeep : Deep (oriented dir edges) (root s t dir) (S.side dir))
    (hgreedy : GreedyLeast (oriented dir edges) (root s t dir)) (hnext : Next S dir v label) :
    expand edges dir v label S ≠ none := by
  intro hnone
  obtain ⟨hsettle, hv⟩ := hinv.settle hnext
  have hdeep' := hdeep.settle hinv hnonpos hnext
  obtain ⟨e, he, hsettled, old, hold, hless⟩ := exists_lesser (fun _ he => mem_neighbors.mp he) hnone
    (hsettle.ok dir).known
  obtain ⟨front, hlabel, hwalk, -⟩ := (hsettle.ok dir).label v label hv.seen
  have hle := hgreedy e.1 old.2 old.1 (hdeep'.greedy e.1 hsettled old hold e.1 (.inl rfl)) _ _
    (hwalk.snoc (mem_neighbors.mp he))
  exact absurd hless (not_lt.mpr hle)

/-- While one side has nothing to settle any more, a walk has been found. -/
theorem best_ne_none_of_closed (hinv : Inv edges s t idle S) (hnonpos : ∀ e ∈ edges, e.2 ≤ 0)
    (hlead : Leads (oriented dir edges) (root s t dir) (root s t dir.other))
    (hall : ∀ v ∈ (S.side dir).seen.keys, v ∈ (S.side dir).settled) : S.best ≠ none := by
  obtain ⟨l, hl, -⟩ := (hinv.ok dir).root
  have hsettled : root s t dir.other ∈ (S.side dir).settled := by
    by_contra hunsettled
    obtain ⟨z, lz, hz, hz', -⟩ := exists_unsettled (oriented_nonpos hnonpos dir) (hinv.relaxed_idle dir) hl hlead
      hunsettled
    exact hz' (hall z (Dict.isSome_get?_iff.mp (by rw [hz]; rfl)))
  obtain ⟨a, ha⟩ := (hinv.ok dir).known _ hsettled
  obtain ⟨b, hb, -⟩ := (hinv.ok dir.other).root
  intro hnone
  cases dir with
  | forward =>
    obtain ⟨best, hbest, -⟩ := hinv.least _ a b ha hb
    rw [hnone] at hbest
    cases hbest
  | backward =>
    obtain ⟨best, hbest, -⟩ := hinv.least _ b a hb ha
    rw [hnone] at hbest
    cases hbest

/-- The node where the sides meet lies on a least walk. -/
theorem meeting_least (hacyclic : Digraph.Acyclic (edges.map Prod.fst)) (hnonpos : ∀ e ∈ edges, e.2 ≤ 0)
    (hrun : Relation.ReflTransGen (Step edges) (start s t) S)
    (hgreedy : ∀ dir, GreedyLeast (oriented dir edges) (root s t dir)) (hnext : Next S dir v label)
    (hother : v ∈ (S.side dir.other).settled) (hl : (S.side dir.other).seen.get? v = some l) :
    ∀ q d, Walk (oriented dir edges) (root s t dir) (root s t dir.other) q d → label.1 + l.1 ≤ d := by
  have hinv := inv_of_run hrun
  have hdeep := deep_of_run hnonpos hrun
  -- the other end is settled from there, so not from here
  have hend : root s t dir.other ∈ (S.side dir.other).settled := by
    rcases (hdeep dir.other).rooted with hnone | hroot
    · rw [hnone] at hother
      cases hother
    · exact hroot
  have hopen : root s t dir.other ∉ (S.side dir).settled := by
    have htidy := tidy_of_run hrun
    cases dir with
    | forward => exact fun h => htidy.disjoint _ h hend
    | backward => exact htidy.disjoint _ hend
  have hto := hnext.walk hinv (hdeep dir) hnonpos hopen
  have hfrom := (hdeep dir.other).greedy v hother l hl v (.inl rfl)
  obtain ⟨p, d', hp⟩ := exists_greedy (acyclic_oriented hacyclic dir) (v := v) (x := root s t dir.other) (by
    rw [← leads_reversed_iff, ← oriented_other]
    exact leads_of_walk (hfrom.mono foremost_subset))
  obtain ⟨r, hr⟩ := hto.append hp
  intro q d hq
  have hback : l.1 ≤ d' := by
    refine hgreedy dir.other v l.2 l.1 hfrom p.reverse d' ?_
    rw [oriented_other]
    exact (hp.mono foremost_subset).reverse
  exact (add_le_add_right hback label.1).trans (hgreedy dir _ r _ hr q d hq)

/-- Such a search finds a least walk. -/
theorem Finishes.least (hacyclic : Digraph.Acyclic (edges.map Prod.fst)) (hnonpos : ∀ e ∈ edges, e.2 ≤ 0)
    (hlead : Leads edges s t) (hgreedy : s = t ∨ ∀ dir, GreedyLeast (oriented dir edges) (root s t dir))
    (h : Finishes edges s t S ending) :
    ending = .met ∧ Least edges s t S.path := by
  have hinv := h.inv
  cases h with
  | same hst =>
    subst hst
    rw [Search.path, show (start s s : Search κ α).best = some (0, [s]) from if_pos rfl]
    refine ⟨rfl, 0, .single s, fun q d' hq => ?_⟩
    rcases hq.cases_head with ⟨-, rfl⟩ | ⟨y, c, q', d'', he, hrest, -⟩
    · exact le_rfl
    · exact absurd (leads_of_walk hrest) (not_leads hacyclic he)
  | searched hst hrun hend =>
    replace hgreedy := hgreedy.resolve_left hst
    refine (finds_least_iff (.searched hst hrun hend)).mpr ?_
    cases hend with
    | contradictory hnext _ hexpand =>
      exact absurd hexpand (expand_ne_none hinv hnonpos (deep_of_run hnonpos hrun _) (hgreedy _) hnext)
    | @exhausted dir hall hbest =>
      refine absurd hbest (best_ne_none_of_closed hinv hnonpos ?_ hall)
      cases dir with
      | forward => exact hlead
      | backward => exact leads_reversed_iff.mpr hlead
    | @met dir v label hnext hother =>
      obtain ⟨l, hl⟩ := (hinv.ok dir.other).known v hother
      have hleast := meeting_least hacyclic hnonpos hrun hgreedy hnext hother hl
      refine ⟨by rintro ⟨⟩, ?_⟩
      cases dir with
      | forward =>
        obtain ⟨front, back, -, hwalk, hfront, hback⟩ :=
          exists_join (hinv.ok .forward) (hinv.ok .backward) hnext.seen hl
        exact ⟨_, ⟨_, hwalk, hleast⟩, front, v, back, rfl, hfront, hback⟩
      | backward =>
        obtain ⟨front, back, -, hwalk, hfront, hback⟩ :=
          exists_join (hinv.ok .forward) (hinv.ok .backward) hl hnext.seen
        refine ⟨_, ⟨_, hwalk, fun q d' hq => ?_⟩, front, v, back, rfl, hfront, hback⟩
        rw [add_comm]
        exact hleast _ _ hq.reverse

end

-- ---------------------------------------------------------------------------
-- Where they are not
-- ---------------------------------------------------------------------------

/-- `y` is known at the distance `d`, and of all nodes that lead to `x` and are
not settled it is as near as any. Those that are settled lead to `y`. -/
structure Ahead [LE α] [DecidableEq κ] (edges : List ((κ × κ) × α)) (x y : κ) (d : α) (side : Side κ α) : Prop where
  seen : ∃ l, side.seen.get? y = some l ∧ l.1 = d
  unsettled : y ∉ side.settled
  least : ∀ z l, side.seen.get? z = some l → z ∉ side.settled → Leads edges z x → d ≤ l.1
  behind : ∀ z ∈ side.settled, Leads edges z x → Leads edges z y

section
variable [DecidableEq κ] [AddCommMonoid α] [LinearOrder α] [IsOrderedCancelAddMonoid α]
  {edges : List ((κ × κ) × α)} {s t v w x y : κ} {S S' : Search κ α} {dir : Dir} {label l : α × List κ} {d c : α}

omit [IsOrderedCancelAddMonoid α] in
/-- A nearer node does not lead to `x`, so that it changes nothing to settle it. -/
theorem Ahead.skip (h : Ahead (oriented dir edges) x y d (S.side dir)) (hinv : Inv edges s t idle S)
    (hnext : Next S dir v label) (hless : label.1 < d) (hy : Leads (oriented dir edges) y x)
    (hexpand : expand edges dir v label S = some S') : Ahead (oriented dir edges) x y d (S'.side dir) := by
  have hexpansion := expansion_of_expand hinv hnext hexpand
  have hsettled := hexpansion.settled dir
  rw [side_settle_self] at hsettled
  have hv : ¬ Leads (oriented dir edges) v x := fun hlead =>
    absurd (h.least v label hnext.seen hnext.unsettled hlead) (not_le.mpr hless)
  have hseen : ∀ z l, (S'.side dir).seen.get? z = some l → Leads (oriented dir edges) z x →
      (S.side dir).seen.get? z = some l := by
    intro z l hl hz
    rcases hexpansion.seen z l hl with hl | ⟨c, he, -⟩
    · rwa [seen_settle] at hl
    · exact absurd ((leads_of_edge he).trans hz) hv
  constructor
  · obtain ⟨l, hl, hd⟩ := h.seen
    obtain ⟨l', hl'⟩ := hexpansion.mono y l (by rwa [seen_settle])
    obtain rfl := Option.some.inj (hl.symm.trans (hseen y l' hl' hy))
    exact ⟨l, hl', hd⟩
  · rw [hsettled]
    refine List.not_mem_cons_of_ne_of_not_mem ?_ h.unsettled
    rintro rfl
    exact hv hy
  · intro z l hl hz hlead
    rw [hsettled] at hz
    exact h.least z l (hseen z l hl hlead) (fun hmem => hz (.tail _ hmem)) hlead
  · intro z hz hlead
    rw [hsettled] at hz
    rcases List.mem_cons.mp hz with rfl | hz
    · exact absurd hlead hv
    · exact h.behind z hz hlead

/-- When it is settled, the end of a foremost edge is next. -/
theorem Ahead.advance (h : Ahead (oriented dir edges) x y d (S.side dir))
    (hacyclic : Digraph.Acyclic (edges.map Prod.fst)) (hnonpos : ∀ e ∈ edges, e.2 ≤ 0)
    (hinv : Inv edges s t idle S) (hnext : Next S dir y label) (hd : label.1 = d)
    (he : ((y, w), c) ∈ foremost (oriented dir edges) x) (hw : Leads (oriented dir edges) w x)
    (hexpand : expand edges dir y label S = some S') (hinv' : Inv edges s t idle S') :
    Ahead (oriented dir edges) x w (d + c) (S'.side dir) := by
  have hexpansion := expansion_of_expand hinv hnext hexpand
  have hsettled := hexpansion.settled dir
  rw [side_settle_self] at hsettled
  obtain ⟨he, hforemost⟩ := mem_foremost.mp he
  have hunsettled : w ∉ (S'.side dir).settled := by
    rw [hsettled]
    refine List.not_mem_cons_of_ne_of_not_mem ?_ fun hmem => ?_
    · rintro rfl
      exact not_leads (acyclic_oriented hacyclic dir) he .refl
    · exact not_leads (acyclic_oriented hacyclic dir) he (h.behind w hmem hw)
  have hnear : d + c ≤ d := add_le_of_nonpos_right (oriented_nonpos hnonpos dir _ he)
  have hleast : ∀ z l, (S'.side dir).seen.get? z = some l → z ∉ (S'.side dir).settled →
      Leads (oriented dir edges) z x → d + c ≤ l.1 := by
    intro z l hl hz hlead
    rcases hexpansion.seen z l hl with hl | ⟨c', he', rfl⟩
    · rw [seen_settle] at hl
      rw [hsettled] at hz
      exact hnear.trans (h.least z l hl (fun hmem => hz (.tail _ hmem)) hlead)
    · rw [hd]
      exact add_le_add_right (not_lt.mp fun hless => hforemost z c' he' hless hlead) d
  refine ⟨?_, hunsettled, hleast, ?_⟩
  · have hy : (S'.side dir).seen.get? y = some label := by
      refine hexpansion.kept y ?_ label ?_
      · rw [side_settle_self]
        exact .head _
      · rw [seen_settle]
        exact hnext.seen
    obtain ⟨l, hl, hle⟩ := hinv'.relaxed_idle dir y (by rw [hsettled]; exact .head _) w c he label hy
    exact ⟨l, hl, (hle.trans_eq (by rw [hd])).antisymm (hleast w l hl hunsettled hw)⟩
  · intro z hz hlead
    rw [hsettled] at hz
    rcases List.mem_cons.mp hz with rfl | hz
    · exact leads_of_edge he
    · exact (h.behind z hz hlead).trans (leads_of_edge he)

omit [IsOrderedCancelAddMonoid α] in
theorem ahead_start (edges : List ((κ × κ) × α)) (s t x : κ) (dir : Dir) :
    Ahead (oriented dir edges) x (root s t dir) 0 ((start s t : Search κ α).side dir) := by
  have hside : (start s t : Search κ α).side dir =
      { seen := Dict.empty.insert (root s t dir) (0, [root s t dir]) } := by
    cases dir <;> rfl
  rw [hside]
  refine ⟨⟨_, Dict.get?_insert_self, rfl⟩, List.not_mem_nil, fun z l hl _ _ => ?_, fun z hz => nomatch hz⟩
  rw [(get?_single hl).2]

omit [IsOrderedCancelAddMonoid α] in
/-- Settling all that is nearer, the search comes to the node that is ahead. -/
theorem Lone.exists_next (h : Lone edges s t dir S) (hst : s ≠ t) (hfree : Consistent edges s t)
    (hahead : Ahead (oriented dir edges) x y d (S.side dir)) (hy : Leads (oriented dir edges) y x) :
    ∃ S' label, Lone edges s t dir S' ∧ Ahead (oriented dir edges) x y d (S'.side dir) ∧ Next S' dir y label ∧
      label.1 = d := by
  revert hahead
  refine h.induction fun S h ih hahead => ?_
  obtain ⟨l, hl, hd⟩ := hahead.seen
  obtain ⟨v, label, hnext⟩ := Bidirectional.exists_next hl hahead.unsettled
  by_cases hless : label.1 < d
  · obtain ⟨S₁, hexpand, h₁, hcount⟩ := h.exists_expand hst hfree hnext
    exact ih S₁ h₁ hcount (hahead.skip (inv_of_run h.run) hnext hless hy hexpand)
  · refine ⟨S, l, h, hahead, ⟨hl, hahead.unsettled, fun w l' hl' hw => ?_⟩, hd⟩
    exact (hd.trans_le (not_lt.mp hless)).trans (hnext.least w l' hl' hw)

/-- It settles the end of a foremost walk by that walk's weight. -/
theorem Lone.exists_settled (hacyclic : Digraph.Acyclic (edges.map Prod.fst)) (hnonpos : ∀ e ∈ edges, e.2 ≤ 0)
    (hst : s ≠ t) (hfree : Consistent edges s t) {z : κ} {p : List κ} {d' : α} (hz : x = z)
    (hwalk : Walk (foremost (oriented dir edges) z) y x p d') (h : Lone edges s t dir S)
    (hahead : Ahead (oriented dir edges) z y d (S.side dir)) :
    ∃ S' l, Lone edges s t dir S' ∧ x ∈ (S'.side dir).settled ∧ (S'.side dir).seen.get? x = some l ∧ l.1 = d + d' := by
  induction hwalk generalizing S d with
  | single x =>
    subst hz
    obtain ⟨S₁, label, h₁, -, hnext, hd⟩ := h.exists_next hst hfree hahead .refl
    obtain ⟨S', hexpand, h', -⟩ := h₁.exists_expand hst hfree hnext
    have hexpansion := expansion_of_expand (inv_of_run h₁.run) hnext hexpand
    have hv := ((inv_of_run h₁.run).settle hnext).2
    exact ⟨S', label, h', by rw [hexpansion.settled]; exact hv.settled, hexpansion.kept x hv.settled label hv.seen,
      by rw [hd, add_zero]⟩
  | cons he hrest ih =>
    subst hz
    have hw := leads_of_walk (hrest.mono foremost_subset)
    obtain ⟨S₁, label, h₁, hahead₁, hnext, hd⟩ := h.exists_next hst hfree hahead
      ((leads_of_edge (foremost_subset he)).trans hw)
    obtain ⟨S₂, hexpand, h₂, -⟩ := h₁.exists_expand hst hfree hnext
    have hahead₂ := hahead₁.advance hacyclic hnonpos (inv_of_run h₁.run) hnext hd he hw hexpand (inv_of_run h₂.run)
    obtain ⟨S', l, h', hsettled, hl, hsum⟩ := ih rfl h₂ hahead₂
    exact ⟨S', l, h', hsettled, hl, by rw [hsum, add_assoc]⟩

/-- A search from one end alone, to which no foremost walk is a contradiction. -/
theorem greedyLeast_of_consistent (hacyclic : Digraph.Acyclic (edges.map Prod.fst)) (hnonpos : ∀ e ∈ edges, e.2 ≤ 0)
    (hst : s ≠ t) (hfree : Consistent edges s t) (dir : Dir) : GreedyLeast (oriented dir edges) (root s t dir) := by
  intro x p d hwalk q d' hq
  obtain ⟨S₁, l, h₁, hsettled, hl, hd⟩ := (lone_start edges s t dir).exists_settled hacyclic hnonpos hst hfree rfl hwalk
    (ahead_start edges s t x dir)
  obtain ⟨S, h, hclosed, hkept⟩ := h₁.exists_closed hst hfree
  have hinv := inv_of_run h.run
  have hall : ∀ z, Leads (oriented dir edges) (root s t dir) z → z ∈ (S.side dir).settled := by
    intro z hz
    by_contra hunsettled
    obtain ⟨l, hl, -⟩ := (hinv.ok dir).root
    obtain ⟨w, lw, hlw, hw, -⟩ :=
      exists_unsettled (oriented_nonpos hnonpos dir) (hinv.relaxed_idle dir) hl hz hunsettled
    exact hw (hclosed w lw hlw)
  obtain ⟨front, rfl⟩ := hq.exists_concat
  obtain ⟨l', hl', hle⟩ := (hinv.ok dir).exists_label (hinv.relaxed_idle dir) hq
    fun z hz => hall z (leads_of_mem_walk hq (List.mem_append_left _ hz))
  obtain rfl := Option.some.inj ((hkept x hsettled l hl).symm.trans hl')
  rwa [hd, zero_add] at hle

/-- However a search goes, it finds a least walk, exactly if all walks are least that always take a
least edge of those that lead to their end, from the one end and from the other. -/
theorem all_find_least_iff (hacyclic : Digraph.Acyclic (edges.map Prod.fst)) (hnonpos : ∀ e ∈ edges, e.2 ≤ 0)
    (hlead : Leads edges s t) :
    (∀ S ending, Finishes edges s t S ending → ending = .met ∧ Least edges s t S.path) ↔
      s = t ∨ ∀ dir, GreedyLeast (oriented dir edges) (root s t dir) := by
  refine ⟨fun h => ?_, fun hgreedy S ending h => h.least hacyclic hnonpos hlead hgreedy⟩
  by_cases hst : s = t
  · exact .inl hst
  · refine .inr (greedyLeast_of_consistent hacyclic hnonpos hst fun S ending hfinish hcontra => ?_)
    rw [(h S ending hfinish).1] at hcontra
    cases hcontra

end

end Intelliqx.Bidirectional
