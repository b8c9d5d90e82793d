import Intelliqx.Layers.StateTransition

/-!
# Visiting classes from two drafts

What a visit adds depends on the draft only through the ids it tests. Two
drafts that agree on these, and two entity lists with the same members, are
given the same ids and edges.
-/

namespace Intelliqx.Graph

open CallGraph (makeNodeId nodeId)

namespace Draft

variable {R : String → Prop} {d d' d₁ d₁' d₂ d₂' : Draft}

def AgreeOn (R : String → Prop) (d d' : Draft) : Prop :=
  ∀ x, R x → (x ∈ d.nodeIds ↔ x ∈ d'.nodeIds)

/-- From `d` to `d₁` has come what has come from `d'` to `d₁'`. -/
def SameAdds (d d₁ d' d₁' : Draft) : Prop :=
  ∃ ids links, Adds d d₁ ids links ∧ Adds d' d₁' ids links

theorem SameAdds.refl (d d' : Draft) : SameAdds d d d' d' := ⟨[], [], .refl d, .refl d'⟩

theorem SameAdds.trans (h : SameAdds d d₁ d' d₁') (h' : SameAdds d₁ d₂ d₁' d₂') :
    SameAdds d d₂ d' d₂' := by
  obtain ⟨_, _, h₁, h₂⟩ := h
  obtain ⟨_, _, h₁', h₂'⟩ := h'
  exact ⟨_, _, h₁.trans h₁', h₂.trans h₂'⟩

theorem AgreeOn.after (h : AgreeOn R d d') (hadds : SameAdds d d₁ d' d₁') : AgreeOn R d₁ d₁' := by
  obtain ⟨ids, links, h₁, h₂⟩ := hadds
  intro x hx
  rw [h₁.mem_nodeIds, h₂.mem_nodeIds, h x hx]

theorem SameAdds.foldl {step step' : Draft → α → Draft} {l : List α}
    (hstep : ∀ a ∈ l, ∀ d d', AgreeOn R d d' → SameAdds d (step d a) d' (step' d' a))
    (h : AgreeOn R d d') : SameAdds d (l.foldl step d) d' (l.foldl step' d') := by
  induction l generalizing d d' with
  | nil => exact .refl d d'
  | cons a l ih =>
    have ha := hstep a List.mem_cons_self d d' h
    exact ha.trans (ih (fun b hb => hstep b (List.mem_cons_of_mem _ hb)) (h.after ha))

theorem Adds.congr_links {links links' : List SGIREdge} (h : Adds d d₁ ids links)
    (hl : ∀ e, e ∈ links ↔ e ∈ links') : Adds d d₁ ids links' :=
  ⟨h.mem_nodeIds, fun e => by rw [h.mem_edges, hl]⟩

end Draft

namespace StateTransition

open Draft (AgreeOn SameAdds)

section
variable {lower : String → String} {R : String → Prop} {d d' : Draft}
  {entities entities' : List ParsedEntity} {m : ParsedEntity}

theorem sameAdds_visitLifecycle (hR : R (makeNodeId m.filePath name)) (h : AgreeOn R d d') :
    SameAdds d (visitLifecycle name d m) d' (visitLifecycle name d' m) := by
  refine ⟨_, _, adds_visitLifecycle name d m, (adds_visitLifecycle name d' m).congr_links ?_⟩
  intro e
  simp only [Draft.mem_nodeIds_add, h _ hR]

theorem sameAdds_linkNext {pair : ParsedEntity × ParsedEntity} (hR : R (nodeId pair.1))
    (hR' : R (nodeId pair.2)) (h : AgreeOn R d d') :
    SameAdds d (linkNext d pair) d' (linkNext d' pair) := by
  refine ⟨_, _, adds_linkNext d pair, (adds_linkNext d' pair).congr_links ?_⟩
  intro e
  simp only [h _ hR, h _ hR']

theorem sameAdds_visitEvent (hmem : ∀ e, e ∈ entities ↔ e ∈ entities')
    (hR : ∀ e ∈ entities, e.name ∈ m.calls → R (nodeId e)) (h : AgreeOn R d d') :
    SameAdds d (visitEvent entities d m) d' (visitEvent entities' d' m) := by
  refine ⟨_, _, adds_visitEvent entities d m, (adds_visitEvent entities' d' m).congr_links ?_⟩
  intro edge
  simp only [mem_eventEdges, mem_resolveIds, Draft.mem_nodeIds_add, ← hmem]
  constructor
  · rintro ⟨_, hc, _, ⟨hx, e, he, rfl, rfl⟩, hrest⟩
    exact ⟨_, hc, _, ⟨by rwa [h _ (hR e he hc)], e, he, rfl, rfl⟩, hrest⟩
  · rintro ⟨_, hc, _, ⟨hx, e, he, rfl, rfl⟩, hrest⟩
    exact ⟨_, hc, _, ⟨by rwa [← h _ (hR e he hc)], e, he, rfl, rfl⟩, hrest⟩

/-- The visit of a class tests these ids only. -/
structure Tests (lower : String → String) (entities : List ParsedEntity) (R : String → Prop)
    (group : String × List ParsedEntity) : Prop where
  own : ∀ m ∈ group.2, R (makeNodeId m.filePath group.1)
  method : ∀ m ∈ group.2, R (nodeId m)
  called : ∀ m ∈ group.2, isEvent lower m = true → ∀ e ∈ entities, e.name ∈ m.calls → R (nodeId e)

theorem sameAdds_visitClass {group : String × List ParsedEntity}
    (hmem : ∀ e, e ∈ entities ↔ e ∈ entities') (hR : Tests lower entities R group)
    (h : AgreeOn R d d') :
    SameAdds d (visitClass lower entities d group) d' (visitClass lower entities' d' group) := by
  have hlifecycle : SameAdds d ((group.2.filter (isLifecycle lower)).foldl (visitLifecycle group.1) d)
      d' ((group.2.filter (isLifecycle lower)).foldl (visitLifecycle group.1) d') :=
    SameAdds.foldl (fun m hm _ _ hd => sameAdds_visitLifecycle (hR.own m (List.mem_filter.mp hm).1) hd) h
  have hpairs : ∀ pair ∈ (group.2.filter (isLifecycle lower)).zip (group.2.filter (isLifecycle lower)).tail,
      R (nodeId pair.1) ∧ R (nodeId pair.2) := by
    intro pair hp
    obtain ⟨h₁, h₂⟩ := List.of_mem_zip hp
    exact ⟨hR.method _ (List.mem_filter.mp h₁).1,
      hR.method _ (List.mem_filter.mp (List.mem_of_mem_tail h₂)).1⟩
  have hnext : ∀ d d', AgreeOn R d d' → SameAdds d (((group.2.filter (isLifecycle lower)).zip
      (group.2.filter (isLifecycle lower)).tail).foldl linkNext d) d' (((group.2.filter
      (isLifecycle lower)).zip (group.2.filter (isLifecycle lower)).tail).foldl linkNext d') :=
    fun d d' => SameAdds.foldl fun pair hp _ _ hd =>
      sameAdds_linkNext (hpairs pair hp).1 (hpairs pair hp).2 hd
  have hevent : ∀ d d', AgreeOn R d d' →
      SameAdds d ((group.2.filter (isEvent lower)).foldl (visitEvent entities) d)
        d' ((group.2.filter (isEvent lower)).foldl (visitEvent entities') d') :=
    fun d d' => SameAdds.foldl fun m hm _ _ hd => sameAdds_visitEvent hmem
      (hR.called m (List.mem_filter.mp hm).1 (List.mem_filter.mp hm).2) hd
  have hagree := h.after hlifecycle
  have hnext := hnext _ _ hagree
  exact (hlifecycle.trans hnext).trans (hevent _ _ (hagree.after hnext))

theorem sameAdds_visitClasses {groups : List (String × List ParsedEntity)}
    (hmem : ∀ e, e ∈ entities ↔ e ∈ entities') (hR : ∀ group ∈ groups, Tests lower entities R group)
    (h : AgreeOn R d d') :
    SameAdds d (visitClasses lower entities groups d) d' (visitClasses lower entities' groups d') :=
  SameAdds.foldl (fun group hg _ _ hd => sameAdds_visitClass hmem (hR group hg) hd) h

end

-- ---------------------------------------------------------------------------
-- Blocks of classes
-- ---------------------------------------------------------------------------

section
variable {lower : String → String} {entities entities' : List ParsedEntity} {start start' : Draft}
  {β : Type} {groups : β → List (String × List ParsedEntity)}

/-- The edges of a block that is visited first. -/
def blockEdges (lower : String → String) (entities : List ParsedEntity) (start : Draft)
    (groups : β → List (String × List ParsedEntity)) (b : β) : List SGIREdge :=
  (visitClasses lower entities (groups b) start).edges

/-- Where no block tests an id that another one brings, each adds what it adds when it comes first. -/
theorem adds_blocks {R : β → String → Prop} (done : List β) {bs : List β} {d : Draft}
    (hmem : ∀ e, e ∈ entities ↔ e ∈ entities') (hstart : start.edges = [])
    (hR : ∀ b ∈ bs, ∀ group ∈ groups b, Tests lower entities (R b) group)
    (hapart : (done ++ bs).Pairwise fun a b => ∀ x, R b x →
      x ∈ (groups a).flatMap (visitedIds lower) → x ∈ start.nodeIds)
    (hd : ∀ x, x ∈ d.nodeIds ↔ x ∈ start.nodeIds ∨
      ∃ b ∈ done, x ∈ (groups b).flatMap (visitedIds lower)) :
    Draft.Adds d (visitClasses lower entities' (bs.flatMap groups) d)
      ((bs.flatMap groups).flatMap (visitedIds lower))
      (bs.flatMap (blockEdges lower entities start groups)) := by
  induction bs generalizing done d with
  | nil => exact .refl d
  | cons b bs ih =>
    have hgrows : Draft.Grows d (visitClasses lower entities' (groups b) d)
        ((groups b).flatMap (visitedIds lower)) := grows_visitClasses entities' (groups b) d
    have hagree : AgreeOn (R b) start d := by
      intro x hx
      rw [hd]
      refine ⟨.inl, ?_⟩
      rintro (h | ⟨a, ha, h⟩)
      · exact h
      · exact (List.pairwise_append.mp hapart).2.2 a ha b List.mem_cons_self x hx h
    obtain ⟨ids, links, hfirst, hnow⟩ := sameAdds_visitClasses hmem (hR b List.mem_cons_self) hagree
    have hblock : Draft.Adds d (visitClasses lower entities' (groups b) d)
        ((groups b).flatMap (visitedIds lower)) (blockEdges lower entities start groups b) := by
      refine ⟨hgrows.mem_nodeIds, ?_⟩
      intro e
      rw [hnow.mem_edges, blockEdges, hfirst.mem_edges, hstart]
      simp
    have hapart' : (done ++ [b] ++ bs).Pairwise fun a b => ∀ x, R b x →
        x ∈ (groups a).flatMap (visitedIds lower) → x ∈ start.nodeIds := by
      rwa [List.append_assoc]
    have hd' : ∀ x, x ∈ (visitClasses lower entities' (groups b) d).nodeIds ↔ x ∈ start.nodeIds ∨
        ∃ c ∈ done ++ [b], x ∈ (groups c).flatMap (visitedIds lower) := by
      intro x
      rw [hgrows.mem_nodeIds, hd, or_assoc]
      simp only [List.mem_append, List.mem_singleton, or_and_right, exists_or, exists_eq_left]
    have hall := hblock.trans (ih (done ++ [b])
      (fun c hc => hR c (List.mem_cons_of_mem _ hc)) hapart' hd')
    rw [List.flatMap_cons, List.flatMap_append, List.flatMap_cons, visitClasses, List.foldl_append]
    exact hall

end

end StateTransition

end Intelliqx.Graph
