import Intelliqx.Graph.CallGraph

/-!
# A layer under construction

The builders append nodes and edges in loops. An id that is already there is
not declared again, so a draft never has two nodes of one id; `Adds` says what
a stretch of a loop contributes, and its rules follow the loops.
-/

namespace Intelliqx.Graph

open CallGraph (makeNodeId nodeId)

/-- The part of a node that every builder copies from the entity. -/
def SGIRNode.ofEntity (e : ParsedEntity) (nodeType : NodeType) : SGIRNode where
  id := nodeId e
  name := e.name
  purpose := (Py.truthy e.docstring).getD ""
  nodeType
  language := e.language
  sourceLocation := some {
    filePath := e.filePath
    lineStart := e.lineStart
    lineEnd := e.lineEnd }

def functions (entities : List ParsedEntity) : List ParsedEntity :=
  entities.filter fun e => e.entityType ∈ ["function", "method"]

def functionType (e : ParsedEntity) : NodeType :=
  if e.entityType = "method" then .method else .function

/-- Nodes and edges so far. `node_ids` of the source is `nodeIds`: an id enters the set together
with its node. -/
structure Draft where
  nodes : List SGIRNode
  edges : List SGIREdge
  distinct : (nodes.map SGIRNode.id).Nodup

namespace Draft

def empty : Draft := ⟨[], [], List.nodup_nil⟩

def nodeIds (d : Draft) : List String := d.nodes.map SGIRNode.id

/-- Append the node unless its id is there. -/
def add (d : Draft) (n : SGIRNode) : Draft :=
  if h : n.id ∈ d.nodeIds then d
  else ⟨d.nodes ++ [n], d.edges, by
    rw [List.map_append, List.nodup_append_comm]
    exact List.nodup_cons.mpr ⟨h, d.distinct⟩⟩

def link (d : Draft) (e : SGIREdge) : Draft := { d with edges := d.edges ++ [e] }

def linkAll (d : Draft) (es : List SGIREdge) : Draft := { d with edges := d.edges ++ es }

/-- Append the node unless its id is there, and the edge in any case. -/
def attach (d : Draft) (n : SGIRNode) (e : SGIREdge) : Draft := (d.add n).link e

def attachAll (d : Draft) (l : List α) (node : α → SGIRNode) (edge : α → SGIREdge) : Draft :=
  l.foldl (fun d a => d.attach (node a) (edge a)) d

def graph (d : Draft) (layer : GraphLayer) : SGIRGraph := { layer, nodes := d.nodes, edges := d.edges }

variable {d d' d'' : Draft}

@[simp] theorem nodeIds_empty : empty.nodeIds = [] := rfl

@[simp] theorem edges_empty : empty.edges = [] := rfl

@[simp] theorem nodeIds_graph : (d.graph layer).nodeIds = d.nodeIds := rfl

@[simp] theorem edges_graph : (d.graph layer).edges = d.edges := rfl

@[simp] theorem mem_nodeIds_add : x ∈ (d.add n).nodeIds ↔ x ∈ d.nodeIds ∨ x = n.id := by
  unfold add
  split
  · rename_i h
    exact ⟨.inl, fun hx => hx.elim id fun he => he ▸ h⟩
  · simp [nodeIds]

@[simp] theorem edges_add : (d.add n).edges = d.edges := by
  unfold add
  split <;> rfl

@[simp] theorem nodeIds_link : (d.link e).nodeIds = d.nodeIds := rfl

@[simp] theorem edges_link : (d.link e).edges = d.edges ++ [e] := rfl

@[simp] theorem nodeIds_linkAll : (d.linkAll es).nodeIds = d.nodeIds := rfl

@[simp] theorem edges_linkAll : (d.linkAll es).edges = d.edges ++ es := rfl

-- ---------------------------------------------------------------------------
-- No dangling edge
-- ---------------------------------------------------------------------------

def Closed (d : Draft) : Prop := ∀ e ∈ d.edges, e.source ∈ d.nodeIds ∧ e.target ∈ d.nodeIds

theorem closed_empty : empty.Closed := fun _ he => (nomatch he)

theorem Closed.wellFormed (h : d.Closed) : (d.graph layer).WellFormed := ⟨d.distinct, h⟩

-- ---------------------------------------------------------------------------
-- What a loop contributes
-- ---------------------------------------------------------------------------

/-- From `d` to `d'` these ids and edges have come, in whatever order and number. -/
structure Adds (d d' : Draft) (ids : List String) (links : List SGIREdge) : Prop where
  mem_nodeIds : ∀ x, x ∈ d'.nodeIds ↔ x ∈ d.nodeIds ∨ x ∈ ids
  mem_edges : ∀ e, e ∈ d'.edges ↔ e ∈ d.edges ∨ e ∈ links

section
variable {ids ids' : List String} {links links' : List SGIREdge}

theorem Adds.refl (d : Draft) : Adds d d [] [] := ⟨by simp, by simp⟩

theorem Adds.trans (h : Adds d d' ids links) (h' : Adds d' d'' ids' links') :
    Adds d d'' (ids ++ ids') (links ++ links') := by
  constructor
  · intro x
    rw [h'.mem_nodeIds, h.mem_nodeIds, List.mem_append, or_assoc]
  · intro e
    rw [h'.mem_edges, h.mem_edges, List.mem_append, or_assoc]

theorem adds_add (d : Draft) (n : SGIRNode) : Adds d (d.add n) [n.id] [] := ⟨by simp, by simp⟩

theorem adds_link (d : Draft) (e : SGIREdge) : Adds d (d.link e) [] [e] := ⟨by simp, by simp⟩

theorem adds_linkAll (d : Draft) (es : List SGIREdge) : Adds d (d.linkAll es) [] es :=
  ⟨by simp, by simp⟩

theorem Adds.closed (h : Adds d d' ids links) (hd : d.Closed)
    (hl : ∀ e ∈ links, e.source ∈ d'.nodeIds ∧ e.target ∈ d'.nodeIds) : d'.Closed := by
  intro e he
  rcases (h.mem_edges e).mp he with he | he
  · obtain ⟨hs, ht⟩ := hd e he
    exact ⟨(h.mem_nodeIds _).mpr (.inl hs), (h.mem_nodeIds _).mpr (.inl ht)⟩
  · exact hl e he

end

section
variable {l : List α} {ids : α → List String} {links : α → List SGIREdge}

theorem adds_attach (d : Draft) (n : SGIRNode) (e : SGIREdge) : Adds d (d.attach n e) [n.id] [e] :=
  (adds_add d n).trans (adds_link _ e)

/-- A loop over a state that holds the draft. -/
theorem Adds.foldl (draft : σ → Draft) {step : σ → α → σ}
    (hstep : ∀ s, ∀ a ∈ l, Adds (draft s) (draft (step s a)) (ids a) (links a)) (s : σ) :
    Adds (draft s) (draft (l.foldl step s)) (l.flatMap ids) (l.flatMap links) := by
  induction l generalizing s with
  | nil => exact .refl _
  | cons a l ih =>
    have hrest := ih (fun s b hb => hstep s b (List.mem_cons_of_mem _ hb)) (step s a)
    simpa using (hstep s a List.mem_cons_self).trans hrest

theorem adds_attachAll (d : Draft) (l : List α) (node : α → SGIRNode) (edge : α → SGIREdge) :
    Adds d (d.attachAll l node edge) (l.map fun a => (node a).id) (l.map edge) := by
  rw [List.map_eq_flatMap, List.map_eq_flatMap]
  exact Adds.foldl id (fun d a _ => adds_attach d (node a) (edge a)) d

/-- What the steps of a loop bring, each with what is there when it comes. -/
theorem mem_edges_foldl {step : Draft → α → Draft} {brings : Draft → α → Prop}
    (hstep : ∀ d a, e ∈ (step d a).edges ↔ e ∈ d.edges ∨ brings d a) (l : List α) (d : Draft) :
    e ∈ (l.foldl step d).edges ↔
      e ∈ d.edges ∨ ∃ before a after, l = before ++ a :: after ∧ brings (before.foldl step d) a := by
  induction l using List.reverseRecOn with
  | nil => simp
  | append_singleton l a ih =>
    rw [List.foldl_append, List.foldl_cons, List.foldl_nil, hstep, ih, or_assoc]
    exact or_congr_right (exists_split_concat (p := fun before a => brings (before.foldl step d) a)).symm

theorem closed_foldl {step : Draft → α → Draft}
    (hstep : ∀ d, d.Closed → ∀ a ∈ l, (step d a).Closed) (hd : d.Closed) :
    (l.foldl step d).Closed := by
  induction l generalizing d with
  | nil => exact hd
  | cons a l ih =>
    exact ih (fun d hd b hb => hstep d hd b (List.mem_cons_of_mem _ hb))
      (hstep d hd a List.mem_cons_self)

/-- From `d` to `d'` these ids have come, and no dangling edge. -/
structure Grows (d d' : Draft) (ids : List String) : Prop where
  mem_nodeIds : ∀ x, x ∈ d'.nodeIds ↔ x ∈ d.nodeIds ∨ x ∈ ids
  closed : d.Closed → d'.Closed

theorem Grows.refl (d : Draft) : Grows d d [] := ⟨by simp, id⟩

theorem Grows.trans (h : Grows d d' is) (h' : Grows d' d'' js) : Grows d d'' (is ++ js) := by
  refine ⟨?_, h'.closed ∘ h.closed⟩
  intro x
  rw [h'.mem_nodeIds, h.mem_nodeIds, List.mem_append, or_assoc]

theorem Adds.grows (h : Adds d d' is es)
    (hes : ∀ e ∈ es, e.source ∈ d'.nodeIds ∧ e.target ∈ d'.nodeIds) : Grows d d' is :=
  ⟨h.mem_nodeIds, fun hd => h.closed hd hes⟩

theorem Grows.foldl {step : Draft → α → Draft} (hstep : ∀ d, ∀ a ∈ l, Grows d (step d a) (ids a))
    (d : Draft) : Grows d (l.foldl step d) (l.flatMap ids) := by
  induction l generalizing d with
  | nil => exact .refl d
  | cons a l ih =>
    have hrest := ih (fun d b hb => hstep d b (List.mem_cons_of_mem _ hb)) (step d a)
    simpa using (hstep d a List.mem_cons_self).trans hrest

/-- An id that comes again brings the same edges. -/
theorem mem_edges_again {edges : String → List SGIREdge} {id : String} {ids before after : List String}
    (hafter : ∀ x, x ∈ after ↔ x ∈ before ∨ x ∈ [id]) :
    e ∈ (ids.filter (· ∉ after)).flatMap edges ∨ e ∈ edges id ↔
      e ∈ (ids.filter (· ∉ before)).flatMap edges ∨ e ∈ edges id := by
  simp only [List.mem_flatMap, List.mem_filter, decide_eq_true_eq, hafter, List.mem_singleton, not_or]
  constructor
  · rintro (⟨x, ⟨hx, hd, -⟩, he⟩ | he)
    · exact .inl ⟨x, ⟨hx, hd⟩, he⟩
    · exact .inr he
  · rintro (⟨x, ⟨hx, hd⟩, he⟩ | he)
    · by_cases hxa : x = id
      · exact .inr (hxa ▸ he)
      · exact .inl ⟨x, ⟨hx, hd, hxa⟩, he⟩
    · exact .inr he

/-- A loop that does something only where the id is new. -/
theorem Adds.foldl_new {key : α → String} {step : Draft → α → Draft} {edges : String → List SGIREdge}
    (hold : ∀ d' a, key a ∈ d'.nodeIds → step d' a = d')
    (hnew : ∀ d' a, d.nodeIds ⊆ d'.nodeIds → key a ∉ d'.nodeIds →
      Adds d' (step d' a) [key a] (edges (key a))) :
    Adds d (l.foldl step d) (l.map key) (((l.map key).filter (· ∉ d.nodeIds)).flatMap edges) := by
  induction l generalizing d with
  | nil => exact .refl d
  | cons a l ih =>
    rw [List.foldl_cons, List.map_cons]
    by_cases ha : key a ∈ d.nodeIds
    · have hrest := ih hnew
      rw [hold d a ha]
      constructor
      · intro x
        rw [hrest.mem_nodeIds, List.mem_cons]
        constructor
        · rintro (hx | hx)
          · exact .inl hx
          · exact .inr (.inr hx)
        · rintro (hx | rfl | hx)
          · exact .inl hx
          · exact .inl ha
          · exact .inr hx
      · intro e
        rw [hrest.mem_edges, List.filter_cons_of_neg (by simpa using ha)]
    · have hstep := hnew d a (fun _ hx => hx) ha
      have hsub : d.nodeIds ⊆ (step d a).nodeIds := fun x hx => (hstep.mem_nodeIds x).mpr (.inl hx)
      have hrest := ih fun d' b hd' => hnew d' b fun x hx => hd' (hsub hx)
      constructor
      · intro x
        rw [hrest.mem_nodeIds, hstep.mem_nodeIds, List.mem_singleton, List.mem_cons, or_assoc]
      · intro e
        rw [hrest.mem_edges, hstep.mem_edges, List.filter_cons_of_pos (by simpa using ha),
          List.flatMap_cons, List.mem_append, or_assoc]
        rw [or_comm (a := e ∈ edges (key a)), mem_edges_again fun x => hstep.mem_nodeIds x,
          or_comm (a := e ∈ edges (key a))]

/-- A loop that passes over an id that is there. Where nothing else brings the
ids it is keyed by, it works on the first item of each. -/
theorem Adds.foldl_firstBy {key : α → String} {extra : α → List String} {step : Draft → α → Draft}
    (hold : ∀ d a, key a ∈ d.nodeIds → step d a = d)
    (hnew : ∀ d a, key a ∉ d.nodeIds → Adds d (step d a) (key a :: extra a) (links a))
    (hapart : ∀ a ∈ l, ∀ b ∈ l, key a ∉ extra b) :
    Adds empty (l.foldl step empty) ((firstBy key l).flatMap fun a => key a :: extra a)
      ((firstBy key l).flatMap links) := by
  have hgo : ∀ seen d, (∀ a ∈ l, key a ∈ d.nodeIds ↔ key a ∈ seen) →
      Adds d (l.foldl step d) ((firstBy.go key seen l).flatMap fun a => key a :: extra a)
        ((firstBy.go key seen l).flatMap links) := by
    induction l with
    | nil => intro seen d _; exact .refl d
    | cons a l ih =>
      intro seen d hseen
      have hrest := ih fun a ha b hb => hapart a (List.mem_cons_of_mem _ ha) b (List.mem_cons_of_mem _ hb)
      rw [List.foldl_cons, firstBy.go]
      split
      · rename_i ha
        rw [hold d a ((hseen a List.mem_cons_self).mpr ha)]
        exact hrest seen d fun b hb => hseen b (List.mem_cons_of_mem _ hb)
      · rename_i ha
        have hstep := hnew d a fun h => ha ((hseen a List.mem_cons_self).mp h)
        refine hstep.trans (hrest (key a :: seen) _ ?_)
        intro b hb
        have hb := List.mem_cons_of_mem a hb
        rw [hstep.mem_nodeIds, hseen b hb, List.mem_cons, List.mem_cons, or_comm]
        simp only [hapart b hb a List.mem_cons_self, or_false]
  exact hgo [] empty (by simp)

end

end Draft

-- ---------------------------------------------------------------------------
-- Nodes that take their complexity from the entity
-- ---------------------------------------------------------------------------

def withComplexity (e : ParsedEntity) (n : SGIRNode) : Except ValidationError SGIRNode := do
  let complexity ← ComplexityEstimate.ofValue e.complexity
  return { n with complexity }

/-- One node for each id, of the first entity that has it, and these edges. -/
def declareAll (layer : GraphLayer) (entities : List ParsedEntity) (node : ParsedEntity → SGIRNode)
    (edges : List SGIREdge) : Except ValidationError SGIRGraph := do
  let nodes ← (firstBy nodeId entities).mapM fun e => withComplexity e (node e)
  return { layer, nodes, edges }

def ComplexityEstimate.Accepts (s : String) : Prop :=
  s ∈ ComplexityEstimate.all.map ComplexityEstimate.value

instance : Decidable (ComplexityEstimate.Accepts s) := inferInstanceAs (Decidable (s ∈ _))

section
variable {entities : List ParsedEntity} {node : ParsedEntity → SGIRNode} {edges : List SGIREdge}
  {g : SGIRGraph}

theorem withComplexity_isOk (h : ComplexityEstimate.Accepts e.complexity) (n : SGIRNode) :
    ∃ m, withComplexity e n = .ok m := by
  obtain ⟨c, hc⟩ := ComplexityEstimate.ofValue_ok_iff.mpr h
  exact ⟨_, by rw [withComplexity, hc]; rfl⟩

theorem withComplexity_id (h : withComplexity e n = .ok m) : m.id = n.id := by
  unfold withComplexity at h
  cases hc : ComplexityEstimate.ofValue e.complexity with
  | error err => simp [hc] at h
  | ok c =>
    simp only [hc, bind_ok_eq, pure_eq_ok, Except.ok.injEq] at h
    rw [← h]

theorem declareAll_isOk (h : ∀ e ∈ entities, ComplexityEstimate.Accepts e.complexity) :
    ∃ g, declareAll layer entities node edges = .ok g := by
  obtain ⟨nodes, hn⟩ : ∃ nodes, (firstBy nodeId entities).mapM (fun e => withComplexity e (node e)) =
      .ok nodes := mapM_isOk_iff.mpr fun e he => withComplexity_isOk (h e (mem_of_mem_firstBy he)) _
  exact ⟨_, by rw [declareAll, hn]; rfl⟩

theorem declareAll_ok (hid : ∀ e, (node e).id = nodeId e)
    (h : declareAll layer entities node edges = .ok g) :
    g.layer = layer ∧ g.nodeIds = (firstBy nodeId entities).map nodeId ∧ g.edges = edges := by
  unfold declareAll at h
  cases hn : (firstBy nodeId entities).mapM fun e => withComplexity e (node e) with
  | error err => simp [hn] at h
  | ok nodes =>
    simp only [hn, bind_ok_eq, pure_eq_ok, Except.ok.injEq] at h
    subst h
    refine ⟨rfl, ?_, rfl⟩
    exact map_of_mapM_ok (fun e n hm => (withComplexity_id hm).trans (hid e)) hn

/-- The layer is well formed when its edges join ids of its entities. -/
theorem declareAll_wellFormed (hid : ∀ e, (node e).id = nodeId e)
    (h : declareAll layer entities node edges = .ok g)
    (hedges : ∀ edge ∈ edges, (∃ e ∈ entities, nodeId e = edge.source) ∧
      ∃ e ∈ entities, nodeId e = edge.target) : g.WellFormed := by
  obtain ⟨-, hids, hlinks⟩ := declareAll_ok hid h
  constructor
  · rw [hids]
    exact nodup_firstBy
  · rw [hids, hlinks]
    intro edge he
    rw [mem_map_firstBy, mem_map_firstBy]
    exact hedges edge he

end

-- ---------------------------------------------------------------------------
-- Names
-- ---------------------------------------------------------------------------

/-- The declared ids of every entity of that name. -/
def resolveIds (name : String) (entities : List ParsedEntity) (nodeIds : List String) : List String :=
  ((entities.filter fun e => e.name = name).map nodeId).filter (· ∈ nodeIds)

theorem mem_resolveIds : x ∈ resolveIds name entities ids ↔
    x ∈ ids ∧ ∃ e ∈ entities, e.name = name ∧ nodeId e = x := by
  simp only [resolveIds, List.mem_filter, List.mem_map, decide_eq_true_eq]
  constructor
  · rintro ⟨⟨e, ⟨he, hn⟩, rfl⟩, hx⟩
    exact ⟨hx, e, he, hn, rfl⟩
  · rintro ⟨hx, e, he, hn, rfl⟩
    exact ⟨⟨e, ⟨he, hn⟩, rfl⟩, hx⟩

end Intelliqx.Graph
