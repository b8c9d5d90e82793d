import Intelliqx.Layers.SecurityGraph

/-!
# The order of the patterns

`detect_auth_patterns` stops at the first pattern it meets in a name, and the
patterns are a set. The layer is the same for every order of the set exactly
when each pattern that occurs in a name of some node id is the only one in
another name of that id (`order_free_iff`).
-/

namespace Intelliqx.Graph.SecurityGraph

open CallGraph (makeNodeId nodeId nodeType callables)

-- ---------------------------------------------------------------------------
-- Two orders for each pattern
-- ---------------------------------------------------------------------------

section
variable {p : String} (hp : p ∈ authPatterns)

def PatternOrder.first : PatternOrder := ⟨p :: authPatterns.erase p, (List.perm_cons_erase hp).symm⟩

def PatternOrder.last : PatternOrder :=
  ⟨authPatterns.erase p ++ [p], List.perm_append_comm.trans (List.perm_cons_erase hp).symm⟩

end

-- ---------------------------------------------------------------------------
-- What an order detects
-- ---------------------------------------------------------------------------

section
variable (lower : String → String) (entities : List ParsedEntity)

/-- Some entity of the node id makes the scan stop at the pattern. -/
def Detects (order : PatternOrder) (owner p : String) : Prop :=
  ∃ e ∈ callables entities, nodeId e = owner ∧ p ∈ detectAuthPatterns lower order e

/-- No order of the patterns changes the node ids or the edges. -/
def OrderFree : Prop :=
  ∀ order order', (build lower order entities).SameNodeIds (build lower order' entities) ∧
    (build lower order entities).SameEdges (build lower order' entities)

/-- `p` and no other pattern is in the name. -/
def OnlyPattern (p name : String) : Prop :=
  Py.within p (lower name) ∧ ∀ q ∈ authPatterns, Py.within q (lower name) → q = p

/-- Each pattern in a name of an entity is alone in a name of an entity of the same id. -/
def EachAlone : Prop :=
  ∀ e ∈ callables entities, ∀ name ∈ allNames e, ∀ p ∈ authPatterns, Py.within p (lower name) →
    ∃ e' ∈ callables entities, nodeId e' = nodeId e ∧ ∃ name' ∈ allNames e', OnlyPattern lower p name'

end

section
variable {lower : String → String} {entities : List ParsedEntity} {order order' : PatternOrder}

theorem mem_patterns (order : PatternOrder) : q ∈ order.patterns ↔ q ∈ authPatterns := order.perm.mem_iff

theorem mem_detectAuthPatterns : p ∈ detectAuthPatterns lower order e ↔
    ∃ name ∈ allNames e, order.patterns.find? (fun pattern => Py.within pattern (lower name)) = some p := by
  have hfirst : p ∈ (detectAuthPatterns lower order e).map id ↔
      ∃ q ∈ (allNames e).filterMap fun name => order.patterns.find? fun pattern => Py.within pattern (lower name),
        id q = p := mem_map_firstBy
  rw [List.map_id] at hfirst
  simpa [List.mem_filterMap] using hfirst

theorem detects_of_only (he : e ∈ callables entities) (hname : name ∈ allNames e) (hp : p ∈ authPatterns)
    (honly : OnlyPattern lower p name) (order : PatternOrder) :
    Detects lower entities order (nodeId e) p := by
  refine ⟨e, he, rfl, mem_detectAuthPatterns.mpr ⟨name, hname, ?_⟩⟩
  exact find?_eq_some_of_only ((mem_patterns order).mpr hp) honly.1
    fun q hq => honly.2 q ((mem_patterns order).mp hq)

theorem detects_first (he : e ∈ callables entities) (hname : name ∈ allNames e) (hp : p ∈ authPatterns)
    (hwithin : Py.within p (lower name)) : Detects lower entities (.first hp) (nodeId e) p := by
  refine ⟨e, he, rfl, mem_detectAuthPatterns.mpr ⟨name, hname, ?_⟩⟩
  simp [PatternOrder.first, hwithin]

theorem only_of_detects_last {hp : p ∈ authPatterns} (h : Detects lower entities (.last hp) owner p) :
    ∃ e ∈ callables entities, nodeId e = owner ∧ ∃ name ∈ allNames e, OnlyPattern lower p name := by
  obtain ⟨e, he, hid, hmem⟩ := h
  obtain ⟨name, hname, hfind⟩ := mem_detectAuthPatterns.mp hmem
  exact ⟨e, he, hid, name, hname, only_of_find?_last (by decide) hfind⟩

/-- An order detects what another one does exactly when each pattern is alone somewhere. -/
theorem detects_congr_iff : (∀ order order' owner p, Detects lower entities order owner p →
      Detects lower entities order' owner p) ↔ EachAlone lower entities := by
  constructor
  · intro h e he name hname p hp hwithin
    exact only_of_detects_last (h (.first hp) (.last hp) _ p (detects_first he hname hp hwithin))
  · rintro h order order' owner p ⟨e, he, rfl, hmem⟩
    obtain ⟨name, hname, hfind⟩ := mem_detectAuthPatterns.mp hmem
    have hp : p ∈ authPatterns := (mem_patterns order).mp (List.mem_of_find?_eq_some hfind)
    have hwithin : Py.within p (lower name) = true := by simpa using List.find?_some hfind
    obtain ⟨e', he', hid, name', hname', honly⟩ := h e he name hname p hp hwithin
    rw [← hid]
    exact detects_of_only he' hname' hp honly order'

-- ---------------------------------------------------------------------------
-- What the layer shows of it
-- ---------------------------------------------------------------------------

def eventEdge (owner p : String) : SGIREdge where
  source := owner
  target := securityId p
  edgeType := .event
  label := p

theorem mem_edges_event : eventEdge owner p ∈ (build lower order entities).edges ↔
    Detects lower entities order owner p := by
  rw [mem_edges]
  refine exists_congr fun e => and_congr_right fun _ => ?_
  simp only [links, List.mem_append, List.mem_map]
  constructor
  · rintro (⟨q, hq, hedge⟩ | ⟨ref, -, hedge⟩)
    · obtain ⟨hid, -, hlabel⟩ : nodeId e = owner ∧ securityId q = securityId p ∧ q = p := by
        simpa [securityEdge, eventEdge] using hedge
      exact ⟨hid, hlabel ▸ hq⟩
    · simp [sensitiveEdge, eventEdge] at hedge
  · rintro ⟨rfl, hp⟩
    exact .inl ⟨p, hp, rfl⟩

/-- An edge to a security concern, or one that every order brings. -/
theorem mem_edges_iff : edge ∈ (build lower order entities).edges ↔
    (∃ owner p, Detects lower entities order owner p ∧ eventEdge owner p = edge) ∨
      ∃ e ∈ callables entities, ∃ ref ∈ e.references.filter (isSensitiveData lower), sensitiveEdge e ref = edge := by
  simp only [mem_edges, links, List.mem_append, List.mem_map, and_or_left, exists_or]
  refine or_congr ⟨?_, ?_⟩ Iff.rfl
  · rintro ⟨e, he, p, hp, rfl⟩
    exact ⟨nodeId e, p, ⟨e, he, rfl, hp⟩, rfl⟩
  · rintro ⟨owner, p, ⟨e, he, rfl, hp⟩, rfl⟩
    exact ⟨e, he, p, hp, rfl⟩

theorem mem_nodeIds_iff : x ∈ (build lower order entities).nodeIds ↔
    (∃ owner p, Detects lower entities order owner p ∧ securityId p = x) ∨
      ∃ e ∈ callables entities, x = nodeId e ∨
        ∃ ref ∈ e.references.filter (isSensitiveData lower), sensitiveId ref = x := by
  simp only [mem_nodeIds, ids, List.mem_append, List.mem_cons, List.mem_map]
  constructor
  · rintro ⟨e, he, (hx | ⟨p, hp, rfl⟩) | hx⟩
    · exact .inr ⟨e, he, .inl hx⟩
    · exact .inl ⟨nodeId e, p, ⟨e, he, rfl, hp⟩, rfl⟩
    · exact .inr ⟨e, he, .inr hx⟩
  · rintro (⟨owner, p, ⟨e, he, rfl, hp⟩, rfl⟩ | ⟨e, he, hx | hx⟩)
    · exact ⟨e, he, .inl (.inr ⟨p, hp, rfl⟩)⟩
    · exact ⟨e, he, .inl (.inl hx)⟩
    · exact ⟨e, he, .inr hx⟩

/-- The layer is the same for every order of the patterns exactly when each
pattern in a name of an id is alone in a name of that id. -/
theorem order_free_iff (lower : String → String) (entities : List ParsedEntity) :
    OrderFree lower entities ↔ EachAlone lower entities := by
  rw [← detects_congr_iff]
  constructor
  · intro h order order' owner p hdetects
    have hedge := mem_edges_event.mpr hdetects
    exact mem_edges_event.mp (((h order order').2 (eventEdge owner p)).mp hedge)
  · intro h order order'
    have hsame : ∀ owner p, Detects lower entities order owner p ↔ Detects lower entities order' owner p :=
      fun owner p => ⟨h order order' owner p, h order' order owner p⟩
    refine ⟨fun x => ?_, fun edge => ?_⟩
    · simp only [mem_nodeIds_iff, hsame]
    · simp only [mem_edges_iff, hsame]

def oauthCaller : ParsedEntity where
  name := "enter"
  entityType := "function"
  filePath := "app.py"
  lineStart := 1
  lineEnd := 2
  language := "python"
  calls := ["oauth_login"]

theorem login_mem : "login" ∈ authPatterns := by decide

theorem oauth_mem : "oauth" ∈ authPatterns := by decide

/-- `oauth_login` has three patterns in it, and none of them alone. -/
theorem oauth_login_depends : ¬ OrderFree String.toLower [oauthCaller] := by
  intro h
  have hlogin : securityId "login" ∈ (build String.toLower (.first login_mem) [oauthCaller]).nodeIds := by
    decide +kernel
  have hoauth : securityId "login" ∉ (build String.toLower (.first oauth_mem) [oauthCaller]).nodeIds := by
    decide +kernel
  exact hoauth (((h (.first login_mem) (.first oauth_mem)).1 _).mp hlogin)

end

end Intelliqx.Graph.SecurityGraph
