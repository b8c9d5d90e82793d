import Intelliqx.Kg.Graph
import Mathlib.Data.List.Dedup
import Mathlib.Data.List.Perm.Subperm

/-!
# Neighbours of a node

`neighbors` joins the edges of a node with the nodes at their other ends and
lets DuckDB run the statement. Its tenant filter is on the edges alone, so an
edge of one tenant finds every node with the id it ends in, whoever owns it.
`neighbors_isolated_iff` says on which graphs no other tenant shows.
-/

namespace Intelliqx.Kg

open Py

/-- `SELECT DISTINCT n.id, n.type, n.tenant_id, n.attrs FROM kg_edges e JOIN
kg_nodes n ON e.joinOn = n.id WHERE e.endpoint = ? AND … LIMIT limit`, with one
`e.column = ?` for each column of `conds` and `1=1` where there is none. -/
structure Select where
  joinOn : String
  endpoint : String
  conds : List String
  limit : Nat := 1000

inductive Statement
  | select (q : Select)
  | union (left right : Statement)

structure Views where
  kgNodes : List Row
  kgEdges : List Row

/-- What `fetchall` and `description` return. -/
structure Answer where
  columns : List String
  tuples : List (List Cell)

structure KGQueryResult where
  rows : List Row
  columns : List String
  rowCount : Nat

def Row.text? (row : Row) (column : String) : Option String :=
  match row.lookup column with
  | some (.string s) => some s
  | _ => none

def selected : List String := ["id", "type", "tenant_id", "attrs"]

namespace Select

def Holds (q : Select) (params : List String) (edge : Row) : Prop :=
  ∀ c ∈ (q.endpoint :: q.conds).zip params, edge.text? c.1 = some c.2

instance : Decidable (Holds q params edge) := by unfold Holds; infer_instance

/-- An equality of two columns, which `NULL` never meets. -/
def Joins (q : Select) (edge node : Row) : Prop :=
  edge.text? q.joinOn = node.text? "id" ∧ (node.text? "id").isSome

instance : Decidable (Joins q edge node) := by unfold Joins; infer_instance

def project (node : Row) : List Cell :=
  selected.map fun column => (node.lookup column).getD .null

def joined (q : Select) (params : List String) (views : Views) : List (List Cell) :=
  (views.kgEdges.filter fun edge => q.Holds params edge).flatMap fun edge =>
    (views.kgNodes.filter fun node => q.Joins edge node).map project

end Select

/-- The query engine. Which of the distinct rows it lists first is its own
choice, and so is what it makes of any other statement. -/
structure DuckDB where
  execute : Statement → List String → Views → Except PyException Answer
  select : ∀ (q : Select) params views, params.length = q.conds.length + 1 →
    ∃ tuples : List (List Cell),
      execute (.select q) params views = .ok ⟨selected, tuples.take q.limit⟩ ∧
      tuples.Nodup ∧ ∀ tuple, tuple ∈ tuples ↔ tuple ∈ q.joined params views

namespace KnowledgeGraph

/-- An empty table gives a view without rows. -/
def registerViews (g : KnowledgeGraph) : Except PyException Views := do
  let kgNodes ← g.tableRows .nodes
  let kgEdges ← g.tableRows .edges
  .ok { kgNodes, kgEdges }

def query (duck : DuckDB) (g : KnowledgeGraph) (sql : Statement) (params : List String) :
    Except PyException KGQueryResult := do
  let views ← g.registerViews
  let result ← duck.execute sql params views
  let rows := result.tuples.map (result.columns.zip ·)
  .ok { rows, columns := result.columns, rowCount := rows.length }

def buildEdgeFilter (tenantId edgeType : Option String) : List String × List String :=
  let tenant := tenantId.elim [] fun t => [("tenant_id", t)]
  let type := edgeType.elim [] fun t => [("type", t)]
  (tenant ++ type).unzip

def neighbors (duck : DuckDB) (g : KnowledgeGraph) (nodeId : String)
    (tenantId edgeType : Option String) (direction : String) :
    Except PyException KGQueryResult := do
  let _ ← g.registerViews
  let (conds, params) := buildEdgeFilter tenantId edgeType
  let sqlOut : Statement := .select { joinOn := "dst", endpoint := "src", conds }
  let sqlIn : Statement := .select { joinOn := "src", endpoint := "dst", conds }
  if direction = "out" then g.query duck sqlOut (nodeId :: params)
  else if direction = "in" then g.query duck sqlIn (nodeId :: params)
  else
    let fullParams := nodeId :: params
    g.query duck (.union sqlOut sqlIn) (fullParams ++ fullParams)

/-- The graph without the nodes and edges of other tenants. -/
def ownedBy (g : KnowledgeGraph) (t : String) : KnowledgeGraph :=
  { g with
    nodesTable := g.nodesTable.filter fun n => n.tenantId = t
    edgesTable := g.edgesTable.filter fun e => e.tenantId = t }

structure Serialisable (g : KnowledgeGraph) : Prop where
  nodes : ∀ n ∈ g.nodesTable, ∃ j, jsonDumps n.attrs = .ok j
  edges : ∀ e ∈ g.edgesTable, ∃ j, jsonDumps e.attrs = .ok j

end KnowledgeGraph

def Edge.near (direction : String) (e : Edge) : String :=
  if direction = "out" then e.src else e.dst

def Edge.far (direction : String) (e : Edge) : String :=
  if direction = "out" then e.dst else e.src

/-- The statement of a single direction. -/
def followSelect (direction : String) (conds : List String) : Select where
  joinOn := if direction = "out" then "dst" else "src"
  endpoint := if direction = "out" then "src" else "dst"
  conds

/-- The edge is one of those `neighbors` follows for tenant `t`. -/
structure Edge.Followed (nodeId t : String) (edgeType : Option String) (direction : String)
    (e : Edge) : Prop where
  near : e.near direction = nodeId
  tenant : e.tenantId = t
  type : ∀ type, edgeType = some type → e.type = type

/-- The tuple of a node at the other end of an edge followed for `t`. -/
def Reached (g : KnowledgeGraph) (nodeId t : String) (edgeType : Option String)
    (direction : String) (tuple : List Cell) : Prop :=
  ∃ e ∈ g.edgesTable, e.Followed nodeId t edgeType direction ∧
    ∃ n ∈ g.nodesTable, n.id = e.far direction ∧ ∃ r, n.row = .ok r ∧ Select.project r = tuple

/-- Both calls raise, or both return the same rows. -/
def SameRows : Except PyException KGQueryResult → Except PyException KGQueryResult → Prop
  | .ok r, .ok r' => ∀ row, row ∈ r.rows ↔ row ∈ r'.rows
  | .error _, .error _ => True
  | _, _ => False

/-- No edge followed for `t` ends in an id that a node of another tenant has,
and no other tenant's attributes are refused by `json.dumps`. -/
def Isolated (g : KnowledgeGraph) (nodeId t : String) (edgeType : Option String)
    (direction : String) : Prop :=
  (g.ownedBy t).Serialisable → g.Serialisable ∧
    ∀ e ∈ g.edgesTable, e.Followed nodeId t edgeType direction →
      ∀ n ∈ g.nodesTable, n.id = e.far direction → n.tenantId = t

open KnowledgeGraph

-- ---------------------------------------------------------------------------
-- Rows
-- ---------------------------------------------------------------------------

section
variable {n : Node} {e : Edge} {r : Row}

theorem Node.row_eq_ok_iff : n.row = .ok r ↔ ∃ attrs, jsonDumps n.attrs = .ok attrs ∧
    r = [("id", .string n.id), ("type", .string n.type), ("tenant_id", .string n.tenantId),
      ("attrs", .json attrs), ("embedding_ref", n.embeddingRef.elim .null .string)] := by
  cases h : jsonDumps n.attrs <;> simp [Node.row, h, eq_comm]

theorem Edge.row_eq_ok_iff : e.row = .ok r ↔ ∃ attrs, jsonDumps e.attrs = .ok attrs ∧
    r = [("src", .string e.src), ("dst", .string e.dst), ("type", .string e.type),
      ("tenant_id", .string e.tenantId), ("weight", .float64 e.weight), ("attrs", .json attrs)] := by
  cases h : jsonDumps e.attrs <;> simp [Edge.row, h, eq_comm]

theorem Node.text?_id (h : n.row = .ok r) : r.text? "id" = some n.id := by
  obtain ⟨_, _, rfl⟩ := Node.row_eq_ok_iff.mp h
  rfl

theorem Node.text?_tenantId (h : n.row = .ok r) :
    Row.text? (selected.zip (Select.project r)) "tenant_id" = some n.tenantId := by
  obtain ⟨_, _, rfl⟩ := Node.row_eq_ok_iff.mp h
  rfl

theorem joins_iff (he : e.row = .ok re) (hn : n.row = .ok r) :
    (followSelect direction conds).Joins re r ↔ n.id = e.far direction := by
  obtain ⟨_, _, rfl⟩ := Edge.row_eq_ok_iff.mp he
  unfold Select.Joins followSelect Edge.far
  rw [Node.text?_id hn]
  split <;> simp [Row.text?, List.lookup_cons, eq_comm]

theorem holds_iff (h : e.row = .ok r) :
    (followSelect direction (buildEdgeFilter (some t) edgeType).1).Holds
      (nodeId :: (buildEdgeFilter (some t) edgeType).2) r ↔
      e.Followed nodeId t edgeType direction := by
  obtain ⟨_, _, rfl⟩ := Edge.row_eq_ok_iff.mp h
  have hfollowed : e.Followed nodeId t edgeType direction ↔
      e.near direction = nodeId ∧ e.tenantId = t ∧ ∀ type, edgeType = some type → e.type = type :=
    ⟨fun h => ⟨h.near, h.tenant, h.type⟩, fun h => ⟨h.1, h.2.1, h.2.2⟩⟩
  rw [hfollowed]
  unfold Select.Holds followSelect Edge.near
  cases edgeType <;> split <;> simp [buildEdgeFilter, Row.text?, List.lookup_cons, List.lookup_nil]

end

section
variable {g : KnowledgeGraph} {views : Views}

theorem registerViews_eq_ok_iff : g.registerViews = .ok views ↔
    g.tableRows .nodes = .ok views.kgNodes ∧ g.tableRows .edges = .ok views.kgEdges := by
  unfold KnowledgeGraph.registerViews
  cases g.tableRows .nodes with
  | error exc => simp
  | ok nodes =>
    cases g.tableRows .edges with
    | error exc => simp
    | ok edges => cases views; simp

theorem registerViews_isOk_iff : (∃ views, g.registerViews = .ok views) ↔ g.Serialisable := by
  have hnodes : (∃ rows, g.tableRows .nodes = .ok rows) ↔
      ∀ n ∈ g.nodesTable, ∃ j, jsonDumps n.attrs = .ok j := by
    rw [KnowledgeGraph.tableRows, mapM_isOk_iff]
    simp [Node.row_eq_ok_iff]
  have hedges : (∃ rows, g.tableRows .edges = .ok rows) ↔
      ∀ e ∈ g.edgesTable, ∃ j, jsonDumps e.attrs = .ok j := by
    rw [KnowledgeGraph.tableRows, mapM_isOk_iff]
    simp [Edge.row_eq_ok_iff]
  simp only [registerViews_eq_ok_iff]
  constructor
  · rintro ⟨views, hn, he⟩
    exact ⟨hnodes.mp ⟨_, hn⟩, hedges.mp ⟨_, he⟩⟩
  · rintro ⟨hn, he⟩
    obtain ⟨kgNodes, hn⟩ := hnodes.mpr hn
    obtain ⟨kgEdges, he⟩ := hedges.mpr he
    exact ⟨⟨kgNodes, kgEdges⟩, hn, he⟩

theorem mem_kgNodes (hv : g.registerViews = .ok views) :
    r ∈ views.kgNodes ↔ ∃ n ∈ g.nodesTable, n.row = .ok r :=
  mem_mapM_ok_iff (registerViews_eq_ok_iff.mp hv).1

theorem mem_kgEdges (hv : g.registerViews = .ok views) :
    r ∈ views.kgEdges ↔ ∃ e ∈ g.edgesTable, e.row = .ok r :=
  mem_mapM_ok_iff (registerViews_eq_ok_iff.mp hv).2

theorem mem_joined (hv : g.registerViews = .ok views) :
    tuple ∈ (followSelect direction (buildEdgeFilter (some t) edgeType).1).joined
        (nodeId :: (buildEdgeFilter (some t) edgeType).2) views ↔
      Reached g nodeId t edgeType direction tuple := by
  simp only [Select.joined, List.mem_flatMap, List.mem_map, List.mem_filter, decide_eq_true_eq,
    mem_kgNodes hv, mem_kgEdges hv]
  constructor
  · rintro ⟨re, ⟨⟨e, he, hre⟩, hholds⟩, r, ⟨⟨n, hn, hr⟩, hjoins⟩, rfl⟩
    exact ⟨e, he, (holds_iff hre).mp hholds, n, hn, (joins_iff hre hr).mp hjoins, r, hr, rfl⟩
  · rintro ⟨e, he, hfollowed, n, hn, hid, r, hr, rfl⟩
    obtain ⟨re, _, hre⟩ := exists_of_mapM_ok (registerViews_eq_ok_iff.mp hv).2 he
    exact ⟨re, ⟨⟨e, he, hre⟩, (holds_iff hre).mpr hfollowed⟩, r, ⟨⟨n, hn, hr⟩,
      (joins_iff hre hr).mpr hid⟩, rfl⟩

end

-- ---------------------------------------------------------------------------
-- The answer
-- ---------------------------------------------------------------------------

section
variable {g : KnowledgeGraph} {nodeId t direction : String} {edgeType : Option String}

theorem neighbors_eq_query (duck : DuckDB) (hd : direction = "out" ∨ direction = "in") :
    g.neighbors duck nodeId (some t) edgeType direction =
      g.query duck (.select (followSelect direction (buildEdgeFilter (some t) edgeType).1))
        (nodeId :: (buildEdgeFilter (some t) edgeType).2) := by
  unfold KnowledgeGraph.neighbors
  cases hv : g.registerViews with
  | error exc => simp [KnowledgeGraph.query, hv]
  | ok views => rcases hd with rfl | rfl <;> rfl

theorem neighbors_error (duck : DuckDB) (hd : direction = "out" ∨ direction = "in")
    (h : ¬ g.Serialisable) :
    ∃ exc, g.neighbors duck nodeId (some t) edgeType direction = .error exc := by
  rw [neighbors_eq_query duck hd, KnowledgeGraph.query]
  cases hv : g.registerViews with
  | error exc => exact ⟨exc, rfl⟩
  | ok views => exact absurd (registerViews_isOk_iff.mp ⟨views, hv⟩) h

theorem neighbors_ok (duck : DuckDB) (hd : direction = "out" ∨ direction = "in")
    (h : g.Serialisable) :
    ∃ tuples : List (List Cell), tuples.Nodup ∧
      (∀ tuple, tuple ∈ tuples ↔ Reached g nodeId t edgeType direction tuple) ∧
      g.neighbors duck nodeId (some t) edgeType direction = .ok
        { rows := (tuples.take 1000).map (selected.zip ·)
          columns := selected
          rowCount := (tuples.take 1000).length } := by
  obtain ⟨views, hv⟩ := registerViews_isOk_iff.mpr h
  have hp : (nodeId :: (buildEdgeFilter (some t) edgeType).2).length =
      (followSelect direction (buildEdgeFilter (some t) edgeType).1).conds.length + 1 := by
    cases edgeType <;> rfl
  obtain ⟨tuples, hexec, hnodup, hmem⟩ := duck.select _ _ views hp
  refine ⟨tuples, hnodup, ?_, ?_⟩
  · intro tuple
    rw [hmem, mem_joined hv]
  · rw [neighbors_eq_query duck hd, KnowledgeGraph.query, hv]
    simp only [bind_ok_eq, hexec, List.length_map]
    rfl

/-- What `t` reaches in its own part of the graph it reaches in the whole. -/
theorem Reached.of_ownedBy (h : Reached (g.ownedBy t) nodeId t edgeType direction tuple) :
    Reached g nodeId t edgeType direction tuple := by
  obtain ⟨e, he, hfollowed, n, hn, rest⟩ := h
  exact ⟨e, (List.mem_filter.mp he).1, hfollowed, n, (List.mem_filter.mp hn).1, rest⟩

theorem reached_ownedBy_iff :
    Reached (g.ownedBy t) nodeId t edgeType direction tuple ↔
      ∃ e ∈ g.edgesTable, e.Followed nodeId t edgeType direction ∧
        ∃ n ∈ g.nodesTable, n.id = e.far direction ∧ n.tenantId = t ∧
          ∃ r, n.row = .ok r ∧ Select.project r = tuple := by
  simp only [Reached, KnowledgeGraph.ownedBy, List.mem_filter, decide_eq_true_eq]
  constructor
  · rintro ⟨e, ⟨he, _⟩, hfollowed, n, ⟨hn, ht⟩, hid, hr⟩
    exact ⟨e, he, hfollowed, n, hn, hid, ht, hr⟩
  · rintro ⟨e, he, hfollowed, n, hn, hid, ht, hr⟩
    exact ⟨e, ⟨he, hfollowed.tenant⟩, hfollowed, n, ⟨hn, ht⟩, hid, hr⟩

theorem KnowledgeGraph.Serialisable.ownedBy (h : g.Serialisable) : (g.ownedBy t).Serialisable := by
  refine ⟨?_, ?_⟩
  · intro n hn
    exact h.nodes n (List.mem_filter.mp hn).1
  · intro e he
    exact h.edges e (List.mem_filter.mp he).1

/-- On whole tables, the rows agree when no node of another tenant is met. -/
theorem same_reached_iff (hg : g.Serialisable) :
    (∀ row, (∃ tuple, Reached g nodeId t edgeType direction tuple ∧ selected.zip tuple = row) ↔
        ∃ tuple, Reached (g.ownedBy t) nodeId t edgeType direction tuple ∧
          selected.zip tuple = row) ↔
      ∀ e ∈ g.edgesTable, e.Followed nodeId t edgeType direction →
        ∀ n ∈ g.nodesTable, n.id = e.far direction → n.tenantId = t := by
  constructor
  · intro h e he hfollowed n hn hid
    obtain ⟨attrs, hj⟩ := hg.nodes n hn
    have hr := Node.row_eq_ok_iff.mpr ⟨attrs, hj, rfl⟩
    obtain ⟨tuple, hown, heq⟩ := (h _).mp ⟨_, ⟨e, he, hfollowed, n, hn, hid, _, hr, rfl⟩, rfl⟩
    obtain ⟨_, _, _, n', _, _, ht, r', hr', rfl⟩ := reached_ownedBy_iff.mp hown
    -- the row found in the own part carries its node's tenant
    have htenant := Node.text?_tenantId hr'
    rw [heq, Node.text?_tenantId hr] at htenant
    exact (Option.some.inj htenant).trans ht
  · intro h row
    constructor
    · rintro ⟨tuple, ⟨e, he, hfollowed, n, hn, hid, hr⟩, rfl⟩
      exact ⟨tuple, reached_ownedBy_iff.mpr
        ⟨e, he, hfollowed, n, hn, hid, h e he hfollowed n hn hid, hr⟩, rfl⟩
    · rintro ⟨tuple, hown, rfl⟩
      exact ⟨tuple, hown.of_ownedBy, rfl⟩

theorem neighbors_isolated_iff (duck : DuckDB) (hd : direction = "out" ∨ direction = "in")
    (hlimit : ∀ r, g.neighbors duck nodeId (some t) edgeType direction = .ok r →
      r.rowCount < 1000) :
    SameRows (g.neighbors duck nodeId (some t) edgeType direction)
        ((g.ownedBy t).neighbors duck nodeId (some t) edgeType direction) ↔
      Isolated g nodeId t edgeType direction := by
  by_cases hg : g.Serialisable
  · obtain ⟨tuples, hnodup, hmem, heq⟩ := neighbors_ok duck hd hg
    obtain ⟨own, hnodup', hmem', heq'⟩ := neighbors_ok duck hd hg.ownedBy
    have hlen : tuples.length < 1000 := by
      have h := hlimit _ heq
      simp only [List.length_take] at h
      omega
    have hsub : own ⊆ tuples := fun tuple h => (hmem tuple).mpr ((hmem' tuple).mp h).of_ownedBy
    have hlen' : own.length ≤ 1000 :=
      Nat.le_trans (hnodup'.subperm hsub).length_le (Nat.le_of_lt hlen)
    rw [heq, heq', List.take_of_length_le hlen', List.take_of_length_le (Nat.le_of_lt hlen)]
    simp only [SameRows, List.mem_map, hmem, hmem']
    rw [same_reached_iff hg]
    exact ⟨fun h _ => ⟨hg, h⟩, fun h => (h hg.ownedBy).2⟩
  · obtain ⟨exc, heq⟩ := neighbors_error duck hd hg
    rw [heq]
    by_cases hown : (g.ownedBy t).Serialisable
    · obtain ⟨own, -, -, heq'⟩ := neighbors_ok duck hd hown
      rw [heq']
      exact ⟨False.elim, fun h => hg (h hown).1⟩
    · obtain ⟨exc', heq'⟩ := neighbors_error duck hd hown
      rw [heq']
      exact ⟨fun _ h => absurd h hown, fun _ => trivial⟩

end

-- ---------------------------------------------------------------------------
-- Two tenants with one node id
-- ---------------------------------------------------------------------------

/-- An engine that lists distinct rows in the order it meets them last, and
does not parse a `LIMIT` before a `UNION`. -/
def inMemory : DuckDB where
  execute
    | .select q, params, views => .ok ⟨selected, ((q.joined params views).dedup).take q.limit⟩
    | .union .., _, _ => .error ⟨"ParserException", "syntax error at or near \"UNION\""⟩
  select _ _ _ _ := ⟨_, rfl, List.nodup_dedup _, fun _ => List.mem_dedup⟩

/-- Two tenants have a node `b`, and one of them an edge from `a` to its own. -/
def sharedIds : KnowledgeGraph where
  collection := "default"
  storage := .empty
  nodesTable :=
    [{ id := "a", type := "File", tenantId := "acme" },
      { id := "b", type := "File", tenantId := "acme" },
      { id := "b", type := "Secret", tenantId := "globex" }]
  edgesTable := [{ src := "a", dst := "b", type := "IMPORTS", tenantId := "acme" }]

def sharedRow (tenantId type : String) : Row :=
  [("id", .string "b"), ("type", .string type), ("tenant_id", .string tenantId),
    ("attrs", .json (.obj []))]

theorem neighbors_sharedIds : sharedIds.neighbors inMemory "a" (some "acme") none "out" =
    .ok { rows := [sharedRow "acme" "File", sharedRow "globex" "Secret"]
          columns := selected
          rowCount := 2 } := by
  rfl

theorem few_sharedIds (r : KGQueryResult)
    (h : sharedIds.neighbors inMemory "a" (some "acme") none "out" = .ok r) : r.rowCount < 1000 := by
  rw [neighbors_sharedIds] at h
  cases h
  decide

theorem neighbors_isolated_sharedIds :
    SameRows (sharedIds.neighbors inMemory "a" (some "acme") none "out")
        ((sharedIds.ownedBy "acme").neighbors inMemory "a" (some "acme") none "out") ↔
      Isolated sharedIds "a" "acme" none "out" :=
  neighbors_isolated_iff inMemory (.inl rfl) few_sharedIds

theorem neighbor_of_other_tenant : ¬ ∀ (duck : DuckDB) (g : KnowledgeGraph) (nodeId t : String)
    (edgeType : Option String) (direction : String), direction = "out" ∨ direction = "in" →
    (∀ r, g.neighbors duck nodeId (some t) edgeType direction = .ok r → r.rowCount < 1000) →
    SameRows (g.neighbors duck nodeId (some t) edgeType direction)
      ((g.ownedBy t).neighbors duck nodeId (some t) edgeType direction) := by
  intro h
  have h := h inMemory sharedIds "a" "acme" none "out" (.inl rfl) few_sharedIds
  rw [neighbors_sharedIds] at h
  have hown : (sharedIds.ownedBy "acme").neighbors inMemory "a" (some "acme") none "out" =
      .ok { rows := [sharedRow "acme" "File"], columns := selected, rowCount := 1 } := by
    rfl
  rw [hown] at h
  have hrow := (h (sharedRow "globex" "Secret")).mp (by simp)
  simp [sharedRow] at hrow

end Intelliqx.Kg
