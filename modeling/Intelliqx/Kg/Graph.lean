import Intelliqx.Base.Dict
import Intelliqx.Py.Json
import Intelliqx.Py.Text

/-!
# The knowledge graph

`KnowledgeGraph` keeps every node and edge in memory and writes the rows of
each call as one Parquet partition into the object store. A partition is the
list of its rows; `put` overwrites an object that has the same key.
-/

namespace Intelliqx.Kg

open Py

structure Node where
  id : String
  type : String
  tenantId : String
  attrs : PyValue := .dict []
  embeddingRef : Option String := none

structure Edge where
  src : String
  dst : String
  type : String
  tenantId : String
  weight : String := "1.0"
  attrs : PyValue := .dict []

/-- A value of a column. Floats are their `repr`, JSON texts their tree. -/
inductive Cell
  | null
  | string (s : String)
  | float64 (repr : String)
  | json (text : Json)
  deriving DecidableEq

abbrev Row := List (String × Cell)

def Node.row (n : Node) : Except PyException Row := do
  let attrs ← jsonDumps n.attrs
  .ok [("id", .string n.id), ("type", .string n.type), ("tenant_id", .string n.tenantId),
    ("attrs", .json attrs), ("embedding_ref", n.embeddingRef.elim .null .string)]

def Edge.row (e : Edge) : Except PyException Row := do
  let attrs ← jsonDumps e.attrs
  .ok [("src", .string e.src), ("dst", .string e.dst), ("type", .string e.type),
    ("tenant_id", .string e.tenantId), ("weight", .float64 e.weight), ("attrs", .json attrs)]

inductive Kind
  | nodes
  | edges
  deriving DecidableEq, Repr

def Kind.name : Kind → String
  | .nodes => "nodes"
  | .edges => "edges"

abbrev ObjectStore := Dict String (List Row)

def ObjectStore.put (storage : ObjectStore) (key : String) (value : List Row) : ObjectStore :=
  storage.insert key value

/-- The rows of all partitions whose keys start with `pre`. -/
def ObjectStore.rowsUnder (storage : ObjectStore) (pre : String) : List Row :=
  (storage.entries.filter fun e => pre.toList.isPrefixOf e.1.toList).flatMap Prod.snd

structure KnowledgeGraph where
  collection : String
  storage : ObjectStore
  nodesArrow : List Row := []
  edgesArrow : List Row := []
  nodesTable : List Node := []
  edgesTable : List Edge := []

def directory (collection : String) (kind : Kind) : String :=
  collection ++ "/" ++ kind.name ++ "/"

def partitionKey (collection : String) (kind : Kind) (n : Nat) : String :=
  directory collection kind ++ ("part-" ++ zeroPadded 8 n ++ ".parquet")

namespace KnowledgeGraph

/-- Write the buffered rows. The number in the key is the size of the node
table, for edges too. -/
def flush (g : KnowledgeGraph) (kind : Kind) : KnowledgeGraph :=
  let rows := match kind with
    | .nodes => g.nodesArrow
    | .edges => g.edgesArrow
  if rows.isEmpty then g
  else
    let storage := g.storage.put (partitionKey g.collection kind g.nodesTable.length) rows
    match kind with
    | .nodes => { g with storage, nodesArrow := [] }
    | .edges => { g with storage, edgesArrow := [] }

/-- The loop of `add_nodes` and `add_edges`. An item joins the table before
its row is built, so the one whose attributes are refused stays in it. -/
def buffer (row : α → Except PyException Row) :
    List α → List α → List Row → Option PyException × List α × List Row
  | [], table, arrow => (none, table, arrow)
  | x :: xs, table, arrow =>
    match row x with
    | .error exc => (some exc, table ++ [x], arrow)
    | .ok r => buffer row xs (table ++ [x]) (arrow ++ [r])

def addNodes (g : KnowledgeGraph) (nodes : List Node) : Except PyException Nat × KnowledgeGraph :=
  let (raised, nodesTable, nodesArrow) := buffer Node.row nodes g.nodesTable g.nodesArrow
  let g := { g with nodesTable, nodesArrow }
  match raised with
  | some exc => (.error exc, g)
  | none => (.ok nodes.length, if nodes.length ≠ 0 then g.flush .nodes else g)

def addEdges (g : KnowledgeGraph) (edges : List Edge) : Except PyException Nat × KnowledgeGraph :=
  let (raised, edgesTable, edgesArrow) := buffer Edge.row edges g.edgesTable g.edgesArrow
  let g := { g with edgesTable, edgesArrow }
  match raised with
  | some exc => (.error exc, g)
  | none => (.ok edges.length, if edges.length ≠ 0 then g.flush .edges else g)

/-- The rows of the table, as `register_views` builds them. -/
def tableRows (g : KnowledgeGraph) : Kind → Except PyException (List Row)
  | .nodes => g.nodesTable.mapM Node.row
  | .edges => g.edgesTable.mapM Edge.row

def storedRows (g : KnowledgeGraph) (kind : Kind) : List Row :=
  g.storage.rowsUnder (directory g.collection kind)

end KnowledgeGraph

-- ---------------------------------------------------------------------------
-- Keys
-- ---------------------------------------------------------------------------

theorem partitionKey_inj : partitionKey collection kind n = partitionKey collection kind m ↔ n = m := by
  refine ⟨?_, fun h => h ▸ rfl⟩
  intro h
  have h := congrArg String.toList h
  simp only [partitionKey, String.toList_append, List.append_cancel_left_eq,
    List.append_cancel_right_eq] at h
  exact zeroPadded_injective 8 (String.toList_injective h)

theorem directory_prefix_partitionKey :
    (directory collection kind').toList.isPrefixOf (partitionKey collection kind n).toList = true ↔
      kind' = kind := by
  simp only [partitionKey, directory, String.toList_append, List.isPrefixOf_iff_prefix,
    List.append_assoc, List.prefix_append_right_inj]
  cases kind' <;> cases kind <;> simp [Kind.name]

theorem partitionKey_kind (h : partitionKey collection kind n = partitionKey collection kind' m) :
    kind = kind' := by
  have hk : (directory collection kind).toList.isPrefixOf (partitionKey collection kind n).toList = true :=
    directory_prefix_partitionKey.mpr rfl
  rw [h] at hk
  exact directory_prefix_partitionKey.mp hk

theorem edgesKey_ne : partitionKey collection .edges n ≠ partitionKey collection .nodes m :=
  fun h => by cases partitionKey_kind h

-- ---------------------------------------------------------------------------
-- An empty directory
-- ---------------------------------------------------------------------------

section
variable {storage : ObjectStore}
  (hempty : ∀ key ∈ storage.keys, (directory collection kind).toList.isPrefixOf key.toList = false)
include hempty

theorem rowsUnder_of_empty : storage.rowsUnder (directory collection kind) = [] := by
  have hnone : (storage.entries.filter
      fun e => (directory collection kind).toList.isPrefixOf e.1.toList) = [] := by
    apply List.filter_eq_nil_iff.mpr
    intro e he
    simp [hempty e.1 (List.mem_map_of_mem he)]
  rw [ObjectStore.rowsUnder, hnone, List.flatMap_nil]

theorem partitionKey_not_mem (n : Nat) : partitionKey collection kind n ∉ storage.keys := by
  intro hk
  have hkey := hempty _ hk
  rw [directory_prefix_partitionKey.mpr rfl] at hkey
  cases hkey

end

-- ---------------------------------------------------------------------------
-- One write
-- ---------------------------------------------------------------------------

section
variable {storage : ObjectStore} {rest : List (String × List Row)}

theorem rowsUnder_of_perm (kind' : Kind)
    (h : storage.entries.Perm ((partitionKey collection kind n, rows) :: rest)) :
    (storage.rowsUnder (directory collection kind')).Perm
      ((if kind' = kind then rows else []) ++
        (rest.filter fun e => (directory collection kind').toList.isPrefixOf e.1.toList).flatMap Prod.snd) := by
  refine ((h.filter _).flatMap_right _).trans (.of_eq ?_)
  simp only [List.filter_cons, directory_prefix_partitionKey]
  split <;> simp

theorem rowsUnder_insert_new (h : partitionKey collection kind n ∉ storage.keys) :
    ((storage.put (partitionKey collection kind n) rows).rowsUnder (directory collection kind')).Perm
      ((if kind' = kind then rows else []) ++ storage.rowsUnder (directory collection kind')) := by
  apply rowsUnder_of_perm (n := n) kind'
  rw [ObjectStore.put, Dict.entries_insert_of_not_mem h]
  exact List.perm_append_singleton ..

theorem length_rowsUnder_insert_old (rows : List Row)
    (h : storage.get? (partitionKey collection kind n) = some old) :
    ((storage.put (partitionKey collection kind n) rows).rowsUnder (directory collection kind)).length
        + old.length =
      (storage.rowsUnder (directory collection kind)).length + rows.length := by
  obtain ⟨rest, hold, hnew⟩ := Dict.insert_perm (v := rows) h
  have hold := (rowsUnder_of_perm kind hold).length_eq
  have hnew := (rowsUnder_of_perm kind hnew).length_eq
  simp only [if_true, List.length_append] at hold hnew
  rw [ObjectStore.put]
  omega

end

-- ---------------------------------------------------------------------------
-- Rows
-- ---------------------------------------------------------------------------

section
variable {row : α → Except PyException Row}

theorem buffer_ok {xs : List α} (h : xs.mapM row = .ok rows) (table : List α) (arrow : List Row) :
    KnowledgeGraph.buffer row xs table arrow = (none, table ++ xs, arrow ++ rows) := by
  rw [mapM_eq_ok_iff] at h
  induction h generalizing table arrow with
  | nil => simp [KnowledgeGraph.buffer]
  | cons hx _ ih => simp [KnowledgeGraph.buffer, hx, ih]

/-- Where a row cannot be built the loop raises, with that item in the table. -/
theorem buffer_error {xs : List α} (h : xs.mapM row = .error exc) (table : List α) (arrow : List Row) :
    ∃ xs' arrow', KnowledgeGraph.buffer row xs table arrow = (some exc, table ++ xs', arrow') ∧
      xs'.mapM row = .error exc := by
  induction xs generalizing table arrow with
  | nil => simp at h
  | cons x xs ih =>
    rw [List.mapM_cons] at h
    cases hr : row x with
    | error exc' =>
      have he : exc' = exc := by simpa [hr] using h
      exact ⟨[x], arrow, by simp [KnowledgeGraph.buffer, hr, he], by simp [hr, he]⟩
    | ok r =>
      have hxs : xs.mapM row = .error exc := by
        cases hm : xs.mapM row with
        | error exc' => simpa [hr, hm] using h
        | ok rows => simp [hr, hm] at h
      obtain ⟨xs', arrow', hb, he⟩ := ih hxs (table ++ [x]) (arrow ++ [r])
      exact ⟨x :: xs', arrow', by simp [KnowledgeGraph.buffer, hr, hb], by simp [hr, he]⟩

end

end Intelliqx.Kg
