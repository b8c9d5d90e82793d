import Intelliqx.Base.Machine
import Intelliqx.Kg.Graph

/-!
# Partitions and tables

Whether the stored partitions hold what the tables hold, after every call of a
run (`partitions_faithful_iff`). Both kinds of partition are numbered by the
size of the node table, so two batches of edges with no node between them get
the same key and the second replaces the first.
-/

namespace Intelliqx.Kg

open Machine Py

inductive Call
  | addNodes (nodes : List Node)
  | addEdges (edges : List Edge)

namespace Call

def kind : Call → Kind
  | .addNodes _ => .nodes
  | .addEdges _ => .edges

def rows : Call → Except PyException (List Row)
  | .addNodes nodes => nodes.mapM Node.row
  | .addEdges edges => edges.mapM Edge.row

def newNodes : Call → Nat
  | .addNodes nodes => nodes.length
  | .addEdges _ => 0

def Serialisable : Call → Prop
  | .addNodes nodes => ∀ n ∈ nodes, ∃ j, jsonDumps n.attrs = .ok j
  | .addEdges edges => ∀ e ∈ edges, ∃ j, jsonDumps e.attrs = .ok j

end Call

/-- Between two batches of edges that are not empty there is one of nodes.
`since` says that edges came after the last node. -/
def Separated : Bool → List Call → Prop
  | _, [] => True
  | since, .addNodes nodes :: calls => Separated (since && nodes.isEmpty) calls
  | since, .addEdges edges :: calls =>
    (since = true → edges = []) ∧ Separated (since || !edges.isEmpty) calls

namespace KnowledgeGraph

def step (g : KnowledgeGraph) : Call → Option KnowledgeGraph
  | .addNodes nodes => some (g.addNodes nodes).2
  | .addEdges edges => some (g.addEdges edges).2

def new (collection : String) (storage : ObjectStore) : KnowledgeGraph :=
  { collection, storage }

/-- The partitions of each kind together are exactly the rows of its table. -/
def Faithful (g : KnowledgeGraph) : Prop :=
  ∀ kind, ∃ rows, g.tableRows kind = .ok rows ∧ (g.storedRows kind).Perm rows

def Kept (g g' : KnowledgeGraph) : Prop :=
  ∀ key rows, g.storage.get? key = some rows → g'.storage.get? key = some rows

structure Flushed (g : KnowledgeGraph) : Prop where
  nodes : g.nodesArrow = []
  edges : g.edgesArrow = []

end KnowledgeGraph

section
variable {g g' : KnowledgeGraph} {c : Call}

open KnowledgeGraph

-- ---------------------------------------------------------------------------
-- One call
-- ---------------------------------------------------------------------------

theorem Call.serialisable_iff : c.Serialisable ↔ ∃ rows, c.rows = .ok rows := by
  cases c with
  | addNodes nodes =>
    rw [Call.rows, mapM_isOk_iff]
    apply forall₂_congr
    intro n _
    cases h : jsonDumps n.attrs <;> simp [Node.row, h]
  | addEdges edges =>
    rw [Call.rows, mapM_isOk_iff]
    apply forall₂_congr
    intro e _
    cases h : jsonDumps e.attrs <;> simp [Edge.row, h]

def putRows (g : KnowledgeGraph) (kind : Kind) (n : Nat) (rows : List Row) : ObjectStore :=
  if rows = [] then g.storage else g.storage.put (partitionKey g.collection kind n) rows

theorem addNodes_ok (hg : g.Flushed) (h : nodes.mapM Node.row = .ok rows) :
    (g.addNodes nodes).2 =
      { g with
        nodesTable := g.nodesTable ++ nodes
        storage := putRows g .nodes (g.nodesTable.length + nodes.length) rows } := by
  obtain ⟨collection, storage, nodesArrow, edgesArrow, nodesTable, edgesTable⟩ := g
  obtain rfl : nodesArrow = [] := hg.nodes
  have hlen := (mapM_eq_ok_iff.mp h).length_eq
  cases nodes <;> cases rows <;> simp_all [addNodes, buffer_ok h, flush, putRows]

theorem addEdges_ok (hg : g.Flushed) (h : edges.mapM Edge.row = .ok rows) :
    (g.addEdges edges).2 =
      { g with
        edgesTable := g.edgesTable ++ edges
        storage := putRows g .edges g.nodesTable.length rows } := by
  obtain ⟨collection, storage, nodesArrow, edgesArrow, nodesTable, edgesTable⟩ := g
  obtain rfl : edgesArrow = [] := hg.edges
  have hlen := (mapM_eq_ok_iff.mp h).length_eq
  cases edges <;> cases rows <;> simp_all [addEdges, buffer_ok h, flush, putRows]

/-- What a call does whose rows can be built: the table of its kind grows by
them, and they are stored under the number of nodes there then are. -/
structure Appends (g : KnowledgeGraph) (c : Call) (rows : List Row) (g' : KnowledgeGraph) : Prop where
  flushed : g'.Flushed
  collection : g'.collection = g.collection
  count : g'.nodesTable.length = g.nodesTable.length + c.newNodes
  table : ∀ rs, g.tableRows c.kind = .ok rs → g'.tableRows c.kind = .ok (rs ++ rows)
  other : ∀ kind, kind ≠ c.kind → g'.tableRows kind = g.tableRows kind
  storage : g'.storage = putRows g c.kind g'.nodesTable.length rows

theorem step_ok (hg : g.Flushed) (hc : c.rows = .ok rows) (h : g.step c = some g') :
    Appends g c rows g' := by
  cases c with
  | addNodes nodes =>
    cases h
    rw [addNodes_ok hg hc]
    refine ⟨⟨hg.nodes, hg.edges⟩, rfl, by simp [Call.newNodes], ?_, ?_, by simp [Call.kind]⟩
    · exact fun rs hrs => mapM_append_ok hrs hc
    · rintro ⟨⟩ hk
      · exact absurd rfl hk
      · rfl
  | addEdges edges =>
    cases h
    rw [addEdges_ok hg hc]
    refine ⟨⟨hg.nodes, hg.edges⟩, rfl, rfl, ?_, ?_, rfl⟩
    · exact fun rs hrs => mapM_append_ok hrs hc
    · rintro ⟨⟩ hk
      · rfl
      · exact absurd rfl hk

/-- A call that raises leaves an item in the table that has no row. -/
theorem step_error (hc : c.rows = .error exc) (ht : g.tableRows c.kind = .ok rows)
    (h : g.step c = some g') : g'.tableRows c.kind = .error exc := by
  cases c with
  | addNodes nodes =>
    cases h
    obtain ⟨xs', arrow', hb, he⟩ := buffer_error hc g.nodesTable g.nodesArrow
    have hadd : (g.addNodes nodes).2.nodesTable = g.nodesTable ++ xs' := by simp [addNodes, hb]
    simpa only [Call.kind, tableRows, hadd] using mapM_append_error ht he
  | addEdges edges =>
    cases h
    obtain ⟨xs', arrow', hb, he⟩ := buffer_error hc g.edgesTable g.edgesArrow
    have hadd : (g.addEdges edges).2.edgesTable = g.edgesTable ++ xs' := by simp [addEdges, hb]
    simpa only [Call.kind, tableRows, hadd] using mapM_append_error ht he

-- ---------------------------------------------------------------------------
-- Runs
-- ---------------------------------------------------------------------------

/-- Partitions and tables agree, the numbers in use are those the node table
has had, and `since` tells whether edges have its present one. -/
structure Synced (since : Bool) (g : KnowledgeGraph) : Prop where
  flushed : g.Flushed
  faithful : g.Faithful
  bounded : ∀ kind n, partitionKey g.collection kind n ∈ g.storage.keys → n ≤ g.nodesTable.length
  taken : partitionKey g.collection .edges g.nodesTable.length ∈ g.storage.keys ↔ since = true
  filled : ∀ kind n rows, g.storage.get? (partitionKey g.collection kind n) = some rows → rows ≠ []

theorem Appends.kept (h : Appends g c rows g')
    (hnew : rows ≠ [] → partitionKey g.collection c.kind g'.nodesTable.length ∉ g.storage.keys) :
    Kept g g' := by
  intro key old hold
  rw [h.storage, putRows]
  split
  · exact hold
  · rename_i hrows
    rw [ObjectStore.put, Dict.get?_insert, if_neg]
    · exact hold
    · rintro rfl
      exact hnew hrows (Dict.isSome_get?_iff.mp (by simp [hold]))

theorem Appends.faithful (h : Appends g c rows g') (hg : g.Faithful)
    (hnew : rows ≠ [] → partitionKey g.collection c.kind g'.nodesTable.length ∉ g.storage.keys) :
    g'.Faithful := by
  intro kind
  obtain ⟨rs, hrs, hperm⟩ := hg kind
  have hstored : (g'.storedRows kind).Perm ((if kind = c.kind then rows else []) ++ g.storedRows kind) := by
    rw [storedRows, h.storage, h.collection, putRows]
    by_cases hrows : rows = []
    · simp only [hrows, if_true, ite_self, List.nil_append]; exact .rfl
    · rw [if_neg hrows]; exact rowsUnder_insert_new (hnew hrows)
  by_cases hk : kind = c.kind
  · subst hk
    refine ⟨rs ++ rows, h.table rs hrs, ?_⟩
    rw [if_pos rfl] at hstored
    exact hstored.trans (List.perm_append_comm.trans (hperm.append_right rows))
  · exact ⟨rs, (h.other kind hk).trans hrs, by simpa [hk] using hstored.trans (by simpa [hk] using hperm)⟩

theorem Appends.not_faithful (h : Appends g c rows g') (hg : g.Faithful) (hrows : rows ≠ [])
    (hold : g.storage.get? (partitionKey g.collection c.kind g'.nodesTable.length) = some old)
    (hfilled : old ≠ []) : ¬ g'.Faithful := by
  intro hf
  obtain ⟨rs, hrs, hperm⟩ := hg c.kind
  obtain ⟨rs', hrs', hperm'⟩ := hf c.kind
  rw [h.table rs hrs, Except.ok.injEq] at hrs'
  have hlost := length_rowsUnder_insert_old rows hold
  have hlen := hperm.length_eq
  have hlen' := hperm'.length_eq
  have hpos := List.length_pos_of_ne_nil hfilled
  rw [storedRows] at hlen
  rw [storedRows, h.storage, h.collection, putRows, if_neg hrows, ← hrs', List.length_append] at hlen'
  omega

theorem Call.rows_eq_nil_iff {rs : List Row} (hc : c.rows = .ok rs) :
    rs = [] ↔ match c with
      | .addNodes nodes => nodes = []
      | .addEdges edges => edges = [] := by
  cases c with
  | addNodes nodes => cases mapM_eq_ok_iff.mp hc <;> simp
  | addEdges edges => cases mapM_eq_ok_iff.mp hc <;> simp

theorem Appends.mem_keys (h : Appends g c rows g') : key ∈ g'.storage.keys ↔
    (rows ≠ [] ∧ key = partitionKey g.collection c.kind g'.nodesTable.length) ∨ key ∈ g.storage.keys := by
  rw [h.storage, putRows]
  split
  · simp_all
  · rename_i hrows
    simp [ObjectStore.put, Dict.mem_keys_insert, hrows]

theorem Synced.of_appends (hs : Synced since g) (h : Appends g c rows g')
    (hnew : rows ≠ [] → partitionKey g.collection c.kind g'.nodesTable.length ∉ g.storage.keys)
    (htaken : partitionKey g.collection .edges g'.nodesTable.length ∈ g'.storage.keys ↔ since' = true) :
    Synced since' g' := by
  refine ⟨h.flushed, h.faithful hs.faithful hnew, ?_, by rwa [h.collection],
    ?_⟩
  · intro kind n hk
    have hcount := h.count
    rw [h.collection, h.mem_keys] at hk
    rcases hk with ⟨-, hk⟩ | hk
    · obtain rfl := partitionKey_kind hk
      exact Nat.le_of_eq (partitionKey_inj.mp hk)
    · have := hs.bounded kind n hk
      omega
  · intro kind n old hold
    rw [h.collection, h.storage, putRows] at hold
    split at hold
    · exact hs.filled kind n old hold
    · rename_i hrows
      rw [ObjectStore.put, Dict.get?_insert] at hold
      split at hold
      · cases hold; exact hrows
      · exact hs.filled kind n old hold

theorem Synced.addNodes (hs : Synced since g) (hc : nodes.mapM Node.row = .ok rows)
    (h : Appends g (.addNodes nodes) rows g') :
    (g'.Faithful ∧ Kept g g') ∧ Synced (since && nodes.isEmpty) g' := by
  have hcount : g'.nodesTable.length = g.nodesTable.length + nodes.length := h.count
  have hrows : rows = [] ↔ nodes = [] := Call.rows_eq_nil_iff (c := .addNodes nodes) hc
  have hnew : rows ≠ [] → partitionKey g.collection .nodes g'.nodesTable.length ∉ g.storage.keys := by
    intro hne hk
    have hle := hs.bounded .nodes _ hk
    have hpos := List.length_pos_of_ne_nil (mt hrows.mpr hne)
    omega
  refine ⟨⟨h.faithful hs.faithful hnew, h.kept hnew⟩, hs.of_appends h hnew ?_⟩
  rw [h.mem_keys]
  by_cases hnodes : nodes = []
  · simp [Call.kind, edgesKey_ne, hcount, hnodes, hs.taken]
  · have hfar : partitionKey g.collection .edges g'.nodesTable.length ∉ g.storage.keys := fun hk => by
      have hle := hs.bounded .edges _ hk
      have hpos := List.length_pos_of_ne_nil hnodes
      omega
    simp [Call.kind, edgesKey_ne, hfar, hnodes]

theorem Synced.addEdges (hs : Synced since g) (hc : edges.mapM Edge.row = .ok rows)
    (h : Appends g (.addEdges edges) rows g') (hfree : since = true → edges = []) :
    (g'.Faithful ∧ Kept g g') ∧ Synced (since || !edges.isEmpty) g' := by
  have hcount : g'.nodesTable.length = g.nodesTable.length := h.count
  have hrows : rows = [] ↔ edges = [] := Call.rows_eq_nil_iff (c := .addEdges edges) hc
  have hnew : rows ≠ [] → partitionKey g.collection .edges g'.nodesTable.length ∉ g.storage.keys := by
    intro hne hk
    rw [hcount] at hk
    exact hne (hrows.mpr (hfree (hs.taken.mp hk)))
  refine ⟨⟨h.faithful hs.faithful hnew, h.kept hnew⟩, hs.of_appends h hnew ?_⟩
  rw [h.mem_keys, hcount, hs.taken]
  cases since <;> simp [Call.kind, hrows]

theorem Synced.addEdges_clash (hs : Synced true g) (hc : edges.mapM Edge.row = .ok rows)
    (h : Appends g (.addEdges edges) rows g') (hne : edges ≠ []) : ¬ g'.Faithful := by
  have hcount : g'.nodesTable.length = g.nodesTable.length := h.count
  have hrows : rows = [] ↔ edges = [] := Call.rows_eq_nil_iff (c := .addEdges edges) hc
  have hkey : partitionKey g.collection .edges g'.nodesTable.length ∈ g.storage.keys := by
    rw [hcount]
    exact hs.taken.mpr rfl
  obtain ⟨old, hold⟩ := Option.isSome_iff_exists.mp (Dict.isSome_get?_iff.mpr hkey)
  exact h.not_faithful hs.faithful (mt hrows.mp hne) hold (hs.filled _ _ _ hold)

theorem faithful_iff_of_synced (hs : Synced since g) (calls : List Call) :
    Always KnowledgeGraph.step (fun g _ g' => g'.Faithful ∧ Kept g g') g calls ↔
      (∀ c ∈ calls, c.Serialisable) ∧ Separated since calls := by
  induction calls generalizing since g with
  | nil => simp [Always, Separated]
  | cons c calls ih =>
    obtain ⟨g', hstep⟩ : ∃ g', g.step c = some g' := by cases c <;> exact ⟨_, rfl⟩
    have halways : Always KnowledgeGraph.step (fun g _ g' => g'.Faithful ∧ Kept g g') g (c :: calls) ↔
        (g'.Faithful ∧ Kept g g') ∧
          Always KnowledgeGraph.step (fun g _ g' => g'.Faithful ∧ Kept g g') g' calls := by
      simp [Always, hstep]
    rw [halways, List.forall_mem_cons]
    cases hc : c.rows with
    | error exc =>
      have hraise : ¬ c.Serialisable := by simp [Call.serialisable_iff, hc]
      have hlost : ¬ g'.Faithful := fun hf => by
        obtain ⟨rs, hrs, -⟩ := hs.faithful c.kind
        obtain ⟨rs', hrs', -⟩ := hf c.kind
        rw [step_error hc hrs hstep] at hrs'
        cases hrs'
      simp [hraise, hlost]
    | ok rs =>
      have hser : c.Serialisable := Call.serialisable_iff.mpr ⟨rs, hc⟩
      have happ := step_ok hs.flushed hc hstep
      cases c with
      | addNodes nodes =>
        obtain ⟨hok, hs'⟩ := hs.addNodes hc happ
        simp [hok, hser, ih hs', Separated]
      | addEdges edges =>
        by_cases hfree : since = true → edges = []
        · obtain ⟨hok, hs'⟩ := hs.addEdges hc happ hfree
          simp only [hok, hser, ih hs', Separated, true_and, and_self, and_iff_right hfree]
        · obtain ⟨rfl, hne⟩ := Classical.not_imp.mp hfree
          simp [hs.addEdges_clash hc happ hne, Separated, hne]

/-- From a store that has nothing of the collection, partitions and tables
agree after every call, and no call touches a stored partition, exactly when
`json.dumps` takes all attributes and no two batches of edges come without a
node between them. -/
theorem partitions_faithful_iff (collection : String) (storage : ObjectStore) (calls : List Call)
    (hempty : ∀ key ∈ storage.keys, ∀ kind,
      (directory collection kind).toList.isPrefixOf key.toList = false) :
    Always KnowledgeGraph.step (fun g _ g' => g'.Faithful ∧ Kept g g')
        (KnowledgeGraph.new collection storage) calls ↔
      (∀ c ∈ calls, c.Serialisable) ∧ Separated false calls := by
  have hnokey : ∀ kind n, partitionKey collection kind n ∉ storage.keys :=
    fun kind => partitionKey_not_mem fun key hk => hempty key hk kind
  refine faithful_iff_of_synced ⟨⟨rfl, rfl⟩, fun kind => ⟨[], by cases kind <;> rfl, ?_⟩, ?_, ?_, ?_⟩ calls
  · simp [storedRows, KnowledgeGraph.new, rowsUnder_of_empty fun key hk => hempty key hk kind]
  · exact fun kind n hk => absurd hk (hnokey kind n)
  · simpa [KnowledgeGraph.new] using hnokey .edges 0
  · intro kind n old hold
    have hsome : (storage.get? (partitionKey collection kind n)).isSome := by
      rw [show storage.get? (partitionKey collection kind n) = some old from hold]; rfl
    exact absurd (Dict.isSome_get?_iff.mp hsome) (hnokey kind n)

def separatedBatches : List Call :=
  [.addEdges [{ src := "a", dst := "b", type := "IMPORTS", tenantId := "t1" }],
    .addNodes [{ id := "a", type := "File", tenantId := "t1" }],
    .addEdges [{ src := "b", dst := "a", type := "IMPORTS", tenantId := "t1" }]]

theorem partitions_faithful_separated :
    Always KnowledgeGraph.step (fun g _ g' => g'.Faithful ∧ Kept g g')
      (KnowledgeGraph.new "default" Dict.empty) separatedBatches := by
  refine (partitions_faithful_iff "default" Dict.empty separatedBatches
    (fun key hk => by cases hk)).mpr ⟨?_, ?_⟩
  · intro c hc
    simp only [separatedBatches, List.mem_cons, List.not_mem_nil, or_false] at hc
    rcases hc with rfl | rfl | rfl <;> simp [Call.Serialisable, jsonDumps, dumpsEntries]
  · simp [separatedBatches, Separated]

def edgeBatches : List Call :=
  [.addEdges [{ src := "a", dst := "b", type := "IMPORTS", tenantId := "t1" }],
    .addEdges [{ src := "b", dst := "a", type := "IMPORTS", tenantId := "t1" }]]

/-- The second batch is stored over the first: one row is left for two edges. -/
theorem second_batch_overwrites :
    ¬ Always KnowledgeGraph.step (fun g _ g' => g'.Faithful ∧ Kept g g')
      (KnowledgeGraph.new "default" Dict.empty) edgeBatches := by
  intro h
  obtain ⟨-, h⟩ := h _ rfl
  obtain ⟨⟨hf, -⟩, -⟩ := h _ rfl
  obtain ⟨rows, hrows, hperm⟩ := hf .edges
  have htwo : rows.length = 2 := by cases hrows; rfl
  have hone : rows.length = 1 := hperm.length_eq.symm
  omega

end

end Intelliqx.Kg
