import Intelliqx.Kg.Partitions

/-!
# Writes that fail

`add_nodes` and `add_edges` change the graph before the two things that can
raise: the encoding of the attributes and the `put` of the object store. No
call that raises leaves the graph as it was (`raising_call_changes`). After a
refused encoding every query raises, and after a failed `put` a retry stores
the rows twice.
-/

namespace Intelliqx.Kg

open Py

/-- What `put` does: the exception it raises, if any, and the store then. -/
abbrev Put := ObjectStore → String → List Row → Option PyException × ObjectStore

def Put.succeeding : Put := fun storage key rows => (none, storage.put key rows)

def Put.failing (exc : PyException) : Put := fun storage _ _ => (some exc, storage)

namespace KnowledgeGraph

section
variable (put : Put) (g : KnowledgeGraph)

/-- The buffer is cleared only behind a `put` that returns. -/
def flushWith (kind : Kind) : Option PyException × KnowledgeGraph :=
  let rows := match kind with
    | .nodes => g.nodesArrow
    | .edges => g.edgesArrow
  if rows.isEmpty then (none, g)
  else
    match put g.storage (partitionKey g.collection kind g.nodesTable.length) rows with
    | (some exc, storage) => (some exc, { g with storage })
    | (none, storage) =>
      match kind with
      | .nodes => (none, { g with storage, nodesArrow := [] })
      | .edges => (none, { g with storage, edgesArrow := [] })

def finish (kind : Kind) (added : Nat) : Except PyException Nat × KnowledgeGraph :=
  if added = 0 then (.ok added, g)
  else
    match g.flushWith put kind with
    | (some exc, g) => (.error exc, g)
    | (none, g) => (.ok added, g)

def addNodesWith (nodes : List Node) : Except PyException Nat × KnowledgeGraph :=
  let (raised, nodesTable, nodesArrow) := buffer Node.row nodes g.nodesTable g.nodesArrow
  let g := { g with nodesTable, nodesArrow }
  match raised with
  | some exc => (.error exc, g)
  | none => g.finish put .nodes nodes.length

def addEdgesWith (edges : List Edge) : Except PyException Nat × KnowledgeGraph :=
  let (raised, edgesTable, edgesArrow) := buffer Edge.row edges g.edgesTable g.edgesArrow
  let g := { g with edgesTable, edgesArrow }
  match raised with
  | some exc => (.error exc, g)
  | none => g.finish put .edges edges.length

def callWith : Call → Except PyException Nat × KnowledgeGraph
  | .addNodes nodes => g.addNodesWith put nodes
  | .addEdges edges => g.addEdgesWith put edges

end

/-- The tables and the buffers are the same. -/
structure Unchanged (g g' : KnowledgeGraph) : Prop where
  nodesTable : g'.nodesTable = g.nodesTable
  edgesTable : g'.edgesTable = g.edgesTable
  nodesArrow : g'.nodesArrow = g.nodesArrow
  edgesArrow : g'.edgesArrow = g.edgesArrow

-- ---------------------------------------------------------------------------
-- A store that never fails
-- ---------------------------------------------------------------------------

section
variable {g : KnowledgeGraph}

theorem flushWith_succeeding (kind : Kind) : g.flushWith .succeeding kind = (none, g.flush kind) := by
  cases kind <;> simp only [flushWith, flush, Put.succeeding] <;> split <;> rfl

theorem finish_succeeding (kind : Kind) (added : Nat) :
    g.finish .succeeding kind added = (.ok added, if added ≠ 0 then g.flush kind else g) := by
  rw [finish, flushWith_succeeding]
  by_cases h : added = 0 <;> simp [h]

theorem addNodesWith_succeeding (nodes : List Node) :
    g.addNodesWith .succeeding nodes = g.addNodes nodes := by
  unfold addNodesWith addNodes
  generalize buffer Node.row nodes g.nodesTable g.nodesArrow = buffered
  obtain ⟨_ | exc, nodesTable, nodesArrow⟩ := buffered
  · exact finish_succeeding _ _
  · rfl

theorem addEdgesWith_succeeding (edges : List Edge) :
    g.addEdgesWith .succeeding edges = g.addEdges edges := by
  unfold addEdgesWith addEdges
  generalize buffer Edge.row edges g.edgesTable g.edgesArrow = buffered
  obtain ⟨_ | exc, edgesTable, edgesArrow⟩ := buffered
  · exact finish_succeeding _ _
  · rfl

end

-- ---------------------------------------------------------------------------
-- What a call leaves
-- ---------------------------------------------------------------------------

section
variable {row : α → Except PyException Row} {put : Put} {g g' g₀ : KnowledgeGraph} {c : Call}

/-- The loop has put what it came by into the table, everything unless it raised. -/
theorem buffer_table (row : α → Except PyException Row) (xs table : List α) (arrow : List Row) :
    ∃ taken, taken <+: xs ∧ (buffer row xs table arrow).2.1 = table ++ taken ∧
      ((buffer row xs table arrow).1 = none → taken = xs) ∧
      ((buffer row xs table arrow).1 ≠ none → taken ≠ []) := by
  induction xs generalizing table arrow with
  | nil => exact ⟨[], List.nil_prefix, by simp [buffer], by simp, by simp [buffer]⟩
  | cons x xs ih =>
    cases hx : row x with
    | error exc => exact ⟨[x], by simp, by simp [buffer, hx], by simp [buffer, hx], by simp⟩
    | ok r =>
      obtain ⟨taken, hpre, htable, hnone, -⟩ := ih (table ++ [x]) (arrow ++ [r])
      refine ⟨x :: taken, by simpa using hpre, by simp [buffer, hx, htable], fun h => ?_, by simp⟩
      rw [buffer, hx] at h
      rw [hnone h]

/-- The tables after the end of a call are those before it. -/
structure SameTables (g g' : KnowledgeGraph) : Prop where
  nodesTable : g'.nodesTable = g.nodesTable
  edgesTable : g'.edgesTable = g.edgesTable

theorem flushWith_tables (put : Put) (g : KnowledgeGraph) (kind : Kind) :
    SameTables g (g.flushWith put kind).2 := by
  cases kind
  all_goals
    simp only [flushWith]
    split
    · exact ⟨rfl, rfl⟩
    · split <;> exact ⟨rfl, rfl⟩

theorem finish_tables (put : Put) (g : KnowledgeGraph) (kind : Kind) (added : Nat) :
    SameTables g (g.finish put kind added).2 := by
  unfold finish
  split
  · exact ⟨rfl, rfl⟩
  · have h := flushWith_tables put g kind
    split
    · rename_i hflush
      rwa [hflush] at h
    · rename_i hflush
      rwa [hflush] at h

theorem finish_error (kind : Kind) (h : g.finish put kind added = (.error exc, g')) :
    added ≠ 0 ∧ SameTables g g' := by
  have htables := finish_tables put g kind added
  rw [h] at htables
  refine ⟨?_, htables⟩
  rintro rfl
  simp [finish] at h

/-- What a call that raises leaves behind: some of its items, the first ones, at the end of their table. -/
def Leftovers (g : KnowledgeGraph) (c : Call) (g' : KnowledgeGraph) : Prop :=
  match c with
  | .addNodes nodes => ∃ taken, taken <+: nodes ∧ taken ≠ [] ∧ g'.nodesTable = g.nodesTable ++ taken ∧
      g'.edgesTable = g.edgesTable
  | .addEdges edges => ∃ taken, taken <+: edges ∧ taken ≠ [] ∧ g'.edgesTable = g.edgesTable ++ taken ∧
      g'.nodesTable = g.nodesTable

theorem addNodesWith_error (h : g.addNodesWith put nodes = (.error exc, g')) :
    g.Leftovers (.addNodes nodes) g' := by
  obtain ⟨taken, hpre, htable, hnone, hsome⟩ := buffer_table Node.row nodes g.nodesTable g.nodesArrow
  unfold addNodesWith at h
  generalize buffer Node.row nodes g.nodesTable g.nodesArrow = buffered at *
  obtain ⟨_ | exc', nodesTable, nodesArrow⟩ := buffered
  · obtain ⟨hadded, htables⟩ := finish_error .nodes h
    obtain rfl := hnone rfl
    exact ⟨taken, hpre, List.ne_nil_of_length_pos (Nat.pos_of_ne_zero hadded),
      htables.nodesTable.trans htable, htables.edgesTable⟩
  · cases h
    exact ⟨taken, hpre, hsome (by simp), htable, rfl⟩

theorem addEdgesWith_error (h : g.addEdgesWith put edges = (.error exc, g')) :
    g.Leftovers (.addEdges edges) g' := by
  obtain ⟨taken, hpre, htable, hnone, hsome⟩ := buffer_table Edge.row edges g.edgesTable g.edgesArrow
  unfold addEdgesWith at h
  generalize buffer Edge.row edges g.edgesTable g.edgesArrow = buffered at *
  obtain ⟨_ | exc', edgesTable, edgesArrow⟩ := buffered
  · obtain ⟨hadded, htables⟩ := finish_error .edges h
    obtain rfl := hnone rfl
    exact ⟨taken, hpre, List.ne_nil_of_length_pos (Nat.pos_of_ne_zero hadded),
      htables.edgesTable.trans htable, htables.nodesTable⟩
  · cases h
    exact ⟨taken, hpre, hsome (by simp), htable, rfl⟩

theorem callWith_error (h : g.callWith put c = (.error exc, g')) : g.Leftovers c g' := by
  cases c with
  | addNodes nodes => exact addNodesWith_error h
  | addEdges edges => exact addEdgesWith_error h

/-- No call that raises leaves the tables and buffers as they were. -/
theorem raising_call_changes (put : Put) (g g' : KnowledgeGraph) (c : Call) (exc : PyException)
    (h : g.callWith put c = (.error exc, g')) : ¬ Unchanged g g' := by
  intro hsame
  cases c with
  | addNodes nodes =>
    obtain ⟨taken, -, hne, htable, -⟩ := callWith_error h
    rw [hsame.nodesTable, List.self_eq_append_right] at htable
    exact hne htable
  | addEdges edges =>
    obtain ⟨taken, -, hne, htable, -⟩ := callWith_error h
    rw [hsame.edgesTable, List.self_eq_append_right] at htable
    exact hne htable

def plainNode : Node where
  id := "n"
  type := "X"
  tenantId := "t"

/-- The store is full: the node stays in the table and its row in the buffer. -/
theorem failed_put_changes :
    ¬ Unchanged (new "default" Dict.empty)
      { new "default" Dict.empty with
        nodesTable := [plainNode]
        nodesArrow := [[("id", .string "n"), ("type", .string "X"), ("tenant_id", .string "t"),
          ("attrs", .json (.obj [])), ("embedding_ref", .null)]] } :=
  raising_call_changes (.failing ⟨"OSError", "No space left on device"⟩) _ _ (.addNodes [plainNode])
    ⟨"OSError", "No space left on device"⟩ rfl

def datedNode : Node := { plainNode with attrs := .dict [(.str "at", .other "datetime")] }

/-- The attributes are refused, and every query is from then on. -/
theorem refused_node_stays : ∃ g', (new "default" Dict.empty).callWith .succeeding (.addNodes [datedNode]) =
    (.error ⟨"TypeError", "Object of type datetime is not JSON serializable"⟩, g') ∧
    ¬ Unchanged (new "default" Dict.empty) g' ∧
    g'.tableRows .nodes = .error ⟨"TypeError", "Object of type datetime is not JSON serializable"⟩ := by
  refine ⟨_, rfl, fun h => ?_, rfl⟩
  cases h.nodesTable

-- ---------------------------------------------------------------------------
-- Queries and retries
-- ---------------------------------------------------------------------------

/-- Nothing is taken from the tables again. -/
structure Grows (g g' : KnowledgeGraph) : Prop where
  nodesTable : g.nodesTable <+: g'.nodesTable
  edgesTable : g.edgesTable <+: g'.edgesTable

theorem Grows.refl (g : KnowledgeGraph) : Grows g g := ⟨List.prefix_rfl, List.prefix_rfl⟩

theorem Grows.trans (h : Grows g g₀) (h' : Grows g₀ g') : Grows g g' :=
  ⟨h.nodesTable.trans h'.nodesTable, h.edgesTable.trans h'.edgesTable⟩

theorem SameTables.grows (h : SameTables g g') : Grows g g' :=
  ⟨by rw [h.nodesTable], by rw [h.edgesTable]⟩

theorem grows_callWith (put : Put) (g : KnowledgeGraph) (c : Call) : Grows g (g.callWith put c).2 := by
  cases c with
  | addNodes nodes =>
    obtain ⟨taken, -, htable, -, -⟩ := buffer_table Node.row nodes g.nodesTable g.nodesArrow
    have hbuffered : Grows g { g with
        nodesTable := (buffer Node.row nodes g.nodesTable g.nodesArrow).2.1
        nodesArrow := (buffer Node.row nodes g.nodesTable g.nodesArrow).2.2 } :=
      ⟨by simp [htable], List.prefix_rfl⟩
    simp only [callWith, addNodesWith]
    split
    · exact hbuffered
    · exact hbuffered.trans (finish_tables put _ .nodes _).grows
  | addEdges edges =>
    obtain ⟨taken, -, htable, -, -⟩ := buffer_table Edge.row edges g.edgesTable g.edgesArrow
    have hbuffered : Grows g { g with
        edgesTable := (buffer Edge.row edges g.edgesTable g.edgesArrow).2.1
        edgesArrow := (buffer Edge.row edges g.edgesTable g.edgesArrow).2.2 } :=
      ⟨List.prefix_rfl, by simp [htable]⟩
    simp only [callWith, addEdgesWith]
    split
    · exact hbuffered
    · exact hbuffered.trans (finish_tables put _ .edges _).grows

def callsWith (put : Put) (g : KnowledgeGraph) (calls : List Call) : KnowledgeGraph :=
  calls.foldl (fun g c => (g.callWith put c).2) g

theorem grows_callsWith (put : Put) (g : KnowledgeGraph) (calls : List Call) :
    Grows g (g.callsWith put calls) := by
  induction calls generalizing g with
  | nil => exact .refl g
  | cons c calls ih => exact (grows_callWith put g c).trans (ih _)

theorem tableRows_isOk_of_grows (h : Grows g g') (hok : ∃ rows, g'.tableRows kind = .ok rows) :
    ∃ rows, g.tableRows kind = .ok rows := by
  cases kind with
  | nodes =>
    simp only [tableRows, mapM_isOk_iff] at hok ⊢
    exact fun n hn => hok n (h.nodesTable.subset hn)
  | edges =>
    simp only [tableRows, mapM_isOk_iff] at hok ⊢
    exact fun e he => hok e (h.edgesTable.subset he)

/-- Once an encoding was refused every query raises, whatever is called in between. -/
theorem queries_raise (hc : c.rows = .error exc) (put : Put) (g : KnowledgeGraph) (calls : List Call) :
    ¬ ∃ rows, ((g.callWith put c).2.callsWith put calls).tableRows c.kind = .ok rows := by
  intro hok
  obtain ⟨rows, hrows⟩ := tableRows_isOk_of_grows (grows_callsWith put _ calls) hok
  cases c with
  | addNodes nodes =>
    obtain ⟨xs, arrow, hbuffer, hxs⟩ := buffer_error hc g.nodesTable g.nodesArrow
    have hall : ∃ rs, xs.mapM Node.row = .ok rs := by
      have htable := mapM_isOk_iff.mp ⟨rows, hrows⟩
      simp only [callWith, addNodesWith, hbuffer] at htable
      exact mapM_isOk_iff.mpr fun n hn => htable n (List.mem_append_right _ hn)
    rw [hxs] at hall
    cases hall.choose_spec
  | addEdges edges =>
    obtain ⟨xs, arrow, hbuffer, hxs⟩ := buffer_error hc g.edgesTable g.edgesArrow
    have hall : ∃ rs, xs.mapM Edge.row = .ok rs := by
      have htable := mapM_isOk_iff.mp ⟨rows, hrows⟩
      simp only [callWith, addEdgesWith, hbuffer] at htable
      exact mapM_isOk_iff.mpr fun e he => htable e (List.mem_append_right _ he)
    rw [hxs] at hall
    cases hall.choose_spec

/-- After a failed `put` the retry that goes through has every item in the table twice. -/
theorem retry_doubles (hrows : c.rows = .ok rows) (ht : g.tableRows c.kind = .ok rs)
    (h : g.callWith put c = (.error exc, g')) :
    (g'.callWith .succeeding c).2.tableRows c.kind = .ok (rs ++ rows ++ rows) := by
  cases c with
  | addNodes nodes =>
    simp only [callWith, addNodesWith, buffer_ok hrows] at h ⊢
    have htables := (finish_error .nodes h).2
    have hagain := finish_tables .succeeding { g' with
      nodesTable := g'.nodesTable ++ nodes
      nodesArrow := g'.nodesArrow ++ rows } .nodes nodes.length
    rw [Call.kind, tableRows, hagain.nodesTable, htables.nodesTable]
    exact mapM_append_ok (mapM_append_ok ht hrows) hrows
  | addEdges edges =>
    simp only [callWith, addEdgesWith, buffer_ok hrows] at h ⊢
    have htables := (finish_error .edges h).2
    have hagain := finish_tables .succeeding { g' with
      edgesTable := g'.edgesTable ++ edges
      edgesArrow := g'.edgesArrow ++ rows } .edges edges.length
    rw [Call.kind, tableRows, hagain.edgesTable, htables.edgesTable]
    exact mapM_append_ok (mapM_append_ok ht hrows) hrows

end

end KnowledgeGraph

end Intelliqx.Kg
