import Intelliqx.Kg.Partitions

/-!
# Concurrent calls

`System` is one graph with any number of `add_nodes` calls on it. A call fills
the buffer and takes its snapshot in one go, then waits in `put`, and clears
the buffer once that returns; the store has the partition from some point in
between. The calls share the buffer, so a call that starts while another waits
stores that one's rows a second time (`rows_stored_once_iff`).
-/

namespace Intelliqx.Kg.Concurrent

open Machine Py KnowledgeGraph

/-- Where a call is. In `putting` the store does not have the partition yet, in
`stored` it does. -/
inductive Phase
  | putting (key : String) (rows : List Row) (added : Nat)
  | stored (added : Nat)
  | returned (added : Nat)
  | raised (exc : PyException)

def Phase.done : Phase → Bool
  | .putting .. | .stored _ => false
  | .returned _ | .raised _ => true

/-- The partition that is still to be stored. -/
def Phase.unstored : Phase → List (String × List Row)
  | .putting key rows _ => [(key, rows)]
  | _ => []

structure System where
  graph : KnowledgeGraph
  calls : List Phase

inductive Event
  | addNodes (nodes : List Node)
  | store (i : Nat)
  | resume (i : Nat)

namespace System

def start (collection : String) (storage : ObjectStore) : System :=
  ⟨KnowledgeGraph.new collection storage, []⟩

/-- `none` where the call is not at that point. -/
def step (s : System) : Event → Option System
  | .addNodes nodes =>
    let (raised, nodesTable, nodesArrow) := buffer Node.row nodes s.graph.nodesTable s.graph.nodesArrow
    let graph := { s.graph with nodesTable, nodesArrow }
    let phase : Phase := match raised with
      | some exc => .raised exc
      | none =>
        if nodes.length = 0 ∨ nodesArrow.isEmpty then .returned nodes.length
        else .putting (partitionKey graph.collection .nodes nodesTable.length) nodesArrow nodes.length
    some ⟨graph, s.calls ++ [phase]⟩
  | .store i =>
    match s.calls[i]? with
    | some (.putting key rows added) =>
      some ⟨{ s.graph with storage := s.graph.storage.put key rows }, s.calls.set i (.stored added)⟩
    | _ => none
  | .resume i =>
    match s.calls[i]? with
    | some (.stored added) =>
      some ⟨{ s.graph with nodesArrow := [] }, s.calls.set i (.returned added)⟩
    | _ => none

/-- Every call has returned or raised. -/
def Idle (s : System) : Prop := ∀ c ∈ s.calls, c.done

/-- The step is not the start of a call, with nodes, while another is waiting. -/
def Exclusive (s : System) : Event → Prop
  | .addNodes nodes => nodes ≠ [] → s.Idle
  | _ => True

def unstored (s : System) : List (String × List Row) := s.calls.flatMap Phase.unstored

/-- The rows that are stored or will be. -/
def persisted (s : System) : List Row := s.graph.storedRows .nodes ++ s.unstored.flatMap Prod.snd

end System

-- ---------------------------------------------------------------------------
-- The steps
-- ---------------------------------------------------------------------------

section
variable {s s' : System} {nodes : List Node} {rows : List Row} {i : Nat}

/-- A call whose rows can be built. -/
theorem step_addNodes (h : nodes.mapM Node.row = .ok rows) :
    s.step (.addNodes nodes) = some ⟨
      { s.graph with nodesTable := s.graph.nodesTable ++ nodes, nodesArrow := s.graph.nodesArrow ++ rows },
      s.calls ++ [if nodes = [] then .returned 0 else
        .putting (partitionKey s.graph.collection .nodes (s.graph.nodesTable ++ nodes).length)
          (s.graph.nodesArrow ++ rows) nodes.length]⟩ := by
  have hlen := (mapM_eq_ok_iff.mp h).length_eq
  simp only [System.step, buffer_ok h]
  cases nodes with
  | nil => simp
  | cons n nodes =>
    cases rows with
    | nil => simp at hlen
    | cons r rows => simp

/-- A call that nothing overlaps is the call of the sequential model. -/
theorem run_alone (h : nodes.mapM Node.row = .ok rows) (hn : nodes ≠ []) :
    run System.step s [.addNodes nodes, .store s.calls.length, .resume s.calls.length] =
      some ⟨(s.graph.addNodes nodes).2, s.calls ++ [.returned nodes.length]⟩ := by
  have hlen := (mapM_eq_ok_iff.mp h).length_eq
  have hrows : (s.graph.nodesArrow ++ rows).isEmpty = false := by
    cases nodes <;> cases rows <;> simp_all
  simp [hn, System.step, KnowledgeGraph.addNodes, buffer_ok h, flush, hrows]

theorem step_cases {e : Event} (hreturn : ∀ nodes, e = .addNodes nodes → ∃ rows, nodes.mapM Node.row = .ok rows)
    (hs : s.step e = some s') :
    (∃ nodes rows, e = .addNodes nodes ∧ nodes.mapM Node.row = .ok rows) ∨
      (∃ i key rows added, e = .store i ∧ s.calls[i]? = some (.putting key rows added) ∧
        s' = ⟨{ s.graph with storage := s.graph.storage.put key rows }, s.calls.set i (.stored added)⟩) ∨
      ∃ i added, e = .resume i ∧ s.calls[i]? = some (.stored added) ∧
        s' = ⟨{ s.graph with nodesArrow := [] }, s.calls.set i (.returned added)⟩ := by
  cases e with
  | addNodes nodes =>
    obtain ⟨rows, hrows⟩ := hreturn nodes rfl
    exact .inl ⟨nodes, rows, rfl, hrows⟩
  | store i =>
    simp only [System.step] at hs
    split at hs
    · rename_i key rows added hi
      cases hs
      exact .inr (.inl ⟨i, key, rows, added, rfl, hi, rfl⟩)
    · cases hs
  | resume i =>
    simp only [System.step] at hs
    split at hs
    · rename_i added hi
      cases hs
      exact .inr (.inr ⟨i, added, rfl, hi, rfl⟩)
    · cases hs

end

-- ---------------------------------------------------------------------------
-- What is persisted
-- ---------------------------------------------------------------------------

theorem flatMap_set_perm {f : α → List β} {l : List α} (h : l[i]? = some a) (hb : f b = []) :
    (l.flatMap f).Perm (f a ++ (l.set i b).flatMap f) := by
  induction l generalizing i with
  | nil => simp at h
  | cons x l ih =>
    cases i with
    | zero =>
      cases h
      simp [hb]
    | succ i =>
      rw [List.set_cons_succ, List.flatMap_cons, List.flatMap_cons, ← List.append_assoc]
      refine ((ih h).append_left (f x)).trans ?_
      rw [← List.append_assoc]
      exact List.perm_append_comm.append_right _

/-- The partitions have keys of their own, numbered by sizes the table has had. -/
structure Numbered (collection : String) (size : Nat) (waiting stored : List String) : Prop where
  nodup : (waiting ++ stored).Nodup
  named : ∀ k ∈ waiting, ∃ n, k = partitionKey collection .nodes n
  bounded : ∀ n, partitionKey collection .nodes n ∈ waiting ++ stored → n ≤ size

section
variable {collection : String} {size : Nat} {waiting stored : List String}

/-- A larger table gives a new key. -/
theorem Numbered.wait (h : Numbered collection size waiting stored) (hsize : size < size') :
    Numbered collection size' (waiting ++ [partitionKey collection .nodes size']) stored := by
  have hnew : partitionKey collection .nodes size' ∉ waiting ++ stored := by
    intro hmem
    have hle := h.bounded size' hmem
    omega
  have hperm : (waiting ++ [partitionKey collection .nodes size'] ++ stored).Perm
      (partitionKey collection .nodes size' :: (waiting ++ stored)) := by
    rw [List.append_assoc, List.singleton_append]
    exact List.perm_middle
  refine ⟨hperm.nodup_iff.mpr (List.nodup_cons.mpr ⟨hnew, h.nodup⟩), ?_, ?_⟩
  · intro k hk
    rcases List.mem_append.mp hk with hk | hk
    · exact h.named k hk
    · exact ⟨size', List.mem_singleton.mp hk⟩
  · intro n hn
    rcases List.mem_cons.mp (hperm.mem_iff.mp hn) with hn | hn
    · exact Nat.le_of_eq (partitionKey_inj.mp hn)
    · exact (h.bounded n hn).trans (Nat.le_of_lt hsize)

/-- A waiting partition is stored, or nothing changes. -/
theorem Numbered.of_perm (h : Numbered collection size waiting stored)
    (hperm : (waiting ++ stored).Perm (waiting' ++ stored')) (hsub : ∀ k ∈ waiting', k ∈ waiting) :
    Numbered collection size waiting' stored' where
  nodup := hperm.nodup_iff.mp h.nodup
  named k hk := h.named k (hsub k hk)
  bounded n hn := h.bounded n (hperm.mem_iff.mpr hn)

end

def System.Keyed (s : System) : Prop :=
  Numbered s.graph.collection s.graph.nodesTable.length (s.unstored.map Prod.fst) s.graph.storage.keys

/-- What a step does to the table, the rows that are or will be stored, and the
keys: a start adds its rows to the table and the whole buffer to the rows, the
other steps only move rows from the one place to the other. -/
structure Moves (s : System) (new buffered : List Row) (s' : System) : Prop where
  keyed : s'.Keyed
  table : ∀ rows, s.graph.tableRows .nodes = .ok rows → s'.graph.tableRows .nodes = .ok (rows ++ new)
  persisted : s'.persisted.Perm (s.persisted ++ buffered)

section
variable {s s' : System} {nodes : List Node} {rows : List Row} {i : Nat} {calls : List Phase}

theorem unstored_append {c : Phase} {graph : KnowledgeGraph} :
    System.unstored ⟨graph, calls ++ [c]⟩ = System.unstored ⟨graph, calls⟩ ++ c.unstored := by
  simp [System.unstored]

theorem moves_addNone (h : s.Keyed) : Moves s [] [] { s with calls := s.calls ++ [.returned 0] } := by
  have hsame : System.unstored ⟨s.graph, s.calls ++ [.returned 0]⟩ = s.unstored :=
    unstored_append.trans (List.append_nil _)
  refine ⟨?_, fun rows hrows => by rw [List.append_nil]; exact hrows, ?_⟩
  · rw [System.Keyed, hsame]
    exact h
  · rw [System.persisted, hsame, List.append_nil]
    exact .rfl

theorem moves_addNodes (h : s.Keyed) (hrows : nodes.mapM Node.row = .ok rows) (hn : nodes ≠ []) :
    Moves s rows (s.graph.nodesArrow ++ rows) ⟨
      { s.graph with nodesTable := s.graph.nodesTable ++ nodes, nodesArrow := s.graph.nodesArrow ++ rows },
      s.calls ++ [.putting (partitionKey s.graph.collection .nodes (s.graph.nodesTable ++ nodes).length)
        (s.graph.nodesArrow ++ rows) nodes.length]⟩ where
  keyed := by
    have hsize : s.graph.nodesTable.length < (s.graph.nodesTable ++ nodes).length := by
      rw [List.length_append]
      have := List.length_pos_of_ne_nil hn
      omega
    rw [System.Keyed, unstored_append, List.map_append]
    exact Numbered.wait h hsize
  table rs hrs := mapM_append_ok hrs hrows
  persisted := by
    rw [System.persisted, unstored_append, List.flatMap_append, ← List.append_assoc]
    simp only [Phase.unstored, List.flatMap_cons, List.flatMap_nil, List.append_nil]
    exact .rfl

theorem moves_store (h : s.Keyed) (hi : s.calls[i]? = some (.putting key rows added)) :
    Moves s [] [] ⟨{ s.graph with storage := s.graph.storage.put key rows },
      s.calls.set i (.stored added)⟩ := by
  have hperm : s.unstored.Perm ((key, rows) :: (s.calls.set i (.stored added)).flatMap Phase.unstored) :=
    flatMap_set_perm hi rfl
  have hkeys := hperm.map Prod.fst
  obtain ⟨n, hname⟩ := h.named key (hkeys.mem_iff.mpr List.mem_cons_self)
  have hnew : key ∉ s.graph.storage.keys := by
    have hdisjoint := List.disjoint_of_nodup_append h.nodup
    exact hdisjoint (hkeys.mem_iff.mpr List.mem_cons_self)
  refine ⟨?_, fun rows hrows => by rw [List.append_nil]; exact hrows, ?_⟩
  · refine Numbered.of_perm h ?_ fun k hk => hkeys.mem_iff.mpr (List.mem_cons_of_mem _ hk)
    rw [ObjectStore.put, Dict.keys_insert, if_neg hnew, ← List.append_assoc]
    refine (hkeys.append_right _).trans ?_
    exact (List.perm_append_singleton _ _).symm
  · subst hname
    rw [List.append_nil]
    have hstored : ((s.graph.storage.put (partitionKey s.graph.collection .nodes n) rows).rowsUnder
        (directory s.graph.collection .nodes)).Perm (rows ++ s.graph.storedRows .nodes) :=
      rowsUnder_insert_new hnew
    refine (hstored.append_right _).trans ?_
    rw [List.append_assoc]
    refine (List.perm_append_comm_assoc _ _ _).trans ?_
    exact ((hperm.flatMap_right Prod.snd).append_left _).symm

theorem moves_resume (h : s.Keyed) (hi : s.calls[i]? = some (.stored added)) :
    Moves s [] [] ⟨{ s.graph with nodesArrow := [] }, s.calls.set i (.returned added)⟩ := by
  have hperm : s.unstored.Perm ((s.calls.set i (.returned added)).flatMap Phase.unstored) :=
    flatMap_set_perm hi rfl
  have hkeys := hperm.map Prod.fst
  refine ⟨?_, fun rows hrows => by rw [List.append_nil]; exact hrows, ?_⟩
  · exact Numbered.of_perm h (hkeys.append_right _) fun k hk => hkeys.mem_iff.mpr hk
  · rw [List.append_nil]
    exact ((hperm.flatMap_right _).append_left _).symm

end

-- ---------------------------------------------------------------------------
-- Before and after the first overlap
-- ---------------------------------------------------------------------------

def System.waiting (s : System) : Nat := s.calls.countP fun c => !c.done

theorem idle_iff {s : System} : s.Idle ↔ s.waiting = 0 := by
  simp [System.Idle, System.waiting, List.countP_eq_zero]

/-- No call has started while another was waiting: every row is persisted once,
and the buffer is empty but for the rows of the call that waits. -/
structure Apart (s : System) : Prop where
  keyed : s.Keyed
  once : ∃ rows, s.graph.tableRows .nodes = .ok rows ∧ s.persisted.Perm rows
  buffer : s.waiting = 0 ∧ s.graph.nodesArrow = [] ∨ s.waiting = 1 ∧ s.graph.nodesArrow ≠ []

/-- Some row is persisted twice. -/
structure Doubled (s : System) : Prop where
  keyed : s.Keyed
  more : ∃ rows, s.graph.tableRows .nodes = .ok rows ∧ rows.length < s.persisted.length

section
variable {s s' : System} {new buffered rows : List Row} {nodes : List Node} {i : Nat}

theorem Moves.once (h : Moves s rows rows s')
    (hs : ∃ rs, s.graph.tableRows .nodes = .ok rs ∧ s.persisted.Perm rs) :
    ∃ rs, s'.graph.tableRows .nodes = .ok rs ∧ s'.persisted.Perm rs := by
  obtain ⟨rs, hrs, hperm⟩ := hs
  exact ⟨rs ++ rows, h.table rs hrs, h.persisted.trans (hperm.append_right rows)⟩

theorem Moves.doubled (h : Moves s new buffered s') (hs : Doubled s) (hle : new.length ≤ buffered.length) :
    Doubled s' := by
  obtain ⟨rs, hrs, hmore⟩ := hs.more
  refine ⟨h.keyed, rs ++ new, h.table rs hrs, ?_⟩
  rw [h.persisted.length_eq, List.length_append, List.length_append]
  omega

/-- The step of the first overlap. -/
theorem Moves.overlap (h : Moves s new buffered s')
    (hs : ∃ rs, s.graph.tableRows .nodes = .ok rs ∧ s.persisted.Perm rs)
    (hlt : new.length < buffered.length) : Doubled s' := by
  obtain ⟨rs, hrs, hperm⟩ := hs
  refine ⟨h.keyed, rs ++ new, h.table rs hrs, ?_⟩
  rw [h.persisted.length_eq, List.length_append, List.length_append, hperm.length_eq]
  omega

theorem waiting_set {c c' : Phase} {graph : KnowledgeGraph} (hi : s.calls[i]? = some c) (hc : c.done = false) :
    System.waiting ⟨graph, s.calls.set i c'⟩ + 1 = s.waiting + if c'.done then 0 else 1 := by
  obtain ⟨hlt, hget⟩ := List.getElem?_eq_some_iff.mp hi
  have hpos : 0 < s.waiting :=
    List.countP_pos_iff.mpr ⟨c, List.mem_of_getElem? hi, by simp [hc]⟩
  simp only [System.waiting, List.countP_set hlt, hget, hc] at hpos ⊢
  cases c'.done <;> simp <;> omega

theorem waiting_append {c : Phase} {graph : KnowledgeGraph} :
    System.waiting ⟨graph, s.calls ++ [c]⟩ = s.waiting + if c.done then 0 else 1 := by
  cases hc : c.done <;> simp [System.waiting, hc]

theorem Doubled.step {e : Event} (h : Doubled s)
    (hreturn : ∀ nodes, e = .addNodes nodes → ∃ rows, nodes.mapM Node.row = .ok rows)
    (hs : s.step e = some s') : Doubled s' := by
  obtain ⟨nodes, rows, rfl, hrows⟩ | ⟨i, key, rows, added, rfl, hi, rfl⟩ | ⟨i, added, rfl, hi, rfl⟩ :=
    step_cases hreturn hs
  · rw [step_addNodes hrows] at hs
    cases hs
    by_cases hn : nodes = []
    · subst hn
      cases hrows
      simpa using (moves_addNone h.keyed).doubled h (le_refl _)
    · rw [if_neg hn]
      exact (moves_addNodes h.keyed hrows hn).doubled h (by simp)
  · exact (moves_store h.keyed hi).doubled h (le_refl _)
  · exact (moves_resume h.keyed hi).doubled h (le_refl _)

theorem Apart.addNone (h : Apart s) : Apart ⟨s.graph, s.calls ++ [.returned 0]⟩ := by
  have hmoves := moves_addNone h.keyed
  have hwaiting : System.waiting ⟨s.graph, s.calls ++ [.returned 0]⟩ = s.waiting := waiting_append
  exact ⟨hmoves.keyed, hmoves.once h.once, by rw [hwaiting]; exact h.buffer⟩

/-- A batch with nodes starts apart, or is the first overlap. -/
theorem Apart.addNodes (h : Apart s) (hrows : nodes.mapM Node.row = .ok rows) (hn : nodes ≠ [])
    (hmoves : Moves s rows (s.graph.nodesArrow ++ rows) s') (hwaiting : s'.waiting = s.waiting + 1)
    (harrow' : s'.graph.nodesArrow = s.graph.nodesArrow ++ rows) :
    s.Exclusive (.addNodes nodes) ∧ Apart s' ∨ ¬ s.Exclusive (.addNodes nodes) ∧ Doubled s' := by
  rcases h.buffer with ⟨hnone, harrow⟩ | ⟨hone, harrow⟩
  · -- the buffer holds this call's rows only
    rw [harrow, List.nil_append] at hmoves harrow'
    have hlen := (mapM_eq_ok_iff.mp hrows).length_eq
    refine .inl ⟨fun _ => idle_iff.mpr hnone, hmoves.keyed, hmoves.once h.once, .inr ⟨?_, ?_⟩⟩
    · rw [hwaiting, hnone]
    · intro hnil
      rw [harrow'.symm.trans hnil] at hlen
      exact hn (List.eq_nil_of_length_eq_zero hlen)
  · -- the rows of the call that waits are in the buffer too
    have hpos := List.length_pos_of_ne_nil harrow
    refine .inr ⟨fun hidle => ?_, hmoves.overlap h.once ?_⟩
    · have hzero := idle_iff.mp (hidle hn)
      omega
    · rw [List.length_append]
      omega

/-- A step keeps the calls apart, or is the first overlap. -/
theorem Apart.step {e : Event} (h : Apart s)
    (hreturn : ∀ nodes, e = .addNodes nodes → ∃ rows, nodes.mapM Node.row = .ok rows)
    (hs : s.step e = some s') : s.Exclusive e ∧ Apart s' ∨ ¬ s.Exclusive e ∧ Doubled s' := by
  obtain ⟨nodes, rows, rfl, hrows⟩ | ⟨i, key, rows, added, rfl, hi, rfl⟩ | ⟨i, added, rfl, hi, rfl⟩ :=
    step_cases hreturn hs
  · rw [step_addNodes hrows] at hs
    cases hs
    by_cases hn : nodes = []
    · subst hn
      cases hrows
      exact .inl ⟨fun hne => absurd rfl hne, by simpa using h.addNone⟩
    · rw [if_neg hn]
      exact h.addNodes hrows hn (moves_addNodes h.keyed hrows hn) waiting_append rfl
  · have hmoves := moves_store h.keyed hi
    have hcount : System.waiting ⟨{ s.graph with storage := s.graph.storage.put key rows },
      s.calls.set i (.stored added)⟩ + 1 = s.waiting + 1 := waiting_set hi rfl
    refine .inl ⟨trivial, hmoves.keyed, hmoves.once h.once, ?_⟩
    rw [Nat.add_right_cancel hcount]
    exact h.buffer
  · have hmoves := moves_resume h.keyed hi
    have hcount : System.waiting ⟨{ s.graph with nodesArrow := [] }, s.calls.set i (.returned added)⟩ + 1 =
      s.waiting := waiting_set hi rfl
    refine .inl ⟨trivial, hmoves.keyed, hmoves.once h.once, .inl ⟨?_, rfl⟩⟩
    rcases h.buffer with ⟨hnone, -⟩ | ⟨hone, -⟩
    · omega
    · omega

-- ---------------------------------------------------------------------------
-- Runs
-- ---------------------------------------------------------------------------

/-- Every call of the run returns: `json.dumps` takes the attributes. -/
def Returning (events : List Event) : Prop :=
  ∀ nodes, Event.addNodes nodes ∈ events → ∃ rows, nodes.mapM Node.row = .ok rows

theorem Doubled.run {events : List Event} (h : Doubled s) (hreturn : Returning events)
    (hrun : Machine.run System.step s events = some s') : Doubled s' := by
  refine (run_countdown (I := fun es s => Doubled s ∧ Returning es) ?_ ⟨h, hreturn⟩ hrun).1
  rintro e es s s' ⟨h, hreturn⟩ hs
  refine ⟨h.step (fun nodes he => hreturn nodes (he ▸ List.mem_cons_self)) hs, ?_⟩
  exact fun nodes he => hreturn nodes (List.mem_cons_of_mem _ he)

theorem Apart.run {events : List Event} (h : Apart s) (hreturn : Returning events)
    (hrun : Machine.run System.step s events = some s') :
    Always System.step (fun s e _ => s.Exclusive e) s events ∧ Apart s' ∨
      ¬ Always System.step (fun s e _ => s.Exclusive e) s events ∧ Doubled s' := by
  induction events generalizing s with
  | nil => cases hrun; exact .inl ⟨trivial, h⟩
  | cons e events ih =>
    obtain ⟨t, ht, hrest⟩ := Option.bind_eq_some_iff.mp hrun
    have hreturn' : Returning events := fun nodes he => hreturn nodes (List.mem_cons_of_mem _ he)
    have halways : Always System.step (fun s e _ => s.Exclusive e) s (e :: events) ↔
        s.Exclusive e ∧ Always System.step (fun s e _ => s.Exclusive e) t events := by
      simp [Always, ht]
    rw [halways]
    rcases h.step (fun nodes he => hreturn nodes (he ▸ List.mem_cons_self)) ht with ⟨he, hapart⟩ | ⟨he, hdoubled⟩
    · rcases ih hapart hreturn' hrest with ⟨hrest, hs'⟩ | ⟨hrest, hs'⟩
      · exact .inl ⟨⟨he, hrest⟩, hs'⟩
      · exact .inr ⟨fun hboth => hrest hboth.2, hs'⟩
    · exact .inr ⟨fun hboth => he hboth.1, hdoubled.run hreturn' hrest⟩

theorem Apart.start {collection : String} {storage : ObjectStore}
    (hempty : ∀ key ∈ storage.keys, (directory collection .nodes).toList.isPrefixOf key.toList = false) :
    Apart (System.start collection storage) := by
  refine ⟨⟨storage.nodup, fun k hk => absurd hk List.not_mem_nil, ?_⟩, ⟨[], rfl, ?_⟩, .inl ⟨rfl, rfl⟩⟩
  · exact fun n hn => absurd hn (partitionKey_not_mem hempty n)
  · simp [System.persisted, System.unstored, storedRows, System.start, KnowledgeGraph.new,
      rowsUnder_of_empty hempty]

theorem Idle.unstored (h : s.Idle) : s.unstored = [] := by
  apply List.flatMap_eq_nil_iff.mpr
  intro c hc
  have hdone := h c hc
  cases c with
  | putting => cases hdone
  | _ => rfl

/-- Once all calls have returned, the partitions hold the rows of the table
exactly when no call with nodes started while another was waiting for `put`. -/
theorem rows_stored_once_iff {collection : String} {storage : ObjectStore} {events : List Event}
    (hempty : ∀ key ∈ storage.keys, (directory collection .nodes).toList.isPrefixOf key.toList = false)
    (hreturn : Returning events)
    (hrun : Machine.run System.step (System.start collection storage) events = some s) (hidle : s.Idle) :
    (∃ rows, s.graph.tableRows .nodes = .ok rows ∧ (s.graph.storedRows .nodes).Perm rows) ↔
      Always System.step (fun s e _ => s.Exclusive e) (System.start collection storage) events := by
  have hpersisted : s.persisted = s.graph.storedRows .nodes := by
    rw [System.persisted, Idle.unstored hidle]
    exact List.append_nil _
  rcases (Apart.start hempty).run hreturn hrun with ⟨halways, hapart⟩ | ⟨halways, hdoubled⟩
  · have honce := hapart.once
    rw [hpersisted] at honce
    exact ⟨fun _ => halways, fun _ => honce⟩
  · obtain ⟨rows, hrows, hmore⟩ := hdoubled.more
    refine ⟨?_, fun h => absurd h halways⟩
    rintro ⟨rows', hrows', hperm⟩
    cases hrows.symm.trans hrows'
    rw [hpersisted, hperm.length_eq] at hmore
    exact absurd hmore (lt_irrefl _)

end

def file (id : String) : Node := { id, type := "File", tenantId := "t1" }

theorem file_rows (id : String) : ∃ rows, [file id].mapM Node.row = .ok rows := ⟨_, rfl⟩

def oneAfterTheOther : List Event :=
  [.addNodes [file "a"], .store 0, .resume 0, .addNodes [file "b"], .store 1, .resume 1]

theorem rows_stored_once_oneAfterTheOther : ∃ s,
    run System.step (System.start "default" Dict.empty) oneAfterTheOther = some s ∧
      ∃ rows, s.graph.tableRows .nodes = .ok rows ∧ (s.graph.storedRows .nodes).Perm rows := by
  refine ⟨_, rfl, (rows_stored_once_iff (fun _ hk => absurd hk List.not_mem_nil) ?_
    (show run System.step (System.start "default" Dict.empty) oneAfterTheOther = some _ from rfl)
    (idle_iff.mpr rfl)).mpr ?_⟩
  · intro nodes hmem
    simp only [oneAfterTheOther, List.mem_cons, Event.addNodes.injEq, reduceCtorEq, List.not_mem_nil,
      or_false, false_or] at hmem
    rcases hmem with rfl | rfl <;> exact file_rows _
  · refine fun _ h => ⟨fun _ => idle_iff.mpr rfl, ?_⟩
    cases h
    refine fun _ h => ⟨trivial, ?_⟩
    cases h
    refine fun _ h => ⟨trivial, ?_⟩
    cases h
    refine fun _ h => ⟨fun _ => idle_iff.mpr rfl, ?_⟩
    cases h
    exact fun _ _ => ⟨trivial, fun _ _ => ⟨trivial, trivial⟩⟩

def overlapping : List Event :=
  [.addNodes [file "a"], .addNodes [file "b"], .store 0, .resume 0, .store 1, .resume 1]

/-- Both calls have returned, and the store has three rows for two nodes. -/
theorem overlapping_rows_stored_twice : ∃ s,
    run System.step (System.start "default" Dict.empty) overlapping = some s ∧ s.Idle ∧
      ¬ ∃ rows, s.graph.tableRows .nodes = .ok rows ∧ (s.graph.storedRows .nodes).Perm rows := by
  refine ⟨_, rfl, idle_iff.mpr rfl, ?_⟩
  rintro ⟨rows, hrows, hperm⟩
  have htwo : rows.length = 2 := by cases hrows; rfl
  have hthree : rows.length = 3 := hperm.length_eq.symm
  omega

end Intelliqx.Kg.Concurrent
