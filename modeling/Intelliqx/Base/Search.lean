import Intelliqx.Base.Digraph

/-!
# Breadth-first search with a queue

The search takes a node from the queue, adds it to the component and queues
its successors that have not been seen. `Searched` is what every round keeps;
with fuel for every node the component is what the start reaches
(`mem_bfs`).
-/

namespace Intelliqx.Digraph

variable {α : Type u}

structure Searched (edges : List (α × α)) (start : α) (queue seen component : List α) : Prop where
  distinct : (component ++ queue).Nodup
  mem_seen : ∀ x, x ∈ seen ↔ x ∈ component ++ queue
  reached : ∀ x ∈ seen, Reaches edges start x
  start_mem : start ∈ seen
  closed : ∀ x ∈ component, ∀ y, (x, y) ∈ edges → y ∈ seen

section
variable {edges : List (α × α)} {start x : α} {seen component : List α}

theorem Searched.init (edges : List (α × α)) (start : α) : Searched edges start [start] [start] [] where
  distinct := List.nodup_singleton start
  mem_seen _ := Iff.rfl
  reached _ hx := List.mem_singleton.mp hx ▸ .refl
  start_mem := List.mem_singleton_self start
  closed _ hx := absurd hx List.not_mem_nil

/-- With an empty queue the component is all that the start reaches. -/
theorem Searched.mem_component (h : Searched edges start [] seen component) :
    x ∈ component ↔ Reaches edges start x := by
  have hsame : ∀ x, x ∈ seen ↔ x ∈ component := by simpa using h.mem_seen
  refine ⟨fun hx => h.reached x ((hsame x).mpr hx), ?_⟩
  intro hr
  induction hr with
  | refl => exact (hsame start).mp h.start_mem
  | tail _ he ih => exact (hsame _).mp (h.closed _ ih _ he)

end

variable [DecidableEq α]

def successors (edges : List (α × α)) (x : α) : List α :=
  ((edges.filter fun e => e.1 = x).map Prod.snd).dedup

/-- The rounds of the search, with the queue, the nodes seen and the component so far. -/
def bfs (edges : List (α × α)) : Nat → List α → List α → List α → List α
  | 0, _, _, component => component
  | _ + 1, [], _, component => component
  | fuel + 1, current :: queue, seen, component =>
    let found := (successors edges current).filter fun y => y ∉ seen
    bfs edges fuel (queue ++ found) (seen ++ found) (component ++ [current])

section
variable {edges : List (α × α)} {start current x y : α} {queue seen component : List α}

theorem mem_successors : y ∈ successors edges x ↔ (x, y) ∈ edges := by
  simp [successors]

theorem Searched.round (h : Searched edges start (current :: queue) seen component) :
    Searched edges start (queue ++ (successors edges current).filter fun y => y ∉ seen)
      (seen ++ (successors edges current).filter fun y => y ∉ seen) (component ++ [current]) := by
  have hcurrent : current ∈ seen := (h.mem_seen current).mpr (by simp)
  refine ⟨?_, ?_, ?_, List.mem_append_left _ h.start_mem, ?_⟩
  · have hold : (component ++ [current] ++ queue).Nodup := by simpa using h.distinct
    rw [← List.append_assoc]
    refine hold.append ((List.nodup_dedup _).filter _) ?_
    intro x hx hnew
    have hseen : x ∈ seen := (h.mem_seen x).mpr (by simpa using hx)
    simp [hseen] at hnew
  · intro x
    rw [List.mem_append, h.mem_seen]
    simp [or_assoc]
  · intro x hx
    rcases List.mem_append.mp hx with hx | hx
    · exact h.reached x hx
    · exact (h.reached current hcurrent).tail (mem_successors.mp (List.mem_of_mem_filter hx))
  · intro x hx y he
    by_cases hy : y ∈ seen
    · exact List.mem_append_left _ hy
    · rcases List.mem_append.mp hx with hx | hx
      · exact absurd (h.closed x hx y he) hy
      · obtain rfl := List.mem_singleton.mp hx
        exact List.mem_append_right _ (List.mem_filter.mpr ⟨mem_successors.mpr he, by simpa using hy⟩)

theorem mem_bfs_of_searched (bound : List α) (h : Searched edges start queue seen component)
    (hbound : ∀ x, Reaches edges start x → x ∈ bound) (hfuel : bound.length ≤ fuel + component.length) :
    x ∈ bfs edges fuel queue seen component ↔ Reaches edges start x := by
  induction fuel generalizing queue seen component with
  | zero =>
    -- all nodes are in the component already
    have hsub : component ++ queue ⊆ bound := fun y hy => hbound y (h.reached y ((h.mem_seen y).mpr hy))
    have hlen := (List.subperm_of_subset h.distinct hsub).length_le
    rw [List.length_append] at hlen
    obtain rfl : queue = [] := List.eq_nil_of_length_eq_zero (by omega)
    exact h.mem_component
  | succ fuel ih =>
    cases queue with
    | nil => exact h.mem_component
    | cons current queue =>
      refine ih h.round ?_
      rw [List.length_append, List.length_singleton]
      omega

theorem nodup_bfs_of_searched (h : Searched edges start queue seen component) :
    (bfs edges fuel queue seen component).Nodup := by
  induction fuel generalizing queue seen component with
  | zero => exact h.distinct.of_append_left
  | succ fuel ih =>
    cases queue with
    | nil => exact h.distinct.of_append_left
    | cons current queue => exact ih h.round

theorem nodup_bfs : (bfs edges fuel [start] [start] []).Nodup := nodup_bfs_of_searched (.init edges start)

theorem mem_bfs : x ∈ bfs edges (edges.length + 1) [start] [start] [] ↔ Reaches edges start x := by
  refine mem_bfs_of_searched (start :: edges.map Prod.snd) (.init edges start) ?_ (by simp)
  intro y hr
  rcases Relation.ReflTransGen.cases_tail hr with rfl | ⟨z, -, he⟩
  · exact List.mem_cons_self
  · exact List.mem_cons_of_mem _ (List.mem_map_of_mem (f := Prod.snd) he)

end

end Intelliqx.Digraph
