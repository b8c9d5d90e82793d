import Mathlib.Data.List.MinMax
import Intelliqx.Service.State

/-!
# Claims and budgets

`claim_next` takes the oldest pending run whether it has an attempt left or
not, and retires it instead of claiming the next one. So it claims the oldest
run within its budget exactly when the oldest pending run is one of these, or
none is (`claims_oldest_iff`).
-/

namespace Intelliqx.Service

open Py

/-- One more attempt is within the budget of the run. -/
def Run.WithinBudget (r : Run) : Prop := r.attempts + 1 ≤ r.maxRetries

def Run.Claimable (r : Run) : Prop := r.status = .pending ∧ r.WithinBudget

/-- The run as a claim leaves it. -/
def Run.claimed (r : Run) (now : Time) : Run :=
  { r with status := .running, attempts := r.attempts + 1, updatedAt := now }

def Run.claim (r : Run) : Claim := ⟨r.runId, r.agentName, jsonLoads r.inputJson, r.tenantId, r.attempts + 1⟩

namespace StateStore

def DistinctTimes (s : StateStore) : Prop := (s.runs.map Run.createdAt).Nodup

/-- `claim_next` claims the oldest run within its budget, leaves the others
within theirs alone, and returns nothing only if there is none. -/
structure ClaimsOldest (s : StateStore) (choice : Nat) (now : Time) : Prop where
  claims : ∀ row ∈ s.runs, row.Claimable → (∀ r ∈ s.runs, r.Claimable → row.createdAt ≤ r.createdAt) →
    (s.claimNext choice now).1 = some row.claim ∧
      (s.claimNext choice now).2.find? row.runId = some (row.claimed now) ∧
      ∀ r ∈ s.runs, r.WithinBudget → r.runId ≠ row.runId → (s.claimNext choice now).2.find? r.runId = some r
  idle : (s.claimNext choice now).1 = none → ∀ r ∈ s.runs, ¬ r.Claimable

/-- If some run can be claimed the oldest pending one can. -/
def OldestClaimable (s : StateStore) : Prop :=
  (∃ r ∈ s.runs, r.Claimable) →
    ∀ row ∈ s.runs, row.status = .pending →
      (∀ r ∈ s.runs, r.status = .pending → row.createdAt ≤ r.createdAt) →
      row.WithinBudget

section
variable {s : StateStore} {choice : Nat} {now : Time} {row : Run}

theorem mem_oldestPending : row ∈ s.oldestPending ↔ (row ∈ s.runs ∧ row.status = .pending) ∧
    ∀ r ∈ s.runs, r.status = .pending → row.createdAt ≤ r.createdAt := by
  simp only [oldestPending, List.mem_filter, List.all_eq_true, decide_eq_true_eq, and_imp]

/-- Where something is pending there is an oldest run, and one of these is taken. -/
theorem exists_nextPending (hrow : row ∈ s.runs) (hpending : row.status = .pending) (choice : Nat) :
    ∃ next, s.nextPending choice = some next ∧ next ∈ s.oldestPending := by
  let pending := s.runs.filter fun r => r.status = .pending
  have hmem : row ∈ pending := List.mem_filter.mpr ⟨hrow, decide_eq_true hpending⟩
  obtain ⟨oldest, holdest⟩ : ∃ oldest, pending.argmin Run.createdAt = some oldest := by
    cases h : pending.argmin Run.createdAt with
    | none => rw [List.argmin_eq_none.mp h] at hmem; cases hmem
    | some oldest => exact ⟨oldest, rfl⟩
  have hin : oldest ∈ s.oldestPending := by
    refine List.mem_filter.mpr ⟨List.argmin_mem holdest, List.all_eq_true.mpr fun r hr => ?_⟩
    exact decide_eq_true (List.le_of_mem_argmin hr holdest)
  have hbound : choice % s.oldestPending.length < s.oldestPending.length :=
    Nat.mod_lt _ (List.length_pos_of_mem hin)
  exact ⟨_, List.getElem?_eq_getElem hbound, List.getElem_mem hbound⟩

/-- With distinct creation times there is one oldest run. -/
theorem nextPending_eq (hs : s.DistinctTimes) (h : row ∈ s.oldestPending) (choice : Nat) :
    s.nextPending choice = some row := by
  obtain ⟨⟨hrow, hpending⟩, hmin⟩ := mem_oldestPending.mp h
  obtain ⟨next, hnext, hin⟩ := exists_nextPending hrow hpending choice
  obtain ⟨⟨hmem, hst⟩, hmin'⟩ := mem_oldestPending.mp hin
  have htime : next.createdAt = row.createdAt := le_antisymm (hmin' row hrow hpending) (hmin next hmem hst)
  rw [hnext, List.inj_on_of_nodup_map hs hmem hrow htime]

theorem claimNext_within (h : s.nextPending choice = some row) (hrow : row.WithinBudget) :
    s.claimNext choice now = (some row.claim,
      s.update row.runId (fun r => { r with
        status := .running, attempts := row.attempts + 1, updatedAt := now }) fun _ => rfl) := by
  have hleft : ¬ row.attempts + 1 > row.maxRetries := Int.not_lt.mpr hrow
  simp [claimNext, h, hleft, Run.claim]

theorem claimNext_exhausted (h : s.nextPending choice = some row) (hrow : ¬ row.WithinBudget) :
    (s.claimNext choice now).1 = none := by
  have hlast : row.attempts + 1 > row.maxRetries := Int.not_le.mp hrow
  simp [claimNext, h, hlast]

/-- With distinct creation times `claim_next` claims the oldest run within its
budget exactly when the oldest pending run is within its own, or no pending run is. -/
theorem claims_oldest_iff (s : StateStore) (hs : s.DistinctTimes) (choice : Nat) (now : Time) :
    s.ClaimsOldest choice now ↔ s.OldestClaimable := by
  constructor
  · rintro h ⟨r, hr, hclaimable⟩ row hrow hpending hmin
    by_contra hbudget
    have hnext := nextPending_eq hs (mem_oldestPending.mpr ⟨⟨hrow, hpending⟩, hmin⟩) choice
    exact h.idle (claimNext_exhausted hnext hbudget) r hr hclaimable
  · intro h
    have hfirst : ∀ r ∈ s.runs, r.Claimable → ∃ row ∈ s.oldestPending, row.WithinBudget ∧
        s.nextPending choice = some row := by
      intro r hr hclaimable
      obtain ⟨row, hnext, hin⟩ := exists_nextPending hr hclaimable.1 choice
      obtain ⟨⟨hrow, hpending⟩, hmin⟩ := mem_oldestPending.mp hin
      exact ⟨row, hin, h ⟨r, hr, hclaimable⟩ row hrow hpending hmin, hnext⟩
    constructor
    · intro row hrow hclaimable hmin
      obtain ⟨first, hin, hbudget, hnext⟩ := hfirst row hrow hclaimable
      obtain ⟨⟨hfirst, hpending⟩, holdest⟩ := mem_oldestPending.mp hin
      -- the oldest pending run is within its budget, so it is the oldest of these
      have htime : first.createdAt = row.createdAt :=
        le_antisymm (holdest row hrow hclaimable.1) (hmin first hfirst ⟨hpending, hbudget⟩)
      obtain rfl : first = row := List.inj_on_of_nodup_map hs hfirst hrow htime
      rw [claimNext_within hnext hbudget]
      refine ⟨rfl, ?_, fun r hr _ hne => ?_⟩
      · simp [find?_update, find?_of_mem hrow, Run.claimed]
      · simp [find?_update, find?_of_mem hr, hne]
    · intro hnone r hr hclaimable
      obtain ⟨first, -, hbudget, hnext⟩ := hfirst r hr hclaimable
      rw [claimNext_within hnext hbudget] at hnone
      cases hnone

end

def queued (runId : String) (attempts : Int) (createdAt : Time) : Run where
  runId := runId
  agentName := "echo"
  tenantId := "t"
  status := .pending
  inputJson := .obj []
  attempts := attempts
  maxRetries := 2
  createdAt := createdAt
  updatedAt := createdAt

/-- The older run can be claimed. -/
def freshFirst : StateStore where
  runs := [queued "a" 0 1, queued "b" 2 2]
  primaryKey := by decide

theorem fresh_claimed : freshFirst.ClaimsOldest 0 3 :=
  (claims_oldest_iff freshFirst (by unfold DistinctTimes; decide) 0 3).mpr (by
    rintro - row hrow - hmin
    have hfirst := hmin (queued "a" 0 1) (.head _) rfl
    rcases List.mem_cons.mp hrow with rfl | hrow
    · exact (by decide : (0 : Int) + 1 ≤ 2)
    · obtain rfl := List.mem_singleton.mp hrow
      exact absurd hfirst (by decide))

/-- A run that failed once is requeued with two attempts, and is older than one that was never tried. -/
def exhaustedFirst : StateStore where
  runs := [queued "a" 2 1, queued "b" 0 2]
  primaryKey := by decide

theorem exhausted_blocks : exhaustedFirst.DistinctTimes ∧ ¬ exhaustedFirst.ClaimsOldest 0 3 := by
  refine ⟨by unfold DistinctTimes; decide, fun h => ?_⟩
  have hclaimable : (queued "b" 0 2).Claimable := ⟨rfl, (by decide : (0 : Int) + 1 ≤ 2)⟩
  exact h.idle rfl (queued "b" 0 2) (List.mem_cons_of_mem _ (List.mem_singleton_self _)) hclaimable

end StateStore

end Intelliqx.Service
