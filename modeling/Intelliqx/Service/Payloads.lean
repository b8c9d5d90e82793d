import Intelliqx.Service.Rows

/-!
# Status and payload of a run

A run that succeeded has an output and no error, one that failed an error and
no output, and one that is not done has neither. All writers but one keep this:
`claim_next` fails a run that is out of attempts and leaves its error empty
(`payloads_match_iff`).
-/

namespace Intelliqx.Service

open Machine Py

def Run.Unanswered (r : Run) : Prop := r.outputJson = none ∧ r.error = none

structure Run.PayloadMatches (r : Run) : Prop where
  succeeded : r.status = .succeeded → r.outputJson.isSome ∧ r.error = none
  failed : r.status = .failed → r.error.isSome ∧ r.outputJson = none
  waiting : r.status = .pending ∨ r.status = .running → r.Unanswered

/-- The claim finds the run it looks at out of attempts. -/
def Exhausts (s : System) : Event → Prop
  | .poll _ choice _ => ∃ row, s.store.nextPending choice = some row ∧ row.attempts + 1 > row.maxRetries
  | _ => False

def PayloadsMatch (s : System) : Prop := ∀ r ∈ s.store.runs, r.PayloadMatches

/-- What is neither succeeded nor failed has no payload; cancelled runs are
among these, for an outcome may still requeue them. -/
structure Unrecorded (s : System) : Prop where
  present : Present s
  blank : ∀ id r, s.store.find? id = some r → r.status ≠ .succeeded → r.status ≠ .failed → r.Unanswered

section
variable {settings : Settings} {s s' : System} {e : Event}

/-- Who is held is running or was cancelled. -/
theorem Present.busy {c : Claim} (h : Present s) (hw : s.workers w = .processing c)
    (hr : s.store.find? c.runId = some r) : r.status = .running ∨ r.status = .cancelled := by
  have hholds : s.lifecycle.Holds w c.runId := .inl (by simp [System.lifecycle, hw, Worker.duty])
  have hst : s.lifecycle.status c.runId = some r.status := by simp [System.lifecycle, StateStore.statusOf, hr]
  exact h.exclusive.busy w c.runId r.status hholds hst

theorem Unrecorded.step (h : Unrecorded s) (he : e.closesExpired = false)
    (hs : s.step settings e = some s') : Unrecorded s' := by
  refine ⟨h.present.step he hs, ?_⟩
  obtain ⟨write, workers, hwrite, -, hrows⟩ := System.step_writes he hs
  intro id r hr hsucceeded hfailed
  rw [hrows id] at hr
  cases hwrite with
  | refused | uncancelled | idle | lost => exact h.blank id r hr hsucceeded hfailed
  | enqueued _ _ =>
    rcases RowWrite.of_insert hr with rfl | hr
    · exact ⟨rfl, rfl⟩
    · exact h.blank id r hr hsucceeded hfailed
  | cancelled hst =>
    rcases RowWrite.of_rewrite hr with ⟨r₀, hr₀, rfl, rfl⟩ | ⟨-, hr⟩
    · have hopen : r₀.status ≠ .succeeded ∧ r₀.status ≠ .failed := by
        rw [StateStore.statusOf, hr₀, Option.map_some, Option.some.injEq, Option.some.injEq] at hst
        rcases hst with hst | hst <;> simp [hst]
      exact h.blank _ r₀ hr₀ hopen.1 hopen.2
    · exact h.blank id r hr hsucceeded hfailed
  | exhausted _ _ =>
    rcases RowWrite.of_rewrite hr with ⟨r₀, -, rfl, -⟩ | ⟨-, hr⟩
    · exact absurd rfl hfailed
    · exact h.blank id r hr hsucceeded hfailed
  | claimed hrow _ =>
    rcases RowWrite.of_rewrite hr with ⟨r₀, hr₀, rfl, -⟩ | ⟨-, hr⟩
    · obtain ⟨hfind, hpending⟩ := nextPending_find? hrow
      obtain rfl := Option.some.inj (hr₀.symm.trans hfind)
      exact h.blank _ r₀ hr₀ (by simp [hpending]) (by simp [hpending])
    · exact h.blank id r hr hsucceeded hfailed
  | succeeded _ _ =>
    rcases RowWrite.of_rewrite hr with ⟨r₀, -, rfl, -⟩ | ⟨-, hr⟩
    · exact absurd rfl hsucceeded
    · exact h.blank id r hr hsucceeded hfailed
  | failed _ _ =>
    rcases RowWrite.of_rewrite hr with ⟨r₀, -, rfl, -⟩ | ⟨-, hr⟩
    · exact absurd rfl hfailed
    · exact h.blank id r hr hsucceeded hfailed
  | requeued hw _ =>
    rcases RowWrite.of_rewrite hr with ⟨r₀, hr₀, rfl, -⟩ | ⟨-, hr⟩
    · have hopen : r₀.status ≠ .succeeded ∧ r₀.status ≠ .failed := by
        rcases h.present.busy hw hr₀ with hst | hst <;> simp [hst]
      exact h.blank _ r₀ hr₀ hopen.1 hopen.2
    · exact h.blank id r hr hsucceeded hfailed

theorem Run.PayloadMatches.of_open {r : Run} (hsucceeded : r.status ≠ .succeeded) (hfailed : r.status ≠ .failed)
    (hwaiting : r.status = .pending ∨ r.status = .running → r.Unanswered) : r.PayloadMatches :=
  ⟨fun h => absurd h hsucceeded, fun h => absurd h hfailed, hwaiting⟩

/-- A step that exhausts no run keeps every payload in line with its status. -/
theorem PayloadsMatch.step (hm : PayloadsMatch s) (h : Unrecorded s) (he : e.closesExpired = false)
    (hs : s.step settings e = some s') (hex : ¬ Exhausts s e) : PayloadsMatch s' := by
  have h' := h.step he hs
  obtain ⟨write, workers, hwrite, -, hrows⟩ := System.step_writes he hs
  refine StateStore.forall_runs_iff.mpr ?_
  intro id r hr
  have hwaiting : r.status = .pending ∨ r.status = .running → r.Unanswered := by
    intro hst
    exact h'.blank id r hr (by rcases hst with hst | hst <;> simp [hst])
      (by rcases hst with hst | hst <;> simp [hst])
  have hold : s.store.find? id = some r → r.PayloadMatches := StateStore.forall_runs_iff.mp hm id r
  rw [hrows id] at hr
  cases hwrite with
  | refused | uncancelled | idle | lost => exact hold hr
  | enqueued _ _ =>
    rcases RowWrite.of_insert hr with rfl | hr
    · exact .of_open (by simp) (by simp) hwaiting
    · exact hold hr
  | exhausted hrow hlast => exact absurd ⟨_, hrow, hlast⟩ hex
  | cancelled _ | claimed _ _ | requeued _ _ =>
    rcases RowWrite.of_rewrite hr with ⟨r₀, -, rfl, -⟩ | ⟨-, hr⟩
    · exact .of_open (by simp) (by simp) hwaiting
    · exact hold hr
  | succeeded _ _ =>
    rcases RowWrite.of_rewrite hr with ⟨r₀, -, rfl, -⟩ | ⟨-, hr⟩
    · exact ⟨fun _ => ⟨rfl, rfl⟩, fun hst => absurd hst (by simp), hwaiting⟩
    · exact hold hr
  | failed _ _ =>
    rcases RowWrite.of_rewrite hr with ⟨r₀, -, rfl, -⟩ | ⟨-, hr⟩
    · exact ⟨fun hst => absurd hst (by simp), fun _ => ⟨rfl, rfl⟩, hwaiting⟩
    · exact hold hr

/-- The run that is exhausted fails without an error. -/
theorem not_payloadsMatch_of_exhausts (h : Unrecorded s) (hs : s.step settings e = some s')
    (hex : Exhausts s e) : ¬ PayloadsMatch s' := by
  cases e with
  | poll w choice now =>
    obtain ⟨row, hrow, hlast⟩ := hex
    obtain ⟨write, workers, hwrite, -, hrows⟩ := System.step_writes rfl hs
    obtain ⟨hfind, hpending⟩ := nextPending_find? hrow
    have hblank := h.blank _ _ hfind (by simp [hpending]) (by simp [hpending])
    intro hm
    cases hwrite with
    | idle hnone => cases hnone.symm.trans hrow
    | claimed hrow' hleft =>
      cases hrow'.symm.trans hrow
      omega
    | exhausted hrow' _ =>
      cases hrow'.symm.trans hrow
      have hfailed : s'.store.find? row.runId = some { row with status := .failed, updatedAt := now } := by
        rw [hrows, RowWrite.apply, if_pos rfl, hfind]
        rfl
      have herror := ((StateStore.forall_runs_iff.mp hm) _ _ hfailed).failed rfl
      simp [hblank.2] at herror
  | _ => exact hex.elim

end

/-- In any interleaving of enqueues, cancels and workers, the payloads of all
runs match their statuses in every state reached, exactly when no claim finds a
run out of attempts. The table may hold runs of an earlier process. -/
theorem payloads_match_iff (settings : Settings) (store : StateStore) (es : List Event)
    (hes : ∀ e ∈ es, e.closesExpired = false)
    (hstore : ∀ r ∈ store.runs, r.PayloadMatches ∧ (r.status = .cancelled → r.Unanswered)) :
    Everywhere (System.step settings) PayloadsMatch (System.start store) es ↔
      Always (System.step settings) (fun s e _ => ¬ Exhausts s e) (System.start store) es := by
  have hmatch : PayloadsMatch (System.start store) := fun r hr => (hstore r hr).1
  have hinit : Unrecorded (System.start store) := by
    refine ⟨present_start, StateStore.forall_runs_iff.mp ?_⟩
    intro r hr hsucceeded hfailed
    cases hst : r.status with
    | pending => exact (hstore r hr).1.waiting (.inl hst)
    | running => exact (hstore r hr).1.waiting (.inr hst)
    | cancelled => exact (hstore r hr).2 hst
    | succeeded => exact absurd hst hsucceeded
    | failed => exact absurd hst hfailed
  rw [everywhere_iff_always, and_iff_right hmatch]
  refine always_congr (I := fun s => Unrecorded s ∧ PayloadsMatch s) (P := fun e => e.closesExpired = false)
    (fun s e s' he h hs hm => ⟨h.1.step he hs, hm⟩) (fun s e s' he h hs => ?_) ⟨hinit, hmatch⟩ hes
  constructor
  · intro hm hex
    exact not_payloadsMatch_of_exhausts h.1 hs hex hm
  · intro hex
    exact h.2.step h.1 he hs hex

theorem payloads_match_answered :
    Everywhere (System.step ⟨1⟩) PayloadsMatch (System.start ⟨[], 3600, List.nodup_nil⟩) answeredInTime := by
  apply (payloads_match_iff ⟨1⟩ ⟨[], 3600, List.nodup_nil⟩ answeredInTime (by decide) (by simp)).mpr
  rintro _ ⟨⟩
  refine ⟨id, ?_⟩
  rintro _ ⟨⟩
  refine ⟨?_, ?_⟩
  · rintro ⟨row, ⟨⟩, hlast⟩
    exact absurd hlast (by decide)
  · rintro _ ⟨⟩
    exact ⟨id, trivial⟩

/-- A run whose only attempt ends in an error, polled for again. -/
def requeuedOnce : List Event :=
  [.enqueue "r1" "smoke" "t1" (.dict []) 1 0, .poll 0 0 1,
    .finish 0 (.returned { output := .dict [], durationMs := 5, status := "error" }) 2, .poll 0 0 3]

theorem failed_without_error :
    ¬ Everywhere (System.step ⟨2⟩) PayloadsMatch (System.start ⟨[], 3600, List.nodup_nil⟩) requeuedOnce := by
  intro h
  have hm := h requeuedOnce [] _ rfl rfl _ List.mem_cons_self
  exact absurd (hm.failed rfl).1 (by decide)

end Intelliqx.Service
