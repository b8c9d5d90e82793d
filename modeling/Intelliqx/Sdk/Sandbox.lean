import Intelliqx.Py.Resource

/-!
# The sandbox

`Sandbox.enforce` sets three limits for a block and sets them back behind it.
It sets the hard limits along with the soft ones, and an unprivileged process
cannot raise a hard limit again. `limits_restored_iff` says which programs leave
every block with the limits they entered it with.
-/

namespace Intelliqx.Sdk

open Py

structure Sandbox where
  cpuTimeSeconds : Int := 60
  memoryMb : Int := 512
  maxFileDescriptors : Int := 64

-- ---------------------------------------------------------------------------
-- enforce
-- ---------------------------------------------------------------------------

def Sandbox.settings (sb : Sandbox) : List (Resource × Except OsException Nat) :=
  [(.cpu, rlim sb.cpuTimeSeconds), (.as, rlim (sb.memoryMb * 1024 * 1024)), (.nofile, rlim sb.maxFileDescriptors)]

def apply : List (Resource × Except OsException Nat) → Limits → Limits × Option OsException
  | [], limits => (limits, none)
  | (_, .error e) :: _, limits => (limits, some e)
  | (r, .ok n) :: rest, limits =>
    match setrlimit limits r n n with
    | .ok limits => apply rest limits
    | .error e => (limits, some e)

def restore (old : Limits) : List Resource → Limits → Limits
  | [], limits => limits
  | r :: rest, limits =>
    match setrlimit limits r (old r).soft (old r).hard with
    | .ok limits => restore old rest limits
    | .error _ => limits

/-- The `finally` of `enforce`. -/
def leave (old limits : Limits) : Limits := restore old [.cpu, .as, .nofile] limits

/-- The `except` of `enforce`. -/
def translate (e : OsException) : OsException :=
  if e.isOsOrValueError then ⟨"SandboxViolation", false, e.text⟩ else e

-- ---------------------------------------------------------------------------
-- Programs
-- ---------------------------------------------------------------------------

inductive Program
  | done
  | raises (e : OsException)
  /-- `with sb.enforce(): body`, and what follows. -/
  | enforce (sb : Sandbox) (body next : Program)
  /-- `try: body` with an `except` that goes on, and what follows. -/
  | attempt (body next : Program)

inductive Outcome
  | returned
  | raised (e : OsException)

structure Exit where
  entry : Limits
  exit : Limits

structure Ran where
  limits : Limits
  outcome : Outcome
  exits : List Exit

def run : Program → Limits → Ran
  | .done, limits => ⟨limits, .returned, []⟩
  | .raises e, limits => ⟨limits, .raised e, []⟩
  | .attempt body next, limits =>
    let tried := run body limits
    let rest := run next tried.limits
    ⟨rest.limits, rest.outcome, tried.exits ++ rest.exits⟩
  | .enforce sb body next, limits =>
    match apply sb.settings limits with
    | (inside, some e) =>
      let after := leave limits inside
      ⟨after, .raised (translate e), [⟨limits, after⟩]⟩
    | (inside, none) =>
      let block := run body inside
      let after := leave limits block.limits
      match block.outcome with
      | .raised e => ⟨after, .raised (translate e), block.exits ++ [⟨limits, after⟩]⟩
      | .returned =>
        let rest := run next after
        ⟨rest.limits, rest.outcome, block.exits ++ ⟨limits, after⟩ :: rest.exits⟩

def Restores (p : Program) (limits : Limits) : Prop := ∀ x ∈ (run p limits).exits, x.exit = x.entry

-- ---------------------------------------------------------------------------
-- Programs that lower no hard limit
-- ---------------------------------------------------------------------------

/-- Each setting is the hard limit itself, up to the first that is refused. -/
def Keeps (hard : Resource → Nat) : List (Resource × Except OsException Nat) → Prop
  | [] => True
  | (_, .error _) :: _ => True
  | (r, .ok n) :: rest => hard r < n ∨ n = hard r ∧ Keeps hard rest

/-- The first setting that is refused under some hard limits, and how. -/
def refused (hard : Resource → Nat) : List (Resource × Except OsException Nat) → Option OsException
  | [] => none
  | (_, .error e) :: _ => some e
  | (r, .ok n) :: rest =>
    if hard r < n then some ⟨"ValueError", true, "not allowed to raise maximum limit"⟩ else refused hard rest

def ends (hard : Resource → Nat) : Program → Outcome
  | .done => .returned
  | .raises e => .raised e
  | .attempt _ next => ends hard next
  | .enforce sb body next =>
    match refused hard sb.settings with
    | some e => .raised (translate e)
    | none =>
      match ends hard body with
      | .raised e => .raised (translate e)
      | .returned => ends hard next

/-- No sandbox that the program comes to lowers a hard limit. -/
def Gentle (hard : Resource → Nat) : Program → Prop
  | .done | .raises _ => True
  | .attempt body next => Gentle hard body ∧ Gentle hard next
  | .enforce sb body next => Keeps hard sb.settings ∧
    (refused hard sb.settings = none → Gentle hard body ∧ (ends hard body = .returned → Gentle hard next))

section
variable {limits inside old : Limits} {settings : List (Resource × Except OsException Nat)} {hard : Resource → Nat}

theorem apply_lowers (settings : List (Resource × Except OsException Nat)) (limits : Limits) :
    Lowers limits (apply settings limits).1 := by
  induction settings generalizing limits with
  | nil => exact .refl limits
  | cons setting rest ih =>
    obtain ⟨r, e | n⟩ := setting
    · exact .refl limits
    · rw [apply]
      split
      · rename_i limits' h
        exact (setrlimit_lowers h).trans (ih limits')
      · exact .refl limits

theorem restore_lowers (old : Limits) (rs : List Resource) (limits : Limits) :
    Lowers limits (restore old rs limits) := by
  induction rs generalizing limits with
  | nil => exact .refl limits
  | cons r rs ih =>
    rw [restore]
    split
    · rename_i limits' h
      exact (setrlimit_lowers h).trans (ih limits')
    · exact .refl limits

theorem restore_of_le (rs : List Resource) (h : Lowers limits old) :
    restore old rs limits = fun r => if r ∈ rs then old r else limits r := by
  induction rs generalizing limits with
  | nil => rfl
  | cons r rs ih =>
    have hupdate : Lowers (Function.update limits r (old r)) old := by
      intro s
      rw [hardOf_update]
      by_cases hs : s = r
      · subst hs
        rw [Function.update_self, hardOf]
      · rw [Function.update_of_ne hs]
        exact h s
    have hr : (old r).hard ≤ hardOf limits r := h r
    rw [restore, setrlimit_back, if_pos hr]
    simp only [ih hupdate]
    funext s
    by_cases hs : s = r
    · subst hs
      simp
    · simp [hs]

theorem leave_eq_iff : leave old limits = old ↔ Lowers limits old := by
  constructor
  · intro h r
    have hlower := restore_lowers old [.cpu, .as, .nofile] limits r
    rwa [← leave, h] at hlower
  · intro h
    rw [leave, restore_of_le _ h]
    funext r
    cases r <;> rfl

theorem apply_of_keeps (h : Keeps (hardOf limits) settings) :
    hardOf (apply settings limits).1 = hardOf limits ∧
      (apply settings limits).2 = refused (hardOf limits) settings := by
  induction settings generalizing limits with
  | nil => exact ⟨rfl, rfl⟩
  | cons setting rest ih =>
    obtain ⟨r, e | n⟩ := setting
    · exact ⟨rfl, rfl⟩
    · rw [apply, refused, setrlimit_both]
      rcases h with hlt | ⟨rfl, hrest⟩
      · rw [if_neg (Nat.not_le_of_lt hlt), if_pos hlt]
        exact ⟨rfl, rfl⟩
      · have hsame : hardOf (Function.update limits r ⟨hardOf limits r, hardOf limits r, le_rfl⟩) = hardOf limits :=
          hardOf_update_self rfl
        rw [if_pos (Nat.le_refl (hardOf limits r)), if_neg (Nat.lt_irrefl _)]
        have hset : Keeps (hardOf (Function.update limits r ⟨hardOf limits r, hardOf limits r, le_rfl⟩)) rest := by
          rwa [hsame]
        obtain ⟨hhard, hrefused⟩ := ih hset
        rw [hsame] at hhard hrefused
        exact ⟨hhard, hrefused⟩

theorem keeps_of_hardOf (h : hardOf (apply settings limits).1 = hardOf limits) : Keeps (hardOf limits) settings := by
  induction settings generalizing limits with
  | nil => trivial
  | cons setting rest ih =>
    obtain ⟨r, e | n⟩ := setting
    · trivial
    · rw [apply, setrlimit_both] at h
      rcases Nat.lt_trichotomy (hardOf limits r) n with hlt | rfl | hlt
      · exact .inl hlt
      · have hsame : hardOf (Function.update limits r ⟨hardOf limits r, hardOf limits r, le_rfl⟩) = hardOf limits :=
          hardOf_update_self rfl
        rw [if_pos (Nat.le_refl (hardOf limits r))] at h
        have hrest := ih (h.trans hsame.symm)
        rw [hsame] at hrest
        exact .inr ⟨rfl, hrest⟩
      · -- the hard limit of `r` is lower now, and later settings do not raise it
        rw [if_pos hlt.le] at h
        have hlower := apply_lowers rest (Function.update limits r ⟨n, n, le_rfl⟩) r
        rw [hardOf_update, Function.update_self] at hlower
        have hr : hardOf (apply rest (Function.update limits r ⟨n, n, le_rfl⟩)).1 r = hardOf limits r := congrFun h r
        exact absurd (hr ▸ hlower) (Nat.not_le_of_lt hlt)

end

-- ---------------------------------------------------------------------------
-- Whole programs
-- ---------------------------------------------------------------------------

/-- A gentle program leaves the limits, and so does each `enforce()` in it. -/
theorem run_of_gentle {p : Program} {limits : Limits} (h : Gentle (hardOf limits) p) :
    (run p limits).limits = limits ∧ (run p limits).outcome = ends (hardOf limits) p ∧ Restores p limits := by
  induction p generalizing limits with
  | done => exact ⟨rfl, rfl, fun _ hx => nomatch hx⟩
  | raises e => exact ⟨rfl, rfl, fun _ hx => nomatch hx⟩
  | attempt body next ihbody ihnext =>
    obtain ⟨hbody, -, hbodyExits⟩ := ihbody h.1
    obtain ⟨hnext, houtcome, hnextExits⟩ := ihnext h.2
    simp only [Restores, run, hbody, List.forall_mem_append]
    exact ⟨hnext, houtcome, hbodyExits, hnextExits⟩
  | enforce sb body next ihbody ihnext =>
    obtain ⟨hkeeps, hrest⟩ := h
    obtain ⟨hhard, hrefused⟩ := apply_of_keeps hkeeps
    have hleave : leave limits (apply sb.settings limits).1 = limits := leave_eq_iff.mpr fun r => (congrFun hhard r).ge
    cases hr : refused (hardOf limits) sb.settings with
    | some e =>
      have happly : apply sb.settings limits = ((apply sb.settings limits).1, some e) :=
        Prod.ext rfl (hrefused.trans hr)
      rw [Restores, run, happly]
      simp only [hleave, ends, hr, List.forall_mem_singleton, and_self]
    | none =>
      have happly : apply sb.settings limits = ((apply sb.settings limits).1, none) := Prod.ext rfl (hrefused.trans hr)
      obtain ⟨hgentle, hafter⟩ := hrest hr
      have hinside : Gentle (hardOf (apply sb.settings limits).1) body := hhard ▸ hgentle
      obtain ⟨hbody, houtcome, hexits⟩ := ihbody hinside
      rw [hhard] at houtcome
      rw [Restores, run, happly]
      cases hends : ends (hardOf limits) body with
      | raised e =>
        simp only [hbody, hleave, houtcome, hends, ends, hr, List.forall_mem_append, List.forall_mem_singleton,
          and_true, true_and]
        exact hexits
      | returned =>
        obtain ⟨hnext, hnextOutcome, hnextExits⟩ := ihnext (hafter hends)
        simp only [hbody, hleave, houtcome, hends, ends, hr, List.forall_mem_append, List.forall_mem_cons, true_and]
        exact ⟨hnext, hnextOutcome, hexits, hnextExits⟩

theorem hardOf_of_leave {settings : List (Resource × Except OsException Nat)} {limits : Limits}
    (h : leave limits (apply settings limits).1 = limits) : hardOf (apply settings limits).1 = hardOf limits :=
  funext fun r => Nat.le_antisymm (apply_lowers settings limits r) (leave_eq_iff.mp h r)

theorem gentle_of_restores {p : Program} {limits : Limits} (h : Restores p limits) : Gentle (hardOf limits) p := by
  induction p generalizing limits with
  | done => trivial
  | raises e => trivial
  | attempt body next ihbody ihnext =>
    simp only [Restores, run, List.forall_mem_append] at h
    have hbody : Gentle (hardOf limits) body := ihbody h.1
    rw [(run_of_gentle hbody).1] at h
    exact ⟨hbody, ihnext h.2⟩
  | enforce sb body next ihbody ihnext =>
    cases hfirst : (apply sb.settings limits).2 with
    | some e =>
      have happly : apply sb.settings limits = ((apply sb.settings limits).1, some e) := Prod.ext rfl hfirst
      rw [Restores, run, happly] at h
      simp only [List.forall_mem_singleton] at h
      have hhard := hardOf_of_leave h
      have hkeeps := keeps_of_hardOf hhard
      refine ⟨hkeeps, fun hr => ?_⟩
      rw [(apply_of_keeps hkeeps).2, hr] at hfirst
      cases hfirst
    | none =>
      have happly : apply sb.settings limits = ((apply sb.settings limits).1, none) := Prod.ext rfl hfirst
      rw [Restores, run, happly] at h
      cases houtcome : (run body (apply sb.settings limits).1).outcome with
      | raised e =>
        simp only [houtcome, List.forall_mem_append, List.forall_mem_singleton] at h
        have hbody := ihbody h.1
        obtain ⟨hlimits, hends, -⟩ := run_of_gentle hbody
        rw [hlimits] at h
        have hhard := hardOf_of_leave h.2
        rw [hhard] at hbody hends
        refine ⟨keeps_of_hardOf hhard, fun _ => ⟨hbody, fun hreturned => ?_⟩⟩
        rw [← hends, houtcome] at hreturned
        cases hreturned
      | returned =>
        simp only [houtcome, List.forall_mem_append, List.forall_mem_cons] at h
        obtain ⟨hexits, hleave, hnext⟩ := h
        have hbody := ihbody hexits
        rw [(run_of_gentle hbody).1] at hleave hnext
        have hhard := hardOf_of_leave hleave
        rw [hhard] at hbody
        rw [hleave] at hnext
        exact ⟨keeps_of_hardOf hhard, fun _ => ⟨hbody, fun _ => ihnext hnext⟩⟩

/-- Every `enforce()` leaves the limits it has found exactly where no sandbox
that is entered lowers a hard limit. -/
theorem limits_restored_iff (p : Program) (limits : Limits) : Restores p limits ↔ Gentle (hardOf limits) p :=
  ⟨gentle_of_restores, fun h => (run_of_gentle h).2.2⟩

def unlimited : Limits := fun _ => ⟨rlimInfinity, rlimInfinity, le_rfl⟩

/-- The limits of a sandbox outlive its block. -/
theorem limits_stay : ¬ Restores (.enforce {} .done .done) unlimited ∧
    [Resource.cpu, .as, .nofile].map (hardOf (run (.enforce {} .done .done) unlimited).limits) =
      [60, 512 * 1024 * 1024, 64] := by
  refine ⟨fun h => ?_, by decide +kernel⟩
  rcases (gentle_of_restores h).1 with hlt | ⟨heq, -⟩
  · exact absurd hlt (by decide +kernel)
  · exact absurd heq (by decide +kernel)

end Intelliqx.Sdk
