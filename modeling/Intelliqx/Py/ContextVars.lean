import Intelliqx.Base.Machine
import Mathlib.Logic.Function.Basic

/-!
# Context variables

Each task has a context of its own, a copy of the context of the task that
creates it. A `with` block sets a variable there and puts back on its way out
what its token says. So whatever the order in which tasks run, a task reads
what the blocks around it say: what `eval` reads, which knows of no state and no
other task (`System.lexical`).
-/

namespace Intelliqx.Py

variable {κ : Type} {ν : κ → Type} {ε ρ : Type}

abbrev Context (ν : κ → Type) := ∀ x, Option (ν x)

inductive Prog (ν : κ → Type) (ε ρ : Type)
  | returns (r : ρ)
  | raises (e : ε)
  | get (x : κ) (next : Option (ν x) → Prog ν ε ρ)
  /-- A block in which the variable is set; `next` is told how it ended. -/
  | within (x : κ) (v : ν x) (body : Prog ν ε ρ) (next : Except ε ρ → Prog ν ε ρ)
  /-- Suspended, and resumed by an exception or without. -/
  | suspend (next : Option ε → Prog ν ε ρ)
  | spawn (child next : Prog ν ε ρ)

def Prog.thenDo (next : Except ε ρ → Prog ν ε ρ) : Prog ν ε ρ → Prog ν ε ρ
  | .returns r => next (.ok r)
  | .raises e => next (.error e)
  | .get x k => .get x fun v => (k v).thenDo next
  | .within x v body k => .within x v body fun o => (k o).thenDo next
  | .suspend k => .suspend fun e => (k e).thenDo next
  | .spawn child k => .spawn child (k.thenDo next)

structure Run (ν : κ → Type) (ε ρ : Type) where
  reads : List ((x : κ) × Option (ν x))
  spawned : List (Context ν × Prog ν ε ρ)
  outcome : Except ε ρ
  suspensions : Nat

namespace Run

def after (reads : List ((x : κ) × Option (ν x))) (spawned : List (Context ν × Prog ν ε ρ)) (r : Run ν ε ρ) :
    Run ν ε ρ where
  reads := reads ++ r.reads
  spawned := spawned ++ r.spawned
  outcome := r.outcome
  suspensions := r.suspensions

@[simp] theorem after_nil (r : Run ν ε ρ) : r.after [] [] = r := rfl

@[simp] theorem after_after (r : Run ν ε ρ) {reads reads' : List ((x : κ) × Option (ν x))}
    {spawned spawned' : List (Context ν × Prog ν ε ρ)} :
    (r.after reads' spawned').after reads spawned = r.after (reads ++ reads') (spawned ++ spawned') := by
  simp [after]

end Run

def Prog.AllSet (C : (x : κ) → Option (ν x) → Prop) : Prog ν ε ρ → Prop
  | .returns _ | .raises _ => True
  | .get x next => ∀ v, C x v → (next v).AllSet C
  | .within x v body next => C x (some v) ∧ body.AllSet C ∧ ∀ o, (next o).AllSet C
  | .suspend next => ∀ e, (next e).AllSet C
  | .spawn child next => child.AllSet C ∧ next.AllSet C

theorem Prog.AllSet.thenDo {C : (x : κ) → Option (ν x) → Prop} {p : Prog ν ε ρ} {next : Except ε ρ → Prog ν ε ρ}
    (hp : p.AllSet C) (hnext : ∀ o, (next o).AllSet C) : (p.thenDo next).AllSet C := by
  induction p with
  | returns r => exact hnext (.ok r)
  | raises e => exact hnext (.error e)
  | get x k ih => exact fun v hv => ih v (hp v hv)
  | within x v body k ihbody ih => exact ⟨hp.1, hp.2.1, fun o => ih o (hp.2.2 o)⟩
  | suspend k ih => exact fun e => ih e (hp e)
  | spawn child k ihchild ih => exact ⟨hp.1, ih hp.2⟩

variable [DecidableEq κ]

/-- A block by itself, in the context it is written in. The suspensions are counted; `signals` says
how each of them ends. -/
def Prog.eval (signals : Nat → Option ε) (env : Context ν) : Prog ν ε ρ → Nat → Run ν ε ρ
  | .returns r, n => ⟨[], [], .ok r, n⟩
  | .raises e, n => ⟨[], [], .error e, n⟩
  | .get x next, n => ((next (env x)).eval signals env n).after [⟨x, env x⟩] []
  | .within x v body next, n =>
    let r := body.eval signals (Function.update env x (some v)) n
    ((next r.outcome).eval signals env r.suspensions).after r.reads r.spawned
  | .suspend next, n => (next (signals n)).eval signals env (n + 1)
  | .spawn child next, n => (next.eval signals env n).after [] [(env, child)]

theorem Prog.eval_thenDo {signals : Nat → Option ε} {env : Context ν} {p : Prog ν ε ρ} {n : Nat}
    {next : Except ε ρ → Prog ν ε ρ} : (p.thenDo next).eval signals env n =
      ((next (p.eval signals env n).outcome).eval signals env (p.eval signals env n).suspensions).after
        (p.eval signals env n).reads (p.eval signals env n).spawned := by
  induction p generalizing n with
  | returns r => rfl
  | raises e => rfl
  | get x k ih => rw [Prog.thenDo, Prog.eval, ih, Run.after_after]; rfl
  | within x v body k ihbody ih => rw [Prog.thenDo, Prog.eval, ih, Run.after_after]; rfl
  | suspend k ih => rw [Prog.thenDo, Prog.eval, ih]; rfl
  | spawn child k ihchild ih => rw [Prog.thenDo, Prog.eval, ih, Run.after_after]; rfl

/-- What is read satisfies what the context and every value set satisfy, here and in the tasks created. -/
theorem Prog.eval_allSet {C : (x : κ) → Option (ν x) → Prop} {p : Prog ν ε ρ} {env : Context ν}
    (signals : Nat → Option ε) (n : Nat) (henv : ∀ x, C x (env x)) (hp : p.AllSet C) :
    (∀ r ∈ (p.eval signals env n).reads, C r.1 r.2) ∧
      ∀ o ∈ (p.eval signals env n).spawned, (∀ x, C x (o.1 x)) ∧ o.2.AllSet C := by
  induction p generalizing env n with
  | returns r => exact ⟨fun _ h => (nomatch h), fun _ h => nomatch h⟩
  | raises e => exact ⟨fun _ h => (nomatch h), fun _ h => nomatch h⟩
  | get x next ih =>
    obtain ⟨hreads, hspawned⟩ := ih (env x) n henv (hp _ (henv x))
    refine ⟨fun r hr => ?_, hspawned⟩
    rcases List.mem_cons.mp hr with rfl | hr
    · exact henv x
    · exact hreads r hr
  | within x v body next ihbody ihnext =>
    obtain ⟨hv, hbody, hnext⟩ := hp
    have hinner : ∀ y, C y (Function.update env x (some v) y) := by
      intro y
      by_cases h : y = x
      · subst h
        rwa [Function.update_self]
      · rw [Function.update_of_ne h]
        exact henv y
    obtain ⟨hreads, hspawned⟩ := ihbody n hinner hbody
    obtain ⟨hreads', hspawned'⟩ := ihnext (body.eval signals (Function.update env x (some v)) n).outcome
      (body.eval signals (Function.update env x (some v)) n).suspensions henv (hnext _)
    refine ⟨fun r hr => ?_, fun o ho => ?_⟩
    · exact (List.mem_append.mp hr).elim (hreads r) (hreads' r)
    · exact (List.mem_append.mp ho).elim (hspawned o) (hspawned' o)
  | suspend next ih => exact ih (signals n) (n + 1) henv (hp _)
  | spawn child next ihchild ihnext =>
    obtain ⟨hreads, hspawned⟩ := ihnext n henv hp.2
    refine ⟨hreads, fun o ho => ?_⟩
    rcases List.mem_cons.mp ho with rfl | ho
    · exact ⟨henv, hp.1⟩
    · exact hspawned o ho

-- ---------------------------------------------------------------------------
-- Tasks
-- ---------------------------------------------------------------------------

/-- A block that is open: the token of its variable, and what comes behind it. -/
structure Frame (ν : κ → Type) (ε ρ : Type) where
  var : κ
  token : Option (ν var)
  next : Except ε ρ → Prog ν ε ρ

/-- The tasks that come of one task have its `root`. -/
structure Task (ν : κ → Type) (ε ρ : Type) where
  root : Nat
  origin : Context ν × Prog ν ε ρ
  context : Context ν
  prog : Prog ν ε ρ
  frames : List (Frame ν ε ρ) := []
  reads : List ((x : κ) × Option (ν x)) := []
  spawned : List (Context ν × Prog ν ε ρ) := []
  suspensions : Nat := 0

namespace Task

def start (root : Nat) (origin : Context ν × Prog ν ε ρ) : Task ν ε ρ where
  root := root
  origin := origin
  context := origin.1
  prog := origin.2

def leave (t : Task ν ε ρ) (o : Except ε ρ) : Option (Task ν ε ρ) :=
  match t.frames with
  | [] => none
  | f :: frames =>
    some { t with context := Function.update t.context f.var f.token, prog := f.next o, frames := frames }

def step (signals : Nat → Option ε) (t : Task ν ε ρ) : Option (Task ν ε ρ × List (Task ν ε ρ)) :=
  match t.prog with
  | .returns r => (t.leave (.ok r)).map fun t => (t, [])
  | .raises e => (t.leave (.error e)).map fun t => (t, [])
  | .get x next => some ({ t with prog := next (t.context x), reads := t.reads ++ [⟨x, t.context x⟩] }, [])
  | .within x v body next =>
    some ({ t with
      context := Function.update t.context x (some v)
      prog := body
      frames := ⟨x, t.context x, next⟩ :: t.frames }, [])
  | .suspend next => some ({ t with prog := next (signals t.suspensions), suspensions := t.suspensions + 1 }, [])
  | .spawn child next =>
    some ({ t with prog := next, spawned := t.spawned ++ [(t.context, child)] }, [start t.root (t.context, child)])

def outer (context : Context ν) : List (Frame ν ε ρ) → Context ν
  | [] => context
  | f :: frames => outer (Function.update context f.var f.token) frames

def unwind (signals : Nat → Option ε) (context : Context ν) (prog : Prog ν ε ρ) (n : Nat) :
    List (Frame ν ε ρ) → Run ν ε ρ
  | [] => prog.eval signals context n
  | f :: frames =>
    let r := prog.eval signals context n
    (unwind signals (Function.update context f.var f.token) (f.next r.outcome) r.suspensions frames).after r.reads
      r.spawned

def rest (signals : Nat → Option ε) (t : Task ν ε ρ) : Run ν ε ρ :=
  unwind signals t.context t.prog t.suspensions t.frames

/-- What has happened and what is to happen is what happens in the program by itself. -/
structure Lexical (signals : Nat → Option ε) (t : Task ν ε ρ) : Prop where
  run : t.origin.2.eval signals t.origin.1 0 = (t.rest signals).after t.reads t.spawned
  context : outer t.context t.frames = t.origin.1

section
variable {signals : Nat → Option ε} {t t' : Task ν ε ρ} {new : List (Task ν ε ρ)} {c : Context ν}
  {p q : Prog ν ε ρ} {n m : Nat} {frames : List (Frame ν ε ρ)}

theorem lexical_start (root : Nat) (origin : Context ν × Prog ν ε ρ) : Lexical signals (start root origin) :=
  ⟨rfl, rfl⟩

theorem unwind_of_eval (q : Prog ν ε ρ) (m : Nat) (reads : List ((x : κ) × Option (ν x)))
    (spawned : List (Context ν × Prog ν ε ρ))
    (h : p.eval signals c n = (q.eval signals c m).after reads spawned) :
    unwind signals c p n frames = (unwind signals c q m frames).after reads spawned := by
  cases frames with
  | nil => exact h
  | cons f frames =>
    rw [unwind, unwind, h]
    exact (Run.after_after _).symm

theorem unwind_within {x : κ} {v : ν x} {next : Except ε ρ → Prog ν ε ρ} :
    unwind signals c (.within x v p next) n frames =
      unwind signals (Function.update c x (some v)) p n (⟨x, c x, next⟩ :: frames) := by
  rw [unwind, Function.update_idem, Function.update_eq_self]
  exact unwind_of_eval _ _ _ _ rfl

theorem lexical_of_leave {o : Except ε ρ} (h : Lexical signals t)
    (hprog : t.prog.eval signals t.context t.suspensions = ⟨[], [], o, t.suspensions⟩)
    (hleave : t.leave o = some t') :
    Lexical signals t' := by
  unfold leave at hleave
  cases hframes : t.frames with
  | nil =>
    rw [hframes] at hleave
    cases hleave
  | cons f frames =>
    rw [hframes] at hleave
    cases hleave
    refine ⟨?_, ?_⟩
    · rw [h.run, rest, rest, hframes, unwind, hprog]
      rfl
    · rw [← h.context, hframes]
      rfl

theorem lexical_step (h : Lexical signals t) (hstep : t.step signals = some (t', new)) : Lexical signals t' := by
  unfold step at hstep
  split at hstep
  · rename_i r hprog
    obtain ⟨u, hu, heq⟩ := Option.map_eq_some_iff.mp hstep
    cases heq
    exact lexical_of_leave h (by rw [hprog]; rfl) hu
  · rename_i e hprog
    obtain ⟨u, hu, heq⟩ := Option.map_eq_some_iff.mp hstep
    cases heq
    exact lexical_of_leave h (by rw [hprog]; rfl) hu
  · rename_i x next hprog
    cases hstep
    refine ⟨?_, h.context⟩
    rw [h.run, rest, hprog, unwind_of_eval (next (t.context x)) _ [⟨x, t.context x⟩] _ rfl,
      Run.after_after, List.append_nil]
    rfl
  · rename_i x v body next hprog
    cases hstep
    refine ⟨?_, ?_⟩
    · rw [h.run, rest, hprog, unwind_within]
      rfl
    · rw [outer, Function.update_idem, Function.update_eq_self]
      exact h.context
  · rename_i next hprog
    cases hstep
    refine ⟨?_, h.context⟩
    rw [h.run, rest, hprog]
    exact congrArg _ (unwind_of_eval (next (signals t.suspensions)) (t.suspensions + 1) [] [] rfl)
  · rename_i child next hprog
    cases hstep
    refine ⟨?_, h.context⟩
    rw [h.run, rest, hprog, unwind_of_eval next _ [] [(t.context, child)] rfl,
      Run.after_after, List.append_nil]
    rfl

/-- A step keeps where the task comes from, and the tasks it creates start there. -/
theorem step_origin (hstep : t.step signals = some (t', new)) : t'.root = t.root ∧ t'.origin = t.origin ∧
    ∀ u ∈ new, ∃ o ∈ t'.spawned, u = start t.root o := by
  have hleave (o : Except ε ρ) (u : Task ν ε ρ) (h : t.leave o = some u) :
      u.root = t.root ∧ u.origin = t.origin := by
    unfold leave at h
    split at h
    · cases h
    · cases h
      exact ⟨rfl, rfl⟩
  unfold step at hstep
  split at hstep
  · obtain ⟨u, hu, heq⟩ := Option.map_eq_some_iff.mp hstep
    cases heq
    exact ⟨(hleave _ _ hu).1, (hleave _ _ hu).2, fun _ h => nomatch h⟩
  · obtain ⟨u, hu, heq⟩ := Option.map_eq_some_iff.mp hstep
    cases heq
    exact ⟨(hleave _ _ hu).1, (hleave _ _ hu).2, fun _ h => nomatch h⟩
  · cases hstep
    exact ⟨rfl, rfl, fun _ h => nomatch h⟩
  · cases hstep
    exact ⟨rfl, rfl, fun _ h => nomatch h⟩
  · cases hstep
    exact ⟨rfl, rfl, fun _ h => nomatch h⟩
  · rename_i child next hprog
    cases hstep
    refine ⟨rfl, rfl, fun u hu => ⟨(t.context, child), ?_, List.mem_singleton.mp hu⟩⟩
    exact List.mem_append_right _ List.mem_cons_self

/-- A task has read what its program reads first by itself, and has created the tasks that it
creates first. Outside of every block it has the context it was created with. -/
theorem Lexical.sofar (h : Lexical signals t) :
    t.reads <+: (t.origin.2.eval signals t.origin.1 0).reads ∧
      t.spawned <+: (t.origin.2.eval signals t.origin.1 0).spawned ∧ (t.frames = [] → t.context = t.origin.1) := by
  refine ⟨?_, ?_, fun hframes => ?_⟩
  · rw [h.run]
    exact List.prefix_append _ _
  · rw [h.run]
    exact List.prefix_append _ _
  · rw [← h.context, hframes]
    rfl

end

end Task

-- ---------------------------------------------------------------------------
-- Systems of tasks
-- ---------------------------------------------------------------------------

abbrev System (ν : κ → Type) (ε ρ : Type) := List (Task ν ε ρ)

/-- Task `i` makes a step. The tasks it creates come last. -/
def System.step (signals : Nat → Nat → Option ε) (s : System ν ε ρ) (i : Nat) : Option (System ν ε ρ) :=
  s[i]?.bind fun t => (t.step (signals i)).map fun r => s.set i r.1 ++ r.2

def System.start (origins : List (Context ν × Prog ν ε ρ)) : System ν ε ρ := origins.mapIdx Task.start

section
variable {signals : Nat → Nat → Option ε} {s s' : System ν ε ρ} {t : Task ν ε ρ} {i j : Nat}
  {origins : List (Context ν × Prog ν ε ρ)} {schedule : List Nat}

theorem System.run_invariant {I : Nat → Task ν ε ρ → Prop}
    (hstep : ∀ i t t' new, I i t → t.step (signals i) = some (t', new) → I i t' ∧ ∀ u ∈ new, ∀ j, I j u)
    (hinit : ∀ i t, s[i]? = some t → I i t) (hrun : Machine.run (System.step signals) s schedule = some s')
    (ht : s'[i]? = some t) : I i t := by
  induction schedule generalizing s with
  | nil =>
    cases hrun
    exact hinit i t ht
  | cons k schedule ih =>
    obtain ⟨s₁, hs₁, hrest⟩ := Option.bind_eq_some_iff.mp hrun
    obtain ⟨u, hu, hs₁⟩ := Option.bind_eq_some_iff.mp hs₁
    obtain ⟨⟨u', new⟩, hu', rfl⟩ := Option.map_eq_some_iff.mp hs₁
    obtain ⟨hkeep, hnew⟩ := hstep k u u' new (hinit k u hu) hu'
    refine ih (fun j v hv => ?_) hrest
    by_cases hj : j < (s.set k u').length
    · rw [List.getElem?_append_left hj, List.getElem?_set] at hv
      split at hv
      · rename_i hk
        split at hv
        · cases hv
          exact hk ▸ hkeep
        · cases hv
      · exact hinit j v hv
    · rw [List.getElem?_append_right (Nat.le_of_not_lt hj)] at hv
      exact hnew v (List.mem_of_getElem? hv) j

omit [DecidableEq κ] in
theorem System.getElem?_start (h : (System.start origins)[i]? = some t) :
    ∃ origin, origins[i]? = some origin ∧ t = Task.start i origin := by
  rw [System.start, List.getElem?_mapIdx] at h
  obtain ⟨origin, ho, rfl⟩ := Option.map_eq_some_iff.mp h
  exact ⟨origin, ho, rfl⟩

theorem System.lexical (hrun : Machine.run (System.step signals) (System.start origins) schedule = some s)
    (ht : s[i]? = some t) : t.Lexical (signals i) := by
  refine System.run_invariant (I := fun i t => t.Lexical (signals i)) (fun i t t' new h hstep => ?_) ?_ hrun ht
  · refine ⟨Task.lexical_step h hstep, fun u hu j => ?_⟩
    obtain ⟨o, -, rfl⟩ := (Task.step_origin hstep).2.2 u hu
    exact Task.lexical_start t.root o
  · intro i t h
    obtain ⟨origin, -, rfl⟩ := System.getElem?_start h
    exact Task.lexical_start i origin

/-- A task is one of the first or is born of one: what holds of the tasks that the first create, and of
those that such tasks create, holds of it. -/
theorem System.first_or_born {Born : Nat → Context ν × Prog ν ε ρ → Prop}
    (hfirst : ∀ r o, origins[r]? = some o → ∀ c ∈ (o.2.eval (signals r) o.1 0).spawned, Born r c)
    (hborn : ∀ r o, Born r o → ∀ sig, ∀ c ∈ (o.2.eval sig o.1 0).spawned, Born r c)
    (hrun : Machine.run (System.step signals) (System.start origins) schedule = some s) (ht : s[i]? = some t) :
    (t.root = i ∧ origins[i]? = some t.origin) ∨ Born t.root t.origin := by
  have hinv : t.Lexical (signals i) ∧ ((t.root = i ∧ origins[i]? = some t.origin) ∨ Born t.root t.origin) := by
    refine System.run_invariant (I := fun i t => t.Lexical (signals i) ∧
      ((t.root = i ∧ origins[i]? = some t.origin) ∨ Born t.root t.origin))
      (fun i t t' new h hstep => ?_) ?_ hrun ht
    · obtain ⟨hlex, hfrom⟩ := h
      obtain ⟨hroot, horigin, hnew⟩ := Task.step_origin hstep
      have hlex' := Task.lexical_step hlex hstep
      refine ⟨⟨hlex', by rw [hroot, horigin]; exact hfrom⟩, fun u hu j => ?_⟩
      obtain ⟨o, ho, rfl⟩ := hnew u hu
      have hspawned := hlex'.sofar.2.1.subset ho
      rw [horigin] at hspawned
      refine ⟨Task.lexical_start t.root o, .inr ?_⟩
      rcases hfrom with ⟨rfl, hfirst'⟩ | hborn'
      · exact hfirst _ _ hfirst' o hspawned
      · exact hborn _ _ hborn' _ o hspawned
    · intro i t h
      obtain ⟨origin, ho, rfl⟩ := System.getElem?_start h
      exact ⟨Task.lexical_start i origin, .inl ⟨rfl, ho⟩⟩
  exact hinv.2

end

end Intelliqx.Py
