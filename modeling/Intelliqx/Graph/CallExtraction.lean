import Intelliqx.Graph.PythonParser

/-!
# The calls that the parser extracts

The calls of a function are those that the walk of its body comes to. It passes
over the callee of a call that is neither a name nor an attribute, and over
everything of a nested definition but its body (`calls_complete_iff`).
-/

namespace Intelliqx.Graph.PythonParser

open Py (Alias Expr FunctionHeader Stmt)

-- ---------------------------------------------------------------------------
-- What a walk comes to
-- ---------------------------------------------------------------------------

section
variable (unparse : Expr → Option String)

mutual
/-- The names that the walk of an expression takes for calls. -/
def reached : Expr → List String
  | .name _ => []
  | .attribute value _ => reached value
  | .call func args keywords => reachedCallee func ++ reachedAll args ++ reachedAll keywords
  | .other _ children => reachedAll children
def reachedCallee : Expr → List String
  | .name id => [id]
  | .attribute value attr => attr.val :: reached value
  | func => (Py.truthy (unparse func)).toList
def reachedAll : List Expr → List String
  | [] => []
  | e :: es => reached e ++ reachedAll es
end

mutual
def reachedStmt : Stmt → List String
  | .functionDef .. => []
  | .classDef _ body => reachedStmts body
  | .import .. => []
  | .importFrom .. => []
  | .expr e => reached unparse e
  | .other children => reachedStmts children
def reachedStmts : List Stmt → List String
  | [] => []
  | s :: ss => reachedStmt s ++ reachedStmts ss
end

end

mutual
/-- The names called where the walk of an expression does not go: a callee that is neither a
name nor an attribute. -/
def skipped : Expr → List String
  | .name _ => []
  | .attribute value _ => skipped value
  | .call func args keywords => skippedCallee func ++ skippedAll args ++ skippedAll keywords
  | .other _ children => skippedAll children
def skippedCallee : Expr → List String
  | .name _ => []
  | .attribute value _ => skipped value
  | func => func.called
def skippedAll : List Expr → List String
  | [] => []
  | e :: es => skipped e ++ skippedAll es
end

mutual
/-- Of a definition the walk takes the body only. -/
def skippedStmt : Stmt → List String
  | .functionDef header _ => Expr.calledAll header.exprs
  | .classDef header body => Expr.calledAll header.exprs ++ skippedStmts body
  | .import .. => []
  | .importFrom .. => []
  | .expr e => skipped e
  | .other children => skippedStmts children
def skippedStmts : List Stmt → List String
  | [] => []
  | s :: ss => skippedStmt s ++ skippedStmts ss
end

section

theorem append_subset_append {l l' r r' : List String} (hl : l ⊆ l') (hr : r ⊆ r') : l ++ r ⊆ l' ++ r' :=
  List.append_subset.mpr ⟨List.subset_append_of_subset_left _ hl, List.subset_append_of_subset_right _ hr⟩

mutual
theorem skipped_subset : (e : Expr) → skipped e ⊆ e.called
  | .name _ => List.Subset.refl _
  | .attribute value _ => skipped_subset value
  | .call func args keywords => by
    simp only [skipped, Expr.called]
    have hfunc : skippedCallee func ⊆ func.calleeName ++ func.called :=
      List.subset_append_of_subset_right _ (skippedCallee_subset func)
    exact append_subset_append (append_subset_append hfunc (skippedAll_subset args)) (skippedAll_subset keywords)
  | .other _ children => skippedAll_subset children
theorem skippedCallee_subset : (func : Expr) → skippedCallee func ⊆ func.called
  | .name _ => List.Subset.refl _
  | .attribute value _ => skipped_subset value
  | .call .. => List.Subset.refl _
  | .other .. => List.Subset.refl _
theorem skippedAll_subset : (es : List Expr) → skippedAll es ⊆ Expr.calledAll es
  | [] => List.Subset.refl _
  | e :: es => append_subset_append (skipped_subset e) (skippedAll_subset es)
end

mutual
theorem skippedStmt_subset : (s : Stmt) → skippedStmt s ⊆ s.called
  | .functionDef .. => List.Subset.refl _
  | .classDef _ body => append_subset_append (List.Subset.refl _) (skippedStmts_subset body)
  | .import .. => List.Subset.refl _
  | .importFrom .. => List.Subset.refl _
  | .expr e => skipped_subset e
  | .other children => skippedStmts_subset children
theorem skippedStmts_subset : (ss : List Stmt) → skippedStmts ss ⊆ Stmt.calledAll ss
  | [] => List.Subset.refl _
  | s :: ss => append_subset_append (skippedStmt_subset s) (skippedStmts_subset ss)
end

end

section
variable {unparse : Expr → Option String} {f : String}

mutual
/-- A call is reached or skipped. -/
theorem reached_or_skipped : (e : Expr) → f ∈ e.called → f ∈ reached unparse e ∨ f ∈ skipped e
  | .name _, h => nomatch h
  | .attribute value _, h => reached_or_skipped value h
  | .call func args keywords, h => by
    simp only [Expr.called, List.mem_append] at h
    simp only [reached, skipped, List.mem_append]
    rcases h with (h | h) | h
    · rcases reachedCallee_or_skippedCallee func (List.mem_append.mpr h) with h | h
      · exact .inl (.inl (.inl h))
      · exact .inr (.inl (.inl h))
    · rcases reachedAll_or_skippedAll args h with h | h
      · exact .inl (.inl (.inr h))
      · exact .inr (.inl (.inr h))
    · exact (reachedAll_or_skippedAll keywords h).imp .inr .inr
  | .other _ children, h => reachedAll_or_skippedAll children h
theorem reachedCallee_or_skippedCallee : (func : Expr) → f ∈ func.calleeName ++ func.called →
    f ∈ reachedCallee unparse func ∨ f ∈ skippedCallee func
  | .name _, h => .inl (by simpa [Expr.calleeName, Expr.called, reachedCallee] using h)
  | .attribute value attr, h => by
    rcases List.mem_cons.mp h with rfl | h
    · exact .inl List.mem_cons_self
    · exact (reached_or_skipped value h).imp_left (List.mem_cons_of_mem _)
  | .call .., h => .inr h
  | .other .., h => .inr h
theorem reachedAll_or_skippedAll : (es : List Expr) → f ∈ Expr.calledAll es →
    f ∈ reachedAll unparse es ∨ f ∈ skippedAll es
  | [], h => nomatch h
  | e :: es, h => by
    simp only [reachedAll, skippedAll, List.mem_append]
    rcases List.mem_append.mp h with h | h
    · exact (reached_or_skipped e h).imp .inl .inl
    · exact (reachedAll_or_skippedAll es h).imp .inr .inr
end

mutual
theorem reachedStmt_or_skippedStmt : (s : Stmt) → f ∈ s.called → f ∈ reachedStmt unparse s ∨ f ∈ skippedStmt s
  | .functionDef .., h => .inr h
  | .classDef _ body, h => by
    rcases List.mem_append.mp h with h | h
    · exact .inr (List.mem_append_left _ h)
    · exact (reachedStmts_or_skippedStmts body h).imp_right (List.mem_append_right _)
  | .import .., h => nomatch h
  | .importFrom .., h => nomatch h
  | .expr e, h => reached_or_skipped e h
  | .other children, h => reachedStmts_or_skippedStmts children h
theorem reachedStmts_or_skippedStmts : (ss : List Stmt) → f ∈ Stmt.calledAll ss →
    f ∈ reachedStmts unparse ss ∨ f ∈ skippedStmts ss
  | [], h => nomatch h
  | s :: ss, h => by
    simp only [reachedStmts, skippedStmts, List.mem_append]
    rcases List.mem_append.mp h with h | h
    · exact (reachedStmt_or_skippedStmt s h).imp .inl .inl
    · exact (reachedStmts_or_skippedStmts ss h).imp .inr .inr
end

end

-- ---------------------------------------------------------------------------
-- The walk
-- ---------------------------------------------------------------------------

def ScopeFrame.bare (frame : ScopeFrame) : ScopeFrame := { frame with references := [] }

def noteAll (names : List String) (frames : List ScopeFrame) : List ScopeFrame :=
  names.foldl (fun frames name => noteCall name frames) frames

/-- The walk noted these calls and did nothing else, but for references. -/
def Noted (names : List String) (v v' : FileVisitor) : Prop :=
  v'.entities = v.entities ∧ v'.scopeStack.map ScopeFrame.bare = noteAll names (v.scopeStack.map ScopeFrame.bare)

section
variable {unparse : Expr → Option String} {names names' : List String} {v v' v'' : FileVisitor}

theorem mem_addNew {name f : String} : f ∈ addNew names name ↔ f ∈ names ∨ f = name := by
  unfold addNew
  split
  · exact ⟨.inl, fun h => h.elim id fun h => h ▸ ‹_›⟩
  · rw [List.mem_append, List.mem_singleton]

theorem mem_foldl_addNew {f : String} : f ∈ names.foldl addNew names' ↔ f ∈ names' ∨ f ∈ names := by
  induction names generalizing names' with
  | nil => simp
  | cons name names ih => rw [List.foldl_cons, ih, mem_addNew, List.mem_cons, or_assoc]

theorem map_bare_noteCall (name : String) (frames : List ScopeFrame) :
    (noteCall name frames).map ScopeFrame.bare = noteCall name (frames.map ScopeFrame.bare) := by
  induction frames with
  | nil => rfl
  | cons frame rest ih => cases hk : frame.kind <;> simp [noteCall, ScopeFrame.bare, hk, ih]

theorem noteAll_function (n : String) (calls : List String) (rest : List ScopeFrame) :
    noteAll names (⟨.function, n, calls, []⟩ :: rest) = ⟨.function, n, names.foldl addNew calls, []⟩ :: rest := by
  induction names generalizing calls with
  | nil => rfl
  | cons name names ih => exact ih _

theorem noteAll_class (n : String) (calls : List String) (rest : List ScopeFrame) :
    noteAll names (⟨.class, n, calls, []⟩ :: rest) = ⟨.class, n, calls, []⟩ :: noteAll names rest := by
  induction names generalizing rest with
  | nil => rfl
  | cons name names ih => exact ih _

theorem Noted.refl (v : FileVisitor) : Noted [] v v := ⟨rfl, rfl⟩

theorem Noted.trans (h : Noted names v v') (h' : Noted names' v' v'') : Noted (names ++ names') v v'' := by
  refine ⟨h'.1.trans h.1, ?_⟩
  rw [h'.2, h.2, noteAll, noteAll, noteAll, List.foldl_append]

theorem noted_addReference (name : String) (v : FileVisitor) : Noted [] v (addReference name v) := by
  unfold addReference
  split
  · exact .refl v
  · split
    · exact .refl v
    · rename_i hstack
      exact ⟨rfl, by simp [noteAll, hstack, ScopeFrame.bare]⟩

theorem noted_recordCallTarget {name : String} (h : name ≠ "") (v : FileVisitor) :
    Noted [name] v (recordCallTarget name v) := by
  rw [recordCallTarget, if_neg h]
  exact ⟨rfl, map_bare_noteCall name v.scopeStack⟩

theorem noted_recordText (text : Option String) (v : FileVisitor) :
    Noted (Py.truthy text).toList v (recordText text v) := by
  cases text with
  | none => exact .refl v
  | some text =>
    by_cases h : text = ""
    · rw [h]
      exact .refl v
    · have ht : Py.truthy (some text) = some text := Option.filter_some_pos (decide_eq_true h)
      rw [ht]
      exact noted_recordCallTarget h v

mutual
theorem noted_visitExpr : (e : Expr) → (v : FileVisitor) → Noted (reached unparse e) v (visitExpr unparse e v)
  | .name id, v => noted_addReference id v
  | .attribute value attr, v => by
    have h := (noted_visitExpr value v).trans (noted_addReference attr (visitExpr unparse value v))
    rwa [List.append_nil] at h
  | .call func args keywords, v =>
    ((noted_recordCall func v).trans (noted_visitExprs args _)).trans (noted_visitExprs keywords _)
  | .other _ children, v => noted_visitExprs children v
theorem noted_recordCall : (func : Expr) → (v : FileVisitor) →
    Noted (reachedCallee unparse func) v (recordCall unparse func v)
  | .name id, v => (noted_recordCallTarget id.2 v).trans (noted_addReference id _)
  | .attribute value attr, v =>
    ((noted_recordCallTarget attr.2 v).trans (noted_addReference attr _)).trans (noted_visitExpr value _)
  | .call func args keywords, v => noted_recordText (unparse (.call func args keywords)) v
  | .other kind children, v => noted_recordText (unparse (.other kind children)) v
theorem noted_visitExprs : (es : List Expr) → (v : FileVisitor) →
    Noted (reachedAll unparse es) v (visitExprs unparse es v)
  | [], v => .refl v
  | e :: es, v => (noted_visitExpr e v).trans (noted_visitExprs es _)
end

end


def isFunction (e : ParsedEntity) : Bool := e.entityType = "function" || e.entityType = "method"

section
variable (src : Source)

/-- The entity of a definition, with the calls that the walk of its body comes to. -/
def Emitted (d : FunctionHeader × List Stmt) (e : ParsedEntity) : Prop :=
  e.name = d.1.name ∧ e.lineStart = d.1.lineno ∧ e.calls = (reachedStmts src.unparse d.2).foldl addNew []

structure Walked (names : List String) (defs : List (FunctionHeader × List Stmt)) (v v' : FileVisitor) : Prop where
  stack : v'.scopeStack.map ScopeFrame.bare = noteAll names (v.scopeStack.map ScopeFrame.bare)
  emits : ∃ new, v'.entities = v.entities ++ new ∧ List.Forall₂ (Emitted src) defs (new.filter isFunction)

end

section
variable {src : Source} {names names' : List String} {defs defs' : List (FunctionHeader × List Stmt)}
  {v v' v'' : FileVisitor}

theorem Noted.walked (h : Noted names v v') : Walked src names [] v v' :=
  ⟨h.2, [], by rw [h.1, List.append_nil], .nil⟩

theorem Walked.trans (h : Walked src names defs v v') (h' : Walked src names' defs' v' v'') :
    Walked src (names ++ names') (defs ++ defs') v v'' := by
  obtain ⟨hstack, new, hnew, hdefs⟩ := h
  obtain ⟨hstack', new', hnew', hdefs'⟩ := h'
  refine ⟨?_, new ++ new', ?_, ?_⟩
  · rw [hstack', hstack, noteAll, noteAll, noteAll, List.foldl_append]
  · rw [hnew', hnew, List.append_assoc]
  · rw [List.filter_append]
    exact List.rel_append hdefs hdefs'

theorem walked_emit {entity : ParsedEntity} (h : isFunction entity = false) (v : FileVisitor) :
    Walked src [] [] v (emit entity v) :=
  ⟨rfl, [entity], rfl, by simp [h]⟩

theorem walked_foldl {step : FileVisitor → Alias → FileVisitor} (hstep : ∀ v a, Walked src [] [] v (step v a))
    (as : List Alias) (v : FileVisitor) : Walked src [] [] v (as.foldl step v) := by
  induction as generalizing v with
  | nil => exact (Noted.refl v).walked
  | cons a as ih => exact (hstep v a).trans (ih _)

theorem walked_visitAlias (lineno : Int) (endLineno : Option Int) (v : FileVisitor) (a : Alias) :
    Walked src [] [] v (visitAlias src lineno endLineno v a) :=
  (walked_emit rfl v).trans (noted_addReference _ _).walked

theorem walked_visitImportFrom (source : Option String) (as : List Alias) (level : Nat) (lineno : Int)
    (endLineno : Option Int) (v : FileVisitor) :
    Walked src [] [] v (visitImportFrom src source as level lineno endLineno v) := by
  have hnames : Walked src [] [] v (as.foldl (fun v a =>
      emit (importEntity src a (source.getD "") true level lineno endLineno) v) v) :=
    walked_foldl (fun v _ => walked_emit rfl v) as v
  unfold visitImportFrom
  simp only
  split
  · exact hnames
  · exact hnames.trans (noted_addReference _ _).walked

theorem map_bare_enter (entity : ParsedEntity) (kind : FrameKind) (v : FileVisitor) :
    (enter entity kind v).scopeStack.map ScopeFrame.bare =
      ⟨kind, entity.name, [], []⟩ :: v.scopeStack.map ScopeFrame.bare := rfl

/-- What a scope is left with: the entity that was emitted on entering it is the one filled in. -/
theorem leave_enter {entity : ParsedEntity} {kind : FrameKind} {new : List ParsedEntity} {frame : ScopeFrame}
    {rest : List ScopeFrame} (hv : v'.entities = (enter entity kind v).entities ++ new)
    (hs : v'.scopeStack = frame :: rest) :
    leave entity v.entities.length v' =
      ⟨v.entities ++ populateEntity frame entity :: new, rest⟩ := by
  rw [leave, hs, hv]
  simp [enter, emit, List.set_append_right]

theorem isFunction_populateEntity (frame : ScopeFrame) (entity : ParsedEntity) :
    isFunction (populateEntity frame entity) = isFunction entity := rfl

theorem isFunction_functionEntity (header : FunctionHeader) (body : List Stmt) (v : FileVisitor) :
    isFunction (functionEntity src header body v) = true := by
  unfold isFunction functionEntity
  split <;> rfl

mutual
theorem walked_visitStmt : (s : Stmt) → (v : FileVisitor) →
    Walked src (reachedStmt src.unparse s) s.functionDefs v (visitStmt src s v)
  | .functionDef header body, v => by
    obtain ⟨hstack, new, hnew, hdefs⟩ :=
      walked_visitStmts body (enter (functionEntity src header body v) .function v)
    rw [map_bare_enter, noteAll_function] at hstack
    obtain ⟨frame, rest, hs, hframe, hrest⟩ := List.map_eq_cons_iff.mp hstack
    have hcalls : frame.calls = (reachedStmts src.unparse body).foldl addNew [] := congrArg ScopeFrame.calls hframe
    simp only [visitStmt]
    rw [leave_enter hnew hs]
    refine ⟨hrest, _, rfl, ?_⟩
    have hfun : isFunction (populateEntity frame (functionEntity src header body v)) = true :=
      (isFunction_populateEntity frame _).trans (isFunction_functionEntity header body v)
    rw [List.filter_cons_of_pos hfun]
    exact .cons ⟨rfl, rfl, hcalls⟩ hdefs
  | .classDef header body, v => by
    obtain ⟨hstack, new, hnew, hdefs⟩ := walked_visitStmts body (enter (classEntity src header v) .class v)
    rw [map_bare_enter, noteAll_class] at hstack
    obtain ⟨frame, rest, hs, hframe, hrest⟩ := List.map_eq_cons_iff.mp hstack
    simp only [visitStmt]
    rw [leave_enter hnew hs]
    refine ⟨hrest, _, rfl, ?_⟩
    rw [List.filter_cons_of_neg (Bool.eq_false_iff.mp (isFunction_populateEntity frame _))]
    exact hdefs
  | .import names lineno endLineno, v => walked_foldl (walked_visitAlias lineno endLineno) names v
  | .importFrom source names level lineno endLineno, v =>
    walked_visitImportFrom source names level lineno endLineno v
  | .expr e, v => (noted_visitExpr e v).walked
  | .other children, v => walked_visitStmts children v
theorem walked_visitStmts : (ss : List Stmt) → (v : FileVisitor) →
    Walked src (reachedStmts src.unparse ss) (Stmt.functionDefsAll ss) v (visitStmts src ss v)
  | [], v => (Noted.refl v).walked
  | s :: ss, v => (walked_visitStmt s v).trans (walked_visitStmts ss _)
end

/-- Every definition has its entity, in the order of the file. -/
theorem parseFile_emits (src : Source) (tree : List Stmt) :
    List.Forall₂ (Emitted src) (Stmt.functionDefsAll tree) ((parseFile src tree).filter isFunction) := by
  obtain ⟨-, new, hnew, hdefs⟩ : Walked src _ _ _ _ := walked_visitStmts tree {}
  rwa [parseFile, hnew]

end

-- ---------------------------------------------------------------------------
-- Completeness
-- ---------------------------------------------------------------------------

/-- The entity of a definition has every call of its body. -/
def Complete (d : FunctionHeader × List Stmt) (e : ParsedEntity) : Prop :=
  e.name = d.1.name ∧ e.lineStart = d.1.lineno ∧ Stmt.calledAll d.2 ⊆ e.calls

theorem Emitted.complete_iff {src : Source} {d : FunctionHeader × List Stmt} {e : ParsedEntity}
    (h : Emitted src d e) : Complete d e ↔ skippedStmts d.2 ⊆ reachedStmts src.unparse d.2 := by
  obtain ⟨hname, hline, hcalls⟩ := h
  have hmem (f : String) : f ∈ e.calls ↔ f ∈ reachedStmts src.unparse d.2 := by
    rw [hcalls, mem_foldl_addNew]
    exact or_iff_right List.not_mem_nil
  constructor
  · rintro ⟨-, -, hall⟩ f hf
    exact (hmem f).mp (hall (skippedStmts_subset d.2 hf))
  · refine fun hskipped => ⟨hname, hline, fun f hf => (hmem f).mpr ?_⟩
    exact (reachedStmts_or_skippedStmts d.2 hf).elim id fun h => hskipped h

theorem complete_iff_of_emitted {src : Source} {defs : List (FunctionHeader × List Stmt)}
    {emitted : List ParsedEntity} (h : List.Forall₂ (Emitted src) defs emitted) :
    List.Forall₂ Complete defs emitted ↔ ∀ d ∈ defs, skippedStmts d.2 ⊆ reachedStmts src.unparse d.2 := by
  induction h with
  | nil => simp
  | cons h _ ih => rw [List.forall₂_cons, ih, h.complete_iff, List.forall_mem_cons]

/-- The calls of the functions are complete where each name that a body calls at a place the walk
passes over is also called at one it comes to. -/
theorem calls_complete_iff (src : Source) (tree : List Stmt) :
    List.Forall₂ Complete (Stmt.functionDefsAll tree) ((parseFile src tree).filter isFunction) ↔
      ∀ d ∈ Stmt.functionDefsAll tree, skippedStmts d.2 ⊆ reachedStmts src.unparse d.2 :=
  complete_iff_of_emitted (parseFile_emits src tree)

/-- `def g(): f()()` -/
def chained : List Stmt :=
  [.functionDef { name := "g", lineno := 1 } [.expr (.call (.call (.name ⟨"f", by decide⟩) [] []) [] [])]]

def chainedSource : Source where
  fileStr := "m.py"
  unparse
    | .call (.name id) [] [] => some (id.val ++ "()")
    | _ => none

theorem calls_chained :
    (parseFile chainedSource chained).map ParsedEntity.calls = [["f()"]] ∧
      ¬List.Forall₂ Complete (Stmt.functionDefsAll chained) ((parseFile chainedSource chained).filter isFunction) := by
  refine ⟨by decide, fun h => ?_⟩
  have hf := (complete_iff_of_emitted (parseFile_emits chainedSource chained)).mp h _ List.mem_cons_self
  exact absurd hf (by decide)

end Intelliqx.Graph.PythonParser
