import Intelliqx.Graph.Ingest

/-!
# Methods lie in their classes

The parser names the class of a method by the innermost scope, so the method
lies in the lines of a class entity of its file and of that name
(`mayDefine_of_mem_parsedEntities`).
-/

namespace Intelliqx.Graph

open Py (ClassHeader FunctionHeader Stmt)

/-- The class can be the one that the method names: it is around it, in its file. -/
def MayDefine (c m : ParsedEntity) : Prop :=
  c.entityType = "class" ∧ c.filePath = m.filePath ∧ m.parent = some c.name ∧
    c.lineStart ≤ m.lineStart ∧ m.lineEnd ≤ c.lineEnd

instance : Decidable (MayDefine c m) := inferInstanceAs (Decidable (_ ∧ _))

namespace PythonParser

/-- The lines of the function are lines of the class. -/
def Encloses (c : ClassHeader) (f : FunctionHeader) : Prop :=
  c.lineno ≤ f.lineno ∧ f.endLineno.getD f.lineno ≤ c.endLineno.getD c.lineno

mutual
/-- Functions in the body of a class lie in its lines; `around` is the class whose body it is. -/
def Placed (around : Option ClassHeader) : Stmt → Prop
  | .functionDef header body => (∀ c ∈ around, Encloses c header) ∧ PlacedAll none body
  | .classDef header body => PlacedAll (some header) body
  | .other children => PlacedAll around children
  | _ => True
def PlacedAll (around : Option ClassHeader) : List Stmt → Prop
  | [] => True
  | s :: ss => Placed around s ∧ PlacedAll around ss
end

/-- The method is one of the class whose body is walked. -/
def Inside (around : Option ClassHeader) (m : ParsedEntity) : Prop :=
  ∃ c ∈ around, m.parent = some c.name ∧ c.lineno ≤ m.lineStart ∧ m.lineEnd ≤ c.endLineno.getD c.lineno

/-- Every method that the walk emitted lies in the class around or in one that was emitted too. -/
def Defined (src : Source) (around : Option ClassHeader) (v v' : FileVisitor) : Prop :=
  ∃ new, v'.entities = v.entities ++ new ∧ (∀ e ∈ new, e.filePath = src.fileStr) ∧
    ∀ m ∈ new, m.entityType = "method" → Inside around m ∨ ∃ c ∈ new, MayDefine c m

/-- If the innermost scope is a class, it is the class around. -/
def InScope (around : Option ClassHeader) (v : FileVisitor) : Prop :=
  ∀ name, v.scopeStack.head?.map ScopeFrame.scope = some (.class, name) → ∃ c ∈ around, c.name = name

section
variable {src : Source} {around : Option ClassHeader} {items : List (String × String)} {v v' v'' : FileVisitor}

theorem InScope.congr (h : InScope around v) (hdeclares : Declares src items v v') : InScope around v' := by
  intro name hname
  rw [hdeclares.scope] at hname
  exact h name hname

theorem Defined.trans (h : Defined src around v v') (h' : Defined src around v' v'') :
    Defined src around v v'' := by
  obtain ⟨new, hnew, hfiles, hmethods⟩ := h
  obtain ⟨new', hnew', hfiles', hmethods'⟩ := h'
  refine ⟨new ++ new', by rw [hnew', hnew, List.append_assoc], List.forall_mem_append.mpr ⟨hfiles, hfiles'⟩, ?_⟩
  refine List.forall_mem_append.mpr ⟨fun m hm hmethod => ?_, fun m hm hmethod => ?_⟩
  · refine (hmethods m hm hmethod).imp_right ?_
    rintro ⟨c, hc, hdefines⟩
    exact ⟨c, List.mem_append_left _ hc, hdefines⟩
  · refine (hmethods' m hm hmethod).imp_right ?_
    rintro ⟨c, hc, hdefines⟩
    exact ⟨c, List.mem_append_right _ hc, hdefines⟩

/-- What declares no method. -/
theorem Declares.defined (h : Declares src items v v') (hitems : ∀ item ∈ items, item.1 ≠ "method") :
    Defined src around v v' := by
  obtain ⟨-, new, hnew, rfl, hfiles⟩ := h
  refine ⟨new, hnew, hfiles, fun m hm hmethod => ?_⟩
  exact absurd hmethod (hitems _ (List.mem_map_of_mem hm))

/-- A definition in the class around; `inner` is the class whose body it has, if it is one. -/
theorem defined_definition {inner : Option ClassHeader} {entity : ParsedEntity} {kind : FrameKind}
    (hscopes : v'.scopeStack.map ScopeFrame.scope = (enter entity kind v).scopeStack.map ScopeFrame.scope)
    (hbody : Defined src inner (enter entity kind v) v') (hfile : entity.filePath = src.fileStr)
    (hself : entity.entityType = "method" → Inside around entity)
    (hinner : ∀ c ∈ inner, entity.entityType = "class" ∧ entity.name = c.name ∧ entity.lineStart = c.lineno ∧
      entity.lineEnd = c.endLineno.getD c.lineno) :
    Defined src around v (leave entity v.entities.length v') := by
  obtain ⟨new, hnew, hfiles, hmethods⟩ := hbody
  obtain ⟨frame, rest, hs, -, -⟩ := List.map_eq_cons_iff.mp hscopes
  rw [leave_enter hnew hs]
  refine ⟨_, rfl, List.forall_mem_cons.mpr ⟨hfile, hfiles⟩, List.forall_mem_cons.mpr ⟨?_, ?_⟩⟩
  · exact fun hmethod => .inl (hself hmethod)
  · intro m hm hmethod
    right
    rcases hmethods m hm hmethod with ⟨c, hc, hparent, hstart, hend⟩ | ⟨c, hc, hdefines⟩
    · obtain ⟨hclass, hname, hlineStart, hlineEnd⟩ := hinner c hc
      refine ⟨_, List.mem_cons_self, hclass, hfile.trans (hfiles m hm).symm, ?_, ?_, ?_⟩
      · rw [hparent, ← hname]
        rfl
      · exact hlineStart.trans_le hstart
      · exact hend.trans_eq hlineEnd.symm
    · exact ⟨c, List.mem_cons_of_mem _ hc, hdefines⟩

theorem inside_functionEntity {header : FunctionHeader} {body : List Stmt} (hscope : InScope around v)
    (hlines : ∀ c ∈ around, Encloses c header)
    (hmethod : (functionEntity src header body v).entityType = "method") :
    Inside around (functionEntity src header body v) := by
  have hkind : parentKind v = some .class := by
    by_contra hkind
    rw [functionEntity, if_neg hkind] at hmethod
    exact absurd hmethod (show "function" ≠ "method" by decide)
  obtain ⟨frame, hframe, hclass⟩ := Option.map_eq_some_iff.mp hkind
  obtain ⟨c, hc, hname⟩ := hscope frame.name (by rw [hframe, Option.map_some, ScopeFrame.scope, hclass])
  refine ⟨c, hc, ?_, (hlines c hc).1, (hlines c hc).2⟩
  rw [hname]
  exact congrArg (Option.map ScopeFrame.name) hframe

mutual
theorem defined_visitStmt : (s : Stmt) → (around : Option ClassHeader) → (v : FileVisitor) → Placed around s →
    InScope around v → Defined src around v (visitStmt src s v)
  | .functionDef header body, around, v, hplaced, hscope => by
    have hin : InScope none (enter (functionEntity src header body v) .function v) := fun _ hname => by cases hname
    exact defined_definition (declares_visitStmts body _).scopes (defined_visitStmts body none _ hplaced.2 hin) rfl
      (inside_functionEntity hscope hplaced.1) (by simp)
  | .classDef header body, around, v, hplaced, hscope => by
    have hin : InScope (some header) (enter (classEntity src header v) .class v) := fun _ hname => by
      cases hname
      exact ⟨header, rfl, rfl⟩
    refine defined_definition (declares_visitStmts body _).scopes (defined_visitStmts body _ _ hplaced hin) rfl
      (fun hmethod => absurd hmethod (by simp [classEntity])) ?_
    rintro c ⟨⟩
    exact ⟨rfl, rfl, rfl, rfl⟩
  | .import names lineno endLineno, around, v, _, _ =>
    (declares_visitStmt (.import names lineno endLineno) v).defined (by simp [declared])
  | .importFrom source names level lineno endLineno, around, v, _, _ =>
    (declares_visitStmt (.importFrom source names level lineno endLineno) v).defined (by simp [declared])
  | .expr e, around, v, _, _ => (declares_visitStmt (.expr e) v).defined (by simp [declared])
  | .other children, around, v, hplaced, hscope => defined_visitStmts children around v hplaced hscope
theorem defined_visitStmts : (ss : List Stmt) → (around : Option ClassHeader) → (v : FileVisitor) →
    PlacedAll around ss → InScope around v → Defined src around v (visitStmts src ss v)
  | [], _, v, _, _ => (Noted.refl v).declares.defined (by simp)
  | s :: ss, around, v, hplaced, hscope =>
    (defined_visitStmt s around v hplaced.1 hscope).trans
      (defined_visitStmts ss around _ hplaced.2 (hscope.congr (declares_visitStmt s v)))
end

end

/-- A method is parsed with a class that may define it. -/
theorem mayDefine_of_mem_parsedEntities {files : List SourceFile} (hplaced : ∀ f ∈ files, PlacedAll none f.tree)
    {m : ParsedEntity} (hm : m ∈ parsedEntities files) (hmethod : m.entityType = "method") :
    ∃ c ∈ parsedEntities files, MayDefine c m := by
  obtain ⟨f, hf, hm⟩ := List.mem_flatMap.mp hm
  obtain ⟨new, hnew, -, hmethods⟩ : Defined f.src none {} (visitStmts f.src f.tree {}) :=
    defined_visitStmts f.tree none {} (hplaced f hf) fun _ hname => by cases hname
  rw [parseFile, hnew] at hm
  rcases hmethods m hm hmethod with ⟨c, hc, -⟩ | ⟨c, hc, hdefines⟩
  · cases hc
  · exact ⟨c, List.mem_flatMap.mpr ⟨f, hf, by rw [parseFile, hnew]; exact hc⟩, hdefines⟩

end PythonParser

end Intelliqx.Graph
