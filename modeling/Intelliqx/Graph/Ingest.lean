import Intelliqx.Graph.CallExtraction
import Intelliqx.Okf.History
import Intelliqx.Okf.RoundTrip

/-!
# Ingesting entities

`ingest_graph` writes one concept for each entity, under an id made of the
file, the kind and the name. The index replaces what has the same id, so it
keeps every entity exactly when no file declares a name twice in one kind
(`loses_none_iff`). `repr` stands for the `repr` of a list of strings.
-/

namespace Intelliqx.Graph

open Okf (Datetimes Embedder Index OKFConcept)
open Py (Alias PyException Stmt)

-- ---------------------------------------------------------------------------
-- What a file declares
-- ---------------------------------------------------------------------------

namespace PythonParser

def importedName (a : Alias) : String := (Py.truthy a.asname).getD a.name

mutual
/-- The kinds and names of imports, classes and functions, in the order in which they begin. -/
def declared (inClass : Bool) : Stmt → List (String × String)
  | .functionDef header body =>
    (if inClass then "method" else "function", header.name) :: declaredAll false body
  | .classDef header body => ("class", header.name) :: declaredAll true body
  | .import names _ _ => names.map fun a => ("import", importedName a)
  | .importFrom _ names _ _ _ => names.map fun a => ("import", importedName a)
  | .expr _ => []
  | .other children => declaredAll inClass children
def declaredAll (inClass : Bool) : List Stmt → List (String × String)
  | [] => []
  | s :: ss => declared inClass s ++ declaredAll inClass ss
end

/-- The kind and the name of a scope. -/
def ScopeFrame.scope (frame : ScopeFrame) : FrameKind × String := (frame.kind, frame.name)

/-- The walk emitted entities of these kinds and names and left the scopes as they were. -/
structure Declares (src : Source) (items : List (String × String)) (v v' : FileVisitor) : Prop where
  scopes : v'.scopeStack.map ScopeFrame.scope = v.scopeStack.map ScopeFrame.scope
  emits : ∃ new, v'.entities = v.entities ++ new ∧ new.map (fun e => (e.entityType, e.name)) = items ∧
    ∀ e ∈ new, e.filePath = src.fileStr

section
variable {src : Source} {names : List String} {items items' : List (String × String)} {v v' v'' : FileVisitor}

theorem scope_noteAll (names : List String) (frames : List ScopeFrame) :
    (noteAll names frames).map ScopeFrame.scope = frames.map ScopeFrame.scope := by
  have hnote : ∀ name frames, (noteCall name frames).map ScopeFrame.scope = frames.map ScopeFrame.scope := by
    intro name frames
    induction frames with
    | nil => rfl
    | cons frame rest ih => cases hk : frame.kind <;> simp [noteCall, ScopeFrame.scope, hk, ih]
  induction names generalizing frames with
  | nil => rfl
  | cons name names ih => exact (ih _).trans (hnote name frames)

theorem Noted.declares (h : Noted names v v') : Declares src [] v v' := by
  have hbare : ∀ frames : List ScopeFrame, (frames.map ScopeFrame.bare).map ScopeFrame.scope =
      frames.map ScopeFrame.scope := fun frames => by simp [Function.comp_def, ScopeFrame.bare, ScopeFrame.scope]
  refine ⟨?_, [], by rw [h.1, List.append_nil], rfl, by simp⟩
  rw [← hbare, h.2, scope_noteAll, hbare]

theorem Declares.trans (h : Declares src items v v') (h' : Declares src items' v' v'') :
    Declares src (items ++ items') v v'' := by
  obtain ⟨hscopes, new, hnew, hitems, hfile⟩ := h
  obtain ⟨hscopes', new', hnew', hitems', hfile'⟩ := h'
  refine ⟨hscopes'.trans hscopes, new ++ new', ?_, ?_, ?_⟩
  · rw [hnew', hnew, List.append_assoc]
  · rw [List.map_append, hitems, hitems']
  · exact List.forall_mem_append.mpr ⟨hfile, hfile'⟩

theorem Declares.scope (h : Declares src items v v') :
    v'.scopeStack.head?.map ScopeFrame.scope = v.scopeStack.head?.map ScopeFrame.scope := by
  rw [← List.head?_map, ← List.head?_map, h.scopes]

theorem Declares.parentKind (h : Declares src items v v') : parentKind v' = PythonParser.parentKind v := by
  have hkind := congrArg (Option.map Prod.fst) h.scope
  rwa [Option.map_map, Option.map_map] at hkind

theorem declares_emit (entity : ParsedEntity) (h : entity.filePath = src.fileStr) (v : FileVisitor) :
    Declares src [(entity.entityType, entity.name)] v (emit entity v) :=
  ⟨rfl, [entity], rfl, rfl, by simpa using h⟩

theorem declares_foldl {step : FileVisitor → Alias → FileVisitor} {item : Alias → String × String}
    (hstep : ∀ v a, Declares src [item a] v (step v a)) (as : List Alias) (v : FileVisitor) :
    Declares src (as.map item) v (as.foldl step v) := by
  induction as generalizing v with
  | nil => exact (Noted.refl v).declares
  | cons a as ih => exact (hstep v a).trans (ih _)

theorem declares_visitAlias (lineno : Int) (endLineno : Option Int) (v : FileVisitor) (a : Alias) :
    Declares src [("import", importedName a)] v (visitAlias src lineno endLineno v a) := by
  have hemit : Declares src [("import", importedName a)] v
      (emit (importEntity src a a.name false 0 lineno endLineno) v) :=
    declares_emit (importEntity src a a.name false 0 lineno endLineno) rfl v
  exact hemit.trans (noted_addReference _ _).declares

theorem declares_visitImportFrom (source : Option String) (as : List Alias) (level : Nat) (lineno : Int)
    (endLineno : Option Int) (v : FileVisitor) :
    Declares src (as.map fun a => ("import", importedName a)) v
      (visitImportFrom src source as level lineno endLineno v) := by
  have hname : ∀ v a, Declares src [("import", importedName a)] v
      (emit (importEntity src a (source.getD "") true level lineno endLineno) v) :=
    fun v a => declares_emit (importEntity src a (source.getD "") true level lineno endLineno) rfl v
  have hnames := declares_foldl hname as v
  unfold visitImportFrom
  simp only
  split
  · exact hnames
  · rw [← List.append_nil (as.map _)]
    exact hnames.trans (noted_addReference _ _).declares

/-- A definition emits its entity before those of its body. -/
theorem declares_definition {entity : ParsedEntity} {kind : FrameKind} (hfile : entity.filePath = src.fileStr)
    (h : Declares src items (enter entity kind v) v') :
    Declares src ((entity.entityType, entity.name) :: items) v (leave entity v.entities.length v') := by
  obtain ⟨hscopes, new, hnew, hitems, hfiles⟩ := h
  obtain ⟨frame, rest, hs, -, hrest⟩ := List.map_eq_cons_iff.mp hscopes
  rw [leave_enter hnew hs]
  refine ⟨hrest, _, rfl, ?_, ?_⟩
  · rw [List.map_cons, hitems]
    rfl
  · exact List.forall_mem_cons.mpr ⟨hfile, hfiles⟩

mutual
theorem declares_visitStmt : (s : Stmt) → (v : FileVisitor) →
    Declares src (declared (parentKind v = some .class) s) v (visitStmt src s v)
  | .functionDef header body, v => by
    have hbody := declares_visitStmts body (enter (functionEntity src header body v) .function v)
    simpa [declared, visitStmt, functionEntity, parentKind, enter] using declares_definition rfl hbody
  | .classDef header body, v => by
    have hbody := declares_visitStmts body (enter (classEntity src header v) .class v)
    simpa [declared, visitStmt, classEntity, parentKind, enter] using declares_definition rfl hbody
  | .import names lineno endLineno, v => declares_foldl (declares_visitAlias lineno endLineno) names v
  | .importFrom source names level lineno endLineno, v =>
    declares_visitImportFrom source names level lineno endLineno v
  | .expr e, v => (noted_visitExpr e v).declares
  | .other children, v => declares_visitStmts children v
theorem declares_visitStmts : (ss : List Stmt) → (v : FileVisitor) →
    Declares src (declaredAll (parentKind v = some .class) ss) v (visitStmts src ss v)
  | [], v => (Noted.refl v).declares
  | s :: ss, v => by
    have h := declares_visitStmt s v
    have hrest := declares_visitStmts ss (visitStmt src s v)
    rw [h.parentKind] at hrest
    exact h.trans hrest
end

/-- The entities of a file are its imports, classes and functions, in the order of the file. -/
theorem parseFile_declares (src : Source) (tree : List Stmt) :
    (parseFile src tree).map (fun e => (e.entityType, e.name)) = declaredAll false tree ∧
      ∀ e ∈ parseFile src tree, e.filePath = src.fileStr := by
  obtain ⟨-, new, hnew, hitems, hfiles⟩ : Declares src _ _ _ := declares_visitStmts tree {}
  rw [parseFile, hnew]
  exact ⟨hitems, hfiles⟩

end

/-- A file and its tree. No name of Python has a colon. -/
structure SourceFile where
  src : Source
  tree : List Stmt
  names : ∀ d ∈ declaredAll false tree, ':' ∉ d.2.toList

/-- The entities of the files, one file after the other. -/
def parsedEntities (files : List SourceFile) : List ParsedEntity :=
  files.flatMap fun f => parseFile f.src f.tree

/-- The file, the kind and the name of what the files declare. -/
def declarations (files : List SourceFile) : List (String × String × String) :=
  files.flatMap fun f => (declaredAll false f.tree).map fun d => (f.src.fileStr, d)

mutual
theorem kind_of_mem_declared : ∀ (s : Stmt) (inClass : Bool), ∀ d ∈ declared inClass s, ':' ∉ d.1.toList
  | .functionDef _ body, inClass, d, hd => by
    rcases List.mem_cons.mp hd with rfl | hd
    · cases inClass
      · change ':' ∉ "function".toList
        decide
      · change ':' ∉ "method".toList
        decide
    · exact kind_of_mem_declaredAll body false d hd
  | .classDef _ body, _, d, hd => by
    rcases List.mem_cons.mp hd with rfl | hd
    · change ':' ∉ "class".toList
      decide
    · exact kind_of_mem_declaredAll body true d hd
  | .import names _ _, _, d, hd => by
    obtain ⟨a, -, rfl⟩ := List.mem_map.mp hd
    change ':' ∉ "import".toList
    decide
  | .importFrom _ names _ _ _, _, d, hd => by
    obtain ⟨a, -, rfl⟩ := List.mem_map.mp hd
    change ':' ∉ "import".toList
    decide
  | .expr _, _, _, hd => by cases hd
  | .other children, inClass, d, hd => kind_of_mem_declaredAll children inClass d hd
theorem kind_of_mem_declaredAll : ∀ (ss : List Stmt) (inClass : Bool), ∀ d ∈ declaredAll inClass ss,
    ':' ∉ d.1.toList
  | [], _, _, hd => by cases hd
  | s :: ss, inClass, d, hd => by
    rcases List.mem_append.mp hd with hd | hd
    · exact kind_of_mem_declared s inClass d hd
    · exact kind_of_mem_declaredAll ss inClass d hd
end

theorem map_parsedEntities (files : List SourceFile) :
    (parsedEntities files).map (fun e => (e.filePath, e.entityType, e.name)) = declarations files := by
  rw [parsedEntities, declarations, List.map_flatMap]
  congr 1
  funext f
  obtain ⟨hitems, hfiles⟩ := parseFile_declares f.src f.tree
  rw [← hitems, List.map_map]
  refine List.map_congr_left fun e he => ?_
  rw [hfiles e he]
  rfl

theorem colons_of_mem_parsedEntities {files : List SourceFile} (he : e ∈ parsedEntities files) :
    ':' ∉ e.entityType.toList ∧ ':' ∉ e.name.toList := by
  obtain ⟨f, -, he⟩ := List.mem_flatMap.mp he
  have hd : (e.entityType, e.name) ∈ declaredAll false f.tree := by
    rw [← (parseFile_declares f.src f.tree).1]
    exact List.mem_map_of_mem he
  exact ⟨kind_of_mem_declaredAll f.tree false _ hd, f.names _ hd⟩

end PythonParser

-- ---------------------------------------------------------------------------
-- One concept for each entity
-- ---------------------------------------------------------------------------

open PythonParser

def conceptId (e : ParsedEntity) : String := "code::" ++ e.filePath ++ "::" ++ e.entityType ++ "::" ++ e.name

section
variable (repr : List String → String)

def extraFields (e : ParsedEntity) : Okf.Attrs :=
  Dict.ofList [("source", .str "ast-graph"), ("file_path", .str e.filePath), ("line_start", .int e.lineStart),
    ("line_end", .int e.lineEnd), ("parent", .str ((Py.truthy e.parent).getD "")), ("language", .str e.language),
    ("is_async", .bool e.isAsync), ("is_generator", .bool e.isGenerator)]

def entityConcept (e : ParsedEntity) : OKFConcept τ where
  conceptId := conceptId e
  frontmatter :=
    { type := Py.strip ("code." ++ e.entityType)
      title := some e.name
      description := some (e.entityType ++ " " ++ e.name ++ " in " ++ e.filePath)
      tags := [e.filePath, e.entityType, (Py.truthy e.parent).getD ""].filter (· ≠ "")
      extraFields := extraFields e
      stripped := Py.strip_strip _ }
  body := "# " ++ e.name ++ "\n\n`" ++ e.entityType ++ "` declared in `" ++ e.filePath ++ "` at lines " ++
    toString e.lineStart ++ "-" ++ toString e.lineEnd ++ ".\n\n```\n" ++ repr e.parameters ++ "\n```"

def ingestGraph (dt : Datetimes τ) (embedder : Embedder) (entities : List ParsedEntity) (index : Index) :
    Except PyException (Nat × Index) :=
  entities.foldlM (fun (written, index) e => do
    let index ← index.write dt embedder (entityConcept repr e)
    .ok (written + 1, index)) (0, index)

end

section
variable {repr : List String → String} {dt : Datetimes τ} {embedder : Embedder} {entities : List ParsedEntity}

theorem ingestGraph_eq (idx : Index) : ingestGraph repr dt embedder entities idx =
    ((entities.map (entityConcept repr)).foldlM (Index.write dt embedder) idx).map fun idx' =>
      (entities.length, idx') := by
  have hcount : ∀ written, entities.foldlM (fun (written, idx) e => do
        let idx ← Index.write dt embedder idx (entityConcept repr e)
        .ok (written + 1, idx)) (written, idx) =
      ((entities.map (entityConcept repr)).foldlM (Index.write dt embedder) idx).map fun idx' =>
        (written + entities.length, idx') := by
    induction entities generalizing idx with
    | nil => intro written; rfl
    | cons e entities ih =>
      intro written
      cases hw : Index.write dt embedder idx (entityConcept repr e) with
      | error exc => simp [hw, Except.map]
      | ok idx₁ =>
        have hrest := ih idx₁ (written + 1)
        simp only [List.foldlM_cons, List.map_cons, hw, bind_ok_eq]
        rw [hrest, List.length_cons, Nat.add_assoc, Nat.add_comm 1]
  simpa [ingestGraph] using hcount 0

theorem conceptId_inj {e e' : ParsedEntity} (he : ':' ∉ e.entityType.toList ∧ ':' ∉ e.name.toList)
    (he' : ':' ∉ e'.entityType.toList ∧ ':' ∉ e'.name.toList) (h : conceptId e = conceptId e') :
    (e.filePath, e.entityType, e.name) = (e'.filePath, e'.entityType, e'.name) := by
  obtain ⟨hkind, hname⟩ := CallGraph.makeNodeId_inj he.2 he'.2 h
  obtain ⟨hfile, hkind⟩ := CallGraph.makeNodeId_inj he.1 he'.1 hkind
  have hpath : e.filePath = e'.filePath := String.toList_inj.mp (by simpa using congrArg String.toList hfile)
  rw [hname, hkind, hpath]

theorem extraFields_representable (e : ParsedEntity) (hlines : Py.Short e.lineStart ∧ Py.Short e.lineEnd) :
    (extraFields e).toPy.Representable := by
  have hkeys : (extraFields e).entries.map Prod.fst =
      ["source", "file_path", "line_start", "line_end", "parent", "language", "is_async", "is_generator"] := by
    rw [extraFields, Dict.entries_ofList _ (by simp)]
    rfl
  unfold Okf.Attrs.toPy Py.PyValue.Representable
  refine ⟨?_, ?_⟩
  · rw [extraFields, Dict.entries_ofList _ (by simp)]
    simpa [Py.EntriesRepresentable, Py.PyValue.Representable] using hlines
  · have hstr : (Py.PyKey.str).Injective := fun _ _ h => Py.PyKey.str.inj h
    rw [List.map_map]
    change ((extraFields e).entries.map (Py.PyKey.str ∘ Prod.fst)).Nodup
    rw [← List.map_map, List.nodup_map_iff hstr, hkeys]
    decide

/-- Where the embedder answers every text with a vector of its size and the
lines have numbers that JSON can write, all entities are written and counted. -/
theorem ingestGraph_isOk (h : ∀ text, ∃ vec, embedder.embed text = .ok vec ∧ vec.length = embedder.dim)
    (repr : List String → String) (dt : Datetimes τ) (entities : List ParsedEntity)
    (hlines : ∀ e ∈ entities, Py.Short e.lineStart ∧ Py.Short e.lineEnd) :
    ∃ idx, ingestGraph repr dt embedder entities .empty = .ok (entities.length, idx) := by
  have hwritten : ∀ c ∈ entities.map (entityConcept (τ := τ) repr), ∃ tagsJson metadataJson vec,
      Index.Written dt embedder c tagsJson metadataJson vec := by
    intro c hc
    obtain ⟨e, he, rfl⟩ := List.mem_map.mp hc
    obtain ⟨tagsJson, htags, -⟩ := Py.jsonLoads_jsonDumps _
      (Okf.tags_representable (entityConcept (τ := τ) repr e).frontmatter.tags)
    obtain ⟨metadataJson, hmetadata, -⟩ := Py.jsonLoads_jsonDumps _ (extraFields_representable e (hlines e he))
    obtain ⟨vec, hvec⟩ : ∃ vec, Index.embedding embedder
        (Index.embeddedText (entityConcept (τ := τ) repr e)) = .ok vec := by
      unfold Index.embedding
      split
      · exact ⟨none, rfl⟩
      · obtain ⟨vec, hvec, hdim⟩ := h (Index.embeddedText (entityConcept (τ := τ) repr e))
        exact ⟨some vec, by simp [hvec, hdim]⟩
    exact ⟨tagsJson, metadataJson, vec, htags, hmetadata, hvec⟩
  obtain ⟨idx, hidx⟩ := Index.writeAll_isOk.mpr hwritten
  exact ⟨idx, by rw [ingestGraph_eq]; exact congrArg (Except.map _) hidx⟩

/-- No two entities have one id, and the index holds as many concepts as were counted. -/
structure LosesNone (repr : List String → String) (dt : Datetimes τ) (embedder : Embedder)
    (entities : List ParsedEntity) : Prop where
  distinct : (entities.map conceptId).Nodup
  counted : ∀ n idx, ingestGraph repr dt embedder entities .empty = .ok (n, idx) → idx.concepts.length = n

theorem counted_of_distinct {n : Nat} {idx : Index} (h : (entities.map conceptId).Nodup)
    (hingest : ingestGraph repr dt embedder entities .empty = .ok (n, idx)) : idx.concepts.length = n := by
  rw [ingestGraph_eq] at hingest
  cases hwrites : (entities.map (entityConcept repr)).foldlM (Index.write dt embedder) .empty with
  | error exc => rw [hwrites] at hingest; cases hingest
  | ok idx' =>
    rw [hwrites] at hingest
    cases hingest
    have hids : (entities.map (entityConcept (τ := τ) repr)).map OKFConcept.conceptId =
        entities.map conceptId := by
      rw [List.map_map]
      rfl
    have hperm : (idx.concepts.map Okf.ConceptRow.conceptId).Perm (entities.map conceptId) := by
      refine (List.perm_ext_iff_of_nodup idx.primaryKey h).mpr fun id => ?_
      rw [Index.mem_conceptIds_writeAll hwrites, hids]
    simpa using hperm.length_eq

/-- Ingesting loses no entity exactly when no file declares a name twice in one kind. -/
theorem loses_none_iff (repr : List String → String) (dt : Datetimes τ) (embedder : Embedder)
    (files : List SourceFile) :
    LosesNone repr dt embedder (parsedEntities files) ↔ (declarations files).Nodup := by
  rw [← map_parsedEntities]
  constructor
  · intro h
    refine List.Nodup.of_map (fun d => "code::" ++ d.1 ++ "::" ++ d.2.1 ++ "::" ++ d.2.2) ?_
    rw [List.map_map]
    exact h.distinct
  · intro h
    have hdistinct : ((parsedEntities files).map conceptId).Nodup := by
      refine List.Nodup.map_on ?_ (List.Nodup.of_map _ h)
      intro e he e' he' hid
      have hkey := conceptId_inj (colons_of_mem_parsedEntities he) (colons_of_mem_parsedEntities he') hid
      exact List.inj_on_of_nodup_map h he he' hkey
    exact ⟨hdistinct, fun n idx => counted_of_distinct hdistinct⟩

def runMethod (lineno : Int) : Stmt := .functionDef { name := "run", lineno := lineno } []

/-- Two classes of `m.py` that have a method `run` each. -/
def twoClasses : SourceFile where
  src := ⟨"m.py", fun _ => none⟩
  tree := [.classDef { name := "A", lineno := 1 } [runMethod 2],
    .classDef { name := "B", lineno := 4 } [runMethod 5]]
  names := by decide

/-- Four entities are counted, and three concepts are held. -/
theorem method_replaced :
    ¬ LosesNone (fun _ => "[]") Okf.isoTexts .unit (parsedEntities [twoClasses]) ∧
      (ingestGraph (fun _ => "[]") Okf.isoTexts .unit (parsedEntities [twoClasses]) .empty).map
        (fun r => (r.1, r.2.concepts.length)) = .ok (4, 3) := by
  refine ⟨fun h => ?_, by with_unfolding_all rfl⟩
  have hids : ¬ ((parsedEntities [twoClasses]).map conceptId).Nodup := by decide
  exact hids h.distinct

end

end Intelliqx.Graph
