import Intelliqx.Graph.PythonParser

/-!
# Generators

Python's scopes, read off a tree: `Stmt.yieldSites` lists every `yield` below
a function body with the scope it is evaluated in. `contains_direct_yield`
skips whole definitions, lambdas and generator expressions, although each has
parts that are evaluated outside of it, and it looks into the other
comprehensions; `direct_yield_iff` says when neither shows.
-/

namespace Intelliqx.Py

/-- Where a `yield` stands, seen from a function body: whether it is evaluated
in the scope of the body, and whether it is below a definition, a lambda or a
generator expression. -/
structure YieldSite where
  own : Bool
  cut : Bool
  deriving DecidableEq, Repr

namespace YieldSite

/-- A part of a definition, lambda or generator expression that is evaluated outside of it. -/
def header (site : YieldSite) : YieldSite := { site with cut := true }

/-- The part that is evaluated inside. -/
def inner : YieldSite := ⟨false, true⟩

def comprehension (site : YieldSite) : YieldSite := { site with own := false }

end YieldSite

/-- How an expression is evaluated. Of the first clause of a comprehension the
iterable is evaluated outside, and the targets and conditions inside. -/
inductive Place
  | expression (site : YieldSite)
  | firstClause (outside inside : YieldSite)

namespace Place

def site : Place → YieldSite
  | .expression site => site
  | .firstClause _ inside => inside

def sites : Place → List YieldSite
  | .expression site => [site]
  | .firstClause outside inside => [outside, inside]

end Place

/-- The places of the fields of an expression: of a lambda the parameters and
the body, of a comprehension the element (of a dictionary the key and the
value) and the clauses. -/
def ExprKind.child (site : YieldSite) : ExprKind → Nat → Place
  | .lambda, 0 => .expression site.header
  | .lambda, _ => .expression .inner
  | .generatorExp, 1 => .firstClause site.header .inner
  | .generatorExp, _ => .expression .inner
  | .listComp, 1 => .firstClause site site.comprehension
  | .listComp, _ => .expression site.comprehension
  | .setComp, 1 => .firstClause site site.comprehension
  | .setComp, _ => .expression site.comprehension
  | .dictComp, 2 => .firstClause site site.comprehension
  | .dictComp, _ => .expression site.comprehension
  | .yield, _ => .expression site
  | .yieldFrom, _ => .expression site
  | .other, _ => .expression site

/-- Of a clause the fields are the target, the iterable and the conditions. -/
def Place.child : Place → ExprKind → Nat → Place
  | .firstClause outside inside, .other, i => .expression (if i = 1 then outside else inside)
  | place, kind, i => kind.child place.site i

def ExprKind.Yields (kind : ExprKind) : Prop := kind = .yield ∨ kind = .yieldFrom

instance (kind : ExprKind) : Decidable kind.Yields := inferInstanceAs (Decidable (_ ∨ _))

mutual
def Expr.yieldSites : Place → Expr → List YieldSite
  | _, .name _ => []
  | place, .attribute value _ => value.yieldSites (.expression place.site)
  | place, .call func args keywords =>
    func.yieldSites (.expression place.site) ++ Expr.yieldSitesAll (fun _ => .expression place.site) args ++
      Expr.yieldSitesAll (fun _ => .expression place.site) keywords
  | place, .other kind children =>
    (if kind.Yields then [place.site] else []) ++ Expr.yieldSitesAll (place.child kind) children
def Expr.yieldSitesAll : (Nat → Place) → List Expr → List YieldSite
  | _, [] => []
  | places, e :: es => e.yieldSites (places 0) ++ Expr.yieldSitesAll (fun i => places (i + 1)) es
end

/-- What is evaluated where the function is defined. -/
def FunctionHeader.outside (h : FunctionHeader) : List Expr :=
  h.decoratorList ++ h.args.exprs ++ h.returns.toList

def ClassHeader.outside (h : ClassHeader) : List Expr := h.decoratorList ++ h.bases ++ h.keywords.map Prod.snd

mutual
def Stmt.yieldSites (site : YieldSite) : Stmt → List YieldSite
  | .functionDef header body =>
    Expr.yieldSitesAll (fun _ => .expression site.header) header.outside ++
      Expr.yieldSitesAll (fun _ => .expression .inner) header.typeParams ++ Stmt.yieldSitesAll .inner body
  | .classDef header body =>
    Expr.yieldSitesAll (fun _ => .expression site.header) header.outside ++
      Expr.yieldSitesAll (fun _ => .expression .inner) header.typeParams ++ Stmt.yieldSitesAll .inner body
  | .import .. => []
  | .importFrom .. => []
  | .expr e => e.yieldSites (.expression site)
  | .other children => Stmt.yieldSitesAll site children
def Stmt.yieldSitesAll (site : YieldSite) : List Stmt → List YieldSite
  | [] => []
  | s :: ss => s.yieldSites site ++ Stmt.yieldSitesAll site ss
end

/-- The sites of a function body. -/
def bodyYields (body : List Stmt) : List YieldSite := Stmt.yieldSitesAll ⟨true, false⟩ body

end Intelliqx.Py

namespace Intelliqx.Graph.PythonParser

open Py (Expr ExprKind FunctionHeader Place Stmt YieldSite bodyYields)

-- ---------------------------------------------------------------------------
-- Below a cut
-- ---------------------------------------------------------------------------

/-- Whether the walk of `_YieldSearcher` is still there. -/
def Cut (c : Bool) (place : Place) : Prop := ∀ site ∈ place.sites, site.cut = c

@[simp] theorem cut_expression : Cut c (.expression site) ↔ site.cut = c := by simp [Cut, Place.sites]

@[simp] theorem cut_firstClause : Cut c (.firstClause outside inside) ↔ outside.cut = c ∧ inside.cut = c := by
  simp [Cut, Place.sites]

theorem Cut.site (h : Cut c place) : place.site.cut = c := by
  cases place with
  | expression site => exact cut_expression.mp h
  | firstClause outside inside => exact (cut_firstClause.mp h).2

/-- What lies below these kinds is out of the walk. -/
def Cuts (kind : ExprKind) : Prop := kind = .lambda ∨ kind = .generatorExp

instance (kind : ExprKind) : Decidable (Cuts kind) := inferInstanceAs (Decidable (_ ∨ _))

theorem cut_kind (h : site.cut = c) (kind : ExprKind) (i : Nat) :
    Cut (c || decide (Cuts kind)) (kind.child site i) := by
  unfold ExprKind.child
  split <;> simp_all [Cuts, YieldSite.header, YieldSite.inner, YieldSite.comprehension]

theorem Cut.child (h : Cut c place) (kind : ExprKind) (i : Nat) :
    Cut (c || decide (Cuts kind)) (place.child kind i) := by
  unfold Place.child
  split
  · rw [cut_firstClause] at h
    have hc : (c || decide (Cuts .other)) = c := Bool.or_false c
    rw [hc, cut_expression]
    split
    · exact h.1
    · exact h.2
  · exact cut_kind h.site _ i

mutual
theorem cut_of_mem_yieldSites : ∀ (e : Expr) {place : Place}, Cut true place →
    ∀ y ∈ e.yieldSites place, y.cut = true
  | .name _, _, _, y, hy => by cases hy
  | .attribute value _, _, h, y, hy => cut_of_mem_yieldSites value (cut_expression.mpr h.site) y hy
  | .call func args keywords, place, h, y, hy => by
    have hsite : Cut true (.expression place.site) := cut_expression.mpr h.site
    rw [Expr.yieldSites, List.mem_append, List.mem_append] at hy
    rcases hy with (hy | hy) | hy
    · exact cut_of_mem_yieldSites func hsite y hy
    · exact cut_of_mem_yieldSitesAll args (fun _ => hsite) y hy
    · exact cut_of_mem_yieldSitesAll keywords (fun _ => hsite) y hy
  | .other kind children, place, h, y, hy => by
    rw [Expr.yieldSites, List.mem_append] at hy
    rcases hy with hy | hy
    · split at hy
      · rw [List.mem_singleton.mp hy]
        exact h.site
      · cases hy
    · exact cut_of_mem_yieldSitesAll children (h.child kind) y hy
theorem cut_of_mem_yieldSitesAll : ∀ (es : List Expr) {places : Nat → Place}, (∀ i, Cut true (places i)) →
    ∀ y ∈ Expr.yieldSitesAll places es, y.cut = true
  | [], _, _, y, hy => by cases hy
  | e :: es, places, h, y, hy => by
    rw [Expr.yieldSitesAll, List.mem_append] at hy
    rcases hy with hy | hy
    · exact cut_of_mem_yieldSites e (h 0) y hy
    · exact cut_of_mem_yieldSitesAll es (fun i => h (i + 1)) y hy
end

theorem cut_of_mem_definition {site : YieldSite} {outside typeParams : List Expr} {inside : List YieldSite}
    (h : ∀ y ∈ inside, y.cut = true) :
    ∀ y ∈ Expr.yieldSitesAll (fun _ => .expression site.header) outside ++
      Expr.yieldSitesAll (fun _ => .expression .inner) typeParams ++ inside, y.cut = true := by
  intro y hy
  rw [List.mem_append, List.mem_append] at hy
  rcases hy with (hy | hy) | hy
  · exact cut_of_mem_yieldSitesAll outside (fun _ => cut_expression.mpr rfl) y hy
  · exact cut_of_mem_yieldSitesAll typeParams (fun _ => cut_expression.mpr rfl) y hy
  · exact h y hy

mutual
theorem cut_of_mem_stmtSites : ∀ s : Stmt, ∀ y ∈ s.yieldSites .inner, y.cut = true
  | .functionDef header body, y, hy => cut_of_mem_definition (cut_of_mem_stmtSitesAll body) y hy
  | .classDef header body, y, hy => cut_of_mem_definition (cut_of_mem_stmtSitesAll body) y hy
  | .import .., _, hy => by cases hy
  | .importFrom .., _, hy => by cases hy
  | .expr e, y, hy => cut_of_mem_yieldSites e (cut_expression.mpr rfl) y hy
  | .other children, y, hy => cut_of_mem_stmtSitesAll children y hy
theorem cut_of_mem_stmtSitesAll : ∀ ss : List Stmt, ∀ y ∈ Stmt.yieldSitesAll .inner ss, y.cut = true
  | [], _, hy => by cases hy
  | s :: ss, y, hy => by
    rw [Stmt.yieldSitesAll, List.mem_append] at hy
    rcases hy with hy | hy
    · exact cut_of_mem_stmtSites s y hy
    · exact cut_of_mem_stmtSitesAll ss y hy
end

-- ---------------------------------------------------------------------------
-- What the walk comes to
-- ---------------------------------------------------------------------------

theorem exists_uncut_append {xs ys : List YieldSite} :
    (∃ y ∈ xs ++ ys, y.cut = false) ↔ (∃ y ∈ xs, y.cut = false) ∨ ∃ y ∈ ys, y.cut = false := by
  simp only [List.mem_append, or_and_right, exists_or]

theorem not_exists_uncut {xs : List YieldSite} (h : ∀ y ∈ xs, y.cut = true) : ¬ ∃ y ∈ xs, y.cut = false := by
  rintro ⟨y, hy, hcut⟩
  rw [h y hy] at hcut
  cases hcut

mutual
theorem exprYields_iff : ∀ (e : Expr) {place : Place}, Cut false place →
    (exprYields e = true ↔ ∃ y ∈ e.yieldSites place, y.cut = false)
  | .name _, _, _ => by simp [exprYields, Expr.yieldSites]
  | .attribute value _, _, h => exprYields_iff value (cut_expression.mpr h.site)
  | .call func args keywords, place, h => by
    have hsite : Cut false (.expression place.site) := cut_expression.mpr h.site
    rw [exprYields, Expr.yieldSites, exists_uncut_append, exists_uncut_append, Bool.or_eq_true,
      Bool.or_eq_true, exprYields_iff func hsite, anyExprYields_iff args fun _ => hsite,
      anyExprYields_iff keywords fun _ => hsite]
  | .other kind children, place, h => by
    rw [Expr.yieldSites, exists_uncut_append]
    by_cases hyields : kind.Yields
    · have hhere : ∃ y ∈ [place.site], y.cut = false := ⟨_, List.mem_singleton_self _, h.site⟩
      rw [if_pos hyields]
      rcases hyields with rfl | rfl
      · exact iff_of_true rfl (.inl hhere)
      · exact iff_of_true rfl (.inl hhere)
    · rw [if_neg hyields]
      by_cases hcuts : Cuts kind
      · have hchild := h.child kind
        rw [decide_eq_true hcuts, Bool.or_true] at hchild
        have hnone := not_exists_uncut (cut_of_mem_yieldSitesAll children hchild)
        rcases hcuts with rfl | rfl <;> simp [exprYields, hnone]
      · have hchild := h.child kind
        rw [decide_eq_false hcuts, Bool.or_false] at hchild
        have hall := anyExprYields_iff children hchild
        cases kind <;> simp_all [exprYields, Cuts, ExprKind.Yields]
theorem anyExprYields_iff : ∀ (es : List Expr) {places : Nat → Place}, (∀ i, Cut false (places i)) →
    (anyExprYields es = true ↔ ∃ y ∈ Expr.yieldSitesAll places es, y.cut = false)
  | [], _, _ => by simp [anyExprYields, Expr.yieldSitesAll]
  | e :: es, places, h => by
    rw [anyExprYields, Expr.yieldSitesAll, exists_uncut_append, Bool.or_eq_true, exprYields_iff e (h 0),
      anyExprYields_iff es fun i => h (i + 1)]
end

mutual
theorem stmtYields_iff (h : site.cut = false) : ∀ s : Stmt,
    (stmtYields s = true ↔ ∃ y ∈ s.yieldSites site, y.cut = false)
  | .functionDef header body =>
    iff_of_false Bool.false_ne_true (not_exists_uncut (cut_of_mem_definition (cut_of_mem_stmtSitesAll body)))
  | .classDef header body =>
    iff_of_false Bool.false_ne_true (not_exists_uncut (cut_of_mem_definition (cut_of_mem_stmtSitesAll body)))
  | .import .. => by simp [stmtYields, Stmt.yieldSites]
  | .importFrom .. => by simp [stmtYields, Stmt.yieldSites]
  | .expr e => exprYields_iff e (cut_expression.mpr h)
  | .other children => containsDirectYield_iff h children
theorem containsDirectYield_iff (h : site.cut = false) : ∀ body : List Stmt,
    (containsDirectYield body = true ↔ ∃ y ∈ Stmt.yieldSitesAll site body, y.cut = false)
  | [] => by simp [containsDirectYield, Stmt.yieldSitesAll]
  | s :: ss => by
    rw [containsDirectYield, Stmt.yieldSitesAll, exists_uncut_append, Bool.or_eq_true, stmtYields_iff h s,
      containsDirectYield_iff h ss]
end

/-- `contains_direct_yield` follows the scopes exactly when some `yield` of the
function's own scope stands outside of every definition, lambda and generator
expression, or else there is one in their decorators, bases, defaults and
iterables just if there is one inside a list, set or dictionary comprehension. -/
theorem direct_yield_iff (body : List Stmt) :
    (containsDirectYield body = true ↔ ∃ y ∈ bodyYields body, y.own = true) ↔
      (∃ y ∈ bodyYields body, y.own = true ∧ y.cut = false) ∨
        ((∃ y ∈ bodyYields body, y.own = true ∧ y.cut = true) ↔
          ∃ y ∈ bodyYields body, y.own = false ∧ y.cut = false) := by
  have hseen : containsDirectYield body = true ↔ (∃ y ∈ bodyYields body, y.own = true ∧ y.cut = false) ∨
      ∃ y ∈ bodyYields body, y.own = false ∧ y.cut = false := by
    have huncut : (⟨true, false⟩ : YieldSite).cut = false := rfl
    rw [containsDirectYield_iff huncut body, ← exists_or]
    refine exists_congr fun y => ?_
    cases y.own <;> simp [bodyYields]
  have hown : (∃ y ∈ bodyYields body, y.own = true) ↔ (∃ y ∈ bodyYields body, y.own = true ∧ y.cut = false) ∨
      ∃ y ∈ bodyYields body, y.own = true ∧ y.cut = true := by
    rw [← exists_or]
    refine exists_congr fun y => ?_
    cases y.cut <;> simp
  rw [hseen, hown]
  by_cases hdirect : ∃ y ∈ bodyYields body, y.own = true ∧ y.cut = false
  · simp only [hdirect, true_or]
  · simp only [hdirect, false_or]
    exact Iff.comm

/-- `@(yield)` over a definition makes its surroundings a generator. -/
def decoratedBody : List Stmt :=
  [.functionDef { name := "g", lineno := 2, decoratorList := [.other .yield []] } []]

theorem decorator_yield_missed :
    ¬ (containsDirectYield decoratedBody = true ↔ ∃ y ∈ bodyYields decoratedBody, y.own = true) := by
  decide

end Intelliqx.Graph.PythonParser
