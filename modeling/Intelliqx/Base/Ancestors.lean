import Intelliqx.Base.Digraph
import Mathlib.Data.Set.Finite.List
import Mathlib.Order.Preorder.Finite

/-!
# First and last nodes

Of finitely many nodes that reach each other in any way some come first: what
reaches them is reached back (`exists_first`). So every node is reached from a
node that no edge enters or from one that lies on a cycle (`exists_origin`),
and without cycles it is reached from a node that no edge enters.
-/

namespace Intelliqx.Digraph

variable {α : Type u} {edges : List (α × α)} {nodes : List α} {x y : α}

/-- No edge leads back to where it begins. -/
def Acyclic (edges : List (α × α)) : Prop := ∀ e ∈ edges, ¬ Reaches edges e.2 e.1

/-- No edge enters the node. -/
def IsSource (edges : List (α × α)) (x : α) : Prop := ∀ z, (z, x) ∉ edges

/-- The node is on a cycle. -/
def OnCycle (edges : List (α × α)) (x : α) : Prop := ∃ z, (z, x) ∈ edges ∧ Reaches edges x z

theorem Acyclic.not_onCycle (h : Acyclic edges) : ¬ OnCycle edges x := fun ⟨_, he, hr⟩ => h _ he hr

theorem Acyclic.antisymm (h : Acyclic edges) (hxy : Reaches edges x y) (hyx : Reaches edges y x) : x = y := by
  rcases hxy.cases_head with heq | ⟨z, he, hzy⟩
  · exact heq
  · exact absurd (hzy.trans hyx) (h _ he)

/-- Of finitely many elements some come first. -/
theorem exists_first_of_preorder {r : α → α → Prop} (hrefl : ∀ x, r x x)
    (htrans : ∀ {x y z}, r x y → r y z → r x z) (hx : x ∈ nodes) :
    ∃ y ∈ nodes, r y x ∧ ∀ z ∈ nodes, r z y → r y z := by
  have hfin : {y | y ∈ nodes ∧ r y x}.Finite := nodes.finite_toSet.subset (Set.sep_subset _ _)
  -- the fewer elements lie below one, the earlier it is
  obtain ⟨y, ⟨hy, hyx⟩, hmin⟩ := hfin.exists_minimalFor (fun y => {z | r z y}) _ ⟨x, hx, hrefl x⟩
  refine ⟨y, hy, hyx, fun z hz hzy => ?_⟩
  exact hmin ⟨hz, htrans hzy hyx⟩ (fun w hw => htrans hw hzy) (hrefl y)

theorem exists_first (edges : List (α × α)) (hx : x ∈ nodes) :
    ∃ y ∈ nodes, Reaches edges y x ∧ ∀ z ∈ nodes, Reaches edges z y → Reaches edges y z :=
  exists_first_of_preorder (fun _ => .refl) (fun h h' => h.trans h') hx

theorem exists_last (edges : List (α × α)) (hx : x ∈ nodes) :
    ∃ y ∈ nodes, Reaches edges x y ∧ ∀ z ∈ nodes, Reaches edges y z → Reaches edges z y :=
  exists_first_of_preorder (r := fun x y => Reaches edges y x) (fun _ => .refl) (fun h h' => h'.trans h) hx

/-- Every node has an origin: a source, or a node on a cycle. -/
theorem exists_origin (edges : List (α × α)) (x : α) :
    ∃ y, Reaches edges y x ∧ (IsSource edges y ∨ OnCycle edges y) := by
  have hx : x ∈ x :: edges.map Prod.fst := List.mem_cons_self
  obtain ⟨y, -, hyx, hfirst⟩ := exists_first edges hx
  refine ⟨y, hyx, ?_⟩
  by_cases hsource : IsSource edges y
  · exact .inl hsource
  · obtain ⟨z, he⟩ := not_forall_not.mp hsource
    exact .inr ⟨z, he, hfirst z (List.mem_cons_of_mem x (List.mem_map_of_mem (f := Prod.fst) he)) (.single he)⟩

end Intelliqx.Digraph
