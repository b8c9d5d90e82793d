import Intelliqx.Base.StableSort
import Intelliqx.Graph.Duplicates

/-!
# The signature and the order of the edges

`subgraph_signature` sorts the edges by their ends and writes their types down
too, so parallel edges of different types keep the order of the layer's list:
the signature is one of the subgraph only where there are no such edges
(`signature_order_free_iff`).
-/

namespace Intelliqx.Graph

/-- Both ends lie in the subgraph. -/
def Inside (nodeIds : List String) (e : SGIREdge) : Prop := e.source ∈ nodeIds ∧ e.target ∈ nodeIds

instance (nodeIds : List String) : DecidablePred (Inside nodeIds) :=
  fun e => inferInstanceAs (Decidable (e.source ∈ nodeIds ∧ e.target ∈ nodeIds))

def sortKey (e : SGIREdge) : String ×ₗ String := toLex (e.source, e.target)

/-- What the signature shows of an edge. -/
def shown (e : SGIREdge) : String × String × EdgeType := (e.source, e.target, e.edgeType)

section
variable {l l' : SGIRGraph} {nodeIds nodeIds' : List String} {e f : SGIREdge} {nodeId : String}

theorem sortKey_eq_iff : sortKey e = sortKey f ↔ e.source = f.source ∧ e.target = f.target := by
  rw [sortKey, sortKey, toLex_inj, Prod.mk.injEq]

theorem EdgeType.value_injective : Function.Injective EdgeType.value := by
  intro s t h
  cases s <;> cases t <;> first | rfl | exact absurd h (by decide)

theorem sortedEdges_eq_sortBy (l : SGIRGraph) (nodeIds : List String) :
    sortedEdges l nodeIds = sortBy sortKey (l.edges.filter (Inside nodeIds ·)) := rfl

/-- Where only one element is looked for, its place does not matter. -/
theorem find?_of_perm {p : α → Bool} {m m' : List α} (hunique : ∀ a ∈ m, ∀ b ∈ m, p a → p b → a = b)
    (h : m'.Perm m) : m'.find? p = m.find? p := by
  cases ha : m.find? p with
  | none => exact List.find?_eq_none.mpr fun b hb => List.find?_eq_none.mp ha b (h.mem_iff.mp hb)
  | some a =>
    have hmem := List.mem_of_find?_eq_some ha
    cases hb : m'.find? p with
    | none => exact absurd (List.find?_some ha) (List.find?_eq_none.mp hb a (h.mem_iff.mpr hmem))
    | some b =>
      have hmem' := h.mem_iff.mp (List.mem_of_find?_eq_some hb)
      rw [hunique b hmem' a hmem (List.find?_some hb) (List.find?_some ha)]

/-- `node_map` does not depend on the order of nodes with distinct ids. -/
theorem typeLabel_of_perm (hnodup : l.nodeIds.Nodup) (hnodes : l'.nodes.Perm l.nodes) (nodeId : String) :
    typeLabel l' nodeId = typeLabel l nodeId := by
  have hunique : ∀ m ∈ l.nodes, ∀ n ∈ l.nodes, m.id = n.id → m = n := List.inj_on_of_nodup_map hnodup
  have hfind : l'.nodes.reverse.find? (fun n => n.id = nodeId) = l.nodes.reverse.find? (fun n => n.id = nodeId) := by
    refine find?_of_perm (fun m hm n hn hmid hnid => ?_) ((List.reverse_perm _).trans
      (hnodes.trans (List.reverse_perm _).symm))
    have hid := (of_decide_eq_true hmid).trans (of_decide_eq_true hnid).symm
    exact hunique m (List.mem_reverse.mp hm) n (List.mem_reverse.mp hn) hid
  rw [typeLabel, typeLabel, hfind]

theorem signatureParts_inj (h : signatureParts l e = signatureParts l' f) : shown e = shown f := by
  simp only [signatureParts, List.flatMap_cons, List.cons_append, List.cons.injEq] at h
  obtain ⟨-, hsource, htarget, htype, -⟩ := h
  rw [shown, shown, hsource, htarget, EdgeType.value_injective htype]

theorem signatureParts_congr (hlabel : ∀ x, typeLabel l' x = typeLabel l x) (h : shown e = shown f) :
    signatureParts l' e = signatureParts l f := by
  obtain ⟨hsource, hrest⟩ := Prod.mk.inj h
  obtain ⟨htarget, htype⟩ := Prod.mk.inj hrest
  simp only [signatureParts, hlabel, hsource, htarget, htype]

theorem map_eq_map_of {f f' : α → β} {g g' : α → γ} (h : ∀ a b, f a = f' b → g a = g' b) {m m' : List α}
    (hm : m.map f = m'.map f') : m.map g = m'.map g' := by
  induction m generalizing m' with
  | nil =>
    cases m' with
    | nil => rfl
    | cons _ _ => cases hm
  | cons a m ih =>
    cases m' with
    | nil => cases hm
    | cons b m' =>
      obtain ⟨hhead, htail⟩ := List.cons.inj hm
      rw [List.map_cons, List.map_cons, h a b hhead, ih htail]

/-- Where nodes have the same types, signatures are as equal as the edges they show. -/
theorem subgraphSignature_eq_iff (hlabel : ∀ x, typeLabel l' x = typeLabel l x) :
    subgraphSignature l' nodeIds' = subgraphSignature l nodeIds ↔
      (sortedEdges l' nodeIds').map shown = (sortedEdges l nodeIds).map shown := by
  have hparts : signatureParts l' = signatureParts l := funext fun e => signatureParts_congr hlabel rfl
  constructor
  · intro h
    have h := map_eq_of_flatMap_eq 8 (by decide) (fun _ => rfl) (fun _ => rfl) h
    exact map_eq_map_of (fun _ _ => signatureParts_inj) h
  · intro h
    have h := map_eq_map_of (fun _ _ => signatureParts_congr (l := l) fun _ => rfl) h
    rw [subgraphSignature, subgraphSignature, hparts, List.flatMap_def, List.flatMap_def, h]

/-- Every order of the edges of the subgraph comes from one of the layer's edges. -/
theorem exists_perm_filter {ys : List SGIREdge} (h : ys.Perm (l.edges.filter (Inside nodeIds ·))) :
    ∃ edges : List SGIREdge, edges.Perm l.edges ∧ edges.filter (Inside nodeIds ·) = ys := by
  refine ⟨ys ++ l.edges.filter (fun e => ¬ Inside nodeIds e), ?_, ?_⟩
  · have hsplit := List.filter_append_perm (fun e => decide (Inside nodeIds e)) l.edges
    simpa only [decide_not] using (h.append_right _).trans hsplit
  · have hinside : ys.filter (Inside nodeIds ·) = ys :=
      List.filter_eq_self.mpr fun e he => (List.mem_filter.mp (h.mem_iff.mp he)).2
    have hnone : (l.edges.filter (fun e => ¬ Inside nodeIds e)).filter (Inside nodeIds ·) = [] := by
      refine List.filter_eq_nil_iff.mpr fun e he => ?_
      simpa using (List.mem_filter.mp he).2
    rw [List.filter_append, hinside, hnone, List.append_nil]

end

/-- The signature is one of the subgraph, whatever the order of the lists, exactly if no two edges
between the same nodes of the subgraph have different types. -/
theorem signature_order_free_iff (l : SGIRGraph) (hnodup : l.nodeIds.Nodup) (nodeIds : List String) :
    (∀ nodes edges nodeIds', nodes.Perm l.nodes → edges.Perm l.edges → (∀ x, x ∈ nodeIds' ↔ x ∈ nodeIds) →
        subgraphSignature { l with nodes, edges } nodeIds' = subgraphSignature l nodeIds) ↔
      ∀ e ∈ l.edges, ∀ f ∈ l.edges, e.source ∈ nodeIds → e.target ∈ nodeIds →
        f.source = e.source → f.target = e.target → f.edgeType = e.edgeType := by
  have hkey : ∀ e f : SGIREdge, shown e = shown f → sortKey e = sortKey f := by
    intro e f h
    obtain ⟨hsource, hrest⟩ := Prod.mk.inj h
    exact sortKey_eq_iff.mpr ⟨hsource, (Prod.mk.inj hrest).1⟩
  have hfree := @sortBy_order_free_iff _ _ _ _ _ _ (l.edges.filter (Inside nodeIds ·)) hkey
  constructor
  · intro h e he f hf hsource htarget hfs hft
    have hsame := hfree.mp fun ys hys => by
      obtain ⟨edges, hperm, rfl⟩ := exists_perm_filter hys
      have hsig := h l.nodes edges nodeIds (List.Perm.refl _) hperm fun _ => Iff.rfl
      have hlabel : ∀ x, typeLabel { l with edges } x = typeLabel l x := fun _ => rfl
      exact (subgraphSignature_eq_iff hlabel).mp hsig
    have hin : ∀ e ∈ l.edges, e.source ∈ nodeIds → e.target ∈ nodeIds → e ∈ l.edges.filter (Inside nodeIds ·) :=
      fun e he hs ht => List.mem_filter.mpr ⟨he, decide_eq_true ⟨hs, ht⟩⟩
    have hshown := hsame f (hin f hf (hfs ▸ hsource) (hft ▸ htarget)) e (hin e he hsource htarget)
      (sortKey_eq_iff.mpr ⟨hfs, hft⟩)
    exact (Prod.mk.inj (Prod.mk.inj hshown).2).2
  · intro h nodes edges nodeIds' hnodes hedges hids
    have hsame : ∀ e ∈ l.edges.filter (Inside nodeIds ·), ∀ f ∈ l.edges.filter (Inside nodeIds ·),
        sortKey e = sortKey f → shown e = shown f := by
      intro e he f hf hkey
      obtain ⟨he, hin⟩ := List.mem_filter.mp he
      obtain ⟨hs, ht⟩ := of_decide_eq_true hin
      obtain ⟨hsource, htarget⟩ := sortKey_eq_iff.mp hkey
      rw [shown, shown, hsource, htarget, h e he f (List.mem_filter.mp hf).1 hs ht hsource.symm htarget.symm]
    refine (subgraphSignature_eq_iff (typeLabel_of_perm hnodup hnodes)).mpr ?_
    have hinside : Inside nodeIds' = Inside nodeIds := by
      funext e
      rw [Inside, Inside, hids, hids]
    rw [sortedEdges_eq_sortBy, sortedEdges_eq_sortBy]
    simp only [hinside]
    exact hfree.mpr hsame _ (hedges.filter _)

/-- A function that uses another one in two ways. -/
def usedTwice (first second : EdgeType) : SGIRGraph where
  layer := .call
  nodes := [{ id := "main", name := "main" }, { id := "leaf", name := "leaf" }]
  edges := [{ source := "main", target := "leaf", edgeType := first, label := "first" },
    { source := "main", target := "leaf", edgeType := second, label := "second" }]

theorem signature_order_free_calledTwice :
    subgraphSignature { usedTwice .call .call with edges := (usedTwice .call .call).edges.reverse } ["leaf", "main"] =
      subgraphSignature (usedTwice .call .call) ["main", "leaf"] :=
  (signature_order_free_iff (usedTwice .call .call) (by decide) ["main", "leaf"]).mpr (by decide) _ _ _
    (List.Perm.refl _) (List.reverse_perm _) fun _ => List.Perm.mem_iff (.swap "main" "leaf" [])

/-- A call and an import of one function, listed in the other order. -/
theorem signature_reads_order : ¬ ∀ l : SGIRGraph, l.nodeIds.Nodup → ∀ nodes edges nodeIds, nodes.Perm l.nodes →
    edges.Perm l.edges → subgraphSignature { l with nodes, edges } nodeIds = subgraphSignature l nodeIds := by
  intro h
  have hsame := h (usedTwice .call .import) (by decide) _ _ ["main", "leaf"] (List.Perm.refl _) (List.reverse_perm _)
  exact absurd hsame (by decide +kernel)

end Intelliqx.Graph
