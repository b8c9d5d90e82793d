import Intelliqx.Graph.Traces

/-!
# What a verdict asks for

The verification compares sets of traces and of nodes. What it asks for can be
said of the graphs: declared nodes that an entry point reaches stay declared,
and wherever the search comes to, its moves are still its moves and a node
without any gets none (`preserved_iff_keeps`).
-/

namespace Intelliqx.Graph

open Intelliqx.Digraph

/-- The search comes to the node and looks further: a chain of moves leads
there from a declared entry point, repeats no node and is short enough. -/
def Expands (index : GraphIndex) (entryPoints : List String) (a : String) : Prop :=
  ∃ ep ∈ entryPoints, ep ∈ index.graph.nodeIds ∧ ∃ chain : List String,
    (chain ++ [a]).head? = some ep ∧ (chain ++ [a]).Nodup ∧ chain.length < defaultTraceMaxDepth ∧
      (chain ++ [a]).IsChain fun x y => y ∈ moves index x

/-- Wherever the search comes to before, it makes the same moves after, if not more. -/
def KeepsMoves (before after : GraphIndex) (entryPoints : List String) : Prop :=
  ∀ a, Expands before entryPoints a →
    moves before a ⊆ moves after a ∧ (moves before a = [] → moves after a = [])

/-- Declared nodes that an entry point reaches stay declared. -/
def KeepsDeclared (before after : SoftwareGraph) (entryPoints : List String) : Prop :=
  ∀ ep ∈ entryPoints, ∀ n ∈ before.nodeIds, Reaches before.edgeKeys ep n → n ∈ after.nodeIds

section
variable {before after index : GraphIndex} {entryPoints : List String} {t : Trace}

-- ---------------------------------------------------------------------------
-- Where traces end
-- ---------------------------------------------------------------------------

/-- A chain of moves to a node without moves is a trace. -/
theorem mem_dfsTraces_of_chain (path : Trace) (visited : List String) {rest : List String} (hd : rest.length < d)
    (hchain : (current :: rest).IsChain fun x y => y ∈ moves index x) (hnodup : (current :: rest).Nodup)
    (hvisited : ∀ x ∈ current :: rest, x ∉ visited) (hend : ∀ a ∈ (current :: rest).getLast?, moves index a = []) :
    path ++ current :: rest ∈ dfsTraces index index.graph.nodeIds d current path visited := by
  induction rest generalizing current path visited d with
  | nil =>
    obtain ⟨d, rfl⟩ : ∃ d', d = d' + 1 := ⟨d - 1, by simp at hd; omega⟩
    rw [dfsTraces_succ (hvisited current (.head _)), hend current rfl]
    exact List.mem_singleton_self _
  | cons s rest ih =>
    obtain ⟨d, rfl⟩ : ∃ d', d = d' + 1 := ⟨d - 1, by simp at hd; omega⟩
    obtain ⟨hs, hchain⟩ := List.isChain_cons_cons.mp hchain
    obtain ⟨hcurrent, hnodup⟩ := List.nodup_cons.mp hnodup
    have hvisited' : ∀ x ∈ s :: rest, x ∉ current :: visited := by
      intro x hx hv
      rcases List.mem_cons.mp hv with rfl | hv
      · exact hcurrent hx
      · exact hvisited x (.tail _ hx) hv
    have ht := ih (d := d) (path ++ [current]) (current :: visited) (by simpa using hd) hchain hnodup hvisited' hend
    rw [dfsTraces_succ (hvisited current (.head _)), if_neg (by simpa using List.ne_nil_of_mem hs)]
    exact List.mem_flatMap.mpr ⟨s, hs, by simpa using ht⟩

/-- A trace that repeats no node and is no longer than the search is deep ends
in a node without moves. -/
theorem moves_eq_nil_of_mem_dfsTraces (path : Trace) (visited : List String) {rest : List String}
    (hd : rest.length < d) (hnodup : (current :: rest).Nodup) (hvisited : ∀ x ∈ current :: rest, x ∉ visited)
    (ht : path ++ current :: rest ∈ dfsTraces index index.graph.nodeIds d current path visited) :
    ∀ a ∈ (current :: rest).getLast?, moves index a = [] := by
  induction rest generalizing current path visited d with
  | nil =>
    obtain ⟨d, rfl⟩ : ∃ d', d = d' + 1 := ⟨d - 1, by simp at hd; omega⟩
    rintro a ⟨⟩
    rw [dfsTraces_succ (hvisited current (.head _))] at ht
    split at ht
    · rename_i hempty
      exact List.isEmpty_iff.mp hempty
    · obtain ⟨s, -, ht⟩ := List.mem_flatMap.mp ht
      have hlen := (prefix_of_mem_dfsTraces ht).length_le
      simp at hlen
  | cons s rest ih =>
    obtain ⟨d, rfl⟩ : ∃ d', d = d' + 1 := ⟨d - 1, by simp at hd; omega⟩
    obtain ⟨hcurrent, hnodup⟩ := List.nodup_cons.mp hnodup
    have hvisited' : ∀ x ∈ s :: rest, x ∉ current :: visited := by
      intro x hx hv
      rcases List.mem_cons.mp hv with rfl | hv
      · exact hcurrent hx
      · exact hvisited x (.tail _ hx) hv
    rw [dfsTraces_succ (hvisited current (.head _))] at ht
    split at ht
    · have hlen := congrArg List.length (List.mem_singleton.mp ht)
      simp at hlen
    · obtain ⟨s', -, ht⟩ := List.mem_flatMap.mp ht
      have hsplit : path ++ current :: s :: rest = path ++ [current] ++ s :: rest := by simp
      rw [hsplit] at ht
      -- the trace goes on with the node the search has moved to
      obtain rfl : s' = s := by
        obtain ⟨tail, htail⟩ := prefix_of_mem_dfsTraces ht
        rw [List.append_assoc, List.append_right_inj] at htail
        exact (List.cons.inj htail).1
      exact ih (path ++ [current]) (current :: visited) (by simpa using hd) hnodup hvisited' ht

-- ---------------------------------------------------------------------------
-- Verdicts
-- ---------------------------------------------------------------------------

theorem Expands.explored (h : Expands index entryPoints a) (hb : b ∈ moves index a) :
    Explored index entryPoints a b := by
  obtain ⟨ep, hep, hdeclared, chain, hhead, hnodup, hlen, hchain⟩ := h
  refine ⟨ep, hep, hdeclared, chain, hhead, hnodup, hlen, ?_⟩
  rw [List.append_cons, List.isChain_append]
  refine ⟨hchain, .singleton b, ?_⟩
  intro x hx y hy
  rw [List.getLast?_concat] at hx
  cases hx
  cases hy
  exact hb

/-- A search that makes the moves of another one finds its traces. -/
theorem dfsTraces_subset (hmoves : KeepsMoves before after entryPoints) (hep : ep ∈ entryPoints)
    (hdeclared : ep ∈ before.graph.nodeIds) (d : Nat) (path : Trace) (visited : List String)
    (hdepth : path.length + d = defaultTraceMaxDepth) (hhead : (path ++ [current]).head? = some ep)
    (hnodup : path.Nodup) (hchain : (path ++ [current]).IsChain fun x y => y ∈ moves before x)
    (hvisited : ∀ x, x ∈ visited ↔ x ∈ path) :
    dfsTraces before before.graph.nodeIds d current path visited ⊆
      dfsTraces after after.graph.nodeIds d current path visited := by
  induction d generalizing current path visited with
  | zero => exact List.Subset.refl _
  | succ d ih =>
    by_cases hv : current ∈ visited
    · rw [dfsTraces, dfsTraces, if_pos hv, if_pos hv]
      exact List.Subset.refl _
    · have hcurrent : current ∉ path := fun hp => hv ((hvisited current).mpr hp)
      have hnodup' : (path ++ [current]).Nodup :=
        hnodup.append (List.nodup_singleton current) (by simpa using hcurrent)
      obtain ⟨hsub, hends⟩ := hmoves current ⟨ep, hep, hdeclared, path, hhead, hnodup', by omega, hchain⟩
      rw [dfsTraces_succ hv, dfsTraces_succ hv]
      cases hm : moves before current with
      | nil =>
        rw [hends hm]
        exact List.Subset.refl _
      | cons s rest =>
        have hs : s ∈ moves before current := by
          rw [hm]
          exact List.mem_cons_self
        rw [← hm, if_neg (by simp [hm]), if_neg (by simpa using List.ne_nil_of_mem (hsub hs))]
        intro t ht
        obtain ⟨s, hs, ht⟩ := List.mem_flatMap.mp ht
        refine List.mem_flatMap.mpr ⟨s, hsub hs, ih _ _ ?_ ?_ hnodup' ?_ ?_ ht⟩
        · rw [List.length_append, List.length_singleton]
          omega
        · rw [List.head?_append, hhead]
          rfl
        · rw [List.append_assoc]
          exact List.isChain_append_cons_cons.mpr ⟨hchain, hs, .singleton s⟩
        · intro x
          rw [List.mem_cons, List.mem_append, List.mem_singleton, hvisited, or_comm]

theorem preserved_iff_keeps : (verify before after entryPoints).behaviorPreserved = true ↔
    KeepsDeclared before.graph after.graph entryPoints ∧ KeepsMoves before after entryPoints := by
  constructor
  · intro h
    refine ⟨fun ep hep n hn hr => ?_, fun a ha => ⟨fun b hb => ?_, fun hnone => ?_⟩⟩
    · by_contra hgone
      have hm : n ∈ improperlyRemoved before after entryPoints := by
        simp only [improperlyRemoved, List.mem_filter, mem_diff, List.any_eq_true, decide_eq_true_eq]
        refine ⟨⟨hn, hgone⟩, ep, hep, ?_⟩
        by_cases hne : n = ep
        · exact .inr ⟨hne ▸ hn, hne⟩
        · exact .inl (GraphIndex.mem_reachableFrom.mpr ⟨hne, hr⟩)
      rw [(preserved_iff.mp h).2] at hm
      cases hm
    · obtain ⟨_, ht, chain, rest, rfl⟩ := exists_trace_of_explored (ha.explored hb)
      have hafter := (isChain_of_mem_buildTraceSet (trace_kept h ht)).left_of_append
      exact (List.isChain_append_cons_cons.mp hafter).2.1
    · obtain ⟨ep, hep, hdeclared, chain, hhead, hnodup, hlen, hchain⟩ := ha
      obtain ⟨rest, hrest⟩ : ∃ rest, chain ++ [a] = ep :: rest := by
        cases chain with
        | nil => exact ⟨[], by simpa using hhead⟩
        | cons x chain => exact ⟨chain ++ [a], by simpa using hhead⟩
      have hlast : (ep :: rest).getLast? = some a := by rw [← hrest, List.getLast?_concat]
      have hlength : rest.length < defaultTraceMaxDepth := by
        have := congrArg List.length hrest
        simp at this
        omega
      rw [hrest] at hnodup hchain
      have ht : ep :: rest ∈ buildTraceSet before entryPoints defaultTraceMaxDepth := by
        refine List.mem_flatMap.mpr ⟨ep, by simpa using ⟨hep, hdeclared⟩, ?_⟩
        refine mem_dfsTraces_of_chain [] [] hlength hchain hnodup (by simp) fun x hx => ?_
        rw [hlast] at hx
        cases hx
        exact hnone
      obtain ⟨ep', -, ht'⟩ := List.mem_flatMap.mp (trace_kept h ht)
      obtain rfl : ep' = ep := by
        obtain ⟨tail, htail⟩ := prefix_of_mem_dfsTraces ht'
        exact (List.cons.inj htail).1
      exact moves_eq_nil_of_mem_dfsTraces [] [] hlength hnodup (by simp) ht' a hlast
  · rintro ⟨hdeclared, hmoves⟩
    refine preserved_iff.mpr ⟨?_, ?_⟩
    · rw [lostTraces, List.eq_nil_iff_forall_not_mem]
      intro t ht
      obtain ⟨ht, hlost⟩ := mem_diff.mp ht
      refine hlost ?_
      obtain ⟨ep, hep, ht⟩ := List.mem_flatMap.mp ht
      obtain ⟨hep, hentry⟩ := List.mem_filter.mp hep
      replace hentry := of_decide_eq_true hentry
      refine List.mem_flatMap.mpr ⟨ep, List.mem_filter.mpr ⟨hep, decide_eq_true (hdeclared ep hep ep hentry .refl)⟩, ?_⟩
      exact dfsTraces_subset hmoves hep hentry _ [] [] (Nat.zero_add _) rfl List.nodup_nil (.singleton ep)
        (fun _ => Iff.rfl) ht
    · rw [improperlyRemoved, List.filter_eq_nil_iff]
      intro n hn hr
      obtain ⟨hn, hgone⟩ := mem_diff.mp hn
      simp only [List.any_eq_true, decide_eq_true_eq] at hr
      obtain ⟨ep, hep, hreach | ⟨-, rfl⟩⟩ := hr
      · exact hgone (hdeclared ep hep n hn (GraphIndex.mem_reachableFrom.mp hreach).2)
      · exact hgone (hdeclared n hep n hn .refl)

end

end Intelliqx.Graph
