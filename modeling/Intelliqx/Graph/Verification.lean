import Mathlib.Data.List.Chain
import Mathlib.Data.List.Sort
import Intelliqx.Graph.Query

/-!
# The verification agent

`VerificationAgent.verify` compares the traces that a search bounded in depth
and branching enumerates before and after, and the nodes that stay declared.
-/

namespace Intelliqx.Graph

open Intelliqx.Digraph

inductive RiskLevel
  | low
  | medium
  | high
  | critical
  deriving DecidableEq, Repr

def defaultTraceMaxDepth : Nat := 50

def maxTraceBranching : Nat := 10

def maxFindingSamples : Nat := 5

def riskMediumChangeThreshold : Nat := 50

def riskLowChangeThreshold : Nat := 10

inductive Finding
  | lostTraces (count : Nat)
  | removedReachable (count : Nat) (sample : List String)
  | nodesRemoved (count : Nat)
  | nodesAdded (count : Nat)
  | edgesRemoved (count : Nat)
  | edgesAdded (count : Nat)
  deriving DecidableEq, Repr

structure VerificationReport where
  behaviorPreserved : Bool
  nodesAdded : Nat
  nodesRemoved : Nat
  edgesAdded : Nat
  edgesRemoved : Nat
  riskLevel : RiskLevel
  findings : List Finding
  deriving DecidableEq, Repr

abbrev Trace := List String

/-- `dfs_traces`. The traces of a call start with `path` and `current`. -/
def dfsTraces (index : GraphIndex) (validIds : List String) :
    Nat → String → Trace → List String → List Trace
  | 0, current, path, _ => [path ++ [current]]
  | depthRemaining + 1, current, path, visited =>
    if current ∈ visited then [path ++ [current]]
    else
      let successors := (index.reachableFrom current).filter (· ∈ validIds)
      if successors.isEmpty then [path ++ [current]]
      else (successors.take maxTraceBranching).flatMap fun s =>
        dfsTraces index validIds depthRemaining s (path ++ [current]) (current :: visited)

def buildTraceSet (index : GraphIndex) (entryPoints : List String) (maxDepth : Nat) : List Trace :=
  (entryPoints.filter (· ∈ index.graph.nodeIds)).flatMap fun ep =>
    dfsTraces index index.graph.nodeIds maxDepth ep [] []

def diff [DecidableEq α] (xs ys : List α) : List α := (xs.filter (· ∉ ys)).dedup

def assessRisk (nodesAdded nodesRemoved edgesAdded edgesRemoved : Nat) (behaviorPreserved : Bool)
    (improperlyRemoved : List String) : RiskLevel :=
  if ¬ improperlyRemoved.isEmpty then .critical
  else if ¬ behaviorPreserved then .high
  else
    let totalChanges := nodesAdded + nodesRemoved + edgesAdded + edgesRemoved
    if totalChanges > riskMediumChangeThreshold then .medium
    else if totalChanges > riskLowChangeThreshold then .low
    else .low

def improperlyRemoved (before after : GraphIndex) (entryPoints : List String) : List String :=
  (diff before.graph.nodeIds after.graph.nodeIds).filter fun n =>
    entryPoints.any fun ep =>
      n ∈ before.reachableFrom ep ∨ (ep ∈ before.graph.nodeIds ∧ n = ep)

def lostTraces (before after : GraphIndex) (entryPoints : List String) : List Trace :=
  diff (buildTraceSet before entryPoints defaultTraceMaxDepth)
    (buildTraceSet after entryPoints defaultTraceMaxDepth)

def verify (before after : GraphIndex) (entryPoints : List String) : VerificationReport :=
  let nodesAdded := (diff after.graph.nodeIds before.graph.nodeIds).length
  let nodesRemoved := (diff before.graph.nodeIds after.graph.nodeIds).length
  let edgesAdded := (diff after.graph.edgeKeys before.graph.edgeKeys).length
  let edgesRemoved := (diff before.graph.edgeKeys after.graph.edgeKeys).length
  let lost := lostTraces before after entryPoints
  let removed := improperlyRemoved before after entryPoints
  let behaviorPreserved := lost.isEmpty && removed.isEmpty
  { behaviorPreserved, nodesAdded, nodesRemoved, edgesAdded, edgesRemoved
    riskLevel := assessRisk nodesAdded nodesRemoved edgesAdded edgesRemoved behaviorPreserved removed
    findings :=
      (if lost.isEmpty then [] else [.lostTraces lost.length]) ++
      (if removed.isEmpty then []
        else [.removedReachable removed.length
          ((removed.insertionSort (· ≤ ·)).take maxFindingSamples)]) ++
      (if nodesRemoved > 0 then [.nodesRemoved nodesRemoved] else []) ++
      (if nodesAdded > 0 then [.nodesAdded nodesAdded] else []) ++
      (if edgesRemoved > 0 then [.edgesRemoved edgesRemoved] else []) ++
      (if edgesAdded > 0 then [.edgesAdded edgesAdded] else []) }

-- ---------------------------------------------------------------------------
-- What a positive verdict says
-- ---------------------------------------------------------------------------

section
variable {before after index : GraphIndex} {entryPoints : List String} {t : Trace}

theorem mem_diff [DecidableEq α] {xs ys : List α} {x : α} : x ∈ diff xs ys ↔ x ∈ xs ∧ x ∉ ys := by
  simp [diff]

theorem preserved_iff : (verify before after entryPoints).behaviorPreserved = true ↔
    lostTraces before after entryPoints = [] ∧ improperlyRemoved before after entryPoints = [] := by
  simp [verify]

theorem declared_of_preserved (h : (verify before after entryPoints).behaviorPreserved = true)
    (hep : ep ∈ entryPoints) (hdeclared : ep ∈ before.graph.nodeIds) (hn : n ∈ before.graph.nodeIds)
    (hr : Reaches before.graph.edgeKeys ep n) : n ∈ after.graph.nodeIds := by
  by_contra hgone
  have hm : n ∈ improperlyRemoved before after entryPoints := by
    simp only [improperlyRemoved, List.mem_filter, mem_diff, List.any_eq_true, decide_eq_true_eq]
    refine ⟨⟨hn, hgone⟩, ep, hep, ?_⟩
    by_cases hne : n = ep
    · exact .inr ⟨hdeclared, hne⟩
    · exact .inl (GraphIndex.mem_reachableFrom.mpr ⟨hne, hr⟩)
  rw [(preserved_iff.mp h).2] at hm
  cases hm

theorem trace_kept (h : (verify before after entryPoints).behaviorPreserved = true)
    (ht : t ∈ buildTraceSet before entryPoints defaultTraceMaxDepth) :
    t ∈ buildTraceSet after entryPoints defaultTraceMaxDepth := by
  by_contra hlost
  have hm : t ∈ lostTraces before after entryPoints := mem_diff.mpr ⟨ht, hlost⟩
  rw [(preserved_iff.mp h).1] at hm
  cases hm

-- ---------------------------------------------------------------------------
-- Traces
-- ---------------------------------------------------------------------------

/-- The moves the search makes from a node: to the first ten declared nodes
among those it reaches, in iteration order. -/
def moves (index : GraphIndex) (x : String) : List String :=
  ((index.reachableFrom x).filter (· ∈ index.graph.nodeIds)).take maxTraceBranching

theorem reaches_of_moves (h : y ∈ moves index x) : Reaches index.graph.edgeKeys x y :=
  (GraphIndex.mem_reachableFrom.mp (List.mem_of_mem_filter (List.mem_of_mem_take h))).2

theorem dfsTraces_succ (hv : current ∉ visited) :
    dfsTraces index index.graph.nodeIds (d + 1) current path visited =
      if (moves index current).isEmpty then [path ++ [current]]
      else (moves index current).flatMap fun s =>
        dfsTraces index index.graph.nodeIds d s (path ++ [current]) (current :: visited) := by
  have hempty : ((index.reachableFrom current).filter (· ∈ index.graph.nodeIds)).isEmpty =
      (moves index current).isEmpty := by
    unfold moves maxTraceBranching
    cases (index.reachableFrom current).filter (· ∈ index.graph.nodeIds) <;> rfl
  conv_lhs => unfold dfsTraces
  simp only [if_neg hv, hempty]
  rfl

theorem isChain_of_mem_dfsTraces (h : t ∈ dfsTraces index index.graph.nodeIds d current path visited)
    (hpath : (path ++ [current]).IsChain fun x y => y ∈ moves index x) :
    t.IsChain fun x y => y ∈ moves index x := by
  induction d generalizing current path visited with
  | zero =>
    rw [List.mem_singleton.mp h]
    exact hpath
  | succ d ih =>
    by_cases hv : current ∈ visited
    · rw [dfsTraces, if_pos hv, List.mem_singleton] at h
      rwa [h]
    · rw [dfsTraces_succ hv] at h
      split at h
      · rwa [List.mem_singleton.mp h]
      · obtain ⟨s, hs, ht⟩ := List.mem_flatMap.mp h
        apply ih ht
        rw [List.append_assoc]
        exact List.isChain_append_cons_cons.mpr ⟨hpath, hs, .singleton s⟩

theorem isChain_of_mem_buildTraceSet (h : t ∈ buildTraceSet index entryPoints maxDepth) :
    t.IsChain fun x y => y ∈ moves index x := by
  obtain ⟨ep, -, ht⟩ := List.mem_flatMap.mp h
  exact isChain_of_mem_dfsTraces ht (.singleton ep)

theorem exists_mem_dfsTraces (index : GraphIndex) (d : Nat) (current : String) (path : Trace) (visited : List String) :
    ∃ t ∈ dfsTraces index index.graph.nodeIds d current path visited, path ++ [current] <+: t := by
  induction d generalizing current path visited with
  | zero => exact ⟨_, .head _, List.prefix_refl _⟩
  | succ d ih =>
    by_cases hv : current ∈ visited
    · exact ⟨path ++ [current], by simp [dfsTraces, hv], List.prefix_refl _⟩
    · rw [dfsTraces_succ hv]
      cases hm : moves index current with
      | nil => exact ⟨path ++ [current], by simp, List.prefix_refl _⟩
      | cons s rest =>
        obtain ⟨t, ht, hp⟩ := ih s (path ++ [current]) (current :: visited)
        exact ⟨t, by simpa using .inl ht, (List.prefix_append ..).trans hp⟩

/-- The search follows every chain of moves that repeats no node, as deep as
it may go, and one move more. -/
theorem exists_trace_of_chain (path : Trace) (visited : List String) {rest : List String} (hd : rest.length < d)
    (hchain : (current :: rest ++ [b]).IsChain fun x y => y ∈ moves index x)
    (hnodup : (current :: rest).Nodup) (hvisited : ∀ x ∈ current :: rest, x ∉ visited) :
    ∃ t ∈ dfsTraces index index.graph.nodeIds d current path visited,
      path ++ (current :: rest) ++ [b] <+: t := by
  induction rest generalizing current path visited d with
  | nil =>
    obtain ⟨d, rfl⟩ : ∃ d', d = d' + 1 := ⟨d - 1, by simp at hd; omega⟩
    have hb : b ∈ moves index current := by simpa using hchain
    obtain ⟨t, ht, hp⟩ := exists_mem_dfsTraces index d b (path ++ [current]) (current :: visited)
    refine ⟨t, ?_, hp⟩
    rw [dfsTraces_succ (hvisited current (.head _)), if_neg (by simpa using List.ne_nil_of_mem hb)]
    exact List.mem_flatMap.mpr ⟨b, hb, ht⟩
  | cons s rest ih =>
    obtain ⟨d, rfl⟩ : ∃ d', d = d' + 1 := ⟨d - 1, by simp at hd; omega⟩
    obtain ⟨hs, hchain⟩ := List.isChain_cons_cons.mp hchain
    obtain ⟨hcurrent, hnodup⟩ := List.nodup_cons.mp hnodup
    have hvisited' : ∀ x ∈ s :: rest, x ∉ current :: visited := by
      intro x hx hv
      rcases List.mem_cons.mp hv with rfl | hv
      · exact hcurrent hx
      · exact hvisited x (.tail _ hx) hv
    obtain ⟨t, ht, hp⟩ := ih (d := d) (path ++ [current]) (current :: visited) (by simpa using hd) hchain hnodup
      hvisited'
    refine ⟨t, ?_, by simpa using hp⟩
    rw [dfsTraces_succ (hvisited current (.head _)), if_neg (by simpa using List.ne_nil_of_mem hs)]
    exact List.mem_flatMap.mpr ⟨s, hs, ht⟩

-- ---------------------------------------------------------------------------
-- How far the verdict goes
-- ---------------------------------------------------------------------------

/-- The search makes the move from `a` to `b`: a chain of moves leads to `a`
from a declared entry point, repeats no node and is short enough. -/
def ExploredWithin (maxDepth : Nat) (index : GraphIndex) (entryPoints : List String) (a b : String) : Prop :=
  ∃ ep ∈ entryPoints, ep ∈ index.graph.nodeIds ∧ ∃ chain : List String,
    (chain ++ [a]).head? = some ep ∧ (chain ++ [a]).Nodup ∧ chain.length < maxDepth ∧
      (chain ++ [a, b]).IsChain fun x y => y ∈ moves index x

/-- Explored within the depth of the verification. -/
def Explored : GraphIndex → List String → String → String → Prop := ExploredWithin defaultTraceMaxDepth

theorem exists_trace_of_explored (he : ExploredWithin maxDepth index entryPoints a b) :
    ∃ t ∈ buildTraceSet index entryPoints maxDepth, ∃ chain, chain ++ [a, b] <+: t := by
  obtain ⟨ep, hep, hdeclared, chain, hhead, hnodup, hlen, hchain⟩ := he
  obtain ⟨rest, hrest⟩ : ∃ rest, chain ++ [a] = ep :: rest := by
    cases chain with
    | nil => exact ⟨[], by simpa using hhead⟩
    | cons x chain => exact ⟨chain ++ [a], by simpa using hhead⟩
  have hsplit : chain ++ [a, b] = ep :: rest ++ [b] := by
    rw [← hrest, List.append_assoc]
    rfl
  have hlength : rest.length = chain.length := by
    have := congrArg List.length hrest
    simpa using this.symm
  obtain ⟨t, ht, hp⟩ := exists_trace_of_chain (b := b) [] []
    (hlength ▸ hlen) (hsplit ▸ hchain) (hrest ▸ hnodup) (by simp)
  refine ⟨t, List.mem_flatMap.mpr ⟨ep, by simpa using ⟨hep, hdeclared⟩, ht⟩, chain, ?_⟩
  rwa [List.nil_append, ← hsplit] at hp

theorem reaches_of_explored (h : (verify before after entryPoints).behaviorPreserved = true)
    (he : Explored before entryPoints a b) : Reaches after.graph.edgeKeys a b := by
  obtain ⟨_, ht, chain, rest, rfl⟩ := exists_trace_of_explored he
  have hafter := (isChain_of_mem_buildTraceSet (trace_kept h ht)).left_of_append
  exact reaches_of_moves (List.isChain_append_cons_cons.mp hafter).2.1

theorem reaches_of_explored_chain (h : (verify before after entryPoints).behaviorPreserved = true)
    (he : Relation.ReflTransGen (Explored before entryPoints) a b) : Reaches after.graph.edgeKeys a b := by
  induction he with
  | refl => exact .refl
  | tail _ hab ih => exact ih.trans (reaches_of_explored h hab)

/-- A positive verdict is sound for the nodes that stay declared, and for the
paths the search explores: all reachable declared nodes are still declared,
and those that explored moves lead to are still reachable. -/
theorem verify_sound (before after : GraphIndex) (entryPoints : List String)
    (h : (verify before after entryPoints).behaviorPreserved = true) :
    ∀ ep ∈ entryPoints, ep ∈ before.graph.nodeIds → ∀ n ∈ before.graph.nodeIds,
      Reaches before.graph.edgeKeys ep n →
        n ∈ after.graph.nodeIds ∧
          (Relation.ReflTransGen (Explored before entryPoints) ep n → Reaches after.graph.edgeKeys ep n) :=
  fun _ hep hdeclared _ hn hr =>
    ⟨declared_of_preserved h hep hdeclared hn hr, reaches_of_explored_chain h⟩

def callGraph (nodes : List String) (edges : List (String × String)) : SoftwareGraph where
  repositoryName := "repo"
  layers := [{ layer := .call, nodes := nodes.map fun n => { id := n, name := n },
               edges := edges.map fun e => { source := e.1, target := e.2, edgeType := .call } }]
  keyed := List.nodup_singleton _

theorem verify_sound_leaf :
    "leaf" ∈ (callGraph ["main", "mid", "leaf"] [("main", "mid"), ("mid", "leaf")]).nodeIds ∧
      Reaches (callGraph ["main", "mid", "leaf"] [("main", "mid"), ("mid", "leaf")]).edgeKeys "main" "leaf" := by
  have hsound := verify_sound
    (.build (callGraph ["main", "mid", "leaf", "dead"] [("main", "mid"), ("mid", "leaf"), ("dead", "mid")]))
    (.build (callGraph ["main", "mid", "leaf"] [("main", "mid"), ("mid", "leaf")])) ["main"] (by decide +kernel)
  obtain ⟨hn, hr⟩ := hsound "main" (by simp) (by decide) "leaf" (by decide)
    (.head (b := "mid") (by decide) (.single (by decide)))
  refine ⟨hn, hr (.single ⟨"main", by simp, by decide, [], rfl, by decide, by decide, ?_⟩)⟩
  rw [List.nil_append, List.isChain_pair]
  decide +kernel

def leaves : List String := ["l0", "l1", "l2", "l3", "l4", "l5", "l6", "l7", "l8", "l9", "l10"]

/-- The search tries the first ten of eleven leaves, so it does not see that
the last one is cut off. -/
theorem eleventh_leaf_lost :
    (verify (.build (callGraph ("main" :: leaves) (leaves.map fun l => ("main", l))))
      (.build (callGraph ("main" :: leaves) ((leaves.take 10).map fun l => ("main", l))))
      ["main"]).behaviorPreserved = true ∧
      "main" ∈ (callGraph ("main" :: leaves) (leaves.map fun l => ("main", l))).nodeIds ∧
      "l10" ∈ (callGraph ("main" :: leaves) (leaves.map fun l => ("main", l))).nodeIds ∧
      Reaches (callGraph ("main" :: leaves) (leaves.map fun l => ("main", l))).edgeKeys "main" "l10" ∧
      ¬ Reaches (callGraph ("main" :: leaves) ((leaves.take 10).map fun l => ("main", l))).edgeKeys
        "main" "l10" := by
  refine ⟨by decide +kernel, by decide, by decide, .single (by decide), ?_⟩
  intro hr
  have hm := mem_descendants.mpr ⟨(by decide : "l10" ≠ "main"), hr⟩
  revert hm
  decide +kernel

end

end Intelliqx.Graph
