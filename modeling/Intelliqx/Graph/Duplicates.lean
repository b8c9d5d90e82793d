import Intelliqx.Base.Dict
import Intelliqx.Base.FirstBy
import Intelliqx.Base.Search
import Intelliqx.Graph.Query
import Mathlib.Data.Finset.Card
import Mathlib.Data.List.Sort
import Mathlib.Data.Set.Function
import Mathlib.Data.Prod.Lex
import Mathlib.Data.String.Basic

/-!
# Duplicate components

`detect_duplicates` compares the components that start at a listed node no
earlier one reaches. A pair is returned for what a later layer begins with a
signature that an earlier layer has (`mem_detectDuplicates`), and the signature
of a component names its nodes (`reaches_of_signature`).
-/

namespace Intelliqx.Graph

open Intelliqx.Digraph

def EdgeType.value : EdgeType → String
  | .call => "call"
  | .data => "data"
  | .control => "control"
  | .dependency => "dependency"
  | .event => "event"
  | .network => "network"
  | .database => "database"
  | .stateTransition => "state_transition"
  | .import => "import"
  | .inherit => "inherit"
  | .implement => "implement"
  | .compose => "compose"

def NodeType.value : NodeType → String
  | .function => "function"
  | .method => "method"
  | .class => "class"
  | .module => "module"
  | .package => "package"
  | .service => "service"
  | .endpoint => "endpoint"
  | .eventHandler => "event_handler"
  | .middleware => "middleware"
  | .datamodel => "datamodel"
  | .config => "config"
  | .infrastructure => "infrastructure"
  | .unknown => "unknown"

def minDuplicateComponentSize : Nat := 2

/-- The type of the last node with the id, as `node_map` has it. -/
def typeLabel (l : SGIRGraph) (nodeId : String) : String :=
  ((l.nodes.reverse.find? fun n => n.id = nodeId).map fun n => n.nodeType.value).getD "unknown"

/-- The edges with both ends among the nodes, sorted by their ends. -/
def sortedEdges (l : SGIRGraph) (nodeIds : List String) : List SGIREdge :=
  (l.edges.filter fun e => e.source ∈ nodeIds ∧ e.target ∈ nodeIds).insertionSort
    fun e f => toLex (e.source, e.target) ≤ toLex (f.source, f.target)

def signatureParts (l : SGIRGraph) (e : SGIREdge) : List String :=
  [e.source, e.target].flatMap fun nid => [typeLabel l nid, e.source, e.target, e.edgeType.value]

def subgraphSignature (l : SGIRGraph) (nodeIds : List String) : List String :=
  (sortedEdges l nodeIds).flatMap (signatureParts l)

def bfsComponent (start : String) (edges : List (String × String)) : List String :=
  bfs edges (edges.length + 1) [start] [start] []

structure DuplicateScan where
  seenSignatures : Dict (List String) (List String) := .empty
  duplicates : List (String × String) := []
  visited : List String := []

def DuplicateScan.node (l : SGIRGraph) (s : DuplicateScan) (node : SGIRNode) : DuplicateScan :=
  if node.id ∈ s.visited then s
  else
    let component := bfsComponent node.id l.edgePairs
    let visited := s.visited ++ component
    if component.length < minDuplicateComponentSize then { s with visited }
    else
      let sig := subgraphSignature l component
      match s.seenSignatures.get? sig with
      | some existing => { s with visited, duplicates := s.duplicates ++ [(existing.headD "", node.id)] }
      | none => { s with visited, seenSignatures := s.seenSignatures.insert sig [node.id] }

def DuplicateScan.layer (s : DuplicateScan) (l : SGIRGraph) : DuplicateScan :=
  l.nodes.foldl (DuplicateScan.node l) { s with visited := [] }

/-- The index is passed along but not read. -/
def detectDuplicates (g : SoftwareGraph) (_ : GraphIndex) : List (String × String) :=
  (g.layers.foldl DuplicateScan.layer {}).duplicates

-- ---------------------------------------------------------------------------
-- The signature names the nodes
-- ---------------------------------------------------------------------------

def signature (l : SGIRGraph) (start : String) : List String :=
  subgraphSignature l (bfsComponent start l.edgePairs)

/-- The start reaches another node. -/
def Leads (l : SGIRGraph) (x : String) : Prop := ∃ y, y ≠ x ∧ Reaches l.edgePairs x y

section
variable {l l' : SGIRGraph} {x y z : String} {e : SGIREdge}

theorem mem_bfsComponent : y ∈ bfsComponent x l.edgePairs ↔ Reaches l.edgePairs x y := mem_bfs

theorem nodup_bfsComponent : (bfsComponent x l.edgePairs).Nodup := nodup_bfs

theorem size_bfsComponent : ¬ (bfsComponent x l.edgePairs).length < minDuplicateComponentSize ↔ Leads l x := by
  have hself : x ∈ bfsComponent x l.edgePairs := mem_bfsComponent.mpr .refl
  rw [Nat.not_lt]
  constructor
  · intro hsize
    have hcard : 1 < (bfsComponent x l.edgePairs).toFinset.card := by
      rw [List.toFinset_card_of_nodup nodup_bfsComponent]
      exact hsize
    obtain ⟨y, hy, hne⟩ := Finset.exists_mem_ne hcard x
    exact ⟨y, hne, mem_bfsComponent.mp (List.mem_toFinset.mp hy)⟩
  · rintro ⟨y, hne, hr⟩
    have hpair : [y, x].Nodup := by simpa using hne
    refine (List.subperm_of_subset hpair ?_).length_le
    intro z hz
    simp only [List.mem_cons, List.not_mem_nil, or_false] at hz
    rcases hz with rfl | rfl
    · exact mem_bfsComponent.mpr hr
    · exact hself

theorem mem_sortedEdges {ids : List String} :
    e ∈ sortedEdges l ids ↔ e ∈ l.edges ∧ e.source ∈ ids ∧ e.target ∈ ids := by
  rw [sortedEdges, List.mem_insertionSort, List.mem_filter, decide_eq_true_eq]

/-- Blocks of one length can be told apart in the whole. -/
theorem map_eq_of_flatMap_eq {f : α → List γ} {g : β → List γ} (k : Nat) (hk : 0 < k)
    (hf : ∀ a, (f a).length = k) (hg : ∀ b, (g b).length = k) {as : List α} {bs : List β}
    (h : as.flatMap f = bs.flatMap g) : as.map f = bs.map g := by
  induction as generalizing bs with
  | nil =>
    cases bs with
    | nil => rfl
    | cons b bs =>
      have hlen := congrArg List.length h
      rw [List.flatMap_cons, List.length_append, hg b] at hlen
      simp only [List.flatMap_nil, List.length_nil] at hlen
      omega
  | cons a as ih =>
    cases bs with
    | nil =>
      have hlen := congrArg List.length h
      rw [List.flatMap_cons, List.length_append, hf a] at hlen
      simp only [List.flatMap_nil, List.length_nil] at hlen
      omega
    | cons b bs =>
      obtain ⟨hhead, htail⟩ := List.append_inj h ((hf a).trans (hg b).symm)
      rw [List.map_cons, List.map_cons, hhead, ih htail]

theorem ends_of_signature {ids ids' : List String} (h : subgraphSignature l ids = subgraphSignature l' ids')
    (he : e ∈ sortedEdges l ids) : ∃ e' ∈ sortedEdges l' ids', e'.source = e.source ∧ e'.target = e.target := by
  have hmap := map_eq_of_flatMap_eq 8 (by decide) (fun _ => rfl) (fun _ => rfl) h
  have hpart : signatureParts l e ∈ (sortedEdges l' ids').map (signatureParts l') :=
    hmap ▸ List.mem_map_of_mem he
  obtain ⟨e', he', hsame⟩ := List.mem_map.mp hpart
  simp only [signatureParts, List.flatMap_cons, List.cons_append, List.cons.injEq] at hsame
  exact ⟨e', he', hsame.2.1, hsame.2.2.1⟩

/-- Every node of a component with two nodes is an end of one of its edges. -/
theorem exists_edge_of_leads (hx : Leads l x) (hr : Reaches l.edgePairs x y) :
    ∃ e ∈ sortedEdges l (bfsComponent x l.edgePairs), y = e.source ∨ y = e.target := by
  rcases Relation.ReflTransGen.cases_tail hr with rfl | ⟨z, hz, he⟩
  · obtain ⟨w, hne, hw⟩ := hx
    rcases Relation.ReflTransGen.cases_head hw with heq | ⟨z, he, -⟩
    · exact absurd heq.symm hne
    · obtain ⟨e, hmem, hpair⟩ := List.mem_map.mp he
      obtain ⟨rfl, rfl⟩ := Prod.mk.inj hpair
      refine ⟨e, mem_sortedEdges.mpr ⟨hmem, mem_bfsComponent.mpr .refl, mem_bfsComponent.mpr (.single he)⟩, ?_⟩
      exact .inl rfl
  · obtain ⟨e, hmem, hpair⟩ := List.mem_map.mp he
    obtain ⟨rfl, rfl⟩ := Prod.mk.inj hpair
    exact ⟨e, mem_sortedEdges.mpr ⟨hmem, mem_bfsComponent.mpr hz, mem_bfsComponent.mpr hr⟩, .inr rfl⟩

theorem reaches_of_signature (h : signature l x = signature l' z) (hx : Leads l x)
    (hr : Reaches l.edgePairs x y) : Reaches l'.edgePairs z y := by
  obtain ⟨e, he, hy⟩ := exists_edge_of_leads hx hr
  obtain ⟨e', he', hsource, htarget⟩ := ends_of_signature h he
  obtain ⟨-, hs, ht⟩ := mem_sortedEdges.mp he'
  rcases hy with rfl | rfl
  · exact mem_bfsComponent.mp (hsource ▸ hs)
  · exact mem_bfsComponent.mp (htarget ▸ ht)

end

-- ---------------------------------------------------------------------------
-- What one layer adds
-- ---------------------------------------------------------------------------

/-- Where a component is begun among the nodes: at one that no earlier one reaches. -/
def StartOf (l : SGIRGraph) (nodes : List SGIRNode) (x : String) : Prop :=
  Leads l x ∧ ∃ front n back, nodes = front ++ n :: back ∧ n.id = x ∧ ∀ m ∈ front, ¬ Reaches l.edgePairs m.id x

def IsStart (l : SGIRGraph) (x : String) : Prop := StartOf l l.nodes x

/-- The scan of a layer from `s`, after the first nodes. -/
structure Scanned (l : SGIRGraph) (s : DuplicateScan) (front : List SGIRNode) (s' : DuplicateScan) : Prop where
  visited : ∀ y, y ∈ s'.visited ↔ ∃ m ∈ front, Reaches l.edgePairs m.id y
  seen : ∀ sig e, s'.seenSignatures.get? sig = some e ↔ s.seenSignatures.get? sig = some e ∨
    s.seenSignatures.get? sig = none ∧ ∃ x, StartOf l front x ∧ signature l x = sig ∧ e = [x]
  duplicates : ∀ p, p ∈ s'.duplicates ↔ p ∈ s.duplicates ∨
    ∃ x e, StartOf l front x ∧ s.seenSignatures.get? (signature l x) = some e ∧ p = (e.headD "", x)

section
variable {l : SGIRGraph} {s s' : DuplicateScan} {front : List SGIRNode} {n : SGIRNode} {x : String}

theorem startOf_append : StartOf l (front ++ [n]) x ↔
    StartOf l front x ∨ x = n.id ∧ Leads l x ∧ ∀ m ∈ front, ¬ Reaches l.edgePairs m.id x := by
  unfold StartOf
  rw [exists_split_concat, and_or_left, eq_comm (a := x)]
  exact or_congr_right and_left_comm

theorem Scanned.start (l : SGIRGraph) (s : DuplicateScan) : Scanned l s [] { s with visited := [] } := by
  constructor <;> simp [StartOf]

/-- A node that some earlier one reaches begins nothing. -/
theorem Scanned.skip (h : Scanned l s front s') (hn : n.id ∈ s'.visited) : Scanned l s (front ++ [n]) s' := by
  obtain ⟨m, hm, hr⟩ := (h.visited n.id).mp hn
  have hstart : ∀ x, StartOf l (front ++ [n]) x ↔ StartOf l front x := by
    intro x
    rw [startOf_append, or_iff_left]
    rintro ⟨rfl, -, hnone⟩
    exact hnone m hm hr
  constructor
  · intro y
    rw [h.visited y]
    constructor
    · exact fun ⟨k, hk, hy⟩ => ⟨k, List.mem_append_left _ hk, hy⟩
    · rintro ⟨k, hk, hy⟩
      rcases List.mem_append.mp hk with hk | hk
      · exact ⟨k, hk, hy⟩
      · obtain rfl := List.mem_singleton.mp hk
        exact ⟨m, hm, hr.trans hy⟩
  · simpa only [hstart] using h.seen
  · simpa only [hstart] using h.duplicates

theorem visited_append (h : ∀ y, y ∈ s'.visited ↔ ∃ m ∈ front, Reaches l.edgePairs m.id y) (y : String) :
    y ∈ s'.visited ++ bfsComponent n.id l.edgePairs ↔ ∃ m ∈ front ++ [n], Reaches l.edgePairs m.id y := by
  simp only [List.mem_append, h y, mem_bfsComponent, List.mem_singleton, or_and_right, exists_or, exists_eq_left]

/-- A node that reaches no other begins nothing. -/
theorem Scanned.single (h : Scanned l s front s') (hn : ¬ Leads l n.id) :
    Scanned l s (front ++ [n]) { s' with visited := s'.visited ++ bfsComponent n.id l.edgePairs } := by
  have hstart : ∀ x, StartOf l (front ++ [n]) x ↔ StartOf l front x := by
    intro x
    rw [startOf_append, or_iff_left]
    rintro ⟨rfl, hleads, -⟩
    exact hn hleads
  exact ⟨visited_append h.visited, by simpa only [hstart] using h.seen, by simpa only [hstart] using h.duplicates⟩

/-- No two starts of one layer have the same signature. -/
theorem Scanned.fresh (h : Scanned l s front s') (hn : n.id ∉ s'.visited) (hleads : Leads l n.id)
    (hx : StartOf l front x) : signature l x ≠ signature l n.id := by
  intro hsame
  obtain ⟨-, before, m, after, rfl, rfl, -⟩ := hx
  have hr : Reaches l.edgePairs m.id n.id := reaches_of_signature hsame.symm hleads .refl
  exact hn ((h.visited n.id).mpr ⟨m, by simp, hr⟩)

theorem Scanned.startOf_append (h : Scanned l s front s') (hn : n.id ∉ s'.visited) (hleads : Leads l n.id) :
    StartOf l (front ++ [n]) x ↔ StartOf l front x ∨ x = n.id := by
  rw [Graph.startOf_append]
  refine or_congr_right ⟨And.left, ?_⟩
  rintro rfl
  exact ⟨rfl, hleads, fun m hm hr => hn ((h.visited n.id).mpr ⟨m, hm, hr⟩)⟩

theorem Scanned.seen_none (h : Scanned l s front s') :
    s'.seenSignatures.get? sig = none → s.seenSignatures.get? sig = none := by
  intro hnone
  cases hs : s.seenSignatures.get? sig with
  | none => rfl
  | some e => exact absurd ((h.seen sig e).mpr (.inl hs)) (by simp [hnone])

/-- A signature that was seen came from an earlier layer. -/
theorem Scanned.known (h : Scanned l s front s') (hn : n.id ∉ s'.visited) (hleads : Leads l n.id)
    (he : s'.seenSignatures.get? (signature l n.id) = some e) :
    Scanned l s (front ++ [n]) { s' with
      visited := s'.visited ++ bfsComponent n.id l.edgePairs
      duplicates := s'.duplicates ++ [(e.headD "", n.id)] } := by
  have hold : s.seenSignatures.get? (signature l n.id) = some e := by
    rcases (h.seen _ e).mp he with hold | ⟨-, x, hx, hsame, -⟩
    · exact hold
    · exact absurd hsame (h.fresh hn hleads hx)
  refine ⟨visited_append h.visited, ?_, ?_⟩
  · intro sig f
    rw [h.seen sig f]
    refine or_congr_right (and_congr_right fun hnone => exists_congr fun x => ?_)
    rw [h.startOf_append hn hleads, or_and_right, iff_self_or]
    rintro ⟨rfl, rfl, -⟩
    exact absurd hold (by simp [hnone])
  · intro p
    rw [List.mem_append, h.duplicates p, or_assoc]
    refine or_congr_right ⟨?_, ?_⟩
    · rintro (⟨x, f, hx, hf, rfl⟩ | hp)
      · exact ⟨x, f, (h.startOf_append hn hleads).mpr (.inl hx), hf, rfl⟩
      · exact ⟨n.id, e, (h.startOf_append hn hleads).mpr (.inr rfl), hold, List.mem_singleton.mp hp⟩
    · rintro ⟨x, f, hx, hf, rfl⟩
      rcases (h.startOf_append hn hleads).mp hx with hx | rfl
      · exact .inl ⟨x, f, hx, hf, rfl⟩
      · obtain rfl := Option.some.inj (hold.symm.trans hf)
        exact .inr (List.mem_singleton_self _)

theorem Scanned.unknown (h : Scanned l s front s') (hn : n.id ∉ s'.visited) (hleads : Leads l n.id)
    (hnone : s'.seenSignatures.get? (signature l n.id) = none) :
    Scanned l s (front ++ [n]) { s' with
      visited := s'.visited ++ bfsComponent n.id l.edgePairs
      seenSignatures := s'.seenSignatures.insert (signature l n.id) [n.id] } := by
  have hold := h.seen_none hnone
  refine ⟨visited_append h.visited, ?_, ?_⟩
  · intro sig f
    rw [Dict.get?_insert]
    split
    · rename_i heq
      subst heq
      constructor
      · intro hf
        exact .inr ⟨hold, n.id, (h.startOf_append hn hleads).mpr (.inr rfl), rfl, (Option.some.inj hf).symm⟩
      · rintro (hf | ⟨-, x, hx, hsame, rfl⟩)
        · exact absurd hf (by simp [hold])
        · rcases (h.startOf_append hn hleads).mp hx with hx | rfl
          · exact absurd hsame (h.fresh hn hleads hx)
          · rfl
    · rename_i hne
      rw [h.seen sig f]
      refine or_congr_right (and_congr_right fun _ => exists_congr fun x => ?_)
      rw [h.startOf_append hn hleads, or_and_right, iff_self_or]
      rintro ⟨rfl, rfl, -⟩
      exact absurd rfl hne
  · intro p
    rw [h.duplicates p]
    refine or_congr_right (exists_congr fun x => exists_congr fun f => ?_)
    rw [h.startOf_append hn hleads, or_and_right, iff_self_or]
    rintro ⟨rfl, hf, -⟩
    exact absurd hf (by simp [hold])

theorem Scanned.node (h : Scanned l s front s') : Scanned l s (front ++ [n]) (DuplicateScan.node l s' n) := by
  unfold DuplicateScan.node
  split
  · rename_i hn
    exact h.skip hn
  · rename_i hn
    by_cases hleads : Leads l n.id
    · rw [if_neg (size_bfsComponent.mpr hleads)]
      change Scanned l s (front ++ [n]) (match s'.seenSignatures.get? (signature l n.id) with | some _ => _ | none => _)
      split
      · rename_i e he
        exact h.known hn hleads he
      · rename_i hnone
        exact h.unknown hn hleads hnone
    · rw [if_pos (not_not.mp (mt size_bfsComponent.mp hleads))]
      exact h.single hleads

theorem scanned_layer (s : DuplicateScan) (l : SGIRGraph) : Scanned l s l.nodes (s.layer l) := by
  have hrun : ∀ back front s', Scanned l s front s' →
      Scanned l s (front ++ back) (back.foldl (DuplicateScan.node l) s') := by
    intro back
    induction back with
    | nil => exact fun front s' h => by rwa [List.append_nil]
    | cons n back ih =>
      intro front s' h
      rw [← List.singleton_append, ← List.append_assoc]
      exact ih _ _ h.node
  exact hrun l.nodes [] _ (.start l s)

end

-- ---------------------------------------------------------------------------
-- What all layers find
-- ---------------------------------------------------------------------------

/-- The first of the layers with a component of the signature begins it at `x`. -/
def FirstWith (layers : List SGIRGraph) (sig : List String) (x : String) : Prop :=
  ∃ front l back, layers = front ++ l :: back ∧ IsStart l x ∧ signature l x = sig ∧
    ∀ l₀ ∈ front, ∀ z, IsStart l₀ z → signature l₀ z ≠ sig

/-- A later layer begins at `y` what an earlier one begins at `x`. -/
def Repeats (layers : List SGIRGraph) (x y : String) : Prop :=
  ∃ front l back, layers = front ++ l :: back ∧ IsStart l y ∧ FirstWith front (signature l y) x

structure ScannedLayers (layers : List SGIRGraph) (s : DuplicateScan) : Prop where
  seen : ∀ sig e, s.seenSignatures.get? sig = some e ↔ ∃ x, FirstWith layers sig x ∧ e = [x]
  duplicates : ∀ x y, (x, y) ∈ s.duplicates ↔ Repeats layers x y

section
variable {layers : List SGIRGraph} {l : SGIRGraph} {s : DuplicateScan} {sig : List String} {x y : String}

theorem firstWith_append : FirstWith (layers ++ [l]) sig x ↔
    FirstWith layers sig x ∨ IsStart l x ∧ signature l x = sig ∧
      ∀ l₀ ∈ layers, ∀ z, IsStart l₀ z → signature l₀ z ≠ sig := exists_split_concat

theorem repeats_append : Repeats (layers ++ [l]) x y ↔
    Repeats layers x y ∨ IsStart l y ∧ FirstWith layers (signature l y) x := exists_split_concat

/-- Some layer is the first one with a signature that occurs. -/
theorem exists_firstWith :
    (∃ x, FirstWith layers sig x) ↔ ∃ l ∈ layers, ∃ x, IsStart l x ∧ signature l x = sig := by
  constructor
  · rintro ⟨x, front, l, back, rfl, hx, hsig, -⟩
    exact ⟨l, by simp, x, hx, hsig⟩
  · induction layers using List.reverseRecOn with
    | nil => rintro ⟨l, hl, -⟩; exact absurd hl List.not_mem_nil
    | append_singleton layers k ih =>
      rintro ⟨l, hl, x, hx, hsig⟩
      by_cases hsome : ∃ l₀ ∈ layers, ∃ z, IsStart l₀ z ∧ signature l₀ z = sig
      · obtain ⟨y, hy⟩ := ih hsome
        exact ⟨y, firstWith_append.mpr (.inl hy)⟩
      · simp only [not_exists, not_and] at hsome
        rcases List.mem_append.mp hl with hl | hl
        · exact absurd hsig (hsome l hl x hx)
        · obtain rfl := List.mem_singleton.mp hl
          exact ⟨x, firstWith_append.mpr (.inr ⟨hx, hsig, hsome⟩)⟩

theorem ScannedLayers.seen_eq_none (h : ScannedLayers layers s) : s.seenSignatures.get? sig = none ↔
    ∀ l₀ ∈ layers, ∀ z, IsStart l₀ z → signature l₀ z ≠ sig := by
  rw [Option.eq_none_iff_forall_ne_some]
  simp only [ne_eq, h.seen, not_exists]
  constructor
  · intro hnone l hl z hz hsig
    obtain ⟨x, hx⟩ := exists_firstWith.mpr ⟨l, hl, z, hz, hsig⟩
    exact hnone [x] x ⟨hx, rfl⟩
  · rintro hnone - x ⟨hx, -⟩
    obtain ⟨l, hl, z, hz, hsig⟩ := exists_firstWith.mp ⟨x, hx⟩
    exact hnone l hl z hz hsig

theorem ScannedLayers.layer (h : ScannedLayers layers s) : ScannedLayers (layers ++ [l]) (s.layer l) := by
  have hlayer := scanned_layer s l
  constructor
  · intro sig e
    rw [hlayer.seen, h.seen, h.seen_eq_none]
    simp only [firstWith_append, or_and_right, exists_or]
    refine or_congr_right ⟨?_, ?_⟩
    · rintro ⟨hnone, x, hx, hsig, rfl⟩
      exact ⟨x, ⟨hx, hsig, hnone⟩, rfl⟩
    · rintro ⟨x, ⟨hx, hsig, hnone⟩, rfl⟩
      exact ⟨hnone, x, hx, hsig, rfl⟩
  · intro x y
    rw [hlayer.duplicates, h.duplicates, repeats_append]
    refine or_congr_right ⟨?_, ?_⟩
    · rintro ⟨z, e, hz, he, hp⟩
      obtain ⟨w, hw, rfl⟩ := (h.seen _ e).mp he
      obtain ⟨rfl, rfl⟩ := Prod.mk.inj hp
      exact ⟨hz, hw⟩
    · rintro ⟨hy, hx⟩
      exact ⟨y, [x], hy, (h.seen _ _).mpr ⟨x, hx, rfl⟩, rfl⟩

theorem scannedLayers_foldl (layers : List SGIRGraph) : ScannedLayers layers (layers.foldl DuplicateScan.layer {}) := by
  induction layers using List.reverseRecOn with
  | nil => constructor <;> simp [FirstWith, Repeats]
  | append_singleton layers l ih =>
    rw [List.foldl_append]
    exact ih.layer

end

theorem mem_detectDuplicates {g : SoftwareGraph} {index : GraphIndex} {x y : String} :
    (x, y) ∈ detectDuplicates g index ↔ Repeats g.layers x y :=
  (scannedLayers_foldl g.layers).duplicates x y

end Intelliqx.Graph
