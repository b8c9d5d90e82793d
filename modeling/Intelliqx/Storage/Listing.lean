import Intelliqx.Storage.Agree

/-!
# Listings of the local stores

The store in memory lists the keys that start with the prefix, in the order of
the keys. The one on the file system takes the prefix for a path and lists what
lies below it, component by component. `list_eq_iff` says when the two listings
are the same.
-/

namespace Intelliqx.Storage

open Py

/-- The path that the store on the file system takes a prefix for. -/
def prefixPath (pre : String) : PurePath := .ofText (stripSlash pre.toList)

/-- The prefix leads down from the root directory. -/
def LeadsDown (pre : String) : Prop :=
  (prefixPath pre).root = .none ∧ dotDot ∉ (prefixPath pre).parts

instance : Decidable (LeadsDown pre) := inferInstanceAs (Decidable (_ ∧ _))

def Below (pre key : String) : Prop :=
  (prefixPath pre).parts <+: segments key ∧ (prefixPath pre).parts ≠ segments key

def StartsWith (pre key : String) : Prop := pre.toList <+: key.toList

/-- After a common part, `k` goes on with a slash and `k'` with something smaller. -/
def SlashClash (k k' : String) : Prop := SeparatorClash '/' k.toList k'.toList

/-- The prefix means the same for the keys as texts and as paths. Where it does
not lead down from the root, there is nothing that it could mean. -/
def PrefixMeansTheSame (mem : InMemoryObjectStore) (s : LocalFileSystemObjectStore) (pre : String) : Prop :=
  if LeadsDown pre then
    (∀ k ∈ mem.store.keys, StartsWith pre k ↔ Below pre k) ∧
      ∀ k ∈ mem.store.keys, ∀ k' ∈ mem.store.keys, StartsWith pre k → StartsWith pre k' → ¬ SlashClash k k'
  else
    (∀ k ∈ mem.store.keys, ¬ StartsWith pre k) ∧
      ∀ p ∈ s.fs.rglob (s.root.join (stripSlash pre.toList)), s.fs.isFile p = false

-- ---------------------------------------------------------------------------
-- In memory
-- ---------------------------------------------------------------------------

theorem mem_list_memory {mem : InMemoryObjectStore} :
    k ∈ mem.list pre ↔ k ∈ mem.store.keys ∧ StartsWith pre k := by
  simp [InMemoryObjectStore.list, StartsWith, List.mem_filter, List.mem_insertionSort,
    List.isPrefixOf_iff_prefix]

theorem list_memory_eq_nil {mem : InMemoryObjectStore} :
    mem.list pre = [] ↔ ∀ k ∈ mem.store.keys, ¬ StartsWith pre k := by
  simp only [List.eq_nil_iff_forall_not_mem, mem_list_memory, not_and]

theorem pairwise_list_memory (mem : InMemoryObjectStore) (pre : String) :
    (mem.list pre).Pairwise fun k k' => k.toList < k'.toList := by
  have hsorted := List.pairwise_insertionSort (· ≤ ·) mem.store.keys
  have hnodup : (mem.store.keys.insertionSort (· ≤ ·)).Nodup :=
    (List.perm_insertionSort _ _).nodup_iff.mpr mem.store.nodup
  apply List.Pairwise.sublist List.filter_sublist
  apply (hsorted.and hnodup).imp
  rintro k k' ⟨hle, hne⟩
  exact String.lt_iff_toList_lt.mp (lt_of_le_of_ne hle hne)

-- ---------------------------------------------------------------------------
-- On the file system
-- ---------------------------------------------------------------------------

theorem mem_found {s : LocalFileSystemObjectStore} :
    p ∈ s.found base ↔ p ∈ s.fs.rglob base ∧ s.fs.isFile p = true := by
  rw [LocalFileSystemObjectStore.found, List.mem_filter, List.mem_insertionSort]

theorem found_eq_nil {s : LocalFileSystemObjectStore} :
    s.found base = [] ↔ ∀ p ∈ s.fs.rglob base, s.fs.isFile p = false := by
  simp only [List.eq_nil_iff_forall_not_mem, mem_found, not_and, Bool.not_eq_true]

theorem pairwise_found (s : LocalFileSystemObjectStore) (base : PurePath) :
    (s.found base).Pairwise fun p q => p.parts < q.parts := by
  have hle : (s.found base).Pairwise fun p q => p.parts ≤ q.parts := by
    have : IsTrans PurePath fun p q => p.parts ≤ q.parts := ⟨fun _ _ _ => le_trans⟩
    have : Std.Total fun p q : PurePath => p.parts ≤ q.parts := ⟨fun p q => le_total p.parts q.parts⟩
    exact (List.pairwise_insertionSort _ _).sublist List.filter_sublist
  have hnodup : (s.found base).Nodup :=
    ((List.perm_insertionSort _ _).nodup_iff.mpr (s.fs.nodup_rglob base)).filter _
  apply (hle.and hnodup).imp_of_mem
  rintro p q hp hq ⟨hle, hne⟩
  obtain ⟨parts, rfl⟩ := FileSystem.eq_append_of_mem_rglob (mem_found.mp hp).1
  obtain ⟨parts', rfl⟩ := FileSystem.eq_append_of_mem_rglob (mem_found.mp hq).1
  apply lt_of_le_of_ne hle
  intro heq
  apply hne
  rw [PurePath.append, PurePath.append]
  exact congrArg (PurePath.mk base.root) heq

theorem list_eq (s : LocalFileSystemObjectStore) (pre : String) :
    s.list pre = (s.found (s.root.join (stripSlash pre.toList))).mapM s.keyOf := by
  simp only [LocalFileSystemObjectStore.list]
  split
  · rfl
  · rename_i hexists
    rw [LocalFileSystemObjectStore.found, FileSystem.rglob_of_not_exists (by simpa using hexists)]
    rfl

theorem str_segments (key : String) : (PurePath.mk .none (segments key)).str = key := by
  simp [PurePath.str, segments_ne_nil, Root.text]

theorem segments_str (hne : parts ≠ []) :
    segments (PurePath.mk .none parts).str = parts.flatMap (List.splitOn '/') := by
  simp [segments, PurePath.str, hne, Root.text, splitOn_intercalate_eq_flatMap]

theorem head?_of_stripSlash (h : (stripSlash text).head? = some '/') : text.head? = some '/' := by
  unfold stripSlash at h
  split at h
  · rfl
  · exact h

theorem keyOf_append (s : LocalFileSystemObjectStore) (parts : List Part) :
    s.keyOf (s.root.append parts) = .ok (PurePath.mk .none parts).str := by
  simp [LocalFileSystemObjectStore.keyOf]

section
variable {used : List String} (hused : PortableKeys used) {here : Location}
  {mem : InMemoryObjectStore} {s : LocalFileSystemObjectStore} (h : Agree used here mem s)
  {pre : String}
include hused h

/-- The files found below a path that leads down are those of the objects there. -/
theorem mem_found_below (hplain : LeadsDown pre) :
    p ∈ s.found (s.root.append (prefixPath pre).parts) ↔
      ∃ k ∈ mem.store.keys, Below pre k ∧ p = s.root.append (segments k) := by
  rw [mem_found]
  constructor
  · rintro ⟨hp, hfile⟩
    obtain ⟨content, hstat⟩ := FileSystem.isFile_iff.mp hfile
    have hnulPath : NulFree p.parts := by
      by_contra hnul
      rw [FileSystem.stat_of_nul hnul] at hstat
      cases hstat
    obtain ⟨parts, rfl⟩ := FileSystem.eq_append_of_mem_rglob hp
    rw [PurePath.append_append] at hnulPath hstat hp ⊢
    have hnul : NulFree ((prefixPath pre).parts ++ parts) := fun part hpart =>
      hnulPath part (List.mem_append_right _ hpart)
    have hnulPre : NulFree (prefixPath pre).parts := fun part hpart =>
      hnul part (List.mem_append_left _ hpart)
    obtain ⟨rest, hrest, heq, node, hnode⟩ :=
      (FileSystem.mem_rglob_append h.located hnulPre hplain.2).mp hp
    cases List.append_cancel_left (List.append_cancel_left (congrArg PurePath.parts heq))
    obtain ⟨k, hk, hway⟩ := h.on_the_way (by simp [hrest]) hnode
    have hdots : dotDot ∉ (prefixPath pre).parts ++ parts := fun hmem =>
      (hused.portable k hk).dotDot_not_mem (hway.subset hmem)
    have hfile := (FileSystem.stat_append h.located hnul hdots).mp hstat
    obtain ⟨k', hget, hk'⟩ := (h.files _ _).mp hfile
    refine ⟨k', stored_of_get? hget, ⟨hk' ▸ List.prefix_append _ _, ?_⟩, by rw [hk']⟩
    rw [hk']
    simpa using hrest
  · rintro ⟨k, hk, ⟨⟨rest, hsegments⟩, hne⟩, rfl⟩
    obtain ⟨hkey, hnul⟩ := h.stored k hk
    obtain ⟨content, hget⟩ := get?_of_stored hk
    have hnode : s.fs.node? (here ++ segments k) = some (.file content) :=
      (h.files _ _).mpr ⟨k, hget, rfl⟩
    have hdots := (hused.portable k hkey).dotDot_not_mem
    refine ⟨?_, (FileSystem.isFile_append h.located hnul hdots).mpr ⟨content, hnode⟩⟩
    have hnulPre : NulFree (prefixPath pre).parts := fun part hpart =>
      hnul part (hsegments ▸ List.mem_append_left _ hpart)
    have hrest : rest ≠ [] := by
      rintro rfl
      exact hne (by rw [← hsegments, List.append_nil])
    rw [← hsegments] at hnode ⊢
    exact (FileSystem.mem_rglob_append h.located hnulPre hplain.2).mpr ⟨rest, hrest, rfl, _, hnode⟩

/-- Such a path is answered with the keys below it, in the order of their segments. -/
theorem list_below (hplain : LeadsDown pre) :
    ∃ keys, s.list pre = .ok keys ∧ (∀ k, k ∈ keys ↔ k ∈ mem.store.keys ∧ Below pre k) ∧
      keys.Pairwise fun k k' => segments k < segments k' := by
  have hbase : s.root.join (stripSlash pre.toList) = s.root.append (prefixPath pre).parts :=
    PurePath.join_of_relative hplain.1
  have hfound : ∀ {p}, p ∈ s.found (s.root.append (prefixPath pre).parts) ↔
      ∃ k ∈ mem.store.keys, Below pre k ∧ p = s.root.append (segments k) :=
    mem_found_below hused h hplain
  let name : PurePath → String := fun p => (PurePath.mk .none (p.parts.drop s.root.parts.length)).str
  have hname : ∀ k, name (s.root.append (segments k)) = k := by
    intro k
    simp only [name, PurePath.append, List.drop_left, str_segments]
  refine ⟨(s.found (s.root.append (prefixPath pre).parts)).map name, ?_, ?_, ?_⟩
  · rw [list_eq, hbase]
    apply mapM_eq_ok_map
    intro p hp
    obtain ⟨k, -, -, rfl⟩ := hfound.mp hp
    rw [keyOf_append, hname, str_segments]
  · intro k
    rw [List.mem_map]
    constructor
    · rintro ⟨p, hp, rfl⟩
      obtain ⟨k, hk, hbelow, rfl⟩ := hfound.mp hp
      rw [hname]
      exact ⟨hk, hbelow⟩
    · rintro ⟨hk, hbelow⟩
      exact ⟨_, hfound.mpr ⟨k, hk, hbelow, rfl⟩, hname k⟩
  · rw [List.pairwise_map]
    apply (pairwise_found s _).imp_of_mem
    intro p q hp hq hlt
    obtain ⟨k, -, -, rfl⟩ := hfound.mp hp
    obtain ⟨k', -, -, rfl⟩ := hfound.mp hq
    rw [hname, hname]
    exact lt_of_append_left_lt hlt

/-- A key that starts with some other prefix is not what the file system answers. -/
theorem not_startsWith (hplain : ¬ LeadsDown pre) (hlist : s.list pre = .ok (mem.list pre))
    (hk : k ∈ mem.store.keys) : ¬ StartsWith pre k := by
  intro hstart
  have hportable := hused.portable k (h.stored k hk).1
  by_cases hroot : (prefixPath pre).root = .none
  · have hdots : dotDot ∈ (prefixPath pre).parts := by
      by_contra hdots
      exact hplain ⟨hroot, hdots⟩
    have hbase : s.root.join (stripSlash pre.toList) = s.root.append (prefixPath pre).parts :=
      PurePath.join_of_relative hroot
    rw [list_eq, hbase] at hlist
    obtain ⟨p, hp, hname⟩ := (mem_mapM_ok_iff hlist).mp (mem_list_memory.mpr ⟨hk, hstart⟩)
    obtain ⟨parts, rfl⟩ := FileSystem.eq_append_of_mem_rglob (mem_found.mp hp).1
    rw [PurePath.append_append, keyOf_append] at hname
    cases hname
    apply hportable.dotDot_not_mem
    rw [segments_str (List.append_ne_nil_of_left_ne_nil (List.ne_nil_of_mem hdots) _)]
    exact List.mem_flatMap.mpr ⟨dotDot, List.mem_append_left _ hdots, by decide⟩
  · have hslash := PurePath.slash_of_rooted hroot
    apply hportable.head_ne
    obtain ⟨rest, hrest⟩ := hstart
    rw [← hrest, List.head?_append, head?_of_stripSlash hslash]
    rfl

theorem list_eq_iff : s.list pre = .ok (mem.list pre) ↔ PrefixMeansTheSame mem s pre := by
  by_cases hplain : LeadsDown pre
  · obtain ⟨keys, hlist, hmem, hsorted⟩ := list_below hused h hplain
    have hapart : ∀ k ∈ keys, ∀ k' ∈ keys, segments k <+: segments k' → k = k' := by
      intro k hk k' hk'
      exact hused.apart k (h.stored k ((hmem k).mp hk).1).1 k' (h.stored k' ((hmem k').mp hk').1).1
    have htext : Function.Injective String.toList := fun _ _ => String.toList_injective
    rw [hlist, Except.ok.injEq, eq_comm, PrefixMeansTheSame, if_pos hplain,
      eq_iff_of_splitOn_sorted htext (pairwise_list_memory mem pre) hsorted hapart]
    simp only [mem_list_memory, hmem, SlashClash]
    constructor
    · rintro ⟨hsame, hclash⟩
      refine ⟨?_, fun k hk k' hk' hpre hpre' => hclash k ⟨hk, hpre⟩ k' ⟨hk', hpre'⟩⟩
      intro k hk
      simpa [hk] using hsame k
    · rintro ⟨hsame, hclash⟩
      refine ⟨?_, fun k hk k' hk' => hclash k hk.1 k' hk'.1 hk.2 hk'.2⟩
      intro k
      exact and_congr_right (hsame k)
  · rw [PrefixMeansTheSame, if_neg hplain]
    constructor
    · intro hlist
      have hnone : ∀ k ∈ mem.store.keys, ¬ StartsWith pre k := fun k =>
        not_startsWith hused h hplain hlist
      rw [list_eq, list_memory_eq_nil.mpr hnone, mapM_eq_ok_iff, List.forall₂_nil_right_iff] at hlist
      exact ⟨hnone, found_eq_nil.mp hlist⟩
    · rintro ⟨hnone, hfiles⟩
      rw [list_eq, found_eq_nil.mpr hfiles, list_memory_eq_nil.mpr hnone]
      rfl

end

end Intelliqx.Storage
