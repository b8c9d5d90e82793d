import Intelliqx.Storage.Keys

/-!
# Agreement of the local stores

When a directory holds the objects of a store in memory, and what a call on one
key does to both.
-/

namespace Intelliqx.Storage

open Py

/-- The directory `here` holds the objects of `mem`, and directories above keys in use. -/
structure Agree (used : List String) (here : Location) (mem : InMemoryObjectStore)
    (s : LocalFileSystemObjectStore) : Prop where
  located : s.fs.locate s.root = .ok here
  directory : s.fs.node? here = some .directory
  files : ∀ parts content, s.fs.node? (here ++ parts) = some (.file content) ↔
    ∃ k, mem.store.get? k = some content ∧ segments k = parts
  directories : ∀ parts, parts ≠ [] → s.fs.node? (here ++ parts) = some .directory →
    ∃ k ∈ used, parts <+: segments k ∧ parts ≠ segments k
  stored : ∀ k ∈ mem.store.keys, k ∈ used ∧ NulFree (segments k)

/-- The files still agree with the objects after both changed at one key. -/
theorem files_of_change (h : Agree used here mem s) {store : Dict String Bytes} {fs' : FileSystem}
    (hstore : ∀ k, store.get? k = if k = key then new else mem.store.get? k)
    (hfs : ∀ parts content, fs'.node? (here ++ parts) = some (.file content) ↔
      if parts = segments key then new = some content
      else s.fs.node? (here ++ parts) = some (.file content)) (parts : List Part) (content : Bytes) :
    fs'.node? (here ++ parts) = some (.file content) ↔
      ∃ k, store.get? k = some content ∧ segments k = parts := by
  rw [hfs]
  split
  · rename_i hparts
    subst hparts
    constructor
    · intro hnew
      exact ⟨key, by rw [hstore, if_pos rfl, hnew], rfl⟩
    · rintro ⟨k, hk, hsegments⟩
      rwa [hstore, if_pos (segments_injective hsegments)] at hk
  · rename_i hparts
    rw [h.files]
    apply exists_congr
    intro k
    apply and_congr_left
    rintro rfl
    have hne : k ≠ key := fun heq => hparts (heq ▸ rfl)
    rw [hstore, if_neg hne]

theorem get?_of_stored {mem : InMemoryObjectStore} (hkey : key ∈ mem.store.keys) :
    ∃ content, mem.store.get? key = some content :=
  Option.isSome_iff_exists.mp (Dict.isSome_get?_iff.mpr hkey)

theorem stored_of_get? {mem : InMemoryObjectStore} (hget : mem.store.get? key = some content) :
    key ∈ mem.store.keys :=
  Dict.isSome_get?_iff.mp (Option.isSome_iff_exists.mpr ⟨content, hget⟩)

/-- All that lies below the directory lies on the way to a key in use. -/
theorem Agree.on_the_way (h : Agree used here mem s) (hne : parts ≠ [])
    (hnode : s.fs.node? (here ++ parts) = some node) : ∃ k ∈ used, parts <+: segments k := by
  cases node with
  | file content =>
    obtain ⟨k, hget, rfl⟩ := (h.files _ _).mp hnode
    exact ⟨k, (h.stored k (stored_of_get? hget)).1, List.prefix_refl _⟩
  | directory =>
    obtain ⟨k, hk, hpre, -⟩ := h.directories parts hne hnode
    exact ⟨k, hk, hpre⟩

-- ---------------------------------------------------------------------------
-- One key
-- ---------------------------------------------------------------------------

section
variable {used : List String} (hused : PortableKeys used) {here : Location}
  {mem : InMemoryObjectStore} {s : LocalFileSystemObjectStore} (h : Agree used here mem s)
  {key : String} (hkey : key ∈ used)
include hused h hkey

theorem node_of_key :
    s.fs.node? (here ++ segments key) = (mem.store.get? key).map .file := by
  cases hnode : s.fs.node? (here ++ segments key) with
  | none =>
    cases hget : mem.store.get? key with
    | none => rfl
    | some content =>
      have hfile := (h.files (segments key) content).mpr ⟨key, hget, rfl⟩
      cases hnode.symm.trans hfile
  | some node =>
    cases node with
    | file content =>
      obtain ⟨k, hget, hk⟩ := (h.files _ _).mp hnode
      rw [← segments_injective hk, hget, Option.map_some]
    | directory =>
      obtain ⟨k, hk, hpre, hne⟩ := h.directories _ (segments_ne_nil key) hnode
      exact absurd (congrArg segments (hused.apart key hkey k hk hpre)) hne

theorem stat_of_key (hnul : NulFree (segments key)) :
    s.fs.stat (s.path key) = .ok node ↔ ∃ content, mem.store.get? key = some content ∧ node = .file content := by
  have hportable := hused.portable key hkey
  rw [hportable.path_eq, FileSystem.stat_append h.located hnul hportable.dotDot_not_mem,
    node_of_key hused h hkey, Option.map_eq_some_iff]
  simp only [eq_comm]

/-- The file is there exactly when the object is. -/
theorem stat_of_stored (hget : mem.store.get? key = some content) :
    s.fs.stat (s.path key) = .ok (.file content) := by
  exact (stat_of_key hused h hkey (h.stored key (stored_of_get? hget)).2).mpr ⟨content, hget, rfl⟩

theorem exists_of_key : s.exists key = mem.exists key := by
  rw [Bool.eq_iff_iff]
  simp only [LocalFileSystemObjectStore.exists, InMemoryObjectStore.exists, Dict.contains_iff,
    FileSystem.exists_iff, ← Dict.isSome_get?_iff, Option.isSome_iff_exists]
  constructor
  · rintro ⟨node, hstat⟩
    by_cases hnul : NulFree (segments key)
    · obtain ⟨content, hget, -⟩ := (stat_of_key hused h hkey hnul).mp hstat
      exact ⟨content, hget⟩
    · have hpath := fun hfree => hnul ((hused.portable key hkey).nulFree_of_path s hfree)
      rw [FileSystem.stat_of_nul hpath] at hstat
      cases hstat
  · rintro ⟨content, hget⟩
    exact ⟨_, stat_of_stored hused h hkey hget⟩

theorem get_of_key : s.get key = mem.get key := by
  have hexists : s.fs.exists (s.path key) = mem.exists key := exists_of_key hused h hkey
  rw [LocalFileSystemObjectStore.get, InMemoryObjectStore.get]
  cases hget : mem.store.get? key with
  | none =>
    have hnot : mem.exists key = false := by
      rw [InMemoryObjectStore.exists, ← Bool.not_eq_true, Dict.contains_iff, ← Dict.isSome_get?_iff, hget]
      simp
    simp [hexists, hnot]
  | some content =>
    have hstat := stat_of_stored hused h hkey hget
    have hthere : s.fs.exists (s.path key) = true := FileSystem.exists_iff.mpr ⟨_, hstat⟩
    simp [hthere, FileSystem.readBytes_of_file hstat, Except.mapError]

theorem delete_of_key : ∃ s', s.delete key = .ok s' ∧ Agree used here (mem.delete key) s' := by
  have hportable := hused.portable key hkey
  cases hget : mem.store.get? key with
  | none =>
    have hnot : key ∉ mem.store.keys := by
      rw [← Dict.isSome_get?_iff, hget]
      simp
    have hexists : s.fs.exists (s.path key) = false := by
      have hsame : s.fs.exists (s.path key) = mem.exists key := exists_of_key hused h hkey
      rw [hsame, InMemoryObjectStore.exists, ← Bool.not_eq_true, Dict.contains_iff]
      exact hnot
    refine ⟨s, by simp [LocalFileSystemObjectStore.delete, hexists], ?_⟩
    rw [InMemoryObjectStore.delete, Dict.erase_of_not_mem hnot]
    exact h
  | some content =>
    have hstat := stat_of_stored hused h hkey hget
    have hexists : s.fs.exists (s.path key) = true := FileSystem.exists_iff.mpr ⟨_, hstat⟩
    have hnode : s.fs.node? (here ++ segments key) = some (.file content) := by
      rw [node_of_key hused h hkey, hget, Option.map_some]
    have hloc : s.fs.locate (s.path key) = .ok (here ++ segments key) := by
      rw [hportable.path_eq, s.fs.locate_append (h.stored key (stored_of_get? hget)).2 h.located]
      exact s.fs.walk_to_node hportable.dotDot_not_mem hnode
    obtain ⟨fs', hunlink, hkeeps, hnodes⟩ := FileSystem.unlink_of_locate hloc hnode
    refine ⟨{ s with fs := fs' }, by simp [LocalFileSystemObjectStore.delete, hexists, hunlink], ?_⟩
    refine ⟨hkeeps.locate h.located, hkeeps.2 _ h.directory, ?_, ?_, ?_⟩
    · apply files_of_change h (fun k => Dict.get?_erase)
      intro parts content'
      simp only [hnodes, Function.update_apply, List.append_cancel_left_eq]
      split <;> simp
    · intro parts hparts hdirectory
      simp only [hnodes, Function.update_apply] at hdirectory
      split at hdirectory
      · cases hdirectory
      · exact h.directories parts hparts hdirectory
    · intro k hk
      exact h.stored k (Dict.mem_keys_erase.mp hk).2

theorem no_file_above {initial : List Part} (hinitial : initial <+: (segments key).dropLast) (content : Bytes) :
    s.fs.node? (here ++ initial) ≠ some (.file content) := by
  intro hfile
  obtain ⟨k, hget, rfl⟩ := (h.files _ _).mp hfile
  have heq := hused.apart k (h.stored k (stored_of_get? hget)).1 key hkey (hinitial.trans (List.dropLast_prefix _))
  exact ne_segments_of_above hinitial (congrArg segments heq)

theorem put_of_key (hnul : NulFree (segments key)) (value : Bytes) :
    ∃ tag s', s.put key value = (.ok tag, s') ∧ Agree used here (mem.put key value).2 s' := by
  have hportable := hused.portable key hkey
  have hfree : ∀ initial, initial <+: (segments key).dropLast → ∀ content,
      s.fs.node? (here ++ initial) ≠ some (.file content) :=
    fun initial => no_file_above hused h hkey
  have habove : (s.path key).parent = s.root.append (segments key).dropLast := by
    rw [hportable.path_eq, PurePath.parent_append (segments_ne_nil key)]
  obtain ⟨fs₁, hmkdir, hmakes⟩ := FileSystem.mkdir_append h.located h.directory
    (fun part hpart => hnul part (List.mem_of_mem_dropLast hpart))
    (fun hmem => hportable.dotDot_not_mem (List.mem_of_mem_dropLast hmem)) hfree
  have hloc : fs₁.locate (s.path key) = .ok (here ++ segments key) := by
    rw [hportable.path_eq]
    exact fs₁.locate_to (hmakes.keeps.locate h.located) hnul hportable.dotDot_not_mem
      fun _ => hmakes.made _ (List.prefix_refl _)
  have hnode : fs₁.node? (here ++ segments key) ≠ some .directory := by
    rw [hmakes.others, node_of_key hused h hkey]
    · cases mem.store.get? key <;> simp
    · intro initial hinitial heq
      exact ne_segments_of_above hinitial (List.append_cancel_left heq).symm
  obtain ⟨fs₂, hwrite, hkeeps, hnodes⟩ := FileSystem.writeBytes_of_locate value hloc hnode
  refine ⟨"local-" ++ toString value.length, { s with fs := fs₂ }, ?_, ?_⟩
  · simp only [LocalFileSystemObjectStore.put, habove, hmkdir, hwrite]
  · refine ⟨(hmakes.keeps.trans hkeeps).locate h.located, (hmakes.keeps.trans hkeeps).2 _ h.directory,
      ?_, ?_, ?_⟩
    · apply files_of_change h (fun k => Dict.get?_insert)
      intro parts content
      simp only [hnodes, Function.update_apply, List.append_cancel_left_eq]
      split
      · simp
      · exact hmakes.file_iff hfree
    · intro parts hparts hdirectory
      simp only [hnodes, Function.update_apply] at hdirectory
      split at hdirectory
      · cases hdirectory
      · rcases hmakes.directory_or hdirectory with hold | ⟨initial, hinitial, heq⟩
        · exact h.directories parts hparts hold
        · cases List.append_cancel_left heq
          exact ⟨key, hkey, hinitial.trans (List.dropLast_prefix _), ne_segments_of_above hinitial⟩
    · intro k hk
      rcases Dict.mem_keys_insert.mp hk with rfl | hk
      · exact ⟨hkey, hnul⟩
      · exact h.stored k hk

omit h in
theorem put_of_nul (hnul : ¬ NulFree (segments key)) (value : Bytes) :
    ∃ e s', s.put key value = (.error e, s') := by
  have hpath := fun hfree => hnul ((hused.portable key hkey).nulFree_of_path s hfree)
  rw [LocalFileSystemObjectStore.put]
  split
  · exact ⟨_, _, rfl⟩
  · rw [FileSystem.writeBytes_of_nul value hpath]
    exact ⟨_, _, rfl⟩

end

end Intelliqx.Storage
