import Intelliqx.Base.SplitOrder
import Intelliqx.Py.FileSystemLaws
import Intelliqx.Storage.LocalFileSystem

/-!
# Portable keys

Keys of non-empty segments joined by single slashes, none of them a dot or two.
Such a key names a file that lies as many directories below the root as the key
has slashes.
-/

namespace Intelliqx.Storage

open Py

def segments (key : String) : List Part := key.toList.splitOn '/'

def Portable (key : String) : Prop :=
  ∀ segment ∈ segments key, segment ≠ [] ∧ segment ≠ dot ∧ segment ≠ dotDot

instance : Decidable (Portable key) :=
  inferInstanceAs (Decidable (∀ segment ∈ segments key, segment ≠ [] ∧ segment ≠ dot ∧ segment ≠ dotDot))

/-- Portable keys, none of which lies below another as a path. -/
structure PortableKeys (keys : List String) : Prop where
  portable : ∀ k ∈ keys, Portable k
  apart : ∀ k ∈ keys, ∀ k' ∈ keys, segments k <+: segments k' → k = k'

theorem segments_injective : Function.Injective segments := fun _ _ h =>
  String.toList_injective (splitOn_injective '/' h)

theorem segments_ne_nil (key : String) : segments key ≠ [] := List.splitOn_ne_nil _ _

theorem ne_segments_of_above (h : initial <+: (segments key).dropLast) : initial ≠ segments key := by
  rintro rfl
  have hlen := h.length_le
  have hpos := List.length_pos_iff.mpr (segments_ne_nil key)
  rw [List.length_dropLast] at hlen
  omega

@[simp] theorem join_segments (key : String) :
    String.ofList (['/'].intercalate (segments key)) = key := by
  rw [segments, List.intercalate_splitOn, String.ofList_toList]

section
variable {key : String} (h : Portable key)
include h

theorem Portable.head_ne : key.toList.head? ≠ some '/' := by
  cases hkey : key.toList with
  | nil => simp
  | cons c rest =>
    rw [List.head?_cons, ne_eq, Option.some.injEq]
    rintro rfl
    have hempty : [] ∈ segments key := by
      rw [segments, hkey, splitOn_cons_self]
      exact List.mem_cons_self
    exact (h [] hempty).1 rfl

theorem Portable.dotDot_not_mem : dotDot ∉ segments key := fun hmem => (h _ hmem).2.2 rfl

theorem Portable.stripSlash_eq : stripSlash key.toList = key.toList := by
  have hhead := h.head_ne
  unfold stripSlash
  split
  · rename_i hkey
    rw [hkey] at hhead
    exact absurd rfl hhead
  · rfl

theorem Portable.path_eq (s : LocalFileSystemObjectStore) :
    s.path key = s.root.append (segments key) := by
  have hroot := PurePath.splitroot_of_no_slash h.head_ne
  have hparts : (PurePath.ofText key.toList).parts = segments key := by
    simp only [PurePath.ofText, hroot]
    apply List.filter_eq_self.mpr
    intro segment hsegment
    have hgood := h segment hsegment
    simp [hgood.1, hgood.2.1]
  rw [LocalFileSystemObjectStore.path, h.stripSlash_eq,
    PurePath.join_of_relative (by simp [PurePath.ofText, hroot]), hparts]

theorem Portable.nulFree_of_path (s : LocalFileSystemObjectStore)
    (hnul : NulFree (s.path key).parts) : NulFree (segments key) := by
  rw [h.path_eq] at hnul
  exact fun part hpart => hnul part (List.mem_append_right _ hpart)

end

end Intelliqx.Storage
