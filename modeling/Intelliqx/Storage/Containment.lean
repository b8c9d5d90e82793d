import Intelliqx.Py.FileSystemLaws
import Intelliqx.Storage.LocalFileSystem

/-!
# Staying inside the root

`path` strips one leading slash of a key and joins the rest to the root, so
`..` leads out of it and a second slash leads anywhere. `stays_inside_iff` says
which keys keep all four operations inside.
-/

namespace Intelliqx.Storage

open Py FileSystem

/-- `LocalFileSystemObjectStore(root)` on a file system. -/
def storeAt (root : String) (fs : FileSystem) : LocalFileSystemObjectStore := ⟨.ofText root.toList, fs⟩

namespace LocalFileSystemObjectStore

/-- Where the root is, and where a key leads to. -/
def rootLocation (s : LocalFileSystemObjectStore) : Location := s.fs.lexical s.root

def keyLocation (s : LocalFileSystemObjectStore) (key : String) : Location := s.fs.lexical (s.path key)

/-- At or below the root. -/
def Inside (s : LocalFileSystemObjectStore) (loc : Location) : Prop := s.rootLocation <+: loc

instance (s : LocalFileSystemObjectStore) (loc : Location) : Decidable (s.Inside loc) :=
  inferInstanceAs (Decidable (s.rootLocation <+: loc))

/-- Files elsewhere have not changed. -/
def KeepsOutside (s s' : LocalFileSystemObjectStore) : Prop :=
  ∀ loc, ¬ s.Inside loc → ∀ content, s'.fs.node? loc = some (.file content) ↔ s.fs.node? loc = some (.file content)

/-- A key leads to a place inside, and no operation reads, writes or finds anything elsewhere. -/
structure StaysInside (s : LocalFileSystemObjectStore) (key : String) : Prop where
  leads : s.Inside (s.keyLocation key)
  put : ∀ value, s.KeepsOutside (s.put key value).2
  delete : ∀ s', s.delete key = .ok s' → s.KeepsOutside s'
  get : ∀ content, s.get key = .ok content → ∃ loc, s.Inside loc ∧ s.fs.node? loc = some (.file content)
  finds : s.exists key → ∃ loc, s.Inside loc ∧ s.fs.node? loc ≠ none

/-- Behind one slash, a key is relative and leads down by the names it has climbed up, if any, or it is
absolute and leads below the root. -/
def LeadsInside (s : LocalFileSystemObjectStore) (key : String) : Prop :=
  let path := PurePath.ofText (stripSlash key.toList)
  if path.root = .none then
    s.rootLocation.drop (s.rootLocation.length - (climb path.parts).1) <+: (climb path.parts).2
  else s.rootLocation <+: collapse path.parts

end LocalFileSystemObjectStore

open LocalFileSystemObjectStore

section
variable {root key : String} {fs : FileSystem}

theorem clean_ofText {text : List Char} : ∀ part ∈ (PurePath.ofText text).parts, part ≠ [] ∧ part ≠ dot :=
  fun _ h => of_decide_eq_true (List.mem_filter.mp h).2

theorem clean_path (key : String) (s : LocalFileSystemObjectStore)
    (hroot : ∀ part ∈ s.root.parts, part ≠ [] ∧ part ≠ dot) :
    ∀ part ∈ (s.path key).parts, part ≠ [] ∧ part ≠ dot := by
  rw [LocalFileSystemObjectStore.path, PurePath.join]
  split
  · exact fun part h => (List.mem_append.mp h).elim (hroot part) (clean_ofText part)
  · exact clean_ofText

/-- The root and the key one after the other, unless the key is absolute. -/
theorem keyLocation_eq (s : LocalFileSystemObjectStore) (key : String) : s.keyLocation key =
    if (PurePath.ofText (stripSlash key.toList)).root = .none then
      (PurePath.ofText (stripSlash key.toList)).parts.foldl collapseStep s.rootLocation
    else collapse (PurePath.ofText (stripSlash key.toList)).parts := by
  rw [keyLocation, LocalFileSystemObjectStore.path, PurePath.join]
  split
  · rename_i hroot
    rw [if_pos hroot, rootLocation, FileSystem.lexical, FileSystem.lexical, PurePath.append, List.foldl_append]
  · rename_i hroot
    rw [if_neg hroot, FileSystem.lexical, if_neg hroot, collapse]

theorem inside_iff (s : LocalFileSystemObjectStore) (key : String) :
    s.Inside (s.keyLocation key) ↔ s.LeadsInside key := by
  rw [Inside, keyLocation_eq, LeadsInside]
  split
  · rw [foldl_collapseStep_eq_climb]
    exact Iff.trans (by rw [List.take_append_drop]) (List.prefix_append_right_inj (s.rootLocation.take _))
  · exact .rfl

/-- What a path is found at is where it leads to. -/
theorem keyLocation_of_locate {fs' : FileSystem} (hcwd : fs'.cwd = fs.cwd)
    (h : fs'.locate ((storeAt root fs).path key) = .ok loc) : loc = (storeAt root fs).keyLocation key := by
  have hclean := clean_path key (storeAt root fs) clean_ofText
  rw [lexical_of_locate hclean h, keyLocation, FileSystem.lexical, FileSystem.lexical, hcwd]
  rfl

section
variable (hinside : (storeAt root fs).Inside ((storeAt root fs).keyLocation key))
include hinside

theorem put_keepsOutside (value : Bytes) : (storeAt root fs).KeepsOutside ((storeAt root fs).put key value).2 := by
  intro l hl content
  have hsame := sameFiles_mkdir fs ((storeAt root fs).path key).parent
  rw [LocalFileSystemObjectStore.put]
  split
  · rename_i hmkdir
    exact (congrArg Prod.snd hmkdir ▸ hsame).files l content
  · rename_i fs' hmkdir
    have hsame : fs.SameFiles fs' := by
      rw [show fs.mkdir ((storeAt root fs).path key).parent = (.ok (), fs') from hmkdir] at hsame
      exact hsame
    split
    · exact hsame.files l content
    · rename_i hwrite
      obtain ⟨loc, hloc, hnode⟩ := writeBytes_changes hwrite
      have hne : l ≠ loc := fun h => hl (h ▸ keyLocation_of_locate hsame.cwd hloc ▸ hinside)
      rw [hnode, Function.update_of_ne hne]
      exact hsame.files l content

theorem delete_keepsOutside (h : (storeAt root fs).delete key = .ok s') : (storeAt root fs).KeepsOutside s' := by
  intro l hl content
  rw [LocalFileSystemObjectStore.delete] at h
  split at h
  · split at h
    · cases h
    · rename_i hunlink
      cases h
      obtain ⟨loc, hloc, hnode⟩ := unlink_changes hunlink
      have hne : l ≠ loc := fun h => hl (h ▸ keyLocation_of_locate rfl hloc ▸ hinside)
      rw [hnode, Function.update_of_ne hne]
  · cases h
    rfl

theorem exists_node_inside (h : fs.stat ((storeAt root fs).path key) = .ok node) :
    ∃ loc, (storeAt root fs).Inside loc ∧ fs.node? loc = some node := by
  rw [stat] at h
  split at h
  · cases h
  · rename_i loc hloc
    refine ⟨loc, keyLocation_of_locate rfl hloc ▸ hinside, ?_⟩
    split at h
    · rename_i hnode
      cases h
      exact hnode
    · cases h

end

/-- A key keeps all operations inside the root exactly if it leads inside. -/
theorem stays_inside_iff (root : String) (fs : FileSystem) (key : String) :
    (storeAt root fs).StaysInside key ↔ (storeAt root fs).LeadsInside key := by
  rw [← inside_iff]
  refine ⟨StaysInside.leads, fun hinside => ⟨hinside, put_keepsOutside hinside,
    fun s' h => delete_keepsOutside hinside h, ?_, ?_⟩⟩
  · intro content h
    rw [LocalFileSystemObjectStore.get] at h
    split at h
    · rw [readBytes] at h
      split at h
      · cases h
      · cases h
      · rename_i hstat
        cases h
        exact exists_node_inside hinside hstat
    · cases h
  · intro h
    obtain ⟨node, hnode⟩ := exists_iff.mp h
    obtain ⟨loc, hloc, hfound⟩ := exists_node_inside hinside hnode
    exact ⟨loc, hloc, by simp [storeAt, hfound]⟩

/-- A store at `/data` on a file system with nothing else in it. -/
def dataOnly : FileSystem where
  nodes := Dict.ofList [([['d', 'a', 't', 'a']], .directory)]
  cwd := []
  hangs := by decide
  stands := rfl

/-- `../x` leads to a file next to the root, and so does `//x`. -/
theorem keys_lead_out : ¬ (storeAt "/data" dataOnly).StaysInside "../x" ∧
    ((storeAt "/data" dataOnly).put "../x" [1]).2.fs.node? [['x']] = some (.file [1]) ∧
    ¬ (storeAt "/data" dataOnly).StaysInside "//x" ∧
    ((storeAt "/data" dataOnly).put "//x" [1]).2.fs.node? [['x']] = some (.file [1]) := by
  refine ⟨fun h => absurd h.leads (by decide), by decide, fun h => absurd h.leads (by decide), by decide⟩

end

end Intelliqx.Storage
