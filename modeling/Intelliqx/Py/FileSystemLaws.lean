import Intelliqx.Py.FileSystem

/-!
# Laws of the file system

What the operations find and leave behind, by location. Below a path whose
location is known, components without `..` name what lies there (`stat_append`,
`mem_rglob_append`), and directories are made without touching anything else
(`mkdir_append`).
-/

namespace Intelliqx.Py.FileSystem

section
variable {fs : FileSystem}

theorem stat_of_locate (hloc : fs.locate path = .ok loc) :
    fs.stat path = .ok node ↔ fs.node? loc = some node := by
  simp only [stat, hloc]
  cases fs.node? loc <;> simp

theorem stat_of_nul (h : ¬ NulFree path.parts) : fs.stat path = .error .valueError := by
  rw [stat, locate, if_neg h]

theorem exists_iff : fs.exists path = true ↔ ∃ node, fs.stat path = .ok node := by
  unfold «exists»
  split <;> simp_all

theorem isDir_iff : fs.isDir path = true ↔ fs.stat path = .ok .directory := by
  unfold isDir
  split <;> simp_all

theorem isFile_iff : fs.isFile path = true ↔ ∃ content, fs.stat path = .ok (.file content) := by
  unfold isFile
  split <;> simp_all

theorem readBytes_of_file (h : fs.stat path = .ok (.file content)) :
    fs.readBytes path = .ok content := by
  rw [readBytes, h]

theorem osMkdir_of_locate (hloc : fs.locate path = .ok loc) (hnode : fs.node? loc = none) :
    ∃ fs', fs.osMkdir path = .ok fs' ∧ fs.KeepsDirectories fs' ∧
      fs'.node? = Function.update fs.node? loc (some .directory) := by
  have hvacant : fs.Vacant loc := fs.vacant_of_locate hloc (by simp [hnode])
  refine ⟨fs.insert loc .directory hvacant, ?_, keepsDirectories_insert hvacant, node?_insert hvacant⟩
  unfold osMkdir
  split
  · rename_i hloc'
    cases hloc'.symm.trans hloc
  · rename_i hloc'
    cases hloc'.symm.trans hloc
    rw [dif_pos hnode]

theorem mkdirHere_of_directory (h : fs.stat path = .ok .directory) :
    fs.mkdirHere path = .ok fs := by
  have hmkdir : fs.osMkdir path = .error .fileExistsError := by
    unfold osMkdir
    split
    · rename_i hloc
      simp [stat, hloc] at h
    · rename_i hloc
      rw [stat_of_locate hloc] at h
      rw [dif_neg (by simp [h])]
  rw [mkdirHere, hmkdir]
  exact if_pos (isDir_iff.mpr h)

theorem writeBytes_of_locate (value : List UInt8) (hloc : fs.locate path = .ok loc)
    (hnode : fs.node? loc ≠ some .directory) :
    ∃ fs', fs.writeBytes path value = .ok fs' ∧ fs.KeepsDirectories fs' ∧
      fs'.node? = Function.update fs.node? loc (some (.file value)) := by
  have hvacant := fs.vacant_of_locate hloc hnode
  refine ⟨fs.insert loc (.file value) hvacant, ?_, keepsDirectories_insert hvacant, node?_insert hvacant⟩
  unfold writeBytes
  split
  · rename_i hloc'
    cases hloc'.symm.trans hloc
  · rename_i hloc'
    cases hloc'.symm.trans hloc
    rw [dif_neg hnode]

theorem writeBytes_of_nul (value : List UInt8) (h : ¬ NulFree path.parts) :
    fs.writeBytes path value = .error .valueError := by
  have herror : fs.locate path = .error .valueError := if_neg h
  unfold writeBytes
  split
  · rename_i hloc
    cases hloc.symm.trans herror
    rfl
  · rename_i hloc
    cases hloc.symm.trans herror

theorem unlink_of_locate (hloc : fs.locate path = .ok loc)
    (hnode : fs.node? loc = some (.file content)) :
    ∃ fs', fs.unlink path = .ok fs' ∧ fs.KeepsDirectories fs' ∧
      fs'.node? = Function.update fs.node? loc none := by
  refine ⟨fs.erase loc hnode, ?_, keepsDirectories_erase hnode, node?_erase hnode⟩
  unfold unlink
  rw [hloc]
  simp only
  split
  · rename_i hnode'
    cases hnode'.symm.trans hnode
  · rename_i hnode'
    cases hnode'.symm.trans hnode
  · rename_i hnode'
    cases hnode'.symm.trans hnode
    rfl

end

-- ---------------------------------------------------------------------------
-- Below a location
-- ---------------------------------------------------------------------------

section
variable {fs : FileSystem} (hl : fs.locate path = .ok here) (hnul : NulFree parts)
  (hdots : dotDot ∉ parts)
include hl hnul hdots

theorem stat_append : fs.stat (path.append parts) = .ok node ↔ fs.node? (here ++ parts) = some node := by
  have hloc := fs.locate_append hnul hl
  cases hwalk : fs.walk here parts with
  | ok loc =>
    cases fs.eq_append_of_walk hdots hwalk
    exact stat_of_locate (hloc.trans hwalk)
  | error e =>
    have hstat : fs.stat (path.append parts) = .error e := by rw [stat, hloc, hwalk]
    rw [hstat]
    refine ⟨nofun, ?_⟩
    intro hnode
    cases hwalk.symm.trans (fs.walk_to_node hdots hnode)

theorem isFile_append : fs.isFile (path.append parts) = true ↔
    ∃ content, fs.node? (here ++ parts) = some (.file content) := by
  simp only [isFile_iff, stat_append hl hnul hdots]

end

theorem mem_rglob {fs : FileSystem} (hl : fs.locate path = .ok here) :
    p ∈ fs.rglob path ↔ ∃ parts, parts ≠ [] ∧ p = path.append parts ∧
      ∃ node, fs.node? (here ++ parts) = some node := by
  have hkey : ∀ parts, parts ≠ [] →
      (here ++ parts ∈ fs.nodes.keys ↔ ∃ node, fs.node? (here ++ parts) = some node) := by
    intro parts hparts
    rw [← Dict.isSome_get?_iff, fs.node?_of_ne (by simp [hparts]), Option.isSome_iff_exists]
  simp only [rglob, hl]
  split
  · simp only [List.mem_map, List.mem_filter, decide_eq_true_eq]
    constructor
    · rintro ⟨_, ⟨hloc, ⟨parts, rfl⟩, hne⟩, rfl⟩
      have hparts : parts ≠ [] := by
        rintro rfl
        exact hne (List.append_nil _)
      rw [List.drop_left]
      exact ⟨parts, hparts, rfl, (hkey parts hparts).mp hloc⟩
    · rintro ⟨parts, hparts, rfl, hnode⟩
      refine ⟨here ++ parts, ⟨(hkey parts hparts).mpr hnode, List.prefix_append _ _, by simp [hparts]⟩, ?_⟩
      rw [List.drop_left]
  · rename_i hdir
    refine ⟨nofun, ?_⟩
    rintro ⟨parts, hparts, -, node, hnode⟩
    exact absurd (fs.directory_of_append hnode hparts) hdir

theorem rglob_of_not_exists {fs : FileSystem} (h : fs.exists path = false) : fs.rglob path = [] := by
  unfold rglob
  split
  · rfl
  · rename_i loc hloc
    rw [if_neg]
    intro hnode
    rw [← Bool.not_eq_true, exists_iff] at h
    exact h ⟨_, (stat_of_locate hloc).mpr hnode⟩

theorem eq_append_of_mem_rglob {fs : FileSystem} (h : p ∈ fs.rglob path) :
    ∃ parts, p = path.append parts := by
  unfold rglob at h
  split at h
  · cases h
  · split at h
    · obtain ⟨loc, -, rfl⟩ := List.mem_map.mp h
      exact ⟨_, rfl⟩
    · cases h

theorem mem_rglob_append {fs : FileSystem} (hl : fs.locate path = .ok here) (hnul : NulFree parts)
    (hdots : dotDot ∉ parts) : p ∈ fs.rglob (path.append parts) ↔ ∃ rest, rest ≠ [] ∧
      p = path.append (parts ++ rest) ∧ ∃ node, fs.node? (here ++ (parts ++ rest)) = some node := by
  cases hwalk : fs.walk here parts with
  | ok loc =>
    cases fs.eq_append_of_walk hdots hwalk
    rw [mem_rglob ((fs.locate_append hnul hl).trans hwalk)]
    simp only [PurePath.append_append, List.append_assoc]
  | error e =>
    have hempty : fs.rglob (path.append parts) = [] := by
      rw [rglob, fs.locate_append hnul hl, hwalk]
    rw [hempty]
    refine ⟨nofun, ?_⟩
    rintro ⟨rest, hrest, -, node, hnode⟩
    rw [← List.append_assoc] at hnode
    cases hwalk.symm.trans (fs.walk_to_node hdots (fs.directory_of_append hnode hrest))

theorem nodup_rglob (fs : FileSystem) (path : PurePath) : (fs.rglob path).Nodup := by
  unfold rglob
  split
  · exact List.nodup_nil
  · split
    · apply List.Nodup.map_on
      · intro loc hloc loc' hloc' heq
        simp only [List.mem_filter, decide_eq_true_eq] at hloc hloc'
        obtain ⟨-, ⟨parts, rfl⟩, -⟩ := hloc
        obtain ⟨-, ⟨parts', rfl⟩, -⟩ := hloc'
        simpa [PurePath.append] using heq
      · exact fs.nodes.nodup.filter _
    · exact List.nodup_nil

-- ---------------------------------------------------------------------------
-- Making directories
-- ---------------------------------------------------------------------------

theorem mkdir_of_mkdirHere {fs : FileSystem} (h : fs.mkdirHere path = .ok fs') :
    fs.mkdir path = (.ok (), fs') := by
  rw [mkdir_eq, h]

theorem mkdir_of_missing {fs : FileSystem} (h : fs.mkdirHere path = .error .fileNotFoundError)
    (hne : path.parts ≠ []) (hparent : fs.mkdir path.parent = (.ok (), fs'))
    (hhere : fs'.mkdirHere path = .ok fs'') : fs.mkdir path = (.ok (), fs'') := by
  simp only [mkdir_eq fs path, h, if_neg hne, hparent, hhere]

theorem stat_of_mkdirHere {fs : FileSystem} (h : fs.mkdirHere path = .ok fs') :
    fs'.stat path = .ok .directory := by
  unfold mkdirHere at h
  split at h
  · rename_i hmkdir
    cases h
    unfold osMkdir at hmkdir
    split at hmkdir
    · cases hmkdir
    · rename_i loc hloc
      split at hmkdir
      · cases hmkdir
        have hvacant : fs.Vacant loc := fs.vacant_of_locate hloc (by simp [*])
        rw [stat_of_locate ((keepsDirectories_insert hvacant).locate hloc), node?_insert hvacant,
          Function.update_self]
      · cases hmkdir
  · cases h
  · cases h
  · split at h
    · rename_i hdir
      cases h
      exact isDir_iff.mp hdir
    · cases h

theorem stat_of_mkdir {fs : FileSystem} (h : fs.mkdir path = (.ok (), fs')) :
    fs'.stat path = .ok .directory := by
  rw [mkdir_eq] at h
  split at h
  · cases h
    exact stat_of_mkdirHere ‹_›
  · split at h
    · cases h
    · split at h
      · cases h
      · split at h
        · cases h
          exact stat_of_mkdirHere ‹_›
        · cases h
  · cases h

/-- `fs'` is `fs` with the directories from `here` down to `parts`. -/
structure MakesDirectories (fs : FileSystem) (here : Location) (parts : List Part)
    (fs' : FileSystem) : Prop where
  keeps : fs.KeepsDirectories fs'
  made : ∀ initial, initial <+: parts → fs'.node? (here ++ initial) = some .directory
  others : ∀ loc, (∀ initial, initial <+: parts → loc ≠ here ++ initial) →
    fs'.node? loc = fs.node? loc

theorem makesDirectories_of_directory {fs : FileSystem}
    (h : fs.node? (here ++ parts) = some .directory) : fs.MakesDirectories here parts fs := by
  refine ⟨.refl fs, ?_, fun _ _ => rfl⟩
  rintro initial ⟨rest, rfl⟩
  by_cases hrest : rest = []
  · rwa [hrest, List.append_nil] at h
  · rw [← List.append_assoc] at h
    exact fs.directory_of_append h hrest

theorem MakesDirectories.directory_or {fs fs' : FileSystem} (h : fs.MakesDirectories here parts fs')
    (hnode : fs'.node? loc = some .directory) :
    fs.node? loc = some .directory ∨ ∃ initial, initial <+: parts ∧ loc = here ++ initial := by
  by_cases hloc : ∃ initial, initial <+: parts ∧ loc = here ++ initial
  · exact .inr hloc
  · left
    rw [← h.others loc fun initial hinitial heq => hloc ⟨initial, hinitial, heq⟩, hnode]

theorem MakesDirectories.file_iff {fs fs' : FileSystem} (h : fs.MakesDirectories here parts fs')
    (hfree : ∀ initial, initial <+: parts → ∀ content,
      fs.node? (here ++ initial) ≠ some (.file content)) :
    fs'.node? loc = some (.file content) ↔ fs.node? loc = some (.file content) := by
  by_cases hloc : ∃ initial, initial <+: parts ∧ loc = here ++ initial
  · obtain ⟨initial, hinitial, rfl⟩ := hloc
    simp [h.made initial hinitial, hfree initial hinitial content]
  · rw [h.others loc fun initial hinitial heq => hloc ⟨initial, hinitial, heq⟩]

theorem MakesDirectories.snoc {fs fs' : FileSystem} (h : fs.MakesDirectories here parts fs')
    (hl : fs.locate path = .ok here) (hnul : NulFree (parts ++ [part]))
    (hdots : dotDot ∉ parts ++ [part]) (hnone : fs.node? (here ++ (parts ++ [part])) = none) :
    ∃ fs'', fs'.mkdirHere (path.append (parts ++ [part])) = .ok fs'' ∧
      fs.MakesDirectories here (parts ++ [part]) fs'' := by
  have hparent := h.made parts (List.prefix_refl _)
  have hloc := fs'.locate_to (h.keeps.locate hl) hnul hdots fun _ => by rwa [List.dropLast_concat]
  have hnone' : fs'.node? (here ++ (parts ++ [part])) = none := by
    rw [h.others, hnone]
    intro initial hinitial heq
    have hlen := hinitial.length_le
    rw [← List.append_cancel_left heq, List.length_append, List.length_singleton] at hlen
    omega
  obtain ⟨fs'', hmkdir, hkeeps, hnode⟩ := osMkdir_of_locate hloc hnone'
  refine ⟨fs'', by rw [mkdirHere, hmkdir], h.keeps.trans hkeeps, ?_, ?_⟩
  · intro initial hinitial
    rcases List.prefix_concat_iff.mp hinitial with rfl | hinitial
    · rw [hnode, Function.update_self]
    · exact hkeeps.2 _ (h.made initial hinitial)
  · intro loc hother
    rw [hnode, Function.update_of_ne (hother _ (List.prefix_refl _))]
    exact h.others loc fun initial hinitial => hother initial (hinitial.trans (List.prefix_append _ _))

theorem mkdirHere_of_missing {fs : FileSystem} (hl : fs.locate path = .ok here)
    (hnul : NulFree parts) (hdots : dotDot ∉ parts)
    (hfree : ∀ initial, initial <+: parts → ∀ content,
      fs.node? (here ++ initial) ≠ some (.file content))
    (hwalk : ∀ loc, fs.walk here parts ≠ .ok loc) :
    fs.mkdirHere (path.append parts) = .error .fileNotFoundError := by
  have hloc : fs.locate (path.append parts) = .error .fileNotFoundError := by
    rw [fs.locate_append hnul hl]
    cases h : fs.walk here parts with
    | ok loc => exact absurd h (hwalk loc)
    | error e => rw [fs.error_of_walk hdots hfree h]
  have hmkdir : fs.osMkdir (path.append parts) = .error .fileNotFoundError := by
    unfold osMkdir
    split
    · rename_i hloc'
      cases hloc'.symm.trans hloc
      rfl
    · rename_i hloc'
      cases hloc'.symm.trans hloc
  rw [mkdirHere, hmkdir]

/-- With no file in the way, the directories are made one below the other. -/
theorem mkdir_append {fs : FileSystem} (hl : fs.locate path = .ok here)
    (hdir : fs.node? here = some .directory) (hnul : NulFree parts) (hdots : dotDot ∉ parts)
    (hfree : ∀ initial, initial <+: parts → ∀ content,
      fs.node? (here ++ initial) ≠ some (.file content)) :
    ∃ fs', fs.mkdir (path.append parts) = (.ok (), fs') ∧ fs.MakesDirectories here parts fs' := by
  induction parts using List.reverseRecOn with
  | nil =>
    have hstat := (stat_of_locate hl).mpr hdir
    rw [PurePath.append_nil]
    refine ⟨fs, mkdir_of_mkdirHere (mkdirHere_of_directory hstat), ?_⟩
    exact makesDirectories_of_directory (by rwa [List.append_nil])
  | append_singleton parts part ih =>
    have hnulParts : NulFree parts := fun p hp => hnul p (List.mem_append_left _ hp)
    have hdotsParts : dotDot ∉ parts := fun hp => hdots (List.mem_append_left _ hp)
    cases hnode : fs.node? (here ++ (parts ++ [part])) with
    | some node =>
      cases node with
      | file content => exact absurd hnode (hfree _ (List.prefix_refl _) content)
      | directory =>
        have hstat := (stat_append hl hnul hdots).mpr hnode
        exact ⟨fs, mkdir_of_mkdirHere (mkdirHere_of_directory hstat),
          makesDirectories_of_directory hnode⟩
    | none =>
      by_cases hparent : fs.node? (here ++ parts) = some .directory
      · obtain ⟨fs', hmkdir, hmakes⟩ :=
          (makesDirectories_of_directory hparent).snoc hl hnul hdots hnode
        exact ⟨fs', mkdir_of_mkdirHere hmkdir, hmakes⟩
      · -- the directory above is missing too, and is made first
        have hmissing := mkdirHere_of_missing hl hnul hdots hfree (by
          intro loc hwalk
          cases fs.eq_append_of_walk hdots hwalk
          have habove := fs.walk_keeps_above hwalk (fs.directory_above hdir)
          rw [← List.append_assoc, List.dropLast_concat] at habove
          exact hparent habove)
        obtain ⟨fs', hmkdir, hmakes⟩ := ih hnulParts hdotsParts fun initial hinitial =>
          hfree initial (hinitial.trans (List.prefix_append _ _))
        obtain ⟨fs'', hmkdirHere, hmakes'⟩ := hmakes.snoc hl hnul hdots hnode
        refine ⟨fs'', mkdir_of_missing hmissing (by simp [PurePath.append]) ?_ hmkdirHere, hmakes'⟩
        rwa [PurePath.parent_append (by simp), List.dropLast_concat]

-- ---------------------------------------------------------------------------
-- Where a path leads without a look
-- ---------------------------------------------------------------------------

/-- The components of a path followed from where it starts, as if only directories lay on the way. -/
def lexical (fs : FileSystem) (path : PurePath) : Location :=
  path.parts.foldl collapseStep (if path.root = .none then fs.cwd else [])

/-- `path.resolve()`: without links, the absolute path with nothing left to collapse. -/
def resolve (fs : FileSystem) (path : PurePath) : PurePath where
  root := if path.root = .none then .slash else path.root
  parts := fs.lexical path

theorem foldl_of_walk {fs : FileSystem} (hparts : ∀ part ∈ parts, part ≠ [] ∧ part ≠ dot)
    (h : fs.walk here parts = .ok loc) : loc = parts.foldl collapseStep here := by
  induction parts generalizing here with
  | nil => cases h; rfl
  | cons part parts ih =>
    obtain ⟨hpart, hparts⟩ := List.forall_mem_cons.mp hparts
    rw [walk] at h
    split at h
    · rw [List.foldl_cons, collapseStep, if_neg (not_or.mpr hpart)]
      exact ih hparts h
    · cases h
    · cases h

theorem lexical_of_locate {fs : FileSystem} (hparts : ∀ part ∈ path.parts, part ≠ [] ∧ part ≠ dot)
    (h : fs.locate path = .ok loc) : loc = fs.lexical path := by
  unfold locate at h
  split at h
  · exact foldl_of_walk hparts h
  · cases h

theorem writeBytes_changes {fs fs' : FileSystem} {value : List UInt8} (h : fs.writeBytes path value = .ok fs') :
    ∃ loc, fs.locate path = .ok loc ∧ fs'.node? = Function.update fs.node? loc (some (.file value)) := by
  unfold writeBytes at h
  split at h
  · cases h
  · rename_i loc hloc
    split at h
    · cases h
    · cases h
      exact ⟨loc, hloc, node?_insert _⟩

theorem unlink_changes {fs fs' : FileSystem} (h : fs.unlink path = .ok fs') :
    ∃ loc, fs.locate path = .ok loc ∧ fs'.node? = Function.update fs.node? loc none := by
  unfold unlink at h
  split at h
  · cases h
  · rename_i loc hloc
    split at h
    · cases h
    · cases h
    · cases h
      exact ⟨loc, hloc, node?_erase _⟩

/-- The same files with the same content, under the same working directory. -/
structure SameFiles (fs fs' : FileSystem) : Prop where
  cwd : fs'.cwd = fs.cwd
  files : ∀ loc content, fs'.node? loc = some (.file content) ↔ fs.node? loc = some (.file content)

theorem SameFiles.refl (fs : FileSystem) : fs.SameFiles fs := ⟨rfl, fun _ _ => .rfl⟩

theorem SameFiles.trans {fs fs' fs'' : FileSystem} (h : fs.SameFiles fs') (h' : fs'.SameFiles fs'') :
    fs.SameFiles fs'' :=
  ⟨h'.cwd.trans h.cwd, fun loc content => (h'.files loc content).trans (h.files loc content)⟩

theorem sameFiles_mkdirHere {fs fs' : FileSystem} (h : fs.mkdirHere path = .ok fs') : fs.SameFiles fs' := by
  have hmade : ∀ fs', fs.osMkdir path = .ok fs' → fs.SameFiles fs' := by
    intro fs' hmkdir
    unfold osMkdir at hmkdir
    split at hmkdir
    · cases hmkdir
    · rename_i loc hloc
      split at hmkdir
      · rename_i hnone
        cases hmkdir
        refine ⟨rfl, fun l content => ?_⟩
        rw [node?_insert]
        by_cases hl : l = loc
        · subst hl
          simp [hnone]
        · rw [Function.update_of_ne hl]
      · cases hmkdir
  unfold mkdirHere at h
  split at h
  · cases h
    exact hmade _ ‹_›
  · cases h
  · cases h
  · split at h
    · cases h
      exact .refl fs
    · cases h

/-- Making directories leaves all files as they are, also where it fails on the way. -/
theorem sameFiles_mkdir (fs : FileSystem) (path : PurePath) : fs.SameFiles (fs.mkdir path).2 := by
  have hall : ∀ (root : Root) (above : List Part), fs.SameFiles (fs.mkdirParents root above).2 := by
    intro root above
    induction above with
    | nil =>
      rw [mkdirParents]
      split
      · exact sameFiles_mkdirHere ‹_›
      · exact .refl fs
    | cons part above ih =>
      rw [mkdirParents]
      split
      · exact sameFiles_mkdirHere ‹_›
      · split
        · rename_i hparents
          rw [hparents] at ih
          exact ih
        · rename_i hparents
          rw [hparents] at ih
          split
          · exact ih.trans (sameFiles_mkdirHere ‹_›)
          · exact ih
      · exact .refl fs
  exact hall path.root path.parts.reverse

-- ---------------------------------------------------------------------------
-- Names as they are kept
-- ---------------------------------------------------------------------------

/-- A name that something can have in a directory. -/
def IsFileName (part : Part) : Prop := IsName part ∧ '/' ∉ part ∧ '\x00' ∉ part

instance : Decidable (IsFileName part) := inferInstanceAs (Decidable (_ ∧ _ ∧ _))

/-- Everything lies below names. -/
structure Clean (fs : FileSystem) : Prop where
  names : ∀ loc node, fs.node? loc = some node → ∀ part ∈ loc, IsFileName part
  cwd : ∀ part ∈ fs.cwd, IsFileName part

theorem node?_eq_file {fs : FileSystem} :
    fs.node? loc = some (.file content) ↔ loc ≠ [] ∧ (loc, Node.file content) ∈ fs.nodes.entries := by
  by_cases hloc : loc = []
  · simp [hloc]
  · rw [fs.node?_of_ne hloc, Dict.get?_eq_some_iff]
    exact (and_iff_right hloc).symm

theorem clean_of_keys {fs : FileSystem} (h : ∀ loc ∈ fs.nodes.keys, ∀ part ∈ loc, IsFileName part)
    (hcwd : ∀ part ∈ fs.cwd, IsFileName part) : fs.Clean where
  names loc node hnode := by
    by_cases hloc : loc = []
    · rw [hloc]
      exact List.forall_mem_nil _
    · rw [fs.node?_of_ne hloc] at hnode
      exact h loc (Dict.isSome_get?_iff.mp (by rw [hnode]; rfl))
  cwd := hcwd

/-- The components that `pathlib` makes of a text without the character that no name holds. -/
def Proper (path : PurePath) : Prop := ∀ part ∈ path.parts, part ≠ [] ∧ part ≠ dot ∧ '/' ∉ part ∧ '\x00' ∉ part

instance : Decidable (Proper path) :=
  inferInstanceAs (Decidable (∀ part ∈ path.parts, part ≠ [] ∧ part ≠ dot ∧ '/' ∉ part ∧ '\x00' ∉ part))

theorem Proper.nulFree (h : Proper path) : NulFree path.parts := fun part hpart => (h part hpart).2.2.2

theorem Clean.lexical {fs : FileSystem} (hfs : fs.Clean) (h : Proper path) :
    ∀ part ∈ fs.lexical path, IsFileName part := by
  have hfold : ∀ (parts : List Part) (loc : Location), (∀ part ∈ loc, IsFileName part) →
      (∀ part ∈ parts, part ≠ [] ∧ part ≠ dot ∧ '/' ∉ part ∧ '\x00' ∉ part) →
        ∀ part ∈ parts.foldl collapseStep loc, IsFileName part := by
    intro parts
    induction parts with
    | nil => exact fun loc hloc _ => hloc
    | cons part parts ih =>
      intro loc hloc hparts
      obtain ⟨⟨hne, hdot, hslash, hnul⟩, hparts⟩ := List.forall_mem_cons.mp hparts
      refine ih _ (fun part' hpart' => ?_) hparts
      rcases mem_collapseStep hpart' with hold | rfl
      · exact hloc part' hold
      · exact ⟨isName_collapseStep (fun p hp => (hloc p hp).1) part' part' hpart', hslash, hnul⟩
  refine hfold path.parts _ ?_ h
  split
  · exact hfs.cwd
  · exact List.forall_mem_nil _

theorem Clean.locate_resolve {fs : FileSystem} (hfs : fs.Clean) (h : Proper path)
    (hdir : fs.node? (fs.lexical path) = some .directory) :
    fs.locate (fs.resolve path) = .ok (fs.lexical path) := by
  have hnames := hfs.lexical h
  have hroot : (fs.resolve path).root ≠ .none := by
    rw [resolve]
    split
    · exact Root.noConfusion
    · assumption
  have hdots : dotDot ∉ fs.lexical path := fun hmem => (hnames dotDot hmem).1.2.2 rfl
  have hnul : NulFree (fs.resolve path).parts := fun part hpart => (hnames part hpart).2.2
  rw [locate, if_pos hnul, if_neg hroot]
  exact fs.walk_to_node hdots hdir

theorem Clean.insert {fs : FileSystem} (hfs : fs.Clean) (hloc : ∀ part ∈ loc, IsFileName part)
    (h : fs.Vacant loc) :
    (fs.insert loc node h).Clean where
  names l node' hnode := by
    rw [node?_insert] at hnode
    by_cases hl : l = loc
    · exact hl ▸ hloc
    · rw [Function.update_of_ne hl] at hnode
      exact hfs.names l node' hnode
  cwd := hfs.cwd

theorem Clean.locate {fs : FileSystem} (hfs : fs.Clean) (h : Proper path) (hl : fs.locate path = .ok loc) :
    ∀ part ∈ loc, IsFileName part := by
  rw [lexical_of_locate (fun part hpart => ⟨(h part hpart).1, (h part hpart).2.1⟩) hl]
  exact hfs.lexical h

/-- What making one directory keeps. -/
theorem mkdirHere_induct {fs fs' : FileSystem} {P : FileSystem → Prop} (hfs : P fs)
    (hinsert : ∀ loc, fs.locate path = .ok loc → fs.node? loc = none →
      ∀ h : fs.Vacant loc, P (fs.insert loc .directory h))
    (h : fs.mkdirHere path = .ok fs') : P fs' := by
  have hmade : ∀ fs', fs.osMkdir path = .ok fs' → P fs' := by
    intro fs' hmkdir
    unfold osMkdir at hmkdir
    split at hmkdir
    · cases hmkdir
    · rename_i loc hloc
      split at hmkdir
      · rename_i hnone
        cases hmkdir
        exact hinsert loc hloc hnone _
      · cases hmkdir
  unfold FileSystem.mkdirHere at h
  split at h
  · cases h
    exact hmade _ ‹_›
  · cases h
  · cases h
  · split at h
    · cases h
      exact hfs
    · cases h

/-- What making each directory on the way keeps is kept, also where it fails on the way. -/
theorem mkdir_induct {fs : FileSystem} {P : FileSystem → Prop} (hfs : P fs)
    (hinsert : ∀ (fs' : FileSystem) (parts : List Part) (loc : Location), P fs' → parts <+: path.parts →
      fs'.locate { root := path.root, parts } = .ok loc → fs'.node? loc = none →
        ∀ h : fs'.Vacant loc, P (fs'.insert loc .directory h)) : P (fs.mkdir path).2 := by
  have hhere : ∀ fs' fs'' parts, P fs' → parts <+: path.parts →
      fs'.mkdirHere { root := path.root, parts } = .ok fs'' → P fs'' := fun fs' fs'' parts hP hprefix =>
    mkdirHere_induct hP fun loc hloc hnone h => hinsert fs' parts loc hP hprefix hloc hnone h
  have hall : ∀ above, above.reverse <+: path.parts → P (fs.mkdirParents path.root above).2 := by
    intro above
    induction above with
    | nil =>
      intro hprefix
      rw [mkdirParents]
      split
      · exact hhere fs _ _ hfs hprefix ‹_›
      · exact hfs
    | cons part above ih =>
      intro hprefix
      have hparents := ih ((List.reverse_cons ▸ List.prefix_append _ _).trans hprefix)
      rw [mkdirParents]
      split
      · exact hhere fs _ _ hfs hprefix ‹_›
      · split
        · rename_i heq
          rw [heq] at hparents
          exact hparents
        · rename_i heq
          rw [heq] at hparents
          split
          · exact hhere _ _ _ hparents hprefix ‹_›
          · exact hparents
      · exact hfs
  exact hall path.parts.reverse (by rw [List.reverse_reverse])

theorem keepsDirectories_mkdir (fs : FileSystem) (path : PurePath) : fs.KeepsDirectories (fs.mkdir path).2 :=
  mkdir_induct (.refl fs) fun _ _ _ hkeeps _ _ _ h => hkeeps.trans (keepsDirectories_insert h)

theorem Clean.mkdir {fs : FileSystem} (hfs : fs.Clean) (hpath : Proper path) : (fs.mkdir path).2.Clean :=
  mkdir_induct hfs fun _ _ _ hclean hinitial hloc _ h =>
    hclean.insert (hclean.locate (fun part hpart => hpath part (hinitial.subset hpart)) hloc) h

theorem keepsDirectories_writeBytes {fs fs' : FileSystem} {value : List UInt8}
    (h : fs.writeBytes path value = .ok fs') :
    fs.KeepsDirectories fs' := by
  unfold FileSystem.writeBytes at h
  split at h
  · cases h
  · split at h
    · cases h
    · cases h
      exact keepsDirectories_insert _

theorem Clean.writeBytes {fs fs' : FileSystem} {value : List UInt8} (hfs : fs.Clean) (hpath : Proper path)
    (h : fs.writeBytes path value = .ok fs') : fs'.Clean := by
  unfold FileSystem.writeBytes at h
  split at h
  · cases h
  · rename_i loc hloc
    split at h
    · cases h
    · cases h
      exact hfs.insert (hfs.locate hpath hloc) _

end Intelliqx.Py.FileSystem
