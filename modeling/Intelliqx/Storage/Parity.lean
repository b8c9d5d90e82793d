import Intelliqx.Storage.Listing

/-!
# Parity of the local stores

The store in memory and the one on the file system answer alike as long as each
call means the same for text and for a tree of directories (`MeansTheSame`).
On portable keys only a key with a NUL and the prefix of a `list` can make a
difference. `answers_eq_iff` settles it for every run on a fresh root.
-/

namespace Intelliqx.Storage

open Mealy Py

def Call.key? : Call → Option String
  | .put key _ | .get key | .exists key | .delete key => some key
  | .list _ => none

/-- What a caller sees of a reply: the tag that `put` answers with is of the backend. -/
def Reply.seen : Reply → Reply
  | .str _ => .none
  | reply => reply

/-- What the call is about is the same for text and for a tree of directories. -/
def MeansTheSame (stores : InMemoryObjectStore × LocalFileSystemObjectStore) : Call → Prop
  | .put key _ => NulFree (segments key)
  | .list pre => PrefixMeansTheSame stores.1 stores.2 pre
  | _ => True

-- ---------------------------------------------------------------------------
-- One call
-- ---------------------------------------------------------------------------

section
variable {used : List String} (hused : PortableKeys used) {here : Location}
  {mem : InMemoryObjectStore} {s : LocalFileSystemObjectStore} (h : Agree used here mem s)
  {c : Call} (hkey : ∀ k, c.key? = some k → k ∈ used)
include hused h hkey

theorem seen_step_iff : (mem.step c).1.seen = (s.step c).1.seen ↔ MeansTheSame (mem, s) c := by
  cases c with
  | put key value =>
    have hkey := hkey key rfl
    by_cases hnul : NulFree (segments key)
    · obtain ⟨tag, s', hput, -⟩ := put_of_key hused h hkey hnul value
      simp [InMemoryObjectStore.step, LocalFileSystemObjectStore.step, hput, Reply.seen, MeansTheSame, hnul]
    · obtain ⟨e, s', hput⟩ := put_of_nul (s := s) hused hkey hnul value
      simp [InMemoryObjectStore.step, LocalFileSystemObjectStore.step, hput, Reply.seen, MeansTheSame, hnul]
  | get key =>
    have hget := get_of_key hused h (hkey key rfl)
    simp only [InMemoryObjectStore.step, LocalFileSystemObjectStore.step, hget, MeansTheSame, iff_true]
    cases mem.get key <;> rfl
  | «exists» key =>
    simp only [InMemoryObjectStore.step, LocalFileSystemObjectStore.step,
      exists_of_key hused h (hkey key rfl), MeansTheSame]
  | delete key =>
    obtain ⟨s', hdelete, -⟩ := delete_of_key hused h (hkey key rfl)
    simp [InMemoryObjectStore.step, LocalFileSystemObjectStore.step, hdelete, MeansTheSame]
  | list pre =>
    rw [MeansTheSame, ← list_eq_iff hused h]
    simp only [InMemoryObjectStore.step, LocalFileSystemObjectStore.step]
    cases s.list pre with
    | ok keys => simp [Reply.seen, eq_comm]
    | error e => simp [Reply.seen]

theorem agree_step (hmeans : MeansTheSame (mem, s) c) :
    Agree used here (mem.step c).2 (s.step c).2 := by
  cases c with
  | put key value =>
    obtain ⟨tag, s', hput, hagree⟩ := put_of_key hused h (hkey key rfl) hmeans value
    simp only [LocalFileSystemObjectStore.step, hput]
    exact hagree
  | get key =>
    have hget := get_of_key hused h (hkey key rfl)
    simp only [InMemoryObjectStore.step, LocalFileSystemObjectStore.step, hget]
    cases mem.get key <;> exact h
  | «exists» key => exact h
  | delete key =>
    obtain ⟨s', hdelete, hagree⟩ := delete_of_key hused h (hkey key rfl)
    simp only [LocalFileSystemObjectStore.step, hdelete]
    exact hagree
  | list pre =>
    simp only [InMemoryObjectStore.step, LocalFileSystemObjectStore.step]
    cases s.list pre <;> exact h

end

-- ---------------------------------------------------------------------------
-- Every run
-- ---------------------------------------------------------------------------

/-- A store on an empty directory agrees with an empty store. -/
theorem agree_init (used : List String) (hinit : LocalFileSystemObjectStore.init fs root = .ok s)
    (hempty : s.fs.rglob s.root = []) : ∃ here, Agree used here {} s := by
  have hstat : s.fs.stat s.root = .ok .directory := by
    unfold LocalFileSystemObjectStore.init at hinit
    split at hinit
    · rename_i hmkdir
      cases hinit
      exact FileSystem.stat_of_mkdir hmkdir
    · cases hinit
  cases hloc : s.fs.locate s.root with
  | error e => simp [FileSystem.stat, hloc] at hstat
  | ok here =>
    have hdirectory := (FileSystem.stat_of_locate hloc).mp hstat
    have hnothing : ∀ parts node, parts ≠ [] → s.fs.node? (here ++ parts) ≠ some node := by
      intro parts node hparts hnode
      have hfound := (FileSystem.mem_rglob hloc).mpr ⟨parts, hparts, rfl, node, hnode⟩
      rw [hempty] at hfound
      cases hfound
    refine ⟨here, hloc, hdirectory, ?_, ?_, fun k hk => absurd hk List.not_mem_nil⟩
    · intro parts content
      constructor
      · intro hnode
        by_cases hparts : parts = []
        · rw [hparts, List.append_nil, hdirectory] at hnode
          cases hnode
        · exact absurd hnode (hnothing parts _ hparts)
      · rintro ⟨k, hk, -⟩
        cases hk
    · intro parts hparts hnode
      exact absurd hnode (hnothing parts _ hparts)

/-- On portable keys, the stores answer alike in exactly the runs in which every
call means the same to both. -/
theorem answers_eq_iff (hinit : LocalFileSystemObjectStore.init fs root = .ok s)
    (hempty : s.fs.rglob s.root = []) (hkeys : PortableKeys (calls.filterMap Call.key?)) :
    (outputs InMemoryObjectStore.step {} calls).map Reply.seen =
        (outputs LocalFileSystemObjectStore.step s calls).map Reply.seen ↔
      Throughout (both InMemoryObjectStore.step LocalFileSystemObjectStore.step) MeansTheSame
        ({}, s) calls := by
  obtain ⟨here, hagree⟩ := agree_init (calls.filterMap Call.key?) hinit hempty
  apply outputs_eq_iff_throughout (R := Agree (calls.filterMap Call.key?) here)
    (P := fun c => ∀ k, c.key? = some k → k ∈ calls.filterMap Call.key?)
  · intro mem s c hkey h
    exact seen_step_iff hkeys h hkey
  · intro mem s c hkey h
    exact agree_step hkeys h hkey
  · exact hagree
  · intro c hc k hk
    exact List.mem_filterMap.mpr ⟨c, hc, hk⟩

/-- A file system with nothing in it. -/
def blank : FileSystem where
  nodes := .empty
  cwd := []
  hangs := fun _ h => absurd h List.not_mem_nil
  stands := rfl

theorem vacant_blank : blank.Vacant [['d', 'a', 't', 'a']] := ⟨rfl, by decide⟩

/-- The store that `LocalFileSystemObjectStore("/data")` opens there. -/
def onBlank : LocalFileSystemObjectStore where
  root := { root := .slash, parts := [['d', 'a', 't', 'a']] }
  fs := blank.insert [['d', 'a', 't', 'a']] .directory vacant_blank

theorem init_blank : LocalFileSystemObjectStore.init blank "/data" = .ok onBlank := rfl

def visits : List Call :=
  [.put "a/x" [1], .put "a/y/z" [2], .put "b" [3], .list "a/", .get "a/x", .delete "a/y/z",
    .exists "a/y/z", .get "a/y/z", .list ""]

theorem answers_eq_iff_visits :
    Throughout (both InMemoryObjectStore.step LocalFileSystemObjectStore.step) MeansTheSame
      ({}, onBlank) visits :=
  (answers_eq_iff init_blank (by decide) ⟨by decide, by decide⟩).mp (by decide)

/-- The prefix ends inside a segment. -/
def partialSegment : List Call := [.put "ab/x" [1], .list "a"]

theorem listings_differ :
    LocalFileSystemObjectStore.init blank "/data" = .ok onBlank ∧ onBlank.fs.rglob onBlank.root = [] ∧
      PortableKeys (partialSegment.filterMap Call.key?) ∧
      (outputs InMemoryObjectStore.step {} partialSegment).map Reply.seen = [.none, .keys ["ab/x"]] ∧
      (outputs LocalFileSystemObjectStore.step onBlank partialSegment).map Reply.seen =
        [.none, .keys []] :=
  ⟨init_blank, by decide, ⟨by decide, by decide⟩, by decide, by decide⟩

end Intelliqx.Storage
