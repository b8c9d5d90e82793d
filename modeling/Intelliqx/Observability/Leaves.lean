import Intelliqx.Observability.Redaction
import Intelliqx.Base.Except

/-!
# The texts in a line

`_scrub_value` scrubs the strings in mappings, lists and tuples. An object and
the members of a set become text only in the renderer, behind the scrubbing.
`texts_scrubbed_iff` says for which records all texts of a line are scrubbed.
-/

namespace Intelliqx.Observability

open Py

-- ---------------------------------------------------------------------------
-- What a renderer shows
-- ---------------------------------------------------------------------------

def objectText (text repr : String) : Renderer → String
  | .json => text
  | .pretty => repr

mutual
/-- The texts of a value in a line, each with its place. The members of a set
are written by `repr` in both renderers. -/
def shown (renderer : Renderer) (path : List Place) : LogValue → List (List Place × String)
  | .str s => [(path, s)]
  | .atom repr _ => [(path, repr)]
  | .object text repr => [(path, objectText text repr renderer)]
  | .list vs | .tuple vs => shownItems renderer path 0 vs
  | .set _ vs => shownItems .pretty path 0 vs
  | .dict es => shownEntries renderer path es
def shownItems (renderer : Renderer) (path : List Place) (n : Nat) : List LogValue → List (List Place × String)
  | [] => []
  | v :: vs => shown renderer (path ++ [.item n]) v ++ shownItems renderer path (n + 1) vs
def shownEntries (renderer : Renderer) (path : List Place) :
    List (LogKey × LogValue) → List (List Place × String)
  | [] => []
  | (k, v) :: es => shown renderer (path ++ [.key k]) v ++ shownEntries renderer path es
end

section
variable {u : Unicode} {line line' : Line} {sep written : String} {parts : List Line}

@[simp] theorem leaves_nil : Line.leaves [] = [] := rfl

@[simp] theorem leaves_plain : Line.leaves (.plain written :: line) = Line.leaves line := rfl

@[simp] theorem leaves_leaf {path : List Place} {text : String} :
    Line.leaves (.leaf path text written :: line) = (path, text) :: Line.leaves line := rfl

@[simp] theorem leaves_append : Line.leaves (line ++ line') = Line.leaves line ++ Line.leaves line' :=
  List.filterMap_append

@[simp] theorem leaves_joinWith : (joinWith sep parts).leaves = parts.flatMap Line.leaves := by
  induction parts with
  | nil => rfl
  | cons part parts ih =>
    cases parts with
    | nil => simp [joinWith]
    | cons next parts =>
      rw [joinWith, List.intercalate_cons_cons, leaves_append, leaves_append, ← joinWith, ih]
      simp

@[simp] theorem leaves_mapWritten (f : String → String) :
    Line.leaves (line.map (Piece.mapWritten f)) = Line.leaves line := by
  induction line with
  | nil => rfl
  | cons piece line ih => cases piece <;> simp [Piece.mapWritten, ih]

mutual
theorem leaves_reprPieces (path : List Place) : ∀ v : LogValue, (reprPieces u path v).leaves = shown .pretty path v
  | .str s => rfl
  | .atom _ _ => rfl
  | .object _ _ => rfl
  | .list vs => by simp [reprPieces, shown, leaves_reprItems path 0 vs]
  | .tuple vs => by simp [reprPieces, shown, leaves_reprItems path 0 vs]
  | .set frozen vs => by
    rw [reprPieces]
    split
    · rename_i h
      rw [List.isEmpty_iff.mp h]
      rfl
    · simp [shown, leaves_reprItems path 0 vs]
  | .dict es => by simp [reprPieces, shown, leaves_reprEntries path es]
theorem leaves_reprItems (path : List Place) (n : Nat) : ∀ vs : List LogValue,
    (reprItems u path n vs).flatMap Line.leaves = shownItems .pretty path n vs
  | [] => rfl
  | v :: vs => by
    simp [reprItems, shownItems, leaves_reprPieces _ v, leaves_reprItems path (n + 1) vs]
theorem leaves_reprEntries (path : List Place) : ∀ es : List (LogKey × LogValue),
    (reprEntries u path es).flatMap Line.leaves = shownEntries .pretty path es
  | [] => rfl
  | (k, v) :: es => by
    simp [reprEntries, shownEntries, leaves_reprPieces _ v, leaves_reprEntries path es]
end

mutual
theorem leaves_jsonPieces (path : List Place) : ∀ {v : LogValue} {line : Line},
    jsonPieces u path v = .ok line → line.leaves = shown .json path v
  | .str s, _, h => by cases h; rfl
  | .atom _ _, _, h => by cases h; rfl
  | .object _ _, _, h => by cases h; rfl
  | .list vs, _, h => by
    obtain ⟨lines, hlines, hline⟩ := bind_eq_ok.mp h
    cases hline
    simp [shown, leaves_jsonItems path 0 hlines]
  | .tuple vs, _, h => by
    obtain ⟨lines, hlines, hline⟩ := bind_eq_ok.mp h
    cases hline
    simp [shown, leaves_jsonItems path 0 hlines]
  | .set frozen vs, _, h => by
    cases h
    simp [leaves_reprPieces, shown]
  | .dict es, _, h => by
    obtain ⟨lines, hlines, hline⟩ := bind_eq_ok.mp h
    cases hline
    simp [shown, leaves_jsonEntries path hlines]
theorem leaves_jsonItems (path : List Place) (n : Nat) : ∀ {vs : List LogValue} {lines : List Line},
    jsonItems u path n vs = .ok lines → lines.flatMap Line.leaves = shownItems .json path n vs
  | [], _, h => by cases h; rfl
  | v :: vs, _, h => by
    obtain ⟨line, hline, hrest⟩ := bind_eq_ok.mp h
    obtain ⟨lines, hlines, hall⟩ := bind_eq_ok.mp hrest
    cases hall
    rw [List.flatMap_cons, leaves_jsonPieces _ hline, leaves_jsonItems path (n + 1) hlines, shownItems]
theorem leaves_jsonEntries (path : List Place) : ∀ {es : List (LogKey × LogValue)} {lines : List Line},
    jsonEntries u path es = .ok lines → lines.flatMap Line.leaves = shownEntries .json path es
  | [], _, h => by cases h; rfl
  | (k, v) :: es, _, h => by
    obtain ⟨key, _, hrest⟩ := bind_eq_ok.mp h
    obtain ⟨line, hline, hrest⟩ := bind_eq_ok.mp hrest
    obtain ⟨lines, hlines, hall⟩ := bind_eq_ok.mp hrest
    cases hall
    rw [List.flatMap_cons, leaves_plain, leaves_jsonPieces _ hline, leaves_jsonEntries path hlines, shownEntries]
end

theorem shownEntries_eq (renderer : Renderer) (path : List Place) (es : List (LogKey × LogValue)) :
    shownEntries renderer path es = es.flatMap fun e => shown renderer (path ++ [.key e.1]) e.2 := by
  induction es with
  | nil => rfl
  | cons e es ih => rw [shownEntries, ih, List.flatMap_cons]

/-- The texts in a line are those of the extra fields, in order. -/
theorem leaves_render {st : Settings} {renderer : Renderer} {r : LogRecord}
    (h : renderer.render u st r = .ok line) : line.leaves = shownEntries renderer [] r.extra := by
  cases renderer with
  | json =>
    obtain ⟨extra, hextra, hline⟩ := bind_eq_ok.mp h
    cases hline
    have hshown := leaves_jsonPieces [] hextra
    cases r.exception <;> simp [hshown, shown]
  | pretty =>
    cases h
    have hshown : (r.extra.map (assignment u)).flatMap Line.leaves = shownEntries .pretty [] r.extra := by
      simp [shownEntries_eq, List.flatMap_map, assignment, leaves_reprPieces]
    cases hextra : r.extra with
    | nil => cases hex : r.exception <;> simp [renderPretty, hextra, hex, shownEntries]
    | cons e es =>
      rw [hextra] at hshown
      cases hex : r.exception <;> simp [renderPretty, hextra, hex, ← hshown]

end

-- ---------------------------------------------------------------------------
-- The leaves of a record
-- ---------------------------------------------------------------------------

/-- What happens to a text on its way into the line. -/
inductive Handling
  | scrubbed
  /-- It becomes text in the renderer only. -/
  | raw
  | redacted
  deriving DecidableEq

/-- A value without parts, and the text it is rendered as. -/
structure Leaf where
  path : List Place
  text : String
  handling : Handling

def Leaf.ofRaw (e : List Place × String) : Leaf := ⟨e.1, e.2, .raw⟩

mutual
/-- The leaves of a value that is scrubbed and then rendered. -/
def leaves (u : Unicode) (renderer : Renderer) (path : List Place) : LogValue → List Leaf
  | .str s => [⟨path, s, .scrubbed⟩]
  | .atom repr _ => [⟨path, repr, .raw⟩]
  | .object text repr => [⟨path, objectText text repr renderer, .raw⟩]
  | .list vs | .tuple vs => itemLeaves u renderer path 0 vs
  | .set _ vs => (shownItems .pretty path 0 vs).map .ofRaw
  | .dict es => entryLeaves u renderer path es
def itemLeaves (u : Unicode) (renderer : Renderer) (path : List Place) (n : Nat) : List LogValue → List Leaf
  | [] => []
  | v :: vs => leaves u renderer (path ++ [.item n]) v ++ itemLeaves u renderer path (n + 1) vs
def entryLeaves (u : Unicode) (renderer : Renderer) (path : List Place) : List (LogKey × LogValue) → List Leaf
  | [] => []
  | (k, v) :: es =>
    if droppedKey u k then entryLeaves u renderer path es
    else (if sensitiveKey u k then [⟨path ++ [.key k], redacted, .redacted⟩]
      else leaves u renderer (path ++ [.key k]) v) ++ entryLeaves u renderer path es
end

/-- What the line shows of a leaf. -/
def Leaf.emitted (u : Unicode) (l : Leaf) : List Place × String :=
  (l.path, if l.handling = .scrubbed then scrubText u.wordChars l.text else l.text)

/-- What it is to show: the scrubbed text, or that there is none. -/
def Leaf.expected (u : Unicode) (l : Leaf) : List Place × String :=
  (l.path, if l.handling = .redacted then l.text else scrubText u.wordChars l.text)

section
variable {u : Unicode} {renderer : Renderer}

theorem map_emitted_ofRaw (es : List (List Place × String)) : (es.map Leaf.ofRaw).map (Leaf.emitted u) = es := by
  simp [Leaf.ofRaw, Leaf.emitted, Function.comp_def]

mutual
theorem shown_scrubValue (path : List Place) : ∀ v : LogValue,
    shown renderer path (scrubValue u v) = (leaves u renderer path v).map (Leaf.emitted u)
  | .str s => rfl
  | .atom _ _ => rfl
  | .object _ _ => rfl
  | .list vs => by simp [scrubValue, shown, leaves, shownItems_scrubItems path 0 vs]
  | .tuple vs => by simp [scrubValue, shown, leaves, shownItems_scrubItems path 0 vs]
  | .set frozen vs => by rw [scrubValue, shown, leaves, map_emitted_ofRaw]
  | .dict es => by simp [scrubValue, shown, leaves, shownEntries_scrubEntries path es]
theorem shownItems_scrubItems (path : List Place) (n : Nat) : ∀ vs : List LogValue,
    shownItems renderer path n (scrubItems u vs) = (itemLeaves u renderer path n vs).map (Leaf.emitted u)
  | [] => rfl
  | v :: vs => by
    simp [scrubItems, shownItems, itemLeaves, shown_scrubValue _ v, shownItems_scrubItems path (n + 1) vs]
theorem shownEntries_scrubEntries (path : List Place) : ∀ es : List (LogKey × LogValue),
    shownEntries renderer path (scrubEntries u es) = (entryLeaves u renderer path es).map (Leaf.emitted u)
  | [] => rfl
  | (k, v) :: es => by
    rw [scrubEntries, entryLeaves]
    split
    · exact shownEntries_scrubEntries path es
    · rw [shownEntries, shownEntries_scrubEntries path es, List.map_append]
      split
      · rfl
      · rw [shown_scrubValue _ v]
end

theorem emitted_eq_expected_iff (l : Leaf) :
    l.emitted u = l.expected u ↔ (l.handling = .raw → scrubText u.wordChars l.text = l.text) := by
  cases hl : l.handling <;> simp [Leaf.emitted, Leaf.expected, hl, eq_comm]

-- ---------------------------------------------------------------------------
-- The fields of the caller
-- ---------------------------------------------------------------------------

/-- The keys that `_inject_otel` writes itself. -/
def writtenKeys (u : Unicode) (span : Option Span) (r : LogRecord) : List LogKey :=
  if span.isNone ∨ LogKey.str "trace_id" ∈ (scrubEntries u r.extra).map Prod.fst then []
  else [.str "trace_id", .str "span_id"]

/-- The entries that no key in `keys` takes the place of. -/
def others (keys : List LogKey) (es : List (LogKey × LogValue)) : List (LogKey × LogValue) :=
  es.filter fun e => e.1 ∉ keys

theorem others_insertEntry {keys : List LogKey} {k : LogKey} (hk : k ∈ keys) (v : LogValue)
    (es : List (LogKey × LogValue)) : others keys (insertEntry k v es) = others keys es := by
  induction es with
  | nil => simp [insertEntry, others, hk]
  | cons e es ih =>
    rw [insertEntry]
    split
    · rename_i he
      simp [others, he, hk]
    · rw [others, others, List.filter_cons, List.filter_cons, ← others, ← others, ih]

theorem others_process (span : Option Span) (r : LogRecord) :
    others (writtenKeys u span r) (process u span r).extra =
      others (writtenKeys u span r) (scrubEntries u r.extra) := by
  cases span with
  | none => rfl
  | some s =>
    by_cases htrace : LogKey.str "trace_id" ∈ (scrubEntries u r.extra).map Prod.fst
    · simp [process, injectOtel, htrace]
    · have hkeys : writtenKeys u (some s) r = [.str "trace_id", .str "span_id"] := by simp [writtenKeys, htrace]
      have hextra : (process u (some s) r).extra = insertEntry (.str "span_id") (.str s.spanId)
          (insertEntry (.str "trace_id") (.str s.traceId) (scrubEntries u r.extra)) := by
        simp [process, injectOtel, htrace]
      rw [hextra, others_insertEntry (by simp [hkeys]), others_insertEntry (by simp [hkeys])]

theorem others_scrubEntries (keys : List LogKey) (es : List (LogKey × LogValue)) :
    others keys (scrubEntries u es) = scrubEntries u (others keys es) := by
  induction es with
  | nil => rfl
  | cons e es ih =>
    obtain ⟨k, v⟩ := e
    by_cases hdropped : droppedKey u k <;> by_cases hk : k ∈ keys <;>
      simp_all [others, scrubEntries]

/-- The text is not one of a field that `_inject_otel` writes. -/
def ofCaller (keys : List LogKey) (path : List Place) : Bool :=
  !keys.any fun k => path.head? = some (.key k)

mutual
theorem path_prefix_shown {e : List Place × String} (path : List Place) : ∀ {renderer : Renderer} {v : LogValue},
    e ∈ shown renderer path v → path <+: e.1
  | _, .str _, h => by simp_all [shown]
  | _, .atom _ _, h => by simp_all [shown]
  | _, .object _ _, h => by simp_all [shown]
  | _, .list _, h => path_prefix_shownItems path 0 h
  | _, .tuple _, h => path_prefix_shownItems path 0 h
  | _, .set _ _, h => path_prefix_shownItems path 0 h
  | _, .dict _, h => path_prefix_shownEntries path h
theorem path_prefix_shownItems {e : List Place × String} (path : List Place) (n : Nat) :
    ∀ {renderer : Renderer} {vs : List LogValue}, e ∈ shownItems renderer path n vs → path <+: e.1
  | _, [], h => nomatch h
  | _, _ :: _, h => (List.mem_append.mp h).elim
    (fun h => (List.prefix_append path _).trans (path_prefix_shown _ h)) (path_prefix_shownItems path (n + 1))
theorem path_prefix_shownEntries {e : List Place × String} (path : List Place) :
    ∀ {renderer : Renderer} {es : List (LogKey × LogValue)}, e ∈ shownEntries renderer path es → path <+: e.1
  | _, [], h => nomatch h
  | _, (_, _) :: _, h => (List.mem_append.mp h).elim
    (fun h => (List.prefix_append path _).trans (path_prefix_shown _ h)) (path_prefix_shownEntries path)
end

theorem head?_of_mem_shown {e : List Place × String} {k : LogKey} {v : LogValue}
    (h : e ∈ shown renderer [.key k] v) : e.1.head? = some (.key k) := by
  obtain ⟨rest, hrest⟩ := path_prefix_shown _ h
  rw [← hrest]
  rfl

theorem filter_shownEntries (keys : List LogKey) (es : List (LogKey × LogValue)) :
    (shownEntries renderer [] es).filter (fun e => ofCaller keys e.1) =
      shownEntries renderer [] (others keys es) := by
  induction es with
  | nil => rfl
  | cons e es ih =>
    obtain ⟨k, v⟩ := e
    rw [shownEntries, List.filter_append, ih]
    by_cases hk : k ∈ keys
    · have hothers : others keys ((k, v) :: es) = others keys es := List.filter_cons_of_neg (by simpa using hk)
      rw [hothers, List.filter_eq_nil_iff.mpr, List.nil_append]
      exact fun e he => by simp [ofCaller, head?_of_mem_shown he, hk]
    · have hothers : others keys ((k, v) :: es) = (k, v) :: others keys es :=
        List.filter_cons_of_pos (by simpa using hk)
      rw [hothers, shownEntries, List.filter_eq_self.mpr]
      intro e he
      simp only [ofCaller, head?_of_mem_shown he, Option.some.injEq, Place.key.injEq, Bool.not_eq_true',
        List.any_eq_false, decide_eq_true_eq]
      rintro k' hk' rfl
      exact hk hk'

/-- Each text of the caller's fields is in the line as it is expected. -/
def AllScrubbed (u : Unicode) (span : Option Span) (renderer : Renderer) (r : LogRecord) (line : Line) : Prop :=
  line.leaves.filter (fun e => ofCaller (writtenKeys u span r) e.1) =
    (entryLeaves u renderer [] (others (writtenKeys u span r) r.extra)).map (Leaf.expected u)

theorem leaves_emit {st : Settings} {span : Option Span} {r : LogRecord} {line : Line}
    (h : emit u st span renderer r = .ok line) :
    line.leaves.filter (fun e => ofCaller (writtenKeys u span r) e.1) =
      (entryLeaves u renderer [] (others (writtenKeys u span r) r.extra)).map (Leaf.emitted u) := by
  rw [leaves_render h, filter_shownEntries, others_process, others_scrubEntries, shownEntries_scrubEntries]

/-- All texts are scrubbed when what is turned into text by the renderer holds nothing to scrub. -/
theorem texts_scrubbed_iff {st : Settings} {span : Option Span} {r : LogRecord} {line : Line}
    (h : emit u st span renderer r = .ok line) : AllScrubbed u span renderer r line ↔
      ∀ l ∈ entryLeaves u renderer [] (others (writtenKeys u span r) r.extra),
        l.handling = .raw → scrubText u.wordChars l.text = l.text := by
  rw [AllScrubbed, leaves_emit h, List.map_inj_left]
  exact forall₂_congr fun l _ => emitted_eq_expected_iff l

end

def errorRecord (error : LogValue) : LogRecord where
  time := "2025-01-01T00:00:00+00:00"
  level := "ERROR"
  name := none
  message := "failed"
  extra := [(.str "error", error)]
  exception := none

theorem texts_scrubbed_path : ∃ line,
    emit plainUnicode {} none .pretty (errorRecord (.object "a.txt" "PosixPath('a.txt')")) = .ok line ∧
      AllScrubbed plainUnicode none .pretty (errorRecord (.object "a.txt" "PosixPath('a.txt')")) line := by
  exact ⟨_, rfl, (texts_scrubbed_iff rfl).mpr (by decide +kernel)⟩

def passwordError : LogRecord :=
  errorRecord (.object "password=hunter2" "ValueError('password=hunter2')")

/-- The text of an exception is written as it is. -/
theorem exception_text_shown : ∃ line, emit plainUnicode {} none .json passwordError = .ok line ∧
    ¬ AllScrubbed plainUnicode none .json passwordError line := by
  have hok : (emit plainUnicode {} none .json passwordError).isOk = true := by decide +kernel
  cases hline : emit plainUnicode {} none .json passwordError with
  | error e =>
    rw [hline] at hok
    cases hok
  | ok line =>
    refine ⟨line, rfl, fun h => ?_⟩
    rw [AllScrubbed, leaves_emit hline] at h
    exact absurd h (by decide +kernel)

end Intelliqx.Observability
