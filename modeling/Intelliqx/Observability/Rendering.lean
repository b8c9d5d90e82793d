import Intelliqx.Observability.Logging

/-!
# Log lines

The two renderers write a record as one line. A line is kept as the pieces it
is written in: what the renderer writes itself, and the texts of the values,
each with the place of its value in the extra fields.
-/

namespace Intelliqx.Observability

open Py

-- ---------------------------------------------------------------------------
-- Pieces
-- ---------------------------------------------------------------------------

inductive Place
  | key (k : LogKey)
  | item (n : Nat)
  deriving DecidableEq

/-- A piece of a line. The text of a value is kept beside what is written for it. -/
inductive Piece
  | plain (written : String)
  | leaf (path : List Place) (text written : String)

namespace Piece

def written : Piece → String
  | .plain written => written
  | .leaf _ _ written => written

def mapWritten (f : String → String) : Piece → Piece
  | .plain written => .plain (f written)
  | .leaf path text written => .leaf path text (f written)

def leaf? : Piece → Option (List Place × String)
  | .plain _ => none
  | .leaf path text _ => some (path, text)

end Piece

abbrev Line := List Piece

def Line.text (line : Line) : String := .join (line.map Piece.written)

def Line.leaves (line : Line) : List (List Place × String) := line.filterMap Piece.leaf?

/-- `sep.join(...)` -/
def joinWith (sep : String) (parts : List Line) : Line := List.intercalate [.plain sep] parts

def leftBrace : String := "\x7b"

def rightBrace : String := "\x7d"

-- ---------------------------------------------------------------------------
-- repr
-- ---------------------------------------------------------------------------

mutual
def reprPieces (u : Unicode) (path : List Place) : LogValue → Line
  | .str s => [.leaf path s (u.repr s)]
  | .atom repr _ => [.leaf path repr repr]
  | .object _ repr => [.leaf path repr repr]
  | .list vs => [.plain "["] ++ joinWith ", " (reprItems u path 0 vs) ++ [.plain "]"]
  | .tuple vs =>
    [.plain "("] ++ joinWith ", " (reprItems u path 0 vs) ++ [.plain (if vs.length = 1 then ",)" else ")")]
  | .set frozen vs =>
    if vs.isEmpty then [.plain (if frozen then "frozenset()" else "set()")]
    else [.plain (if frozen then "frozenset(" ++ leftBrace else leftBrace)] ++ joinWith ", " (reprItems u path 0 vs) ++
      [.plain (if frozen then rightBrace ++ ")" else rightBrace)]
  | .dict es => [.plain leftBrace] ++ joinWith ", " (reprEntries u path es) ++ [.plain rightBrace]
def reprItems (u : Unicode) (path : List Place) (n : Nat) : List LogValue → List Line
  | [] => []
  | v :: vs => reprPieces u (path ++ [.item n]) v :: reprItems u path (n + 1) vs
def reprEntries (u : Unicode) (path : List Place) : List (LogKey × LogValue) → List Line
  | [] => []
  | (k, v) :: es => (.plain (k.repr u ++ ": ") :: reprPieces u (path ++ [.key k]) v) :: reprEntries u path es
end

-- ---------------------------------------------------------------------------
-- json.dumps
-- ---------------------------------------------------------------------------

/-- `\uXXXX` -/
def unicodeEscape (n : Nat) : List Char :=
  ['\\', 'u'] ++ [n / 4096 % 16, n / 256 % 16, n / 16 % 16, n % 16].map Nat.digitChar

def jsonEscape (c : Char) : List Char :=
  let n := c.toNat
  if c = '"' then ['\\', '"']
  else if c = '\\' then ['\\', '\\']
  else if c = '\n' then ['\\', 'n']
  else if c = '\r' then ['\\', 'r']
  else if c = '\t' then ['\\', 't']
  else if c = '\x0c' then ['\\', 'f']
  else if c = '\x08' then ['\\', 'b']
  else if 32 ≤ n ∧ n ≤ 126 then [c]
  else if n < 0x10000 then unicodeEscape n
  else unicodeEscape (0xd800 + (n - 0x10000) / 0x400) ++ unicodeEscape (0xdc00 + (n - 0x10000) % 0x400)

def jsonEscapes (s : String) : String := .ofList (s.toList.flatMap jsonEscape)

def jsonQuote (s : String) : String := "\"" ++ jsonEscapes s ++ "\""

def jsonKey : LogKey → Except PyException String
  | .str s => .ok (jsonQuote s)
  | .atom _ json => .ok (jsonQuote json)
  | .other typeName _ _ =>
    .error ⟨"TypeError", "keys must be str, int, float, bool or None, not " ++ typeName⟩

mutual
/-- `json.dumps(value, default=str)`: what is no JSON is written as its `str()`. -/
def jsonPieces (u : Unicode) (path : List Place) : LogValue → Except PyException Line
  | .str s => .ok [.leaf path s (jsonQuote s)]
  | .atom repr json => .ok [.leaf path repr json]
  | .object text _ => .ok [.leaf path text (jsonQuote text)]
  | .list vs => do .ok ([.plain "["] ++ joinWith "," (← jsonItems u path 0 vs) ++ [.plain "]"])
  | .tuple vs => do .ok ([.plain "["] ++ joinWith "," (← jsonItems u path 0 vs) ++ [.plain "]"])
  | .set frozen vs =>
    .ok ([.plain "\""] ++ (reprPieces u path (.set frozen vs)).map (Piece.mapWritten jsonEscapes) ++ [.plain "\""])
  | .dict es => do .ok ([.plain leftBrace] ++ joinWith "," (← jsonEntries u path es) ++ [.plain rightBrace])
def jsonItems (u : Unicode) (path : List Place) (n : Nat) : List LogValue → Except PyException (List Line)
  | [] => .ok []
  | v :: vs => do
    let line ← jsonPieces u (path ++ [.item n]) v
    let lines ← jsonItems u path (n + 1) vs
    .ok (line :: lines)
def jsonEntries (u : Unicode) (path : List Place) : List (LogKey × LogValue) → Except PyException (List Line)
  | [] => .ok []
  | (k, v) :: es => do
    let key ← jsonKey k
    let line ← jsonPieces u (path ++ [.key k]) v
    let lines ← jsonEntries u path es
    .ok ((.plain (key ++ ":") :: line) :: lines)
end

-- ---------------------------------------------------------------------------
-- The renderers
-- ---------------------------------------------------------------------------

/-- `SERVICE`, `ENVIRONMENT` and `COMPONENT`. -/
structure Settings where
  service : String := "intelliqx"
  environment : String := "development"
  component : String := "core"

/-- `_render_json` -/
def renderJson (u : Unicode) (st : Settings) (r : LogRecord) : Except PyException Line := do
  let field (key json : String) : Line := [.plain (jsonQuote key ++ ":" ++ json)]
  let extra ← jsonPieces u [] (.dict r.extra)
  let exception := match r.exception with
    | none => []
    | some ex => [[.plain ("\"exception\":" ++ leftBrace ++ "\"type\":" ++ jsonQuote ex.typeName ++ ",\"traceback\":" ++
        jsonQuote (scrubText u.wordChars ex.rendered) ++ rightBrace)]]
  .ok ([.plain leftBrace] ++ joinWith "," ([
    field "ts" (jsonQuote r.time),
    field "level" (jsonQuote r.level),
    field "message" (jsonQuote r.message),
    field "service" (jsonQuote st.service),
    field "environment" (jsonQuote st.environment),
    field "component" (jsonQuote st.component),
    field "logger" (r.name.elim "null" jsonQuote),
    .plain "\"extra\":" :: extra] ++ exception) ++ [.plain rightBrace])

/-- `{text:<8}` -/
def padded (text : String) : String := text ++ .ofList (List.replicate (8 - text.length) ' ')

def rstrip (text : String) : String := .ofList (text.toList.rdropWhile isSpace)

/-- One field of the extra fields, as `k=v`. -/
def assignment (u : Unicode) (e : LogKey × LogValue) : Line :=
  .plain (e.1.text ++ "=") :: reprPieces u [.key e.1] e.2

/-- `_render_pretty` -/
def renderPretty (u : Unicode) (st : Settings) (r : LogRecord) : Line :=
  let head := r.time ++ " | " ++ padded r.level ++ " | " ++ (truthy r.name).getD st.service ++ ": " ++ r.message
  let extra := if r.extra.isEmpty then [] else .plain " " :: joinWith " " (r.extra.map (assignment u))
  let exception := match r.exception with
    | none => []
    | some ex => [.plain ("\n" ++ rstrip (scrubText u.wordChars ex.rendered))]
  [.plain head] ++ extra ++ exception

inductive Renderer
  | json
  | pretty
  deriving DecidableEq

def Renderer.render (u : Unicode) (st : Settings) (r : LogRecord) : Renderer → Except PyException Line
  | .json => renderJson u st r
  | .pretty => .ok (renderPretty u st r)

/-- `_emit`: the line of a record. -/
def emit (u : Unicode) (st : Settings) (span : Option Span) (renderer : Renderer) (r : LogRecord) :
    Except PyException Line :=
  renderer.render u st (process u span r)

end Intelliqx.Observability
