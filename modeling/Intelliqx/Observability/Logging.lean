import Intelliqx.Observability.Secrets
import Intelliqx.Py.Json

/-!
# Log records

`_process` redacts the extra fields of a record by their keys and scrubs the
texts in them. Keys are compared in two ways: in lower case, to drop a field,
and with all punctuation folded, to redact its value.
-/

namespace Intelliqx.Observability

open Py

/-- What of `str` depends on the Unicode tables. -/
structure Unicode where
  wordChars : WordChars
  lower : String → String
  repr : String → String

-- ---------------------------------------------------------------------------
-- Values
-- ---------------------------------------------------------------------------

/-- A key of a mapping. -/
inductive LogKey
  | str (s : String)
  /-- `None`, a boolean or a number, with what `json.dumps` writes for it. -/
  | atom (repr json : String)
  | other (typeName text repr : String)
  deriving DecidableEq

/-- A value in the extra fields. Mappings have their items and sets their
members in the order of iteration; an object that is no container and no text
is known by its `str()` and its `repr()`. -/
inductive LogValue
  | str (s : String)
  | atom (repr json : String)
  | object (text repr : String)
  | list (items : List LogValue)
  | tuple (items : List LogValue)
  | set (frozen : Bool) (items : List LogValue)
  | dict (entries : List (LogKey × LogValue))

namespace LogKey

/-- `str(key)` -/
def text : LogKey → String
  | .str s => s
  | .atom repr _ => repr
  | .other _ text _ => text

def repr (u : Unicode) : LogKey → String
  | .str s => u.repr s
  | .atom repr _ => repr
  | .other _ _ repr => repr

end LogKey

-- ---------------------------------------------------------------------------
-- Redaction
-- ---------------------------------------------------------------------------

def redactKeys : List String := ["authorization", "bearer", "api_key", "apikey", "api_token", "api-token", "token",
  "access_token", "refresh_token", "cookie", "cookies", "set-cookie", "password", "passwords", "passwd", "pwd",
  "secret", "credential", "credentials", "client_secret", "private"]

def dropKeys : List String := ["prompt", "system_prompt", "messages", "model_input", "model_output", "completion",
  "source_body", "raw_body", "body", "tool_input"]

def normalized (u : Unicode) (k : LogKey) : List Char :=
  let joined := (Regex.plus (.set fun c => !isAlnum c)).sub (fun _ => ['_']) (u.lower k.text).toList
  (joined.dropWhile (· = '_')).rdropWhile (· = '_')

/-- `_sensitive_key` -/
def sensitiveKey (u : Unicode) (k : LogKey) : Bool :=
  redactKeys.any fun candidate =>
    normalized u k = candidate.toList || ('_' :: candidate.toList).isSuffixOf (normalized u k)

def droppedKey (u : Unicode) (k : LogKey) : Bool := dropKeys.contains (u.lower k.text)

mutual
/-- `_scrub_value` -/
def scrubValue (u : Unicode) : LogValue → LogValue
  | .dict es => .dict (scrubEntries u es)
  | .list vs => .list (scrubItems u vs)
  | .tuple vs => .tuple (scrubItems u vs)
  | .str s => .str (scrubText u.wordChars s)
  | .atom repr json => .atom repr json
  | .object text repr => .object text repr
  | .set frozen vs => .set frozen vs
def scrubItems (u : Unicode) : List LogValue → List LogValue
  | [] => []
  | v :: vs => scrubValue u v :: scrubItems u vs
def scrubEntries (u : Unicode) : List (LogKey × LogValue) → List (LogKey × LogValue)
  | [] => []
  | (k, v) :: es =>
    if droppedKey u k then scrubEntries u es
    else (k, if sensitiveKey u k then .str redacted else scrubValue u v) :: scrubEntries u es
end

-- ---------------------------------------------------------------------------
-- Records
-- ---------------------------------------------------------------------------

/-- An exception of a record: its type's name and the text of `format_exception`. -/
structure ExceptionInfo where
  typeName : String
  rendered : String

structure LogRecord where
  time : String
  level : String
  name : Option String
  message : String
  extra : List (LogKey × LogValue)
  exception : Option ExceptionInfo

/-- The ids of the current span, where there is a valid one. -/
structure Span where
  traceId : String
  spanId : String

/-- `_inject_otel` -/
def injectOtel (span : Option Span) (r : LogRecord) : LogRecord :=
  match span with
  | none => r
  | some s =>
    if (r.extra.map Prod.fst).contains (.str "trace_id") then r
    else { r with extra := insertEntry (.str "span_id") (.str s.spanId)
                    (insertEntry (.str "trace_id") (.str s.traceId) r.extra) }

/-- `_process` -/
def process (u : Unicode) (span : Option Span) (r : LogRecord) : LogRecord :=
  injectOtel span { r with extra := scrubEntries u r.extra, message := scrubText u.wordChars r.message }

end Intelliqx.Observability
