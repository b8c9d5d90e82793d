import Intelliqx.Observability.Rendering

/-!
# Redaction does not let values through

Two records that differ only in what is stored under redacted or dropped keys
cannot be told apart once they are processed, and have the same lines
(`redaction_noninterferes`).
-/

namespace Intelliqx.Observability

variable {u : Unicode}

def HiddenKey (u : Unicode) (k : LogKey) : Prop := sensitiveKey u k ∨ droppedKey u k

mutual
/-- The same value but for what is stored under hidden keys. -/
inductive Agree (u : Unicode) : LogValue → LogValue → Prop
  | same (v : LogValue) : Agree u v v
  | list {vs ws : List LogValue} : AgreeItems u vs ws → Agree u (.list vs) (.list ws)
  | tuple {vs ws : List LogValue} : AgreeItems u vs ws → Agree u (.tuple vs) (.tuple ws)
  | dict {es fs : List (LogKey × LogValue)} : AgreeEntries u es fs → Agree u (.dict es) (.dict fs)
inductive AgreeItems (u : Unicode) : List LogValue → List LogValue → Prop
  | nil : AgreeItems u [] []
  | cons {v w : LogValue} {vs ws : List LogValue} :
    Agree u v w → AgreeItems u vs ws → AgreeItems u (v :: vs) (w :: ws)
inductive AgreeEntries (u : Unicode) : List (LogKey × LogValue) → List (LogKey × LogValue) → Prop
  | nil : AgreeEntries u [] []
  | cons {k : LogKey} {v w : LogValue} {es fs : List (LogKey × LogValue)} :
    Agree u v w → AgreeEntries u es fs → AgreeEntries u ((k, v) :: es) ((k, w) :: fs)
  | hidden {k : LogKey} (v w : LogValue) {es fs : List (LogKey × LogValue)} :
    HiddenKey u k → AgreeEntries u es fs → AgreeEntries u ((k, v) :: es) ((k, w) :: fs)
end

mutual
theorem scrubValue_eq : ∀ {v w : LogValue}, Agree u v w → scrubValue u v = scrubValue u w
  | _, _, .same _ => rfl
  | _, _, .list h => by rw [scrubValue, scrubValue, scrubItems_eq h]
  | _, _, .tuple h => by rw [scrubValue, scrubValue, scrubItems_eq h]
  | _, _, .dict h => by rw [scrubValue, scrubValue, scrubEntries_eq h]
theorem scrubItems_eq : ∀ {vs ws : List LogValue}, AgreeItems u vs ws → scrubItems u vs = scrubItems u ws
  | _, _, .nil => rfl
  | _, _, .cons h hs => by rw [scrubItems, scrubItems, scrubValue_eq h, scrubItems_eq hs]
theorem scrubEntries_eq : ∀ {es fs : List (LogKey × LogValue)}, AgreeEntries u es fs →
    scrubEntries u es = scrubEntries u fs
  | _, _, .nil => rfl
  | _, _, .cons h hs => by rw [scrubEntries, scrubEntries, scrubValue_eq h, scrubEntries_eq hs]
  | _, _, .hidden v w h hs => by
    rw [scrubEntries, scrubEntries, scrubEntries_eq hs]
    split
    · rfl
    · rename_i hdropped
      rw [if_pos (h.resolve_right hdropped), if_pos (h.resolve_right hdropped)]
end

theorem extra_injectOtel {r r' : LogRecord} (span : Option Span) (h : r.extra = r'.extra) :
    (injectOtel span r).extra = (injectOtel span r').extra := by
  cases span with
  | none => exact h
  | some s =>
    simp only [injectOtel, h]
    split
    · exact h
    · rfl

/-- Records that agree but for hidden values have equal extra fields once they
are processed; when they are otherwise the same, they have the same line. -/
theorem redaction_noninterferes {r r' : LogRecord} (h : AgreeEntries u r.extra r'.extra) (span : Option Span) :
    (process u span r).extra = (process u span r').extra ∧
      (r' = { r with extra := r'.extra } →
        ∀ st renderer, emit u st span renderer r = emit u st span renderer r') := by
  have hextra : scrubEntries u r.extra = scrubEntries u r'.extra := scrubEntries_eq h
  refine ⟨extra_injectOtel span hextra, fun hrest st renderer => ?_⟩
  have hprocess : process u span r = process u span r' := by
    rw [hrest, process, process, hextra]
  rw [emit, emit, hprocess]

/-- `lower` of ASCII, and `repr` of a text without quotes and escapes. -/
def plainUnicode : Unicode := ⟨knownWordChars, String.toLower, fun s => "'" ++ s ++ "'"⟩

def loginRecord (password : String) (prompt : LogValue) : LogRecord where
  time := "2025-01-01T00:00:00+00:00"
  level := "INFO"
  name := some "auth"
  message := "login"
  extra := [(.str "Prompt", prompt), (.str "user", .list [.dict [(.str "DB-Password", .str password),
    (.str "attempts", .atom "2" "2")]])]
  exception := none

theorem passwords_and_prompts_hidden :
    emit plainUnicode {} none .json (loginRecord "hunter2" (.list [.str "hello"])) =
      emit plainUnicode {} none .json (loginRecord "swordfish" (.atom "1" "1")) := by
  have hpassword : HiddenKey plainUnicode (.str "DB-Password") := .inl (by decide +kernel)
  have hprompt : HiddenKey plainUnicode (.str "Prompt") := .inr (by decide +kernel)
  refine (redaction_noninterferes (r := loginRecord _ _) ?_ none).2 rfl {} .json
  exact .hidden _ _ hprompt (.cons (.list (.cons (.dict (.hidden _ _ hpassword (.cons (.same _) .nil))) .nil)) .nil)

end Intelliqx.Observability
