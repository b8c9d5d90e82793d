import Intelliqx.Py.Alike
import Intelliqx.Py.Text

/-!
# Secrets in text

`_scrub_text` replaces what looks like a secret. The pattern knows eight kinds
of secrets; one of them is a key word with a value, as `password=...`, whose
value is bounded to 200 characters. What of a longer value is not replaced is
left in the text (`scrubText_hides`).
-/

namespace Intelliqx.Observability

open Py Py.Regex

-- ---------------------------------------------------------------------------
-- Characters under IGNORECASE
-- ---------------------------------------------------------------------------

/-- What is compared under `IGNORECASE`: four letters beyond ASCII count as ASCII letters. -/
def foldChar (c : Char) : Char :=
  if c = '\u0130' ∨ c = '\u0131' then 'i'
  else if c = '\u017f' then 's'
  else if c = '\u212a' then 'k'
  else c.toLower

/-- `[a-z0-9]` -/
def isAlnum (c : Char) : Bool := ('a' ≤ c && c ≤ 'z') || ('0' ≤ c && c ≤ '9')

/-- `\w`. ASCII is as documented; of the rest only the letters that `IGNORECASE` adds are known. -/
structure WordChars where
  isWord : Char → Bool
  ascii : ∀ c : Char, c.toNat < 128 → isWord c = (isAlnum c.toLower || c = '_')
  folded : ∀ c, isAlnum (foldChar c) → isWord c

def inClass (p : Char → Bool) : Regex := .set fun c => p (foldChar c)

def ignoreCase (text : String) : Regex := litBy foldChar text.toList

-- ---------------------------------------------------------------------------
-- The pattern
-- ---------------------------------------------------------------------------

/-- `[A-Za-z0-9._\-+/=]` -/
def isValueChar (c : Char) : Bool := isAlnum c || ['.', '_', '-', '+', '/', '='].contains c

def spaces : Regex := .star (.set isSpace)

def value : Regex := .plus (inClass isValueChar)

/-- `[A-Z ]+PRIVATE KEY-----` -/
def keyKind : Regex :=
  .seq (.plus (inClass fun c => ('a' ≤ c && c ≤ 'z') || c = ' ')) (ignoreCase "private key-----")

def twoWords (first second : String) : Regex :=
  chain [ignoreCase first, .opt (inClass fun c => c = '_' || c = '-'), ignoreCase second]

def keyWord : Regex :=
  .alt (twoWords "api" "key") <| .alt (twoWords "access" "token") <| .alt (twoWords "refresh" "token") <|
    .alt (ignoreCase "secret") <| .alt (ignoreCase "password") (ignoreCase "credential")

/-- The key word with what may stand in front of it. -/
def keyName : Regex := .seq (.star (.seq (.plus (inClass isAlnum)) (inClass (· = '_')))) keyWord

/-- A key word, what may be joined to it, and a value of up to 200 characters. -/
def keyValue (w : WordChars) : Regex :=
  chain [.boundary w.isWord, keyName, .star (.seq (inClass (· = '_')) (.plus (inClass isAlnum))), spaces,
    inClass fun c => c = '=' || c = ':', spaces, .oneUpTo 200 (inClass isValueChar)]

/-- `_SECRET_PATTERN` -/
def secretPattern (w : WordChars) : Regex :=
  .alt (.group "bearer_auth" (chain [ignoreCase "authorization", spaces, ignoreCase ":", spaces,
    ignoreCase "bearer", .plus (.set isSpace), value])) <|
  .alt (.group "auth" (chain [ignoreCase "authorization", spaces, ignoreCase ":", spaces, value])) <|
  .alt (.group "bearer" (chain [.boundary w.isWord, ignoreCase "bearer", .plus (.set isSpace), value])) <|
  .alt (.group "sk" (chain [.boundary w.isWord, ignoreCase "sk-", atLeast 16 (inClass isAlnum)])) <|
  .alt (.group "ghp" (chain [.boundary w.isWord, ignoreCase "ghp_", atLeast 20 (inClass isAlnum)])) <|
  .alt (.group "slack" (chain [.boundary w.isWord, ignoreCase "xox",
    inClass fun c => ['a', 'b', 'p', 'r'].contains c, ignoreCase "-",
    atLeast 10 (inClass fun c => isAlnum c || c = '-')])) <|
  .alt (.group "pkey" (chain [ignoreCase "-----begin ", keyKind, .lazyStar (.set fun _ => true),
    ignoreCase "-----end ", keyKind])) <|
  .group "kv" (keyValue w)

def redacted : String := "[REDACTED]"

/-- `repl` of `_scrub_text`. -/
def repl (m : Match) : String :=
  if m.lastgroup = some "bearer_auth" then "Authorization: Bearer " ++ redacted
  else if m.lastgroup = some "auth" then "Authorization: " ++ redacted
  else if m.lastgroup = some "bearer" then "Bearer " ++ redacted
  else if m.lastgroup = some "kv" then .ofList (m.text.takeWhile fun c => !(c = '=' || c = ':')) ++ "=" ++ redacted
  else redacted

/-- `_scrub_text` -/
def scrubText (w : WordChars) (text : String) : String :=
  .ofList ((secretPattern w).sub (fun m => (repl m).toList) text.toList)

-- ---------------------------------------------------------------------------
-- The characters
-- ---------------------------------------------------------------------------

section
variable {w : WordChars} {c : Char} {before : Option Char} {text rest : List Char}

def spaceCodes : List Nat :=
  [9, 10, 11, 12, 13, 28, 29, 30, 31, 32, 0x85, 0xa0, 0x1680, 0x2000, 0x2001, 0x2002, 0x2003, 0x2004, 0x2005,
    0x2006, 0x2007, 0x2008, 0x2009, 0x200a, 0x2028, 0x2029, 0x202f, 0x205f, 0x3000]

theorem mem_of_between {codes : List Nat} {lo hi n : Nat} (hsub : List.range' lo (hi + 1 - lo) ⊆ codes)
    (h : lo ≤ n ∧ n ≤ hi) : n ∈ codes :=
  hsub (List.mem_range'_1.mpr ⟨h.1, by omega⟩)

theorem mem_spaceCodes (h : isSpace c) : c.toNat ∈ spaceCodes := by
  simp only [isSpace, Bool.or_eq_true, Bool.and_eq_true, decide_eq_true_eq, beq_iff_eq, or_assoc] at h
  rcases h with h | h | h | h | h | h | h | h | h | h | h
  case inl | inr.inl | inr.inr.inr.inr.inr.inl => exact mem_of_between (by decide) h
  all_goals
    rw [h]
    decide

theorem isSpace_of_isValueChar (h : isValueChar (foldChar c)) : isSpace c = false := by
  have hcodes : ∀ n ∈ spaceCodes, isValueChar (foldChar (.ofNat n)) = false := by decide +kernel
  by_contra hspace
  have hno := hcodes c.toNat (mem_spaceCodes ((Bool.not_eq_false _).mp hspace))
  rw [Char.ofNat_toNat, h] at hno
  cases hno

theorem WordChars.isWord_space (w : WordChars) : w.isWord ' ' = false := w.ascii ' ' (by decide)

-- ---------------------------------------------------------------------------
-- Key words
-- ---------------------------------------------------------------------------

def keyWords : List (List Char) := ["api_key", "api-key", "apikey", "access_token", "access-token", "accesstoken",
  "refresh_token", "refresh-token", "refreshtoken", "secret", "password", "credential"].map String.toList

/-- The texts that differ where both have a character. -/
def differ : List Char → List Char → Bool
  | c :: cs, d :: ds => c != d || differ cs ds
  | _, _ => false

theorem not_prefix_of_differ {u v : List Char} (h : differ u v) : ¬ u <+: v ++ rest := by
  induction u generalizing v with
  | nil => cases h
  | cons c u ih =>
    cases v with
    | nil => cases h
    | cons d v =>
      rw [List.cons_append, List.cons_prefix_cons]
      rintro ⟨rfl, hprefix⟩
      exact ih (by simpa [differ] using h) hprefix

/-- What the other kinds of secrets begin with. -/
def beginnings : List String := ["authorization", "bearer", "sk-", "ghp_", "xox", "-----begin "]

theorem run_ignoreCase_of_differ {l : String} (front : List Char) (h : differ l.toList (front.map foldChar)) :
    run (ignoreCase l) before (front ++ rest) = [] := by
  refine run_litBy_of_not ?_
  rw [List.map_append]
  exact not_prefix_of_differ h

/-- Where none of the others can begin, only a key word with a value is a secret. -/
theorem run_secretPattern {front : List Char} (h : ∀ l ∈ beginnings, differ l.toList (front.map foldChar)) :
    (secretPattern w).run before (front ++ rest) = run (.group "kv" (keyValue w)) before (front ++ rest) := by
  have hnone : ∀ l ∈ beginnings, ∀ rs, run (chain (ignoreCase l :: rs)) before (front ++ rest) = [] :=
    fun l hl rs => run_seq_of_nil (chain rs) (run_ignoreCase_of_differ front (h l hl))
  have hbound : ∀ l ∈ beginnings, ∀ rs,
      run (chain (.boundary w.isWord :: ignoreCase l :: rs)) before (front ++ rest) = [] := by
    intro l hl rs
    rw [show chain (.boundary w.isWord :: ignoreCase l :: rs) =
      .seq (.boundary w.isWord) (chain (ignoreCase l :: rs)) from rfl, run_boundary_seq, hnone l hl, ite_self]
  simp only [secretPattern, run_alt, run_group, hnone _ (by decide : "authorization" ∈ beginnings),
    hnone _ (by decide : "-----begin " ∈ beginnings), hbound _ (by decide : "bearer" ∈ beginnings),
    hbound _ (by decide : "sk-" ∈ beginnings), hbound _ (by decide : "ghp_" ∈ beginnings),
    hbound _ (by decide : "xox" ∈ beginnings), List.map_nil, List.nil_append]

end

-- ---------------------------------------------------------------------------
-- A key word with a value
-- ---------------------------------------------------------------------------

/-- A key word of the pattern, in any case. -/
def IsKeyWord (key : List Char) : Prop := key.map foldChar ∈ keyWords

/-- A text of the pattern's value characters. -/
def IsValue (X : List Char) : Prop := X ≠ [] ∧ ∀ c ∈ X, isValueChar (foldChar c)

instance : DecidablePred IsKeyWord := fun key => inferInstanceAs (Decidable (key.map foldChar ∈ keyWords))

theorem isValue_iff {X : List Char} : (X ≠ [] ∧ X.all fun c => isValueChar (foldChar c)) ↔ IsValue X := by
  rw [IsValue, List.all_eq_true]

instance : DecidablePred IsValue := fun _ => decidable_of_iff _ isValue_iff

def SameFold (c d : Char) : Prop := foldChar c = foldChar d

theorem blind_inClass {p : Char → Bool} (h : p '=' = false) : (inClass p).Blind SameFold (· = '=') :=
  ⟨fun _ _ hcd => congrArg p hcd, fun _ hc => hc ▸ h⟩

theorem blind_ignoreCase {text : String} (h : '=' ∉ text.toList) : (ignoreCase text).Blind SameFold (· = '=') := by
  unfold ignoreCase
  generalize text.toList = cs at h
  induction cs with
  | nil => trivial
  | cons c cs ih =>
    obtain ⟨hc, hcs⟩ := not_or.mp (List.mem_cons.not.mp h)
    refine ⟨⟨fun d e hde => ?_, fun d hd => ?_⟩, ih hcs⟩
    · exact congrArg (fun a => decide (a = c)) hde
    · subst hd
      exact decide_eq_false fun heq => hc (heq ▸ rfl)

theorem blind_keyName : keyName.Blind SameFold (· = '=') := by
  have hjoin : (inClass fun c => c = '_' || c = '-').Blind SameFold (· = '=') := blind_inClass (by decide)
  have hwords : ∀ first second : String, '=' ∉ first.toList → '=' ∉ second.toList →
      (twoWords first second).Blind SameFold (· = '=') := fun first second hfirst hsecond =>
    ⟨blind_ignoreCase hfirst, hjoin, blind_ignoreCase hsecond, trivial⟩
  have halnum : (inClass isAlnum).Blind SameFold (· = '=') := blind_inClass (by decide)
  refine ⟨⟨⟨halnum, halnum⟩, blind_inClass (by decide)⟩, ?_⟩
  exact ⟨hwords _ _ (by decide) (by decide), hwords _ _ (by decide) (by decide), hwords _ _ (by decide) (by decide),
    blind_ignoreCase (by decide), blind_ignoreCase (by decide), blind_ignoreCase (by decide)⟩

section
variable {w : WordChars} {before : Option Char} {key text rest X post : List Char}

theorem keyName_run_keyWords : ∀ k ∈ keyWords, k.map foldChar = k ∧
    ∀ before ∈ [none, some ' '], run keyName before (k ++ ['=']) = [⟨k, ['='], []⟩] := by
  decide +kernel

/-- The name of a key word takes all of it. -/
theorem run_keyName (hkey : IsKeyWord key) (hbefore : before = none ∨ before = some ' ') :
    run keyName before (key ++ '=' :: rest) = [⟨key, '=' :: rest, []⟩] := by
  obtain ⟨hfold, hrun⟩ := keyName_run_keyWords _ hkey
  have hsame : List.Forall₂ SameFold key (key.map foldChar) := by
    rw [List.map_map, List.map_inj_left] at hfold
    rw [List.forall₂_map_right_iff, List.forall₂_same]
    exact fun c hc => (hfold c hc).symm
  rcases hbefore with rfl | rfl
  · exact run_eq_of_alike blind_keyName rfl hsame .none (hrun none (by decide))
  · exact run_eq_of_alike blind_keyName rfl hsame (.some rfl) (hrun (some ' ') (by decide))

theorem sep_not_mem_key (hkey : IsKeyWord key) : ∀ c ∈ key, (c = '=' || c = ':') = false := by
  have hwords : ∀ k ∈ keyWords, foldChar '=' ∉ k ∧ foldChar ':' ∉ k := by decide +kernel
  obtain ⟨heq, hcolon⟩ := hwords _ hkey
  intro c hc
  have hfold := List.mem_map_of_mem (f := foldChar) hc
  rw [Bool.or_eq_false_iff]
  exact ⟨decide_eq_false fun h => heq (h ▸ hfold), decide_eq_false fun h => hcolon (h ▸ hfold)⟩

theorem boundary_key (hkey : IsKeyWord key) (hbefore : before = none ∨ before = some ' ') (rest : List Char) :
    (before.any w.isWord != (key ++ rest).head?.any w.isWord) = true := by
  have hwords : ∀ k ∈ keyWords, k.head?.any isAlnum := by decide +kernel
  obtain ⟨d, hd, hletter⟩ := (Option.any_eq_true _ _).mp (hwords _ hkey)
  have hleft : before.any w.isWord = false := by
    rcases hbefore with rfl | rfl
    · rfl
    · exact w.isWord_space
  cases key with
  | nil => cases hd
  | cons c cs =>
    cases hd
    have hright : (c :: cs ++ rest).head?.any w.isWord = true := w.folded c hletter
    rw [hleft, hright]
    rfl

/-- The longest match takes the value, up to 200 characters of it. -/
theorem run_keyValue (hkey : IsKeyWord key) (hX : IsValue X) (hbefore : before = none ∨ before = some ' ')
    (hpost : ∀ c ∈ post.head?, c = ' ') : ∃ shorter, run (keyValue w) before (key ++ '=' :: (X ++ post)) =
      ⟨key ++ '=' :: X.take 200, X.drop 200 ++ post, []⟩ :: shorter := by
  have hname : run keyName before (key ++ '=' :: (X ++ post)) = [⟨key, '=' :: (X ++ post), []⟩] :=
    run_keyName hkey hbefore
  have hsuffix : ∀ b, run (.star (.seq (inClass (· = '_')) (.plus (inClass isAlnum)))) b ('=' :: (X ++ post)) =
      [.empty ('=' :: (X ++ post))] := fun b => run_star_of_nil rfl
  have hspaces : ∀ b text, (∀ c ∈ text.head?, isSpace c = false) → run spaces b text = [.empty text] := by
    intro b text h
    rw [spaces, run_star_set, classRuns_of_not fun c hc => by simp [h c hc]]
  have hhead : ∀ c ∈ (X ++ post).head?, isSpace c = false := by
    intro c hc
    rw [List.head?_append_of_ne_nil _ hX.1] at hc
    exact isSpace_of_isValueChar (hX.2 c (List.mem_of_head? hc))
  have heq : ∀ c ∈ ('=' :: (X ++ post)).head?, isSpace c = false := by
    rintro c ⟨⟩
    decide
  have hend : (X.take 200).length = 200 ∨ ∀ c ∈ (X.drop 200 ++ post).head?, ¬ isValueChar (foldChar c) := by
    rcases Nat.lt_or_ge X.length 200 with hlt | hge
    · rw [List.drop_eq_nil_of_le hlt.le, List.nil_append]
      refine .inr fun c hc => ?_
      rw [hpost c hc]
      decide
    · exact .inl (List.length_take_of_le hge)
  obtain ⟨shorter, hvalue⟩ := run_oneUpTo_set (some '=') (fun c hc => hX.2 c (List.mem_of_mem_take hc))
    (show X.take 200 ≠ [] by simp [hX.1]) (List.length_take_le 200 X) hend
  rw [← List.append_assoc, List.take_append_drop] at hvalue
  simp only [keyValue, chain, List.foldr_cons, List.foldr_nil]
  rw [run_boundary_seq, if_pos (boundary_key hkey hbefore _), run_seq_of_singleton _ hname,
    run_seq_of_empty _ (hsuffix _), run_seq_of_empty _ (hspaces _ _ heq), inClass, run_set_seq, if_pos (by decide),
    run_seq_of_empty _ (hspaces _ _ hhead), run_seq_eps, inClass, hvalue]
  exact ⟨_, rfl⟩

theorem first_secret (hkey : IsKeyWord key) (hX : IsValue X) (hbefore : before = none ∨ before = some ' ')
    (hpost : ∀ c ∈ post.head?, c = ' ') : (secretPattern w).first before (key ++ '=' :: (X ++ post)) =
      some ⟨key ++ '=' :: X.take 200, X.drop 200 ++ post, [("kv", key ++ '=' :: X.take 200)]⟩ := by
  have hwords : ∀ k ∈ keyWords, ∀ l ∈ beginnings, differ l.toList k := by decide +kernel
  obtain ⟨shorter, hrun⟩ := run_keyValue (w := w) hkey hX hbefore hpost
  rw [Regex.first, run_secretPattern (hwords _ hkey), run_group, hrun, List.map_cons,
    List.find?_cons_of_pos (by simp)]

theorem repl_secret (hkey : IsKeyWord key) (groups : List (String × List Char)) :
    (repl ⟨key ++ '=' :: X, rest, ("kv", text) :: groups⟩).toList = key ++ ("=" ++ redacted).toList := by
  have hname : (key ++ '=' :: X).takeWhile (fun c => !(c = '=' || c = ':')) = key := by
    rw [List.takeWhile_append_of_pos fun c hc => by rw [sep_not_mem_key hkey c hc]; rfl]
    simp
  have hgroup : Match.lastgroup ⟨key ++ '=' :: X, rest, ("kv", text) :: groups⟩ = some "kv" := rfl
  rw [repl, hgroup, if_neg (by decide), if_neg (by decide), if_neg (by decide), if_pos rfl, hname, String.append_assoc,
    String.toList_append, String.toList_ofList]

/-- No secret begins with a space. -/
theorem first_space (cs : List Char) : (secretPattern w).first before (' ' :: cs) = none := by
  have hother : ∀ l ∈ beginnings, differ l.toList ([' '].map foldChar) := by decide +kernel
  have hword : ∀ l ∈ ["api", "access", "refresh", "secret", "password", "credential"],
      differ l.toList ([' '].map foldChar) := by decide +kernel
  have hnone : ∀ l ∈ ["api", "access", "refresh", "secret", "password", "credential"],
      run (ignoreCase l) before (' ' :: cs) = [] := fun l hl =>
    run_ignoreCase_of_differ [' '] (hword l hl)
  have hkeyWord : run keyWord before (' ' :: cs) = [] := by
    simp only [keyWord, run_alt, List.append_eq_nil_iff]
    exact ⟨run_seq_of_nil _ (hnone "api" (by decide)), run_seq_of_nil _ (hnone "access" (by decide)),
      run_seq_of_nil _ (hnone "refresh" (by decide)), hnone "secret" (by decide), hnone "password" (by decide),
      hnone "credential" (by decide)⟩
  have hname : run keyName before (' ' :: cs) = [] := by
    rw [keyName, run_seq_of_empty _ (run_star_of_nil rfl), hkeyWord]
  have hrun : run (keyValue w) before (' ' :: cs) = [] := by
    rw [keyValue, chain, List.foldr_cons, run_boundary_seq, List.foldr_cons, run_seq_of_nil _ hname, ite_self]
  rw [Regex.first, ← List.singleton_append, run_secretPattern hother, run_group, List.singleton_append, hrun]
  rfl

/-- The characters behind a text that ends where a secret may begin do not depend on what is in front. -/
theorem matches_after (hpost : ∀ c ∈ post.head?, c = ' ') (h : ((secretPattern w).finditer post).matches = []) :
    ((secretPattern w).finditerFrom before post).matches = [] := by
  cases post with
  | nil => rfl
  | cons c cs =>
    obtain rfl := hpost c rfl
    rw [finditer, finditerFrom_cons_none (first_space cs), Found.matches_push] at h
    rw [finditerFrom_cons_none (first_space cs), Found.matches_push, h]

/-- What is left of a value, as it is scrubbed. -/
def leftOver (w : WordChars) (X post : List Char) : List Char :=
  ((secretPattern w).finditerFrom (X.take 200).getLast? (X.drop 200 ++ post)).replace fun m => (repl m).toList

theorem sub_secret {pre : List Char} (hkey : IsKeyWord key) (hX : IsValue X)
    (hpre : pre = [] ∨ pre.getLast? = some ' ') (hpost : ∀ c ∈ post.head?, c = ' ')
    (h : Unmatched (secretPattern w) none pre (key ++ '=' :: (X ++ post))) :
    (secretPattern w).sub (fun m => (repl m).toList) (pre ++ (key ++ '=' :: (X ++ post))) =
      pre ++ (key ++ ("=" ++ redacted).toList ++ leftOver w X post) := by
  have hbefore : lastOf none pre = none ∨ lastOf none pre = some ' ' := by
    rcases hpre with rfl | hpre
    · exact .inl rfl
    · exact .inr (by rw [lastOf, hpre, Option.some_or])
  have hlast : lastOf (lastOf none pre) (key ++ '=' :: X.take 200) = (X.take 200).getLast? := by
    rw [List.append_cons]
    exact lastOf_append_of_ne_nil _ _ (by simp [hX.1])
  rw [sub, finditer, finditerFrom_append h, Found.replace_prepend,
    finditerFrom_of_some (first_secret hkey hX hbefore hpost), Found.replace_add, repl_secret hkey, hlast, leftOver]

theorem leftOver_of_le (hlen : X.length ≤ 200) (hpost : ∀ c ∈ post.head?, c = ' ')
    (h : ((secretPattern w).finditer post).matches = []) : leftOver w X post = post := by
  rw [leftOver, List.drop_eq_nil_of_le hlen, List.nil_append]
  exact replace_of_no_matches _ (matches_after hpost h)

theorem head_repl {m : Match} {c : Char} (hm : m.text.head? = some c) (hc : c ≠ ' ') :
    ∃ d ∈ (repl m).toList.head?, d ≠ ' ' := by
  obtain ⟨cs, hcs⟩ : ∃ cs, m.text = c :: cs := by
    cases htext : m.text with
    | nil => rw [htext] at hm; cases hm
    | cons d cs => rw [htext] at hm; cases hm; exact ⟨cs, rfl⟩
  unfold repl
  split
  · exact ⟨'A', by simp, by decide⟩
  split
  · exact ⟨'A', by simp, by decide⟩
  split
  · exact ⟨'B', by simp, by decide⟩
  split
  · rw [hcs, List.takeWhile_cons]
    split
    · exact ⟨c, by simp, hc⟩
    · exact ⟨'=', by simp, by decide⟩
  · exact ⟨'[', by simp [redacted], by decide⟩

/-- What is left of a value shows: it does not begin with a space. -/
theorem leftOver_of_lt (w : WordChars) (post : List Char) (hX : IsValue X) (hlen : 200 < X.length) :
    ∃ d ∈ (leftOver w X post).head?, d ≠ ' ' := by
  cases hdrop : X.drop 200 with
  | nil => exact absurd (List.drop_eq_nil_iff.mp hdrop) (Nat.not_le_of_lt hlen)
  | cons c cs =>
    have hvalue : isValueChar (foldChar c) := hX.2 c (List.mem_of_mem_drop (hdrop ▸ List.mem_cons_self))
    have hc : c ≠ ' ' := by
      rintro rfl
      exact absurd hvalue (by decide)
    rw [leftOver, hdrop, List.cons_append]
    cases hfirst : (secretPattern w).first (X.take 200).getLast? (c :: (cs ++ post)) with
    | none =>
      rw [finditerFrom_cons_none hfirst, Found.replace_push]
      exact ⟨c, rfl, hc⟩
    | some m =>
      have hhead : m.text.head? = some c := by
        rw [← List.head?_append_of_ne_nil _ (text_ne_nil hfirst), text_append_rest hfirst]
        rfl
      obtain ⟨d, hd, hne⟩ := head_repl hhead hc
      rw [finditerFrom_of_some hfirst, Found.replace_add]
      exact ⟨d, List.mem_head?_append_of_mem_head? hd, hne⟩

end

-- ---------------------------------------------------------------------------
-- What a value shows
-- ---------------------------------------------------------------------------

/-- A key word with the value `X` stands between `pre` and `post`, and nothing
else in the text is a secret: none begins in `pre` and none in `post`. -/
structure Alone (w : WordChars) (pre key X post : List Char) : Prop where
  isKeyWord : IsKeyWord key
  isValue : IsValue X
  preEnd : pre = [] ∨ pre.getLast? = some ' '
  postStart : post = [] ∨ post.head? = some ' '
  before : Unmatched (secretPattern w) none pre (key ++ '=' :: (X ++ post))
  behind : ((secretPattern w).finditer post).matches = []

/-- What is behind the first 200 characters of a value holds no secret of its own. -/
def NoSecretBeyond (w : WordChars) (X post : List Char) : Prop :=
  ((secretPattern w).finditerFrom (X.take 200).getLast? (X.drop 200 ++ post)).matches = []

/-- The same is left of both values, and it is scrubbed alike: it stands behind the same character, or
holds no further secret. -/
structure SameBeyond (w : WordChars) (V W post : List Char) : Prop where
  same : V.drop 200 = W.drop 200
  alike : 200 < V.length → (V.take 200).getLast? = (W.take 200).getLast? ∨
    NoSecretBeyond w V post ∧ NoSecretBeyond w W post

section
variable {w : WordChars} {pre key V W post : List Char}

theorem Alone.head_post (h : Alone w pre key V post) : ∀ c ∈ post.head?, c = ' ' := by
  intro c hc
  rcases h.postStart with rfl | hpost
  · cases hc
  · rw [hpost] at hc
    exact (Option.some.inj hc).symm

theorem Alone.leftOver_ne_of_lt (h : Alone w pre key V post) (hlen : 200 < V.length) : leftOver w V post ≠ post := by
  intro heq
  obtain ⟨d, hd, hne⟩ := leftOver_of_lt w post h.isValue hlen
  rw [heq] at hd
  exact hne (h.head_post d hd)

/-- Two values are scrubbed alike when they are the same behind their first 200 characters. -/
theorem leftOver_eq_iff (hV : Alone w pre key V post) (hW : Alone w pre key W post)
    (hbeyond : 200 < V.length → 200 < W.length → NoSecretBeyond w V post ∧ NoSecretBeyond w W post) :
    leftOver w V post = leftOver w W post ↔ V.drop 200 = W.drop 200 := by
  rcases Nat.lt_or_ge 200 V.length with hlt | hle
  · rcases Nat.lt_or_ge 200 W.length with hlt' | hle'
    · obtain ⟨hbeyondV, hbeyondW⟩ := hbeyond hlt hlt'
      rw [leftOver, leftOver, replace_of_no_matches _ hbeyondV, replace_of_no_matches _ hbeyondW,
        List.append_left_inj]
    · rw [leftOver_of_le hle' hV.head_post hW.behind, List.drop_eq_nil_of_le hle', List.drop_eq_nil_iff]
      exact iff_of_false (hV.leftOver_ne_of_lt hlt) (Nat.not_le_of_lt hlt)
  · rcases Nat.lt_or_ge 200 W.length with hlt' | hle'
    · rw [leftOver_of_le hle hV.head_post hV.behind, List.drop_eq_nil_of_le hle, eq_comm, eq_comm (a := []),
        List.drop_eq_nil_iff]
      exact iff_of_false (hW.leftOver_ne_of_lt hlt') (Nat.not_le_of_lt hlt')
    · rw [leftOver_of_le hle hV.head_post hV.behind, leftOver_of_le hle' hV.head_post hW.behind,
        List.drop_eq_nil_of_le hle, List.drop_eq_nil_of_le hle']
      exact iff_of_true rfl rfl

theorem leftOver_eq_of_sameBeyond (hV : Alone w pre key V post) (hW : Alone w pre key W post)
    (h : SameBeyond w V W post) : leftOver w V post = leftOver w W post := by
  rcases Nat.lt_or_ge 200 V.length with hlt | hle
  · rcases h.alike hlt with hlast | hbeyond
    · rw [leftOver, leftOver, h.same, hlast]
    · exact (leftOver_eq_iff hV hW fun _ _ => hbeyond).mpr h.same
  · refine (leftOver_eq_iff hV hW fun hlt => absurd hlt (Nat.not_lt_of_le hle)).mpr h.same

end

section
variable {w : WordChars} {pre key V W X post : String}

theorem scrubText_secret (h : Alone w pre.toList key.toList X.toList post.toList) :
    scrubText w (pre ++ (key ++ "=" ++ X) ++ post) =
      .ofList (pre.toList ++ (key.toList ++ ("=" ++ redacted).toList ++ leftOver w X.toList post.toList)) := by
  have hsplit : (pre ++ (key ++ "=" ++ X) ++ post).toList =
      pre.toList ++ (key.toList ++ '=' :: (X.toList ++ post.toList)) := by simp
  rw [scrubText, hsplit, sub_secret h.isKeyWord h.isValue h.preEnd h.head_post h.before]

end

/-- No word characters but those that are known. -/
def knownWordChars : WordChars where
  isWord c := isAlnum (foldChar c) || c = '_'
  ascii c h := by
    have hbeyond : ∀ d : Char, 128 ≤ d.toNat → c ≠ d := by
      rintro d hd rfl
      exact Nat.not_le_of_lt h hd
    rw [foldChar, if_neg (not_or.mpr ⟨hbeyond _ (by decide), hbeyond _ (by decide)⟩), if_neg (hbeyond _ (by decide)),
      if_neg (hbeyond _ (by decide))]
  folded c h := by rw [h, Bool.true_or]

def longPassword : String := .ofList (List.replicate 201 'x')

end Intelliqx.Observability
