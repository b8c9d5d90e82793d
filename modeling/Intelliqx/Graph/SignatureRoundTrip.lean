import Intelliqx.Graph.Signature

/-!
# Signatures in generated code

What `inputs_to_params` writes for the inputs of a node. It cuts an input at
its colons and renames what stands in front of the first one, so a parameter
survives when it has no further colon and no default without an annotation;
and it writes `self` in front of the parameters of a method, which has them
all already.
-/

namespace Intelliqx.Graph

open Py (Arg Arguments Param Item ExprSyntax Reads Misreads BeginsAt beforeColon)
open PythonBackend (paramText safeName inputsToParams)

variable {ε : Type u}

-- ---------------------------------------------------------------------------
-- Cutting at colons
-- ---------------------------------------------------------------------------

theorem head_splitOn_colon (l : List Char) : ∃ rest, l.splitOn ':' = beforeColon l :: rest := by
  by_cases h : ':' ∈ l
  · obtain ⟨r, hr⟩ := Py.eq_beforeColon_append h
    rw [hr, List.splitOn_append_cons_self_of_not_mem Py.not_mem_beforeColon,
      Py.beforeColon_append Py.not_mem_beforeColon]
    exact ⟨_, by simp [beforeColon]; rfl⟩
  · exact ⟨[], by rw [List.splitOn_eq_singleton h, Py.beforeColon_of_not_mem h]⟩

theorem paramText_of_not_colon {input : String} (h : ':' ∉ input.toList) :
    paramText input = safeName (Py.strip input) := by
  rw [paramText, List.splitOn_eq_singleton h]
  simp

theorem paramText_of_colon {input : String} {l r : List Char} (hi : input.toList = l ++ ':' :: r)
    (hl : ':' ∉ l) :
    paramText input = safeName (Py.strip (.ofList l)) ++ ": " ++ Py.strip (.ofList (beforeColon r)) := by
  obtain ⟨rest, hrest⟩ := head_splitOn_colon r
  rw [paramText, hi, List.splitOn_append_cons_self_of_not_mem hl, hrest]

theorem paramText_begins (input : String) : ∃ tail, (paramText input).toList =
    (safeName (Py.strip (.ofList (beforeColon input.toList)))).toList ++ tail := by
  by_cases h : ':' ∈ input.toList
  · obtain ⟨r, hr⟩ := Py.eq_beforeColon_append h
    rw [paramText_of_colon hr Py.not_mem_beforeColon]
    exact ⟨_, by rw [String.toList_append, String.toList_append, List.append_assoc]⟩
  · exact ⟨[], by rw [paramText_of_not_colon h, Py.beforeColon_of_not_mem h]; simp⟩

-- ---------------------------------------------------------------------------
-- Renaming
-- ---------------------------------------------------------------------------

def safeChar (c : Char) : Char := if c = '-' ∨ c = '.' ∨ c = ' ' then '_' else c

theorem toList_safeName (s : String) : (safeName s).toList = s.toList.map safeChar := by
  simp only [safeName, Py.replaceChar, String.toList_ofList, List.map_map]
  apply List.map_congr_left
  intro c _
  simp only [Function.comp_apply, safeChar]
  split <;> split <;> simp_all

theorem safeChar_of_isNameChar (h : Py.isNameChar c) : safeChar c = c := by
  apply if_neg
  rintro (rfl | rfl | rfl) <;> exact absurd h (by decide)

theorem safeName_strip_name {i : Item ε} {name : String} (h : Py.isName name) :
    safeName (Py.strip (.ofList (i.stars.toList ++ name.toList))) = i.stars ++ name := by
  have hstars : ∀ c ∈ i.stars.toList, c = '*' := by cases i <;> simp [Item.stars]
  have hchars : ∀ c ∈ i.stars.toList ++ name.toList, Py.isSpace c = false ∧ safeChar c = c := by
    intro c hc
    rcases List.mem_append.mp hc with hc | hc
    · rw [hstars c hc]
      decide
    · have hname := Py.isNameChar_of_isName h c hc
      exact ⟨Py.isSpace_of_isNameChar hname, safeChar_of_isNameChar hname⟩
  rw [Py.strip_of_not_space fun c hc => (hchars c hc).1]
  apply String.toList_inj.mp
  rw [toList_safeName, String.toList_ofList, List.map_congr_left fun c hc => (hchars c hc).2]
  simp

-- ---------------------------------------------------------------------------
-- What becomes of an item
-- ---------------------------------------------------------------------------

section
variable {S : ExprSyntax ε} {i : Item ε} {p : Param ε}

theorem trimmed_annotated (a : ε) (d : Option ε) :
    Py.Trimmed ((S.unparse a).toList ++ (Py.defaultText S d).toList) := by
  cases d with
  | none => simpa [Py.defaultText] using S.trimmed a
  | some d =>
    have h := (S.trimmed a).append (S.trimmed d) " = ".toList
    rwa [← String.toList_append] at h

theorem colon_not_mem_name (hname : Py.isName p.arg) : ':' ∉ i.stars.toList ++ p.arg.toList := by
  intro hmem
  rcases List.mem_append.mp hmem with hmem | hmem
  · cases i <;> simp [Item.stars] at hmem
  · exact absurd (Py.isNameChar_of_isName hname _ hmem) (by decide)

theorem toList_paramText_annotated (hp : i.param? = some p) (hname : Py.isName p.arg)
    (ha : p.annotation = some a) :
    (paramText (i.text S)).toList = i.stars.toList ++ (p.arg.toList ++ ':' :: ' ' ::
      (beforeColon ((S.unparse a).toList ++ (Py.defaultText S p.default).toList)).rdropWhile Py.isSpace) := by
  have htext : (i.text S).toList = (i.stars.toList ++ p.arg.toList) ++ ':' ::
      ' ' :: ((S.unparse a).toList ++ (Py.defaultText S p.default).toList) := by
    rw [Py.text_of_param? hp, ha]
    simp [Py.annotationText]
  rw [paramText_of_colon htext (colon_not_mem_name hname), safeName_strip_name hname, Py.strip_ofList,
    (trimmed_annotated a p.default).dropWhile_beforeColon]
  simp

/-- What the reader finds behind the name of a parameter. -/
theorem parts_of_readItem {cs : List Char} (hp : i.param? = some p) (hname : Py.isName p.arg)
    (hread : Py.readItem S (i.stars.toList ++ (p.arg.toList ++ ':' :: cs)) = some (i, r)) :
    ∃ r', Py.readPart S ':' (':' :: cs) = some ( p.annotation, r') ∧
      Py.readPart S '=' r' = some (p.default, r) := by
  have hparam := Py.readParam_of_readItem hp hname hread
  rw [Py.readParam_name hname fun c hc => by cases hc; decide] at hparam
  obtain ⟨⟨a, r'⟩, ha, hparam⟩ := Option.bind_eq_some_iff.mp hparam
  obtain ⟨⟨d, r''⟩, hd, hparam⟩ := Option.bind_eq_some_iff.mp hparam
  obtain ⟨heq, rfl⟩ := Prod.mk.inj (Option.some_inj.mp hparam)
  have ha' : a = p.annotation := congrArg (fun q => q.annotation) heq
  have hd' : d = p.default := congrArg Param.default heq
  exact ⟨r', ha' ▸ ha, hd' ▸ hd⟩

theorem misreads_annotation (hcut : S.CutsMisread) (hp : i.param? = some p) (hname : Py.isName p.arg)
    (ha : p.annotation = some a) (hcolon : ':' ∈ (S.unparse a).toList) :
    Misreads S (paramText (i.text S)).toList i := by
  have hbefore : beforeColon ((S.unparse a).toList ++ (Py.defaultText S p.default).toList) =
      beforeColon (S.unparse a).toList := by
    obtain ⟨l, hl⟩ := Py.eq_beforeColon_append hcolon
    conv_lhs => rw [hl]
    rw [List.append_assoc, Py.beforeColon_append Py.not_mem_beforeColon]
    simp [beforeColon]
  intro rest r hend hread
  rw [toList_paramText_annotated hp hname ha, hbefore] at hread
  simp only [List.append_assoc, List.cons_append] at hread
  obtain ⟨r', hpart, -⟩ := parts_of_readItem hp hname hread
  rw [ha] at hpart
  obtain ⟨r'', hscan, -⟩ := Py.scan_of_readPart hpart
  rw [Py.skip_blank rfl, (S.trimmed a).skip_beforeColon hend.atEnd] at hscan
  exact hcut a rest r'' hcolon hend hscan

theorem misreads_default (hcut : S.CutsMisread) (hp : i.param? = some p) (hname : Py.isName p.arg)
    (ha : p.annotation = some a) (hcolonA : ':' ∉ (S.unparse a).toList) (hd : p.default = some d)
    (hcolon : ':' ∈ (S.unparse d).toList) : Misreads S (paramText (i.text S)).toList i := by
  have hkeep : (beforeColon ((S.unparse a).toList ++ (Py.defaultText S p.default).toList)).rdropWhile
      Py.isSpace = (S.unparse a).toList ++ ' ' :: '=' ::
        (' ' :: beforeColon (S.unparse d).toList).rdropWhile Py.isSpace := by
    have hdefault : (Py.defaultText S p.default).toList = ' ' :: '=' :: ' ' :: (S.unparse d).toList := by
      simp [hd, Py.defaultText]
    have hbefore : beforeColon (' ' :: '=' :: ' ' :: (S.unparse d).toList) =
        ' ' :: '=' :: ' ' :: beforeColon (S.unparse d).toList := by
      simp [beforeColon]
    have hequals : ('=' :: ' ' :: beforeColon (S.unparse d).toList).rdropWhile Py.isSpace =
        '=' :: (' ' :: beforeColon (S.unparse d).toList).rdropWhile Py.isSpace :=
      Py.rdropWhile_cons_of_neg (by decide)
    rw [Py.beforeColon_append hcolonA, hdefault, hbefore, List.append_cons,
      Py.rdropWhile_append_of_ne_nil (hequals ▸ List.cons_ne_nil _ _), hequals, List.append_assoc,
      List.singleton_append]
  intro rest r hend hread
  rw [toList_paramText_annotated hp hname ha, hkeep] at hread
  simp only [List.append_assoc, List.cons_append] at hread
  obtain ⟨r', hpart, hdefault⟩ := parts_of_readItem hp hname hread
  obtain ⟨hhead, hskip⟩ := (S.trimmed d).blank_beforeColon hend.atEnd
  rw [Py.readPart_unparse (.inr ⟨_, rfl, hhead⟩)] at hpart
  obtain ⟨-, rfl⟩ := Prod.mk.inj (Option.some_inj.mp hpart)
  rw [hd] at hdefault
  obtain ⟨r'', hscan, -⟩ := Py.scan_of_readPart hdefault
  rw [hskip] at hscan
  exact hcut d rest r'' hcolon hend hscan

/-- The name of a default without annotation gets a part of the default. -/
theorem exists_toList_paramText_unannotated (hname : Py.isName p.arg) (ha : p.annotation = none)
    (hd : p.default = some d) :
    ∃ tail, (paramText ((Item.plain p).text S)).toList = p.arg.toList ++ '_' :: '=' :: tail := by
  have htext : ((Item.plain p).text S).toList =
      p.arg.toList ++ ' ' :: '=' :: ' ' :: (S.unparse d).toList := by
    simp [Item.text, Param.text, ha, hd, Py.annotationText, Py.defaultText]
  have hcolon : ':' ∉ p.arg.toList := fun hmem =>
    absurd (Py.isNameChar_of_isName hname _ hmem) (by decide)
  have hbefore : beforeColon ((Item.plain p).text S).toList =
      p.arg.toList ++ ' ' :: '=' :: beforeColon (' ' :: (S.unparse d).toList) := by
    rw [htext, Py.beforeColon_append hcolon]
    simp [beforeColon]
  have hstrip : ∀ m, Py.strip (.ofList (p.arg.toList ++ ' ' :: '=' :: m)) =
      .ofList (p.arg.toList ++ ' ' :: '=' :: m.rdropWhile Py.isSpace) := fun m => by
    have hequals : ('=' :: m).rdropWhile Py.isSpace = '=' :: m.rdropWhile Py.isSpace :=
      Py.rdropWhile_cons_of_neg (by decide)
    obtain ⟨c, cs, hc, hchar⟩ := Py.exists_head_of_isName hname
    have hspace : ¬ Py.isSpace c := by simp [Py.isSpace_of_isNameChar hchar]
    rw [Py.strip_ofList, hc, List.cons_append, List.dropWhile_cons_of_neg hspace, ← List.cons_append, ← hc,
      List.append_cons, Py.rdropWhile_append_of_ne_nil (hequals ▸ List.cons_ne_nil _ _), hequals]
    simp
  have hkeep : p.arg.toList.map safeChar = p.arg.toList :=
    (List.map_congr_left fun c hc => safeChar_of_isNameChar (Py.isNameChar_of_isName hname c hc)).trans
      (List.map_id' _)
  obtain ⟨tail, htail⟩ := paramText_begins ((Item.plain p).text S)
  rw [htail, hbefore, hstrip, toList_safeName, String.toList_ofList, List.map_append, hkeep,
    List.append_assoc]
  exact ⟨_, rfl⟩

theorem misreads_unannotated (hp : i.param? = some p) (hname : Py.isName p.arg)
    (ha : p.annotation = none) (hd : p.default = some d) : Misreads S (paramText (i.text S)).toList i := by
  have hplain : i = .plain p := by
    cases i <;> cases hp
    · rfl
    · cases hd
    · cases hd
  subst hplain
  intro rest r hend hread
  obtain ⟨tail, htail⟩ := exists_toList_paramText_unannotated (S := S) hname ha hd
  obtain ⟨c, cs, hc, hchar⟩ := Py.exists_head_of_isName hname
  rw [htail, hc, List.cons_append, List.cons_append, Py.readItem_nameChar hchar] at hread
  obtain ⟨⟨q, r'⟩, hq, he⟩ := Option.map_eq_some_iff.mp hread
  cases he
  have hread : (c :: (cs ++ '_' :: '=' :: tail) ++ rest).takeWhile Py.isNameChar = p.arg.toList ++ ['_'] := by
    rw [← List.cons_append, ← hc, List.append_assoc,
      List.takeWhile_append_of_pos (Py.isNameChar_of_isName hname)]
    rfl
  have harg := congrArg String.toList (Py.arg_of_readParam hq)
  rw [String.toList_ofList, ← List.cons_append, hread] at harg
  simpa using congrArg List.length harg

theorem paramText_of_kept (hp : i.param? = some p) (hname : Py.isName p.arg)
    (hannotated : p.default.isSome → p.annotation.isSome)
    (hcolon : ∀ e ∈ p.annotation.toList ++ p.default.toList, ':' ∉ (S.unparse e).toList) :
    paramText (i.text S) = i.text S := by
  cases ha : p.annotation with
  | none =>
    have hd : p.default = none := by
      cases hd : p.default with
      | none => rfl
      | some d => simp [ha, hd] at hannotated
    have htext : i.text S = .ofList (i.stars.toList ++ p.arg.toList) := by
      rw [Py.text_of_param? hp, ha, hd]
      simp [Py.annotationText, Py.defaultText]
    have hnot : ':' ∉ (i.text S).toList := by
      rw [htext, String.toList_ofList]
      exact colon_not_mem_name hname
    rw [paramText_of_not_colon hnot, htext, safeName_strip_name hname]
    simp
  | some a =>
    have hnot : ':' ∉ (S.unparse a).toList ++ (Py.defaultText S p.default).toList := by
      intro hmem
      rcases List.mem_append.mp hmem with hmem | hmem
      · exact hcolon a (by simp [ha]) hmem
      · cases hd : p.default with
        | none => simp [hd, Py.defaultText] at hmem
        | some d =>
          apply hcolon d (by simp [hd])
          simpa [hd, Py.defaultText] using hmem
    apply String.toList_inj.mp
    rw [toList_paramText_annotated hp hname ha, Py.beforeColon_of_not_mem hnot,
      (trimmed_annotated a p.default).rdropWhile, Py.text_of_param? hp, ha]
    simp [Py.annotationText]

theorem paramText_of_no_param (hp : i.param? = none) : paramText (i.text S) = i.text S := by
  cases i with
  | slash => exact (by decide +kernel : paramText "/" = "/")
  | star => exact (by decide +kernel : paramText "*" = "*")
  | plain | starred | doubleStarred => cases hp

/-- A parameter the backend writes as it is. -/
def Kept (S : ExprSyntax ε) (p : Param ε) : Prop :=
  (p.default.isSome → p.annotation.isSome) ∧
    ∀ e ∈ p.annotation.toList ++ p.default.toList, ':' ∉ (S.unparse e).toList

theorem misreads_of_not_kept (hcut : S.CutsMisread) (hp : i.param? = some p) (hname : Py.isName p.arg)
    (h : ¬ Kept S p) :
    Misreads S (paramText (i.text S)).toList i := by
  cases ha : p.annotation with
  | none =>
    cases hd : p.default with
    | none => exact absurd ⟨by simp [hd], by simp [ha, hd]⟩ h
    | some d => exact misreads_unannotated hp hname ha hd
  | some a =>
    by_cases hcolonA : ':' ∈ (S.unparse a).toList
    · exact misreads_annotation hcut hp hname ha hcolonA
    · cases hd : p.default with
      | none => exact absurd ⟨by simp [ha], by simp [ha, hd, hcolonA]⟩ h
      | some d =>
        by_cases hcolon : ':' ∈ (S.unparse d).toList
        · exact misreads_default hcut hp hname ha hcolonA hd hcolon
        · exact absurd ⟨by simp [ha], by simp [ha, hd, hcolonA, hcolon]⟩ h

theorem reads_paramText (hi : ∀ p ∈ i.param?, Py.isName p.arg) (hk : ∀ p ∈ i.param?, Kept S p) :
    Reads S (paramText (i.text S)).toList i := by
  have htext : paramText (i.text S) = i.text S := by
    cases hp : i.param? with
    | none => exact paramText_of_no_param hp
    | some p => exact paramText_of_kept hp (hi p hp) (hk p hp).1 (hk p hp).2
  rw [htext]
  exact Py.reads_text hi

theorem reads_paramText_iff (hcut : S.CutsMisread) (hi : ∀ p ∈ i.param?, Py.isName p.arg) :
    Reads S (paramText (i.text S)).toList i ↔ ∀ p ∈ i.param?, Kept S p := by
  constructor
  · intro hr p hp
    by_contra hk
    exact misreads_of_not_kept hcut hp (hi p hp) hk [] [] (.inl rfl) (hr [] rfl)
  · exact reads_paramText hi

theorem exists_head_text (hi : ∀ p ∈ i.param?, Py.isName p.arg) :
    ∃ c cs, (i.text S).toList = c :: cs ∧ Py.isItemHead c := by
  cases i with
  | slash | star | starred a | doubleStarred a => simp [Item.text, Py.isItemHead]
  | plain p =>
    obtain ⟨c, cs, hc, hchar⟩ := Py.exists_head_of_isName (hi _ rfl)
    have htext : ((Item.plain p).text S).toList = c :: (cs ++
        ((Py.annotationText S p.annotation).toList ++ (Py.defaultText S p.default).toList)) := by
      simp [Item.text, Param.text, hc]
    exact ⟨c, _, htext, by simp [Py.isItemHead, hchar]⟩

theorem kept_of_isItemHead (h : Py.isItemHead c) : Py.isSpace c = false ∧ c ≠ ':' ∧ safeChar c = c := by
  simp only [Py.isItemHead, Bool.or_eq_true, decide_eq_true_eq] at h
  obtain (h | rfl) | rfl := h
  · exact ⟨Py.isSpace_of_isNameChar h, fun he => absurd (he ▸ h) (by decide), safeChar_of_isNameChar h⟩
  all_goals decide

theorem beginsAt_paramText (hi : ∀ p ∈ i.param?, Py.isName p.arg) :
    BeginsAt (paramText (i.text S)).toList := by
  obtain ⟨c, cs, hc, hhead⟩ := exists_head_text (S := S) hi
  obtain ⟨hspace, hcolon, hsafe⟩ := kept_of_isItemHead hhead
  obtain ⟨tail, htail⟩ := paramText_begins (i.text S)
  have hbefore : beforeColon (c :: cs) = c :: beforeColon cs := by simp [beforeColon, hcolon]
  have hstrip : ((c :: beforeColon cs).dropWhile Py.isSpace).rdropWhile Py.isSpace =
      c :: (beforeColon cs).rdropWhile Py.isSpace := by
    rw [List.dropWhile_cons_of_neg (by simp [hspace]), Py.rdropWhile_cons_of_neg (by simp [hspace])]
  rw [htail, hc, hbefore, Py.strip_ofList, hstrip, toList_safeName, String.toList_ofList, List.map_cons, hsafe]
  exact ⟨c, _, rfl, hhead⟩

end

-- ---------------------------------------------------------------------------
-- Whole signatures
-- ---------------------------------------------------------------------------

section
variable {S : ExprSyntax ε} {A : Arguments ε} {node : SGIRNode}

theorem inputsToParams_of_ne_method (hA : OfDefinition A) (h : node.nodeType ≠ .method)
    (hn : node.inputs = renderParametersWithDefaults S.unparse? A) :
    inputsToParams node = ", ".intercalate (A.items.map fun i => paramText (i.text S)) := by
  simp [inputsToParams, h, hn, render_eq hA.toWellFormed, Function.comp_def]

theorem inputsToParams_of_method (hA : OfDefinition A) (h : node.nodeType = .method)
    (hn : node.inputs = renderParametersWithDefaults S.unparse? A) :
    inputsToParams node = ", ".intercalate ("self" :: A.items.map fun i => paramText (i.text S)) := by
  simp [inputsToParams, h, hn, render_eq hA.toWellFormed, Function.comp_def]

theorem parse_of_ne_method (hcut : S.CutsMisread) (hA : OfDefinition A) (h : node.nodeType ≠ .method)
    (hn : node.inputs = renderParametersWithDefaults S.unparse? A) :
    Py.parseParameters S (inputsToParams node) = some A ↔ ∀ p ∈ A.params, Kept S p := by
  rw [inputsToParams_of_ne_method hA h hn, Py.parseParameters_eq_some_iff hA.toWellFormed
    (fun i hi => beginsAt_paramText (hA.item_isName hi))
    (fun i hi => ?_)]
  · rw [← Py.param?_items]
    simp only [List.mem_filterMap]
    constructor
    · rintro hr p ⟨i, hi, hp⟩
      exact (reads_paramText_iff hcut (hA.item_isName hi)).mp (hr i hi) p hp
    · intro hk i hi
      exact (reads_paramText_iff hcut (hA.item_isName hi)).mpr fun p hp => hk p ⟨i, hi, hp⟩
  · by_cases hk : ∀ p ∈ i.param?, Kept S p
    · exact .inl ((reads_paramText_iff hcut (hA.item_isName hi)).mpr hk)
    · simp only [not_forall] at hk
      obtain ⟨p, hp, hk⟩ := hk
      exact .inr (misreads_of_not_kept hcut hp (hA.item_isName hi p hp) hk)

/-- The parameter the backend writes in front of every method's own. -/
def selfItem : Item ε := .plain { arg := "self" }

theorem reads_self : Reads S "self".toList selfItem := by
  have h := Py.reads_text (S := S) (i := selfItem) fun p hp => by
    cases hp
    exact (by decide : Py.isName "self")
  simpa [selfItem, Item.text, Param.text, Py.annotationText, Py.defaultText] using h

theorem beginsAt_self : BeginsAt "self".toList := ⟨'s', ['e', 'l', 'f'], by decide, rfl⟩

/-- A method gets `self` twice, or one it has not. -/
theorem parse_of_method (hA : OfDefinition A) (h : node.nodeType = .method)
    (hn : node.inputs = renderParametersWithDefaults S.unparse? A) :
    Py.parseParameters S (inputsToParams node) ≠ some A := by
  intro hparse
  obtain ⟨items, hread, harrange⟩ := Option.bind_eq_some_iff.mp hparse
  obtain ⟨-, rfl⟩ := Py.arrange_eq_some_iff.mp harrange
  rw [inputsToParams_of_method hA h hn, String.toList_intercalate, List.map_cons, List.map_map] at hread
  generalize hfuel : List.length _ + 1 = fuel at hread
  clear hfuel
  have hbegins : ∀ items : List (Item ε), items ⊆ A.items →
      ∀ t ∈ items.map (String.toList ∘ fun i => paramText (i.text S)), BeginsAt t :=
    fun items hitems => List.forall_mem_map.mpr fun i hi => beginsAt_paramText (hA.item_isName (hitems hi))
  obtain ⟨rest, htext, hend⟩ := Py.exists_rest_intercalate "self".toList (hbegins _ (List.Subset.refl _))
  obtain ⟨tail, htail, -⟩ := Py.exists_cons_of_readItems beginsAt_self reads_self hend.atEnd (htext ▸ hread)
  -- the list begins with the first parameter of the definition, which is `self` as well
  rw [htail, List.map_cons, Py.intercalate_comma] at hread
  obtain ⟨tail', hhead, hrest⟩ := Py.exists_cons_of_readItems beginsAt_self reads_self rfl hread
  obtain rfl := (List.cons.inj hhead).2
  obtain ⟨fuel', hsecond⟩ := hrest _ rfl
  obtain ⟨rest', htext', hend'⟩ := Py.exists_rest_intercalate (paramText ((selfItem : Item ε).text S)).toList
    (hbegins tail (htail ▸ List.subset_cons_self _ _))
  rw [Py.readItems_blank fuel' rfl, Function.comp_apply, htext'] at hsecond
  have hself : ∀ p ∈ (selfItem : Item ε).param?, Py.isName p.arg := hA.item_isName (htail ▸ List.mem_cons_self)
  have hkept : ∀ p ∈ (selfItem : Item ε).param?, Kept S p := fun p hp => by
    cases hp
    exact ⟨fun hd => (nomatch hd), fun e he => (nomatch he)⟩
  obtain ⟨tail', rfl, -⟩ := Py.exists_cons_of_readItems (beginsAt_paramText hself)
    (reads_paramText hself hkept) hend'.atEnd hsecond
  have hnames := hA.distinct
  rw [← Py.arg_params hA.toWellFormed, ← Py.param?_items, htail] at hnames
  simp [selfItem, Item.param?] at hnames

/-- The text the backend writes denotes the parameters exactly when the node is no method, every
default has an annotation beside it, and no annotation or default is written with a colon. -/
theorem signature_survives_iff (S : ExprSyntax ε) (hcut : S.CutsMisread) {A : Arguments ε} {node : SGIRNode}
    (hA : OfDefinition A) (hn : node.inputs = renderParametersWithDefaults S.unparse? A) :
    Py.parseParameters S (inputsToParams node) = some A ↔
      node.nodeType ≠ .method ∧ ∀ p ∈ A.params, (p.default.isSome → p.annotation.isSome) ∧
        ∀ e ∈ p.annotation.toList ++ p.default.toList, ':' ∉ (S.unparse e).toList := by
  by_cases h : node.nodeType = .method
  · exact iff_of_false (parse_of_method hA h hn) fun ⟨hne, _⟩ => hne h
  · rw [parse_of_ne_method hcut hA h hn]
    exact ⟨fun hk => ⟨h, hk⟩, fun ⟨_, hk⟩ => hk⟩

end

/-- `def fetch(url: str, /, retries: int = limit, *args, timeout: float, **kwargs)` -/
def fetch : Arguments { name : String // Py.isName name } where
  posonlyargs := [{ arg := "url", annotation := some ⟨"str", by decide⟩ }]
  args := [{ arg := "retries", annotation := some ⟨"int", by decide⟩ }]
  vararg := some { arg := "args" }
  kwonlyargs := [{ arg := "timeout", annotation := some ⟨"float", by decide⟩ }]
  kwDefaults := [none]
  kwarg := some { arg := "kwargs" }
  defaults := [⟨"limit", by decide⟩]

theorem fetch_ofDefinition : OfDefinition fetch := ⟨⟨by decide, by decide, by decide⟩, by decide +kernel⟩

theorem fetch_rendered : Py.parseParameters Py.nameSyntax
    (", ".intercalate (renderParametersWithDefaults Py.nameSyntax.unparse? fetch)) = some fetch :=
  parse_render fetch_ofDefinition

def fetchNode : SGIRNode where
  id := "client.py::fetch"
  name := "fetch"
  nodeType := .function
  inputs := ["url: str", "/", "retries: int = limit", "*args", "timeout: float", "**kwargs"]

theorem fetch_survives : Py.parseParameters Py.nameSyntax (inputsToParams fetchNode) = some fetch :=
  (signature_survives_iff Py.nameSyntax Py.cutsMisread_nameSyntax fetch_ofDefinition (by decide +kernel)).mpr
    ⟨by decide, by decide +kernel⟩

def runParameters : Arguments { name : String // Py.isName name } where
  args := [{ arg := "self" }]

def runNode : SGIRNode where
  id := "jobs.py::run"
  name := "run"
  nodeType := .method
  inputs := ["self"]

theorem method_has_self_twice :
    OfDefinition runParameters ∧ runNode.inputs = renderParametersWithDefaults Py.nameSyntax.unparse? runParameters ∧
      Py.parseParameters Py.nameSyntax (inputsToParams runNode) ≠ some runParameters := by
  have hA : OfDefinition runParameters := ⟨⟨by decide, by decide, by decide⟩, by decide +kernel⟩
  have hn : runNode.inputs = renderParametersWithDefaults Py.nameSyntax.unparse? runParameters := by decide +kernel
  exact ⟨hA, hn, parse_of_method hA rfl hn⟩

end Intelliqx.Graph
