import Mathlib.Data.List.Basic
import Mathlib.Data.List.Nodup

/-!
# Parameter lists

The parameters of a Python definition as its syntax tree has them, and the
items of their text from left to right. `arrange` reads the items by the
grammar of `parameters`; `arrange_eq_some_iff` says that it is the inverse of
`items` on well-formed trees. Expressions are of any type `ε`.
-/

namespace Intelliqx.Py

/-- `ast.arg` -/
structure Arg (ε : Type u) where
  arg : String
  annotation : Option ε := none
  deriving DecidableEq, Repr

/-- `ast.arguments`: the positional defaults belong to the last positional parameters. -/
structure Arguments (ε : Type u) where
  posonlyargs : List (Arg ε) := []
  args : List (Arg ε) := []
  vararg : Option (Arg ε) := none
  kwonlyargs : List (Arg ε) := []
  kwDefaults : List (Option ε) := []
  kwarg : Option (Arg ε) := none
  defaults : List ε := []
  deriving DecidableEq, Repr

structure Param (ε : Type u) extends Arg ε where
  default : Option ε := none
  deriving DecidableEq, Repr

/-- What stands between two commas. -/
inductive Item (ε : Type u)
  | slash
  | star
  | plain (p : Param ε)
  | starred (a : Arg ε)
  | doubleStarred (a : Arg ε)
  deriving DecidableEq, Repr

variable {ε : Type u}

-- ---------------------------------------------------------------------------
-- Defaults
-- ---------------------------------------------------------------------------

def attach (args : List (Arg ε)) (defaults : List (Option ε)) : List (Param ε) :=
  List.zipWith Param.mk args defaults

/-- As many defaults as parameters, the missing ones in front. -/
def padded (n : Nat) (defaults : List ε) : List (Option ε) :=
  List.replicate (n - defaults.length) none ++ defaults.map some

def alignDefaults (args : List (Arg ε)) (defaults : List ε) : List (Param ε) :=
  attach args (padded args.length defaults)

def DefaultsLast (params : List (Param ε)) : Prop :=
  params.Pairwise fun p q => p.default.isSome → q.default.isSome

instance (params : List (Param ε)) : Decidable (DefaultsLast params) :=
  inferInstanceAs (Decidable (List.Pairwise _ _))

section
variable {args : List (Arg ε)} {params : List (Param ε)}

theorem toArg_attach {ds : List (Option ε)} (h : ds.length = args.length) :
    (attach args ds).map Param.toArg = args := by
  induction args generalizing ds with
  | nil => rfl
  | cons a args ih =>
    obtain ⟨d, ds, rfl⟩ := List.exists_cons_of_length_eq_add_one h
    exact congrArg (a :: ·) (ih (Nat.succ.inj h))

theorem default_attach {ds : List (Option ε)} (h : ds.length = args.length) :
    (attach args ds).map Param.default = ds := by
  induction args generalizing ds with
  | nil => exact (List.eq_nil_of_length_eq_zero h).symm
  | cons a args ih =>
    obtain ⟨d, ds, rfl⟩ := List.exists_cons_of_length_eq_add_one h
    exact congrArg (d :: ·) (ih (Nat.succ.inj h))

theorem attach_map : attach (params.map Param.toArg) (params.map Param.default) = params := by
  induction params with
  | nil => rfl
  | cons p params ih => exact congrArg (p :: ·) ih

theorem attach_map_right {f : Arg ε → Option ε} : attach args (args.map f) = args.map fun a => ⟨a, f a⟩ := by
  induction args with
  | nil => rfl
  | cons a args ih => exact congrArg (_ :: ·) ih

theorem length_padded {ds : List ε} (h : ds.length ≤ n) : (padded n ds).length = n := by
  simp only [padded, List.length_append, List.length_replicate, List.length_map]
  omega

theorem toArg_alignDefaults {ds : List ε} (h : ds.length ≤ args.length) :
    (alignDefaults args ds).map Param.toArg = args :=
  toArg_attach (length_padded h)

theorem defaults_alignDefaults {ds : List ε} (h : ds.length ≤ args.length) :
    (alignDefaults args ds).filterMap Param.default = ds := by
  have hd : (alignDefaults args ds).map Param.default = padded args.length ds :=
    default_attach (length_padded h)
  calc (alignDefaults args ds).filterMap Param.default
      = ((alignDefaults args ds).map Param.default).filterMap id := by simp [List.filterMap_map]
    _ = (padded args.length ds).filterMap id := congrArg (List.filterMap id) hd
    _ = ds := by simp [padded, List.filterMap_replicate_of_none]

theorem defaultsLast_alignDefaults {ds : List ε} (h : ds.length ≤ args.length) :
    DefaultsLast (alignDefaults args ds) := by
  have hd : (alignDefaults args ds).map Param.default = padded args.length ds :=
    default_attach (length_padded h)
  have hp : (padded args.length ds).Pairwise fun d d' => d.isSome → d'.isSome := by
    refine List.pairwise_append.mpr ⟨?_, ?_, ?_⟩
    · exact List.pairwise_replicate.mpr (.inr id)
    · exact List.pairwise_map.mpr (List.pairwise_of_forall fun _ _ _ => rfl)
    · rintro d - _ hd' -
      obtain ⟨e, -, rfl⟩ := List.mem_map.mp hd'
      rfl
  exact List.pairwise_map.mp (hd ▸ hp)

theorem padded_of_defaultsLast (h : DefaultsLast params) :
    padded params.length (params.filterMap Param.default) = params.map Param.default := by
  induction params with
  | nil => rfl
  | cons p params ih =>
    obtain ⟨hp, hrest⟩ := List.pairwise_cons.mp h
    have ih := ih hrest
    cases hd : p.default with
    | none =>
      have hle : (params.filterMap Param.default).length ≤ params.length := List.length_filterMap_le ..
      rw [List.filterMap_cons_none hd, List.map_cons, hd, ← ih, padded, padded, List.length_cons,
        Nat.succ_sub hle, List.replicate_succ, List.cons_append]
    | some d =>
      have hlen : (params.filterMap Param.default).length = params.length :=
        List.filterMap_length_eq_length.mpr fun q hq => hp q hq (by rw [hd]; rfl)
      rw [padded, hlen, Nat.sub_self] at ih
      rw [List.filterMap_cons_some hd, List.map_cons, hd, padded, List.length_cons, List.length_cons, hlen,
        Nat.sub_self, List.map_cons, ← ih]
      rfl

theorem alignDefaults_of_defaultsLast (h : DefaultsLast params) :
    alignDefaults (params.map Param.toArg) (params.filterMap Param.default) = params := by
  rw [alignDefaults, List.length_map, padded_of_defaultsLast h, attach_map]

end

-- ---------------------------------------------------------------------------
-- From the tree to the items
-- ---------------------------------------------------------------------------

namespace Arguments

variable (A : Arguments ε)

def positional : List (Param ε) := alignDefaults (A.posonlyargs ++ A.args) A.defaults

def posonlyParams : List (Param ε) := A.positional.take A.posonlyargs.length

def argParams : List (Param ε) := A.positional.drop A.posonlyargs.length

def kwonlyParams : List (Param ε) := attach A.kwonlyargs A.kwDefaults

def names : List String :=
  (A.posonlyargs ++ A.args ++ A.vararg.toList ++ A.kwonlyargs ++ A.kwarg.toList).map Arg.arg

/-- What a syntax tree of a definition keeps. -/
structure WellFormed : Prop where
  distinct : A.names.Nodup
  defaults_le : A.defaults.length ≤ (A.posonlyargs ++ A.args).length
  kwDefaults_length : A.kwDefaults.length = A.kwonlyargs.length

end Arguments

def slashItems (posonly : List (Param ε)) : List (Item ε) := if posonly = [] then [] else [.slash]

/-- A bare star stands in front of keyword-only parameters without `*args`. -/
def starItems (vararg : Option (Arg ε)) (kwonly : List (Param ε)) : List (Item ε) :=
  match vararg with
  | some a => [.starred a]
  | none => if kwonly = [] then [] else [.star]

def groupItems (posonly args : List (Param ε)) (vararg : Option (Arg ε)) (kwonly : List (Param ε))
    (kwarg : Option (Arg ε)) : List (Item ε) :=
  posonly.map .plain ++ (slashItems posonly ++ (args.map .plain ++
    (starItems vararg kwonly ++ (kwonly.map .plain ++ kwarg.toList.map .doubleStarred))))

def Arguments.items (A : Arguments ε) : List (Item ε) :=
  groupItems A.posonlyParams A.argParams A.vararg A.kwonlyParams A.kwarg

-- ---------------------------------------------------------------------------
-- From the items to the tree
-- ---------------------------------------------------------------------------

def takePlain : List (Item ε) → List (Param ε) × List (Item ε)
  | .plain p :: rest => (p :: (takePlain rest).1, (takePlain rest).2)
  | rest => ([], rest)

def arrangeKwarg : List (Item ε) → Option (Option (Arg ε))
  | [] => some none
  | [.doubleStarred a] => some (some a)
  | _ => none

def arrangeStar : List (Item ε) → Option (Option (Arg ε) × List (Param ε) × Option (Arg ε))
  | .star :: rest =>
    if (takePlain rest).1.isEmpty then none
    else (arrangeKwarg (takePlain rest).2).map fun kwarg => (none, (takePlain rest).1, kwarg)
  | .starred a :: rest =>
    (arrangeKwarg (takePlain rest).2).map fun kwarg => (some a, (takePlain rest).1, kwarg)
  | rest => (arrangeKwarg rest).map fun kwarg => (none, [], kwarg)

def arrangePositional (items : List (Item ε)) :
    Option (List (Param ε) × List (Param ε) × List (Item ε)) :=
  match takePlain items with
  | (posonly, .slash :: rest) => if posonly.isEmpty then none else some (posonly, takePlain rest)
  | (args, rest) => some ([], args, rest)

/-- The tree of the groups, with the checks of the compiler on names and defaults. -/
def assemble (posonly args : List (Param ε)) (vararg : Option (Arg ε)) (kwonly : List (Param ε))
    (kwarg : Option (Arg ε)) : Option (Arguments ε) :=
  let A : Arguments ε := {
    posonlyargs := posonly.map Param.toArg
    args := args.map Param.toArg
    vararg
    kwonlyargs := kwonly.map Param.toArg
    kwDefaults := kwonly.map Param.default
    kwarg
    defaults := (posonly ++ args).filterMap Param.default }
  if DefaultsLast (posonly ++ args) ∧ A.names.Nodup then some A else none

def arrange (items : List (Item ε)) : Option (Arguments ε) := do
  let (posonly, args, rest) ← arrangePositional items
  let (vararg, kwonly, kwarg) ← arrangeStar rest
  assemble posonly args vararg kwonly kwarg

section
variable {posonly args kwonly : List (Param ε)} {vararg kwarg : Option (Arg ε)}
  {items rest : List (Item ε)}

theorem takePlain_append : takePlain (args.map .plain ++ rest) =
    (args ++ (takePlain rest).1, (takePlain rest).2) := by
  induction args with
  | nil => rfl
  | cons p args ih => simp [takePlain, ih]

theorem takePlain_starItems : takePlain (starItems vararg kwonly ++
    (kwonly.map .plain ++ kwarg.toList.map .doubleStarred)) =
      ([], starItems vararg kwonly ++ (kwonly.map .plain ++ kwarg.toList.map .doubleStarred)) := by
  cases vararg with
  | some a => rfl
  | none =>
    cases kwonly with
    | cons p kwonly => rfl
    | nil => cases kwarg <;> rfl

theorem arrangePositional_groupItems :
    arrangePositional (groupItems posonly args vararg kwonly kwarg) = some (posonly, args,
      starItems vararg kwonly ++ (kwonly.map .plain ++ kwarg.toList.map .doubleStarred)) := by
  have hargs : takePlain (args.map .plain ++ (starItems vararg kwonly ++
      (kwonly.map .plain ++ kwarg.toList.map .doubleStarred))) = (args, starItems vararg kwonly ++
        (kwonly.map .plain ++ kwarg.toList.map .doubleStarred)) := by
    rw [takePlain_append, takePlain_starItems, List.append_nil]
  cases posonly with
  | nil =>
    rw [groupItems, List.map_nil, List.nil_append, slashItems, if_pos rfl, List.nil_append,
      arrangePositional, hargs]
    split
    · rename_i posonly rest heq
      -- no slash stands at the head of the keyword part
      have hslash := congrArg (fun t => t.2.head?) heq
      cases vararg with
      | some a => cases hslash
      | none => cases kwonly <;> cases kwarg <;> cases hslash
    · rename_i heq
      cases heq
      rfl
  | cons p posonly =>
    rw [groupItems, arrangePositional, takePlain_append]
    simp [slashItems, takePlain, hargs]

theorem arrangeKwarg_toList : arrangeKwarg (kwarg.toList.map .doubleStarred) = some kwarg := by
  cases kwarg <;> rfl

theorem arrangeStar_starItems : arrangeStar (starItems vararg kwonly ++
    (kwonly.map .plain ++ kwarg.toList.map .doubleStarred)) = some (vararg, kwonly, kwarg) := by
  have hkwonly : takePlain (kwonly.map .plain ++ kwarg.toList.map .doubleStarred) =
      (kwonly, kwarg.toList.map .doubleStarred) := by
    rw [takePlain_append]
    cases kwarg <;> simp [takePlain]
  cases vararg with
  | some a => simp [starItems, arrangeStar, hkwonly, arrangeKwarg_toList]
  | none =>
    cases kwonly with
    | cons p kwonly =>
      rw [starItems, if_neg (List.cons_ne_nil _ _), List.singleton_append, arrangeStar, hkwonly]
      simp [arrangeKwarg_toList]
    | nil => cases kwarg <;> rfl

theorem takePlain_spec (items : List (Item ε)) :
    items = (takePlain items).1.map .plain ++ (takePlain items).2 := by
  induction items with
  | nil => rfl
  | cons i items ih =>
    cases i with
    | plain p => exact congrArg (Item.plain p :: ·) ih
    | slash | star | starred a | doubleStarred a => rfl

theorem groupItems_of_arrangePositional (h : arrangePositional items = some (posonly, args, rest)) :
    items = posonly.map .plain ++ (slashItems posonly ++ (args.map .plain ++ rest)) := by
  have hspec := takePlain_spec items
  unfold arrangePositional at h
  split at h
  · rename_i before after heq
    split at h
    · cases h
    · rename_i hne
      obtain ⟨rfl, hafter⟩ := Prod.mk.inj (Option.some_inj.mp h)
      have hargs := takePlain_spec after
      rw [hafter] at hargs
      rw [heq] at hspec
      have hslash : slashItems before = [.slash] := if_neg (by simpa using hne)
      rw [hspec, hslash, hargs]
      rfl
  · rename_i heq
    cases h
    rw [heq] at hspec
    exact hspec

theorem toList_of_arrangeKwarg (h : arrangeKwarg items = some kwarg) :
    items = kwarg.toList.map .doubleStarred := by
  unfold arrangeKwarg at h
  split at h
  · cases h; rfl
  · cases h; rfl
  · cases h

theorem starItems_of_arrangeStar (h : arrangeStar items = some (vararg, kwonly, kwarg)) :
    items = starItems vararg kwonly ++ (kwonly.map .plain ++ kwarg.toList.map .doubleStarred) := by
  unfold arrangeStar at h
  split at h
  · rename_i rest
    split at h
    · cases h
    · rename_i hne
      obtain ⟨k, hk, heq⟩ := Option.map_eq_some_iff.mp h
      cases heq
      have hstar : starItems (none : Option (Arg ε)) (takePlain rest).1 = [.star] :=
        if_neg (by simpa using hne)
      rw [hstar, ← toList_of_arrangeKwarg hk, ← takePlain_spec]
      rfl
  · rename_i a rest
    obtain ⟨k, hk, heq⟩ := Option.map_eq_some_iff.mp h
    cases heq
    rw [starItems, ← toList_of_arrangeKwarg hk, ← takePlain_spec]
    rfl
  · obtain ⟨k, hk, heq⟩ := Option.map_eq_some_iff.mp h
    cases heq
    exact toList_of_arrangeKwarg hk

end

theorem assemble_eq_some {posonly args kwonly : List (Param ε)} {vararg kwarg : Option (Arg ε)}
    {A : Arguments ε} (h : assemble posonly args vararg kwonly kwarg = some A) :
    A.WellFormed ∧ A.items = groupItems posonly args vararg kwonly kwarg := by
  unfold assemble at h
  simp only at h
  split at h
  · rename_i hc
    cases h
    obtain ⟨hlast, hnames⟩ := hc
    have hpos : alignDefaults (posonly.map Param.toArg ++ args.map Param.toArg)
        ((posonly ++ args).filterMap Param.default) = posonly ++ args := by
      rw [← List.map_append, alignDefaults_of_defaultsLast hlast]
    refine ⟨⟨hnames, ?_, by simp⟩, ?_⟩
    · simpa using List.length_filterMap_le Param.default (posonly ++ args)
    · simp only [Arguments.items, Arguments.posonlyParams, Arguments.argParams, Arguments.positional,
        Arguments.kwonlyParams, hpos, attach_map, List.length_map, List.take_left, List.drop_left]
  · cases h

namespace Arguments.WellFormed

variable {A : Arguments ε} (hA : A.WellFormed)
include hA

theorem toArg_posonlyParams : A.posonlyParams.map Param.toArg = A.posonlyargs := by
  rw [posonlyParams, List.map_take, positional, toArg_alignDefaults hA.defaults_le, List.take_left]

theorem toArg_argParams : A.argParams.map Param.toArg = A.args := by
  rw [argParams, List.map_drop, positional, toArg_alignDefaults hA.defaults_le, List.drop_left]

theorem toArg_kwonlyParams : A.kwonlyParams.map Param.toArg = A.kwonlyargs :=
  toArg_attach hA.kwDefaults_length

end Arguments.WellFormed

theorem assemble_params {A : Arguments ε} (hA : A.WellFormed) :
    assemble A.posonlyParams A.argParams A.vararg A.kwonlyParams A.kwarg = some A := by
  have hsplit : A.posonlyParams ++ A.argParams = A.positional := List.take_append_drop ..
  have hkwDefaults : A.kwonlyParams.map Param.default = A.kwDefaults := default_attach hA.kwDefaults_length
  have hdefaults : A.positional.filterMap Param.default = A.defaults := defaults_alignDefaults hA.defaults_le
  have hlast : DefaultsLast A.positional := defaultsLast_alignDefaults hA.defaults_le
  simp only [assemble, hsplit, hA.toArg_posonlyParams, hA.toArg_argParams, hA.toArg_kwonlyParams, hkwDefaults,
    hdefaults]
  exact if_pos ⟨hlast, hA.distinct⟩

/-- Reading the items gives the tree exactly when they are its items and it is well formed. -/
theorem arrange_eq_some_iff {items : List (Item ε)} {A : Arguments ε} :
    arrange items = some A ↔ A.WellFormed ∧ items = A.items := by
  constructor
  · intro h
    simp only [arrange, Option.bind_eq_bind, Option.bind_eq_some_iff] at h
    obtain ⟨⟨posonly, args, rest⟩, hpos, ⟨vararg, kwonly, kwarg⟩, hstar, hA⟩ := h
    simp only at hstar hA
    obtain ⟨hwf, hitems⟩ := assemble_eq_some hA
    refine ⟨hwf, ?_⟩
    rw [groupItems_of_arrangePositional hpos, starItems_of_arrangeStar hstar, hitems, groupItems]
  · rintro ⟨hA, rfl⟩
    rw [arrange, Arguments.items, arrangePositional_groupItems]
    simp only [Option.bind_eq_bind, Option.bind_some]
    rw [arrangeStar_starItems]
    exact assemble_params hA

def Item.param? : Item ε → Option (Param ε)
  | .plain p => some p
  | .starred a => some ⟨a, none⟩
  | .doubleStarred a => some ⟨a, none⟩
  | _ => none

def Arguments.params (A : Arguments ε) : List (Param ε) :=
  A.posonlyParams ++ A.argParams ++ A.vararg.toList.map (⟨·, none⟩) ++ A.kwonlyParams ++
    A.kwarg.toList.map (⟨·, none⟩)

theorem param?_items (A : Arguments ε) : A.items.filterMap Item.param? = A.params := by
  have hplain : ∀ ps : List (Param ε), (ps.map Item.plain).filterMap Item.param? = ps := fun ps => by
    simp [List.filterMap_map, Item.param?, Function.comp_def]
  have hslash : (slashItems A.posonlyParams).filterMap Item.param? = [] := by
    unfold slashItems
    split <;> rfl
  have hstar : (starItems A.vararg A.kwonlyParams).filterMap Item.param? =
      A.vararg.toList.map (⟨·, none⟩) := by
    cases A.vararg with
    | some a => rfl
    | none =>
      unfold starItems
      split <;> simp_all [Item.param?]
  have hkwarg : (A.kwarg.toList.map Item.doubleStarred).filterMap Item.param? =
      A.kwarg.toList.map (⟨·, none⟩) := by
    cases A.kwarg <;> rfl
  simp only [Arguments.items, groupItems, List.filterMap_append, hplain, hslash, hstar, hkwarg,
    Arguments.params, List.nil_append, List.append_assoc]

theorem arg_params {A : Arguments ε} (hA : A.WellFormed) :
    A.params.map (fun p => p.arg) = A.names := by
  have hmap : A.params.map (fun p => p.arg) = (A.params.map Param.toArg).map Arg.arg := by simp
  have hstarred : ∀ o : Option (Arg ε),
      (o.toList.map fun a => (⟨a, none⟩ : Param ε)).map Param.toArg = o.toList := fun o => by
    cases o <;> rfl
  rw [hmap]
  simp only [Arguments.params, List.map_append, hA.toArg_posonlyParams, hA.toArg_argParams,
    hA.toArg_kwonlyParams, hstarred, Arguments.names]

end Intelliqx.Py
