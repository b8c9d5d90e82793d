import Intelliqx.Base.Dict
import Intelliqx.Graph.CallGraph
import Intelliqx.Graph.PythonBackend
import Intelliqx.Py.ParameterText

/-!
# Signatures

The parser renders the parameters of a definition, the layer builders store
them as a node's inputs, and the backend writes them as a parameter list
again. The rendering is faithful (`parse_render`); what the backend makes of
it is the same list only where it splits and renames nothing.
-/

namespace Intelliqx.Graph

open Py (Arg Arguments Param Item ExprSyntax)

variable {ε : Type u}

-- ---------------------------------------------------------------------------
-- The parser's rendering
-- ---------------------------------------------------------------------------

section
variable (unparse : ε → Option String)

/-- `_render_arg` -/
def renderArg (arg : Arg ε) (default : Option ε) (star : String) : String :=
  let rendered := star ++ arg.arg
  let rendered := match arg.annotation.bind unparse with
    | some ann => rendered ++ ": " ++ ann
    | none => rendered
  match default.bind unparse with
  | some text => rendered ++ " = " ++ text
  | none => rendered

/-- `_defaults_for_positional`: the defaults belong to the rightmost parameters. -/
def defaultsForPositional (posonly regular : List (Arg ε)) (defaults : List ε) : Dict String ε :=
  let combined := posonly ++ regular
  let offset : Int := combined.length - defaults.length
  .ofList (defaults.zipIdx.filterMap fun (default, i) =>
    if 0 ≤ offset + i then (combined[(offset + i).toNat]?).map fun a => (a.arg, default) else none)

def renderParametersWithDefaults (args : Arguments ε) : List String :=
  let posDefaults := defaultsForPositional args.posonlyargs args.args args.defaults
  let kwDefaults := Dict.ofList ((args.kwonlyargs.map Arg.arg).zip args.kwDefaults)
  args.posonlyargs.map (fun a => renderArg unparse a (posDefaults.get? a.arg) "") ++
    (if args.posonlyargs = [] then [] else ["/"]) ++
    args.args.map (fun a => renderArg unparse a (posDefaults.get? a.arg) "") ++
    (match args.vararg with
      | some a => [renderArg unparse a none "*"]
      | none => if args.kwonlyargs = [] then [] else ["*"]) ++
    args.kwonlyargs.map (fun a => renderArg unparse a (kwDefaults.get? a.arg).join "") ++
    (args.kwarg.toList.map fun a => renderArg unparse a none "**")

end

section
variable {S : ExprSyntax ε} {A : Arguments ε}

theorem zipIdx_filterMap_getElem? {l : List α} {f : α → β → γ} (ds : List β) (n k : Nat) :
    (ds.zipIdx k).filterMap (fun (d, i) => (l[n + i]?).map fun a => f a d) =
      List.zipWith f (l.drop (n + k)) ds := by
  induction ds generalizing k with
  | nil => simp
  | cons d ds ih =>
    rw [List.zipIdx_cons, List.filterMap_cons, ih (k + 1)]
    cases h : l.drop (n + k) with
    | nil =>
      have hle : l.length ≤ n + k := List.drop_eq_nil_iff.mp h
      have hnone : l[n + k]? = none := List.getElem?_eq_none hle
      simp [hnone, List.drop_eq_nil_of_le (show l.length ≤ n + (k + 1) by omega)]
    | cons a rest =>
      have hsome : l[n + k]? = some a := by
        have := congrArg List.head? h
        rwa [List.head?_drop] at this
      have hrest : l.drop (n + (k + 1)) = rest := by
        have := congrArg List.tail h
        rwa [List.tail_drop] at this
      simp [hsome, hrest]

theorem defaultsForPositional_eq (hA : A.WellFormed) :
    defaultsForPositional A.posonlyargs A.args A.defaults =
      .ofList ((((A.posonlyargs ++ A.args).drop
        ((A.posonlyargs ++ A.args).length - A.defaults.length)).map Arg.arg).zip A.defaults) := by
  have hle := hA.defaults_le
  have hoffset : ((A.posonlyargs ++ A.args).length : Int) - A.defaults.length =
      ((A.posonlyargs ++ A.args).length - A.defaults.length : Nat) := by omega
  have hzip := zipIdx_filterMap_getElem? (l := A.posonlyargs ++ A.args) (f := fun a d => (a.arg, d))
    A.defaults ((A.posonlyargs ++ A.args).length - A.defaults.length) 0
  rw [defaultsForPositional]
  simp only [hoffset]
  congr 1
  refine Eq.trans ?_ (hzip.trans ?_)
  · apply List.filterMap_congr
    intro x _
    exact if_pos (by omega)
  · rw [Nat.add_zero, List.zip, List.zipWith_map_left]

theorem nodup_positional_names (hA : A.WellFormed) : ((A.posonlyargs ++ A.args).map Arg.arg).Nodup := by
  have h := hA.distinct
  rw [Arguments.names, List.append_assoc, List.append_assoc, List.map_append] at h
  exact (List.nodup_append.mp h).1

theorem nodup_kwonly_names (hA : A.WellFormed) : (A.kwonlyargs.map Arg.arg).Nodup := by
  have h := hA.distinct
  rw [Arguments.names, List.map_append, List.map_append] at h
  exact (List.nodup_append.mp (List.nodup_append.mp h).1).2.1

/-- Looked up by name, the defaults are the ones of the last parameters. -/
theorem map_get?_rightmost (before : List (Arg ε)) {after : List (Arg ε)} {ds : List ε}
    (hn : ((before ++ after).map Arg.arg).Nodup) (hl : ds.length = after.length) :
    (before ++ after).map (fun a => (Dict.ofList ((after.map Arg.arg).zip ds)).get? a.arg) =
      List.replicate before.length none ++ ds.map some := by
  rw [List.map_append] at hn
  obtain ⟨-, hafter, hdisjoint⟩ := List.nodup_append.mp hn
  have hl' : ds.length = (after.map Arg.arg).length := by rw [List.length_map, hl]
  rw [List.map_append]
  congr 1
  · refine List.eq_replicate_iff.mpr ⟨List.length_map _, ?_⟩
    intro d hd
    obtain ⟨a, ha, rfl⟩ := List.mem_map.mp hd
    refine Dict.get?_ofList_zip_of_not_mem hafter hl' fun hmem => ?_
    exact hdisjoint a.arg (List.mem_map_of_mem ha) a.arg hmem rfl
  · rw [← Dict.map_get?_ofList_zip hafter hl', List.map_map]
    rfl

theorem positional_eq (hA : A.WellFormed) :
    A.positional = (A.posonlyargs ++ A.args).map fun a =>
      ⟨a, (defaultsForPositional A.posonlyargs A.args A.defaults).get? a.arg⟩ := by
  have hnames := nodup_positional_names hA
  have hle := hA.defaults_le
  rw [defaultsForPositional_eq hA, Arguments.positional, Py.alignDefaults, Py.padded]
  generalize A.posonlyargs ++ A.args = l at *
  have hl : A.defaults.length = (l.drop (l.length - A.defaults.length)).length := by
    rw [List.length_drop]
    omega
  have hlookup := map_get?_rightmost (l.take (l.length - A.defaults.length))
    (by rwa [List.take_append_drop]) hl
  rw [List.take_append_drop, List.length_take, Nat.min_eq_left (Nat.sub_le ..)] at hlookup
  rw [← hlookup, Py.attach_map_right]

theorem kwonlyParams_eq (hA : A.WellFormed) :
    A.kwonlyParams = A.kwonlyargs.map fun a =>
      ⟨a, ((Dict.ofList ((A.kwonlyargs.map Arg.arg).zip A.kwDefaults)).get? a.arg).join⟩ := by
  have hl : A.kwDefaults.length = (A.kwonlyargs.map Arg.arg).length := by
    rw [List.length_map, hA.kwDefaults_length]
  have hlookup := Dict.map_get?_ofList_zip (nodup_kwonly_names hA) hl
  have hjoin := congrArg (List.map Option.join) hlookup
  simp only [List.map_map, Function.comp_def, Option.join_some, List.map_id'] at hjoin
  exact (congrArg (Py.attach A.kwonlyargs) hjoin.symm).trans Py.attach_map_right

theorem renderArg_plain (a : Arg ε) (d : Option ε) :
    renderArg S.unparse? a d "" = (Item.plain ⟨a, d⟩).text S := by
  cases d <;> cases h : a.annotation <;>
    simp [renderArg, ExprSyntax.unparse?, Item.text, Param.text, Py.annotationText, Py.defaultText, h,
      String.append_assoc]

theorem renderArg_starred (a : Arg ε) : renderArg S.unparse? a none "*" = (Item.starred a).text S := by
  cases h : a.annotation <;> simp [renderArg, ExprSyntax.unparse?, Item.text, Py.annotationText, h, String.append_assoc]

theorem renderArg_doubleStarred (a : Arg ε) :
    renderArg S.unparse? a none "**" = (Item.doubleStarred a).text S := by
  cases h : a.annotation <;> simp [renderArg, ExprSyntax.unparse?, Item.text, Py.annotationText, h, String.append_assoc]

theorem text_slashItems {params : List (Param ε)} :
    (Py.slashItems params).map (Item.text S) = if params = [] then [] else ["/"] := by
  unfold Py.slashItems
  split <;> rfl

theorem text_starItems {vararg : Option (Arg ε)} {params : List (Param ε)} :
    (Py.starItems vararg params).map (Item.text S) =
      match vararg with
      | some a => [(Item.starred a).text S]
      | none => if params = [] then [] else ["*"] := by
  cases vararg with
  | some a => rfl
  | none =>
    by_cases h : params = [] <;> simp [Py.starItems, h, Item.text]

theorem render_eq (hA : A.WellFormed) :
    renderParametersWithDefaults S.unparse? A = A.items.map (Item.text S) := by
  have hpos : A.posonlyParams = A.posonlyargs.map fun a =>
      ⟨a, (defaultsForPositional A.posonlyargs A.args A.defaults).get? a.arg⟩ := by
    rw [Arguments.posonlyParams, positional_eq hA, List.map_append]
    exact List.take_left' (List.length_map _)
  have hargs : A.argParams = A.args.map fun a =>
      ⟨a, (defaultsForPositional A.posonlyargs A.args A.defaults).get? a.arg⟩ := by
    rw [Arguments.argParams, positional_eq hA, List.map_append]
    exact List.drop_left' (List.length_map _)
  rw [renderParametersWithDefaults, Arguments.items, Py.groupItems, hpos, hargs, kwonlyParams_eq hA]
  simp only [renderArg_plain, renderArg_starred, renderArg_doubleStarred, List.map_append, List.map_map,
    Function.comp_def, List.append_assoc, text_slashItems, text_starItems, List.map_eq_nil_iff]

structure OfDefinition (A : Arguments ε) : Prop extends A.WellFormed where
  isName : ∀ name ∈ A.names, Py.isName name

theorem OfDefinition.item_isName (hA : OfDefinition A) {i : Item ε} (hi : i ∈ A.items) :
    ∀ p ∈ i.param?, Py.isName p.arg := fun p hp => by
  have hmem : p ∈ A.params := Py.param?_items A ▸ List.mem_filterMap.mpr ⟨i, hi, hp⟩
  exact hA.isName _ (Py.arg_params hA.toWellFormed ▸ List.mem_map.mpr ⟨p, hmem, rfl⟩)

/-- The rendering is a parameter list that denotes the parameters. -/
theorem parse_render (hA : OfDefinition A) :
    Py.parseParameters S (", ".intercalate (renderParametersWithDefaults S.unparse? A)) = some A := by
  rw [render_eq hA.toWellFormed, Py.parseParameters_eq_some_iff hA.toWellFormed]
  · exact fun i hi => Py.reads_text (hA.item_isName hi)
  · exact fun i hi => Py.beginsAt_text (hA.item_isName hi)
  · exact fun i hi => .inl (Py.reads_text (hA.item_isName hi))

end

end Intelliqx.Graph
