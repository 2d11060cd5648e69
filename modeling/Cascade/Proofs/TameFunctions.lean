import Cascade.Evaluation.Standard
import Cascade.Proofs.Halting
import Cascade.Proofs.TameDocuments

/-!
# Standard functions on tame values

From tame values the standard functions compute tame values, and they come to an end as long as the
calls of lambdas do. Texts without brackets are joined, split and rewritten to texts without brackets.
The function that writes values as they are displayed is left out: a lambda is displayed in the
brackets of an expression.

## Main definitions

* `Binding.Tame`, `Resolved.Tame`: places and results.
* `DeeperHalts`: the calls that lead one level deeper come to an end.
* `Function.Halts`: so does a function.

## Main statements

* `Standard.functions_halt`: the standard functions come to an end, with tame values.
-/

namespace Cascade

open Eval

/-! ### Texts without brackets -/

theorem not_mem_strip {p : Char → Bool} {cs : List Char} (bare : '(' ∉ cs) :
    '(' ∉ Blank.strip p cs := by
  rw [Blank.strip, Blank.dropTrailing, Blank.dropLeading, List.mem_reverse]
  exact fun member => bare ((List.dropWhile_sublist _).mem
    (List.mem_reverse.mp ((List.dropWhile_sublist _).mem member)))

theorem not_mem_split {separator : List Char} {skip : Nat} {part cs : List Char}
    (bare : '(' ∉ cs) (before : '(' ∉ part) :
    ∀ piece ∈ Text.split separator skip part cs, '(' ∉ piece := by
  fun_induction Text.split separator skip part cs with
  | case1 skip part => simpa using before
  | case2 part skip c rest ih => exact ih (fun member => bare (List.mem_cons_of_mem _ member)) before
  | case3 part c rest _ ih =>
    refine List.forall_mem_cons.mpr ⟨by simpa using before, ?_⟩
    exact ih (fun member => bare (List.mem_cons_of_mem _ member)) List.not_mem_nil
  | case4 part c rest _ ih =>
    refine ih (fun member => bare (List.mem_cons_of_mem _ member)) fun member => ?_
    rcases List.mem_cons.mp member with same | earlier
    · exact bare (same ▸ List.mem_cons_self)
    · exact before earlier

theorem ofNat_ne_bracket {n : Nat} (differs : n ≠ 40) : Char.ofNat n ≠ '(' := by
  intro same
  have codes : (Char.ofNat n).toNat = 40 := congrArg Char.toNat same
  by_cases valid : n.isValidChar
  · rw [Char.ofNat, dif_pos valid] at codes
    exact differs codes
  · rw [Char.ofNat, dif_neg valid] at codes
    cases codes

theorem toNat_ne_bracket {c : Char} (other : c ≠ '(') : c.toNat ≠ 40 := by
  intro same
  rw [← Char.ofNat_toNat c, same] at other
  exact other rfl

theorem not_mem_mapChar {table : Array (Nat × Nat × Nat × Int)} {expansions : List (Nat × List Nat)}
    (shifted : table.all (fun range => decide (40 < (range.1 : Int) + range.2.2.2)) = true)
    (expanded : (expansions.all fun e => e.2.all fun n => n != 40) = true) {c : Char}
    (other : c ≠ '(') : '(' ∉ LetterCase.mapChar table expansions c := by
  rw [LetterCase.mapChar]
  split
  · next several found =>
    intro member
    obtain ⟨n, inside, same⟩ := List.mem_map.mp member
    obtain ⟨before, after, rfl, -⟩ := List.lookup_eq_some_iff.mp found
    -- The bracket has the code 40, which the tables, checked once as a whole, lead to nowhere.
    have known := List.all_eq_true.mp expanded (c.toNat, several) (by simp)
    exact ofNat_ne_bracket (by simpa using List.all_eq_true.mp known n inside) same
  · rw [List.mem_singleton]
    refine (ofNat_ne_bracket ?_).symm
    rw [LetterCase.byRange]
    split
    · next first last step offset found =>
      have fits := Array.find?_some found
      have known := Array.all_eq_true'.mp shifted _ (Array.mem_of_find?_eq_some found)
      simp only [decide_eq_true_eq, Bool.and_eq_true] at fits known
      omega
    · exact toNat_ne_bracket other

theorem not_mem_upperChar {c : Char} (other : c ≠ '(') : '(' ∉ LetterCase.upperChar c := by
  rw [LetterCase.upperChar]
  split
  · next ascii =>
    have known : ∀ n < 128, n ≠ 40 → (Char.ofNat n).toUpper ≠ '(' := by decide
    rw [List.mem_singleton, ← Char.ofNat_toNat c]
    exact (known c.toNat ascii (toNat_ne_bracket other)).symm
  · exact not_mem_mapChar (by decide +kernel) (by decide +kernel) other

theorem not_mem_lowerChar {c : Char} (other : c ≠ '(') : '(' ∉ LetterCase.lowerChar c := by
  rw [LetterCase.lowerChar]
  split
  · next ascii =>
    have known : ∀ n < 128, n ≠ 40 → (Char.ofNat n).toLower ≠ '(' := by decide
    rw [List.mem_singleton, ← Char.ofNat_toNat c]
    exact (known c.toNat ascii (toNat_ne_bracket other)).symm
  · exact not_mem_mapChar (by decide +kernel) (by decide +kernel) other

theorem not_mem_lowerFrom {before cs : List Char} (bare : '(' ∉ cs) :
    '(' ∉ LetterCase.lowerFrom before cs := by
  induction cs generalizing before with
  | nil => exact bare
  | cons c rest ih =>
    rw [List.mem_cons, not_or] at bare
    rw [LetterCase.lowerFrom, List.mem_append, not_or]
    refine ⟨?_, ih bare.2⟩
    split
    · split <;> decide
    · exact not_mem_lowerChar (Ne.symm bare.1)

theorem isBare_upper {s : String} (bare : isBare s = true) : isBare (LetterCase.upper s) = true := by
  rw [isBare_iff] at bare
  refine isBare_ofList fun member => ?_
  obtain ⟨c, inside, mapped⟩ := List.mem_flatMap.mp member
  exact not_mem_upperChar (ne_of_mem_of_not_mem inside bare) mapped

theorem isBare_lower {s : String} (bare : isBare s = true) : isBare (LetterCase.lower s) = true :=
  isBare_ofList (not_mem_lowerFrom (isBare_iff.mp bare))

theorem isBare_splitOn {separator text : String} (bare : isBare text = true) :
    ∀ piece ∈ Text.splitOn separator text, isBare piece = true := by
  intro piece member
  obtain ⟨cs, inside, rfl⟩ := List.mem_map.mp member
  exact isBare_ofList (not_mem_split (isBare_iff.mp bare) List.not_mem_nil cs inside)

/-- The text form of a computed value has no brackets. -/
theorem Value.Tame.isBare_of_asText? {value : Value} {text : String} (tame : value.Tame false)
    (reads : value.asText? = some text) : isBare text = true := by
  cases value with
  | string s =>
    cases reads
    rcases tame with bare | ⟨⟨⟩, -⟩
    exact bare
  | int n =>
    cases reads
    exact isBare_intRepr _
  | float x =>
    cases reads
    exact isBare_write x
  | bool b =>
    cases reads
    cases b <;> decide
  | _ => cases reads

/-! ### Places and results -/

/-- What names can mean at a place is tame. -/
def Binding.Tame (b : Binding) : Prop := b.scope.Tame

namespace Binding.Tame

variable {b : Binding} {defaultKey : String}

theorem document (tame : b.Tame) : b.document.Tame := (Scope.tame_iff.mp tame).1

theorem root (tame : b.Tame) : b.document.root.Tame true := inherited_tame.root tame

theorem stubs (tame : b.Tame) : ∀ stub ∈ b.document.stubs, stub.Tame true :=
  inherited_tame.stub tame

theorem anchored {scope : Scope} (tame : scope.Tame) (anchor : List String) :
    Scope.Tame { scope with anchor } := by
  have given := Scope.tame_iff.mp tame
  exact Scope.tame_iff.mpr given

theorem child (tame : b.Tame) (segment : String) : (b.child segment).Tame := anchored tame _

theorem entry (tame : b.Tame) (segment key : String) : (b.entry segment key).Tame := anchored tame _

theorem directive (tame : b.Tame) : b.directive.Tame := anchored tame _

theorem deeper {scope : Scope} (tame : scope.Tame) : (b.deeper scope).Tame := tame

theorem layered {scope : Scope} {names : Fields Node} (tame : scope.Tame)
    (named : ∀ field ∈ names, field.2.Tame true) : (scope.layered names).Tame := by
  obtain ⟨document, locals, outer⟩ := Scope.tame_iff.mp tame
  exact Scope.tame_iff.mpr ⟨document, List.forall_mem_cons.mpr ⟨named, locals⟩, outer⟩

theorem stubValue? (tame : b.Tame) {path : List String} {node : Node}
    (found : b.stubValue? path defaultKey = some node) : node.Tame true :=
  inherited_of_tame.stubValue? tame.stubs found

end Binding.Tame

/-- The value of a result is computed and tame. -/
def Resolved.Tame (r : Resolved) : Prop := r.value.Tame false

theorem Resolved.Tame.toNode {r : Resolved} {source : String} (tame : r.Tame) :
    (r.toNode source).Tame false := Node.tame_iff.mpr tame

/-- The value of a complete node of a tame document is tame. -/
theorem Node.Tame.explains_nodeValue {name : String} {node : Node} (tame : node.Tame true) :
    Explains Resolved.Tame (nodeValue name node false) := by
  refine Explains.mono Cascade.explains_nodeValue fun r known => ?_
  rw [Resolved.Tame, known.1]
  exact (Node.tame_of_isResolved tame (known.2 rfl)).value

/-- The value of a nested document has nothing to evaluate and no control to run. -/
def Value.Still (value : Value) : Prop := value.Tame false ∧ value.rank = 0

/-- Enough steps let the calls that lead one level deeper come to an end. The value of a nested
document is still, and one that is still from the start, and that no stub overrides, keeps its text
form if it has a value at all. -/
structure DeeperHalts (deeper : Nat → Deeper) : Prop where
  invoke : ∀ l args caller, l.Tame → (∀ argument ∈ args, argument.Has (Node.Tame true)) →
    caller.Tame → Eval.Halts (fun steps => (deeper steps).invoke l args caller) Resolved.Tame
  flowNested : ∀ node binding locals stubs, node.Tame true → binding.Tame →
    (∀ names ∈ locals, ∀ field ∈ names, field.2.Tame true) →
    (∀ trees ∈ stubs, ∀ stub ∈ trees, stub.Tame true) →
    Eval.Halts (fun steps => (deeper steps).flowNested node binding locals stubs) fun r =>
      r.value.Still ∧ (node.Still → stubs = none →
        r.value.asText? = none ∨ r.value.asText? = node.value.asText?)
  fuel : Unbounded fun steps => (deeper steps).fuel

/-- Applied to tame values, the function comes to an end with a tame value. -/
def Function.Halts (function : Function) : Prop :=
  ∀ deeper args binding, DeeperHalts deeper → (∀ value ∈ args, value.Tame false) → binding.Tame →
    Eval.Halts (fun steps => function (deeper steps) args binding) Resolved.Tame

/-! ### Operators -/

theorem expectInt_halts (value : Value) : Eval.Halts (fun _ => expectInt value) fun _ => True := by
  unfold expectInt
  split
  · exact .pure trivial
  · exact .mismatch

theorem expectLambda_halts {value : Value} (tame : value.Tame false) :
    Eval.Halts (fun _ => expectLambda value) Lambda.Tame := by
  unfold expectLambda
  split
  · exact .pure (Value.tame_lambda.mp tame)
  · exact .mismatch

theorem expectList_halts {value : Value} (tame : value.Tame false) :
    Eval.Halts (fun _ => expectList value) fun items => ∀ item ∈ items, item.Tame false := by
  unfold expectList
  split
  · exact .pure (Value.tame_list.mp tame)
  · exact .mismatch

theorem expectElements_halts {value : Value} (tame : value.Tame false) :
    Eval.Halts (fun _ => expectElements value) fun items => ∀ item ∈ items, item.Tame false := by
  unfold expectElements
  split
  · next fields =>
    refine .pure fun element member => ?_
    obtain ⟨field, known, rfl⟩ := List.mem_map.mp member
    exact (tame.fields field known).tame
  · exact expectList_halts tame

theorem indexPath_halts (value : Value) : Eval.Halts (fun _ => indexPath value) fun _ => True := by
  unfold indexPath
  split
  · exact .pure trivial
  · exact .pure trivial
  · split
    · exact .pure trivial
    · exact .fail
  · exact .mismatch

theorem descend_halts {defaultKey : String} {node : Node} {seen path : List String}
    (tame : node.Tame false) :
    Eval.Halts (fun _ => descend defaultKey node seen path) (Node.Tame false) := by
  induction path generalizing node seen with
  | nil => exact .pure tame
  | cons segment rest ih =>
    unfold descend
    split
    · next next step => exact ih (inherited_of_tame.stepBy? tame step)
    · exact .fail

theorem navigate_halts {defaultKey source : String} {value : Value} {path : List String}
    (tame : value.Tame false) :
    Eval.Halts (fun _ => navigate defaultKey source value path) Resolved.Tame :=
  (descend_halts (Node.tame_plain.mpr tame)).bind fun _ node =>
    .ofOutcome node.asWritten.explains_nodeValue

theorem sliceItems_halts {items : List Node} {start stop : Option Int64}
    (tame : ∀ item ∈ items, item.Tame false) :
    Eval.Halts (fun _ => sliceItems items start stop) Resolved.Tame := by
  rw [sliceItems]
  split
  · exact .pure (Value.tame_list.mpr fun item member =>
      tame item (List.mem_of_mem_take (List.mem_of_mem_drop member)))
  · exact .fail

theorem tame_of_arithmetic {op : ArithmeticOp} {lhs rhs value : Value}
    (computed : arithmetic op lhs rhs = .ok value) : value.Tame false := by
  rcases eq_of_arithmetic computed with ⟨n, rfl⟩ | ⟨x, rfl⟩ | ⟨a, rfl⟩
  · exact Value.tame_int n
  · exact Value.tame_float x
  · exact Value.tame_string_of_isBare (isBare_render a)

theorem tame_of_concatenate {lhs rhs value : Value} {source : String} (left : lhs.Tame false)
    (right : rhs.Tame false) (joined : concatenate lhs rhs source = .ok value) :
    value.Tame false := by
  unfold concatenate at joined
  split at joined
  · cases joined
    rw [Value.tame_list] at *
    exact fun item member => (List.mem_append.mp member).elim (left item) (right item)
  · cases joined
  · cases joined
    rw [Value.tame_list] at *
    intro item member
    rcases List.mem_append.mp member with known | new
    · exact left item known
    · obtain rfl := List.mem_singleton.mp new
      exact Node.tame_plain.mpr right
  · cases joined
    rw [Value.tame_map] at *
    exact ⟨left.1.override, fun field member =>
      (Fields.mem_override member).elim (left.2 field) (right.2 field)⟩
  · split at joined
    · next a b first second =>
      cases joined
      exact .inl (isBare_append (left.isBare_of_asText? first) (right.isBare_of_asText? second))
    · cases joined

/-! ### Standard functions -/

namespace Standard

theorem answer_halts {value : Value} (tame : value.Tame false) :
    Eval.Halts (fun _ => answer value) Resolved.Tame := .pure tame

theorem checkArity_halts {name : String} {args : List Value} {least : Nat} {most : Option Nat} :
    Eval.Halts (fun _ => checkArity name args least most) fun _ => True := by
  unfold checkArity
  dsimp only
  split
  · exact .fail
  · split
    · split
      · exact .fail
      · exact .pure trivial
    · exact .pure trivial

theorem tame_arg {args : List Value} (tame : ∀ value ∈ args, value.Tame false) (i : Nat) :
    (arg args i).Tame false := by
  rw [arg]
  cases found : args[i]? with
  | none => exact Value.tame_nil
  | some value => exact tame value (List.mem_of_getElem? found)

theorem text_halts {value : Value} (tame : value.Tame false) :
    Eval.Halts (fun _ => text value) fun s => isBare s = true := by
  unfold text
  split
  · next s reads => exact .pure (tame.isBare_of_asText? reads)
  · exact .mismatch

theorem fieldsOf_halts {value : Value} (tame : value.Tame false) :
    Eval.Halts (fun _ => fieldsOf value) fun fields => ∀ field ∈ fields, FieldTame false field := by
  unfold fieldsOf
  cases value with
  | map fields => exact .pure tame.fields
  | _ => exact .mismatch

theorem tame_listOf_strings {texts : List String} {binding : Binding}
    (bare : ∀ text ∈ texts, isBare text = true) :
    (listOf (texts.map .string) binding).Tame false := by
  rw [listOf, Value.tame_list]
  intro item member
  obtain ⟨value, known, rfl⟩ := List.mem_map.mp member
  obtain ⟨text, inside, rfl⟩ := List.mem_map.mp known
  exact Node.tame_plain.mpr (Value.tame_string_of_isBare (bare text inside))

theorem length_halts : Function.Halts length := by
  intro deeper args binding _ _ _
  refine checkArity_halts.bind fun _ _ => ?_
  split
  · exact answer_halts (Value.tame_int _)
  · exact answer_halts (Value.tame_int _)
  · exact answer_halts (Value.tame_int _)
  · exact .mismatch

theorem keys_halts : Function.Halts keys := by
  intro deeper args binding _ tame _
  refine checkArity_halts.bind fun _ _ => ?_
  refine (fieldsOf_halts (tame_arg tame 0)).bind fun fields inside => ?_
  refine answer_halts (tame_listOf_strings fun key member => ?_)
  obtain ⟨field, known, rfl⟩ := List.mem_map.mp member
  exact (inside field known).bare

theorem values_halts : Function.Halts values := by
  intro deeper args binding _ tame _
  refine checkArity_halts.bind fun _ _ => ?_
  refine (fieldsOf_halts (tame_arg tame 0)).bind fun fields inside => ?_
  refine answer_halts (Value.tame_list.mpr fun item member => ?_)
  obtain ⟨field, known, rfl⟩ := List.mem_map.mp member
  exact (inside field known).tame

theorem parts_halts {value : Value} (tame : value.Tame false) :
    Eval.Halts (fun _ => parts value) fun pieces => ∀ piece ∈ pieces, isBare piece = true := by
  unfold parts
  split
  · exact .mapM fun item member => text_halts (Value.tame_list.mp tame item member).value
  · exact (text_halts tame).bind fun piece bare => .pure (by simpa using bare)

theorem join_halts : Function.Halts join := by
  intro deeper args binding _ tame _
  refine checkArity_halts.bind fun _ _ => ?_
  refine (text_halts (tame_arg tame 0)).bind fun separator between => ?_
  refine (Eval.Halts.mapM (f := fun _ => parts) fun value member =>
    parts_halts (tame value (List.mem_of_mem_drop member))).bind fun pieces inside => ?_
  refine answer_halts (Value.tame_string_of_isBare (isBare_intercalate between ?_))
  intro piece member
  obtain ⟨part, known, here⟩ := List.mem_flatten.mp member
  exact inside part known piece here

theorem split_halts : Function.Halts split := by
  intro deeper args binding _ tame _
  refine checkArity_halts.bind fun _ _ => ?_
  refine (text_halts (tame_arg tame 0)).bind fun separator _ => ?_
  refine (text_halts (tame_arg tame 1)).bind fun subject bare => ?_
  refine answer_halts (tame_listOf_strings ?_)
  split
  · intro piece member
    obtain ⟨c, inside, rfl⟩ := List.mem_map.mp member
    rw [isBare_iff, String.toList_singleton, List.mem_singleton]
    exact (ne_of_mem_of_not_mem inside (isBare_iff.mp bare)).symm
  · exact isBare_splitOn bare

theorem trim_halts : Function.Halts trim := by
  intro deeper args binding _ tame _
  refine checkArity_halts.bind fun _ _ => ?_
  refine (text_halts (tame_arg tame 0)).bind fun subject bare => ?_
  have stripped (p : Char → Bool) :
      (Value.string (String.ofList (Blank.strip p subject.toList))).Tame false :=
    Value.tame_string_of_isBare (isBare_ofList (not_mem_strip (isBare_iff.mp bare)))
  split
  · next characters known =>
    exact (text_halts (tame characters (List.mem_of_getElem? known))).bind fun set _ =>
      answer_halts (stripped _)
  · exact answer_halts (stripped _)

theorem upper_halts : Function.Halts upper := by
  intro deeper args binding _ tame _
  refine checkArity_halts.bind fun _ _ => ?_
  exact (text_halts (tame_arg tame 0)).bind fun s bare =>
    answer_halts (Value.tame_string_of_isBare (isBare_upper bare))

theorem lower_halts : Function.Halts lower := by
  intro deeper args binding _ tame _
  refine checkArity_halts.bind fun _ _ => ?_
  exact (text_halts (tame_arg tame 0)).bind fun s bare =>
    answer_halts (Value.tame_string_of_isBare (isBare_lower bare))

theorem contains_halts : Function.Halts contains := by
  intro deeper args binding _ tame _
  have item := tame_arg tame 1
  refine checkArity_halts.bind fun _ _ => ?_
  dsimp only
  split
  · exact answer_halts (Value.tame_bool _)
  · exact (text_halts item).bind fun _ _ => answer_halts (Value.tame_bool _)
  · exact (text_halts item).bind fun _ _ => answer_halts (Value.tame_bool _)
  · exact .mismatch

theorem numbers_halts {name : String} {args : List Value} (tame : ∀ value ∈ args, value.Tame false) :
    Eval.Halts (fun _ => numbers name args) fun items => ∀ item ∈ items, item.Tame false := by
  unfold numbers
  extract_lets items
  have inside : ∀ item ∈ items, item.Tame false := by
    unfold items
    split
    · intro item member
      obtain ⟨node, known, rfl⟩ := List.mem_map.mp member
      exact (Value.tame_list.mp (tame _ List.mem_cons_self) node known).value
    · exact tame
  split
  · exact .fail
  · split
    · exact .mismatch
    · exact .pure inside

theorem tame_extreme {better : Float → Float → Bool} {items : List Value}
    (tame : ∀ item ∈ items, item.Tame false) :
    (((extreme better items).map Prod.snd).getD .nil).Tame false := by
  cases found : extreme better items with
  | none => exact Value.tame_nil
  | some best => exact tame best.2 (mem_of_extreme found)

theorem min_halts : Function.Halts min := fun _ _ _ _ tame _ =>
  (numbers_halts tame).bind fun _ items => answer_halts (tame_extreme items)

theorem max_halts : Function.Halts max := fun _ _ _ _ tame _ =>
  (numbers_halts tame).bind fun _ items => answer_halts (tame_extreme items)

theorem error_halts : Function.Halts error := fun _ _ _ _ _ _ => .fail

theorem isBare_typeName (value : Value) : isBare value.typeName = true := by
  unfold Value.typeName
  split <;> decide

theorem typeOf_halts : Function.Halts typeOf := fun _ _ _ _ _ _ =>
  checkArity_halts.bind fun _ _ => answer_halts (Value.tame_string_of_isBare (isBare_typeName _))

theorem lambdaOf_halts {value : Value} (tame : value.Tame false) :
    Eval.Halts (fun _ => lambdaOf value) Lambda.Tame := by
  unfold lambdaOf
  split
  · exact .pure (Value.tame_lambda.mp tame)
  · exact .mismatch

theorem elements_halts {value : Value} (tame : value.Tame false) :
    Eval.Halts (fun _ => elements value) fun elements =>
      ∀ e ∈ elements, e.1.Tame false ∧ e.2.Tame false := by
  unfold elements
  split
  · next items =>
    refine .pure fun e member => ?_
    obtain ⟨index, inRange, rfl⟩ := List.mem_mapIdx.mp member
    exact ⟨Value.tame_int _, Value.tame_list.mp tame _ (List.getElem_mem _)⟩
  · next fields =>
    refine .pure fun e member => ?_
    obtain ⟨field, known, rfl⟩ := List.mem_map.mp member
    have inside := tame.fields field (List.mem_of_mem_filter known)
    exact ⟨Value.tame_string_of_isBare inside.bare, inside.tame⟩
  · exact .mismatch

theorem tame_elementArguments {l : Lambda} {key : Value} {element : Node} {binding : Binding}
    (index : key.Tame false) (tame : element.Tame false) :
    ∀ argument ∈ elementArguments l key element binding, argument.Has (Node.Tame true) := by
  rw [elementArguments]
  split <;> simp [ArgumentValue.Has, tame.asWritten, Node.tame_plain.mpr index.asWritten]

section

variable {deeper : Nat → Deeper} (below : DeeperHalts deeper) {l : Lambda} (lambda : l.Tame)
  {binding : Binding} (place : binding.Tame)

include below lambda place

theorem invokeElement_halts {key : Value} {element : Node} (index : key.Tame false)
    (tame : element.Tame false) :
    Eval.Halts
      (fun steps => (deeper steps).invoke l (elementArguments l key element binding) binding)
      Resolved.Tame :=
  below.invoke l _ binding lambda (tame_elementArguments index tame) place

/-- A lambda tells whether it accepts an element. -/
theorem accepts_halts {key : Value} {element : Node} (index : key.Tame false)
    (tame : element.Tame false) :
    Eval.Halts
      (fun steps => (do
        let resolved ← (deeper steps).invoke l (elementArguments l key element binding) binding
        return resolved.value.isTruthy : Eval Bool))
      fun _ => True :=
  (invokeElement_halts below lambda place index tame).bind fun _ _ => .pure trivial

end

theorem map_halts : Function.Halts map := by
  intro deeper args binding below tame place
  refine checkArity_halts.bind fun _ _ => ?_
  refine (lambdaOf_halts (tame_arg tame 1)).bind fun l lambda => ?_
  refine (elements_halts (tame_arg tame 0)).bind fun elements inside => ?_
  refine (Eval.Halts.filterMapM (Q := Node.Tame false) fun e member => ?_).bind
    fun results known => answer_halts (Value.tame_list.mpr known)
  obtain ⟨index, element⟩ := inside e member
  refine (invokeElement_halts below lambda place index element).bind fun resolved result =>
    .pure ?_
  split
  · simp
  · rintro node ⟨⟩
    exact Node.tame_plain.mpr result

theorem select_halts : Function.Halts select := by
  intro deeper args binding below tame place
  have collection := tame_arg tame 0
  refine checkArity_halts.bind fun _ _ => ?_
  refine (lambdaOf_halts (tame_arg tame 1)).bind fun l lambda => ?_
  dsimp only
  split
  · next fields shape =>
    rw [shape, Value.tame_map] at collection
    refine (Eval.Halts.filterM fun field member => ?_).bind fun selected part =>
      answer_halts (Value.tame_map.mpr ⟨collection.1.sublist (part.map _), fun field member =>
        collection.2 field (part.mem member)⟩)
    split
    · exact .pure trivial
    · have inside := collection.2 field member
      exact accepts_halts below lambda place (Value.tame_string_of_isBare inside.bare) inside.tame
  · next other shape =>
    refine (elements_halts collection).bind fun elements inside => ?_
    refine (Eval.Halts.filterM fun e member => ?_).bind fun selected part =>
      answer_halts (Value.tame_list.mpr fun item member => ?_)
    · exact accepts_halts below lambda place (inside e member).1 (inside e member).2
    · obtain ⟨e, chosen, rfl⟩ := List.mem_map.mp member
      exact (inside e (part.mem chosen)).2

theorem sum_halts : Function.Halts sum := by
  intro deeper args binding below tame place
  refine checkArity_halts.bind fun _ _ => ?_
  split
  · refine (elements_halts (tame_arg tame 0)).bind fun elements _ => ?_
    have start : (args[1]?.getD (Value.int 0)).Tame false := by
      cases found : args[1]? with
      | none => exact Value.tame_int 0
      | some value => exact tame value (List.mem_of_getElem? found)
    refine (Eval.Halts.foldlM (Q := Value.Tame false) start fun total e _ _ => ?_).bind
      fun total known => answer_halts known
    exact .ofFailing fun value computed => tame_of_arithmetic computed
  · next step known =>
    refine (lambdaOf_halts (tame step (List.mem_of_getElem? known))).bind fun l lambda => ?_
    refine (elements_halts (tame_arg tame 0)).bind fun elements inside => ?_
    refine (Eval.Halts.foldlM (Q := Node.Tame false) (Node.tame_plain.mpr (tame_arg tame 1))
      fun total e before member => ?_).bind fun total known => answer_halts known.value
    refine (below.invoke l _ binding lambda ?_ place).bind fun resolved result =>
      .pure (Node.tame_plain.mpr result)
    simp [ArgumentValue.Has, before.asWritten, (inside e member).2.asWritten]

theorem uniq_halts : Function.Halts uniq := by
  intro deeper args binding _ tame _
  have collection := tame_arg tame 0
  refine checkArity_halts.bind fun _ _ => ?_
  split
  · next items shape =>
    rw [shape, Value.tame_list] at collection
    refine answer_halts (Value.tame_list.mpr ?_)
    refine List.foldlRecOn items _ (motive := fun kept : List Node => ∀ item ∈ kept, item.Tame false)
      (by simp) ?_
    intro kept known item member other inKept
    split at inKept
    · exact known other inKept
    · rcases List.mem_append.mp inKept with before | new
      · exact known other before
      · obtain rfl := List.mem_singleton.mp new
        exact collection other member
  · exact .mismatch

/-- The standard functions come to an end with tame values, but for the one that writes values as
they are displayed. -/
theorem functions_halt {name : String} {function : Function} (other : name ≠ "format")
    (found : Fields.find? functions name = some function) : Function.Halts function := by
  have known : ∀ entry ∈ functions, entry.1 ≠ "format" → Function.Halts entry.2 := by
    simp only [functions, List.forall_mem_cons]
    exact ⟨fun _ => contains_halts, fun _ => error_halts, fun same => absurd rfl same,
      fun _ => join_halts, fun _ => keys_halts, fun _ => length_halts, fun _ => lower_halts,
      fun _ => map_halts, fun _ => max_halts, fun _ => min_halts, fun _ => select_halts,
      fun _ => split_halts, fun _ => sum_halts, fun _ => trim_halts, fun _ => typeOf_halts,
      fun _ => uniq_halts, fun _ => upper_halts, fun _ => values_halts, by simp⟩
  exact known _ (Fields.mem_of_find? found) other

end Standard

end Cascade
