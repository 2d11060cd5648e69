import Cascade.Proofs.PrintedChains

/-!
# The tildes of a text and of what it prints to

The literal that has two spellings prints as a word, so the tilde that it may have been read from is
lost. No tilde is added: what a printed expression costs in tildes is paid by the text that the
expression was read from. Where the word would become the key of a merge form, the lost tilde is
charged as well, as a debt of the expression. A text that pays this debt has more tildes than the
printed expression.

## Main definitions

* `tildes`: the number of tildes of a text.
* `Expr.due`: the tildes of the printed expression, and its debt.
* `Parser.Affords`: what a parser takes pays for what it returns.

## Main statements

* `Expr.due_call` and the other equations of this form: the parts of an expression pay for it.
* `Grammar.affords_reference` and its like: tokens are paid.
-/

namespace Cascade

/-! ### Tildes -/

/-- The number of tildes of a text. -/
def tildes (cs : List Char) : Nat := cs.count '~'

@[simp] theorem tildes_nil : tildes [] = 0 := rfl

@[simp] theorem tildes_cons (c : Char) (cs : List Char) :
    tildes (c :: cs) = tildes cs + if c = '~' then 1 else 0 := by
  simp only [tildes, List.count_cons, beq_iff_eq]

@[simp] theorem tildes_append (cs cs' : List Char) : tildes (cs ++ cs') = tildes cs + tildes cs' :=
  List.count_append

theorem tildes_le_of_suffix {cs rest : List Char} (suffix : rest <:+ cs) :
    tildes rest ≤ tildes cs :=
  suffix.sublist.count_le _

open Classical in
/-- One if the statement is wrong. -/
noncomputable def lapse (P : Prop) : Nat := if P then 0 else 1

theorem lapse_of {P : Prop} (holds : P) : lapse P = 0 := if_pos holds

theorem lapse_le_one (P : Prop) : lapse P ≤ 1 := by
  unfold lapse
  split <;> decide

section

variable {P Q R : Prop} {a b x y : Nat}

theorem add_lapse_le (entails : P → R) (le : a + lapse P ≤ x) : a + lapse R ≤ x := by
  have few : lapse R ≤ lapse P := by
    unfold lapse
    split <;> split <;> simp_all
  omega

theorem add_lapse_le_add (entail : P → Q → R) (first : a + lapse P ≤ x) (second : b + lapse Q ≤ y) :
    a + b + lapse R ≤ x + y := by
  have few : lapse R ≤ lapse P + lapse Q := by
    unfold lapse
    split <;> split <;> split <;> simp_all
  omega

end

namespace Parser

variable {α β : Type}

/-- The tildes that are taken from a text, with a credit, pay for the weight of the value. -/
def Affords (p : Parser α) (credit : Nat) (weight : α → Nat) : Prop :=
  ∀ cs value rest, p cs = .accepted value rest → weight value + tildes rest ≤ credit + tildes cs

section

variable {p : Parser α} {f : α → Parser β} {credit : Nat} {weight : α → Nat} {weight' : β → Nat}

theorem affords_pure {value : α} (le : weight value ≤ credit) :
    (pure value : Parser α).Affords credit weight := by
  rintro cs _ _ ⟨⟩
  exact Nat.add_le_add_right le _

theorem affords_fail : (fail : Parser α).Affords credit weight := by
  rintro cs _ _ ⟨⟩

namespace Affords

/-- What the first parser takes is a credit of the next one. -/
theorem bind (first : p.Affords 0 weight)
    (next : ∀ value, (f value).Affords (credit + weight value) weight') :
    (p >>= f).Affords credit weight' := by
  intro cs result rest accepted
  obtain ⟨value, left, here, there⟩ := bind_eq_iff.mp accepted
  have paid := first cs value left here
  have due := next value left result rest there
  omega

/-- Without a credit. -/
theorem start (first : p.Affords 0 weight)
    (next : ∀ value, (f value).Affords (weight value) weight') : (p >>= f).Affords 0 weight' := by
  refine first.bind fun value => ?_
  rw [Nat.zero_add]
  exact next value

theorem map {g : α → β} (affords : p.Affords credit fun value => weight' (g value)) :
    (g <$> p).Affords credit weight' := by
  intro cs result rest accepted
  obtain ⟨value, here, rfl⟩ := map_eq_iff.mp accepted
  exact affords cs value rest here

theorem choose {parsers : List (Parser α)} (each : parsers.Forall (·.Affords credit weight)) :
    (choose parsers).Affords credit weight := by
  induction parsers with
  | nil => exact affords_fail
  | cons first others ih =>
    obtain ⟨here, there⟩ := List.forall_cons _ _ _ |>.mp each
    intro cs value rest accepted
    rcases choose_cons_eq_iff.mp accepted with read | ⟨-, read⟩
    · exact here cs value rest read
    · exact ih there cs value rest read

theorem optional (affords : p.Affords 0 weight) :
    (optional p).Affords 0 fun value => value.elim 0 weight := by
  intro cs value rest accepted
  cases value with
  | some value => exact affords cs value rest (optional_eq_some_iff.mp accepted)
  | none =>
    obtain ⟨-, rfl⟩ := optional_eq_none_iff.mp accepted
    exact Nat.le_refl _

theorem upTo (affords : p.Affords 0 weight) (count : Nat) (cs : List Char) :
    ((upTo p count cs).1.map weight).sum + tildes (upTo p count cs).2 ≤ tildes cs := by
  induction count generalizing cs with
  | zero => simp [Parser.upTo]
  | succ count ih =>
    unfold Parser.upTo
    split
    · next value rest read =>
      have first := affords cs value rest read
      have later := ih rest
      simp only [List.map_cons, List.sum_cons]
      omega
    · simp

theorem many (affords : p.Affords 0 weight) :
    (many p).Affords 0 fun values => (values.map weight).sum := by
  rintro cs values rest ⟨⟩
  rw [Nat.zero_add]
  exact affords.upTo cs.length cs

end Affords

/-- What is taken without being kept is not needed. -/
theorem Shrinks.affords (shrinks : p.Shrinks) : p.Affords 0 fun _ => 0 := by
  intro cs value rest accepted
  rw [Nat.zero_add, Nat.zero_add]
  exact tildes_le_of_suffix (shrinks cs value rest accepted)

theorem Shrinks.skip (shrinks : p.Shrinks) (next : ∀ value, (f value).Affords credit weight') :
    (p >>= f).Affords credit weight' :=
  shrinks.affords.bind next

theorem Affords.separated {separator : Parser β} (affords : p.Affords 0 weight)
    (shrinks : separator.Shrinks) :
    (separated p separator).Affords 0 fun values => (values.map weight).sum := by
  refine affords.optional.start fun first => ?_
  cases first with
  | none => exact affords_pure (Nat.le_refl 0)
  | some first =>
    exact (shrinks.skip fun _ => affords).many.bind fun rest => affords_pure (Nat.le_refl _)

end

end Parser

/-! ### Tildes of printed tokens -/

theorem tildes_eq_zero {cs : List Char} (none : '~' ∉ cs) : tildes cs = 0 :=
  List.count_eq_zero_of_not_mem none

namespace Expr

theorem tildes_quote (s : String) : tildes (quote s) = tildes s.toList := by
  have char : ∀ c : Char, tildes (quoteChar c) = tildes [c] := by
    intro c
    unfold quoteChar
    split <;> rfl
  have chars : ∀ cs : List Char, tildes (cs.flatMap quoteChar) = tildes cs := by
    intro cs
    induction cs with
    | nil => rfl
    | cons c cs ih =>
      rw [List.flatMap_cons, tildes_append, ih, char]
      exact (tildes_append [c] cs).symm
  simp [quote, chars]

theorem tildes_printKey (key : String) : tildes (printKey key) = tildes key.toList := by
  unfold printKey
  split
  · rfl
  · exact tildes_quote key

theorem tildes_printPath (path : List String) :
    tildes (printPath path) = (path.map fun segment => tildes segment.toList).sum := by
  induction path with
  | nil => rfl
  | cons segment path ih => simpa [printPath] using ih

theorem tildes_printDotted (path : List String) :
    tildes (printDotted path) = (path.map fun segment => tildes segment.toList).sum := by
  cases path with
  | nil => rfl
  | cons first path =>
    rw [Grammar.printDotted_cons, tildes_append, tildes_printPath, List.map_cons, List.sum_cons]

theorem tildes_reference (r : Reference) : tildes r.print =
    r.tag.elim 0 (fun tag => tildes tag.toList) +
      (r.path.map fun segment => tildes segment.toList).sum := by
  obtain ⟨tag, absolute, path⟩ := r
  rw [← tildes_printDotted]
  cases tag <;> cases absolute <;> simp [Reference.print]

theorem tildes_merge (m : MergeExpr) : tildes m.print =
    m.key.elim 0 (fun key => tildes key.toList) +
      m.path.elim 0 fun path => tildes (printDotted path) := by
  have flag : ∀ (present : Bool) (word : List Char), tildes word = 0 →
      tildes (if present then word else []) = 0 := by
    intro present word plain
    cases present
    · rfl
    · exact plain
  obtain ⟨path, required, replace, key⟩ := m
  unfold MergeExpr.print
  simp only [tildes_append]
  rw [flag _ _ (by decide), flag _ _ (by decide), show tildes "merge".toList = 0 by decide]
  cases path <;> cases key <;> simp

theorem tildes_toDigits (n : Nat) : tildes (Nat.toDigits 10 n) = 0 :=
  tildes_eq_zero fun member => absurd (Grammar.isDigit_of_mem_toDigits member) (by decide)

theorem tildes_toString (n : Int) : tildes (toString n).toList = 0 := by
  cases n with
  | ofNat n =>
    change tildes (Nat.repr n).toList = 0
    rw [Nat.toList_repr, tildes_toDigits]
  | negSucc n =>
    change tildes ("-" ++ Nat.repr (n + 1)).toList = 0
    rw [String.toList_append, Nat.toList_repr, tildes_append, tildes_toDigits]
    rfl

theorem tildes_shortest (tie : TieRule) (x : Float) :
    tildes (Decimal.shortest tie x).digits = 0 := by
  refine tildes_eq_zero fun member => ?_
  unfold Decimal.shortest at member
  have digit := (List.dropWhile_suffix _).mem (List.mem_reverse.mp member)
  exact absurd (Grammar.isDigit_of_mem_toDigits (List.mem_reverse.mp digit)) (by decide)

section

variable {d : Decimal} (plain : tildes d.digits = 0)

include plain

theorem tildes_positional (keeps : Bool) : tildes (Notation.positional keeps d) = 0 := by
  have zeros : ∀ n, tildes (List.replicate n '0') = 0 := fun n =>
    tildes_eq_zero fun member => absurd (List.eq_of_mem_replicate member) (by decide)
  unfold Notation.positional
  split
  · simp [zeros, plain]
  · dsimp only
    split
    · cases keeps <;> simp [zeros, plain]
    · have parts := congrArg tildes (List.take_append_drop d.point.toNat d.digits)
      rw [tildes_append, plain] at parts
      simp
      omega

theorem tildes_scientific : tildes (Notation.scientific d) = 0 := by
  have exponent := tildes_toString (d.point - 1)
  unfold Notation.scientific
  dsimp only
  split
  · rfl
  · next digit same =>
    rw [same] at plain
    simp_all
  · next digit rest _ same =>
    rw [same] at plain
    simp_all

end

/-- A float is written with digits, signs and letters. -/
theorem tildes_write (format : Notation) (x : Float) : tildes (format.write x).toList = 0 := by
  have sign : tildes (if Binary64.isNegative x then "-" else "").toList = 0 := by
    split <;> rfl
  have digits := tildes_shortest format.tie x
  unfold Notation.write
  split
  · rfl
  · dsimp only
    split
    · rw [String.toList_append, tildes_append, sign]
      rfl
    · split
      · rw [String.toList_append, tildes_append, sign]
        split <;> rfl
      · rw [String.toList_append, tildes_append, sign, String.toList_ofList, Nat.zero_add]
        split
        · exact tildes_scientific digits
        · exact tildes_positional digits _

theorem tildes_infixed (l r : List Char) (op : String) :
    tildes (infixed l op r) = tildes l + tildes op.toList + tildes r := by
  simp [infixed]
  omega

theorem tildes_commaText {α : Type} (text : α → List Char) (xs : List α) :
    tildes (Grammar.commaText text xs) = (xs.map fun x => tildes (text x)).sum := by
  have tail : ∀ xs : List α,
      tildes (Grammar.commaTail text xs) = (xs.map fun x => tildes (text x)).sum := by
    intro xs
    induction xs with
    | nil => rfl
    | cons x xs ih =>
      have first : tildes (',' :: ' ' :: text x) = tildes (text x) := by simp
      rw [Grammar.commaTail, List.flatMap_cons, tildes_append, first, List.map_cons, List.sum_cons]
      exact congrArg _ ih
  cases xs with
  | nil => rfl
  | cons x xs => rw [Grammar.commaText, tildes_append, tail, List.map_cons, List.sum_cons]

/-! ### What a printed expression costs -/

/-- The tildes of the printed expression, and one more if a literal in it becomes the key of a merge
form. -/
noncomputable def due (e : Expr) : Nat := tildes e.print + lapse (e.Everywhere Apart)

/-- The tildes of the printed argument, and one more if it is wrong. -/
noncomputable def argumentDue (a : Argument) : Nat :=
  tildes (printArgument a) + lapse (a.expr.Everywhere Apart)

/-- The tildes of the printed parameter, and one more if its default value is wrong. -/
noncomputable def parameterDue (p : Parameter) : Nat :=
  tildes (printParameter p) + lapse (EverywhereInOption Apart p.default)

/-- The tildes of the printed entry, and one more if its expression is wrong. -/
noncomputable def entryDue (entry : String × Expr) : Nat :=
  tildes entry.1.toList + entry.2.due

theorem sum_add_lapse_le {α : Type} (cost : α → Nat) (P : α → Prop) (xs : List α) :
    (xs.map cost).sum + lapse (∀ x ∈ xs, P x) ≤ (xs.map fun x => cost x + lapse (P x)).sum := by
  induction xs with
  | nil => exact (Nat.zero_add _).le.trans (lapse_of (List.forall_mem_nil P)).le
  | cons x xs ih =>
    simp only [List.map_cons, List.sum_cons]
    exact add_lapse_le_add (fun first later => List.forall_mem_cons.mpr ⟨first, later⟩)
      (Nat.le_refl _) ih

theorem due_items (items : List Expr) :
    tildes (printItems items) + lapse (EverywhereInItems Apart items) ≤ (items.map due).sum := by
  rw [Grammar.printItems_eq, tildes_commaText, Grammar.everywhereInItems_iff]
  exact sum_add_lapse_le _ _ items

theorem due_entries (entries : List (String × Expr)) :
    tildes (printEntries entries) + lapse (EverywhereInEntries Apart entries) ≤
      (entries.map entryDue).sum := by
  rw [Grammar.printEntries_eq, tildes_commaText, Grammar.everywhereInEntries_iff]
  refine (sum_add_lapse_le _ _ entries).trans (Nat.le_of_eq (congrArg List.sum ?_))
  refine List.map_congr_left fun entry _ => ?_
  simp [entryDue, due, tildes_printKey, Nat.add_assoc]

theorem due_arguments (args : List Argument) :
    tildes (printArguments args) + lapse (EverywhereInArguments Apart args) ≤
      (args.map argumentDue).sum := by
  rw [Grammar.printArguments_eq, tildes_commaText, Grammar.everywhereInArguments_iff]
  exact sum_add_lapse_le _ _ args

theorem due_parameters (params : List Parameter) :
    tildes (printParameters params) + lapse (EverywhereInParameters Apart params) ≤
      (params.map parameterDue).sum := by
  rw [Grammar.printParameters_eq, tildes_commaText, Grammar.everywhereInParameters_iff]
  exact sum_add_lapse_le _ _ params

theorem due_option (operand : Option Expr) :
    tildes (printOption operand) + lapse (EverywhereInOption Apart operand) =
      operand.elim 0 due := by
  cases operand with
  | none => exact (Nat.zero_add _).trans (lapse_of trivial)
  | some e => rfl

theorem due_parameter (name : String) (default : Option Expr) (variadic : Bool) :
    parameterDue ⟨name, default, variadic⟩ = tildes name.toList + default.elim 0 due := by
  have print : tildes (printParameter ⟨name, default, variadic⟩) =
      tildes name.toList + tildes (printOption default) := by
    cases default <;> cases variadic <;> simp [printParameter, printDefault, printOption]
  rw [← due_option, parameterDue, print, Nat.add_assoc]

/-- The cost of an argument is that of its expression and of the name of its parameter. -/
theorem due_argument (a : Argument) : argumentDue a = a.expr.due + match a with
    | .named name _ => tildes name.toList
    | _ => 0 := by
  unfold argumentDue due
  cases a with
  | positional e => rfl
  | named name e =>
    simp [printArgument, Argument.expr]
    omega
  | indexed index e => simp [printArgument, Argument.expr, tildes_toDigits]
  | spread e => simp [printArgument, Argument.expr]

theorem due_le {e : Expr} {cost limit : Nat} (print : tildes e.print ≤ cost)
    (le : cost + lapse (e.Everywhere Apart) ≤ limit) : e.due ≤ limit :=
  (Nat.add_le_add_right print _).trans le

theorem due_of_apart {e : Expr} (apart : e.Everywhere Apart) : e.due = tildes e.print := by
  rw [due, lapse_of apart, Nat.add_zero]

section

variable (e l r c t f : Expr) (args : List Argument)

theorem due_infixed {e l r : Expr} {op : String} (print : e.print = infixed l.print op r.print)
    (solid : tildes op.toList = 0)
    (apart : l.Everywhere Apart → r.Everywhere Apart → e.Everywhere Apart) :
    e.due ≤ l.due + r.due := by
  refine due_le (Nat.le_of_eq ?_) (add_lapse_le_add apart (Nat.le_refl _) (Nat.le_refl _))
  rw [print, tildes_infixed, solid, Nat.add_zero]

theorem due_arithmetic (op : ArithmeticOp) : (Expr.arithmetic op l r).due ≤ l.due + r.due :=
  due_infixed rfl (by cases op <;> rfl) fun left right => ⟨trivial, left, right⟩

theorem due_comparison (op : ComparisonOp) : (Expr.comparison op l r).due ≤ l.due + r.due :=
  due_infixed rfl (by cases op <;> rfl) fun left right => ⟨trivial, left, right⟩

theorem due_logical (op : LogicOp) : (Expr.logical op l r).due ≤ l.due + r.due :=
  due_infixed rfl (by cases op <;> rfl) fun left right => ⟨trivial, left, right⟩

theorem due_fallback : (Expr.fallback l r).due ≤ l.due + r.due :=
  due_infixed rfl rfl fun left right => ⟨trivial, left, right⟩

theorem due_conditional : (Expr.conditional c t f).due ≤ c.due + (t.due + f.due) := by
  have branches : tildes t.print + tildes f.print +
      lapse (t.Everywhere Apart ∧ f.Everywhere Apart) ≤ t.due + f.due :=
    add_lapse_le_add And.intro (Nat.le_refl _) (Nat.le_refl _)
  refine due_le (Nat.le_of_eq ?_) (add_lapse_le_add
    (fun condition ⟨onTrue, onFalse⟩ => ⟨trivial, condition, onTrue, onFalse⟩)
    (Nat.le_refl _) branches)
  rw [print_conditional, tildes_infixed, tildes_infixed, ← Nat.add_assoc]
  rfl

theorem due_concatenation (apart : (Expr.concatenation l r).Apart) :
    (Expr.concatenation l r).due ≤ l.due + r.due := by
  have print : (Expr.concatenation l r).print = l.print ++ ' ' :: r.print := rfl
  exact due_le (by simp [print]) (add_lapse_le_add (fun left right => ⟨apart, left, right⟩)
    (Nat.le_refl _) (Nat.le_refl _))

/-- A lapse costs one. -/
theorem due_concatenation_le : (Expr.concatenation l r).due ≤ l.due + r.due + 1 := by
  have print : (Expr.concatenation l r).print = l.print ++ ' ' :: r.print := rfl
  have one := lapse_le_one ((Expr.concatenation l r).Everywhere Apart)
  simp [due, print]
  omega

theorem due_range : (Expr.range l r).due ≤ l.due + r.due :=
  due_le (by simp [print_range]) (add_lapse_le_add (fun left right => ⟨trivial, left, right⟩)
    (Nat.le_refl _) (Nat.le_refl _))

theorem due_dynamic : (Expr.dynamic l r).due ≤ l.due + r.due :=
  due_le (by simp [print_dynamic]) (add_lapse_le_add (fun left right => ⟨trivial, left, right⟩)
    (Nat.le_refl _) (Nat.le_refl _))

theorem due_slice (start stop : Option Expr) :
    (Expr.slice e start stop).due ≤ e.due + (start.elim 0 due + stop.elim 0 due) := by
  have bounds : tildes (printOption start) + tildes (printOption stop) +
      lapse (EverywhereInOption Apart start ∧ EverywhereInOption Apart stop) ≤ _ :=
    add_lapse_le_add And.intro (due_option start).le (due_option stop).le
  exact due_le (by simp [print_slice]) (add_lapse_le_add
    (fun base ⟨first, last⟩ => ⟨trivial, base, first, last⟩) (Nat.le_refl _) bounds)

theorem due_list (items : List Expr) : (Expr.list items).due ≤ (items.map due).sum :=
  due_le (by simp [print_list]) (add_lapse_le (fun each => ⟨trivial, each⟩) (due_items items))

theorem due_map (entries : List (String × Expr)) :
    (Expr.map entries).due ≤ (entries.map entryDue).sum := by
  refine due_le ?_ (add_lapse_le (fun each => ⟨trivial, each⟩) (due_entries entries))
  cases entries with
  | nil => exact Nat.zero_le _
  | cons entry entries => simp [print_map_cons]

theorem due_call : (Expr.call e args).due ≤ e.due + (args.map argumentDue).sum :=
  due_le (by simp [print_call]) (add_lapse_le_add (fun callee each => ⟨trivial, callee, each⟩)
    (Nat.le_refl _) (due_arguments args))

theorem due_curry : (Expr.curry e args).due ≤ e.due + (args.map argumentDue).sum :=
  due_le (by simp [print_curry]) (add_lapse_le_add (fun callee each => ⟨trivial, callee, each⟩)
    (Nat.le_refl _) (due_arguments args))

theorem due_intrinsic (id : Intrinsic) :
    (Expr.intrinsic id args).due ≤ (args.map argumentDue).sum := by
  have name : tildes id.name.toList = 0 := by cases id <;> rfl
  exact due_le (by simp [print_intrinsic, name])
    (add_lapse_le (fun each => ⟨trivial, each⟩) (due_arguments args))

theorem due_lambda (params : List Parameter) :
    (Expr.lambda ⟨params, e⟩).due ≤ (params.map parameterDue).sum + e.due :=
  due_le (by simp [print_lambda]) (add_lapse_le_add (fun each body => ⟨trivial, each, body⟩)
    (due_parameters params) (Nat.le_refl _))

theorem due_reference (r : Reference) : (Expr.reference r).due = tildes r.print :=
  due_of_apart trivial

theorem due_longer (r : Reference) (segment : String) :
    (Expr.reference { r with path := r.path ++ [segment] }).due =
      (Expr.reference r).due + tildes segment.toList := by
  rw [due_reference, due_reference, tildes_reference, tildes_reference]
  simp [Nat.add_assoc]

theorem due_nil : Expr.nil.due = 0 := due_of_apart trivial

theorem due_undefined : Expr.undefined.due = 2 := due_of_apart trivial

theorem due_bool (b : Bool) : (Expr.bool b).due = 0 := by
  rw [due_of_apart (e := .bool b) trivial]
  cases b <;> rfl

theorem due_string (s : String) : (Expr.string s).due = tildes s.toList :=
  (due_of_apart (e := .string s) trivial).trans (tildes_quote s)

theorem due_auto : Expr.auto.due = 0 := due_of_apart trivial

theorem due_projection (path : List String) : (Expr.projection e path).due =
    e.due + (path.map fun segment => tildes segment.toList).sum := by
  have apart : (Expr.projection e path).Everywhere Apart ↔ e.Everywhere Apart :=
    ⟨And.right, fun base => ⟨trivial, base⟩⟩
  unfold due
  rw [apart, print_projection, tildes_append, tildes_append, tildes_printPath,
    show tildes ".[*]".toList = 0 by decide]
  omega

theorem due_qualified (path : List String) : (Expr.qualified e path).due =
    e.due + (path.map fun segment => tildes segment.toList).sum := by
  have apart : (Expr.qualified e path).Everywhere Apart ↔ e.Everywhere Apart :=
    ⟨And.right, fun base => ⟨trivial, base⟩⟩
  unfold due
  rw [apart, print_qualified, tildes_append, tildes_printPath]
  omega

theorem due_not : (Expr.not e).due ≤ e.due := by
  have print : (Expr.not e).print = '!' :: e.print := rfl
  exact due_le (by simp [print]) (add_lapse_le (fun inside => ⟨trivial, inside⟩) (Nat.le_refl _))

theorem due_substitution : (Expr.substitution e).due ≤ e.due := by
  have print : (Expr.substitution e).print = '*' :: e.print := rfl
  exact due_le (by simp [print]) (add_lapse_le (fun inside => ⟨trivial, inside⟩) (Nat.le_refl _))

theorem due_prefer : (Expr.prefer e).due ≤ e.due :=
  due_le (by simp [print_prefer]) (add_lapse_le (fun inside => ⟨trivial, inside⟩) (Nat.le_refl _))

theorem due_grouped : (Expr.grouped e).due ≤ e.due :=
  due_le (by simp [print_grouped]) (add_lapse_le (fun inside => ⟨trivial, inside⟩) (Nat.le_refl _))

theorem due_marked (first : Marker) (more : List Marker) (inner : Option Expr) :
    (Expr.marked (first :: more) inner).due ≤
      tildes first.render.toList + (more.map fun m => tildes m.render.toList).sum +
        inner.elim 0 due := by
  have marks : tildes (Grammar.markerForms more) =
      (more.map fun m => tildes m.render.toList).sum := by
    induction more with
    | nil => rfl
    | cons m more ih =>
      rw [← List.append_nil (Grammar.markerForms _), Grammar.markerForms_cons]
      simp [ih]
  have inside := due_option inner
  have whole : tildes first.render.toList + (more.map fun m => tildes m.render.toList).sum +
      tildes (printOption inner) + lapse (EverywhereInOption Apart inner) ≤
        tildes first.render.toList + (more.map fun m => tildes m.render.toList).sum +
          inner.elim 0 due := by
    rw [Nat.add_assoc, inside]
  refine due_le (Nat.le_of_eq ?_) (add_lapse_le (fun inside => ⟨trivial, inside⟩) whole)
  rw [Grammar.print_markers, tildes_append, tildes_append, marks, ← Nat.add_assoc]
  cases inner with
  | none => rfl
  | some e => simp [printMarked, printOption]

end

end Expr

namespace Grammar

open Cascade.Parser Cascade.Expr

/-! ### Tokens -/

theorem affords_char (c : Char) : (char c).Affords 0 fun _ => 0 := (advances_char c).shrinks.affords

theorem affords_word (w : List Char) : (word w).Affords 0 fun _ => tildes w := by
  intro cs _ rest accepted
  obtain rfl := word_eq_iff.mp accepted
  rw [tildes_append, Nat.zero_add]

theorem affords_identifier : identifier.Affords 0 fun name => tildes name.toList := by
  intro cs name rest accepted
  obtain ⟨-, rfl, -⟩ := identifier_eq_iff.mp accepted
  rw [tildes_append, Nat.zero_add]

theorem affords_digits1 : digits1.Affords 0 tildes := by
  intro cs digits rest accepted
  obtain ⟨-, -, rfl, -⟩ := digits1_eq_iff.mp accepted
  rw [tildes_append, Nat.zero_add]

theorem affords_pathSegment : pathSegment.Affords 0 fun segment => tildes segment.toList := by
  refine .choose ⟨affords_identifier, .map ?_⟩
  simp only [String.toList_ofList]
  exact affords_digits1

theorem affords_fieldStep : fieldStep.Affords 0 fun segment => tildes segment.toList :=
  (advances_char '.').shrinks.skip fun _ => affords_pathSegment

theorem affords_tagName : tagName.Affords 0 fun tag => tildes tag.toList := by
  have number := ((advances_char '.').shrinks.skip fun _ => affords_digits1).optional
  refine affords_identifier.start fun name => number.bind fun digits => ?_
  cases digits with
  | none => exact affords_pure (by simp)
  | some digits => exact affords_pure (by simp [String.toList_append])

theorem affords_reference : reference.Affords 0 fun r => tildes r.print := by
  have tag : (tagName >>= fun name => word [':', ':'] >>= fun _ => pure name).Affords 0
      fun tag => tildes tag.toList :=
    affords_tagName.start fun tag => (shrinks_word _).skip fun _ => affords_pure (Nat.le_refl _)
  refine tag.optional.start fun tag => (affords_char '.').optional.bind fun absolute =>
    affords_identifier.bind fun first => ?_
  split
  · exact affords_fail
  · refine affords_fieldStep.many.bind fun steps => affords_pure ?_
    rw [tildes_reference, List.map_cons, List.sum_cons]
    dsimp only
    omega

theorem affords_stringChar : stringChar.Affords 0 fun c => tildes [c] := by
  have escaped : ∀ c c' : Char, tildes [c'] = 0 → ((fun _ => c') <$> char c).Affords 0
      fun c => tildes [c] := fun c c' plain => .map (by rw [plain]; exact affords_char c)
  refine .choose ⟨(advances_char '\\').shrinks.skip fun _ => .choose ⟨escaped _ _ rfl,
    escaped _ _ rfl, escaped _ _ rfl, escaped _ _ rfl, escaped _ _ rfl⟩, ?_⟩
  rintro cs c rest accepted
  obtain ⟨rfl, -⟩ := satisfy_eq_iff.mp accepted
  rw [Nat.zero_add]
  exact (tildes_append [c] rest).ge

theorem affords_stringLiteral : stringLiteral.Affords 0 fun s => tildes s.toList := by
  have sum : ∀ cs : List Char, (cs.map fun c => tildes [c]).sum = tildes cs := by
    intro cs
    induction cs with
    | nil => rfl
    | cons c cs ih =>
      rw [List.map_cons, List.sum_cons, ih]
      exact (tildes_append [c] cs).symm
  refine (advances_char '"').shrinks.skip fun _ => affords_stringChar.many.start fun cs =>
    (advances_char '"').shrinks.skip fun _ => affords_pure ?_
  rw [String.toList_ofList, sum]

theorem affords_marker : marker.Affords 0 fun m => tildes m.render.toList := by
  have word : ∀ id : MarkerId, tildes (Marker.flag id).render.toList = 0 := by
    intro id
    cases id <;> rfl
  refine (advances_char '&').shrinks.skip fun _ => affords_identifier.bind fun name => ?_
  cases MarkerId.ofName? name with
  | none => exact affords_fail
  | some id =>
    by_cases tagged : id = .tag
    · subst tagged
      refine (advances_char ':').shrinks.skip fun _ => affords_tagName.bind fun tag =>
        affords_pure ?_
      simp [Marker.render, String.toList_append]
    · have plain : (pure (Marker.flag id) : Parser Marker).Affords (0 + tildes name.toList)
          fun m => tildes m.render.toList := affords_pure (by rw [word]; exact Nat.zero_le _)
      cases id with
      | tag => exact absurd rfl tagged
      | _ => exact plain

theorem affords_mergePath : mergePath.Affords 0 fun path => tildes (printDotted path) := by
  refine affords_identifier.start fun first => ?_
  split
  · exact affords_fail
  · refine affords_fieldStep.many.bind fun steps => affords_pure ?_
    rw [tildes_printDotted, List.map_cons, List.sum_cons]

theorem affords_mergeForm : mergeForm.Affords 0 due := by
  have key : (spaces1 >>= fun _ => keyword "on" >>= fun _ => spaces1 >>= fun _ =>
      identifier).Affords 0 fun key => tildes key.toList :=
    advances_spaces1.shrinks.skip fun _ => (advances_keyword (by decide)).shrinks.skip fun _ =>
      advances_spaces1.shrinks.skip fun _ => affords_identifier
  have path := (advances_spaces1.shrinks.skip fun _ => affords_mergePath).optional
  refine (advances_keyword (by decide)).shrinks.skip fun _ => shrinks_notFollowedBy.skip fun _ =>
    advances_mergeFlag.shrinks.many.skip fun flags => key.optional.start fun key =>
      path.bind fun path => affords_pure ?_
  rw [due_of_apart (e := .merge _) trivial, Expr.print_merge, tildes_merge]

theorem affords_number (negative : Bool) : (number negative).Affords 0 due := by
  intro cs e rest accepted
  have number : e.due = 0 := by
    obtain ⟨t, -, literal⟩ := number_eq_iff.mp accepted
    rcases literal?_cases literal with ⟨-, -, -, rfl⟩ | ⟨-, _, _, rfl⟩
    · rw [due_of_apart (e := .int _) trivial, print_int, printInt, tildes_toString]
    · rw [due_of_apart (e := .float _) trivial, print_float, tildes_write]
  rw [number, Nat.zero_add, Nat.zero_add]
  exact tildes_le_of_suffix ((advances_number negative).shrinks _ _ _ accepted)

end Grammar
end Cascade
