import Cascade.Evaluation.Evaluate
import Cascade.Proofs.FinalReferences

/-!
# Simple values

A simple value is what an expression without calls computes from texts without brackets: scalars,
lists and maps in whose texts no bracket opens and whose keys are no directives or controls. Nothing
is left to evaluate in it, so it is final wherever it stands, and the operators lead from simple
values to simple values.

## Main definitions

* `isBare`: no bracket opens in a text; `Node.isSimple`.

## Main statements

* `Node.isResolved_of_isSimple`, `nodeValue_of_isSimple`: a simple node has its value.
* `isSimple_of_arithmetic`, `isSimple_of_concatenate`: operators keep values simple.
-/

namespace Cascade

/-! ### Texts without brackets -/

/-- No bracket of an expression opens in the text. -/
def isBare (text : String) : Bool := !text.toList.contains '('

theorem isBare_iff {text : String} : isBare text = true ↔ '(' ∉ text.toList := by
  simp [isBare]

theorem isBare_append {a b : String} (left : isBare a = true) (right : isBare b = true) :
    isBare (a ++ b) = true := by
  rw [isBare_iff] at *
  rw [String.toList_append]
  exact fun member => (List.mem_append.mp member).elim left right

theorem isBare_ofList {cs : List Char} (bare : '(' ∉ cs) : isBare (String.ofList cs) = true := by
  rw [isBare_iff, String.toList_ofList]
  exact bare

theorem isBare_intercalate {separator : String} {parts : List String}
    (between : isBare separator = true) (each : ∀ part ∈ parts, isBare part = true) :
    isBare (separator.intercalate parts) = true := by
  induction parts with
  | nil => rfl
  | cons first rest ih =>
    have others := ih fun part member => each part (List.mem_cons_of_mem _ member)
    cases rest with
    | nil =>
      rw [String.intercalate_singleton]
      exact each first List.mem_cons_self
    | cons second rest =>
      rw [String.intercalate_cons_cons]
      exact isBare_append (isBare_append (each first List.mem_cons_self) between) others

theorem not_mem_toDigits {base : Nat} (digits : 1 < base) (few : base ≤ 16) (n : Nat) :
    '(' ∉ Nat.toDigits base n := by
  have digit : ∀ d < 16, '(' ≠ d.digitChar := by decide
  induction n using Nat.strongRecOn with
  | ind n ih =>
    rw [Nat.toDigits_eq_if digits]
    split
    · next small =>
      rw [List.mem_singleton]
      exact digit n (by omega)
    · next large =>
      rw [List.mem_append, List.mem_singleton, not_or]
      have last := Nat.mod_lt n (show 0 < base by omega)
      exact ⟨ih (n / base) (Nat.div_lt_self (by omega) digits), digit _ (by omega)⟩

theorem isBare_natRepr (n : Nat) : isBare (toString n) = true := by
  change isBare n.repr = true
  rw [isBare_iff, Nat.toList_repr]
  exact not_mem_toDigits (by decide) (by decide) n

theorem isBare_intRepr (n : Int) : isBare (toString n) = true := by
  cases n with
  | ofNat n => exact isBare_natRepr n
  | negSucc n => exact isBare_append (by decide) (isBare_natRepr _)

theorem not_mem_shortest (tie : TieRule) (x : Float) : '(' ∉ (Decimal.shortest tie x).digits := by
  intro member
  simp only [Decimal.shortest, List.mem_reverse] at member
  have digit := List.mem_reverse.mp ((List.dropWhile_sublist _).mem member)
  exact not_mem_toDigits (by decide) (by decide) _ digit

theorem not_mem_positional (keepsFraction : Bool) {d : Decimal} (bare : '(' ∉ d.digits) :
    '(' ∉ Notation.positional keepsFraction d := by
  have padding (n : Nat) : '(' ∉ List.replicate n '0' := fun member =>
    absurd (List.eq_of_mem_replicate member) (by decide)
  unfold Notation.positional
  split
  · simp [padding, bare]
  · simp only
    split
    · cases keepsFraction <;> simp [padding, bare]
    · simp only [List.mem_append, List.mem_cons, not_or]
      exact ⟨fun member => bare (List.mem_of_mem_take member), by decide,
        fun member => bare (List.mem_of_mem_drop member)⟩

theorem isBare_write (x : Float) : isBare (Notation.plain.write x) = true := by
  have sign : isBare (if Binary64.isNegative x then "-" else "") = true := by
    split <;> decide
  have digits := not_mem_positional false (not_mem_shortest .up x)
  unfold Notation.write
  split
  · decide
  · simp only
    split
    · exact isBare_append sign (by decide)
    · split
      · exact isBare_append sign (by decide)
      · exact isBare_append sign (isBare_ofList digits)

theorem isBare_dotted (number : Nat) : isBare (Address.dotted number) = true := by
  refine isBare_intercalate (by decide) fun part member => ?_
  obtain ⟨i, -, rfl⟩ := List.mem_map.mp member
  exact isBare_natRepr _

theorem isBare_joinGroups (groups : List Nat) : isBare (Address.joinGroups groups) = true := by
  refine isBare_intercalate (by decide) fun part member => ?_
  obtain ⟨group, -, rfl⟩ := List.mem_map.mp member
  exact isBare_ofList (not_mem_toDigits (by decide) (by decide) group)

theorem isBare_render (a : Address) : isBare a.render = true := by
  unfold Address.render
  split
  · exact isBare_dotted _
  · unfold Address.grouped
    split
    · exact isBare_append (by decide) (isBare_dotted _)
    · simp only
      split
      · exact isBare_append (isBare_append (isBare_joinGroups _) (by decide)) (isBare_joinGroups _)
      · exact isBare_joinGroups _

theorem inner?_of_isBare {text : String} (bare : isBare text = true) :
    Embedded.inner? text = none := by
  rw [isBare_iff] at bare
  rw [Option.eq_none_iff_forall_ne_some]
  intro inside opens
  rw [Embedded.inner?_eq_some_iff] at opens
  have inTrimmed : '(' ∈ Blank.strip Blank.isBlank text.toList := by rw [opens]; simp
  rw [Blank.strip, Blank.dropTrailing, Blank.dropLeading, List.mem_reverse] at inTrimmed
  have inLeading := List.mem_reverse.mp ((List.dropWhile_sublist _).mem inTrimmed)
  exact bare ((List.dropWhile_sublist _).mem inLeading)

/-! ### Simple values -/

mutual

/-- There is nothing to evaluate in the tree, no bracket opens in it, and nothing is noted on it. -/
def Node.isSimple : Node → Bool
  | ⟨value, annotations, _⟩ => annotations.isPlain && Value.isSimple value

/-- There is nothing to evaluate in the value, and no bracket opens in it. -/
def Value.isSimple : Value → Bool
  | .string text => isBare text
  | .list items => itemsSimple items
  | .map fields => fieldsSimple fields
  | .expression _ => false
  | .lambda _ => false
  | .template _ => false
  | _ => true

/-- All items are simple. -/
def itemsSimple : List Node → Bool
  | [] => true
  | item :: rest => item.isSimple && itemsSimple rest

/-- All fields are simple, and no key is that of a directive or control. -/
def fieldsSimple : List (String × Node) → Bool
  | [] => true
  | (key, child) :: rest => (controlSuffix? key).isNone && child.isSimple && fieldsSimple rest

end

theorem Value.isSimple_list {items : List Node} :
    (Value.list items).isSimple = true ↔ ∀ item ∈ items, item.isSimple = true := by
  rw [isSimple]
  induction items with
  | nil => simp [itemsSimple]
  | cons item rest ih => simp [itemsSimple, ih]

theorem Value.isSimple_map {fields : Fields Node} :
    (Value.map fields).isSimple = true ↔
      ∀ field ∈ fields, controlSuffix? field.1 = none ∧ field.2.isSimple = true := by
  rw [isSimple]
  induction fields with
  | nil => simp [fieldsSimple]
  | cons field rest ih => simp [fieldsSimple, ih]

theorem Node.isSimple_iff {node : Node} :
    node.isSimple = true ↔ node.annotations = {} ∧ node.value.isSimple = true := by
  obtain ⟨value, annotations, source⟩ := node
  rw [isSimple, Bool.and_eq_true, Annotations.isPlain, beq_iff_eq]

theorem Node.isSimple_plain {value : Value} {source : String} :
    (Node.plain value source).isSimple = true ↔ value.isSimple = true := by
  rw [isSimple_iff]
  exact and_iff_right rfl

/-- Simple nodes are plain data. -/
theorem Node.isPlainData_of_isSimple {node : Node} (simple : node.isSimple = true) :
    node.isPlainData = true := by
  induction node using Node.treeInduction with
  | list items annotations source ih =>
    obtain ⟨rfl, items⟩ := isSimple_iff.mp simple
    rw [isPlainData, isDataWith, Bool.and_eq_true, Value.isDataWith, itemsAreData_iff]
    exact ⟨rfl, fun item member => ih item member (Value.isSimple_list.mp items item member)⟩
  | map fields annotations source ih =>
    obtain ⟨rfl, fields⟩ := isSimple_iff.mp simple
    rw [isPlainData, isDataWith, Bool.and_eq_true, Value.isDataWith, fieldsAreData_iff]
    refine ⟨rfl, fun field member => ?_⟩
    have known := Value.isSimple_map.mp fields field member
    exact ⟨known.1, ih field member known.2⟩
  | leaf value annotations source notList notMap =>
    obtain ⟨rfl, whole⟩ := isSimple_iff.mp simple
    rw [isPlainData, isDataWith, Bool.and_eq_true]
    refine ⟨rfl, ?_⟩
    cases value with
    | list items => exact absurd rfl (notList items)
    | map fields => exact absurd rfl (notMap fields)
    | string text =>
      rw [Value.isDataWith, inner?_of_isBare whole]
      rfl
    | expression e => cases whole
    | lambda l => cases whole
    | template body => cases whole
    | _ => rfl

/-- Simple nodes are resolved. -/
theorem Node.isResolved_of_isSimple {node : Node} (simple : node.isSimple = true) :
    node.isResolved = true := by
  induction node using Node.treeInduction with
  | list items annotations source ih =>
    obtain ⟨rfl, items⟩ := isSimple_iff.mp simple
    exact isResolved_iff.mpr ⟨rfl, allResolved_iff.mpr fun item member =>
      ih item member (Value.isSimple_list.mp items item member)⟩
  | map fields annotations source ih =>
    obtain ⟨rfl, fields⟩ := isSimple_iff.mp simple
    exact isResolved_iff.mpr ⟨rfl, allFieldsResolved_iff.mpr fun field member =>
      ih field member (Value.isSimple_map.mp fields field member).2⟩
  | leaf value annotations source notList notMap =>
    obtain ⟨rfl, whole⟩ := isSimple_iff.mp simple
    refine isResolved_iff.mpr ⟨rfl, ?_⟩
    cases value with
    | list items => exact absurd rfl (notList items)
    | map fields => exact absurd rfl (notMap fields)
    | string text =>
      have read : Embedded.isUnread text = false := by
        rw [← Bool.not_eq_true, Embedded.isUnread_iff, inner?_of_isBare whole]
        simp
      rw [valueResolved, read]
      rfl
    | expression e => cases whole
    | _ => rfl

/-- A step inside a simple node leads to a simple node. -/
theorem Node.isSimple_of_stepBy? {node next : Node} {segment key : String}
    (simple : node.isSimple = true) (step : node.stepBy? segment key = some next) :
    next.isSimple = true := by
  obtain ⟨value, annotations, source⟩ := node
  have whole := (isSimple_iff.mp simple).2
  cases value with
  | map fields => exact (Value.isSimple_map.mp whole _ (Fields.mem_of_find? step)).2
  | list items =>
    have inside := Value.isSimple_list.mp whole
    simp only [stepBy?] at step
    split at step
    · obtain ⟨position, -, found⟩ := Option.bind_eq_some_iff.mp step
      exact inside next (List.mem_of_getElem? found)
    · exact inside next (List.mem_of_find?_eq_some step)
  | _ => cases step

/-- A simple node has its value. -/
theorem nodeValue_of_isSimple {name : String} {node : Node} (simple : node.isSimple = true) :
    nodeValue name node false = .ok (.ofValue node.value) :=
  nodeValue_of_isResolved (Node.isResolved_of_isSimple simple)

/-! ### Operators on simple values -/

theorem isBare_of_asText? {value : Value} {text : String} (simple : value.isSimple = true)
    (reads : value.asText? = some text) : isBare text = true := by
  cases value with
  | string s =>
    cases reads
    exact simple
  | int n =>
    cases reads
    exact isBare_intRepr _
  | float x =>
    cases reads
    exact isBare_write x
  | bool b =>
    cases reads
    cases b <;> decide
  | _ => cases reads

theorem isSimple_of_arithmetic {op : ArithmeticOp} {lhs rhs value : Value}
    (computed : arithmetic op lhs rhs = .ok value) : value.isSimple = true := by
  rcases eq_of_arithmetic computed with ⟨n, rfl⟩ | ⟨x, rfl⟩ | ⟨a, rfl⟩
  · rfl
  · rfl
  · exact isBare_render a

theorem isSimple_of_concatenate {lhs rhs value : Value} {source : String}
    (left : lhs.isSimple = true) (right : rhs.isSimple = true)
    (joined : concatenate lhs rhs source = .ok value) : value.isSimple = true := by
  unfold concatenate at joined
  split at joined
  · cases joined
    rw [Value.isSimple_list] at *
    exact fun item member => (List.mem_append.mp member).elim (left item) (right item)
  · cases joined
  · cases joined
    rw [Value.isSimple_list] at *
    intro item member
    rcases List.mem_append.mp member with known | new
    · exact left item known
    · obtain rfl := List.mem_singleton.mp new
      exact Node.isSimple_plain.mpr right
  · cases joined
    rw [Value.isSimple_map] at *
    exact fun field member => (Fields.mem_override member).elim (left field) (right field)
  · split at joined
    · next a b first second =>
      cases joined
      exact isBare_append (isBare_of_asText? left first) (isBare_of_asText? right second)
    · cases joined

end Cascade
