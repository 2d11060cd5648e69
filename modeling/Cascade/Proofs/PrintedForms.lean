import Cascade.Expr.Printer

/-!
# Printed forms

The printed form of each kind of expression, and what the ends of a printed expression can be told
from: whether it starts with the literal that has two spellings, and whether it ends with a merge
form that a name would continue.

## Main definitions

* `Expr.startsNil`, `Expr.endsOn`: the ends of an expression.
* `Expr.Everywhere`: a property of all nodes of an expression, lambda bodies included.
* `Expr.Apart`: no merge form that ends with `on` stands before the literal with two spellings.
-/

namespace Cascade

namespace Expr

/-! ### Equations -/

section

variable (e l r c t f b : Expr) (args : List Argument)

theorem print_int (n : Int64) : (Expr.int n).print = printInt n := rfl

theorem print_float (x : Float) : (Expr.float x).print = (Notation.literal.write x).toList := rfl

theorem print_reference (ref : Reference) : (Expr.reference ref).print = ref.print := rfl

theorem print_comparison (op : ComparisonOp) :
    (Expr.comparison op l r).print = infixed l.print op.symbol r.print := rfl

theorem print_conditional :
    (Expr.conditional c t f).print = infixed (infixed c.print "?" t.print) ":" f.print := rfl

theorem print_list (items : List Expr) :
    (Expr.list items).print = '[' :: (printItems items ++ [']']) := rfl

theorem print_range :
    (Expr.range l r).print = '[' :: (l.print ++ '.' :: '.' :: (r.print ++ [']'])) := rfl

theorem print_map_cons (entry : String × Expr) (rest : List (String × Expr)) :
    (Expr.map (entry :: rest)).print =
      '{' :: ' ' :: (printEntries (entry :: rest) ++ [' ', '}']) := rfl

theorem print_call :
    (Expr.call c args).print = c.print ++ '(' :: (printArguments args ++ [')']) := rfl

theorem print_intrinsic (id : Intrinsic) :
    (Expr.intrinsic id args).print = id.name.toList ++ '(' :: (printArguments args ++ [')']) := rfl

theorem print_curry :
    (Expr.curry c args).print = c.print ++ '*' :: '(' :: (printArguments args ++ [')']) := rfl

theorem print_lambda (params : List Parameter) : (Expr.lambda ⟨params, b⟩).print =
    '|' :: (printParameters params ++ "|->".toList ++ b.print) := rfl

theorem print_merge (m : MergeExpr) : (Expr.merge m).print = m.print := rfl

theorem print_marked (markers : List Marker) (inner : Option Expr) :
    (Expr.marked markers inner).print =
    (" ".intercalate (markers.map Marker.render)).toList ++ printMarked inner := rfl

theorem print_prefer : (Expr.prefer e).print = "prefer ".toList ++ e.print := rfl

theorem print_dynamic :
    (Expr.dynamic b e).print = b.print ++ '.' :: '[' :: (e.print ++ [']']) := rfl

theorem print_slice (start stop : Option Expr) : (Expr.slice b start stop).print =
    b.print ++ '.' :: '[' :: (printOption start ++ '.' :: '.' :: (printOption stop ++ [']'])) := rfl

theorem print_projection (path : List String) :
    (Expr.projection b path).print = b.print ++ ".[*]".toList ++ printPath path := rfl

theorem print_qualified (path : List String) :
    (Expr.qualified b path).print = b.print ++ printPath path := rfl

theorem print_grouped : (Expr.grouped e).print = '(' :: (e.print ++ [')']) := rfl

end

end Expr

/-! ### Ends -/

/-- The merge form ends with a path that is the word before a key. -/
def MergeExpr.endsOn (m : MergeExpr) : Bool :=
  m.path == some ["on"] && m.key == none

namespace Expr

/-- The expression ends with a merge form that a name would continue. -/
def endsOn : Expr → Bool
  | .arithmetic _ _ r => r.endsOn
  | .concatenation _ r => r.endsOn
  | .comparison _ _ r => r.endsOn
  | .fallback _ r => r.endsOn
  | .logical _ _ r => r.endsOn
  | .not e => e.endsOn
  | .conditional _ _ f => f.endsOn
  | .lambda ⟨_, body⟩ => body.endsOn
  | .merge m => m.endsOn
  | .marked _ (some e) => e.endsOn
  | .prefer e => e.endsOn
  | .substitution e => e.endsOn
  | _ => false

/-- The expression starts with the literal that two spellings have and that prints as a word. -/
def startsNil : Expr → Bool
  | .nil => true
  | .arithmetic _ l _ => l.startsNil
  | .concatenation l _ => l.startsNil
  | .comparison _ l _ => l.startsNil
  | .fallback l _ => l.startsNil
  | .logical _ l _ => l.startsNil
  | .conditional c _ _ => c.startsNil
  | _ => false

/-- No merge form that a name would continue stands before a literal that prints as a word. -/
def Apart : Expr → Prop
  | .concatenation l r => l.endsOn = true → r.startsNil = false
  | _ => True

section

variable (P : Expr → Prop)

mutual

/-- The property holds of all nodes of an expression, lambda bodies included. -/
def Everywhere : Expr → Prop
  | .arithmetic op l r => P (.arithmetic op l r) ∧ l.Everywhere ∧ r.Everywhere
  | .concatenation l r => P (.concatenation l r) ∧ l.Everywhere ∧ r.Everywhere
  | .comparison op l r => P (.comparison op l r) ∧ l.Everywhere ∧ r.Everywhere
  | .fallback l r => P (.fallback l r) ∧ l.Everywhere ∧ r.Everywhere
  | .logical op l r => P (.logical op l r) ∧ l.Everywhere ∧ r.Everywhere
  | .not e => P (.not e) ∧ e.Everywhere
  | .conditional c t f => P (.conditional c t f) ∧ c.Everywhere ∧ t.Everywhere ∧ f.Everywhere
  | .list items => P (.list items) ∧ EverywhereInItems items
  | .range a b => P (.range a b) ∧ a.Everywhere ∧ b.Everywhere
  | .map entries => P (.map entries) ∧ EverywhereInEntries entries
  | .call callee args => P (.call callee args) ∧ callee.Everywhere ∧ EverywhereInArguments args
  | .intrinsic id args => P (.intrinsic id args) ∧ EverywhereInArguments args
  | .curry callee args => P (.curry callee args) ∧ callee.Everywhere ∧ EverywhereInArguments args
  | .lambda ⟨params, body⟩ =>
    P (.lambda ⟨params, body⟩) ∧ EverywhereInParameters params ∧ body.Everywhere
  | .marked markers inner => P (.marked markers inner) ∧ EverywhereInOption inner
  | .prefer e => P (.prefer e) ∧ e.Everywhere
  | .substitution e => P (.substitution e) ∧ e.Everywhere
  | .dynamic b i => P (.dynamic b i) ∧ b.Everywhere ∧ i.Everywhere
  | .slice b s t =>
    P (.slice b s t) ∧ b.Everywhere ∧ EverywhereInOption s ∧ EverywhereInOption t
  | .projection b path => P (.projection b path) ∧ b.Everywhere
  | .qualified b path => P (.qualified b path) ∧ b.Everywhere
  | .grouped e => P (.grouped e) ∧ e.Everywhere
  | e => P e

/-- The property holds of all nodes of list items. -/
def EverywhereInItems : List Expr → Prop
  | [] => True
  | e :: rest => e.Everywhere ∧ EverywhereInItems rest

/-- The property holds of all nodes of map entries. -/
def EverywhereInEntries : List (String × Expr) → Prop
  | [] => True
  | (_, e) :: rest => e.Everywhere ∧ EverywhereInEntries rest

/-- The property holds of all nodes of arguments. -/
def EverywhereInArguments : List Argument → Prop
  | [] => True
  | .positional e :: rest => e.Everywhere ∧ EverywhereInArguments rest
  | .named _ e :: rest => e.Everywhere ∧ EverywhereInArguments rest
  | .indexed _ e :: rest => e.Everywhere ∧ EverywhereInArguments rest
  | .spread e :: rest => e.Everywhere ∧ EverywhereInArguments rest

/-- The property holds of all nodes of an operand that may be absent. -/
def EverywhereInOption : Option Expr → Prop
  | none => True
  | some e => e.Everywhere

/-- The property holds of all nodes of the default values of parameters. -/
def EverywhereInParameters : List Parameter → Prop
  | [] => True
  | ⟨_, default, _⟩ :: rest => EverywhereInOption default ∧ EverywhereInParameters rest

end

end

section

variable {P Q R : Expr → Prop}

mutual

/-- What two properties entail at each node they entail at all nodes. -/
theorem everywhere_of_imp (imp : ∀ e, P e → Q e → R e) :
    ∀ e : Expr, e.Everywhere P → e.Everywhere Q → e.Everywhere R
  | .nil, p, q | .undefined, p, q | .bool _, p, q | .int _, p, q | .float _, p, q
  | .string _, p, q | .reference _, p, q | .merge _, p, q | .auto, p, q => imp _ p q
  | .arithmetic .., ⟨p, pl, pr⟩, ⟨q, ql, qr⟩ | .concatenation .., ⟨p, pl, pr⟩, ⟨q, ql, qr⟩
  | .comparison .., ⟨p, pl, pr⟩, ⟨q, ql, qr⟩ | .fallback .., ⟨p, pl, pr⟩, ⟨q, ql, qr⟩
  | .logical .., ⟨p, pl, pr⟩, ⟨q, ql, qr⟩ | .range .., ⟨p, pl, pr⟩, ⟨q, ql, qr⟩
  | .dynamic .., ⟨p, pl, pr⟩, ⟨q, ql, qr⟩ =>
    ⟨imp _ p q, everywhere_of_imp imp _ pl ql, everywhere_of_imp imp _ pr qr⟩
  | .not _, ⟨p, pe⟩, ⟨q, qe⟩ | .prefer _, ⟨p, pe⟩, ⟨q, qe⟩ | .substitution _, ⟨p, pe⟩, ⟨q, qe⟩
  | .projection .., ⟨p, pe⟩, ⟨q, qe⟩ | .qualified .., ⟨p, pe⟩, ⟨q, qe⟩
  | .grouped _, ⟨p, pe⟩, ⟨q, qe⟩ => ⟨imp _ p q, everywhere_of_imp imp _ pe qe⟩
  | .conditional .., ⟨p, pc, pt, pf⟩, ⟨q, qc, qt, qf⟩ =>
    ⟨imp _ p q, everywhere_of_imp imp _ pc qc, everywhere_of_imp imp _ pt qt,
      everywhere_of_imp imp _ pf qf⟩
  | .list _, ⟨p, each⟩, ⟨q, each'⟩ => ⟨imp _ p q, everywhereInItems_of_imp imp _ each each'⟩
  | .map _, ⟨p, each⟩, ⟨q, each'⟩ => ⟨imp _ p q, everywhereInEntries_of_imp imp _ each each'⟩
  | .intrinsic .., ⟨p, each⟩, ⟨q, each'⟩ =>
    ⟨imp _ p q, everywhereInArguments_of_imp imp _ each each'⟩
  | .call .., ⟨p, pe, each⟩, ⟨q, qe, each'⟩ | .curry .., ⟨p, pe, each⟩, ⟨q, qe, each'⟩ =>
    ⟨imp _ p q, everywhere_of_imp imp _ pe qe, everywhereInArguments_of_imp imp _ each each'⟩
  | .lambda ⟨_, _⟩, ⟨p, each, pe⟩, ⟨q, each', qe⟩ =>
    ⟨imp _ p q, everywhereInParameters_of_imp imp _ each each', everywhere_of_imp imp _ pe qe⟩
  | .marked .., ⟨p, pe⟩, ⟨q, qe⟩ => ⟨imp _ p q, everywhereInOption_of_imp imp _ pe qe⟩
  | .slice .., ⟨p, pb, ps, pt⟩, ⟨q, qb, qs, qt⟩ =>
    ⟨imp _ p q, everywhere_of_imp imp _ pb qb, everywhereInOption_of_imp imp _ ps qs,
      everywhereInOption_of_imp imp _ pt qt⟩

theorem everywhereInItems_of_imp (imp : ∀ e, P e → Q e → R e) : ∀ items : List Expr,
    EverywhereInItems P items → EverywhereInItems Q items → EverywhereInItems R items
  | [], _, _ => trivial
  | _ :: _, ⟨p, ps⟩, ⟨q, qs⟩ => ⟨everywhere_of_imp imp _ p q, everywhereInItems_of_imp imp _ ps qs⟩

theorem everywhereInEntries_of_imp (imp : ∀ e, P e → Q e → R e) : ∀ entries : List (String × Expr),
    EverywhereInEntries P entries → EverywhereInEntries Q entries → EverywhereInEntries R entries
  | [], _, _ => trivial
  | (_, _) :: _, ⟨p, ps⟩, ⟨q, qs⟩ =>
    ⟨everywhere_of_imp imp _ p q, everywhereInEntries_of_imp imp _ ps qs⟩

theorem everywhereInArguments_of_imp (imp : ∀ e, P e → Q e → R e) : ∀ args : List Argument,
    EverywhereInArguments P args → EverywhereInArguments Q args → EverywhereInArguments R args
  | [], _, _ => trivial
  | .positional _ :: _, ⟨p, ps⟩, ⟨q, qs⟩ | .named .. :: _, ⟨p, ps⟩, ⟨q, qs⟩
  | .indexed .. :: _, ⟨p, ps⟩, ⟨q, qs⟩ | .spread _ :: _, ⟨p, ps⟩, ⟨q, qs⟩ =>
    ⟨everywhere_of_imp imp _ p q, everywhereInArguments_of_imp imp _ ps qs⟩

theorem everywhereInOption_of_imp (imp : ∀ e, P e → Q e → R e) : ∀ operand : Option Expr,
    EverywhereInOption P operand → EverywhereInOption Q operand → EverywhereInOption R operand
  | none, _, _ => trivial
  | some _, p, q => everywhere_of_imp imp _ p q

theorem everywhereInParameters_of_imp (imp : ∀ e, P e → Q e → R e) : ∀ params : List Parameter,
    EverywhereInParameters P params → EverywhereInParameters Q params →
      EverywhereInParameters R params
  | [], _, _ => trivial
  | ⟨_, _, _⟩ :: _, ⟨p, ps⟩, ⟨q, qs⟩ =>
    ⟨everywhereInOption_of_imp imp _ p q, everywhereInParameters_of_imp imp _ ps qs⟩

end

end

end Expr

end Cascade
