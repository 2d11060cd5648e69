import Cascade.Evaluation.Standard
import Cascade.Control.Choice
import Cascade.Proofs.PlainData
import Cascade.Proofs.RoundedInts

/-!
# Comparing ints

The order of two ints is that of integers, but their equality is that of the floats nearest to them
(`looseEq_int`). So `==` and `<` can both hold of two ints, and whatever asks for equality
(`contains`, `uniq`, the cases of a switch) takes such ints for one. This happens to ints of more
than 53 bits alone, and exactly to those that have one nearest float.

Each of the properties below fails as soon as two of the ints at hand have one nearest float, and
all of them hold otherwise (`comparedExactly_tfae`).

## Main definitions

* `Holds`, `ComparedExactly`: comparisons of two ints.
* `ContainsExactly`, `UniqExactly`, `SwitchExactly`: what is built on equality.
* `AreApart`: ints with different nearest floats.
-/

namespace Cascade

open Binary64

theorem natAbs_toInt_lt (n : Int64) : n.toInt.natAbs < 18446744073709551616 := by
  have low := n.le_toInt
  have high := n.toInt_lt
  omega

/-! ### Comparing two ints -/

/-- Equality of values sees of two ints only the floats nearest to them. -/
theorem looseEq_int (a b : Int64) :
    (Value.int a).looseEq (.int b) = decide (nearestInt a.toInt = nearestInt b.toInt) := by
  rw [Value.looseEq, Bool.eq_iff_iff, decide_eq_true_iff]
  exact ofInt_beq_iff (natAbs_toInt_lt a) (natAbs_toInt_lt b)

/-- The order of values looks at the ints themselves. -/
theorem order?_int (a b : Int64) :
    (Value.int a).order? (.int b) = some (Ord.compare a.toInt b.toInt) := rfl

/-- The comparison holds of two ints. -/
def Holds (op : ComparisonOp) (a b : Int64) : Prop :=
  compare op (.int a) (.int b) = .ok true

theorem holds_eq_iff (a b : Int64) : Holds .eq a b ↔ nearestInt a.toInt = nearestInt b.toInt := by
  unfold Holds compare
  simp only [looseEq_int, Except.ok.injEq, decide_eq_true_iff]

theorem holds_ne_iff (a b : Int64) : Holds .ne a b ↔ ¬Holds .eq a b := by
  rw [holds_eq_iff]
  unfold Holds compare
  simp only [looseEq_int, Except.ok.injEq, Bool.not_eq_true', decide_eq_false_iff_not]

theorem holds_lt_iff (a b : Int64) : Holds .lt a b ↔ a < b := by
  unfold Holds compare
  simp only [order?_int, Except.ok.injEq, beq_iff_eq, Int.compare_eq_lt, Int64.lt_iff_toInt_lt]

theorem holds_gt_iff (a b : Int64) : Holds .gt a b ↔ b < a := by
  unfold Holds compare
  simp only [order?_int, Except.ok.injEq, beq_iff_eq, Int.compare_eq_gt, Int64.lt_iff_toInt_lt]

theorem holds_le_iff (a b : Int64) : Holds .le a b ↔ a ≤ b := by
  unfold Holds compare
  simp only [order?_int, Except.ok.injEq, bne_iff_ne, Int.compare_ne_gt, Int64.le_iff_toInt_le]

theorem holds_ge_iff (a b : Int64) : Holds .ge a b ↔ b ≤ a := by
  unfold Holds compare
  simp only [order?_int, Except.ok.injEq, bne_iff_ne, Int.compare_ne_lt, Int64.le_iff_toInt_le]

/-- The comparisons of two ints are those of a total order, whose equality is that of integers. -/
structure ComparedExactly (a b : Int64) : Prop where
  /-- Every comparison has a truth value. -/
  decided : ∀ op, ∃ truth, compare op (.int a) (.int b) = .ok truth
  /-- One of the three ways in which integers can lie holds and excludes the others. -/
  exclusive : (Holds .lt a b ∧ ¬Holds .eq a b ∧ ¬Holds .gt a b) ∨
    (¬Holds .lt a b ∧ Holds .eq a b ∧ ¬Holds .gt a b) ∨
    (¬Holds .lt a b ∧ ¬Holds .eq a b ∧ Holds .gt a b)
  eq_iff : Holds .eq a b ↔ a = b
  ne_iff : Holds .ne a b ↔ ¬Holds .eq a b
  le_iff : Holds .le a b ↔ Holds .lt a b ∨ Holds .eq a b
  ge_iff : Holds .ge a b ↔ Holds .gt a b ∨ Holds .eq a b

theorem exists_compare (op : ComparisonOp) (a b : Int64) :
    ∃ truth, compare op (.int a) (.int b) = .ok truth := by
  cases op <;> exact ⟨_, rfl⟩

/-- Ints are compared exactly if and only if no two of them have one nearest float. -/
theorem comparedExactly_iff (a b : Int64) :
    ComparedExactly a b ↔ (nearestInt a.toInt = nearestInt b.toInt → a = b) := by
  constructor
  · intro exactly same
    exact exactly.eq_iff.mp ((holds_eq_iff a b).mpr same)
  · intro apart
    have equal : Holds .eq a b ↔ a = b := by
      rw [holds_eq_iff]
      exact ⟨apart, fun same => same ▸ rfl⟩
    refine ⟨fun op => exists_compare op a b, ?_, equal, holds_ne_iff a b, ?_, ?_⟩
    · rw [equal, holds_lt_iff, holds_gt_iff, ← Int64.toInt_inj, Int64.lt_iff_toInt_lt,
        Int64.lt_iff_toInt_lt]
      omega
    · rw [equal, holds_le_iff, holds_lt_iff, ← Int64.toInt_inj, Int64.lt_iff_toInt_lt,
        Int64.le_iff_toInt_le]
      omega
    · rw [equal, holds_ge_iff, holds_gt_iff, ← Int64.toInt_inj, Int64.lt_iff_toInt_lt,
        Int64.le_iff_toInt_le]
      omega

/-! ### Looking for an int -/

/-- No two of the ints have one nearest float. -/
def AreApart (ints : List Int64) : Prop :=
  ∀ a ∈ ints, ∀ b ∈ ints, nearestInt a.toInt = nearestInt b.toInt → a = b

/-- Ints of 53 bits are floats themselves. -/
theorem areApart_of_small {ints : List Int64}
    (small : ∀ n ∈ ints, n.toInt.natAbs ≤ 9007199254740992) : AreApart ints := by
  intro a aMember b bMember same
  rw [nearestInt_of_le (small a aMember), nearestInt_of_le (small b bMember)] at same
  exact Int64.toInt_inj.mp same

/-- The items are ints of a list, under any annotations. -/
def AreAmong (items : List Node) (ints : List Int64) : Prop :=
  ∀ item ∈ items, ∃ n ∈ ints, item.value = .int n

theorem AreApart.looseEq {ints : List Int64} (apart : AreApart ints) {item : Node} {b : Int64}
    (among : ∃ n ∈ ints, item.value = .int n) (member : b ∈ ints) :
    item.value.looseEq (.int b) = (item.value.asInt? == some b) := by
  obtain ⟨a, known, value⟩ := among
  rw [value, looseEq_int, Bool.eq_iff_iff, decide_eq_true_iff]
  show _ ↔ (some a == some b) = true
  rw [beq_iff_eq, Option.some_inj]
  exact ⟨apart a known b member, fun same => same ▸ rfl⟩

theorem any_congr_of_mem {α : Type} {items : List α} {p q : α → Bool}
    (agree : ∀ item ∈ items, p item = q item) : items.any p = items.any q := by
  rw [Bool.eq_iff_iff, List.any_eq_true, List.any_eq_true]
  refine exists_congr fun item => and_congr_right fun member => ?_
  rw [agree item member]

/-- `contains` finds an int in a list if and only if it is there. -/
def ContainsExactly (ints : List Int64) : Prop :=
  ∀ deeper items x binding, AreAmong items ints → x ∈ ints →
    Standard.contains deeper [.list items, .int x] binding =
      Standard.answer (.bool (items.any fun item => item.value.asInt? == some x))

theorem Eval.pure_inj {α : Type} {a b : α} (same : (pure a : Eval α) = pure b) : a = b := by
  have outcomes : some (Except.ok a, ({} : World)) = some (Except.ok b, {}) :=
    congrFun same {}
  cases outcomes
  rfl

theorem Standard.answer_inj {v w : Value} (same : answer v = answer w) : v = w :=
  congrArg Resolved.value (Eval.pure_inj same)

/-- An int without annotations. -/
def intNode (n : Int64) : Node := .plain (.int n) ""

theorem AreAmong.intNode {ints items : List Int64} (inside : ∀ n ∈ items, n ∈ ints) :
    AreAmong (items.map Cascade.intNode) ints := by
  intro item isItem
  obtain ⟨n, member, rfl⟩ := List.mem_map.mp isItem
  exact ⟨n, inside n member, rfl⟩

theorem containsExactly_iff (ints : List Int64) : ContainsExactly ints ↔ AreApart ints := by
  constructor
  · intro exactly a aMember b bMember same
    have among : AreAmong ([a].map intNode) ints := .intNode (by simpa using aMember)
    have found := exactly (Engine.standard.below 0) _ b emptyPlace among bMember
    have values : Value.bool ((Value.int a).looseEq (.int b) || false) =
        .bool (some a == some b || false) := Standard.answer_inj found
    rw [looseEq_int, decide_eq_true same] at values
    simpa using values
  · intro apart deeper items x binding among member
    have each : (items.any fun item => item.value.looseEq (.int x)) =
        items.any fun item => item.value.asInt? == some x :=
      any_congr_of_mem fun item isItem => apart.looseEq (among item isItem) member
    show Standard.answer (.bool (items.any fun item => item.value.looseEq (.int x))) = _
    rw [each]

/-! ### Dropping repeated ints -/

/-- The items are kept in order, but for those that a kept one before them is like. -/
theorem foldl_eq_eraseDupsBy {α : Type} (like : α → α → Bool) (items : List α) :
    items.foldl (fun kept item => if kept.any fun seen => like seen item then kept
      else kept ++ [item]) [] = items.eraseDupsBy fun item seen => like seen item := by
  have loop (kept : List α) : items.foldl (fun kept item =>
      if kept.any fun seen => like seen item then kept else kept ++ [item]) kept =
      List.eraseDupsBy.loop (fun item seen => like seen item) items kept.reverse := by
    induction items generalizing kept with
    | nil => rw [List.eraseDupsBy.loop, List.reverse_reverse, List.foldl_nil]
    | cons item rest ih =>
      rw [List.eraseDupsBy.loop, List.foldl_cons, ih, List.any_reverse]
      cases kept.any fun seen => like seen item
      · show List.eraseDupsBy.loop _ _ (kept ++ [item]).reverse = _
        rw [List.reverse_append]
        rfl
      · rfl
  exact loop []

theorem foldl_kept_congr {α : Type} {like : α → α → Bool} (like' : α → α → Bool)
    {items all kept : List α} (agree : ∀ a ∈ all, ∀ b ∈ all, like a b = like' a b)
    (inside : ∀ a ∈ items, a ∈ all) (known : ∀ a ∈ kept, a ∈ all) :
    items.foldl (fun kept item => if kept.any fun seen => like seen item then kept
        else kept ++ [item]) kept =
      items.foldl (fun kept item => if kept.any fun seen => like' seen item then kept
        else kept ++ [item]) kept := by
  induction items generalizing kept with
  | nil => rfl
  | cons item rest ih =>
    have here := inside item List.mem_cons_self
    have same : (kept.any fun seen => like seen item) = kept.any fun seen => like' seen item :=
      any_congr_of_mem fun seen isSeen => agree seen (known seen isSeen) item here
    rw [List.foldl_cons, List.foldl_cons, same]
    refine ih (fun a member => inside a (List.mem_cons_of_mem _ member)) ?_
    split
    · exact known
    · intro a member
      rcases List.mem_append.mp member with old | new
      · exact known a old
      · exact List.mem_singleton.mp new ▸ here

/-- `uniq` keeps the first item of every int. -/
def UniqExactly (ints : List Int64) : Prop :=
  ∀ deeper items binding, AreAmong items ints →
    Standard.uniq deeper [.list items] binding =
      Standard.answer (.list (items.eraseDupsBy fun item seen =>
        seen.value.asInt? == item.value.asInt?))

theorem uniqExactly_iff (ints : List Int64) : UniqExactly ints ↔ AreApart ints := by
  constructor
  · intro exactly a aMember b bMember same
    have among : AreAmong ([a, b].map intNode) ints :=
      .intNode (by simpa using ⟨aMember, bMember⟩)
    have kept := exactly (Engine.standard.below 0) _ emptyPlace among
    -- Of two ints that are taken for one the second is dropped.
    have first : Standard.uniq (Engine.standard.below 0) [.list ([a, b].map intNode)] emptyPlace =
        Standard.answer (.list [intNode a]) := by
      show Standard.answer (.list (if (Value.int a).looseEq (.int b) || false then _ else _)) = _
      rw [looseEq_int, decide_eq_true same]
      rfl
    by_contra differ
    have both : (([a, b].map intNode).eraseDupsBy fun item seen =>
        seen.value.asInt? == item.value.asInt?) = [intNode a, intNode b] := by
      simp [List.eraseDupsBy, List.eraseDupsBy.loop, intNode, Node.plain, Value.asInt?,
        beq_eq_false_iff_ne.mpr differ]
    rw [first, both] at kept
    cases Standard.answer_inj kept
  · intro apart deeper items binding among
    have agree : ∀ a ∈ items, ∀ b ∈ items, a.value.looseEq b.value =
        (a.value.asInt? == b.value.asInt?) := by
      intro a aItem b bItem
      obtain ⟨n, known, value⟩ := among b bItem
      rw [value]
      exact apart.looseEq (among a aItem) known
    show Standard.answer (.list (items.foldl (fun kept item =>
      if kept.any fun seen => seen.value.looseEq item.value then kept else kept ++ [item]) [])) = _
    rw [foldl_kept_congr (fun a b => a.value.asInt? == b.value.asInt?) agree
      (fun _ member => member) (fun _ member => absurd member List.not_mem_nil),
      foldl_eq_eraseDupsBy]

/-! ### Choosing a case -/

/-- A case for an int. -/
def caseEntry (c : Int64 × Node) : Node :=
  .plain (.map [("case", intNode c.1), ("value", c.2)]) ""

/-- A switch over an int takes the value of the first case for it. -/
def SwitchExactly (ints : List Int64) : Prop :=
  ∀ engine deeper fuel (context : ControlContext) x (cases : List (Int64 × Node)),
    context.value.value = .int x → x ∈ ints → (∀ c ∈ cases, c.1 ∈ ints) →
    (context.option? "cases").map Node.value = some (.list (cases.map caseEntry)) →
    switchCase deeper (flowComplete engine (flowNode engine deeper (fuel + 1))) context =
      pure ((cases.find? fun c => c.1 == x).map Prod.snd)

theorem flowComplete_intNode {engine : Engine} {deeper : Deeper} {fuel : Nat} (n : Int64)
    (binding : Binding) :
    flowComplete engine (flowNode engine deeper (fuel + 1)) (intNode n) binding =
      pure (intNode n) := rfl

theorem selectCase_ints {engine : Engine} {deeper : Deeper} {fuel : Nat} {context : ControlContext}
    {x : Int64} (value : context.value.value = .int x) (place : Binding)
    (cases : List (Int64 × Node)) (index : Nat) :
    selectCase deeper (flowComplete engine (flowNode engine deeper (fuel + 1))) context place index
        (cases.map caseEntry) =
      pure ((cases.find? fun c => (Value.int c.1).looseEq (.int x)).map Prod.snd) := by
  induction cases generalizing index with
  | nil => rfl
  | cons c rest ih =>
    rw [List.map_cons, List.find?_cons]
    show (flowComplete engine (flowNode engine deeper (fuel + 1)) (intNode c.1) _ >>=
      fun _ => _) = _
    rw [flowComplete_intNode, pure_bind]
    show (pure ((Value.int c.1).looseEq context.value.value) >>= fun _ => _) = _
    rw [pure_bind, value]
    cases (Value.int c.1).looseEq (.int x)
    · exact ih (index + 1)
    · rfl

/-- A switch over an int with cases. -/
def switchContext (x : Int64) (cases : List (Int64 × Node)) : ControlContext where
  name := "switch"
  value := intNode x
  node := .plain .nil ""
  fields := []
  options := [("cases", .plain (.list (cases.map caseEntry)) "")]
  binding := emptyPlace

theorem switchExactly_iff (ints : List Int64) : SwitchExactly ints ↔ AreApart ints := by
  constructor
  · intro exactly a aMember b bMember same
    have inside : ∀ c ∈ [(a, intNode a)], c.1 ∈ ints := by simpa using aMember
    have chosen := exactly Engine.standard (Engine.standard.below 0) 0
      (switchContext b [(a, intNode a)]) b [(a, intNode a)] rfl bMember inside rfl
    have found : switchCase (Engine.standard.below 0)
        (flowComplete Engine.standard (flowNode Engine.standard (Engine.standard.below 0) 1))
        (switchContext b [(a, intNode a)]) = pure (some (intNode a)) := by
      refine (selectCase_ints rfl _ [(a, intNode a)] 0).trans ?_
      rw [List.find?_cons, looseEq_int, decide_eq_true same]
      rfl
    rw [found, List.find?_cons, List.find?_nil] at chosen
    by_contra differ
    rw [beq_eq_false_iff_ne.mpr differ] at chosen
    cases Eval.pure_inj chosen
  · intro apart engine deeper fuel context x cases value member inside written
    have alike : ∀ c ∈ cases, (Value.int c.1).looseEq (.int x) = (c.1 == x) := by
      intro c isCase
      rw [looseEq_int, Bool.eq_iff_iff, decide_eq_true_iff, beq_iff_eq]
      exact ⟨apart c.1 (inside c isCase) x member, fun same => same ▸ rfl⟩
    unfold switchCase
    rw [written]
    show selectCase _ _ _ _ _ _ = _
    rw [selectCase_ints value, List.find?_congr alike]

/-! ### Ints told apart -/

/-- The comparisons of ints are those of a total order whose equality is that of integers, and
nothing built on equality confuses two ints, exactly if the ints have different nearest floats. -/
theorem comparedExactly_tfae (ints : List Int64) : List.TFAE [
    AreApart ints,
    ∀ a ∈ ints, ∀ b ∈ ints, ComparedExactly a b,
    ContainsExactly ints,
    UniqExactly ints,
    SwitchExactly ints] := by
  tfae_have 1 ↔ 2 := by
    constructor
    · intro apart a aMember b bMember
      exact (comparedExactly_iff a b).mpr (apart a aMember b bMember)
    · intro exactly a aMember b bMember
      exact (comparedExactly_iff a b).mp (exactly a aMember b bMember)
  tfae_have 3 ↔ 1 := containsExactly_iff ints
  tfae_have 4 ↔ 1 := uniqExactly_iff ints
  tfae_have 5 ↔ 1 := switchExactly_iff ints
  tfae_finish

/-- Ints of any size may be apart. -/
theorem comparedExactly_limits :
    ∀ a ∈ [-0x8000000000000000, -9007199254740993, 0, 9007199254740992, 0x7FFFFFFFFFFFFFFF],
      ∀ b ∈ [-0x8000000000000000, -9007199254740993, 0, 9007199254740992, 0x7FFFFFFFFFFFFFFF],
        ComparedExactly a b := by
  have distinct : ([-0x8000000000000000, -9007199254740993, 0, 9007199254740992,
      0x7FFFFFFFFFFFFFFF].map fun n : Int64 => nearestInt n.toInt).Nodup := by decide +kernel
  refine ((comparedExactly_tfae _).out 0 1).mp fun a aMember b bMember same => ?_
  exact List.inj_on_of_nodup_map distinct aMember bMember same

/-- Of two neighbours of 54 bits one is found to be less than the other and equal to it. -/
theorem confused_neighbours :
    Holds .lt 9007199254740992 9007199254740993 ∧ Holds .eq 9007199254740992 9007199254740993 ∧
      ¬ContainsExactly [9007199254740992, 9007199254740993] ∧
      ¬UniqExactly [9007199254740992, 9007199254740993] ∧
      ¬SwitchExactly [9007199254740992, 9007199254740993] := by
  have same : nearestInt (9007199254740992 : Int64).toInt =
      nearestInt (9007199254740993 : Int64).toInt := by decide +kernel
  have confused : ¬AreApart [9007199254740992, 9007199254740993] := by
    intro apart
    exact absurd (apart _ (by simp) _ (by simp) same) (by decide)
  rw [holds_lt_iff, holds_eq_iff, containsExactly_iff, uniqExactly_iff, switchExactly_iff]
  exact ⟨by decide, same, confused, confused, confused⟩

end Cascade
