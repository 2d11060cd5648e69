import Mathlib.Data.List.Perm.Subperm
import Mathlib.Data.Option.Defs
import Cascade.Proofs.Diagnostics

/-!
# Currying

A lambda that is given its arguments in several portions ends with the same slots as one that is
given all of them at once. The search for free slots starts from the first parameter again with each
portion, while within one portion it goes on from the last slot that it filled. Both find the same
slot, because no slot before that one is free any more; and what a portion leaves in the slot of a
variadic parameter is taken up by the next one.

## Main definitions

* `ArgumentBinding.IsPacked`: no slot is free before the place where the search goes on.
* `ArgumentBinding.Resumes`: a binding goes on where an earlier portion of arguments ended.
* `Lambda.IsWellBound`: the slots of a lambda belong to its parameters.

## Main statements

* `ArgumentBinding.Resumes.foldlM`: what a portion of arguments does to both bindings.
* `Lambda.bindArguments_append`: binding in portions fills the same slots as binding at once.
* `Lambda.bindArguments_curried`: the same of values that were curried before, any number of times.
-/

namespace Cascade

theorem map_eq_of_rel {α β γ : Type} {R : α → β → Prop} {f : α → γ} {g : β → γ}
    {first : Option α} {second : Option β} (related : Option.Rel R first second)
    (same : ∀ a b, R a b → g b = f a) : second.map g = first.map f := by
  cases related with
  | some holds => exact congrArg some (same _ _ holds)
  | none => rfl

/-- What every step keeps holds in the end. -/
theorem holds_of_foldlM {ε α β : Type} {P : β → Prop} {step : β → α → Except ε β} {items : List α}
    {start last : β} (keeps : ∀ b a c, P b → step b a = .ok c → P c) (first : P start)
    (done : items.foldlM step start = .ok last) : P last := by
  induction items generalizing start with
  | nil =>
    cases done
    exact first
  | cons item rest ih =>
    rw [List.foldlM_cons] at done
    cases next : step start item with
    | error failure =>
      rw [next] at done
      cases done
    | ok middle =>
      rw [next] at done
      exact ih (keeps _ _ _ first next) done

/-! ### Slots -/

namespace Slots

variable {slots : Slots} {position other : Nat} {node later : Node}

theorem find?_insert :
    (slots.insert position node).find? other =
      if position = other then some node else slots.find? other := by
  induction slots with
  | nil => rfl
  | cons slot rest ih =>
    obtain ⟨i, old⟩ := slot
    rw [insert]
    split
    · rfl
    · split
      · next same =>
        subst same
        by_cases here : position = other <;> simp [find?, here]
      · next differs =>
        rw [find?, find?, ih]
        by_cases here : i = other
        · subst here
          simp [differs]
        · simp [here]

/-- The last argument of a slot counts. -/
theorem insert_insert :
    (slots.insert position node).insert position later = slots.insert position later := by
  induction slots with
  | nil => simp [insert]
  | cons slot rest ih =>
    obtain ⟨i, old⟩ := slot
    by_cases before : position < i
    · simp [insert, before]
    · by_cases same : position = i
      · simp [insert, same]
      · simp [insert, before, same, ih]

variable {variadic : Option Nat} {count first next : Nat}

/-- A search may as well start behind slots that are taken. -/
theorem nextFree_of_taken (order : first ≤ next) (bound : next ≤ count)
    (taken : ∀ i, first ≤ i → i < next → variadic ≠ some i ∧ (slots.find? i).isSome) :
    slots.nextFree variadic count first = slots.nextFree variadic count next := by
  have parts : List.range' first (count - first) =
      List.range' first (next - first) ++ List.range' next (count - next) := by
    have split : List.range' first (next - first) ++
        List.range' (first + (next - first)) (count - next) =
          List.range' first (next - first + (count - next)) := List.range'_append_1
    rw [show first + (next - first) = next by omega,
      show next - first + (count - next) = count - first by omega] at split
    exact split.symm
  have none : (List.range' first (next - first)).find? (fun i =>
      variadic == some i || (slots.find? i).isNone) = none := by
    rw [List.find?_eq_none]
    intro i member
    have range := List.mem_range'_1.mp member
    obtain ⟨fixed, filled⟩ := taken i range.1 (by omega)
    obtain ⟨node, found⟩ := Option.isSome_iff_exists.mp filled
    simp [fixed, found]
  rw [nextFree, parts, List.find?_append, none, Option.none_or, nextFree]

/-- Slots that a search passes over are taken. -/
theorem taken_of_nextFree {i : Nat} (order : next ≤ i)
    (passed : i < slots.nextFree variadic count next) :
    variadic ≠ some i ∧ (slots.find? i).isSome := by
  rw [nextFree] at passed
  cases found : (List.range' next (count - next)).find? (fun i =>
      variadic == some i || (slots.find? i).isNone) with
  | none =>
    rw [found, Option.getD_none] at passed
    have inRange : i ∈ List.range' next (count - next) := List.mem_range'_1.mpr (by omega)
    have full := List.find?_eq_none.mp found i inRange
    simpa [Option.ne_none_iff_isSome] using full
  | some free =>
    rw [found, Option.getD_some] at passed
    obtain ⟨-, before, after, split, skipped⟩ := List.find?_eq_some_iff_append.mp found
    have inRange : i ∈ List.range' next (count - next) := by
      have member := List.mem_range'_1.mp (List.mem_of_find?_eq_some found)
      exact List.mem_range'_1.mpr (by omega)
    have early : i ∈ before := by
      rw [split] at inRange
      rcases List.mem_append.mp inRange with early | late
      · exact early
      · have increasing : (before ++ free :: after).Pairwise (· < ·) := by
          rw [← split]
          exact List.pairwise_lt_range'
        have ordered := (List.pairwise_append.mp increasing).2.1
        rcases List.mem_cons.mp late with rfl | later
        · omega
        · have := (List.pairwise_cons.mp ordered).1 i later
          omega
    have full := skipped i early
    simpa [Option.ne_none_iff_isSome] using full

/-- A search stops at a variadic parameter. -/
theorem nextFree_variadic (inside : next < count) :
    slots.nextFree (some next) count next = next := by
  obtain ⟨more, rfl⟩ := Nat.exists_eq_add_of_lt inside
  rw [nextFree, show next + more + 1 - next = more + 1 by omega, List.range'_succ,
    List.find?_cons_of_pos (by simp)]
  rfl

/-- A search does not see the argument of a variadic parameter. -/
theorem nextFree_insert_variadic {slot : Nat} :
    (slots.insert slot node).nextFree (some slot) count next =
      slots.nextFree (some slot) count next := by
  have same : ∀ i, (some slot == some i || ((slots.insert slot node).find? i).isNone) =
      (some slot == some i || (slots.find? i).isNone) := by
    intro i
    rw [find?_insert]
    by_cases here : slot = i <;> simp [here]
  simp only [nextFree, same]

end Slots

/-! ### Bindings in progress -/

/-- The argument is given by its place among the others. -/
def ArgumentValue.isPositional : ArgumentValue → Bool
  | .positional _ => true
  | _ => false

namespace ArgumentBinding

/-- No slot is free before the place where the search goes on; and once arguments are collected, it
goes on at the variadic parameter. -/
structure IsPacked (l : LambdaExpr) (b : ArgumentBinding) : Prop where
  bound : b.next ≤ l.params.length
  taken : ∀ i < b.next, l.variadicPosition? ≠ some i ∧ (b.slots.find? i).isSome
  full : b.collected ≠ [] → l.variadicPosition? = some b.next

/-- A binding `b'` goes on where an earlier portion of arguments ended, and `b` has done both
portions at once. The nodes that the earlier portion collected are in the variadic slot of `b'`. -/
structure Resumes (l : LambdaExpr) (early : List Node) (b b' : ArgumentBinding) : Prop where
  packed : b.IsPacked l
  packed' : b'.IsPacked l
  slots : b'.slots = finish l { b with collected := early }
  collected : b.collected = early ++ b'.collected

variable {l : LambdaExpr} {early : List Node} {b b' c : ArgumentBinding}
  {argument : ArgumentValue} {args : List ArgumentValue}

theorem finish_of_no_variadic (fixed : l.variadicPosition? = none) : finish l b = b.slots := by
  rw [finish, fixed]

theorem finish_nil (slots : Slots) (next given : Nat) : finish l ⟨slots, [], next, given⟩ = slots := by
  cases slot : l.variadicPosition? <;> simp only [finish, slot]

section

variable {position : Nat} {slots : Slots} {node : Node} {nodes : List Node} {next given : Nat}

theorem finish_of_list {items : List Node} {annotations : Annotations} {source : String}
    (slot : l.variadicPosition? = some position)
    (known : slots.find? position = some ⟨.list items, annotations, source⟩) :
    finish l ⟨slots, node :: nodes, next, given⟩ =
      slots.insert position ⟨.list (items ++ node :: nodes), annotations, source⟩ := by
  simp only [finish, slot, known]

/-- Collected nodes go behind the list that the variadic slot has, if it has one. -/
theorem finish_cons (slot : l.variadicPosition? = some position) (slots : Slots) (node : Node) :
    ∃ items annotations source, ∀ nodes next given,
      finish l ⟨slots, node :: nodes, next, given⟩ =
        slots.insert position ⟨.list (items ++ node :: nodes), annotations, source⟩ := by
  by_cases isList : ∃ items annotations source,
      slots.find? position = some ⟨.list items, annotations, source⟩
  · obtain ⟨items, annotations, source, known⟩ := isList
    exact ⟨items, annotations, source, fun nodes next given => finish_of_list slot known⟩
  · refine ⟨[], {}, node.source, fun nodes next given => ?_⟩
    simp only [finish, slot]
    split
    · next items annotations source known => exact absurd ⟨items, annotations, source, known⟩ isList
    · rfl

/-- What is collected later goes behind what was collected earlier. -/
theorem finish_finish (slots : Slots) (first later : List Node) (next given next' given' : Nat) :
    finish l ⟨finish l ⟨slots, first, next, given⟩, later, next', given'⟩ =
      finish l ⟨slots, first ++ later, next, given⟩ := by
  cases slot : l.variadicPosition? with
  | none => simp only [finish_of_no_variadic slot]
  | some position =>
    cases first with
    | nil => rw [finish_nil, List.nil_append, finish, finish]
    | cons node rest =>
      cases later with
      | nil =>
        rw [List.append_nil, finish_nil]
      | cons more others =>
        obtain ⟨items, annotations, source, collects⟩ := finish_cons slot slots node
        have kept : (slots.insert position
            ⟨.list (items ++ node :: rest), annotations, source⟩).find? position =
              some ⟨.list (items ++ node :: rest), annotations, source⟩ := by
          rw [Slots.find?_insert, if_pos rfl]
        rw [List.cons_append, collects, collects, finish_of_list slot kept, Slots.insert_insert,
          List.append_assoc, List.cons_append]

end

theorem lt_of_variadicPosition? {position : Nat} (variadic : l.variadicPosition? = some position) :
    position < l.params.length := by
  rw [LambdaExpr.variadicPosition?] at variadic
  split at variadic
  · next last known =>
    have present : l.params ≠ [] := by
      rintro empty
      rw [empty] at known
      cases known
    have long := List.length_pos_iff.mpr present
    split at variadic
    · cases variadic
      omega
    · cases variadic
  · cases variadic

/-- The search finds the slot that one from the first parameter on would find. -/
theorem IsPacked.nextFree_eq (packed : b.IsPacked l) :
    b.slots.nextFree l.variadicPosition? l.params.length b.next =
      b.slots.nextFree l.variadicPosition? l.params.length 0 :=
  (Slots.nextFree_of_taken (Nat.zero_le _) packed.bound fun i _ => packed.taken i).symm

/-- Once something is collected, every search ends at the variadic parameter. -/
theorem IsPacked.variadic_of_collected (packed : b.IsPacked l) (collected : b.collected ≠ []) :
    l.variadicPosition? =
      some (b.slots.nextFree l.variadicPosition? l.params.length b.next) := by
  have variadic := packed.full collected
  rw [variadic, Slots.nextFree_variadic (lt_of_variadicPosition? variadic)]

/-- Setting a slot takes none away. -/
theorem IsPacked.insert (packed : b.IsPacked l) (position : Nat) (node : Node) :
    IsPacked l { b with slots := b.slots.insert position node } := by
  refine ⟨packed.bound, fun i before => ⟨(packed.taken i before).1, ?_⟩, packed.full⟩
  rw [Slots.find?_insert]
  split
  · rfl
  · exact (packed.taken i before).2

theorem IsPacked.add (packed : b.IsPacked l) (added : b.add l argument = .ok c) : c.IsPacked l := by
  cases argument with
  | positional node =>
    have passed : ∀ i < b.slots.nextFree l.variadicPosition? l.params.length b.next,
        l.variadicPosition? ≠ some i ∧ (b.slots.find? i).isSome := by
      rw [packed.nextFree_eq]
      exact fun i before => Slots.taken_of_nextFree (Nat.zero_le i) before
    rw [ArgumentBinding.add] at added
    split at added
    · next variadic =>
      cases added
      have variadic := eq_of_beq variadic
      exact ⟨Nat.le_of_lt (lt_of_variadicPosition? variadic), passed, fun _ => variadic⟩
    · next fixed =>
      split at added
      · next inside =>
        cases added
        refine ⟨inside, fun i before => ?_, fun collected => ?_⟩
        · rw [Slots.find?_insert]
          rcases Nat.lt_or_eq_of_le (Nat.lt_succ_iff.mp before) with earlier | here
          · obtain ⟨other, filled⟩ := passed i earlier
            refine ⟨other, ?_⟩
            split
            · rfl
            · exact filled
          · rw [here, if_pos rfl]
            exact ⟨fun variadic => fixed (beq_iff_eq.mpr variadic), rfl⟩
        · exact absurd (beq_iff_eq.mpr (packed.variadic_of_collected collected)) fixed
      · cases added
  | named name node =>
    rw [ArgumentBinding.add] at added
    split at added
    · cases added
      exact packed.insert _ node
    · cases added
  | indexed index node =>
    rw [ArgumentBinding.add] at added
    split at added
    · cases added
    · cases added
      exact packed.insert _ node

/-! ### Two bindings side by side -/

/-- In the end both bindings have the same slots. -/
theorem Resumes.finish_eq (resumes : Resumes l early b b') : finish l b' = finish l b := by
  calc finish l b'
    _ = finish l ⟨finish l ⟨b.slots, early, b.next, b.given⟩, b'.collected, b'.next, b'.given⟩ := by
      rw [← resumes.slots]
    _ = finish l ⟨b.slots, early ++ b'.collected, b.next, b.given⟩ := finish_finish ..
    _ = finish l b := by rw [← resumes.collected]

theorem Resumes.slots_of_fixed (resumes : Resumes l early b b') (fixed : l.variadicPosition? = none) :
    b'.slots = b.slots := by
  rw [resumes.slots, finish_of_no_variadic fixed]

/-- Both searches end at the same slot. -/
theorem Resumes.nextFree_eq (resumes : Resumes l early b b') :
    b'.slots.nextFree l.variadicPosition? l.params.length b'.next =
      b.slots.nextFree l.variadicPosition? l.params.length b.next := by
  rw [resumes.packed.nextFree_eq, resumes.packed'.nextFree_eq]
  cases slot : l.variadicPosition? with
  | none => rw [resumes.slots_of_fixed slot]
  | some position =>
    cases early with
    | nil => rw [resumes.slots, finish_nil]
    | cons node nodes =>
      obtain ⟨items, annotations, source, collects⟩ := finish_cons slot b.slots node
      rw [resumes.slots, collects, Slots.nextFree_insert_variadic]

/-- Setting a slot keeps both bindings together, as long as no list of a variadic parameter is
set. -/
theorem Resumes.insert (resumes : Resumes l early b b') (position : Nat) (node : Node)
    (apart : l.variadicPosition? = none ∨ early = []) :
    Resumes l early { b with slots := b.slots.insert position node }
      { b' with slots := b'.slots.insert position node } := by
  refine ⟨resumes.packed.insert position node, resumes.packed'.insert position node, ?_,
    resumes.collected⟩
  rw [resumes.slots]
  rcases apart with fixed | rfl
  · rw [finish_of_no_variadic fixed, finish_of_no_variadic fixed]
  · rw [finish_nil, finish_nil]

/-- The same argument either goes to the same place in both bindings, or fits into neither. -/
theorem Resumes.add (resumes : Resumes l early b b')
    (fits : l.variadicPosition? = none ∨ argument.isPositional = true) :
    Option.Rel (Resumes l early) (b.add l argument).toOption (b'.add l argument).toOption := by
  cases argument with
  | positional node =>
    have here : b.add l (.positional node) = _ := ArgumentBinding.add.eq_1 ..
    have there : b'.add l (.positional node) = _ := ArgumentBinding.add.eq_1 ..
    rw [resumes.nextFree_eq] at there
    by_cases variadic : (l.variadicPosition? ==
        some (b.slots.nextFree l.variadicPosition? l.params.length b.next)) = true
    · rw [if_pos variadic] at here there
      rw [here, there]
      refine .some ⟨resumes.packed.add here, resumes.packed'.add there, resumes.slots, ?_⟩
      rw [resumes.collected, List.append_assoc]
    · rw [if_neg variadic] at here there
      by_cases inside : b.slots.nextFree l.variadicPosition? l.params.length b.next < l.params.length
      · rw [if_pos inside] at here there
        rw [here, there]
        have apart : l.variadicPosition? = none ∨ early = [] := by
          refine .inr (Classical.byContradiction fun some => variadic (beq_iff_eq.mpr ?_))
          refine resumes.packed.variadic_of_collected fun none => some ?_
          rw [resumes.collected] at none
          exact (List.append_eq_nil_iff.mp none).1
        refine .some ⟨resumes.packed.add here, resumes.packed'.add there, ?_, resumes.collected⟩
        exact (resumes.insert _ node apart).slots
      · rw [if_neg inside] at here there
        rw [here, there]
        exact .none
  | named name node =>
    have fixed : l.variadicPosition? = none := by simpa [ArgumentValue.isPositional] using fits
    rw [ArgumentBinding.add, ArgumentBinding.add]
    split
    · exact .some (resumes.insert _ node (.inl fixed))
    · exact .none
  | indexed index node =>
    have fixed : l.variadicPosition? = none := by simpa [ArgumentValue.isPositional] using fits
    rw [ArgumentBinding.add, ArgumentBinding.add]
    split
    · exact .none
    · exact .some (resumes.insert _ node (.inl fixed))

/-- A portion of arguments does the same to both bindings, or fails in both. -/
theorem Resumes.foldlM (resumes : Resumes l early b b')
    (fits : l.variadicPosition? = none ∨ ∀ argument ∈ args, argument.isPositional = true) :
    Option.Rel (Resumes l early) (args.foldlM (ArgumentBinding.add l) b).toOption
      (args.foldlM (ArgumentBinding.add l) b').toOption := by
  induction args generalizing b b' with
  | nil => exact .some resumes
  | cons argument rest ih =>
    have step := resumes.add
      (fits.imp_right fun positional => positional argument List.mem_cons_self)
    rw [List.foldlM_cons, List.foldlM_cons]
    cases first : b.add l argument with
    | error failure =>
      cases second : b'.add l argument with
      | error other => exact .none
      | ok c =>
        rw [first, second] at step
        cases step
    | ok c =>
      cases second : b'.add l argument with
      | error other =>
        rw [first, second] at step
        cases step
      | ok c' =>
        rw [first, second] at step
        cases step with
        | some resumes =>
          exact ih resumes (fits.imp_right fun positional other member =>
            positional other (List.mem_cons_of_mem _ member))

end ArgumentBinding

namespace Lambda

open ArgumentBinding

variable {l : Lambda}

theorem isPacked_start (l : LambdaExpr) (slots : Slots) (given : Nat) :
    IsPacked l ⟨slots, [], 0, given⟩ :=
  ⟨Nat.zero_le _, fun i before => absurd before (Nat.not_lt_zero i), fun some => absurd rfl some⟩

theorem toOption_bindArguments (l : Lambda) (args : List ArgumentValue) :
    (l.bindArguments args).toOption =
      (args.foldlM (ArgumentBinding.add l.expr) ⟨l.bound, [], 0, l.bound.length⟩).toOption.map
        (finish l.expr) := by
  rw [bindArguments]
  cases args.foldlM (ArgumentBinding.add l.expr) ⟨l.bound, [], 0, l.bound.length⟩ <;> rfl

/-- Binding arguments in two portions fills the same slots as binding all of them at once. -/
theorem bindArguments_append (l : Lambda) (first later : List ArgumentValue)
    (fits : l.expr.variadicPosition? = none ∨ ∀ argument ∈ later, argument.isPositional = true) :
    (l.curry first >>= fun curried => curried.bindArguments later).toOption =
      (l.bindArguments (first ++ later)).toOption := by
  rw [toOption_bindArguments, curry, bindArguments, List.foldlM_append]
  cases start : first.foldlM (ArgumentBinding.add l.expr) ⟨l.bound, [], 0, l.bound.length⟩ with
  | error failure => rfl
  | ok b =>
    have packed : IsPacked l.expr b :=
      holds_of_foldlM (fun _ _ _ packed added => packed.add added) (isPacked_start _ _ _) start
    have resumes : Resumes l.expr b.collected b
        ⟨b.finish l.expr, [], 0, (b.finish l.expr).length⟩ :=
      ⟨packed, isPacked_start _ _ _, rfl, (List.append_nil _).symm⟩
    change (Lambda.bindArguments ⟨l.expr, l.scope, b.finish l.expr⟩ later).toOption =
      (later.foldlM (ArgumentBinding.add l.expr) b).toOption.map (finish l.expr)
    rw [toOption_bindArguments]
    exact map_eq_of_rel (resumes.foldlM fits) fun c c' resumed => resumed.finish_eq

end Lambda

/-! ### Slots of parameters -/

/-- The slots are in order, and each belongs to one of `count` parameters. -/
structure Slots.AreWithin (count : Nat) (slots : Slots) : Prop where
  ordered : (slots.map Prod.fst).Pairwise (· < ·)
  inside : ∀ slot ∈ slots, slot.1 < count

namespace Slots.AreWithin

variable {count position : Nat} {node : Node} {slots : Slots}

theorem insert (within : slots.AreWithin count) (inside : position < count) :
    (slots.insert position node).AreWithin count := by
  refine ⟨?_, fun slot member => ?_⟩
  · have ordered := within.ordered
    clear within
    induction slots with
    | nil => exact List.pairwise_singleton ..
    | cons slot rest ih =>
      obtain ⟨i, old⟩ := slot
      obtain ⟨least, tail⟩ := List.pairwise_cons.mp ordered
      rw [Slots.insert]
      split
      · next before =>
        refine List.pairwise_cons.mpr ⟨fun other member => ?_, ordered⟩
        rcases List.mem_cons.mp member with rfl | later
        · exact before
        · exact Nat.lt_trans before (least other later)
      · split
        · next same =>
          subst same
          exact List.pairwise_cons.mpr ⟨least, tail⟩
        · refine List.pairwise_cons.mpr ⟨fun other member => ?_, ih tail⟩
          obtain ⟨slot, isSlot, rfl⟩ := List.mem_map.mp member
          rcases mem_insert isSlot with rfl | known
          · show i < position
            omega
          · exact least slot.1 (List.mem_map_of_mem known)
  · rcases mem_insert member with rfl | known
    · exact inside
    · exact within.inside slot known

/-- There are no more slots than parameters. -/
theorem length_le (within : slots.AreWithin count) : slots.length ≤ count := by
  have distinct : (slots.map Prod.fst).Nodup := within.ordered.imp fun less => Nat.ne_of_lt less
  have known : slots.map Prod.fst ⊆ List.range count := by
    intro i member
    obtain ⟨slot, isSlot, rfl⟩ := List.mem_map.mp member
    exact List.mem_range.mpr (within.inside slot isSlot)
  calc slots.length
    _ = (slots.map Prod.fst).length := (List.length_map _).symm
    _ ≤ (List.range count).length := (List.subperm_of_subset distinct known).length_le
    _ = count := List.length_range

end Slots.AreWithin

namespace ArgumentBinding

variable {l : LambdaExpr} {b c : ArgumentBinding} {argument : ArgumentValue}

theorem areWithin_add (within : b.slots.AreWithin l.params.length)
    (added : b.add l argument = .ok c) : c.slots.AreWithin l.params.length := by
  cases argument with
  | positional node =>
    rw [ArgumentBinding.add] at added
    split at added
    · cases added
      exact within
    · split at added
      · next inside =>
        cases added
        exact within.insert inside
      · cases added
  | named name node =>
    rw [ArgumentBinding.add] at added
    split at added
    · next position known =>
      cases added
      exact within.insert (List.findIdx?_eq_some_iff_getElem.mp known).1
    · cases added
  | indexed index node =>
    rw [ArgumentBinding.add] at added
    split at added
    · cases added
    · next inside =>
      cases added
      exact within.insert (by omega)

theorem areWithin_finish (within : b.slots.AreWithin l.params.length) :
    (b.finish l).AreWithin l.params.length := by
  rw [finish]
  split
  · next position first rest slot collected =>
    split <;> exact within.insert (lt_of_variadicPosition? slot)
  · exact within

end ArgumentBinding

namespace Lambda

open ArgumentBinding

variable {l : Lambda}

/-- The slots of a lambda belong to its parameters. -/
abbrev IsWellBound (l : Lambda) : Prop := Slots.AreWithin l.expr.params.length l.bound

theorem IsWellBound.curry {curried : Lambda} {args : List ArgumentValue} (bound : l.IsWellBound)
    (done : l.curry args = .ok curried) : curried.IsWellBound := by
  rw [Lambda.curry, bindArguments] at done
  cases start : args.foldlM (ArgumentBinding.add l.expr) ⟨l.bound, [], 0, l.bound.length⟩ with
  | error failure =>
    rw [start] at done
    cases done
  | ok b =>
    rw [start] at done
    cases done
    exact areWithin_finish (holds_of_foldlM (P := fun b => b.slots.AreWithin l.expr.params.length)
      (fun _ _ _ within added => areWithin_add within added) bound start)

theorem IsWellBound.foldlM_curry {curried : Lambda} {portions : List (List ArgumentValue)}
    (bound : l.IsWellBound) (done : portions.foldlM Lambda.curry l = .ok curried) :
    curried.IsWellBound :=
  holds_of_foldlM (fun _ _ _ bound done => IsWellBound.curry bound done) bound done

/-- Binding arguments in two portions, as currying does, has the same outcome as binding them at
once: the same slots with the same nodes, or none. And a lambda that was given arguments in any
number of portions has slots for its parameters only, so the open ones can be counted. -/
theorem bindArguments_curried (l : Lambda) :
    (∀ first later : List ArgumentValue,
      (l.expr.variadicPosition? = none ∨
        ∀ argument ∈ later, argument.isPositional = true) →
      (l.curry first >>= fun curried => curried.bindArguments later).toOption =
        (l.bindArguments (first ++ later)).toOption) ∧
    (l.bound = [] → ∀ (portions : List (List ArgumentValue)) (curried : Lambda),
      portions.foldlM Lambda.curry l = .ok curried →
      (∀ slot ∈ curried.bound, slot.1 < curried.expr.params.length) ∧
      curried.openParameters + curried.bound.length = curried.expr.params.length) := by
  constructor
  · exact bindArguments_append l
  · intro unbound portions curried done
    have fresh : l.IsWellBound := by
      rw [IsWellBound, unbound]
      exact ⟨.nil, fun slot member => absurd member List.not_mem_nil⟩
    have bound := fresh.foldlM_curry done
    refine ⟨bound.inside, ?_⟩
    have few := bound.length_le
    rw [openParameters]
    omega

/-- A lambda of parameters without a body to speak of, and without arguments. -/
def ofParameters (params : List Parameter) : Lambda :=
  ⟨⟨params, .nil⟩, ⟨⟨⟨0, []⟩, .plain .nil "t", [], none⟩, [], [], none⟩, []⟩

/-- The numbers in the slots, those of a list one by one. -/
def slotNumbers (slots : Slots) : List (Nat × List (Option Int64)) :=
  slots.map fun slot => (slot.1, match slot.2.value with
    | .list items => items.map fun item => item.value.asInt?
    | value => [value.asInt?])

/-- A positional number. -/
def numberArgument (n : Int64) : ArgumentValue := .positional (.plain (.int n) "t")

/-- The parameter `y` is given by its name first; the numbers after it go to `x` and `z`, and the
second portion of numbers goes behind the first one in a variadic slot. -/
theorem bindArguments_mixedPortions :
    (((ofParameters [⟨"x", none, false⟩, ⟨"y", none, false⟩, ⟨"z", none, false⟩]).curry
        [.named "y" (.plain (.int 2) "t"), numberArgument 1] >>= fun curried =>
          curried.bindArguments [numberArgument 3]).toOption.map slotNumbers =
      some [(0, [some 1]), (1, [some 2]), (2, [some 3])]) ∧
    (((ofParameters [⟨"x", none, false⟩, ⟨"rest", none, true⟩]).curry
        [numberArgument 1, numberArgument 2] >>= fun curried =>
          curried.bindArguments [numberArgument 3, numberArgument 4]).toOption.map slotNumbers =
      some [(0, [some 1]), (1, [some 2, some 3, some 4])]) ∧
    ∃ curried, [[numberArgument 1], [], [numberArgument 2]].foldlM Lambda.curry
        (ofParameters [⟨"x", none, false⟩, ⟨"rest", none, true⟩]) = .ok curried ∧
      curried.openParameters + curried.bound.length = curried.expr.params.length := by
  obtain ⟨curried, done⟩ : ∃ curried,
      [[numberArgument 1], [], [numberArgument 2]].foldlM Lambda.curry
        (ofParameters [⟨"x", none, false⟩, ⟨"rest", none, true⟩]) = .ok curried := ⟨_, rfl⟩
  refine ⟨?_, ?_, curried, done, ((bindArguments_curried _).2 rfl _ _ done).2⟩
  · rw [(bindArguments_curried _).1 _ _ (.inl rfl)]
    decide +kernel
  · rw [(bindArguments_curried _).1 _ _ (.inr (by simp [numberArgument, ArgumentValue.isPositional]))]
    decide +kernel

end Lambda
end Cascade
