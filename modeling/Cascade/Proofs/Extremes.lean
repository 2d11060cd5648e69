import Cascade.Proofs.IntComparison

/-!
# The extremes of ints

`max` and `min` go through their numbers once and hold the best one so far. They compare nearest
floats, not ints, and keep the one they hold if the next one is no better, so of several ints with
the extreme float they pick the first. Their answer is a true extreme of the ints, and does not
depend on the order, exactly if the extreme int shares its nearest float with no other one.

`max` and `min` are one search with two preferences (`SearchesBy`).

## Main definitions

* `GivesInts`: the two ways of giving ints to a function.
* `Picks`, `PicksTruly`: the answer of a function of ints.

## Main statements

* `foldl_better?`: what the search holds at its end.
* `max_min_of_ints`.
-/

namespace Cascade

open Binary64

/-! ### Arguments -/

/-- Arguments that give ints: one list of them, under any annotations, or the ints themselves. -/
inductive GivesInts (ints : List Int64) : List Value → Prop where
  | list {items : List Node} (values : items.map Node.value = ints.map .int) :
      GivesInts ints [.list items]
  | separate : GivesInts ints (ints.map .int)

theorem find?_notNumber_ints (ints : List Int64) :
    ((ints.map Value.int).find? fun item => item.asFloat?.isNone) = none := by
  rw [List.find?_eq_none]
  intro item member
  obtain ⟨n, -, rfl⟩ := List.mem_map.mp member
  exact Bool.false_ne_true

theorem numbers_of_ints {ints : List Int64} {args : List Value} (given : GivesInts ints args)
    (some : ints ≠ []) (name : String) :
    Standard.numbers name args = pure (ints.map .int) := by
  have nonempty : (ints.map Value.int).isEmpty = false := by simpa using some
  cases given with
  | list values =>
    unfold Standard.numbers
    simp only [values, nonempty, find?_notNumber_ints, Bool.false_eq_true, if_false]
  | separate =>
    have checked := find?_notNumber_ints ints
    obtain ⟨n, rest, rfl⟩ := List.exists_cons_of_ne_nil some
    rw [List.map_cons] at checked nonempty ⊢
    unfold Standard.numbers
    simp only [nonempty, checked, Bool.false_eq_true, if_false]

/-! ### The search for an extreme -/

/-- A search that prefers, of two ints, the one with the greater key. -/
def Prefers (better : Float → Float → Bool) (key : Int64 → Int) : Prop :=
  ∀ a b : Int64, better (ofInt a.toInt) (ofInt b.toInt) = decide (key b < key a)

/-- One step of the search. -/
def better? (better : Float → Float → Bool) (best : Option (Float × Value)) (item : Value) :
    Option (Float × Value) :=
  match best with
  | none => some (item.asFloat?.getD 0, item)
  | some (current, value) =>
    if better (item.asFloat?.getD 0) current then some (item.asFloat?.getD 0, item)
    else some (current, value)

/-- What the search holds after an int. -/
def heldInt (n : Int64) : Option (Float × Value) := some (ofInt n.toInt, .int n)

theorem better?_heldInt {better : Float → Float → Bool} {key : Int64 → Int}
    (prefers : Prefers better key) (held next : Int64) :
    better? better (heldInt held) (.int next) =
      heldInt (if key held < key next then next else held) := by
  show (if better (ofInt next.toInt) (ofInt held.toInt) then heldInt next else heldInt held) = _
  rw [prefers next held]
  by_cases less : key held < key next
  · rw [if_pos less, if_pos (decide_eq_true less)]
  · rw [if_neg less, if_neg (by simpa using less)]

/-- The search ends with an int of the greatest key, and with the one it started from if no later
one has a greater key. -/
theorem foldl_better? {better : Float → Float → Bool} {key : Int64 → Int}
    (prefers : Prefers better key) (held : Int64) (ints : List Int64) :
    ∃ m ∈ held :: ints, (ints.map Value.int).foldl (better? better) (heldInt held) = heldInt m ∧
      (∀ x ∈ held :: ints, key x ≤ key m) ∧ ((∀ x ∈ ints, key x ≤ key held) → m = held) := by
  induction ints generalizing held with
  | nil => exact ⟨held, by simp, rfl, by simp, fun _ => rfl⟩
  | cons next rest ih =>
    rw [List.map_cons, List.foldl_cons, better?_heldInt prefers]
    by_cases less : key held < key next
    · rw [if_pos less]
      obtain ⟨m, member, ends, greatest, -⟩ := ih next
      refine ⟨m, List.mem_cons_of_mem _ member, ends, ?_, fun none => ?_⟩
      · have := greatest next List.mem_cons_self
        intro x isX
        rcases List.mem_cons.mp isX with rfl | later
        · omega
        · exact greatest x later
      · have := none next List.mem_cons_self
        omega
    · rw [if_neg less]
      obtain ⟨m, member, ends, greatest, first⟩ := ih held
      have heldLe := greatest held List.mem_cons_self
      refine ⟨m, ?_, ends, ?_, fun none => first fun x isX => none x (List.mem_cons_of_mem _ isX)⟩
      · rcases List.mem_cons.mp member with rfl | later
        · exact List.mem_cons_self
        · exact List.mem_cons_of_mem _ (List.mem_cons_of_mem _ later)
      · intro x isX
        rcases List.mem_cons.mp isX with rfl | later
        · exact heldLe
        · rcases List.mem_cons.mp later with rfl | rest
          · omega
          · exact greatest x (List.mem_cons_of_mem _ rest)

/-! ### What a search picks -/

/-- The function picks an int, however it is given the ints. -/
def Picks (f : Function) (ints : List Int64) (m : Int64) : Prop :=
  ∀ args, GivesInts ints args → ∀ deeper binding, f deeper args binding = Standard.answer (.int m)

theorem Picks.unique {f : Function} {ints : List Int64} {m m' : Int64} (picks : Picks f ints m)
    (picks' : Picks f ints m') : m = m' := by
  have same := (picks _ .separate (Engine.standard.below 0) emptyPlace).symm.trans
    (picks' _ .separate (Engine.standard.below 0) emptyPlace)
  cases Standard.answer_inj same
  rfl

/-- A function that searches the numbers it is given for the one with the greatest key. -/
structure SearchesBy (f : Function) (key : Int64 → Int) where
  name : String
  better : Float → Float → Bool
  prefers : Prefers better key
  runs : ∀ deeper args binding, f deeper args binding = (do
    let items ← Standard.numbers name args
    Standard.answer (((Standard.extreme better items).map Prod.snd).getD .nil))

section

variable {f : Function} {key : Int64 → Int} {ints : List Int64}

/-- The search picks an int of the greatest key, the first one if that has it. -/
theorem SearchesBy.exists_picks (searches : SearchesBy f key) (first : Int64)
    (ints : List Int64) :
    ∃ m ∈ first :: ints, Picks f (first :: ints) m ∧ (∀ x ∈ first :: ints, key x ≤ key m) ∧
      ((∀ x ∈ ints, key x ≤ key first) → m = first) := by
  obtain ⟨m, member, ends, greatest, stays⟩ := foldl_better? searches.prefers first ints
  refine ⟨m, member, fun args given deeper binding => ?_, greatest, stays⟩
  rw [searches.runs, numbers_of_ints given (List.cons_ne_nil _ _), pure_bind]
  have found : Standard.extreme searches.better ((first :: ints).map .int) = heldInt m := ends
  rw [found]
  rfl

/-- The function picks one and the same int in every order of the ints, and all others lie on one
side of it. -/
def PicksTruly (f : Function) (side : Int64 → Int64 → Prop) (ints : List Int64) : Prop :=
  ∃ m ∈ ints, (∀ x ∈ ints, side x m) ∧ ∀ order : List Int64, order.Perm ints → Picks f order m

/-- No other of the ints has the nearest float of the extreme one. -/
def StandsAlone (side : Int64 → Int64 → Prop) (ints : List Int64) : Prop :=
  ∀ m ∈ ints, (∀ x ∈ ints, side x m) →
    ∀ y ∈ ints, nearestInt y.toInt = nearestInt m.toInt → y = m

theorem AreApart.standsAlone (apart : AreApart ints) (side : Int64 → Int64 → Prop) :
    StandsAlone side ints :=
  fun m isM _ y isY same => apart y isY m isM same

/-- In the order that starts with an int of the greatest key, the search picks that int. -/
theorem SearchesBy.eq_of_picks (searches : SearchesBy f key) {m y : Int64}
    (picks : ∀ order : List Int64, order.Perm ints → Picks f order m) (member : y ∈ ints)
    (greatest : ∀ x ∈ ints, key x ≤ key y) : m = y := by
  have order : (y :: ints.erase y).Perm ints := (List.perm_cons_erase member).symm
  obtain ⟨m', -, picks', -, stays⟩ := searches.exists_picks y (ints.erase y)
  have same := stays fun x isX => greatest x (List.mem_of_mem_erase isX)
  exact (picks _ order).unique (same ▸ picks')

theorem SearchesBy.picksTruly_iff (searches : SearchesBy f key) {side : Int64 → Int64 → Prop}
    (keyOf : ∀ x y : Int64, key x = key y ↔ nearestInt x.toInt = nearestInt y.toInt)
    (mono : ∀ x y, side x y → key x ≤ key y) (extreme : ∃ m ∈ ints, ∀ x ∈ ints, side x m) :
    PicksTruly f side ints ↔ StandsAlone side ints := by
  constructor
  · rintro ⟨r, -, -, picks⟩ m isM extreme y isY same
    have greatest : ∀ x ∈ ints, key x ≤ key m := fun x isX => mono x m (extreme x isX)
    have level : key y = key m := (keyOf y m).mpr same
    have atM : r = m := searches.eq_of_picks picks isM greatest
    have atY : r = y := searches.eq_of_picks picks isY (level ▸ greatest)
    exact atY.symm.trans atM
  · intro alone
    obtain ⟨m, isM, extreme⟩ := extreme
    refine ⟨m, isM, extreme, fun order perm => ?_⟩
    cases order with
    | nil => exact absurd (perm.mem_iff.mpr isM) List.not_mem_nil
    | cons first rest =>
      obtain ⟨r, isR, picks, greatest, -⟩ := searches.exists_picks first rest
      have inside : r ∈ ints := perm.mem_iff.mp isR
      have upper : key r ≤ key m := mono r m (extreme r inside)
      have lower : key m ≤ key r := greatest m (perm.mem_iff.mpr isM)
      have level : key r = key m := by omega
      rwa [alone m isM extreme r inside ((keyOf r m).mp level)] at picks

end

/-! ### `max` and `min` -/

/-- `max` searches for the greatest nearest float. -/
def maxSearches : SearchesBy Standard.max fun n => nearestInt n.toInt where
  name := "max"
  better := fun a b => b < a
  prefers := fun a b => by
    rw [decide_eq_decide]
    exact ofInt_lt_iff (natAbs_toInt_lt b) (natAbs_toInt_lt a)
  runs := fun _ _ _ => rfl

/-- `min` searches for the least one. -/
def minSearches : SearchesBy Standard.min fun n => -nearestInt n.toInt where
  name := "min"
  better := fun a b => a < b
  prefers := fun a b => by
    rw [decide_eq_decide, ofInt_lt_iff (natAbs_toInt_lt a) (natAbs_toInt_lt b)]
    exact Int.neg_lt_neg_iff.symm
  runs := fun _ _ _ => rfl

theorem exists_greatest {ints : List Int64} (some : ints ≠ []) :
    ∃ m ∈ ints, ∀ x ∈ ints, x ≤ m := by
  obtain ⟨m, isM, greatest⟩ := ints.toFinset.exists_max_image Int64.toInt
    (List.toFinset_nonempty_iff ints |>.mpr some)
  exact ⟨m, List.mem_toFinset.mp isM, fun x isX =>
    Int64.le_iff_toInt_le.mpr (greatest x (List.mem_toFinset.mpr isX))⟩

theorem exists_least {ints : List Int64} (some : ints ≠ []) :
    ∃ m ∈ ints, ∀ x ∈ ints, m ≤ x := by
  obtain ⟨m, isM, least⟩ := ints.toFinset.exists_min_image Int64.toInt
    (List.toFinset_nonempty_iff ints |>.mpr some)
  exact ⟨m, List.mem_toFinset.mp isM, fun x isX =>
    Int64.le_iff_toInt_le.mpr (least x (List.mem_toFinset.mpr isX))⟩

/-- `max` and `min` pick one of the ints, and none of the others has a nearest float beyond that of
the picked one. They pick a true extreme, whatever the order, exactly if no other int has the
nearest float of the extreme one. -/
theorem max_min_of_ints {ints : List Int64} (some : ints ≠ []) :
    (∃ m ∈ ints, Picks Standard.max ints m ∧
      ∀ x ∈ ints, nearestInt x.toInt ≤ nearestInt m.toInt) ∧
    (∃ m ∈ ints, Picks Standard.min ints m ∧
      ∀ x ∈ ints, nearestInt m.toInt ≤ nearestInt x.toInt) ∧
    (PicksTruly Standard.max (· ≤ ·) ints ↔ StandsAlone (· ≤ ·) ints) ∧
    (PicksTruly Standard.min (· ≥ ·) ints ↔ StandsAlone (· ≥ ·) ints) := by
  refine ⟨?_, ?_, ?_, ?_⟩
  · obtain ⟨first, rest, rfl⟩ := List.exists_cons_of_ne_nil some
    obtain ⟨m, isM, picks, greatest, -⟩ := maxSearches.exists_picks first rest
    exact ⟨m, isM, picks, greatest⟩
  · obtain ⟨first, rest, rfl⟩ := List.exists_cons_of_ne_nil some
    obtain ⟨m, isM, picks, greatest, -⟩ := minSearches.exists_picks first rest
    exact ⟨m, isM, picks, fun x isX => Int.neg_le_neg_iff.mp (greatest x isX)⟩
  · exact maxSearches.picksTruly_iff (fun x y => Iff.rfl)
      (fun x y le => nearestInt_mono (Int64.le_iff_toInt_le.mp le)) (exists_greatest some)
  · exact minSearches.picksTruly_iff (fun x y => Int.neg_inj)
      (fun x y ge => Int.neg_le_neg (nearestInt_mono (Int64.le_iff_toInt_le.mp ge)))
      (exists_least some)

/-- Ints of any size, apart from each other. -/
theorem max_min_of_limits :
    PicksTruly Standard.max (· ≤ ·) [3, 0x7FFFFFFFFFFFFFFF, -0x8000000000000000, 9007199254740993] ∧
    PicksTruly Standard.min (· ≥ ·)
      [3, 0x7FFFFFFFFFFFFFFF, -0x8000000000000000, 9007199254740993] := by
  have distinct : ([3, 0x7FFFFFFFFFFFFFFF, -0x8000000000000000, 9007199254740993].map
      fun n : Int64 => nearestInt n.toInt).Nodup := by decide +kernel
  have apart : AreApart [3, 0x7FFFFFFFFFFFFFFF, -0x8000000000000000, 9007199254740993] :=
    fun a aMember b bMember same => List.inj_on_of_nodup_map distinct aMember bMember same
  have extremes := max_min_of_ints
    (show [3, 0x7FFFFFFFFFFFFFFF, -0x8000000000000000, 9007199254740993] ≠ ([] : List Int64)
      from List.cons_ne_nil _ _)
  exact ⟨extremes.2.2.1.mpr (apart.standsAlone _), extremes.2.2.2.mpr (apart.standsAlone _)⟩

/-- Of two neighbours of 54 bits, `max` and `min` pick the one that comes first. -/
theorem max_min_of_neighbours :
    (9007199254740992 : Int64) < 9007199254740993 ∧
    Picks Standard.max [9007199254740992, 9007199254740993] 9007199254740992 ∧
    Picks Standard.max [9007199254740993, 9007199254740992] 9007199254740993 ∧
    Picks Standard.min [9007199254740993, 9007199254740992] 9007199254740993 := by
  have same : nearestInt (9007199254740993 : Int64).toInt =
      nearestInt (9007199254740992 : Int64).toInt := by decide +kernel
  refine ⟨by decide, ?_, ?_, ?_⟩
  · obtain ⟨m, -, picks, -, stays⟩ :=
      maxSearches.exists_picks 9007199254740992 [9007199254740993]
    exact stays (by simpa using same.le) ▸ picks
  · obtain ⟨m, -, picks, -, stays⟩ :=
      maxSearches.exists_picks 9007199254740993 [9007199254740992]
    exact stays (by simpa using same.ge) ▸ picks
  · obtain ⟨m, -, picks, -, stays⟩ :=
      minSearches.exists_picks 9007199254740993 [9007199254740992]
    exact stays (by simpa using same.le) ▸ picks

end Cascade
