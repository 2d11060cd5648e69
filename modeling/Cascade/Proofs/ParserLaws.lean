import Mathlib.Data.List.Basic
import Cascade.Text.Parser

/-!
# Laws of parsers

What a combined parser accepts, in terms of what its parts accept. The laws read in both directions:
they take an accepted text apart, and they put one together.

## Main definitions

* `Parser.Accepts`: the parser does not fail.
* `Parser.Shrinks`, `Parser.Advances`: what is left is a suffix, and a shorter one.

## Main statements

* `Parser.bind_eq_iff`, `Parser.choose_cons_eq_iff`, `Parser.optional_eq_some_iff`: one law per
  combinator.
* `Parser.Advances.many_eq_cons_iff`, `Parser.many_of_not_accepts`: repetitions, one at a time.
-/

namespace Cascade.Parser

variable {α β : Type}

/-- The parser accepts the start of the text. -/
def Accepts (p : Parser α) (cs : List Char) : Prop := ∃ value rest, p cs = .accepted value rest

theorem accepts_of_eq {p : Parser α} {cs rest : List Char} {value : α}
    (accepted : p cs = .accepted value rest) : p.Accepts cs := ⟨value, rest, accepted⟩

theorem not_accepts_iff {p : Parser α} {cs : List Char} :
    ¬p.Accepts cs ↔ ∃ stopped, p cs = .failed stopped := by
  unfold Accepts
  cases p cs <;> simp

/-! ### Combinators -/

section

variable {p q : Parser α} {f : α → Parser β} {cs rest : List Char} {value : α} {result : β}

theorem pure_eq_iff : (pure value : Parser α) cs = .accepted result' rest ↔
    value = result' ∧ cs = rest := by
  rw [pure_apply, Parsed.accepted.injEq]

theorem bind_eq_iff : (p >>= f) cs = .accepted result rest ↔
    ∃ value middle, p cs = .accepted value middle ∧ f value middle = .accepted result rest := by
  rw [bind_apply]
  cases p cs with
  | failed stopped => simp
  | accepted value middle =>
    constructor
    · exact fun later => ⟨value, middle, rfl, later⟩
    · rintro ⟨_, _, ⟨⟩, later⟩
      exact later

theorem map_eq_iff {g : α → β} : (g <$> p) cs = .accepted result rest ↔
    ∃ value, p cs = .accepted value rest ∧ g value = result := by
  change (p >>= fun value => pure (g value)) cs = _ ↔ _
  rw [bind_eq_iff]
  simp only [pure_eq_iff]
  constructor
  · rintro ⟨value, _, accepted, rfl, rfl⟩
    exact ⟨value, accepted, rfl⟩
  · rintro ⟨value, accepted, rfl⟩
    exact ⟨value, rest, accepted, rfl, rfl⟩

theorem orElse_eq_iff : orElse p q cs = .accepted value rest ↔
    p cs = .accepted value rest ∨ ¬p.Accepts cs ∧ q cs = .accepted value rest := by
  unfold orElse Accepts
  cases p cs <;> simp

theorem optional_eq_some_iff : optional p cs = .accepted (some value) rest ↔
    p cs = .accepted value rest := by
  unfold optional
  cases p cs <;> simp

theorem optional_eq_none_iff : optional p cs = .accepted none rest ↔
    ¬p.Accepts cs ∧ cs = rest := by
  unfold optional Accepts
  cases p cs <;> simp

theorem notFollowedBy_eq_iff {u : Unit} : notFollowedBy p cs = .accepted u rest ↔
    ¬p.Accepts cs ∧ cs = rest := by
  unfold notFollowedBy Accepts
  cases p cs <;> simp

theorem followedBy_eq_iff {u : Unit} : followedBy p cs = .accepted u rest ↔
    p.Accepts cs ∧ cs = rest := by
  unfold followedBy Accepts
  cases p cs <;> simp

@[simp] theorem not_accepts_fail : ¬(fail : Parser α).Accepts cs := by
  rintro ⟨_, _, accepted⟩
  cases accepted

@[simp] theorem accepts_pure : (pure value : Parser α).Accepts cs := ⟨value, cs, rfl⟩

theorem accepts_bind_iff : (p >>= f).Accepts cs ↔
    ∃ value middle, p cs = .accepted value middle ∧ (f value).Accepts middle := by
  unfold Accepts
  simp only [bind_eq_iff]
  constructor
  · rintro ⟨_, _, value, middle, first, later⟩
    exact ⟨value, middle, first, _, _, later⟩
  · rintro ⟨value, middle, first, _, _, later⟩
    exact ⟨_, _, value, middle, first, later⟩

@[simp] theorem accepts_map_iff {g : α → β} : (g <$> p).Accepts cs ↔ p.Accepts cs := by
  unfold Accepts
  simp only [map_eq_iff]
  constructor
  · rintro ⟨_, _, value, accepted, _⟩
    exact ⟨value, _, accepted⟩
  · rintro ⟨value, rest, accepted⟩
    exact ⟨_, rest, value, accepted, rfl⟩

@[simp] theorem accepts_orElse_iff : (orElse p q).Accepts cs ↔ p.Accepts cs ∨ q.Accepts cs := by
  unfold orElse Accepts
  cases here : p cs <;> simp [here]

@[simp] theorem accepts_optional : (optional p).Accepts cs := by
  unfold optional Accepts
  cases here : p cs <;> simp [here]

@[simp] theorem accepts_notFollowedBy_iff : (notFollowedBy p).Accepts cs ↔ ¬p.Accepts cs := by
  unfold notFollowedBy Accepts
  cases here : p cs <;> simp [here]

@[simp] theorem accepts_followedBy_iff : (followedBy p).Accepts cs ↔ p.Accepts cs := by
  unfold followedBy Accepts
  cases here : p cs <;> simp [here]

@[simp] theorem accepts_many : (many p).Accepts cs := ⟨_, _, rfl⟩

/-! ### Choices -/

theorem accepts_choose_iff {parsers : List (Parser α)} :
    (choose parsers).Accepts cs ↔ ∃ p ∈ parsers, p.Accepts cs := by
  induction parsers with
  | nil => simp [choose]
  | cons first others ih =>
    cases others with
    | nil => simp [choose]
    | cons second others =>
      change (orElse first (choose (second :: others))).Accepts cs ↔ _
      rw [accepts_orElse_iff, ih]
      simp only [List.mem_cons, exists_eq_or_imp]

theorem choose_cons_eq_iff {parsers : List (Parser α)} :
    choose (p :: parsers) cs = .accepted value rest ↔
      p cs = .accepted value rest ∨
        ¬p.Accepts cs ∧ choose parsers cs = .accepted value rest := by
  cases parsers with
  | nil => simp [choose, fail]
  | cons second others => exact orElse_eq_iff

theorem choose_nil_eq_iff : choose ([] : List (Parser α)) cs = .accepted value rest ↔ False := by
  simp [choose, fail]

end

/-! ### Progress -/

/-- What is left is a suffix of the text. -/
def Shrinks (p : Parser α) : Prop :=
  ∀ cs value rest, p cs = .accepted value rest → rest <:+ cs

/-- What is left is a proper suffix of the text. -/
def Advances (p : Parser α) : Prop :=
  ∀ cs value rest, p cs = .accepted value rest → rest <:+ cs ∧ rest.length < cs.length

theorem Advances.shrinks {p : Parser α} (advances : p.Advances) : p.Shrinks :=
  fun cs value rest accepted => (advances cs value rest accepted).1

section

variable {p q : Parser α} {f : α → Parser β}

theorem Shrinks.length_le (shrinks : p.Shrinks) {cs rest : List Char} {value : α}
    (accepted : p cs = .accepted value rest) : rest.length ≤ cs.length :=
  (shrinks cs value rest accepted).length_le

theorem shrinks_pure (value : α) : (pure value : Parser α).Shrinks := by
  rintro cs _ _ ⟨⟩
  exact List.suffix_refl _

theorem shrinks_fail : (fail : Parser α).Shrinks := by
  rintro cs _ _ ⟨⟩

theorem advances_fail : (fail : Parser α).Advances := by
  rintro cs _ _ ⟨⟩

theorem Shrinks.bind (first : p.Shrinks) (later : ∀ value, (f value).Shrinks) :
    (p >>= f).Shrinks := by
  intro cs result rest accepted
  obtain ⟨value, middle, here, there⟩ := bind_eq_iff.mp accepted
  exact (later value _ _ _ there).trans (first _ _ _ here)

theorem Advances.bind (first : p.Advances) (later : ∀ value, (f value).Shrinks) :
    (p >>= f).Advances := by
  intro cs result rest accepted
  obtain ⟨value, middle, here, there⟩ := bind_eq_iff.mp accepted
  obtain ⟨isSuffix, shorter⟩ := first _ _ _ here
  have more := later value _ _ _ there
  exact ⟨more.trans isSuffix, Nat.lt_of_le_of_lt more.length_le shorter⟩

theorem Shrinks.bind_advances (first : p.Shrinks) (later : ∀ value, (f value).Advances) :
    (p >>= f).Advances := by
  intro cs result rest accepted
  obtain ⟨value, middle, here, there⟩ := bind_eq_iff.mp accepted
  obtain ⟨isSuffix, shorter⟩ := later value _ _ _ there
  have before := first _ _ _ here
  exact ⟨isSuffix.trans before, Nat.lt_of_lt_of_le shorter before.length_le⟩

theorem Shrinks.map {g : α → β} (shrinks : p.Shrinks) : (g <$> p).Shrinks :=
  shrinks.bind fun _ => shrinks_pure _

theorem Advances.map {g : α → β} (advances : p.Advances) : (g <$> p).Advances :=
  advances.bind fun _ => shrinks_pure _

theorem Shrinks.choose {parsers : List (Parser α)} (each : ∀ p ∈ parsers, p.Shrinks) :
    (choose parsers).Shrinks := by
  induction parsers with
  | nil => exact shrinks_fail
  | cons first others ih =>
    obtain ⟨here, there⟩ := List.forall_mem_cons.mp each
    intro cs value rest accepted
    rcases choose_cons_eq_iff.mp accepted with accepted | ⟨_, accepted⟩
    · exact here _ _ _ accepted
    · exact ih there _ _ _ accepted

theorem Advances.choose {parsers : List (Parser α)} (each : ∀ p ∈ parsers, p.Advances) :
    (choose parsers).Advances := by
  induction parsers with
  | nil => exact advances_fail
  | cons first others ih =>
    obtain ⟨here, there⟩ := List.forall_mem_cons.mp each
    intro cs value rest accepted
    rcases choose_cons_eq_iff.mp accepted with accepted | ⟨_, accepted⟩
    · exact here _ _ _ accepted
    · exact ih there _ _ _ accepted

theorem Shrinks.optional (shrinks : p.Shrinks) : (optional p).Shrinks := by
  intro cs value rest accepted
  cases value with
  | some value => exact shrinks _ _ _ (optional_eq_some_iff.mp accepted)
  | none =>
    obtain ⟨_, rfl⟩ := optional_eq_none_iff.mp accepted
    exact List.suffix_refl _

theorem shrinks_notFollowedBy : (notFollowedBy p).Shrinks := by
  intro cs value rest accepted
  obtain ⟨_, rfl⟩ := notFollowedBy_eq_iff.mp accepted
  exact List.suffix_refl _

theorem shrinks_followedBy : (followedBy p).Shrinks := by
  intro cs value rest accepted
  obtain ⟨_, rfl⟩ := followedBy_eq_iff.mp accepted
  exact List.suffix_refl _

theorem Shrinks.upTo (shrinks : p.Shrinks) (count : Nat) (cs : List Char) :
    (upTo p count cs).2 <:+ cs := by
  induction count generalizing cs with
  | zero => exact List.suffix_refl _
  | succ count ih =>
    rw [Parser.upTo]
    cases first : p cs with
    | failed stopped => exact List.suffix_refl _
    | accepted value rest => exact (ih rest).trans (shrinks _ _ _ first)

theorem Shrinks.many (shrinks : p.Shrinks) : (many p).Shrinks := by
  rintro cs _ _ ⟨⟩
  exact shrinks.upTo _ _

end

/-! ### Repetitions -/

section

variable {p : Parser α} {cs rest : List Char} {value : α} {values : List α}

/-- More repetitions than there are characters make no difference. -/
theorem Advances.upTo_eq (advances : p.Advances) {count : Nat} (enough : cs.length ≤ count) :
    upTo p count cs = upTo p cs.length cs := by
  induction count using Nat.strongRecOn generalizing cs with
  | ind count ih =>
    cases first : p cs with
    | failed stopped => cases count <;> cases cs <;> simp [upTo, first]
    | accepted value rest =>
      have shorter := (advances _ _ _ first).2
      obtain ⟨length, long⟩ := Nat.exists_eq_succ_of_ne_zero (Nat.ne_zero_of_lt shorter)
      obtain ⟨fewer, same⟩ := Nat.exists_eq_succ_of_ne_zero (show count ≠ 0 by omega)
      rw [long, same, upTo, upTo, first]
      simp only
      rw [ih fewer (by omega) (by omega), ih length (by omega) (by omega)]

theorem many_of_not_accepts (stops : ¬p.Accepts cs) : many p cs = .accepted [] cs := by
  obtain ⟨stopped, fails⟩ := not_accepts_iff.mp stops
  unfold many
  cases cs <;> simp [upTo, fails]

theorem Advances.many_eq (advances : p.Advances) (first : p cs = .accepted value rest) :
    many p cs = .accepted (value :: (upTo p rest.length rest).1) (upTo p rest.length rest).2 := by
  have shorter := (advances _ _ _ first).2
  obtain ⟨length, long⟩ := Nat.exists_eq_succ_of_ne_zero (Nat.ne_zero_of_lt shorter)
  unfold many
  rw [long, upTo, first]
  simp only
  rw [advances.upTo_eq (show rest.length ≤ length by omega)]

/-- Repetitions end where the parser does not accept the text. -/
theorem Advances.many_eq_nil_iff (advances : p.Advances) :
    many p cs = .accepted [] rest ↔ ¬p.Accepts cs ∧ cs = rest := by
  constructor
  · intro accepted
    by_cases accepts : p.Accepts cs
    · obtain ⟨value, middle, first⟩ := accepts
      rw [advances.many_eq first] at accepted
      cases accepted
    · rw [many_of_not_accepts accepts] at accepted
      cases accepted
      exact ⟨accepts, rfl⟩
  · rintro ⟨stops, rfl⟩
    exact many_of_not_accepts stops

/-- Repetitions start with one and go on from there. -/
theorem Advances.many_eq_cons_iff {last : List Char} (advances : p.Advances) :
    many p cs = .accepted (value :: values) last ↔
      ∃ rest, p cs = .accepted value rest ∧ many p rest = .accepted values last := by
  constructor
  · intro accepted
    by_cases accepts : p.Accepts cs
    · obtain ⟨value', middle, first⟩ := accepts
      rw [advances.many_eq first] at accepted
      cases accepted
      exact ⟨middle, first, rfl⟩
    · rw [many_of_not_accepts accepts] at accepted
      cases accepted
  · rintro ⟨rest, first, later⟩
    rw [advances.many_eq first]
    cases later
    rfl

/-- Repetitions end where the parser fails. -/
theorem Advances.many_stops (advances : p.Advances) (accepted : many p cs = .accepted values rest) :
    ¬p.Accepts rest := by
  induction values generalizing cs with
  | nil =>
    obtain ⟨stops, rfl⟩ := advances.many_eq_nil_iff.mp accepted
    exact stops
  | cons value values ih =>
    obtain ⟨middle, -, later⟩ := advances.many_eq_cons_iff.mp accepted
    exact ih later

end

end Cascade.Parser

namespace Cascade

theorem naturalOfDigits_toDigits (n : Nat) : naturalOfDigits (Nat.toDigits 10 n) = n := by
  have same : (fun (n : Nat) (c : Char) => n * 10 + (c.toNat - '0'.toNat)) =
      fun n c => 10 * n + (c.toNat - '0'.toNat) := by
    funext n c
    rw [Nat.mul_comm]
  rw [naturalOfDigits, same]
  exact Nat.ofDigitChars_toDigits (by decide) (by decide)

end Cascade
