import Cascade.Address

/-!
# Texts of addresses

The text of an address is read as that address. Texts are numbers behind separators (`partChars`),
in decimal behind dots or in hexadecimal behind colons, and reading such a text gives its numbers
back as long as no further digit follows. An IPv6 text may abbreviate a run of zeros; whatever run
`longestRun` picks, the groups around it determine the address.

## Main results

* `Address.readNumber_toDigits`: a number is read back from its digits.
* `Address.readOctets_partChars`, `Address.readGroups_partChars`: so are numbers behind separators.
* `Address.isRun_longestRun`: the run of zeros that is abbreviated is one.
* `Address.parse?_render`: the text of an address is read as that address.
-/

namespace Cascade.Address

/-! ### Numbers -/

/-- The radixes in which parts of addresses are written. -/
structure IsRadix (radix : Nat) : Prop where
  one_lt : 1 < radix
  le : radix ≤ 16
  digit?_digitChar : ∀ d < radix, digit? radix d.digitChar = some d

theorem isRadix_ten : IsRadix 10 := ⟨by decide, by decide, by decide⟩

theorem isRadix_sixteen : IsRadix 16 := ⟨by decide, by decide, by decide⟩

section

variable {radix : Nat} (isRadix : IsRadix radix)
include isRadix

theorem mem_toDigits {n : Nat} {c : Char} (member : c ∈ Nat.toDigits radix n) :
    ∃ d < radix, c = d.digitChar := by
  induction n using Nat.strongRecOn with
  | ind n ih =>
    have one := isRadix.one_lt
    rw [Nat.toDigits_eq_if one] at member
    split at member
    · next small => exact ⟨n, small, List.mem_singleton.mp member⟩
    · next large =>
      rcases List.mem_append.mp member with before | last
      · exact ih (n / radix) (Nat.div_lt_self (by omega) one) before
      · exact ⟨n % radix, Nat.mod_lt n (by omega), List.mem_singleton.mp last⟩

/-- The number that digits make. -/
def numberOf (radix : Nat) (digits : List Char) : Nat :=
  digits.foldl (fun n c => n * radix + (digit? radix c).getD 0) 0

theorem numberOf_toDigits (n : Nat) : numberOf radix (Nat.toDigits radix n) = n := by
  induction n using Nat.strongRecOn with
  | ind n ih =>
    have one := isRadix.one_lt
    rw [Nat.toDigits_eq_if one]
    split
    · next small =>
      show 0 * radix + (digit? radix n.digitChar).getD 0 = n
      rw [isRadix.digit?_digitChar n small]
      simp
    · next large =>
      have last := isRadix.digit?_digitChar (n % radix) (Nat.mod_lt n (by omega))
      have before := ih (n / radix) (Nat.div_lt_self (by omega) one)
      unfold numberOf at before ⊢
      rw [List.foldl_append, before]
      show n / radix * radix + (digit? radix (n % radix).digitChar).getD 0 = n
      rw [last, Nat.mul_comm]
      exact Nat.div_add_mod n radix

/-- Only zero starts with the digit zero. -/
theorem head?_toDigits {n : Nat} (positive : 0 < n) :
    (Nat.toDigits radix n).head? ≠ some '0' := by
  induction n using Nat.strongRecOn with
  | ind n ih =>
    have one := isRadix.one_lt
    rw [Nat.toDigits_eq_if one]
    split
    · next small =>
      have nonzero : ∀ d < 16, 0 < d → d.digitChar ≠ '0' := by decide
      have := isRadix.le
      simpa using nonzero n (by omega) positive
    · next large =>
      have quotient : 0 < n / radix := Nat.div_pos (by omega) (by omega)
      have before := ih (n / radix) (Nat.div_lt_self (by omega) one) quotient
      obtain ⟨c, rest, digits⟩ := List.exists_cons_of_ne_nil
        (Nat.toDigits_ne_nil (b := radix) (n := n / radix))
      rw [digits] at before ⊢
      exact before

/-- Where a number ends: no digit follows. -/
def Ends (radix : Nat) (rest : List Char) : Prop :=
  ∀ c ∈ rest.head?, digit? radix c = none

theorem takeWhile_toDigits (n : Nat) {rest : List Char} (ends : Ends radix rest) :
    (Nat.toDigits radix n ++ rest).takeWhile (fun c => (digit? radix c).isSome) =
      Nat.toDigits radix n := by
  rw [List.takeWhile_append_of_pos]
  · cases rest with
    | nil => rw [List.takeWhile_nil, List.append_nil]
    | cons c rest =>
      rw [List.takeWhile_cons_of_neg, List.append_nil]
      rw [ends c rfl]
      exact Bool.false_ne_true
  · intro c member
    obtain ⟨d, small, rfl⟩ := mem_toDigits isRadix member
    rw [isRadix.digit?_digitChar d small]
    rfl

theorem readNumber_toDigits {n width : Nat} (positive : 0 < width)
    (fits : n < Nat.pow radix width) {rest : List Char} (ends : Ends radix rest)
    (leadingZeros : Bool) :
    readNumber radix width leadingZeros (Nat.toDigits radix n ++ rest) = some (n, rest) := by
  have short : (Nat.toDigits radix n).length ≤ width :=
    (Nat.length_toDigits_le_iff isRadix.one_lt positive).mpr fits
  have unpadded : ¬(1 < (Nat.toDigits radix n).length ∧
      (Nat.toDigits radix n).head? = some '0') := by
    rintro ⟨long, zero⟩
    by_cases positive : 0 < n
    · exact head?_toDigits isRadix positive zero
    · obtain rfl : n = 0 := by omega
      rw [Nat.toDigits_zero] at long
      cases Nat.lt_irrefl _ long
  unfold readNumber
  rw [takeWhile_toDigits isRadix n ends]
  simp only
  rw [if_neg]
  · rw [List.drop_left]
    exact congrArg (fun m => some (m, rest)) (numberOf_toDigits isRadix n)
  · simp only [List.isEmpty_eq_false_iff.mpr Nat.toDigits_ne_nil, Bool.false_or, gt_iff_lt,
      Bool.or_eq_true, Bool.and_eq_true, decide_eq_true_eq, beq_iff_eq, not_or, Nat.not_lt,
      not_and]
    exact ⟨short, fun padded => absurd padded unpadded⟩

end

theorem ends_nil (radix : Nat) : Ends radix [] := by
  rintro c ⟨⟩

theorem ends_cons {radix : Nat} {c : Char} (noDigit : digit? radix c = none) (rest : List Char) :
    Ends radix (c :: rest) := by
  rintro d ⟨⟩
  exact noDigit

/-! ### Parts behind separators -/

/-- Numbers, with a separator in front of every one but the first. -/
def partChars (separator : Char) (radix : Nat) : (first : Bool) → List Nat → List Char
  | _, [] => []
  | first, n :: rest =>
    (if first then [] else [separator]) ++
      (Nat.toDigits radix n ++ partChars separator radix false rest)

theorem toList_intercalate (separator : Char) (radix : Nat) (parts : List Nat) :
    ((String.singleton separator).intercalate
      (parts.map fun n => String.ofList (Nat.toDigits radix n))).toList =
      partChars separator radix true parts := by
  induction parts with
  | nil => rfl
  | cons n rest ih =>
    cases rest with
    | nil =>
      show ((String.singleton separator).intercalate
        [String.ofList (Nat.toDigits radix n)]).toList = [] ++ (Nat.toDigits radix n ++ [])
      rw [String.intercalate_singleton, String.toList_ofList, List.append_nil, List.nil_append]
    | cons m rest =>
      rw [List.map_cons] at ih
      rw [List.map_cons, List.map_cons, String.intercalate_cons_cons, String.toList_append,
        String.toList_append, String.toList_ofList, ih, String.toList_singleton, List.append_assoc]
      rfl

theorem readSeparator_partChars (separator : Char) (first : Bool) (cs : List Char) :
    readSeparator separator first ((if first then [] else [separator]) ++ cs) = some cs := by
  cases first
  · show (if separator = separator then some cs else none) = some cs
    exact if_pos rfl
  · rfl

theorem ends_partChars {separator : Char} {radix : Nat} (noDigit : digit? radix separator = none)
    (parts : List Nat) {rest : List Char} (ends : Ends radix rest) :
    Ends radix (partChars separator radix false parts ++ rest) := by
  cases parts with
  | nil => exact ends
  | cons n parts => exact ends_cons noDigit _

/-! ### Dotted form -/

/-- The number of octets. -/
def ofOctets : List Nat → Nat
  | [] => 0
  | octet :: rest => octet * Nat.pow 256 rest.length + ofOctets rest

theorem readOctets_partChars {octets : List Nat} (small : ∀ octet ∈ octets, octet < 256)
    (first : Bool) {rest : List Char} (ends : Ends 10 rest) :
    readOctets octets.length first (partChars '.' 10 first octets ++ rest) =
      some (ofOctets octets, rest) := by
  induction octets generalizing first with
  | nil => rfl
  | cons octet octets ih =>
    have octetSmall := small octet List.mem_cons_self
    have others := ih (fun o member => small o (List.mem_cons_of_mem _ member)) false
    have reads := readNumber_toDigits isRadix_ten (show 0 < 3 by decide)
      (show octet < Nat.pow 10 3 from Nat.lt_trans octetSmall (by decide))
      (ends_partChars (show digit? 10 '.' = none by decide) octets ends) false
    show (readSeparator '.' first (_ ++ _) >>= fun cs => _) = _
    rw [partChars, List.append_assoc, List.append_assoc, readSeparator_partChars]
    show (readNumber 10 3 false (Nat.toDigits 10 octet ++ _) >>= fun read => _) = _
    rw [reads]
    show (if octet > 255 then none else readOctets octets.length false _ >>= fun read => _) = _
    rw [if_neg (by omega), others]
    rfl

theorem toList_dotted (number : Nat) : (dotted number).toList =
    partChars '.' 10 true ([3, 2, 1, 0].map fun i => number / Nat.pow 256 i % 256) := by
  rw [← toList_intercalate, List.map_map]
  unfold dotted
  simp only [Nat.toString_eq_ofList_toDigits, Function.comp_def]
  rw [show String.singleton '.' = "." by decide]

theorem ofOctets_octets {number : Nat} (fits : number < AddressFamily.v4.size) :
    ofOctets ([3, 2, 1, 0].map fun i => number / Nat.pow 256 i % 256) = number := by
  have bound : number < 4294967296 := fits
  have powers : Nat.pow 256 3 = 16777216 ∧ Nat.pow 256 2 = 65536 ∧ Nat.pow 256 1 = 256 ∧
      Nat.pow 256 0 = 1 := by decide
  simp only [List.map_cons, List.map_nil, ofOctets, List.length_cons, List.length_nil,
    Nat.zero_add, Nat.reduceAdd, powers]
  omega

theorem readDotted_dotted {number : Nat} (fits : number < AddressFamily.v4.size) {rest : List Char}
    (ends : Ends 10 rest) :
    readDotted ((dotted number).toList ++ rest) = some (number, rest) := by
  have small : ∀ octet ∈ [3, 2, 1, 0].map fun i => number / Nat.pow 256 i % 256, octet < 256 := by
    intro octet member
    obtain ⟨i, -, rfl⟩ := List.mem_map.mp member
    exact Nat.mod_lt _ (by decide)
  have reads := readOctets_partChars small true ends
  rw [ofOctets_octets fits, ← toList_dotted] at reads
  exact reads

/-! ### Groups -/

theorem suffix_of_readNumber {radix width : Nat} {leadingZeros : Bool} {cs : List Char}
    {read : Nat × List Char} (reads : readNumber radix width leadingZeros cs = some read) :
    read.2 <:+ cs := by
  unfold readNumber at reads
  simp only at reads
  split at reads
  · cases reads
  · cases reads
    exact List.drop_suffix _ _

theorem readChar_of_not_mem {c : Char} {cs : List Char} (missing : c ∉ cs) :
    readChar c cs = none := by
  cases cs with
  | nil => rfl
  | cons d rest =>
    exact if_neg fun (same : d = c) => missing (same ▸ List.mem_cons_self)

/-- Without a dot there is no dotted form. -/
theorem readDotted_of_not_mem {cs : List Char} (dotless : '.' ∉ cs) : readDotted cs = none := by
  show (readNumber 10 3 false cs >>= fun read => _) = none
  cases reads : readNumber 10 3 false cs with
  | none => rfl
  | some read =>
    obtain ⟨octet, rest⟩ := read
    have dotlessRest : '.' ∉ rest := fun member =>
      dotless ((suffix_of_readNumber reads).subset member)
    have stuck : readOctets 3 false rest = none := by
      show (readChar '.' rest >>= fun cs => _) = none
      rw [readChar_of_not_mem dotlessRest]
      rfl
    show (if octet > 255 then none else readOctets 3 false rest >>= fun read => _) = none
    rw [stuck]
    exact ite_self none

/-- What ends groups: the text, or the abbreviation of a run of zeros. -/
inductive EndsGroups : List Char → Prop where
  | text : EndsGroups []
  | zeros (cs : List Char) : EndsGroups (':' :: ':' :: cs)

theorem EndsGroups.ends {cs : List Char} (stops : EndsGroups cs) : Ends 16 cs := by
  cases stops with
  | text => exact ends_nil 16
  | zeros cs => exact ends_cons (by decide) _

theorem EndsGroups.readGroups {cs : List Char} (stops : EndsGroups cs) (limit : Nat)
    (first : Bool) : readGroups limit first cs = ([], false, cs) := by
  cases limit with
  | zero => rfl
  | succ limit =>
    unfold Address.readGroups
    have noDotted : (if limit = 0 then none else readSeparator ':' first cs >>= readDotted) =
        none := by
      split
      · rfl
      · cases stops <;> cases first <;> rfl
    have noGroup : (readSeparator ':' first cs >>= readNumber 16 4 true) = none := by
      cases stops <;> cases first <;> rfl
    simp only [noDotted, noGroup]

theorem not_mem_partChars {c separator : Char} {radix : Nat} (isRadix : IsRadix radix)
    (noDigit : digit? radix c = none) (other : c ≠ separator) (first : Bool) (parts : List Nat) :
    c ∉ partChars separator radix first parts := by
  induction parts generalizing first with
  | nil => exact List.not_mem_nil
  | cons n rest ih =>
    rw [partChars, List.mem_append, List.mem_append, not_or, not_or]
    refine ⟨?_, fun member => ?_, ih false⟩
    · cases first
      · exact fun member => other (List.mem_singleton.mp member)
      · exact List.not_mem_nil
    · obtain ⟨d, small, rfl⟩ := mem_toDigits isRadix member
      rw [isRadix.digit?_digitChar d small] at noDigit
      cases noDigit

theorem readGroups_partChars {groups : List Nat} (small : ∀ group ∈ groups, group < 65536)
    {limit : Nat} (within : groups.length ≤ limit) (first : Bool) {rest : List Char}
    (stops : EndsGroups rest) (dotless : '.' ∉ rest) :
    readGroups limit first (partChars ':' 16 first groups ++ rest) = (groups, false, rest) := by
  induction groups generalizing limit first with
  | nil => exact stops.readGroups limit first
  | cons group groups ih =>
    cases limit with
    | zero => cases within
    | succ limit =>
      have others := ih (fun g member => small g (List.mem_cons_of_mem _ member))
        (Nat.le_of_succ_le_succ within) false
      have reads := readNumber_toDigits isRadix_sixteen (show 0 < 4 by decide)
        (show group < Nat.pow 16 4 from small group List.mem_cons_self)
        (ends_partChars (show digit? 16 ':' = none by decide) groups stops.ends) true
      have separated : readSeparator ':' first (partChars ':' 16 first (group :: groups) ++ rest) =
          some (Nat.toDigits 16 group ++ (partChars ':' 16 false groups ++ rest)) := by
        rw [partChars, List.append_assoc, List.append_assoc, readSeparator_partChars]
      have noDot : '.' ∉ Nat.toDigits 16 group ++ (partChars ':' 16 false groups ++ rest) := by
        rw [← List.append_assoc, List.mem_append, not_or]
        exact ⟨not_mem_partChars isRadix_sixteen (by decide) (by decide) true (group :: groups),
          dotless⟩
      unfold Address.readGroups
      rw [separated]
      have noDotted : (if limit = 0 then none else
          (some (Nat.toDigits 16 group ++ (partChars ':' 16 false groups ++ rest)) >>=
            readDotted)) = none := by
        split
        · rfl
        · exact readDotted_of_not_mem noDot
      have group? : (some (Nat.toDigits 16 group ++ (partChars ':' 16 false groups ++ rest)) >>=
          readNumber 16 4 true) = some (group, partChars ':' 16 false groups ++ rest) := reads
      simp only [noDotted, group?, others]

theorem toList_joinGroups (gs : List Nat) :
    (joinGroups gs).toList = partChars ':' 16 true gs := by
  rw [← toList_intercalate, show String.singleton ':' = ":" by decide]
  rfl

theorem length_groups (number : Nat) : (groups number).length = 8 := rfl

theorem groups_lt {number group : Nat} (member : group ∈ groups number) : group < 65536 := by
  obtain ⟨i, -, rfl⟩ := List.mem_map.mp member
  exact Nat.mod_lt _ (by decide)

/-- Reading one more group shifts what was read before it. -/
theorem ofGroups_append_singleton (gs : List Nat) (group : Nat) :
    ofGroups (gs ++ [group]) = ofGroups gs * 65536 + group :=
  List.foldl_append

/-- The groups of a number from a position on. -/
theorem ofGroups_descending (number count : Nat) :
    ofGroups ((List.range count).reverse.map fun i => number / Nat.pow 65536 i % 65536) =
      number % Nat.pow 65536 count := by
  induction count generalizing number with
  | zero => exact (Nat.mod_one number).symm
  | succ count ih =>
    have shifted : ((List.range (count + 1)).reverse.map fun i =>
        number / Nat.pow 65536 i % 65536) =
        ((List.range count).reverse.map fun i =>
          number / 65536 / Nat.pow 65536 i % 65536) ++ [number % 65536] := by
      rw [List.range_succ_eq_map, List.reverse_cons, List.map_append, ← List.map_reverse,
        List.map_map]
      congr 1
      · refine List.map_congr_left fun i _ => ?_
        have power : Nat.pow 65536 i.succ = 65536 * Nat.pow 65536 i := Nat.pow_succ'
        rw [Function.comp_apply, power, Nat.div_div_eq_div_mul]
      · show [number / 1 % 65536] = _
        rw [Nat.div_one]
    have power : Nat.pow 65536 (count + 1) = 65536 * Nat.pow 65536 count := Nat.pow_succ'
    rw [shifted, ofGroups_append_singleton, ih, power, Nat.mod_mul, Nat.add_comm, Nat.mul_comm]

theorem ofGroups_groups {number : Nat} (fits : number < AddressFamily.v6.size) :
    ofGroups (groups number) = number := by
  have size : Nat.pow 65536 8 = AddressFamily.v6.size := by decide
  have descending := ofGroups_descending number 8
  rw [size, Nat.mod_eq_of_lt fits] at descending
  exact descending

/-! ### Runs of zeros -/

/-- A run (its start and its length) that stands before the end of the groups. -/
def IsRun (gs : List Nat) (run : Nat × Nat) : Prop :=
  ∃ before after, before.length = run.1 ∧ gs = before ++ (List.replicate run.2 0 ++ after)

/-- A run that the groups end in, if there is one. -/
def EndsInRun (gs : List Nat) (run : Nat × Nat) : Prop :=
  run.2 ≠ 0 → ∃ before, before.length = run.1 ∧ gs = before ++ List.replicate run.2 0

theorem EndsInRun.isRun {gs : List Nat} {run : Nat × Nat} (ending : EndsInRun gs run)
    (nonempty : run.2 ≠ 0) : IsRun gs run := by
  obtain ⟨before, start, rfl⟩ := ending nonempty
  exact ⟨before, [], start, by rw [List.append_nil]⟩

theorem IsRun.append {gs : List Nat} {run : Nat × Nat} (isRun : IsRun gs run) (more : List Nat) :
    IsRun (gs ++ more) run := by
  obtain ⟨before, after, start, rfl⟩ := isRun
  exact ⟨before, after ++ more, start, by simp only [List.append_assoc]⟩

/-- A zero makes the run before it longer, or starts one. -/
theorem EndsInRun.snoc {gs : List Nat} {run : Nat × Nat} (ending : EndsInRun gs run) :
    EndsInRun (gs ++ [0]) (if run.2 = 0 then (gs.length, 1) else (run.1, run.2 + 1)) := by
  intro _
  split
  · exact ⟨gs, rfl, rfl⟩
  · next nonempty =>
    obtain ⟨before, start, rfl⟩ := ending nonempty
    exact ⟨before, start, by rw [List.append_assoc, List.replicate_succ']⟩

theorem isRun_longestRun {seen : List Nat} {run best : Nat × Nat} (ending : EndsInRun seen run)
    (isRun : IsRun seen best) (rest : List Nat) :
    IsRun (seen ++ rest) (longestRun seen.length run best rest) := by
  -- `seen` are the groups before the position.
  induction rest generalizing seen run best with
  | nil => rwa [List.append_nil]
  | cons g rest ih =>
    rw [List.append_cons]
    unfold longestRun
    have next : seen.length + 1 = (seen ++ [g]).length := by rw [List.length_append]; rfl
    rw [next]
    split
    · next zero =>
      subst zero
      have longer := ending.snoc
      generalize (if run.2 = 0 then (seen.length, 1) else (run.1, run.2 + 1)) = run at longer ⊢
      refine ih longer ?_
      split
      · next better => exact longer.isRun (Nat.ne_of_gt (Nat.zero_lt_of_lt better))
      · exact isRun.append [0]
    · exact ih (fun nonempty => absurd rfl nonempty) (isRun.append [g])

/-! ### Texts of addresses -/

theorem readGrouped_joinGroups {gs : List Nat} (small : ∀ group ∈ gs, group < 65536)
    (eight : gs.length = 8) : readGrouped (joinGroups gs).toList = some (ofGroups gs, []) := by
  have reads := readGroups_partChars small (Nat.le_of_eq eight) true .text List.not_mem_nil
  rw [List.append_nil, ← toList_joinGroups] at reads
  unfold readGrouped
  simp only [reads, eight, if_true]

theorem readGrouped_abbreviated {before after : List Nat} {length : Nat}
    (small : ∀ group ∈ before ++ (List.replicate length 0 ++ after), group < 65536)
    (eight : (before ++ (List.replicate length 0 ++ after)).length = 8) (long : 1 < length) :
    readGrouped (joinGroups before ++ "::" ++ joinGroups after).toList =
      some (ofGroups (before ++ (List.replicate length 0 ++ after)), []) := by
  have lengths : before.length + (length + after.length) = 8 := by
    rw [← eight, List.length_append, List.length_append, List.length_replicate]
  have dotless := not_mem_partChars isRadix_sixteen (show digit? 16 '.' = none by decide)
    (show '.' ≠ ':' by decide) true after
  -- The two colons end the groups before them. How many zeros they stand for is not in the text: it
  -- is what the groups on both sides leave of eight.
  have head := readGroups_partChars
    (fun g member => small g (List.mem_append_left _ member)) (show before.length ≤ 8 by omega) true
    (.zeros (partChars ':' 16 true after)) (by
      rw [List.mem_cons, List.mem_cons]
      rintro (same | same | member)
      · exact absurd same (by decide)
      · exact absurd same (by decide)
      · exact dotless member)
  have tail := readGroups_partChars
    (fun g member => small g (List.mem_append_right _ (List.mem_append_right _ member)))
    (show after.length ≤ 7 - before.length by omega) true .text List.not_mem_nil
  have missing : 8 - before.length - after.length = length := by omega
  rw [List.append_nil] at tail
  rw [String.toList_append, String.toList_append, toList_joinGroups, toList_joinGroups,
    List.append_assoc, show "::".toList = [':', ':'] from rfl]
  unfold readGrouped
  simp only [List.cons_append, List.nil_append, head]
  rw [if_neg (by omega)]
  show some (_, _) = _
  simp only [tail, missing, List.append_assoc]

/-- An address with an embedded dotted form. -/
theorem readGrouped_embedded {number : Nat} (fits : number < AddressFamily.v4.size) :
    readGrouped ("::ffff:" ++ dotted number).toList = some (0xFFFF00000000 + number, []) := by
  have dotted? := readDotted_dotted fits (ends_nil 10)
  rw [List.append_nil] at dotted?
  have head := EndsGroups.readGroups
    (.zeros ('f' :: 'f' :: 'f' :: 'f' :: ':' :: (dotted number).toList)) 8 true
  have last : readGroups 6 false (':' :: (dotted number).toList) =
      ([number / 65536, number % 65536], true, []) := by
    unfold readGroups
    rw [show readSeparator ':' false (':' :: (dotted number).toList) =
      some (dotted number).toList from rfl]
    simp only [Option.bind_eq_bind, Option.bind_some, dotted?]
    rfl
  have tail : readGroups 7 true ('f' :: 'f' :: 'f' :: 'f' :: ':' :: (dotted number).toList) =
      (0xFFFF :: [number / 65536, number % 65536], true, []) := by
    unfold readGroups
    have group? : readNumber 16 4 true
        ('f' :: 'f' :: 'f' :: 'f' :: ':' :: (dotted number).toList) =
          some (0xFFFF, ':' :: (dotted number).toList) := rfl
    have noDotted : readDotted ('f' :: 'f' :: 'f' :: 'f' :: ':' :: (dotted number).toList) =
        none := rfl
    rw [show ∀ cs, readSeparator ':' true cs = some cs from fun _ => rfl]
    simp only [Option.bind_eq_bind, Option.bind_some, group?, noDotted, last]
    rfl
  rw [String.toList_append]
  show readGrouped (':' :: ':' :: 'f' :: 'f' :: 'f' :: 'f' :: ':' :: (dotted number).toList) = _
  unfold readGrouped
  have colon : ∀ cs, readChar ':' (':' :: cs) = some cs := fun _ => rfl
  simp only [head]
  rw [if_neg (by decide), if_neg Bool.false_ne_true]
  simp only [colon, Option.bind_eq_bind, Option.bind_some, List.length_nil, Nat.sub_zero, tail]
  have bound : number < 4294967296 := fits
  have groups : ofGroups ([] ++ List.replicate 5 0 ++ [0xFFFF, number / 65536, number % 65536]) =
      0xFFFF00000000 + number := by
    simp only [ofGroups, List.replicate_succ, List.replicate_zero, List.cons_append,
      List.nil_append, List.foldl_cons, List.foldl_nil]
    omega
  rw [← groups]
  rfl

theorem readGrouped_grouped {number : Nat} (fits : number < AddressFamily.v6.size) :
    readGrouped (grouped number).toList = some (number, []) := by
  unfold grouped
  split
  · next embedded =>
    have low : number % 0x100000000 < AddressFamily.v4.size := Nat.mod_lt _ (by decide)
    have reads := readGrouped_embedded low
    have whole : 0xFFFF00000000 + number % 0x100000000 = number := by omega
    rw [whole] at reads
    exact reads
  · have small : ∀ group ∈ groups number, group < 65536 := fun _ => groups_lt
    have noRun : EndsInRun [] (0, 0) := fun nonempty => absurd rfl nonempty
    have first : IsRun [] (0, 0) := ⟨[], [], rfl, rfl⟩
    obtain ⟨before, after, start, gs⟩ := isRun_longestRun noRun first (groups number)
    simp only [List.length_nil, List.nil_append] at start gs
    simp only
    split
    · next long =>
      have eight := length_groups number
      have number? := ofGroups_groups fits
      generalize longestRun 0 (0, 0) (0, 0) (groups number) = run at start gs long ⊢
      rw [gs] at small eight number? ⊢
      have reads := readGrouped_abbreviated small eight long
      rw [number?] at reads
      rw [← start, List.take_left, ← List.drop_drop, List.drop_left,
        List.drop_left' List.length_replicate]
      exact reads
    · have reads := readGrouped_joinGroups small (length_groups number)
      rw [ofGroups_groups fits] at reads
      exact reads

/-- Texts of IPv6 addresses are no dotted forms. -/
theorem readDotted_grouped (number : Nat) : readDotted (grouped number).toList = none := by
  have dotless (gs : List Nat) : '.' ∉ (joinGroups gs).toList := by
    rw [toList_joinGroups]
    exact not_mem_partChars isRadix_sixteen (by decide) (by decide) true gs
  unfold grouped
  split
  · rw [String.toList_append]
    rfl
  · simp only
    split
    · apply readDotted_of_not_mem
      rw [String.toList_append, String.toList_append, List.mem_append, List.mem_append]
      rintro ((member | member) | member)
      · exact dotless _ member
      · exact absurd member (by decide)
      · exact dotless _ member
    · exact readDotted_of_not_mem (dotless _)

theorem parse?_of_readDotted {text : String} {number : Nat}
    (reads : readDotted text.toList = some (number, [])) :
    parse? text = ofNumber? .v4 number := by
  unfold parse?
  simp only [reads]

theorem parse?_of_readGrouped {text : String} {number : Nat}
    (noDotted : readDotted text.toList = none)
    (reads : readGrouped text.toList = some (number, [])) :
    parse? text = ofNumber? .v6 number := by
  unfold parse?
  simp only [noDotted, reads]

theorem ofNumber?_number (a : Address) : ofNumber? a.family a.number = some a :=
  dif_pos a.number_lt

/-- The text of an address is read as that address. -/
theorem parse?_render (a : Address) : parse? a.render = some a := by
  rw [← ofNumber?_number a]
  have fits := a.number_lt
  unfold render
  cases family : a.family with
  | v4 =>
    rw [family] at fits
    have reads := readDotted_dotted fits (ends_nil 10)
    rw [List.append_nil] at reads
    exact parse?_of_readDotted reads
  | v6 =>
    rw [family] at fits
    exact parse?_of_readGrouped (readDotted_grouped a.number) (readGrouped_grouped fits)

end Cascade.Address
