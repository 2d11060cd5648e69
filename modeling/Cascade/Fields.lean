/-!
# Fields

A map of a document is a list of named entries in increasing order of the names. Names are ordered
by code point, which is the byte order of their UTF-8 forms, so iterating the list visits the fields
in the order every answer shows them.

The operations keep the order: `insert` puts a new name at its place and replaces the entry of a
known one.

## Main definitions

* `Fields α`: the entries; `Fields.find?`, `Fields.insert`, `Fields.erase`, `Fields.override`.
* `Fields.Sorted`: names strictly increase, which every operation preserves.

## Main statements

* `Fields.find?_insert`, `Fields.mem_insert`, `Fields.mem_override`: what an operation leaves.
-/

namespace Cascade

/-- Named entries, sorted by name. -/
abbrev Fields (α : Type) := List (String × α)

namespace Fields

variable {α β : Type}

/-- Names strictly increase from entry to entry. -/
def Sorted (fields : Fields α) : Prop :=
  (fields.map Prod.fst).Pairwise (· < ·)

instance (fields : Fields α) : Decidable fields.Sorted :=
  inferInstanceAs (Decidable (List.Pairwise _ _))

/-- The entry of a name. -/
def find? : Fields α → String → Option α
  | [], _ => none
  | (name, value) :: rest, key => if name = key then some value else find? rest key

/-- True if the name has an entry. -/
def contains (fields : Fields α) (key : String) : Bool :=
  (find? fields key).isSome

/-- Sets the entry of a name, keeping the order. -/
def insert (key : String) (value : α) : Fields α → Fields α
  | [] => [(key, value)]
  | (name, old) :: rest =>
    if key < name then (key, value) :: (name, old) :: rest
    else if key = name then (key, value) :: rest
    else (name, old) :: insert key value rest

/-- Drops the entry of a name. -/
def erase (key : String) : Fields α → Fields α
  | [] => []
  | (name, value) :: rest => if name = key then rest else (name, value) :: erase key rest

/-- Sets the entry of a name unless it has one. -/
def insertIfAbsent (key : String) (value : α) (fields : Fields α) : Fields α :=
  if contains fields key then fields else insert key value fields

/-- The entries of both, those of `later` winning. -/
def override (fields later : Fields α) : Fields α :=
  later.foldl (fun all entry => insert entry.1 entry.2 all) fields

/-- The entries of both, those of `fields` winning. -/
def fill (fields extra : Fields α) : Fields α :=
  extra.foldl (fun all entry => insertIfAbsent entry.1 entry.2 all) fields

/-- The map of a list of named entries; the last entry of a name wins. -/
def ofList (entries : List (String × α)) : Fields α :=
  override [] entries

/-- The names, in order. -/
def keys (fields : Fields α) : List String :=
  fields.map Prod.fst

/-- The entries without their names, in order of the names. -/
def values (fields : Fields α) : List α :=
  fields.map Prod.snd

/-! ### The view through `find?` -/

@[simp] theorem find?_nil (key : String) : find? ([] : Fields α) key = none := rfl

theorem find?_cons (name key : String) (value : α) (rest : Fields α) :
    find? ((name, value) :: rest) key = if name = key then some value else find? rest key := rfl

/-- Looking up after an insertion. -/
theorem find?_insert (key key' : String) (value : α) (fields : Fields α) :
    find? (insert key value fields) key' =
      if key = key' then some value else find? fields key' := by
  induction fields with
  | nil => simp [insert, find?]
  | cons entry rest ih =>
    obtain ⟨name, old⟩ := entry
    simp only [insert]
    split
    · simp [find?]
    · split
      · next same => subst same; by_cases h : key = key' <;> simp [find?, h]
      · next differ =>
        simp only [find?, ih]
        by_cases h : name = key'
        · subst h; simp [differ]
        · simp [h]

/-- The last entry of a name wins. -/
theorem find?_override (fields later : Fields α) (key : String) :
    find? (override fields later) key =
      ((later.reverse.find? fun entry => entry.1 == key).map Prod.snd).or (find? fields key) := by
  induction later generalizing fields with
  | nil => rfl
  | cons entry rest ih =>
    rw [List.reverse_cons, List.find?_append]
    change find? (override (insert entry.1 entry.2 fields) rest) key = _
    rw [ih, find?_insert]
    cases rest.reverse.find? fun entry => entry.1 == key with
    | some last => rfl
    | none =>
      by_cases here : entry.1 = key
      · simp [here]
      · simp [here]

theorem find?_erase_of_ne {fields : Fields α} {key other : String} (differs : key ≠ other) :
    find? (erase other fields) key = find? fields key := by
  induction fields with
  | nil => rfl
  | cons entry rest ih =>
    obtain ⟨name, value⟩ := entry
    rw [erase]
    split
    · next same =>
      rw [find?_cons, if_neg]
      exact fun known => differs (known.symm.trans same)
    · rw [find?_cons, find?_cons, ih]

/-- Filling keeps the entries that are there. -/
theorem find?_fill_of_some {fields extra : Fields α} {key : String} {value : α}
    (known : find? fields key = some value) : find? (fill fields extra) key = some value := by
  induction extra generalizing fields with
  | nil => exact known
  | cons entry rest ih =>
    have kept : find? (insertIfAbsent entry.1 entry.2 fields) key = some value := by
      rw [insertIfAbsent]
      split
      · exact known
      · next absent =>
        rw [find?_insert, if_neg, known]
        rintro rfl
        rw [contains, known] at absent
        exact absent rfl
    exact ih kept

theorem find?_map (change : String → α → β) (fields : Fields α) (key : String) :
    find? (fields.map fun field => (field.1, change field.1 field.2)) key =
      (find? fields key).map (change key) := by
  induction fields with
  | nil => rfl
  | cons field rest ih =>
    obtain ⟨name, value⟩ := field
    rw [List.map_cons, find?_cons, find?_cons, ih]
    split
    · next same => rw [same, Option.map_some]
    · rfl

theorem keys_insert_subset (key : String) (value : α) (fields : Fields α) :
    ∀ name ∈ keys (insert key value fields), name = key ∨ name ∈ keys fields := by
  induction fields with
  | nil => simp [insert, keys]
  | cons entry rest ih =>
    obtain ⟨name, old⟩ := entry
    simp only [insert]
    split
    · simp [keys]
    · split
      · next same => subst same; simp [keys]
      · intro other member
        simp only [keys, List.map_cons, List.mem_cons] at member ⊢
        rcases member with rfl | member
        · exact Or.inr (Or.inl rfl)
        · rcases ih other member with rfl | known
          · exact Or.inl rfl
          · exact Or.inr (Or.inr known)

/-- An insertion keeps the order. -/
theorem Sorted.insert {fields : Fields α} (sorted : Sorted fields) (key : String) (value : α) :
    Sorted (Fields.insert key value fields) := by
  induction fields with
  | nil => simp [Fields.insert, Sorted]
  | cons entry rest ih =>
    obtain ⟨name, old⟩ := entry
    simp only [Sorted, List.map_cons, List.pairwise_cons] at sorted
    obtain ⟨before, tail⟩ := sorted
    simp only [Fields.insert]
    split
    · next less =>
      simp only [Sorted, List.map_cons, List.pairwise_cons]
      refine ⟨?_, before, tail⟩
      intro other member
      rcases List.mem_cons.mp member with rfl | member
      · exact less
      · exact String.lt_trans less (before other member)
    · next notLess =>
      split
      · next same =>
        subst same
        simp only [Sorted, List.map_cons, List.pairwise_cons]
        exact ⟨before, tail⟩
      · next differ =>
        simp only [Sorted, List.map_cons, List.pairwise_cons]
        refine ⟨?_, ih tail⟩
        intro other member
        rcases keys_insert_subset key value rest other member with rfl | known
        · rcases String.le_total other name with le | le
          · exact absurd (String.le_antisymm le (String.not_lt.mp notLess)) differ
          · exact String.not_le.mp fun le' => differ (String.le_antisymm le' le)
        · exact before other known

theorem Sorted.override {fields later : Fields α} (sorted : Sorted fields) :
    Sorted (Fields.override fields later) := by
  induction later generalizing fields with
  | nil => exact sorted
  | cons entry rest ih => exact ih (sorted.insert entry.1 entry.2)

theorem Sorted.fill {fields extra : Fields α} (sorted : Sorted fields) :
    Sorted (Fields.fill fields extra) := by
  induction extra generalizing fields with
  | nil => exact sorted
  | cons entry rest ih =>
    have added : Sorted (insertIfAbsent entry.1 entry.2 fields) := by
      rw [insertIfAbsent]
      split
      · exact sorted
      · exact sorted.insert entry.1 entry.2
    exact ih added

theorem sorted_ofList (entries : List (String × α)) : Sorted (ofList entries) :=
  Sorted.override List.Pairwise.nil

theorem Sorted.sublist {fields part : Fields α} (sorted : Sorted fields)
    (names : (keys part).Sublist (keys fields)) : Sorted part :=
  List.Pairwise.sublist names sorted

theorem erase_sublist (key : String) (fields : Fields α) : (erase key fields).Sublist fields := by
  induction fields with
  | nil => exact .slnil
  | cons entry rest ih =>
    obtain ⟨name, value⟩ := entry
    rw [erase]
    split
    · exact List.sublist_cons_self _ _
    · exact ih.cons_cons _

theorem Sorted.erase {fields : Fields α} (sorted : Sorted fields) (key : String) :
    Sorted (Fields.erase key fields) :=
  sorted.sublist ((erase_sublist key fields).map _)

theorem Sorted.distinct {fields : Fields α} (sorted : Sorted fields) : (keys fields).Nodup :=
  sorted.imp fun less => String.ne_of_lt less

/-! ### Membership -/

theorem mem_of_find? {fields : Fields α} {key : String} {value : α}
    (found : find? fields key = some value) : (key, value) ∈ fields := by
  induction fields with
  | nil => cases found
  | cons field rest ih =>
    obtain ⟨name, other⟩ := field
    rw [find?_cons] at found
    split at found
    · next same =>
      cases found
      subst same
      exact List.mem_cons_self
    · exact List.mem_cons_of_mem _ (ih found)

theorem find?_eq_none_iff {fields : Fields α} {key : String} :
    find? fields key = none ↔ ∀ field ∈ fields, field.1 ≠ key := by
  induction fields with
  | nil => simp
  | cons field rest ih =>
    obtain ⟨name, value⟩ := field
    rw [find?_cons, List.forall_mem_cons, ← ih]
    by_cases same : name = key <;> simp [same]

/-- A name finds the field that has it. -/
theorem find?_of_mem {fields : Fields α} {field : String × α}
    (distinct : (keys fields).Nodup) (member : field ∈ fields) :
    find? fields field.1 = some field.2 := by
  induction fields with
  | nil => cases member
  | cons entry rest ih =>
    obtain ⟨name, value⟩ := entry
    obtain ⟨fresh, distinct⟩ := List.nodup_cons.mp distinct
    rw [find?_cons]
    rcases List.mem_cons.mp member with rfl | later
    · exact if_pos rfl
    · have known : field.1 ∈ keys rest := List.mem_map_of_mem later
      have differs : name ≠ field.1 := fun same => fresh (same.symm.subst known)
      rw [if_neg differs]
      exact ih distinct later

theorem mem_insert {fields : Fields α} {key : String} {value : α} {field : String × α}
    (member : field ∈ insert key value fields) : field = (key, value) ∨ field ∈ fields := by
  induction fields with
  | nil => exact .inl (List.mem_singleton.mp member)
  | cons entry rest ih =>
    obtain ⟨name, old⟩ := entry
    rw [insert] at member
    split at member
    · exact List.mem_cons.mp member
    · split at member
      · rcases List.mem_cons.mp member with rfl | later
        · exact .inl rfl
        · exact .inr (List.mem_cons_of_mem _ later)
      · rcases List.mem_cons.mp member with rfl | later
        · exact .inr List.mem_cons_self
        · exact (ih later).imp_right (List.mem_cons_of_mem _)

theorem mem_erase {fields : Fields α} {key : String} {field : String × α}
    (member : field ∈ erase key fields) : field ∈ fields := by
  induction fields with
  | nil => exact member
  | cons entry rest ih =>
    obtain ⟨name, old⟩ := entry
    rw [erase] at member
    split at member
    · exact List.mem_cons_of_mem _ member
    · rcases List.mem_cons.mp member with rfl | later
      · exact List.mem_cons_self
      · exact List.mem_cons_of_mem _ (ih later)

theorem mem_override {fields later : Fields α} {field : String × α}
    (member : field ∈ override fields later) : field ∈ fields ∨ field ∈ later := by
  induction later generalizing fields with
  | nil => exact .inl member
  | cons entry rest ih =>
    have after : field ∈ override (insert entry.1 entry.2 fields) rest := member
    rcases ih after with known | inRest
    · rcases mem_insert known with rfl | old
      · exact .inr List.mem_cons_self
      · exact .inl old
    · exact .inr (List.mem_cons_of_mem _ inRest)

theorem mem_fill {fields extra : Fields α} {field : String × α}
    (member : field ∈ fill fields extra) : field ∈ fields ∨ field ∈ extra := by
  induction extra generalizing fields with
  | nil => exact .inl member
  | cons entry rest ih =>
    have after : field ∈ fill (insertIfAbsent entry.1 entry.2 fields) rest := member
    rcases ih after with known | inRest
    · rw [insertIfAbsent] at known
      split at known
      · exact .inl known
      · rcases mem_insert known with rfl | old
        · exact .inr List.mem_cons_self
        · exact .inl old
    · exact .inr (List.mem_cons_of_mem _ inRest)

theorem mem_ofList {entries : List (String × α)} {field : String × α}
    (member : field ∈ ofList entries) : field ∈ entries :=
  (mem_override member).resolve_left List.not_mem_nil

end Fields

end Cascade
