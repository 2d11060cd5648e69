/-!
# Annotations

Flags and metadata of a node besides its value. Diagnostics (`hasError`, `failed`, `issue`) belong
to one pass and are cleared when the node resolves; everything else stays with the node.

## Main definitions

* `Issue`: a message with the messages that caused it.
* `Annotations`, `Annotations.blocksOverride`, `Annotations.clearIssue`.
-/

namespace Cascade

/-- A diagnostic message and its causes. -/
structure Issue where
  message : String
  nested : List Issue
  /-- The causes are consecutive steps, not alternatives. -/
  sequence : Bool
deriving Repr, Inhabited

namespace Issue

/-- A message without causes. -/
def ofMessage (message : String) : Issue := ⟨message, [], false⟩

/-- A message with its causes. -/
def withNested (message : String) (nested : List Issue) : Issue := ⟨message, nested, false⟩

mutual

/-- Equality of issues. -/
def same : Issue → Issue → Bool
  | ⟨m, n, s⟩, ⟨m', n', s'⟩ => m == m' && sameList n n' && s == s'

/-- Equality of causes. -/
def sameList : List Issue → List Issue → Bool
  | [], [] => true
  | a :: as, b :: bs => same a b && sameList as bs
  | _, _ => false

end

instance : BEq Issue := ⟨same⟩

mutual

theorem eq_of_same : ∀ {a b : Issue}, same a b = true → a = b
  | ⟨m, n, s⟩, ⟨m', n', s'⟩, equal => by
    simp only [same, Bool.and_eq_true, beq_iff_eq] at equal
    obtain ⟨⟨rfl, nested⟩, rfl⟩ := equal
    rw [eq_of_sameList nested]

theorem eq_of_sameList : ∀ {a b : List Issue}, sameList a b = true → a = b
  | [], [], _ => rfl
  | a :: as, b :: bs, equal => by
    simp only [sameList, Bool.and_eq_true] at equal
    rw [eq_of_same equal.1, eq_of_sameList equal.2]

end

mutual

theorem same_refl : ∀ a : Issue, same a a = true
  | ⟨m, n, s⟩ => by simp [same, sameList_refl n]

theorem sameList_refl : ∀ a : List Issue, sameList a a = true
  | [] => rfl
  | a :: as => by simp [sameList, same_refl a, sameList_refl as]

end

instance : LawfulBEq Issue where
  eq_of_beq := eq_of_same
  rfl := same_refl _

end Issue

/-- Flags and metadata of a node. -/
structure Annotations where
  /-- Visible while flowing, absent from the result. -/
  temporary : Bool := false
  /-- Absent from the result and from prepared stubs. -/
  localOnly : Bool := false
  /-- A stub field added to a template that lacks it. -/
  inject : Bool := false
  /-- A stub value used only where the template has none. -/
  default : Bool := false
  /-- Part of the state document. -/
  state : Bool := false
  /-- A merged value that replaces the node as a whole. -/
  replace : Bool := false
  /-- Taken from a stub. -/
  merged : Bool := false
  /-- The merge directive of the list is carried out; its entries are overridden one by one. -/
  expanded : Bool := false
  /-- A value that no stub overrides. -/
  preferred : Bool := false
  /-- The node's own expression failed. -/
  hasError : Bool := false
  /-- The node depends on one that failed. -/
  failed : Bool := false
  /-- The path under which stub values of this subtree are looked up. -/
  redirectPath : Option (List String) := none
  /-- The field that identifies the entries of this list. -/
  keyName : Option String := none
  tag : Option String := none
  issue : Option Issue := none
deriving Repr, BEq

instance : LawfulBEq Annotations where
  eq_of_beq {a b} equal := by
    cases a
    cases b
    change instBEqAnnotations.beq _ _ = true at equal
    simpa [instBEqAnnotations.beq] using equal
  rfl {a} := by
    cases a
    change instBEqAnnotations.beq _ _ = true
    simp [instBEqAnnotations.beq]

namespace Annotations

/-- Stubs do not override the node. -/
def blocksOverride (a : Annotations) : Bool :=
  a.merged || a.preferred || a.replace

/-- The annotations without diagnostics. -/
def clearIssue (a : Annotations) : Annotations :=
  { a with hasError := false, failed := false, issue := none }

/-- No flag or metadata is set. -/
def isPlain (a : Annotations) : Bool := a == {}

end Annotations

end Cascade
