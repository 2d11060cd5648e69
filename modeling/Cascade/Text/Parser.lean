import Cascade.Text.Blank

/-!
# Ordered-choice parsers

A parser either accepts a part of the text and returns what follows, or fails and tells where it
stood when it failed. A choice tries its alternatives in order from the same place; if all fail, the
place where the last one stood is kept. That place is what an error message points at.

## Main definitions

* `Parsed`, `Parser` with its monad.
* `Parser.choose`, `Parser.optional`, `Parser.many`, `Parser.separated`, `Parser.notFollowedBy`,
  `Parser.followedBy`.
-/

namespace Cascade

/-- The result of a parser: a value and the rest of the text, or the rest at the place of failure.
-/
inductive Parsed (α : Type) where
  | accepted (value : α) (rest : List Char)
  | failed (stopped : List Char)
deriving Repr, DecidableEq

/-- A parser over the characters that are left. -/
def Parser (α : Type) := List Char → Parsed α

namespace Parser

variable {α β : Type}

/-- Accepts nothing. -/
def yield (value : α) : Parser α := fun cs => .accepted value cs

/-- Goes on after a success. -/
def andThen (p : Parser α) (f : α → Parser β) : Parser β := fun cs =>
  match p cs with
  | .accepted value rest => f value rest
  | .failed stopped => .failed stopped

instance : Monad Parser where
  pure := yield
  bind := andThen

@[simp] theorem pure_apply (value : α) (cs : List Char) :
    (pure value : Parser α) cs = .accepted value cs := rfl

theorem bind_apply (p : Parser α) (f : α → Parser β) (cs : List Char) :
    (p >>= f) cs = match p cs with
      | .accepted value rest => f value rest
      | .failed stopped => .failed stopped := rfl

/-- Fails where it stands. -/
def fail : Parser α := fun cs => .failed cs

/-- The second parser from the same place if the first one fails. -/
def orElse (p q : Parser α) : Parser α := fun cs =>
  match p cs with
  | .accepted value rest => .accepted value rest
  | .failed _ => q cs

/-- The first parser of a list that succeeds. -/
def choose : List (Parser α) → Parser α
  | [] => fail
  | [p] => p
  | p :: rest => orElse p (choose rest)

/-- A parser whose failure means absence. -/
def optional (p : Parser α) : Parser (Option α) := fun cs =>
  match p cs with
  | .accepted value rest => .accepted (some value) rest
  | .failed _ => .accepted none cs

/-- Succeeds without accepting anything if the parser fails here. -/
def notFollowedBy (p : Parser α) : Parser Unit := fun cs =>
  match p cs with
  | .accepted _ _ => .failed cs
  | .failed _ => .accepted () cs

/-- Succeeds without accepting anything if the parser succeeds here. -/
def followedBy (p : Parser α) : Parser Unit := fun cs =>
  match p cs with
  | .accepted _ _ => .accepted () cs
  | .failed _ => .failed cs

/-- At most `count` repetitions. -/
def upTo (p : Parser α) : Nat → List Char → List α × List Char
  | 0, cs => ([], cs)
  | count + 1, cs =>
    match p cs with
    | .accepted value rest =>
      let (values, rest) := upTo p count rest
      (value :: values, rest)
    | .failed _ => ([], cs)

/-- Repetitions until the parser fails. Each accepts something, so no more than there are
characters. -/
def many (p : Parser α) : Parser (List α) := fun cs =>
  let (values, rest) := upTo p cs.length cs
  .accepted values rest

/-- Values between separators. A separator that no value follows is left unread. -/
def separated (p : Parser α) (separator : Parser β) : Parser (List α) := do
  match ← optional p with
  | none => return []
  | some first => return first :: (← many (do let _ ← separator; p))

/-- One character of a class. -/
def satisfy (p : Char → Bool) : Parser Char
  | [] => .failed []
  | c :: rest => if p c then .accepted c rest else .failed (c :: rest)

/-- The given character. -/
def char (c : Char) : Parser Unit := fun cs =>
  match cs with
  | [] => .failed cs
  | d :: rest => if d = c then .accepted () rest else .failed cs

/-- The given characters, all or none. -/
def word (w : List Char) : Parser Unit := fun cs =>
  if w.isPrefixOf cs then .accepted () (cs.drop w.length) else .failed cs

/-- Any number of characters of a class. -/
def takeWhile (p : Char → Bool) : Parser (List Char) := fun cs =>
  .accepted (cs.takeWhile p) (cs.dropWhile p)

/-- One or more characters of a class. -/
def takeWhile1 (p : Char → Bool) : Parser (List Char) := fun cs =>
  match cs.takeWhile p with
  | [] => .failed cs
  | taken => .accepted taken (cs.dropWhile p)

/-- Any spacing. -/
def spaces : Parser Unit := fun cs => .accepted () (cs.dropWhile Blank.isSpacing)

/-- Spacing of at least one character. -/
def spaces1 : Parser Unit := do
  let _ ← takeWhile1 Blank.isSpacing

/-- Decimal digits, at least one. -/
def digits1 : Parser (List Char) := takeWhile1 Char.isDigit

/-- A parser between spacing. -/
def spaced (p : Parser α) : Parser α := do
  spaces
  let value ← p
  spaces
  return value

end Parser

/-- The natural number of decimal digits. -/
def naturalOfDigits (digits : List Char) : Nat :=
  digits.foldl (fun n c => n * 10 + (c.toNat - '0'.toNat)) 0

end Cascade
