/-!
# Repetition — how often a part of an expression has to occur

A bound is less than `2 ^ 64` wherever it was read from text; the type does not ask for it, nor
for a least number of times below the greatest.
-/

namespace GapRegex

/-- The bounds of a counted repetition are less than this, which is `2 ^ 64`. -/
def boundLimit : Nat := UInt64.size

/-- Two bounds between braces, as digits. -/
def boundsText (least greatest : List Char) : List Char :=
  '{' :: least ++ ',' :: greatest ++ ['}']

theorem boundsText_append (least greatest rest : List Char) :
    boundsText least greatest ++ rest = '{' :: (least ++ ',' :: (greatest ++ '}' :: rest)) := by
  simp [boundsText]

inductive Repetition where
  | zeroOrMore
  | oneOrMore
  /-- Both bounds are included. -/
  | between (least greatest : Nat)
  deriving DecidableEq, Repr

namespace Repetition

/-- The smallest number of times. -/
def min : Repetition → Nat
  | zeroOrMore => 0
  | oneOrMore => 1
  | between least _ => least

/-- The largest number of times, if there is one. -/
def max? : Repetition → Option Nat
  | zeroOrMore | oneOrMore => none
  | between _ greatest => some greatest

/-- The mark that stands after what is repeated. -/
def text : Repetition → List Char
  | zeroOrMore => ['*']
  | oneOrMore => ['+']
  | between least greatest => boundsText (Nat.toDigits 10 least) (Nat.toDigits 10 greatest)

end Repetition

end GapRegex
