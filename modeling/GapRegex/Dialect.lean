/-!
# Dialect — the characters with a role of their own

An expression is plain text in which nine operators, one marker for a gap and one escape have a
role.  The operators are fixed.  The gap's two-character shorthand, the marker that replaces it
(the sentinel) and the escape are chosen by a `Dialect`.  Nothing keeps these choices apart: a
dialect whose sentinel is an operator is a dialect too, and the reader's order of tests decides
what such a character does.
-/

namespace GapRegex

/-- The operators, which stand for themselves only after the escape. -/
def operators : List Char := ['(', ')', '{', '}', '[', ']', '|', '+', '*']

/-- The characters that the user of the language may choose. -/
structure Dialect where
  /-- The two characters that together ask for a gap in raw text. -/
  gap : Char × Char
  /-- The one character that marks a gap in normal text. -/
  sentinel : Char
  /-- Makes the next character a literal. -/
  escape : Char
  deriving DecidableEq, Repr

namespace Dialect

/-- Gap `.*`, sentinel `@`, escape `\`. -/
def standard : Dialect := ⟨('.', '*'), '@', '\\'⟩

instance : Inhabited Dialect := ⟨standard⟩

/-- The dialect with another sentinel. -/
def withSentinel (g : Dialect) (s : Char) : Dialect := { g with sentinel := s }

@[simp] theorem withSentinel_gap (g : Dialect) (s : Char) : (g.withSentinel s).gap = g.gap := rfl

@[simp] theorem withSentinel_sentinel (g : Dialect) (s : Char) :
    (g.withSentinel s).sentinel = s := rfl

@[simp] theorem withSentinel_escape (g : Dialect) (s : Char) :
    (g.withSentinel s).escape = g.escape := rfl

/-- A reserved character ends a run of literals. -/
def isReserved (g : Dialect) (c : Char) : Bool :=
  c == g.sentinel || operators.contains c

theorem isReserved_iff {g : Dialect} {c : Char} :
    g.isReserved c = true ↔ c = g.sentinel ∨ c ∈ operators := by
  simp [isReserved]

theorem isReserved_eq_false {g : Dialect} {c : Char} :
    g.isReserved c = false ↔ c ≠ g.sentinel ∧ c ∉ operators := by
  rw [Bool.eq_false_iff, Ne, isReserved_iff, not_or]

end Dialect

end GapRegex
