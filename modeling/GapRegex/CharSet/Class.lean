import GapRegex.CharSet.Basic
import GapRegex.Dialect

/-!
# Class — literals, and the set that the body of a bracketed class stands for

A literal is a character that stands for itself.  It is written bare, or after the escape.  Outside
a bracketed class the difference is gone once the literal is read; inside a class it decides whether
a dash spans a range.

A bare dash between two bare literals spans a range.  Anywhere else, and beside an escaped
literal, a dash is a member.  The end of a range is spent with it, but it can start the next one:
`a-c-e` holds the letters from `a` to `e`.
-/

namespace GapRegex

/-- A character together with the way it is written. -/
structure Literal where
  char : Char
  /-- Whether the escape stands before it. -/
  escaped : Bool
  deriving DecidableEq, Repr

namespace Literal

/-- A dash that is not escaped, the only one that can span a range. -/
def isDash (x : Literal) : Bool := x.char == '-' && !x.escaped

/-- The literal as it stands in an expression. -/
def text (g : Dialect) (x : Literal) : List Char :=
  if x.escaped then [g.escape, x.char] else [x.char]

end Literal

namespace CharSet

/-- Adds the members of a class body to a set.  The literal before the body decides whether a
dash in front spans a range. -/
def addClass (s : CharSet) : Option Literal → List Literal → CharSet
  | _, [] => s
  | _, [x] => s.add x.char
  | none, x :: y :: rest => (s.add x.char).addClass (some x) (y :: rest)
  | some w, x :: y :: rest =>
    if x.isDash && !w.escaped && !y.escaped then
      (s.addRange w.char y.char).addClass (some y) rest
    else (s.add x.char).addClass (some x) (y :: rest)

/-- The set of a class body.  An empty body has no members. -/
def ofClass (body : List Literal) : CharSet := empty.addClass none body

end CharSet

end GapRegex
