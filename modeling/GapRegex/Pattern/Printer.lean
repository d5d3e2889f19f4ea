import GapRegex.CharSet.Class
import GapRegex.Pattern.Basic

/-!
# Printer — a pattern as an expression

`Pattern.text` writes a pattern in the standard dialect, with gaps as `.*`, so that reading the
text gives the pattern back.  The members of a class are written one by one.  Parentheses stand
only where they are needed: around a union that is followed by something, around what is repeated,
and around a right part that would otherwise join what is before it.
-/

namespace GapRegex.Pattern

/-- A character with the escape before it if it is not free outside a class. -/
def quoteLiteral (c : Char) : List Char :=
  let g := Dialect.standard
  Literal.text g ⟨c, g.isReserved c || c == g.escape || c == g.gap.1⟩

/-- A character with the escape before it if it is not free inside a class. -/
def quoteMember (c : Char) : List Char :=
  let g := Dialect.standard
  Literal.text g ⟨c, c == '[' || c == ']' || c == '-' || c == g.escape⟩

def parenthesized (text : List Char) : List Char := '(' :: text ++ [')']

/-- The text of `p`, fit to have something after it. -/
def termText (p : Pattern) (text : List Char) : List Char :=
  match p with
  | union .. => parenthesized text
  | _ => text

/-- The text of `p`, fit to be one factor. -/
def factorText (p : Pattern) (text : List Char) : List Char :=
  match p with
  | blank | literal _ | repetition .. => text
  | _ => parenthesized text

/-- The text of `p` where it follows `left`.  After a class with nothing behind it, a factor
would become part of the class; after anything else, a literal could join another one. -/
def followText (left p : Pattern) (text : List Char) : List Char :=
  match left, p with
  | charClass _ blank .., _ => '(' :: ')' :: factorText p text
  | _, literal _ => parenthesized text
  | _, _ => factorText p text

/-- The text of a class between its neighbours. -/
def classText (members : CharSet) (repeated : Bool) : List Char :=
  '[' :: members.toList.flatMap quoteMember ++ ']' :: if repeated then ['+'] else []

/-- The expression of a pattern. -/
def text : Pattern → List Char
  | blank => []
  | literal s => s.flatMap quoteLiteral
  | concat left right => left.termText left.text ++ left.followText right right.text
  | union left right => left.termText left.text ++ '|' :: right.text
  | repetition inner times => parenthesized inner.text ++ times.text
  | gap before after => before.termText before.text ++ '.' :: '*' :: after.factorText after.text
  | charClass before after members repeated =>
    before.termText before.text ++ classText members repeated ++ after.factorText after.text

instance : ToString Pattern := ⟨fun p => String.ofList p.text⟩

end GapRegex.Pattern
