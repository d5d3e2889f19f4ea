/-!
# ParseError — what can be wrong with an expression

Each constructor of `ParseError` is one cause, with what its message has to tell.  Positions count
characters of the normal text, from zero.
-/

namespace GapRegex

/-- Why an expression cannot be read. -/
inductive ParseError where
  /-- Another character than the one the syntax asks for, or the end of the text (`none`). -/
  | expectedChar (pos : Nat) (expected : Char) (actual : Option Char)
  /-- A character that neither starts nor continues anything here. -/
  | unexpectedChar (pos : Nat) (lit : Char)
  /-- A repetition of nothing. -/
  | nothingToRepeat (pos : Nat) (lit : Char)
  /-- A repetition bound outside the range of bounds. -/
  | boundTooLarge (pos : Nat)
  /-- A repetition with more repetitions at least than at most. -/
  | reversedBounds (pos least greatest : Nat)
  /-- A gap with nothing before or after it. -/
  | blankGap (pos : Nat)
  /-- An alternation with an empty side. -/
  | emptyAlternative (pos : Nat)
  /-- The text ends where a character has to follow. -/
  | unexpectedEnd (pos : Nat)
  /-- Nothing is left to read. -/
  | emptyExpression
  deriving DecidableEq, Repr

namespace ParseError

/-- The broad classes of errors. -/
inductive Category where
  /-- The text does not follow the syntax. -/
  | syntactic
  /-- The text follows the syntax but means nothing. -/
  | semantic
  /-- The text stops too early. -/
  | bounds
  deriving DecidableEq, Repr

def category : ParseError → Category
  | expectedChar .. | unexpectedChar .. | nothingToRepeat .. | boundTooLarge .. => .syntactic
  | reversedBounds .. | blankGap .. | emptyAlternative .. => .semantic
  | unexpectedEnd .. | emptyExpression => .bounds

/-- The place in the normal text, if the error has one. -/
def position? : ParseError → Option Nat
  | expectedChar pos .. | unexpectedChar pos _ | nothingToRepeat pos _ | boundTooLarge pos
  | reversedBounds pos .. | blankGap pos | emptyAlternative pos | unexpectedEnd pos => some pos
  | emptyExpression => none

/-- A character as messages name it: between single quotes and otherwise as it is. -/
def describe : Option Char → String
  | some c => s!"'{c}'"
  | none => "end of expression"

def message : ParseError → String
  | expectedChar pos expected actual =>
    s!"expected '{expected}', got {describe actual} at {pos}"
  | unexpectedChar pos lit => s!"unexpected '{lit}' at {pos}"
  | nothingToRepeat pos lit => s!"nothing to repeat before '{lit}' at {pos}"
  | boundTooLarge pos => s!"repetition bound too large at {pos}"
  | reversedBounds pos least greatest =>
    s!"invalid repetition range \x7b{least},{greatest}\x7d at {pos}"
  | blankGap pos => s!"invalid blank children of wildcard operator at {pos}"
  | emptyAlternative pos => s!"empty alternative at {pos}"
  | unexpectedEnd pos => s!"unexpected end of expression at {pos}"
  | emptyExpression => "empty expression"

instance : ToString ParseError := ⟨message⟩

end ParseError

end GapRegex
