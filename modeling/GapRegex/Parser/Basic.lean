import GapRegex.CharSet.Class
import GapRegex.Cursor.Scan
import GapRegex.NormalForm
import GapRegex.Pattern.Basic

/-!
# Parser — expressions by recursive descent

The syntax of normal text, with `@` for the sentinel of the dialect:

    regex  := term ('|' regex)?
    term   := item*
    item   := '@' factor | '[' class ']' ('+' | '*')? factor | factor
    factor := base ('*' | '+' | '{' number ',' number '}')?
    base   := '(' regex ')' | literal*

A term is read from left to right, and each item takes the term so far as its left part.  Every
production returns a `Reading`, which says that it leaves no more text than it found; an item
leaves less.  That is why the descent ends, and no production looks at a character twice.
-/

namespace GapRegex.Parser

open Scan

/-- A value read at `c`, and the place after it. -/
structure Reading (α : Type) (c : Cursor) where
  value : α
  next : Cursor
  unread_le : next.unread ≤ c.unread

/-- A step that does not go back, as a reading. -/
def read {α : Type} {s : Scan α} (hs : Forward s) (c : Cursor) :
    Except ParseError (Reading α c) :=
  match h : s c with
  | .ok a d => .ok ⟨a, d, hs h⟩
  | .error e _ => .error e

/-! ### Leaves -/

/-- The body of a bracketed class, up to the bracket that closes it. -/
def classBody (g : Dialect) : Scan (List Literal) := do
  let body ← literalsUntil g (· == ']')
  let c ← get
  if c.more then return body else throw (.expectedChar c.pos ']' none)

/-- What is left of a bracketed class after it is opened: the members, and whether a mark for
several of them follows. -/
def bracketed (g : Dialect) : Scan (CharSet × Bool) := do
  let body ← classBody g
  expect ']'
  if ← consume '+' then return (.ofClass body, true)
  return (.ofClass body, ← consume '*')

/-- The longest run of literals; it may be empty. -/
def literalRun (g : Dialect) : Scan Pattern := do
  let run ← literalsUntil g g.isReserved
  return .ofText (run.map Literal.char)

/-- The bounds of a counted repetition, from its opening brace on. -/
def counted : Scan Repetition := do
  let pos := (← get).pos
  expect '{'
  let least ← nextNumber
  expect ','
  let greatest ← nextNumber
  expect '}'
  if least > greatest then throw (.reversedBounds pos least greatest)
  return .between least greatest

/-- The mark of a repetition, which starts with `lit`. -/
def repetitionMark (lit : Char) : Scan Repetition := do
  if lit = '*' then
    expect '*'
    return .zeroOrMore
  if lit = '+' then
    expect '+'
    return .oneOrMore
  counted

/-- The characters that a mark of repetition starts with. -/
def startsRepetition (c : Char) : Bool := c == '*' || c == '+' || c == '{'

theorem forward_get : Forward (get : Scan Cursor) := by
  intro c a d h
  cases h
  exact Nat.le_refl _

theorem forward_throw {α : Type} (e : ParseError) : Forward (throw e : Scan α) := by
  intro c a d h
  cases h

theorem forward_classBody (g : Dialect) : Forward (classBody g) :=
  (forward_literalsUntil g _).bind fun _ => forward_get.bind fun c => by
    split
    · exact Forward.pure _
    · exact forward_throw _

theorem forward_bracketed (g : Dialect) : Forward (bracketed g) :=
  (forward_classBody g).bind fun _ => (forward_expect _).bind fun _ =>
    (forward_consume _).bind fun b => by
      cases b
      · exact (forward_consume _).bind fun _ => Forward.pure _
      · exact Forward.pure _

theorem forward_literalRun (g : Dialect) : Forward (literalRun g) :=
  (forward_literalsUntil g _).bind fun _ => Forward.pure _

theorem forward_counted : Forward counted :=
  forward_get.bind fun _ => (forward_expect _).bind fun _ => forward_nextNumber.bind fun _ =>
    (forward_expect _).bind fun _ => forward_nextNumber.bind fun _ =>
      (forward_expect _).bind fun _ => by
        dsimp only
        split
        · exact (forward_throw _).bind fun _ => Forward.pure _
        · exact Forward.pure _

theorem forward_repetitionMark (lit : Char) : Forward (repetitionMark lit) := by
  unfold repetitionMark
  split
  · exact (forward_expect _).bind fun _ => Forward.pure _
  · split
    · exact (forward_expect _).bind fun _ => Forward.pure _
    · exact forward_counted

/-! ### Productions -/

mutual

/-- A term, or alternatives of which none is empty. -/
def regex (g : Dialect) (c : Cursor) : Except ParseError (Reading Pattern c) :=
  match term g c .blank with
  | .error e => .error e
  | .ok ⟨left, d, hd⟩ =>
    if h : d.peek = some '|' then
      if left.isBlank then .error (.emptyAlternative c.pos)
      else
        match regex g d.advance with
        | .error e => .error e
        | .ok ⟨right, e, he⟩ =>
          if right.isBlank then .error (.emptyAlternative d.advance.pos)
          else .ok ⟨.union left right, e, by have := d.unread_advance; omega⟩
    else .ok ⟨left, d, hd⟩
termination_by 5 * c.unread + 4
decreasing_by
  · omega
  · have := d.unread_advance
    have := Cursor.unread_pos h
    omega

/-- The rest of a term that begins with `before`, up to a closing parenthesis, a bar or the end. -/
def term (g : Dialect) (c : Cursor) (before : Pattern) : Except ParseError (Reading Pattern c) :=
  match h : c.peek with
  | none => .ok ⟨before, c, Nat.le_refl _⟩
  | some ch =>
    if ch = ')' ∨ ch = '|' then .ok ⟨before, c, Nat.le_refl _⟩
    else
      match item g c ch before with
      | .error e => .error e
      | .ok ⟨p, d, hd⟩ =>
        match term g d p with
        | .error e => .error e
        | .ok ⟨q, e, he⟩ => .ok ⟨q, e, by have := c.unread_advance; omega⟩
termination_by 5 * c.unread + 3
decreasing_by
  · omega
  · have := c.unread_advance
    have := Cursor.unread_pos h
    omega

/-- One item, which starts with `ch`, joined to the term `before` it. -/
def item (g : Dialect) (c : Cursor) (ch : Char) (before : Pattern) :
    Except ParseError (Reading Pattern c.advance) :=
  if ch = g.sentinel then
    match factor g c.advance with
    | .error e => .error e
    | .ok ⟨after, d, hd⟩ =>
      match before.gap? after with
      | none => .error (.blankGap c.pos)
      | some p => .ok ⟨p, d, hd⟩
  else if ch = '[' then
    match read (forward_bracketed g) c.advance with
    | .error e => .error e
    | .ok ⟨(members, repeated), d, hd⟩ =>
      match factor g d with
      | .error e => .error e
      | .ok ⟨after, e, he⟩ =>
        .ok ⟨.charClass before after members repeated, e, Nat.le_trans he hd⟩
  else
    match factor g c with
    | .error e => .error e
    | .ok ⟨p, d, hd⟩ =>
      if h : d.unread < c.unread then
        .ok ⟨before.append p, d, by have := c.unread_advance; omega⟩
      else .error (.unexpectedChar c.pos ch)
termination_by 5 * c.unread + 2
decreasing_by
  · have := c.unread_advance
    omega
  · have := c.unread_advance
    omega
  · omega

/-- A base and the repetition of it, if a mark follows. -/
def factor (g : Dialect) (c : Cursor) : Except ParseError (Reading Pattern c) :=
  match base g c with
  | .error e => .error e
  | .ok ⟨p, d, hd⟩ =>
    match d.peek with
    | none => .ok ⟨p, d, hd⟩
    | some lit =>
      if startsRepetition lit then
        if p.isBlank then .error (.nothingToRepeat d.pos lit)
        else
          match read (forward_repetitionMark lit) d with
          | .error e => .error e
          | .ok ⟨times, e, he⟩ => .ok ⟨.repetition p times, e, Nat.le_trans he hd⟩
      else .ok ⟨p, d, hd⟩
termination_by 5 * c.unread + 1
decreasing_by omega

/-- A group or a run of literals. -/
def base (g : Dialect) (c : Cursor) : Except ParseError (Reading Pattern c) :=
  if h : c.peek = some '(' then
    match regex g c.advance with
    | .error e => .error e
    | .ok ⟨p, d, hd⟩ =>
      match read (forward_expect ')') d with
      | .error e => .error e
      | .ok ⟨_, e, he⟩ => .ok ⟨p, e, by have := c.unread_advance; omega⟩
  else read (forward_literalRun g) c
termination_by 5 * c.unread
decreasing_by
  have := c.unread_advance
  have := Cursor.unread_pos h
  omega

end

/-! ### Whole expressions -/

/-- The pattern of a normal text, all of which has to be read. -/
def parseNormal (g : Dialect) (text : List Char) : Except ParseError Pattern :=
  match regex g (.start text) with
  | .error e => .error e
  | .ok ⟨p, d, _⟩ =>
    match d.peek with
    | some lit => .error (.unexpectedChar d.pos lit)
    | none => if p.isBlank then .error .emptyExpression else .ok p

end Parser

namespace Pattern

/-- The pattern of a raw expression in the dialect `g`.  It is never blank. -/
def parseWith (g : Dialect) (raw : List Char) : Except ParseError Pattern :=
  match NormalForm.normalize g raw with
  | .error e => .error e
  | .ok text => Parser.parseNormal g text

/-- The pattern of a raw expression in the standard dialect. -/
def parse (raw : List Char) : Except ParseError Pattern := parseWith .standard raw

end Pattern

end GapRegex
