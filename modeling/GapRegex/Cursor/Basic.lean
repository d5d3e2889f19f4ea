/-!
# Cursor — a place in a text

A cursor knows how many characters lie before it, and the characters after it.  It looks one
character ahead.
-/

namespace GapRegex

/-- A place in a text. -/
structure Cursor where
  /-- The number of characters before this place. -/
  pos : Nat
  /-- The characters from this place on. -/
  rest : List Char
  deriving DecidableEq, Repr

namespace Cursor

/-- The place before a text. -/
def start (text : List Char) : Cursor := ⟨0, text⟩

/-- The number of characters after this place. -/
def unread (c : Cursor) : Nat := c.rest.length

/-- The next character, which stays unread. -/
def peek (c : Cursor) : Option Char := c.rest.head?

/-- Whether there is a next character. -/
def more (c : Cursor) : Bool := !c.rest.isEmpty

/-- Whether the next character is `ch`. -/
def isAt (c : Cursor) (ch : Char) : Bool := c.peek == some ch

/-- The place `n` characters further on. -/
def skip (c : Cursor) (n : Nat) : Cursor := ⟨c.pos + n, c.rest.drop n⟩

/-- The place after the next character. -/
def advance (c : Cursor) : Cursor := c.skip 1

@[simp] theorem unread_skip (c : Cursor) (n : Nat) : (c.skip n).unread = c.unread - n := by
  simp [skip, unread]

@[simp] theorem unread_advance (c : Cursor) : c.advance.unread = c.unread - 1 :=
  unread_skip c 1

theorem unread_pos {c : Cursor} {ch : Char} (h : c.peek = some ch) : 0 < c.unread := by
  cases hr : c.rest <;> simp_all [peek, unread]

end Cursor

end GapRegex
