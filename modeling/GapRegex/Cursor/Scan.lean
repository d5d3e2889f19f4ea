import GapRegex.Cursor.Basic
import GapRegex.CharSet.Class
import GapRegex.ParseError
import GapRegex.Repetition

/-!
# Scan — reading steps at a cursor

A step of reading is an action of `Scan`.  It keeps the cursor also where it fails, so what was
consumed before an error stays consumed.  No step goes back (`Forward`), which is why a reader
that is made of steps comes to an end.
-/

namespace GapRegex

/-- A reading step: a value or an error, and in both cases the place after it. -/
abbrev Scan := EStateM ParseError Cursor

namespace Scan

/-- Consumes `ch` if it comes next, and tells whether it did. -/
def consume (ch : Char) : Scan Bool := fun c =>
  if c.isAt ch then .ok true c.advance else .ok false c

/-- Consumes `ch`; anything else is an error and stays unread. -/
def expect (ch : Char) : Scan Unit := fun c =>
  if c.isAt ch then .ok () c.advance else .error (.expectedChar c.pos ch c.peek) c

/-- Consumes the next character. -/
def next : Scan Char := fun c =>
  match c.peek with
  | some ch => .ok ch c.advance
  | none => .error (.unexpectedEnd c.pos) c

/-- Consumes a literal.  Where nothing follows an escape, the escape is consumed. -/
def nextLiteral (g : Dialect) : Scan Literal := do
  let escaped ← consume g.escape
  return ⟨← next, escaped⟩

/-- Reads decimal digits onto `value`, and counts those that it reads.  There is no value where
one more digit would take it to the limit of bounds; that digit is not read. -/
def readDigits (value : Nat) : List Char → Option Nat × Nat
  | [] => (some value, 0)
  | c :: rest =>
    if c.isDigit then
      let value := 10 * value + (c.toNat - '0'.toNat)
      if value < boundLimit then
        let (result, count) := readDigits value rest
        (result, count + 1)
      else (none, 0)
    else (some value, 0)

/-- Consumes a run of ASCII digits, which has to denote a number below the limit of bounds. -/
def nextNumber : Scan Nat := fun c =>
  match readDigits 0 c.rest with
  | (none, count) => .error (.boundTooLarge c.pos) (c.skip count)
  | (some _, 0) => .error (.expectedChar c.pos '0' c.peek) c
  | (some value, count) => .ok value (c.skip count)

/-- The literals before the first bare character that `stop` accepts, or before the end: those
of `text`, which starts at `pos`, after the ones already read, last one first. -/
def literalsFrom (g : Dialect) (stop : Char → Bool) (pos : Nat) (text : List Char)
    (before : List Literal) : EStateM.Result ParseError Cursor (List Literal) :=
  match text with
  | [] => .ok before.reverse ⟨pos, []⟩
  | c :: rest =>
    if stop c then .ok before.reverse ⟨pos, c :: rest⟩
    else if c = g.escape then
      match rest with
      | [] => .error (.unexpectedEnd (pos + 1)) ⟨pos + 1, []⟩
      | x :: rest => literalsFrom g stop (pos + 2) rest (⟨x, true⟩ :: before)
    else literalsFrom g stop (pos + 1) rest (⟨c, false⟩ :: before)

/-- Consumes the literals before the first bare character that `stop` accepts. -/
def literalsUntil (g : Dialect) (stop : Char → Bool) : Scan (List Literal) := fun c =>
  literalsFrom g stop c.pos c.rest []

/-! ### No step goes back -/

/-- Where the step succeeds, it leaves no more to read than there was. -/
def Forward {α : Type} (s : Scan α) : Prop :=
  ∀ ⦃c a d⦄, s c = .ok a d → d.unread ≤ c.unread

theorem Forward.pure {α : Type} (a : α) : Forward (Pure.pure a : Scan α) := by
  intro c b d h
  cases h
  exact Nat.le_refl _

theorem Forward.bind {α β : Type} {s : Scan α} {f : α → Scan β} (hs : Forward s)
    (hf : ∀ a, Forward (f a)) : Forward (s >>= f) := by
  intro c b e h
  simp only [Bind.bind, EStateM.bind] at h
  split at h
  · rename_i a d hd
    exact Nat.le_trans (hf a h) (hs hd)
  · cases h

theorem forward_consume (ch : Char) : Forward (consume ch) := by
  intro c b d h
  unfold consume at h
  split at h <;> cases h <;> simp

theorem forward_expect (ch : Char) : Forward (expect ch) := by
  intro c b d h
  unfold expect at h
  split at h <;> cases h
  simp

theorem forward_nextNumber : Forward nextNumber := by
  intro c n d h
  unfold nextNumber at h
  split at h <;> cases h
  simp

theorem forward_literalsUntil (g : Dialect) (stop : Char → Bool) :
    Forward (literalsUntil g stop) := by
  intro c xs d h
  have key : ∀ pos text before, literalsFrom g stop pos text before = .ok xs d →
      d.unread ≤ text.length := by
    intro pos text before
    fun_induction literalsFrom g stop pos text before with
    | case1 => intro h; cases h; simp [Cursor.unread]
    | case2 => intro h; cases h; simp [Cursor.unread]
    | case3 => intro h; cases h
    | case4 _ _ _ _ _ ih =>
      intro h
      have := ih h
      simp only [List.length_cons]
      omega
    | case5 _ _ _ _ _ _ ih =>
      intro h
      have := ih h
      simp only [List.length_cons]
      omega
  exact key _ _ _ h

end Scan

end GapRegex
