import GapRegex.Dialect
import GapRegex.ParseError

/-!
# NormalForm — text as the reader wants it

Raw text becomes normal in two steps.  First every gap shorthand is replaced by the sentinel, from
left to right; what stands after an escape is copied as it is.  Then the sentinels at both ends
are dropped, for a gap there asks for nothing.  A sentinel at the end stays if it is escaped.

The end is trimmed by looking at characters only.  The sentinel that is last in the collapsed text
is escaped if it was read together with an escape; for one that becomes last later, the number of
escapes in front of it decides.
-/

namespace GapRegex.NormalForm

/-- Writes `raw` with its gaps collapsed after `done`, last character first, and tells whether the
last character was read together with an escape. -/
def collapseOnto (g : Dialect) (done : List Char) (escaped : Bool) (raw : List Char) :
    List Char × Bool :=
  match raw with
  | [] => (done, escaped)
  | [c] => (c :: done, false)
  | c :: d :: rest =>
    if c = g.escape then collapseOnto g (d :: c :: done) true rest
    else if c = g.gap.1 ∧ d = g.gap.2 then collapseOnto g (g.sentinel :: done) false rest
    else collapseOnto g (c :: done) false (d :: rest)

/-- Whether the last character of a text, which is given last character first, comes after an odd
number of escapes. -/
def lastIsEscaped (g : Dialect) : List Char → Bool
  | [] => false
  | _ :: before => (before.takeWhile (· == g.escape)).length % 2 == 1

/-- Drops sentinels from the end of a text, which is given last character first, down to one that
is escaped. -/
def trimEnd (g : Dialect) : List Char → Bool → List Char
  | c :: before, false =>
    if c = g.sentinel then trimEnd g before (lastIsEscaped g before) else c :: before
  | text, _ => text

/-- The normal form of a raw text.  A text that has nothing but gaps has none. -/
def normalize (g : Dialect) (raw : List Char) : Except ParseError (List Char) :=
  let (collapsed, escaped) := collapseOnto g [] false raw
  match (trimEnd g collapsed escaped).reverse.dropWhile (· == g.sentinel) with
  | [] => .error .emptyExpression
  | text => .ok text

/-- The only thing that can be wrong with a raw text is that it asks for nothing. -/
theorem eq_emptyExpression_of_error {g : Dialect} {raw : List Char} {err : ParseError}
    (h : normalize g raw = .error err) : err = .emptyExpression := by
  unfold normalize at h
  dsimp only at h
  split at h
  · cases h
    rfl
  · cases h

end GapRegex.NormalForm
