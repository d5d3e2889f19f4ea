import GapRegex.Parser.Basic

/-!
# Journal — the records of a parse

Reading an expression leaves a record of the normal text, or of its absence, and one of the tree.
A journal holds the records down to the level that is asked for.
* `Quoted`: a text between quotes, on one line.  What a reader could not see or could take for the
  closing quote is written with a backslash: the quote itself and the backslash, tab, newline and
  return by their letters, NUL as a zero, and any other ASCII control character by its number.
  This is the rule for ASCII: a character beyond it is written as it is, also one without a shape
  of its own;
* `Pattern.outline`: a pattern with all its nodes and their fields, on one line;
* `Journal.records`: what a parse leaves.
-/

namespace GapRegex

/-! ### Texts between quotes -/

namespace Quoted

/-- The ASCII characters that have no shape of their own. -/
def isControl (c : Char) : Bool := c.toNat < 0x20 || c.toNat == 0x7F

/-- A character as it stands between two marks `quote`. -/
def escape (quote c : Char) : List Char :=
  if c = quote ∨ c = '\\' then ['\\', c]
  else if c = '\t' then ['\\', 't']
  else if c = '\n' then ['\\', 'n']
  else if c = '\r' then ['\\', 'r']
  else if c = '\x00' then ['\\', '0']
  else if isControl c then '\\' :: 'u' :: '{' :: Nat.toDigits 16 c.toNat ++ ['}']
  else [c]

/-- A text in double quotes. -/
def text (s : List Char) : String :=
  String.ofList ('"' :: s.flatMap (escape '"') ++ ['"'])

/-- A character in single quotes. -/
def char (c : Char) : String :=
  String.ofList ('\'' :: escape '\'' c ++ ['\''])

end Quoted

/-! ### Outlines -/

/-- Which repetition it is, by name. -/
def Repetition.outline : Repetition → String
  | zeroOrMore => "ZeroOrMore"
  | oneOrMore => "OneOrMore"
  | between least greatest => s!"MinToMax \x7b min: {least}, max: {greatest} \x7d"

/-- The members of a set, in ascending order. -/
def CharSet.outline (s : CharSet) : String :=
  let members := ", ".intercalate (s.toList.map Quoted.char)
  s!"CharSet \x7b chars: \x7b{members}\x7d \x7d"

namespace Pattern

def outline : Pattern → String
  | blank => "Blank"
  | literal text => s!"Primitive({Quoted.text text})"
  | concat left right => s!"Concat \x7b left: {left.outline}, right: {right.outline} \x7d"
  | union left right => s!"Union \x7b left: {left.outline}, right: {right.outline} \x7d"
  | repetition inner times => s!"Repeat \x7b inner: {inner.outline}, kind: {times.outline} \x7d"
  | gap before after => s!"Wildcard \x7b before: {before.outline}, after: {after.outline} \x7d"
  | charClass before after members repeated =>
    s!"CharRange \x7b before: {before.outline}, after: {after.outline}, " ++
      s!"charset: {members.outline}, repeated: {repeated} \x7d"

end Pattern

/-! ### Records -/

namespace Journal

/-- How much a record matters, and how much is wanted; `off` wants nothing. -/
inductive Level where
  | off
  | warn
  | info
  | debug
  | trace
  deriving DecidableEq, Repr

/-- A higher number means more records. -/
def Level.rank : Level → Nat
  | off => 0
  | warn => 1
  | info => 2
  | debug => 3
  | trace => 4

/-- What a record is about. -/
inductive Stage where
  | normalizing
  | parsing
  deriving DecidableEq, Repr

structure Record where
  level : Level
  stage : Stage
  message : String
  deriving DecidableEq, Repr

/-- All the records of reading `raw`, in the order in which they arise. -/
def records (g : Dialect) (raw : List Char) : List Record :=
  match NormalForm.normalize g raw with
  | .error _ =>
    [⟨.debug, .normalizing, s!"expression {Quoted.text raw} is empty after normalization"⟩]
  | .ok text =>
    ⟨.debug, .parsing, s!"normalized {Quoted.text raw} to {Quoted.text text}"⟩ ::
      match Parser.parseNormal g text with
      | .ok p => [⟨.trace, .parsing, s!"parsed {p.size} nodes: {p.outline}"⟩]
      | .error _ => []

/-- The records that matter at least as much as `level` asks for. -/
def atLevel (level : Level) (records : List Record) : List Record :=
  records.filter fun r => r.level.rank ≤ level.rank

end Journal

end GapRegex
