import GapRegex.CharSet.Basic
import GapRegex.Repetition

/-!
# Pattern — the trees that expressions stand for

Every part of a pattern is a constructor of `Pattern`.  The blank pattern matches the empty text;
in a tree that was read from text it occurs only beside a bracketed class.  Two constructors have
a checked form: `append` concatenates and drops blanks, `gap?` refuses them.
-/

namespace GapRegex

inductive Pattern where
  /-- The empty text. -/
  | blank
  /-- Exactly these characters. -/
  | literal (text : List Char)
  /-- One after the other. -/
  | concat (left right : Pattern)
  /-- One or the other. -/
  | union (left right : Pattern)
  /-- One after the other, as many times as is asked for. -/
  | repetition (inner : Pattern) (times : Repetition)
  /-- Any text in between. -/
  | gap (before after : Pattern)
  /-- One member in between, or several if `repeated`. -/
  | charClass (before after : Pattern) (members : CharSet) (repeated : Bool)
  deriving DecidableEq

namespace Pattern

instance : Inhabited Pattern := ⟨blank⟩

def isBlank : Pattern → Bool
  | blank => true
  | _ => false

@[simp] theorem isBlank_iff {p : Pattern} : p.isBlank = true ↔ p = blank := by
  cases p <;> simp [isBlank]

/-- The characters of a literal. -/
def literal? : Pattern → Option (List Char)
  | literal text => some text
  | _ => none

/-- The literal of a text; no text is blank. -/
def ofText : List Char → Pattern
  | [] => blank
  | text => literal text

/-- Concatenation without blanks.  Two literals become one. -/
def append : Pattern → Pattern → Pattern
  | blank, q => q
  | p, blank => p
  | literal s, literal t => literal (s ++ t)
  | p, q => concat p q

@[simp] theorem blank_append (p : Pattern) : blank.append p = p := by cases p <;> rfl

@[simp] theorem append_blank (p : Pattern) : p.append blank = p := by cases p <;> rfl

/-- What concatenation makes of two patterns. -/
theorem append_cases (p q : Pattern) :
    p = blank ∧ p.append q = q ∨ q = blank ∧ p.append q = p ∨
      (∃ s t, p = literal s ∧ q = literal t ∧ p.append q = literal (s ++ t)) ∨
      p ≠ blank ∧ q ≠ blank ∧ (∀ s t, p = literal s → q ≠ literal t) ∧
        p.append q = concat p q := by
  cases p <;> cases q <;> simp [append]

theorem append_eq_blank {p q : Pattern} : p.append q = blank ↔ p = blank ∧ q = blank := by
  cases p <;> cases q <;> simp [append]

/-- A gap needs something on both sides. -/
def gap? (before after : Pattern) : Option Pattern :=
  if before.isBlank || after.isBlank then none else some (gap before after)

theorem gap?_eq_some {before after p : Pattern} :
    before.gap? after = some p ↔ before ≠ blank ∧ after ≠ blank ∧ p = gap before after := by
  unfold gap?
  by_cases hb : before = blank
  · simp [hb, isBlank]
  · by_cases ha : after = blank
    · simp [ha, isBlank]
    · have hb' : before.isBlank = false := Bool.eq_false_iff.mpr (mt isBlank_iff.mp hb)
      have ha' : after.isBlank = false := Bool.eq_false_iff.mpr (mt isBlank_iff.mp ha)
      simp [hb, ha, hb', ha', eq_comm]

theorem gap?_eq_none {before after : Pattern} :
    before.gap? after = none ↔ before = blank ∨ after = blank := by
  unfold gap?
  by_cases h : before = blank ∨ after = blank
  · simp only [h, iff_true]
    rcases h with rfl | rfl <;> simp [isBlank]
  · have hb : ¬ (before.isBlank || after.isBlank) = true := by simpa using h
    simp [h, hb]

/-- The parts of a pattern, from left to right. -/
def children : Pattern → List Pattern
  | blank | literal _ => []
  | repetition inner _ => [inner]
  | concat left right | union left right => [left, right]
  | gap before after | charClass before after .. => [before, after]

/-- The number of nodes. -/
def size : Pattern → Nat
  | blank | literal _ => 1
  | repetition inner _ => inner.size + 1
  | concat left right | union left right => left.size + right.size + 1
  | gap before after | charClass before after .. => before.size + after.size + 1

/-- The number of nodes on the longest way down. -/
def depth : Pattern → Nat
  | blank | literal _ => 1
  | repetition inner _ => inner.depth + 1
  | concat left right | union left right => max left.depth right.depth + 1
  | gap before after | charClass before after .. => max before.depth after.depth + 1

/-- The pattern and all that is below it: each node before its parts, and these from left to
right. -/
def nodes : Pattern → List Pattern
  | blank => [blank]
  | literal text => [literal text]
  | repetition inner times => repetition inner times :: inner.nodes
  | concat left right => concat left right :: (left.nodes ++ right.nodes)
  | union left right => union left right :: (left.nodes ++ right.nodes)
  | gap before after => gap before after :: (before.nodes ++ after.nodes)
  | charClass before after members repeated =>
    charClass before after members repeated :: (before.nodes ++ after.nodes)

theorem length_nodes (p : Pattern) : p.nodes.length = p.size := by
  induction p <;> simp_all [nodes, size]

end Pattern

end GapRegex
