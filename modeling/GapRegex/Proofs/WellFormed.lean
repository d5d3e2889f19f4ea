import Mathlib.Control.Monad.Basic
import GapRegex.Proofs.Reads

/-!
# WellFormed — the trees that the reader builds

`NodeOk` is what holds of one node, whatever is further below; `WellFormed` asks for it at every
node, and keeps the blank pattern to the sides of bracketed classes.
* `append_wellFormed`: concatenation without blanks keeps well-formedness;
* `Reads.wellFormed`: so does every production, in every dialect, if the term it goes on with is
  well formed;
* `wellFormed_of_parse`: what is parsed is well formed and not blank.
-/

namespace GapRegex

/-- The bounds are in order, and below the limit of bounds. -/
def Repetition.InRange : Repetition → Prop
  | zeroOrMore | oneOrMore => True
  | between least greatest => least ≤ greatest ∧ greatest < boundLimit

theorem Mark.inRange {mark : List Char} {times : Repetition} (h : Mark mark times) :
    times.InRange := by
  cases h with
  | zeroOrMore => trivial
  | oneOrMore => trivial
  | between _ _ hle hlt => exact ⟨hle, hlt⟩

namespace Pattern

def isLiteral : Pattern → Bool
  | literal _ => true
  | _ => false

theorem isLiteral_iff {p : Pattern} : p.isLiteral = true ↔ ∃ s, p = literal s := by
  cases p <;> simp [isLiteral]

def isCharClass : Pattern → Bool
  | charClass .. => true
  | _ => false

/-- What holds of a node and its parts. -/
def NodeOk : Pattern → Prop
  | blank | charClass .. => True
  | literal text => text ≠ []
  | concat left right =>
    left ≠ blank ∧ right ≠ blank ∧ ¬ (left.isLiteral = true ∧ right.isLiteral = true)
  | union left right => left ≠ blank ∧ right ≠ blank
  | repetition inner times => inner ≠ blank ∧ times.InRange
  | gap before after => before ≠ blank ∧ after ≠ blank

/-- Every node is as it should be, and only a class has a blank part. -/
structure WellFormed (p : Pattern) : Prop where
  node : ∀ q ∈ p.nodes, q.NodeOk
  blank_below : ∀ q ∈ p.nodes, blank ∈ q.children → q.isCharClass = true

theorem nodes_eq (p : Pattern) : p.nodes = p :: p.children.flatMap nodes := by
  cases p <;> simp [nodes, children]

/-- A pattern is well formed if its root and its parts are. -/
theorem wellFormed_iff {p : Pattern} :
    p.WellFormed ↔ p.NodeOk ∧ (blank ∈ p.children → p.isCharClass = true) ∧
      ∀ q ∈ p.children, q.WellFormed := by
  constructor
  · rintro ⟨hn, hb⟩
    rw [nodes_eq, List.forall_mem_cons] at hn hb
    refine ⟨hn.1, hb.1, fun q hq => ⟨fun r hr => hn.2 r ?_, fun r hr => hb.2 r ?_⟩⟩
    · exact List.mem_flatMap.mpr ⟨q, hq, hr⟩
    · exact List.mem_flatMap.mpr ⟨q, hq, hr⟩
  · rintro ⟨hn, hb, hc⟩
    refine ⟨?_, ?_⟩
    · rw [nodes_eq, List.forall_mem_cons]
      refine ⟨hn, fun r hr => ?_⟩
      obtain ⟨q, hq, hr⟩ := List.mem_flatMap.mp hr
      exact (hc q hq).node r hr
    · rw [nodes_eq, List.forall_mem_cons]
      refine ⟨hb, fun r hr => ?_⟩
      obtain ⟨q, hq, hr⟩ := List.mem_flatMap.mp hr
      exact (hc q hq).blank_below r hr

section Constructors

variable {p left right before after inner : Pattern} {members : CharSet} {repeated : Bool}
  {times : Repetition} {text : List Char}

theorem wellFormed_of_pair (h : p.children = [left, right]) : p.WellFormed ↔
    p.NodeOk ∧ (left = blank ∨ right = blank → p.isCharClass = true) ∧
      left.WellFormed ∧ right.WellFormed := by
  rw [wellFormed_iff, h]
  simp only [List.mem_cons, List.not_mem_nil, or_false, forall_eq_or_imp, forall_eq,
    eq_comm (a := blank)]

/-- Where the parts may not be blank there is nothing else to say about blank parts. -/
theorem wellFormed_of_proper (h : p.children = [left, right])
    (hp : p.NodeOk → left ≠ blank ∧ right ≠ blank) : p.WellFormed ↔
      p.NodeOk ∧ left.WellFormed ∧ right.WellFormed := by
  rw [wellFormed_of_pair h]
  constructor
  · rintro ⟨hn, -, hl, hr⟩
    exact ⟨hn, hl, hr⟩
  · rintro ⟨hn, hl, hr⟩
    refine ⟨hn, ?_, hl, hr⟩
    rintro (hb | hb)
    · exact absurd hb (hp hn).1
    · exact absurd hb (hp hn).2

@[simp] theorem wellFormed_blank : blank.WellFormed :=
  wellFormed_iff.mpr ⟨trivial, nofun, nofun⟩

@[simp] theorem wellFormed_literal : (literal text).WellFormed ↔ text ≠ [] := by
  rw [wellFormed_iff]
  exact ⟨fun h => h.1, fun h => ⟨h, nofun, nofun⟩⟩

@[simp] theorem wellFormed_concat : (concat left right).WellFormed ↔
    (left ≠ blank ∧ right ≠ blank ∧ ¬ (left.isLiteral = true ∧ right.isLiteral = true)) ∧
      left.WellFormed ∧ right.WellFormed :=
  wellFormed_of_proper rfl fun h => ⟨h.1, h.2.1⟩

@[simp] theorem wellFormed_union : (union left right).WellFormed ↔
    (left ≠ blank ∧ right ≠ blank) ∧ left.WellFormed ∧ right.WellFormed :=
  wellFormed_of_proper rfl id

@[simp] theorem wellFormed_gap : (gap before after).WellFormed ↔
    (before ≠ blank ∧ after ≠ blank) ∧ before.WellFormed ∧ after.WellFormed :=
  wellFormed_of_proper rfl id

@[simp] theorem wellFormed_charClass :
    (charClass before after members repeated).WellFormed ↔
      before.WellFormed ∧ after.WellFormed := by
  rw [wellFormed_of_pair rfl]
  exact ⟨fun h => h.2.2, fun h => ⟨trivial, fun _ => rfl, h⟩⟩

@[simp] theorem wellFormed_repetition : (repetition inner times).WellFormed ↔
    (inner ≠ blank ∧ times.InRange) ∧ inner.WellFormed := by
  rw [wellFormed_iff]
  constructor
  · rintro ⟨hn, -, hc⟩
    exact ⟨hn, hc inner (by simp [children])⟩
  · rintro ⟨hn, hi⟩
    refine ⟨hn, ?_, ?_⟩
    · intro hb
      simp only [children, List.mem_singleton] at hb
      exact absurd hb.symm hn.1
    · simpa [children] using hi

end Constructors

theorem wellFormed_ofText (text : List Char) : (ofText text).WellFormed := by
  cases text with
  | nil => exact wellFormed_blank
  | cons c text => simp [ofText]

theorem append_eq_concat {p q : Pattern} (hp : p ≠ blank) (hq : q ≠ blank)
    (hl : ¬ (p.isLiteral = true ∧ q.isLiteral = true)) : p.append q = concat p q := by
  rcases append_cases p q with ⟨h, -⟩ | ⟨h, -⟩ | ⟨s, t, rfl, rfl, -⟩ | ⟨-, -, -, h⟩
  · exact absurd h hp
  · exact absurd h hq
  · exact absurd ⟨rfl, rfl⟩ hl
  · exact h

/-- Concatenation folds blanks away and joins literals, so it builds no node that is not well
formed. -/
theorem append_wellFormed {p q : Pattern} (hp : p.WellFormed) (hq : q.WellFormed) :
    (p.append q).WellFormed := by
  rcases append_cases p q with ⟨-, h⟩ | ⟨-, h⟩ | ⟨s, t, rfl, rfl, h⟩ | ⟨hpb, hqb, hl, h⟩
  · rw [h]
    exact hq
  · rw [h]
    exact hp
  · have hs : s ≠ [] := wellFormed_literal.mp hp
    rw [h, wellFormed_literal]
    exact List.append_ne_nil_of_left_ne_nil hs t
  · rw [h, wellFormed_concat]
    refine ⟨⟨hpb, hqb, ?_⟩, hp, hq⟩
    rintro ⟨hp', hq'⟩
    obtain ⟨s, hs⟩ := isLiteral_iff.mp hp'
    obtain ⟨t, ht⟩ := isLiteral_iff.mp hq'
    exact hl s t hs ht

end Pattern

/-! ### Every production keeps well-formedness -/

namespace Parser

theorem Reads.wellFormed {g : Dialect} {part : Part} {s t : List Char} {p : Pattern}
    (h : Reads g part s p t) (hb : part.before.WellFormed) : p.WellFormed := by
  induction h with
  | single _ _ ih => exact ih Pattern.wellFormed_blank
  | union _ hp _ hq ih ih' =>
    exact Pattern.wellFormed_union.mpr ⟨⟨hp, hq⟩, ih Pattern.wellFormed_blank, ih' hb⟩
  | stop _ => exact hb
  | gap _ hne _ hne' _ ih ih' =>
    exact ih' (Pattern.wellFormed_gap.mpr ⟨⟨hne, hne'⟩, hb, ih Pattern.wellFormed_blank⟩)
  | charClass _ _ _ _ _ ih ih' =>
    exact ih' (Pattern.wellFormed_charClass.mpr ⟨hb, ih Pattern.wellFormed_blank⟩)
  | join _ _ _ _ _ _ ih ih' =>
    exact ih' (Pattern.append_wellFormed hb (ih Pattern.wellFormed_blank))
  | bare _ _ ih => exact ih hb
  | repeated _ hne hm ih => exact Pattern.wellFormed_repetition.mpr ⟨⟨hne, hm.inRange⟩, ih hb⟩
  | group _ ih => exact ih hb
  | run _ _ _ => exact Pattern.wellFormed_ofText _

/-- Whatever the dialect, also one whose characters collide: what is parsed is not blank, and is
well formed. -/
theorem wellFormed_of_parse {g : Dialect} {raw : List Char} {t : Pattern}
    (h : Pattern.parseWith g raw = .ok t) : t ≠ .blank ∧ t.WellFormed := by
  obtain ⟨text, -, hr, hne⟩ := parseWith_iff.mp h
  exact ⟨hne, hr.wellFormed Pattern.wellFormed_blank⟩

/-- A gap marked by an opening parenthesis, and a class without members. -/
theorem wellFormed_of_parse_parenthesis :
    Pattern.parseWith ⟨('.', '*'), '(', '\\'⟩
        ['a', '.', '*', 'b', '[', ']', 'c', '{', '2', ',', '3', '}'] =
      .ok (.charClass (.gap (.literal ['a']) (.literal ['b']))
        (.repetition (.literal ['c']) (.between 2 3)) .empty false) ∧
    (Pattern.charClass (.gap (.literal ['a']) (.literal ['b']))
      (.repetition (.literal ['c']) (.between 2 3)) .empty false).WellFormed := by
  have h : Pattern.parseWith ⟨('.', '*'), '(', '\\'⟩
        ['a', '.', '*', 'b', '[', ']', 'c', '{', '2', ',', '3', '}'] =
      .ok (.charClass (.gap (.literal ['a']) (.literal ['b']))
        (.repetition (.literal ['c']) (.between 2 3)) .empty false) := by
    decide +kernel
  exact ⟨h, (wellFormed_of_parse h).2⟩

end Parser

end GapRegex
