import Mathlib.Computability.Language
import GapRegex.Pattern.Basic

/-!
# Meaning — the texts that a pattern stands for

A pattern stands for a set of texts, its language.  Concatenation drops blanks and joins literals,
so the tree of a list of patterns depends on how the list is bracketed; its language does not.
* `language_append`: concatenation without blanks means concatenation;
* `Bracketing`: the trees of a list, whatever is concatenated first.  Each of them has the product
  of the languages, is blank only if all of the list is, and is a literal only if all of the list
  is blank or a literal;
* `language_foldl_append`: so all this holds of the tree that grows from left to right.
-/

namespace GapRegex

/-- The numbers of times that a repetition admits. -/
def Repetition.Admits (times : Repetition) (k : Nat) : Prop :=
  times.min ≤ k ∧ ∀ m ∈ times.max?, k ≤ m

/-- The texts of one member, or of members one after another if `repeated`. -/
def CharSet.texts (members : CharSet) (repeated : Bool) : Language Char :=
  {w | w ≠ [] ∧ (∀ c ∈ w, c ∈ members) ∧ (repeated = false → w.length = 1)}

namespace Pattern

/-- The texts that a pattern stands for. -/
def language : Pattern → Language Char
  | blank => 1
  | literal text => {text}
  | concat left right => left.language * right.language
  | union left right => left.language + right.language
  | repetition inner times => {w | ∃ k, times.Admits k ∧ w ∈ inner.language ^ k}
  | gap before after => before.language * ⊤ * after.language
  | charClass before after members repeated =>
    before.language * members.texts repeated * after.language

/-! ### Two patterns -/

theorem language_literal_mul (s t : List Char) :
    (literal s).language * (literal t).language = (literal (s ++ t)).language :=
  Set.image2_singleton

/-- Concatenation without blanks means concatenation. -/
theorem language_append (p q : Pattern) : (p.append q).language = p.language * q.language := by
  rcases append_cases p q with ⟨rfl, h⟩ | ⟨rfl, h⟩ | ⟨s, t, rfl, rfl, h⟩ | ⟨-, -, -, h⟩
  · rw [h]
    exact (one_mul _).symm
  · rw [h]
    exact (mul_one _).symm
  · rw [h]
    exact (language_literal_mul s t).symm
  · rw [h]
    rfl

/-- Blank, or a literal. -/
def IsText (p : Pattern) : Prop := p ≠ blank → ∃ s, p = literal s

/-- The characters of the literals among some patterns, in order. -/
def spelling (ps : List Pattern) : List Char := (ps.filterMap literal?).flatten

theorem spelling_append (ps qs : List Pattern) :
    spelling (ps ++ qs) = spelling ps ++ spelling qs := by
  rw [spelling, List.filterMap_append, List.flatten_append]
  rfl

theorem spelling_ofText (s : List Char) : spelling [ofText s] = s := by
  cases s with
  | nil => rfl
  | cons c s => exact List.append_nil _

theorem append_isText {p q : Pattern} : (p.append q).IsText ↔ p.IsText ∧ q.IsText := by
  have hblank : blank.IsText := fun h => absurd rfl h
  rcases append_cases p q with ⟨rfl, h⟩ | ⟨rfl, h⟩ | ⟨s, t, rfl, rfl, h⟩ | ⟨hp, hq, hl, h⟩
  · rw [h]
    exact ⟨fun hq => ⟨hblank, hq⟩, And.right⟩
  · rw [h]
    exact ⟨fun hp => ⟨hp, hblank⟩, And.left⟩
  · rw [h]
    exact ⟨fun _ => ⟨fun _ => ⟨s, rfl⟩, fun _ => ⟨t, rfl⟩⟩, fun _ _ => ⟨s ++ t, rfl⟩⟩
  · rw [h]
    constructor
    · intro hpq
      obtain ⟨s, hs⟩ := hpq nofun
      cases hs
    · rintro ⟨hp', hq'⟩
      obtain ⟨s, hs⟩ := hp' hp
      obtain ⟨t, ht⟩ := hq' hq
      exact absurd ht (hl s t hs)

theorem spelling_of_append {p q : Pattern} (h : (p.append q).IsText) :
    spelling [p.append q] = spelling [p] ++ spelling [q] := by
  rcases append_cases p q with ⟨rfl, h'⟩ | ⟨rfl, h'⟩ | ⟨s, t, rfl, rfl, h'⟩ | ⟨-, -, -, h'⟩
  · rw [h']
    rfl
  · rw [h']
    exact (List.append_nil _).symm
  · rw [h']
    simp [spelling, literal?]
  · rw [h'] at h
    obtain ⟨s, hs⟩ := h nofun
    cases hs

/-- Only a literal is text without being blank. -/
theorem eq_literal_iff {p : Pattern} {s : List Char} :
    p = literal s ↔ p ≠ blank ∧ p.IsText ∧ s = spelling [p] := by
  constructor
  · rintro rfl
    exact ⟨nofun, fun _ => ⟨s, rfl⟩, (List.append_nil s).symm⟩
  · rintro ⟨hp, ht, rfl⟩
    obtain ⟨t, rfl⟩ := ht hp
    exact congrArg literal (List.append_nil t).symm

/-! ### Lists of patterns -/

/-- The tree is one of those that concatenate the list in order.  Blanks may be put anywhere. -/
inductive Bracketing : List Pattern → Pattern → Prop
  | empty : Bracketing [] blank
  | single (p : Pattern) : Bracketing [p] p
  | append {ps qs : List Pattern} {p q : Pattern} (hp : Bracketing ps p) (hq : Bracketing qs q) :
      Bracketing (ps ++ qs) (p.append q)

namespace Bracketing

variable {ps : List Pattern} {p : Pattern}

/-- A tree that goes on growing to the right. -/
theorem foldl {qs : List Pattern} (h : Bracketing qs p) (ps : List Pattern) :
    Bracketing (qs ++ ps) (ps.foldl Pattern.append p) := by
  induction ps generalizing qs p with
  | nil =>
    rw [List.append_nil]
    exact h
  | cons q ps ih =>
    have hstep : Bracketing (qs ++ [q]) (p.append q) := h.append (.single q)
    rw [List.append_cons]
    exact ih hstep

theorem language_eq (h : Bracketing ps p) : p.language = (ps.map language).prod := by
  induction h with
  | empty => rfl
  | single p => exact (List.prod_singleton).symm
  | append _ _ ih ih' => rw [language_append, ih, ih', List.map_append, List.prod_append]

theorem eq_blank_iff (h : Bracketing ps p) : p = blank ↔ ∀ q ∈ ps, q = blank := by
  induction h with
  | empty => exact ⟨fun _ => nofun, fun _ => rfl⟩
  | single p => exact (List.forall_mem_singleton (p := (· = blank))).symm
  | append _ _ ih ih' => rw [append_eq_blank, ih, ih', List.forall_mem_append]

theorem isText_iff (h : Bracketing ps p) : p.IsText ↔ ∀ q ∈ ps, q.IsText := by
  induction h with
  | empty => exact ⟨fun _ => nofun, fun _ h => absurd rfl h⟩
  | single p => exact List.forall_mem_singleton.symm
  | append _ _ ih ih' => rw [append_isText, ih, ih', List.forall_mem_append]

theorem spelling_eq (h : Bracketing ps p) (ht : p.IsText) : spelling [p] = spelling ps := by
  induction h with
  | empty => rfl
  | single p => rfl
  | append _ _ ih ih' =>
    obtain ⟨hp, hq⟩ := append_isText.mp ht
    rw [spelling_of_append ht, ih hp, ih' hq, spelling_append]

end Bracketing

/-- The tree that grows from left to right, from the blank pattern on, means what its parts mean one
after the other, and so does every other bracketing of the parts.  It is blank exactly if all the
parts are, and otherwise a literal exactly if all the parts that are not blank are literals. -/
theorem language_foldl_append (ps : List Pattern) :
    (ps.foldl append blank).language = (ps.map language).prod ∧
      (∀ p, Bracketing ps p → p.language = (ps.foldl append blank).language) ∧
      (ps.foldl append blank = blank ↔ ∀ p ∈ ps, p = blank) ∧
      ∀ s, ps.foldl append blank = literal s ↔
        (∃ p ∈ ps, p ≠ blank) ∧ (∀ p ∈ ps, p ≠ blank → ∃ t, p = literal t) ∧
          s = (ps.filterMap literal?).flatten := by
  have hfold : Bracketing ps (ps.foldl append blank) := Bracketing.empty.foldl ps
  refine ⟨hfold.language_eq, ?_, hfold.eq_blank_iff, fun s => ?_⟩
  · intro p hp
    rw [hp.language_eq, hfold.language_eq]
  · have hne : ps.foldl append blank ≠ blank ↔ ∃ p ∈ ps, p ≠ blank := by
      simp [hfold.eq_blank_iff]
    have htext : (ps.foldl append blank).IsText ↔ ∀ p ∈ ps, p ≠ blank → ∃ t, p = literal t :=
      hfold.isText_iff
    rw [eq_literal_iff, hne, ← htext]
    refine and_congr_right fun _ => and_congr_right fun ht => ?_
    rw [hfold.spelling_eq ht]
    rfl

/-- From the right, a repetition keeps two literals apart that meet from the left. -/
theorem language_foldl_append_right :
    Bracketing [literal ['a'], literal ['b'], repetition (literal ['c']) .zeroOrMore]
        (concat (literal ['a']) (concat (literal ['b'])
          (repetition (literal ['c']) .zeroOrMore))) ∧
      (concat (literal ['a']) (concat (literal ['b'])
          (repetition (literal ['c']) .zeroOrMore))).language =
        (concat (literal ['a', 'b']) (repetition (literal ['c']) .zeroOrMore)).language := by
  have h : Bracketing [literal ['a'], literal ['b'], repetition (literal ['c']) .zeroOrMore]
      (concat (literal ['a']) (concat (literal ['b'])
        (repetition (literal ['c']) .zeroOrMore))) :=
    .append (.single (literal ['a']))
      (.append (.single (literal ['b'])) (.single (repetition (literal ['c']) .zeroOrMore)))
  exact ⟨h, (language_foldl_append _).2.1 _ h⟩

end Pattern

end GapRegex
