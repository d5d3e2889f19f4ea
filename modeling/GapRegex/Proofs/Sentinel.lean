import Mathlib.Control.Monad.Basic
import GapRegex.Proofs.InStep

/-!
# Sentinel — what the choice of the sentinel can change

Gaps are collapsed before anything else is read, so that one can come to stand in the body of a
bracketed class.  There it is read as any other character, and the sentinel becomes a member.
Nowhere else does it matter which character marks a gap, and a class with no gap in its own body
has the same members with any sentinel.
* `Pattern.Alike`: two trees that differ in the sentinel as a member of a class, if at all, where
  each class comes from a body of its own;
* `regex_inStep`: the descent goes in step on one text with two sentinels, and the classes of the
  trees are those that it passes;
* `parse_withSentinel`: so both parses give such trees, or the same error.
-/

namespace GapRegex

open NormalForm
open GapRegex.Parser

namespace Pattern

/-- The same tree, but that a gap in the body of a class is a member, which is `s₁` in the one and
`s₂` in the other.  The bodies are those of the classes of the tree, in reading order: what stands
before a class comes first, then the class, and then what stands after it. -/
inductive Alike (s₁ s₂ : Char) : List (List Piece) → Pattern → Pattern → Prop
  | blank : Alike s₁ s₂ [] .blank .blank
  | literal (text : List Char) : Alike s₁ s₂ [] (.literal text) (.literal text)
  | concat {left right : List (List Piece)} {p p' q q' : Pattern} (hp : Alike s₁ s₂ left p p')
      (hq : Alike s₁ s₂ right q q') : Alike s₁ s₂ (left ++ right) (.concat p q) (.concat p' q')
  | union {left right : List (List Piece)} {p p' q q' : Pattern} (hp : Alike s₁ s₂ left p p')
      (hq : Alike s₁ s₂ right q q') : Alike s₁ s₂ (left ++ right) (.union p q) (.union p' q')
  | repetition {bodies : List (List Piece)} {p p' : Pattern} (hp : Alike s₁ s₂ bodies p p')
      (times : Repetition) : Alike s₁ s₂ bodies (.repetition p times) (.repetition p' times)
  | gap {left right : List (List Piece)} {p p' q q' : Pattern} (hp : Alike s₁ s₂ left p p')
      (hq : Alike s₁ s₂ right q q') : Alike s₁ s₂ (left ++ right) (.gap p q) (.gap p' q')
  | charClass {left right : List (List Piece)} {p p' q q' : Pattern} (hp : Alike s₁ s₂ left p p')
      (body : List Piece) (repeated : Bool) (hq : Alike s₁ s₂ right q q') :
      Alike s₁ s₂ (left ++ body :: right)
        (.charClass p q (.ofClass (literals (marked s₁) body)) repeated)
        (.charClass p' q' (.ofClass (literals (marked s₂) body)) repeated)

namespace Alike

variable {s₁ s₂ : Char} {bodies more : List (List Piece)} {p p' q q' : Pattern}

theorem isBlank (h : Alike s₁ s₂ bodies p p') : p'.isBlank = p.isBlank := by
  cases h <;> rfl

theorem ofText (text : List Char) : Alike s₁ s₂ [] (.ofText text) (.ofText text) := by
  cases text with
  | nil => exact .blank
  | cons c text => exact .literal (c :: text)

theorem append (hp : Alike s₁ s₂ bodies p p') (hq : Alike s₁ s₂ more q q') :
    Alike s₁ s₂ (bodies ++ more) (p.append q) (p'.append q') := by
  rcases append_cases p q with ⟨rfl, h⟩ | ⟨rfl, h⟩ | ⟨s, t, rfl, rfl, h⟩ | ⟨hb, hb', hl, h⟩
  · cases hp
    rw [h, blank_append]
    exact hq
  · cases hq
    rw [h, append_blank, List.append_nil]
    exact hp
  · cases hp
    cases hq
    exact .literal (s ++ t)
  · -- the other two patterns are none of these either
    rcases append_cases p' q' with ⟨rfl, -⟩ | ⟨rfl, -⟩ | ⟨s, t, rfl, rfl, -⟩ | ⟨-, -, -, h'⟩
    · cases hp
      exact absurd rfl hb
    · cases hq
      exact absurd rfl hb'
    · cases hp
      cases hq
      exact absurd rfl (hl s t rfl)
    · rw [h, h']
      exact hp.concat hq

/-- Where none of the classes has a gap in its body, the trees are equal. -/
theorem eq (h : Alike s₁ s₂ bodies p p') (hgap : ∀ body ∈ bodies, Piece.gap ∉ body) : p' = p := by
  induction h with
  | blank => rfl
  | literal text => rfl
  | concat _ _ ihp ihq =>
    obtain ⟨hleft, hright⟩ := List.forall_mem_append.mp hgap
    rw [ihp hleft, ihq hright]
  | union _ _ ihp ihq =>
    obtain ⟨hleft, hright⟩ := List.forall_mem_append.mp hgap
    rw [ihp hleft, ihq hright]
  | repetition _ times ihp => rw [ihp hgap]
  | gap _ _ ihp ihq =>
    obtain ⟨hleft, hright⟩ := List.forall_mem_append.mp hgap
    rw [ihp hleft, ihq hright]
  | charClass _ body repeated _ ihp ihq =>
    obtain ⟨hleft, hright⟩ := List.forall_mem_append.mp hgap
    obtain ⟨hbody, hright⟩ := List.forall_mem_cons.mp hright
    rw [ihp hleft, ihq hright, literals_eq_of_no_gap hbody]

end Alike

end Pattern

namespace Parser

variable {s₁ s₂ : Char} {whole ps : List Piece}

/-- The trees are alike.  After the classes with `bodies` come those that are passed. -/
def Trees (s₁ s₂ : Char) (bodies : List (List Piece)) (ps : List Piece) (p q : Pattern)
    (qs : List Piece) : Prop :=
  ∃ more, Passes ps more qs ∧ p.Alike s₁ s₂ (bodies ++ more) q

namespace Trees

variable {bodies more : List (List Piece)} {qs rs : List Piece} {p q : Pattern}

theorem refl (h : p.Alike s₁ s₂ bodies q) : Trees s₁ s₂ bodies ps p q ps :=
  ⟨[], .refl ps, by rwa [List.append_nil]⟩

theorem after (hm : Passes ps more qs) (h : Trees s₁ s₂ (bodies ++ more) qs p q rs) :
    Trees s₁ s₂ bodies ps p q rs := by
  obtain ⟨last, hl, halike⟩ := h
  exact ⟨more ++ last, hm.trans hl, by rwa [← List.append_assoc]⟩

theorem skip (h : Trees s₁ s₂ bodies ps p q qs) (hm : Passes qs [] rs) :
    Trees s₁ s₂ bodies ps p q rs := by
  obtain ⟨more, hpass, halike⟩ := h
  refine ⟨more, ?_, halike⟩
  have := hpass.trans hm
  rwa [List.append_nil] at this

end Trees

section Productions

variable (hw : Unmarked s₁ s₂ whole)

include hw

mutual

theorem regex_inStep {ps : List Piece} {c₁ c₂ : Cursor} (h : Twins s₁ s₂ whole ps c₁ c₂) :
    InStep s₁ s₂ whole (Trees s₁ s₂ [] ps) (plain (regex (marked s₁) c₁))
      (plain (regex (marked s₂) c₂)) := by
  rw [plain_regex, plain_regex]
  obtain ⟨err, hx, hx'⟩ | ⟨left, left', qs, d₁, d₂, hx, hx', hd, before, hpass, hl⟩ :=
    (term_inStep h .blank).outcomes
  · rw [hx, hx']
    exact .error err
  · simp only [hx, hx', hl.isBlank]
    by_cases hbar : d₁.peek = some '|'
    · obtain ⟨hbar', rs, rfl, he⟩ := hw.advance_operator hd hbar (by decide)
      rw [if_pos hbar, if_pos hbar']
      by_cases hb : left.isBlank = true
      · rw [if_pos hb, if_pos hb, h.pos]
        exact .error (.emptyAlternative c₁.pos)
      · rw [if_neg hb, if_neg hb]
        have hle := unread_le_of_plain hx
        have hpos := Cursor.unread_pos hbar
        obtain ⟨err, hy, hy'⟩ | ⟨right, right', qs, f₁, f₂, hy, hy', hf, after, hpass', hr⟩ :=
          (regex_inStep he).outcomes
        · rw [hy, hy']
          exact .error err
        · simp only [hy, hy', hr.isBlank, he.pos]
          by_cases hb : right.isBlank = true
          · rw [if_pos hb, if_pos hb]
            exact .error (.emptyAlternative d₁.advance.pos)
          · rw [if_neg hb, if_neg hb]
            have hboth := hl.union hr
            exact .ok hf ⟨before ++ after, hpass.trans (.cons (by decide) hpass'), hboth⟩
    · rw [if_neg hbar, if_neg (mt (hw.peek_iff hd (by decide)).mp hbar)]
      exact .ok hd ⟨before, hpass, hl⟩
termination_by 5 * c₁.unread + 4
decreasing_by
  · omega
  · have := d₁.unread_advance
    omega

theorem term_inStep {ps : List Piece} {c₁ c₂ : Cursor} {before before' : Pattern}
    {bodies : List (List Piece)} (h : Twins s₁ s₂ whole ps c₁ c₂)
    (hb : before.Alike s₁ s₂ bodies before') :
    InStep s₁ s₂ whole (Trees s₁ s₂ bodies ps) (plain (term (marked s₁) c₁ before))
      (plain (term (marked s₂) c₂ before')) := by
  have hpeek := hw.peek_eq h
  rw [plain_term, plain_term]
  cases hp : c₁.peek with
  | none =>
    rw [hp] at hpeek
    simp only [hpeek, Option.map_none]
    exact .ok h (.refl hb)
  | some ch =>
    rw [hp] at hpeek
    have hclose : replace s₁ s₂ ch = ')' ↔ ch = ')' := hw.replace_eq_iff (by decide)
    have hbar : replace s₁ s₂ ch = '|' ↔ ch = '|' := hw.replace_eq_iff (by decide)
    simp only [hpeek, Option.map_some, hclose, hbar]
    by_cases hs : ch = ')' ∨ ch = '|'
    · rw [if_pos hs, if_pos hs]
      exact .ok h (.refl hb)
    · rw [if_neg hs, if_neg hs]
      have hpos := Cursor.unread_pos hp
      obtain ⟨err, hx, hx'⟩ | ⟨p, p', qs, d₁, d₂, hx, hx', hd, more, hpass, hi⟩ :=
        (item_inStep h hb hp).outcomes
      · rw [hx, hx']
        exact .error err
      · simp only [hx, hx']
        have hle : d₁.unread ≤ c₁.advance.unread := unread_le_of_plain hx
        exact (term_inStep hd hi).mono fun _ _ _ => .after hpass
termination_by 5 * c₁.unread + 3
decreasing_by
  · omega
  · have := c₁.unread_advance
    omega

theorem item_inStep {ps : List Piece} {c₁ c₂ : Cursor} {ch : Char} {before before' : Pattern}
    {bodies : List (List Piece)} (h : Twins s₁ s₂ whole ps c₁ c₂)
    (hb : before.Alike s₁ s₂ bodies before') (hp : c₁.peek = some ch) :
    InStep s₁ s₂ whole (Trees s₁ s₂ bodies ps) (plain (item (marked s₁) c₁ ch before))
      (plain (item (marked s₂) c₂ (replace s₁ s₂ ch) before')) := by
  have hpos := Cursor.unread_pos hp
  rw [plain_item, plain_item]
  by_cases hmark : ch = s₁
  · obtain rfl : s₁ = ch := hmark.symm
    obtain ⟨qs, rfl, hd⟩ := hw.advance_gap h hp
    have hleft : s₁ = (marked s₁).sentinel := rfl
    have hright : s₂ = (marked s₂).sentinel := rfl
    rw [replace_self, if_pos hleft, if_pos hright]
    obtain ⟨err, hx, hx'⟩ | ⟨after, after', rs, e₁, e₂, hx, hx', he, more, hpass, ha⟩ :=
      (factor_inStep hd).outcomes
    · rw [hx, hx']
      exact .error err
    · simp only [hx, hx', Pattern.gap?, hb.isBlank, ha.isBlank, h.pos]
      by_cases hblank : (before.isBlank || after.isBlank) = true
      · rw [if_pos hblank, if_pos hblank]
        exact .error (.blankGap c₁.pos)
      · rw [if_neg hblank, if_neg hblank]
        exact .ok he ⟨more, .cons (by decide) hpass, .gap hb ha⟩
  · have hmark' : ch ≠ s₂ := hw.peek_ne h hp hmark
    have hleft : ch ≠ (marked s₁).sentinel := hmark
    have hright : ch ≠ (marked s₂).sentinel := hmark'
    rw [replace_of_ne hmark, if_neg hleft, if_neg hright]
    by_cases hbracket : ch = '['
    · subst hbracket
      obtain ⟨-, qs, rfl, hd⟩ := hw.advance_operator h hp (by decide)
      rw [if_pos rfl, if_pos rfl]
      obtain ⟨err, hx, hx'⟩ | ⟨r, r', rs, d₁, d₂, hx, hx', he, body, repeated, hclass, rfl,
        rfl⟩ := (bracketed_inStep hw hd).outcomes
      · rw [hx, hx']
        exact .error err
      · simp only [hx, hx']
        have hle := forward_bracketed (marked s₁) (outcome_ok_iff.mp hx)
        obtain ⟨err, hy, hy'⟩ | ⟨after, after', qs, e₁, e₂, hy, hy', hf, more, hpass, ha⟩ :=
          (factor_inStep he).outcomes
        · rw [hy, hy']
          exact .error err
        · rw [hy, hy']
          exact .ok hf ⟨body :: more, hclass.trans hpass, .charClass hb body repeated ha⟩
    · rw [if_neg hbracket, if_neg hbracket]
      obtain ⟨err, hx, hx'⟩ | ⟨p, p', rs, d₁, d₂, hx, hx', hd, more, hpass, hq⟩ :=
        (factor_inStep h).outcomes
      · rw [hx, hx']
        exact .error err
      · simp only [hx, hx', hd.unread, h.unread, h.pos]
        by_cases hlt : d₁.unread < c₁.unread
        · rw [if_pos hlt, if_pos hlt]
          exact .ok hd ⟨more, hpass, hb.append hq⟩
        · rw [if_neg hlt, if_neg hlt]
          exact .error_of_eq (by rw [ParseError.rename, replace_of_ne hmark])
termination_by 5 * c₁.unread + 2
decreasing_by
  · have := c₁.unread_advance
    omega
  · have := c₁.unread_advance
    omega
  · omega

theorem factor_inStep {ps : List Piece} {c₁ c₂ : Cursor} (h : Twins s₁ s₂ whole ps c₁ c₂) :
    InStep s₁ s₂ whole (Trees s₁ s₂ [] ps) (plain (factor (marked s₁) c₁))
      (plain (factor (marked s₂) c₂)) := by
  rw [plain_factor, plain_factor]
  obtain ⟨err, hx, hx'⟩ | ⟨p, p', qs, d₁, d₂, hx, hx', hd, more, hpass, hq⟩ :=
    (base_inStep h).outcomes
  · rw [hx, hx']
    exact .error err
  · have hpeek := hw.peek_eq hd
    simp only [hx, hx', hpeek, hq.isBlank]
    cases hp : d₁.peek with
    | none => exact .ok hd ⟨more, hpass, hq⟩
    | some lit =>
      simp only [Option.map_some, hw.startsRepetition_replace]
      by_cases hm : startsRepetition lit = true
      · have hlit : lit ≠ s₁ := by
          rintro rfl
          exact hw.left.not_operator (operators_of_startsRepetition hm)
        rw [if_pos hm, if_pos hm, replace_of_ne hlit, hd.pos]
        by_cases hb : p.isBlank = true
        · rw [if_pos hb, if_pos hb]
          exact .error_of_eq (by rw [ParseError.rename, replace_of_ne hlit])
        · rw [if_neg hb, if_neg hb]
          obtain ⟨err, hy, hy'⟩ | ⟨times, _, rs, e₁, e₂, hy, hy', he, rfl, hmark⟩ :=
            (repetitionMark_inStep hw hd lit).outcomes
          · rw [hy, hy']
            exact .error err
          · rw [hy, hy']
            exact .ok he (.skip ⟨more, hpass, .repetition hq times⟩ hmark)
      · rw [if_neg hm, if_neg hm]
        exact .ok hd ⟨more, hpass, hq⟩
termination_by 5 * c₁.unread + 1

theorem base_inStep {ps : List Piece} {c₁ c₂ : Cursor} (h : Twins s₁ s₂ whole ps c₁ c₂) :
    InStep s₁ s₂ whole (Trees s₁ s₂ [] ps) (plain (base (marked s₁) c₁))
      (plain (base (marked s₂) c₂)) := by
  rw [plain_base, plain_base]
  by_cases hopen : c₁.peek = some '('
  · obtain ⟨hopen', qs, rfl, hd⟩ := hw.advance_operator h hopen (by decide)
    have hpos := Cursor.unread_pos hopen
    rw [if_pos hopen, if_pos hopen']
    obtain ⟨err, hx, hx'⟩ | ⟨p, p', rs, d₁, d₂, hx, hx', he, more, hpass, hq⟩ :=
      (regex_inStep hd).outcomes
    · rw [hx, hx']
      exact .error err
    · simp only [hx, hx']
      have hclose : ')' ∈ ',' :: operators := by decide
      obtain ⟨err, hy, hy'⟩ | ⟨_, _, rs, e₁, e₂, hy, hy', hf, rfl⟩ :=
        (expect_inStep hw he hclose).outcomes
      · rw [hy, hy']
        exact .error err
      · rw [hy, hy']
        exact .ok hf (.skip ⟨more, .cons (by decide) hpass, hq⟩ (.piece (by decide)))
  · rw [if_neg hopen, if_neg (mt (hw.peek_iff h (by decide)).mp hopen)]
    refine (literalRun_inStep hw h).mono ?_
    rintro p q _ ⟨⟨text, rfl⟩, rfl, hpass⟩
    exact ⟨[], hpass, .ofText text⟩
termination_by 5 * c₁.unread
decreasing_by
  have := c₁.unread_advance
  omega

end

end Productions

/-! ### Whole expressions -/

/-- Both parses of a text give trees that are alike in the classes of the text, or the same error
but for the sentinel. -/
theorem parseNormal_marked (hw : Unmarked s₁ s₂ whole) (hps : ps <:+: whole) :
    (∃ t t' bodies, parseNormal (marked s₁) (write (marked s₁) ps) = .ok t ∧
      parseNormal (marked s₂) (write (marked s₂) ps) = .ok t' ∧ Passes ps bodies [] ∧
      t.Alike s₁ s₂ bodies t') ∨
    ∃ err, parseNormal (marked s₁) (write (marked s₁) ps) = .error err ∧
      parseNormal (marked s₂) (write (marked s₂) ps) = .error (err.rename s₁ s₂) := by
  have hstart : Twins s₁ s₂ whole ps (.start (write (marked s₁) ps))
      (.start (write (marked s₂) ps)) := ⟨rfl, rfl, rfl, hps⟩
  rw [parseNormal_eq, parseNormal_eq]
  obtain ⟨err, hx, hx'⟩ | ⟨t, t', qs, d₁, d₂, hx, hx', hd, bodies, hpass, ht⟩ :=
    (regex_inStep hw hstart).outcomes
  · exact Or.inr ⟨err, by rw [hx], by rw [hx']⟩
  · simp only [hx, hx', hw.peek_eq hd, ht.isBlank, hd.pos]
    cases qs with
    | cons p qs =>
      rw [peek_of_rest hd.left]
      exact Or.inr ⟨_, rfl, rfl⟩
    | nil =>
      have hend : d₁.peek = none := by rw [peek_eq_head, hd.left]; rfl
      simp only [hend, Option.map_none]
      by_cases hb : t.isBlank = true
      · rw [if_pos hb, if_pos hb]
        exact Or.inr ⟨_, rfl, rfl⟩
      · rw [if_neg hb, if_neg hb]
        exact Or.inl ⟨t, t', bodies, rfl, rfl, hpass, ht⟩

end Parser

/-! ### Normal forms with two sentinels -/

namespace NormalForm

theorem split_withSentinel (g : Dialect) (s : Char) (raw : List Char) :
    split (g.withSentinel s) raw = split g raw := by
  fun_induction split g raw with
  | case1 => rfl
  | case2 => simp [split]
  | case3 c hc => simp [split, hc]
  | case4 d rest ih => simp [split, ih]
  | case5 c d rest hc hgap ih =>
    have hc' : c ≠ (g.withSentinel s).escape := hc
    have hgap' : c = (g.withSentinel s).gap.1 ∧ d = (g.withSentinel s).gap.2 := hgap
    rw [split, if_neg hc', if_pos hgap', ih]
  | case6 c d rest hc hgap ih => simp [split, hc, hgap, ih]

variable {s₁ s₂ : Char} {raw : List Char}

theorem mem_of_plain_mem_split {g : Dialect} {c : Char} (h : Piece.plain c ∈ split g raw) :
    c ∈ raw := by
  rw [← flatMap_rawText_split g raw, List.mem_flatMap]
  exact ⟨_, h, List.mem_singleton.mpr rfl⟩

theorem unmarked_split (h₁ : IsMarker s₁) (h₂ : IsMarker s₂) (hr₁ : s₁ ∉ raw) (hr₂ : s₂ ∉ raw) :
    Unmarked s₁ s₂ (split .standard raw) := by
  refine ⟨h₁, h₂, ?_, ?_⟩
  · intro c hc
    have hmem := mem_of_plain_mem_split hc
    refine ⟨ne_escape_of_plain_mem hc, ?_, ?_⟩
    · rintro rfl
      exact hr₁ hmem
    · rintro rfl
      exact hr₂ hmem
  · rintro p ps ⟨a, b, h⟩
    have hinner := inner_of_mem_dropLast (g := .standard) raw .dangling
    rw [← h] at hinner
    exact hinner (by simp)

/-- Where neither sentinel is a piece, the same pieces are trimmed. -/
theorem trim_marked {ps : List Piece} (h₁ : Piece.plain s₁ ∉ ps) (h₂ : Piece.plain s₂ ∉ ps) :
    trim (marked s₂) ps = trim (marked s₁) ps := by
  have outer : ∀ p ∈ ps, p.isOuter (marked s₂) = p.isOuter (marked s₁) := by
    intro p hp
    cases p with
    | plain c =>
      have hne₁ : c ≠ s₁ := fun h => h₁ (h ▸ hp)
      have hne₂ : c ≠ s₂ := fun h => h₂ (h ▸ hp)
      simp [Piece.isOuter, hne₁, hne₂]
    | _ => rfl
  have drop : ∀ qs : List Piece, (∀ p ∈ qs, p ∈ ps) →
      qs.dropWhile (Piece.isOuter (marked s₂)) = qs.dropWhile (Piece.isOuter (marked s₁)) := by
    intro qs hqs
    induction qs with
    | nil => rfl
    | cons q qs ih =>
      obtain ⟨hq, hqs⟩ := List.forall_mem_cons.mp hqs
      rw [List.dropWhile_cons, List.dropWhile_cons, outer q hq, ih hqs]
  rw [trim, trim, drop ps.reverse fun p hp => List.mem_reverse.mp hp]
  refine drop _ fun p hp => ?_
  exact List.mem_reverse.mp ((List.dropWhile_sublist _).subset (List.mem_reverse.mp hp))

end NormalForm

namespace Parser

/-- Which character marks a gap can be seen in the body of a class and nowhere else.  Both
sentinels give the same error but for the sentinel that it names, or trees that are equal but for
the sets of their classes.  The body of each class is the same in both, and each sentinel is a
member in place of the gaps in that body, so that a class whose own body has none keeps its set. -/
theorem parse_withSentinel {s₁ s₂ : Char} {raw : List Char} (h₁ : IsMarker s₁) (h₂ : IsMarker s₂)
    (hr₁ : s₁ ∉ raw) (hr₂ : s₂ ∉ raw) :
    (∃ t₁ t₂, Pattern.parseWith (Dialect.standard.withSentinel s₁) raw = .ok t₁ ∧
      Pattern.parseWith (Dialect.standard.withSentinel s₂) raw = .ok t₂ ∧
      t₁.Alike s₁ s₂ (classBodies (split .standard raw)) t₂ ∧
      ((∀ body ∈ classBodies (split .standard raw), Piece.gap ∉ body) → t₂ = t₁)) ∨
    ∃ err, Pattern.parseWith (Dialect.standard.withSentinel s₁) raw = .error err ∧
      Pattern.parseWith (Dialect.standard.withSentinel s₂) raw = .error (err.rename s₁ s₂) := by
  have hw := unmarked_split h₁ h₂ hr₁ hr₂
  have htrim := trim_marked (fun h => (hw.plain s₁ h).2.1 rfl) (fun h => (hw.plain s₂ h).2.2 rfl)
  have hn₁ := normalize_eq (g := marked s₁) h₁.ne_escape.symm raw
  have hn₂ := normalize_eq (g := marked s₂) h₂.ne_escape.symm raw
  rw [split_withSentinel] at hn₁ hn₂
  rw [htrim] at hn₂
  unfold Pattern.parseWith
  rw [hn₁, hn₂]
  by_cases hempty : trim (marked s₁) (split .standard raw) = []
  · rw [if_pos hempty, if_pos hempty]
    exact Or.inr ⟨.emptyExpression, rfl, rfl⟩
  · rw [if_neg hempty, if_neg hempty]
    obtain ⟨front, back, hps, -⟩ := exists_trim (marked s₁) (split .standard raw)
    obtain ⟨t₁, t₂, bodies, ht₁, ht₂, hpass, halike⟩ | herr :=
      parseNormal_marked hw ⟨front, back, hps.symm⟩
    · have hopen : s₁ ≠ '[' := (h₁.ne (by decide)).symm
      rw [hpass.classBodies_eq hopen]
      exact Or.inl ⟨t₁, t₂, ht₁, ht₂, halike, halike.eq⟩
    · exact Or.inr herr

theorem isMarker_at : IsMarker '@' := ⟨by decide, by decide, by decide⟩

theorem isMarker_hash : IsMarker '#' := ⟨by decide, by decide, by decide⟩

/-- A class without a gap, a gap after it, and one that ends a range. -/
theorem parse_withSentinel_range :
    IsMarker '@' ∧ IsMarker '#' ∧
      '@' ∉ ['[', 'a', ']', '.', '*', 'x', '[', '!', '-', '.', '*', ']'] ∧
      '#' ∉ ['[', 'a', ']', '.', '*', 'x', '[', '!', '-', '.', '*', ']'] ∧
      Pattern.parseWith (Dialect.standard.withSentinel '@')
          ['[', 'a', ']', '.', '*', 'x', '[', '!', '-', '.', '*', ']'] =
        .ok (.charClass (.gap (.charClass .blank .blank (.ofList ['a']) false) (.literal ['x']))
          .blank (.ofClass [⟨'!', false⟩, ⟨'-', false⟩, ⟨'@', false⟩]) false) ∧
      Pattern.parseWith (Dialect.standard.withSentinel '#')
          ['[', 'a', ']', '.', '*', 'x', '[', '!', '-', '.', '*', ']'] =
        .ok (.charClass (.gap (.charClass .blank .blank (.ofList ['a']) false) (.literal ['x']))
          .blank (.ofClass [⟨'!', false⟩, ⟨'-', false⟩, ⟨'#', false⟩]) false) ∧
      classBodies (split .standard ['[', 'a', ']', '.', '*', 'x', '[', '!', '-', '.', '*', ']']) =
        [[.plain 'a'], [.plain '!', .plain '-', .gap]] ∧
      (Pattern.charClass
          (.gap (.charClass .blank .blank (.ofList ['a']) false) (.literal ['x']))
          .blank (.ofClass [⟨'!', false⟩, ⟨'-', false⟩, ⟨'@', false⟩]) false).Alike '@' '#'
        [[.plain 'a'], [.plain '!', .plain '-', .gap]]
        (.charClass (.gap (.charClass .blank .blank (.ofList ['a']) false) (.literal ['x']))
          .blank (.ofClass [⟨'!', false⟩, ⟨'-', false⟩, ⟨'#', false⟩]) false) := by
  have hat : Pattern.parseWith (Dialect.standard.withSentinel '@')
      ['[', 'a', ']', '.', '*', 'x', '[', '!', '-', '.', '*', ']'] =
      .ok (.charClass (.gap (.charClass .blank .blank (.ofList ['a']) false) (.literal ['x']))
        .blank (.ofClass [⟨'!', false⟩, ⟨'-', false⟩, ⟨'@', false⟩]) false) := by
    decide +kernel
  have hhash : Pattern.parseWith (Dialect.standard.withSentinel '#')
      ['[', 'a', ']', '.', '*', 'x', '[', '!', '-', '.', '*', ']'] =
      .ok (.charClass (.gap (.charClass .blank .blank (.ofList ['a']) false) (.literal ['x']))
        .blank (.ofClass [⟨'!', false⟩, ⟨'-', false⟩, ⟨'#', false⟩]) false) := by
    decide +kernel
  have hbodies : classBodies
      (split .standard ['[', 'a', ']', '.', '*', 'x', '[', '!', '-', '.', '*', ']']) =
      [[.plain 'a'], [.plain '!', .plain '-', .gap]] := by
    decide +kernel
  have hr₁ : '@' ∉ ['[', 'a', ']', '.', '*', 'x', '[', '!', '-', '.', '*', ']'] := by decide
  have hr₂ : '#' ∉ ['[', 'a', ']', '.', '*', 'x', '[', '!', '-', '.', '*', ']'] := by decide
  refine ⟨isMarker_at, isMarker_hash, hr₁, hr₂, hat, hhash, hbodies, ?_⟩
  obtain ⟨t₁, t₂, h₁, h₂, halike, -⟩ | ⟨err, h₁, -⟩ :=
    parse_withSentinel isMarker_at isMarker_hash hr₁ hr₂
  · cases Except.ok.inj (hat.symm.trans h₁)
    cases Except.ok.inj (hhash.symm.trans h₂)
    rw [hbodies] at halike
    exact halike
  · cases hat.symm.trans h₁

/-- The tree of a class with a gap in it depends on the sentinel. -/
theorem withSentinel_observable :
    ¬ ∀ (s₁ s₂ : Char) (raw : List Char), IsMarker s₁ → IsMarker s₂ → s₁ ∉ raw → s₂ ∉ raw →
      (∃ t, Pattern.parseWith (Dialect.standard.withSentinel s₁) raw = .ok t ∧
        Pattern.parseWith (Dialect.standard.withSentinel s₂) raw = .ok t) ∨
      ∃ err, Pattern.parseWith (Dialect.standard.withSentinel s₁) raw = .error err ∧
        Pattern.parseWith (Dialect.standard.withSentinel s₂) raw = .error (err.rename s₁ s₂) := by
  intro h
  have hat : Pattern.parseWith (Dialect.standard.withSentinel '@') ['a', '[', '.', '*', ']', 'b'] =
      .ok (.charClass (.literal ['a']) (.literal ['b']) (.ofList ['@']) false) := by
    decide +kernel
  have hhash : Pattern.parseWith (Dialect.standard.withSentinel '#')
      ['a', '[', '.', '*', ']', 'b'] =
      .ok (.charClass (.literal ['a']) (.literal ['b']) (.ofList ['#']) false) := by
    decide +kernel
  obtain ⟨t, h₁, h₂⟩ | ⟨err, h₁, -⟩ :=
    h '@' '#' ['a', '[', '.', '*', ']', 'b'] isMarker_at isMarker_hash (by decide) (by decide)
  · have heq := Except.ok.inj (hat.symm.trans (h₁.trans (h₂.symm.trans hhash)))
    revert heq
    decide
  · cases hat.symm.trans h₁

end Parser

end GapRegex
