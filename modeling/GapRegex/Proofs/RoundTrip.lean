import GapRegex.Proofs.PrintedText

/-!
# RoundTrip — what is printed is read back

The printer decides about parentheses from the two nodes that meet, the reader from one character.
Both agree because of how the text of a part begins and of what may stand behind it.
* `startsFactor`: a factor that is not blank begins with a parenthesis or a literal, so that it
  joins neither a repetition nor a class nor a gap before it;
* `Behind`: what may stand behind a term.  A class without a factor of its own would take one;
* `Readback`: the three productions that read the text of a pattern, whatever follows;
* `readback`: they read it back, by induction on the pattern.
-/

namespace GapRegex

open GapRegex.Parser

/-! ### Leaves -/

theorem CharSet.addClass_eq_foldl {s : CharSet} {w : Option Literal} {xs : List Literal}
    (h : ∀ x ∈ xs, x.isDash = false) :
    s.addClass w xs = (xs.map Literal.char).foldl CharSet.add s := by
  fun_induction CharSet.addClass s w xs with
  | case1 => rfl
  | case2 => rfl
  | case3 s x y rest ih => exact ih fun z hz => h z (List.mem_cons_of_mem _ hz)
  | case4 s w x y rest hdash =>
    simp [h x (by simp)] at hdash
  | case5 s w x y rest _ ih => exact ih fun z hz => h z (List.mem_cons_of_mem _ hz)

theorem CharSet.ofList_toList (s : CharSet) : CharSet.ofList s.toList = s := by
  refine CharSet.ext fun c => ?_
  rw [Bool.eq_iff_iff, CharSet.contains_ofList, CharSet.mem_toList]

namespace Literal

/-- Characters that are written after the escape where `esc` says so. -/
def quoted (esc : Char → Bool) (cs : List Char) : List Literal := cs.map fun c => ⟨c, esc c⟩

theorem run_quoted (g : Dialect) (esc : Char → Bool) (cs : List Char) :
    run g (quoted esc cs) = cs.flatMap fun c => text g ⟨c, esc c⟩ := by
  rw [run, quoted, List.flatMap_map]

theorem map_char_quoted (esc : Char → Bool) (cs : List Char) : (quoted esc cs).map char = cs := by
  rw [quoted, List.map_map]
  exact List.map_id cs

theorem readable_quoted {g : Dialect} {esc stop : Char → Bool} (hstop : stop g.escape = false)
    (h : ∀ c, esc c = false → stop c = false ∧ c ≠ g.escape) (cs : List Char) :
    ∀ x ∈ quoted esc cs, x.Readable g stop := by
  intro x hx
  obtain ⟨c, -, rfl⟩ := List.mem_map.mp hx
  by_cases hc : esc c = true
  · simpa [Readable, hc] using hstop
  · have hc : esc c = false := Bool.eq_false_iff.mpr hc
    simpa [Readable, hc] using h c hc

end Literal

theorem mark_text {times : Repetition} (h : times.InRange) : Mark times.text times := by
  cases times with
  | zeroOrMore => exact .zeroOrMore
  | oneOrMore => exact .oneOrMore
  | between m n => exact .between (isNumber_toDigits m) (isNumber_toDigits n) h.1 h.2

namespace Pattern

/-- What the reader finds of a literal. -/
theorem exists_run (s : List Char) : ∃ xs, s.flatMap quoteLiteral = Literal.run .standard xs ∧
    (∀ x ∈ xs, x.Readable .standard Dialect.standard.isReserved) ∧ xs.map Literal.char = s := by
  refine ⟨_, (Literal.run_quoted _ _ s).symm, Literal.readable_quoted (by decide) ?_ s,
    Literal.map_char_quoted _ s⟩
  intro c hc
  simp only [Bool.or_eq_false_iff, beq_eq_false_iff_ne] at hc
  exact hc.1

/-- What the reader finds of a class. -/
theorem exists_body (members : CharSet) :
    ∃ body, members.toList.flatMap quoteMember = Literal.run .standard body ∧
      (∀ x ∈ body, x.Readable .standard (· == ']')) ∧ CharSet.ofClass body = members := by
  let esc : Char → Bool := fun c => c == '[' || c == ']' || c == '-' || c == '\\'
  refine ⟨Literal.quoted esc members.toList, (Literal.run_quoted _ esc _).symm,
    Literal.readable_quoted (by decide) ?_ _, ?_⟩
  · intro c hc
    simp only [esc, Bool.or_eq_false_iff, beq_eq_false_iff_ne] at hc
    exact ⟨beq_eq_false_iff_ne.mpr hc.1.1.2, hc.2⟩
  · have hdash : ∀ x ∈ Literal.quoted esc members.toList, x.isDash = false := by
      intro x hx
      obtain ⟨c, -, rfl⟩ := List.mem_map.mp hx
      by_cases hc : c = '-' <;> simp [Literal.isDash, esc, hc]
    rw [CharSet.ofClass, CharSet.addClass_eq_foldl hdash, Literal.map_char_quoted]
    exact members.ofList_toList

/-! ### How a part begins, and what may stand behind it -/

/-- The characters that a factor can begin with, unless it is blank. -/
def startsFactor (c : Char) : Bool := c == '(' || !Dialect.standard.isReserved c

/-- The characters that can stand behind a factor. -/
def startsNext (c : Char) : Bool := ['(', ')', '[', '|', '@'].contains c

theorem startsFactor_cases {c : Char} (h : startsFactor c = true) :
    endsTerm c = false ∧ c ≠ '@' ∧ c ≠ '[' ∧ startsRepetition c = false := by
  simp only [startsFactor, Bool.or_eq_true, beq_iff_eq, Bool.not_eq_true'] at h
  rcases h with rfl | h
  · decide
  · obtain ⟨hgap, ho⟩ := Dialect.isReserved_eq_false.mp h
    refine ⟨not_endsTerm ho, hgap, ?_, not_startsRepetition ho⟩
    rintro rfl
    exact ho (by decide)

theorem startsNext_cases {c : Char} (h : startsNext c = true) :
    Dialect.standard.isReserved c = true ∧ (!startsRepetition c) = true := by
  simp only [startsNext, List.contains_eq_mem, List.mem_cons, List.not_mem_nil, or_false,
    decide_eq_true_eq] at h
  rcases h with rfl | rfl | rfl | rfl | rfl <;> decide

theorem stops_reserved {rest : List Char} (h : Stops startsNext rest) :
    Stops Dialect.standard.isReserved rest :=
  h.mono fun _ hc => (startsNext_cases hc).1

theorem stops_repetition {rest : List Char} (h : Stops startsNext rest) :
    Stops (fun c => !startsRepetition c) rest :=
  h.mono fun _ hc => (startsNext_cases hc).2

/-- A class without a factor of its own. -/
def isOpen : Pattern → Bool
  | charClass _ after .. => after.isBlank
  | _ => false

theorem followText_eq (left p : Pattern) (text : List Char) : left.followText p text =
    if left.isOpen = true then '(' :: ')' :: p.factorText text
    else if p.isLiteral = true then parenthesized text else p.factorText text := by
  cases left with
  | charClass before after => cases after <;> cases p <;> rfl
  | _ => cases p <;> rfl

theorem exists_literalText {s : List Char} (h : s ≠ []) :
    ∃ c u, s.flatMap quoteLiteral = c :: u ∧ Dialect.standard.isReserved c = false := by
  obtain ⟨c, s, rfl⟩ := List.exists_cons_of_ne_nil h
  rcases quoteLiteral_cases c with hc | ⟨hc, hr, -⟩
  · exact ⟨'\\', c :: s.flatMap quoteLiteral, by simp [hc], rfl⟩
  · exact ⟨c, s.flatMap quoteLiteral, by simp [hc], hr⟩

/-- Only a literal begins without a parenthesis. -/
theorem exists_factorText {p : Pattern} (h : p.WellFormed) (hb : p ≠ blank) :
    ∃ c s, p.factorText p.normalText = c :: s ∧ startsFactor c = true ∧
      (p.isLiteral = false → c = '(') := by
  cases p with
  | blank => exact absurd rfl hb
  | literal s =>
    obtain ⟨c, u, hs, hc⟩ := exists_literalText (wellFormed_literal.mp h)
    exact ⟨c, u, hs, by simp [startsFactor, hc], nofun⟩
  | _ => exact ⟨_, _, rfl, rfl, fun _ => rfl⟩

/-- What may stand behind the term `p`: `rest`, of which `t` is left when the term is read.  An
open class takes the blank factor in front of `t`. -/
structure Behind (p : Pattern) (rest t : List Char) : Prop where
  next : Stops startsNext rest
  closed : p.isOpen = false → rest = t
  empty : p.isOpen = true → Reads .standard .factor rest .blank t

theorem reads_blank {rest : List Char} (hr : Stops startsNext rest)
    (hp : rest.head? ≠ some '(') : Reads .standard .factor rest .blank rest := by
  have hbase : Reads .standard .base (Literal.run .standard [] ++ rest) .blank rest :=
    .run hp nofun (stops_reserved hr)
  exact .bare hbase (stops_repetition hr)

theorem behind_closed {p : Pattern} (ho : p.isOpen = false) {rest : List Char}
    (hr : Stops startsNext rest) : Behind p rest rest :=
  ⟨hr, fun _ => rfl, fun h => absurd (ho.symm.trans h) (by decide)⟩

theorem behind_of_next (p : Pattern) {rest : List Char} (hr : Stops startsNext rest)
    (hp : rest.head? ≠ some '(') : Behind p rest rest :=
  ⟨hr, fun _ => rfl, fun _ => reads_blank hr hp⟩

/-- The empty group closes an open class. -/
theorem behind_empty_group {p : Pattern} (ho : p.isOpen = true) {t : List Char}
    (ht : Stops (fun c => !startsRepetition c) t) : Behind p ('(' :: ')' :: t) t := by
  refine ⟨stops_cons.mpr rfl, fun h => absurd (ho.symm.trans h) (by decide), fun _ => ?_⟩
  exact .bare (.group (.single (.stop (stops_cons.mpr rfl)) (by simp))) ht

/-! ### The productions on printed text -/

/-- The text of `p` is read as a term with whatever may stand behind it. -/
def ReadsTerm (p : Pattern) : Prop :=
  ∀ {rest t u : List Char} {q : Pattern}, Behind p rest t → Reads .standard (.term p) t q u →
    Reads .standard (.term .blank) (p.termText p.normalText ++ rest) q u

def ReadsRegex (p : Pattern) : Prop :=
  ∀ {rest : List Char}, Stops (· == ')') rest →
    Reads .standard .regex (p.normalText ++ rest) p rest

/-- Nothing that is blank is read where a group could begin. -/
def ReadsFactor (p : Pattern) : Prop :=
  ∀ {rest : List Char}, Stops startsNext rest → (p = blank → rest.head? ≠ some '(') →
    Reads .standard .factor (p.factorText p.normalText ++ rest) p rest

structure Readback (p : Pattern) : Prop where
  regex : p.ReadsRegex
  term : p.ReadsTerm
  factor : p.ReadsFactor

theorem reads_parenthesized {text rest : List Char} {p : Pattern}
    (h : Reads .standard .regex (text ++ ')' :: rest) p (')' :: rest)) :
    Reads .standard .base (parenthesized text ++ rest) p rest := by
  simpa [parenthesized] using Reads.group h

theorem reads_group {text rest : List Char} {p : Pattern}
    (h : Reads .standard .regex (text ++ ')' :: rest) p (')' :: rest))
    (hr : Stops (fun c => !startsRepetition c) rest) :
    Reads .standard .factor (parenthesized text ++ rest) p rest :=
  .bare (reads_parenthesized h) hr

theorem reads_join {before p q : Pattern} {c : Char} {s rest u : List Char}
    (hc : startsFactor c = true) (hp : Reads .standard .factor (c :: s ++ rest) p rest)
    (hq : Reads .standard (.term (before.append p)) rest q u) :
    Reads .standard (.term before) (c :: s ++ rest) q u := by
  obtain ⟨hend, hgap, hclass, -⟩ := startsFactor_cases hc
  refine .join hend hgap hclass hp ?_ hq
  intro h
  have := congrArg List.length h
  simp at this
  omega

theorem regex_of_term {p : Pattern} (ht : ∀ a, p.termText a = a) (h : p.ReadsTerm) :
    p.ReadsRegex := by
  intro rest hr
  have hparen : ∀ c ∈ rest.head?, c = ')' := fun c hc => by simpa using hr c hc
  have hne : ∀ d, d ≠ ')' → rest.head? ≠ some d := fun d hd hd' => hd (hparen d hd')
  have hterm : Reads .standard (.term .blank) (p.termText p.normalText ++ rest) p rest := by
    refine h (behind_of_next p (fun c hc => ?_) (hne '(' (by decide))) (.stop fun c hc => ?_)
    · rw [hparen c hc]
      rfl
    · rw [hparen c hc]
      rfl
  rw [ht] at hterm
  exact .single hterm (hne '|' (by decide))

theorem term_of_factor {p : Pattern} (hw : p.WellFormed) (hb : p ≠ blank)
    (ho : p.isOpen = false) (ht : ∀ a, p.termText a = p.factorText a) (h : p.ReadsFactor) :
    p.ReadsTerm := by
  intro rest t u q hr hq
  obtain rfl := hr.closed ho
  have hp := h hr.next (fun hb' => absurd hb' hb)
  obtain ⟨c, s, hs, hc, -⟩ := exists_factorText hw hb
  rw [ht, hs]
  rw [hs] at hp
  refine reads_join hc hp ?_
  rwa [blank_append]

/-- What is not a factor is read as one between parentheses. -/
theorem factor_of_regex {p : Pattern} (hf : ∀ a, p.factorText a = parenthesized a)
    (h : p.ReadsRegex) : p.ReadsFactor := by
  intro rest hr _
  rw [hf]
  exact reads_group (h (stops_cons.mpr rfl)) (stops_repetition hr)

theorem readback_of_term {p : Pattern} (ht : ∀ a, p.termText a = a)
    (hf : ∀ a, p.factorText a = parenthesized a) (h : p.ReadsTerm) : Readback p :=
  ⟨regex_of_term ht h, h, factor_of_regex hf (regex_of_term ht h)⟩

theorem readback_of_factor {p : Pattern} (hw : p.WellFormed) (hb : p ≠ blank)
    (ho : p.isOpen = false) (ht : ∀ a, p.termText a = a) (hf : ∀ a, p.factorText a = a)
    (h : p.ReadsFactor) : Readback p := by
  have hterm : p.ReadsTerm := term_of_factor hw hb ho (fun a => (ht a).trans (hf a).symm) h
  exact ⟨regex_of_term ht hterm, hterm, h⟩

/-! ### Every pattern is read back -/

theorem readback_blank : Readback blank := by
  have hterm : ReadsTerm blank := by
    intro rest t u q hr hq
    obtain rfl := hr.closed rfl
    exact hq
  exact ⟨regex_of_term (fun _ => rfl) hterm, hterm, fun hr hp => reads_blank hr (hp rfl)⟩

theorem readback_literal {s : List Char} (hw : (literal s).WellFormed) : Readback (literal s) := by
  have hfactor : ReadsFactor (literal s) := by
    intro rest hr _
    obtain ⟨xs, hs, hx, rfl⟩ := exists_run s
    obtain ⟨x, xs, rfl⟩ := List.exists_cons_of_ne_nil (mt List.map_eq_nil_iff.mpr
      (wellFormed_literal.mp hw))
    obtain ⟨c, u, hc, hc'⟩ := exists_literalText (wellFormed_literal.mp hw)
    rw [hs] at hc
    have hparen : (Literal.run .standard (x :: xs) ++ rest).head? ≠ some '(' := by
      rw [hc]
      rintro ⟨⟩
      cases hc'
    have hbase := Reads.run hparen hx (stops_reserved hr)
    rw [← hs] at hbase
    exact .bare hbase (stops_repetition hr)
  exact readback_of_factor hw (by simp) rfl (fun _ => rfl) (fun _ => rfl) hfactor

theorem readback_repetition {inner : Pattern} {times : Repetition}
    (hw : (repetition inner times).WellFormed) (h : Readback inner) :
    Readback (repetition inner times) := by
  obtain ⟨⟨hb, ht⟩, -⟩ := wellFormed_repetition.mp hw
  have hfactor : ReadsFactor (repetition inner times) := by
    intro rest _ _
    have hbase : Reads .standard .base ('(' :: (inner.normalText ++ ')' :: (times.text ++ rest)))
        inner (times.text ++ rest) := .group (h.regex (stops_cons.mpr rfl))
    simpa [factorText, normalText, parenthesized] using Reads.repeated hbase hb (mark_text ht)
  exact readback_of_factor hw (by simp) rfl (fun _ => rfl) (fun _ => rfl) hfactor

theorem readback_union {left right : Pattern} (hw : (union left right).WellFormed)
    (hl : Readback left) (hr : Readback right) : Readback (union left right) := by
  obtain ⟨⟨hl', hr'⟩, -, -⟩ := wellFormed_union.mp hw
  have hregex : ReadsRegex (union left right) := by
    intro rest hrest
    have hleft : Reads .standard (.term .blank)
        (left.termText left.normalText ++ '|' :: (right.normalText ++ rest)) left
        ('|' :: (right.normalText ++ rest)) :=
      hl.term (behind_of_next left (stops_cons.mpr rfl) (by simp)) (.stop (stops_cons.mpr rfl))
    simpa [normalText] using Reads.union hleft hl' (hr.regex hrest) hr'
  have hfactor : ReadsFactor (union left right) := factor_of_regex (fun _ => rfl) hregex
  exact ⟨hregex, term_of_factor hw (by simp) rfl (fun _ => rfl) hfactor, hfactor⟩

theorem readback_gap {before after : Pattern} (hw : (gap before after).WellFormed)
    (hb : Readback before) (ha : Readback after) : Readback (gap before after) := by
  obtain ⟨⟨hb', ha'⟩, -, -⟩ := wellFormed_gap.mp hw
  refine readback_of_term (fun _ => rfl) (fun _ => rfl) ?_
  intro rest t u q hr hq
  obtain rfl := hr.closed rfl
  have hafter := ha.factor hr.next (fun h => absurd h ha')
  have hgap : Reads .standard (.term before)
      ('@' :: (after.factorText after.normalText ++ rest)) q u := .gap rfl hb' hafter ha' hq
  simpa [termText, normalText] using
    hb.term (behind_of_next before (stops_cons.mpr rfl) (by simp)) hgap

theorem stops_after {after : Pattern} (hw : after.WellFormed) {rest : List Char}
    (hr : Stops startsNext rest) :
    Stops (fun c => !startsRepetition c) (after.factorText after.normalText ++ rest) := by
  by_cases h : after = blank
  · subst h
    exact stops_repetition hr
  · obtain ⟨c, s, hs, hc, -⟩ := exists_factorText hw h
    rw [hs]
    simp [(startsFactor_cases hc).2.2.2]

/-- An open class reads the blank factor of what stands behind it. -/
theorem reads_after {before after : Pattern} {members : CharSet} {repeated : Bool}
    {rest t : List Char} (ha : Readback after)
    (hr : Behind (charClass before after members repeated) rest t) :
    Reads .standard .factor (after.factorText after.normalText ++ rest) after t := by
  by_cases h : after = blank
  · subst h
    exact hr.empty rfl
  · have ho : (charClass before after members repeated).isOpen = false :=
      Bool.eq_false_iff.mpr (mt isBlank_iff.mp h)
    obtain rfl := hr.closed ho
    exact ha.factor hr.next (fun h' => absurd h' h)

theorem readback_charClass {before after : Pattern} {members : CharSet} {repeated : Bool}
    (hw : (charClass before after members repeated).WellFormed) (hb : Readback before)
    (ha : Readback after) : Readback (charClass before after members repeated) := by
  obtain ⟨-, hwa⟩ := wellFormed_charClass.mp hw
  refine readback_of_term (fun _ => rfl) (fun _ => rfl) ?_
  intro rest t u q hr hq
  have hafter := reads_after ha hr
  have hmark : ClassMark (if repeated then ['+'] else []) repeated
      (after.factorText after.normalText ++ rest) := by
    cases repeated with
    | true => exact .plus _
    | false => exact .of_stops (stops_after hwa hr.next)
  obtain ⟨body, hbody, hread, rfl⟩ := exists_body members
  have hclass : Reads .standard (.term before) ('[' :: (Literal.run .standard body ++
      ']' :: (if repeated then ['+'] else []) ++ (after.factorText after.normalText ++ rest)))
      q u :=
    .charClass (by decide) hread hmark hafter hq
  simpa [termText, normalText, classText, hbody] using
    hb.term (behind_of_next before (stops_cons.mpr rfl) (by simp)) hclass

/-- However the right part of a concatenation is written, it is read as a factor, and it may stand
behind the left part. -/
theorem exists_followText (left : Pattern) {right : Pattern} (hw : right.WellFormed)
    (hb : right ≠ blank) (h : Readback right) {rest : List Char} (hr : Stops startsNext rest) :
    ∃ c s, startsFactor c = true ∧ Reads .standard .factor (c :: s ++ rest) right rest ∧
      Behind left (left.followText right right.normalText ++ rest) (c :: s ++ rest) := by
  obtain ⟨c, s, hs, hc, hparen⟩ := exists_factorText hw hb
  have hfactor := h.factor hr (fun h => absurd h hb)
  rw [hs] at hfactor
  rw [followText_eq]
  by_cases ho : left.isOpen = true
  · -- the empty group is the factor of the class, and the part is left over
    rw [if_pos ho, hs]
    refine ⟨c, s, hc, hfactor, behind_empty_group ho (stops_cons.mpr ?_)⟩
    simp [(startsFactor_cases hc).2.2.2]
  · rw [if_neg ho]
    have hclosed : left.isOpen = false := Bool.eq_false_iff.mpr ho
    by_cases hl : right.isLiteral = true
    · -- a bare literal would join the run before it
      rw [if_pos hl]
      exact ⟨'(', right.normalText ++ [')'], rfl,
        reads_group (h.regex (stops_cons.mpr rfl)) (stops_repetition hr),
        behind_closed hclosed (stops_cons.mpr rfl)⟩
    · rw [if_neg hl, hs]
      obtain rfl := hparen (Bool.eq_false_iff.mpr hl)
      exact ⟨'(', s, rfl, hfactor, behind_closed hclosed (stops_cons.mpr rfl)⟩

theorem readback_concat {left right : Pattern} (hw : (concat left right).WellFormed)
    (hl : Readback left) (hr : Readback right) : Readback (concat left right) := by
  obtain ⟨⟨hlb, hrb, hlit⟩, -, hwr⟩ := wellFormed_concat.mp hw
  refine readback_of_term (fun _ => rfl) (fun _ => rfl) ?_
  intro rest t u q hrest hq
  obtain rfl := hrest.closed rfl
  obtain ⟨c, s, hc, hright, hbehind⟩ := exists_followText left hwr hrb hr hrest.next
  rw [← append_eq_concat hlb hrb hlit] at hq
  simpa [termText, normalText] using hl.term hbehind (reads_join hc hright hq)

/-- Every production reads back what is printed of a well-formed pattern. -/
theorem readback {p : Pattern} (hw : p.WellFormed) : Readback p := by
  induction p with
  | blank => exact readback_blank
  | literal => exact readback_literal hw
  | concat left right ihl ihr =>
    obtain ⟨-, hl, hr⟩ := wellFormed_concat.mp hw
    exact readback_concat hw (ihl hl) (ihr hr)
  | union left right ihl ihr =>
    obtain ⟨-, hl, hr⟩ := wellFormed_union.mp hw
    exact readback_union hw (ihl hl) (ihr hr)
  | repetition inner times ih =>
    exact readback_repetition hw (ih (wellFormed_repetition.mp hw).2)
  | gap before after ihb iha =>
    obtain ⟨-, hb, ha⟩ := wellFormed_gap.mp hw
    exact readback_gap hw (ihb hb) (iha ha)
  | charClass before after members repeated ihb iha =>
    obtain ⟨hb, ha⟩ := wellFormed_charClass.mp hw
    exact readback_charClass hw (ihb hb) (iha ha)

/-- Printing a well-formed pattern and reading the text gives the pattern back. -/
theorem parse_text {t : Pattern} (hw : t.WellFormed) (hb : t ≠ blank) : parse t.text = .ok t := by
  refine parseWith_iff.mpr ⟨t.normalText, normalize_text hw hb, ?_, hb⟩
  have hregex := (readback hw).regex (stops_nil (· == ')'))
  rwa [List.append_nil] at hregex

/-- A class without a factor of its own before a literal, and a union after a gap. -/
theorem parse_text_gap :
    (gap (concat (charClass blank blank (.ofList ['.', '*', '-']) false) (literal ['@', '.']))
      (repetition (union (literal ['a']) (literal ['b'])) (.between 2 3))).WellFormed ∧
    parse ['[', '*', '\\', '-', '.', ']', '(', ')', '\\', '@', '\\', '.', '.', '*', '(', 'a', '|',
        'b', ')', '{', '2', ',', '3', '}'] =
      .ok (gap
        (concat (charClass blank blank (.ofList ['.', '*', '-']) false) (literal ['@', '.']))
        (repetition (union (literal ['a']) (literal ['b'])) (.between 2 3))) := by
  have hw : (gap
      (concat (charClass blank blank (.ofList ['.', '*', '-']) false) (literal ['@', '.']))
      (repetition (union (literal ['a']) (literal ['b'])) (.between 2 3))).WellFormed := by
    simp [isLiteral, Repetition.InRange, boundLimit, UInt64.size]
  exact ⟨hw, parse_text hw (by simp)⟩

end Pattern

end GapRegex
