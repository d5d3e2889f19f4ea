import GapRegex.Proofs.Reads

/-!
# Faults — what a reading step reports

Each reading step that has no recursion in it is described by the texts on which it fails, and by
what it then reports.  A fault names the place up to which all was well, and what is wrong there.
* `literalsUntil_error_iff`: the escape at the end of the text (`Dangles`);
* `nextNumber_error_iff`: no digit, or a number that is not below the limit (`NumberFault`);
* `bracketed_error_iff`, `repetitionMark_error_iff`: a class that nothing closes, and a counted
  repetition that is not as it should be (`ClassFault`, `MarkFault`).

The productions are described in the same way: `regex_error_iff`, `term_error_iff`,
`item_gap_error_iff`, `item_class_error_iff`, `item_join_error_iff`, `factor_error_iff` and
`base_error_iff` say which part of a production fails, or which of its tests.
-/

namespace GapRegex

open GapRegex.Parser

/-! ### Steps one after the other -/

namespace Scan

section Steps

variable {α β : Type} {s : Scan α} {f : α → Scan β} {c : Cursor} {err : ParseError}

theorem outcome_bind (s : Scan α) (f : α → Scan β) (c : Cursor) :
    outcome ((s >>= f) c) =
      match outcome (s c) with
      | .error err => .error err
      | .ok (a, d) => outcome (f a d) := by
  simp only [Bind.bind, EStateM.bind]
  cases s c <;> rfl

theorem bind_error_iff : outcome ((s >>= f) c) = .error err ↔
    outcome (s c) = .error err ∨ ∃ a d, s c = .ok a d ∧ outcome (f a d) = .error err := by
  simp only [Bind.bind, EStateM.bind]
  cases s c with
  | ok a d =>
    constructor
    · exact fun h => Or.inr ⟨a, d, rfl, h⟩
    · rintro (h | ⟨a', d', h, h'⟩)
      · cases h
      · cases h
        exact h'
  | error err' d => simp [outcome]

theorem pure_not_error (a : α) : outcome ((pure a : Scan α) c) ≠ .error err := nofun

theorem throw_error_iff {err' : ParseError} :
    outcome ((throw err' : Scan α) c) = .error err ↔ err' = err := by
  constructor
  · intro h
    cases h
    rfl
  · rintro rfl
    rfl

theorem expect_error_iff {ch : Char} : outcome (expect ch c) = .error err ↔
    c.peek ≠ some ch ∧ ParseError.expectedChar c.pos ch c.peek = err := by
  unfold expect
  by_cases h : c.isAt ch = true
  · have hp : c.peek = some ch := by simpa [Cursor.isAt] using h
    simp [h, hp, outcome]
  · have hp : c.peek ≠ some ch := by simpa [Cursor.isAt] using h
    simp [h, hp, outcome]

theorem consume_not_error (ch : Char) : outcome (consume ch c) ≠ .error err := by
  unfold consume
  split <;> simp [outcome]

end Steps

/-! ### Runs of literals -/

/-- The literals of a run are read one at a time. -/
theorem outcome_literalsUntil (g : Dialect) (stop : Char → Bool) (c : Cursor) :
    outcome (literalsUntil g stop c) =
      match c.peek with
      | none => .ok ([], c)
      | some ch =>
        if stop ch then .ok ([], c)
        else
          match outcome (nextLiteral g c) with
          | .error err => .error err
          | .ok (x, d) =>
            match outcome (literalsUntil g stop d) with
            | .error err => .error err
            | .ok (xs, e) => .ok (x :: xs, e) := by
  rw [literalsUntil_eq]
  cases c.peek with
  | none => rfl
  | some ch =>
    by_cases hs : stop ch = true
    · simp only [if_pos hs]
      rfl
    · simp only [if_neg hs]
      cases nextLiteral g c with
      | error err d => rfl
      | ok x d =>
        simp only [outcome]
        cases literalsUntil g stop d <;> rfl

/-- After literals that the run can hold, the escape is all that is left of the text. -/
inductive Dangles (g : Dialect) (stop : Char → Bool) (c : Cursor) : ParseError → Prop
  | mk {xs : List Literal} {d : Cursor} (ht : Takes c (Literal.run g xs) d)
      (hx : ∀ x ∈ xs, x.Readable g stop) (hs : stop g.escape = false) (hd : d.rest = [g.escape]) :
      Dangles g stop c (.unexpectedEnd (d.pos + 1))

section Runs

variable {g : Dialect} {stop : Char → Bool}

/-- A literal may stand in front. -/
theorem Dangles.cons {x : Literal} {c d : Cursor} {err : ParseError} (hx : x.Readable g stop)
    (ht : Takes c (x.text g) d) (h : Dangles g stop d err) : Dangles g stop c err := by
  obtain ⟨ht', hxs, hs, hd⟩ := h
  refine ⟨(Literal.run_cons g x _).symm ▸ ht.trans ht', ?_, hs, hd⟩
  exact List.forall_mem_cons.mpr ⟨hx, hxs⟩

theorem dangles_of_literalsFrom {pos : Nat} {text : List Char} {before : List Literal}
    {err : ParseError} (h : outcome (literalsFrom g stop pos text before) = .error err) :
    Dangles g stop ⟨pos, text⟩ err := by
  fun_induction literalsFrom g stop pos text before with
  | case1 => cases h
  | case2 => cases h
  | case3 pos before hs =>
    cases h
    have ht : Takes ⟨pos, [g.escape]⟩ (Literal.run g []) ⟨pos, [g.escape]⟩ := Takes.refl _
    exact .mk ht (List.forall_mem_nil _) (Bool.eq_false_iff.mpr hs) rfl
  | case4 pos before x rest hs ih =>
    have hx : Literal.Readable g stop ⟨x, true⟩ := by simpa [Literal.Readable] using hs
    exact (ih h).cons hx ⟨rfl, rfl⟩
  | case5 pos before c rest hs he ih =>
    have hx : Literal.Readable g stop ⟨c, false⟩ := by
      simpa [Literal.Readable] using ⟨Bool.eq_false_iff.mpr hs, he⟩
    exact (ih h).cons hx ⟨rfl, rfl⟩

theorem literalsFrom_of_dangles {xs : List Literal} (hx : ∀ x ∈ xs, x.Readable g stop)
    (hs : stop g.escape = false) (pos : Nat) (before : List Literal) :
    outcome (literalsFrom g stop pos (Literal.run g xs ++ [g.escape]) before) =
      .error (.unexpectedEnd (pos + (Literal.run g xs).length + 1)) := by
  induction xs generalizing pos before with
  | nil =>
    rw [Literal.run_nil, List.nil_append, literalsFrom_dangling hs]
    rfl
  | cons x xs ih =>
    obtain ⟨hx, hxs⟩ := List.forall_mem_cons.mp hx
    obtain ⟨ch, escaped⟩ := x
    cases escaped with
    | true =>
      simp only [Literal.run_cons, Literal.text, if_true, List.cons_append, List.nil_append]
      rw [literalsFrom_escaped hs, ih hxs]
      simp [Nat.add_assoc, Nat.add_comm 2]
    | false =>
      have h : stop ch = false ∧ ch ≠ g.escape := by simpa [Literal.Readable] using hx
      simp only [Literal.run_cons, Literal.text, Bool.false_eq_true, if_false, List.cons_append,
        List.nil_append]
      rw [literalsFrom_bare h.1 h.2, ih hxs]
      simp [Nat.add_assoc, Nat.add_comm 1]

theorem literalsUntil_error_iff {c : Cursor} {err : ParseError} :
    outcome (literalsUntil g stop c) = .error err ↔ Dangles g stop c err := by
  constructor
  · exact dangles_of_literalsFrom
  · rintro ⟨⟨h₁, h₂⟩, hx, hs, hd⟩
    unfold literalsUntil
    rw [h₁, hd, literalsFrom_of_dangles hx hs, h₂]

end Runs

/-! ### Numbers -/

/-- Where a number should stand there is no digit, or all the digits denote one that is too
large. -/
inductive NumberFault (c : Cursor) : ParseError → Prop
  | missing (h : c.rest.takeWhile Char.isDigit = []) :
      NumberFault c (.expectedChar c.pos '0' c.peek)
  | tooLarge (h : boundLimit ≤ Nat.ofDigitChars 10 (c.rest.takeWhile Char.isDigit) 0) :
      NumberFault c (.boundTooLarge c.pos)

theorem nextNumber_error_iff {c : Cursor} {err : ParseError} :
    outcome (nextNumber c) = .error err ↔ NumberFault c err := by
  constructor
  · intro h
    by_cases hne : c.rest.takeWhile Char.isDigit = []
    · rw [nextNumber_of_no_digit hne] at h
      cases h
      exact .missing hne
    · by_cases hlt : Nat.ofDigitChars 10 (c.rest.takeWhile Char.isDigit) 0 < boundLimit
      · rw [nextNumber_of_lt rfl hne hlt] at h
        cases h
      · have hle := Nat.le_of_not_lt hlt
        obtain ⟨front, x, back, hds, hfront, hx⟩ := exists_passing (by decide) hle
        rw [nextNumber_of_passing hds hfront hx] at h
        cases h
        exact .tooLarge hle
  · rintro (hne | hle)
    · rw [nextNumber_of_no_digit hne]
      rfl
    · obtain ⟨front, x, back, hds, hfront, hx⟩ := exists_passing (by decide) hle
      rw [nextNumber_of_passing hds hfront hx]
      rfl

end Scan

namespace Parser

open Scan

/-! ### Classes -/

/-- A class whose text ends before a bracket closes it. -/
inductive ClassFault (g : Dialect) (c : Cursor) : ParseError → Prop
  | dangles {err : ParseError} (h : Dangles g (· == ']') c err) : ClassFault g c err
  | unclosed {body : List Literal} {d : Cursor} (ht : Takes c (Literal.run g body) d)
      (hb : ∀ x ∈ body, x.Readable g (· == ']')) (hd : d.rest = []) :
      ClassFault g c (.expectedChar d.pos ']' none)

theorem classBody_error_iff {g : Dialect} {c : Cursor} {err : ParseError} :
    outcome (classBody g c) = .error err ↔ ClassFault g c err := by
  unfold classBody
  rw [bind_error_iff, literalsUntil_error_iff]
  constructor
  · rintro (h | ⟨body, d, h, h'⟩)
    · exact .dangles h
    · obtain ⟨ht, hb, -⟩ := literalsUntil_iff.mp h
      rw [get_bind] at h'
      split at h'
      · exact absurd h' (pure_not_error body)
      · next hm =>
        obtain rfl := throw_error_iff.mp h'
        exact .unclosed ht hb (by simpa [Cursor.more] using hm)
  · rintro (h | ⟨ht, hb, hd⟩)
    · exact Or.inl h
    · next body d =>
      have hrun : literalsUntil g (· == ']') c = .ok body d :=
        literalsUntil_iff.mpr ⟨ht, hb, by rw [hd]; exact stops_nil _⟩
      refine Or.inr ⟨body, d, hrun, ?_⟩
      rw [get_bind, if_neg (by simp [Cursor.more, hd])]
      rfl

theorem bracketed_error_iff {g : Dialect} {c : Cursor} {err : ParseError} :
    outcome (bracketed g c) = .error err ↔ ClassFault g c err := by
  rw [← classBody_error_iff]
  unfold bracketed
  rw [bind_error_iff]
  constructor
  · rintro (h | ⟨body, d, h, h'⟩)
    · exact h
    · -- the body ends before the bracket, and no mark need follow
      exfalso
      obtain ⟨-, -, hd⟩ := classBody_iff.mp h
      rcases bind_error_iff.mp h' with h' | ⟨-, e, -, h'⟩
      · exact (expect_error_iff.mp h').1 hd
      · rcases bind_error_iff.mp h' with h' | ⟨plus, e', -, h'⟩
        · exact consume_not_error '+' h'
        · cases plus with
          | true => exact pure_not_error (CharSet.ofClass body, true) h'
          | false =>
            rcases bind_error_iff.mp h' with h' | ⟨star, e'', -, h'⟩
            · exact consume_not_error '*' h'
            · exact pure_not_error (CharSet.ofClass body, star) h'
  · exact Or.inl

/-! ### Marks of repetition -/

/-- A counted repetition that goes wrong at one of its bounds, at what should stand behind a bound,
or because the bounds are reversed. -/
inductive MarkFault (c : Cursor) : ParseError → Prop
  | least {d : Cursor} {err : ParseError} (hopen : Takes c ['{'] d) (h : NumberFault d err) :
      MarkFault c err
  | comma {d e : Cursor} {m : Nat} (hopen : Takes c ['{'] d) (hm : nextNumber d = .ok m e)
      (he : e.peek ≠ some ',') : MarkFault c (.expectedChar e.pos ',' e.peek)
  | greatest {d e f : Cursor} {m : Nat} {err : ParseError} (hopen : Takes c ['{'] d)
      (hm : nextNumber d = .ok m e) (hcomma : Takes e [','] f) (h : NumberFault f err) :
      MarkFault c err
  | close {d e f e' : Cursor} {m n : Nat} (hopen : Takes c ['{'] d)
      (hm : nextNumber d = .ok m e) (hcomma : Takes e [','] f) (hn : nextNumber f = .ok n e')
      (he : e'.peek ≠ some '}') : MarkFault c (.expectedChar e'.pos '}' e'.peek)
  | reversed {d e f e' f' : Cursor} {m n : Nat} (hopen : Takes c ['{'] d)
      (hm : nextNumber d = .ok m e) (hcomma : Takes e [','] f) (hn : nextNumber f = .ok n e')
      (hclose : Takes e' ['}'] f') (hgt : n < m) : MarkFault c (.reversedBounds c.pos m n)

theorem MarkFault.peek {c : Cursor} {err : ParseError} (h : MarkFault c err) :
    c.peek = some '{' := by
  cases h with
  | least hopen => exact hopen.peek
  | comma hopen => exact hopen.peek
  | greatest hopen => exact hopen.peek
  | close hopen => exact hopen.peek
  | reversed hopen => exact hopen.peek

theorem counted_error_iff {c : Cursor} {err : ParseError} (hp : c.peek = some '{') :
    outcome (counted c) = .error err ↔ MarkFault c err := by
  unfold counted
  rw [get_bind]
  simp only [bind_error_iff, expect_error_iff, nextNumber_error_iff, expect_iff]
  constructor
  · rintro (⟨h, -⟩ | ⟨-, d, hopen, h | ⟨m, e, hm, ⟨he, rfl⟩ | ⟨-, f, hcomma, h | ⟨n, e', hn,
      ⟨he, rfl⟩ | ⟨-, f', hclose, h⟩⟩⟩⟩⟩)
    · exact absurd hp h
    · exact .least hopen h
    · exact .comma hopen hm he
    · exact .greatest hopen hm hcomma h
    · exact .close hopen hm hcomma hn he
    · split at h
      · next hgt =>
        obtain rfl := throw_error_iff.mp h
        exact .reversed hopen hm hcomma hn hclose hgt
      · exact absurd h (pure_not_error _)
  · intro h
    refine Or.inr ?_
    cases h with
    | least hopen h => exact ⟨(), _, hopen, Or.inl h⟩
    | comma hopen hm he => exact ⟨(), _, hopen, Or.inr ⟨_, _, hm, Or.inl ⟨he, rfl⟩⟩⟩
    | greatest hopen hm hcomma h =>
      exact ⟨(), _, hopen, Or.inr ⟨_, _, hm, Or.inr ⟨(), _, hcomma, Or.inl h⟩⟩⟩
    | close hopen hm hcomma hn he =>
      exact ⟨(), _, hopen, Or.inr ⟨_, _, hm, Or.inr ⟨(), _, hcomma, Or.inr ⟨_, _, hn,
        Or.inl ⟨he, rfl⟩⟩⟩⟩⟩
    | reversed hopen hm hcomma hn hclose hgt =>
      refine ⟨(), _, hopen, Or.inr ⟨_, _, hm, Or.inr ⟨(), _, hcomma, Or.inr ⟨_, _, hn,
        Or.inr ⟨(), _, hclose, ?_⟩⟩⟩⟩⟩
      rw [if_pos hgt]
      rfl

theorem repetitionMark_error_iff {c : Cursor} {lit : Char} {err : ParseError}
    (hp : c.peek = some lit) (hl : startsRepetition lit = true) :
    outcome (repetitionMark lit c) = .error err ↔ MarkFault c err := by
  -- a mark of one character is there as soon as it is looked for
  have single : ∀ times : Repetition, lit ≠ '{' →
      (outcome ((do expect lit; return times : Scan Repetition) c) = .error err ↔
        MarkFault c err) := by
    intro times hne
    refine ⟨fun h => ?_, fun h => absurd (Option.some.inj (hp.symm.trans h.peek)) hne⟩
    rcases bind_error_iff.mp h with h | ⟨-, d, -, h⟩
    · exact absurd hp (expect_error_iff.mp h).1
    · exact absurd h (pure_not_error times)
  simp only [startsRepetition, Bool.or_eq_true, beq_iff_eq] at hl
  unfold repetitionMark
  rcases hl with (rfl | rfl) | rfl
  · exact single .zeroOrMore (by decide)
  · exact single .oneOrMore (by decide)
  · exact counted_error_iff hp

theorem literalRun_error_iff {g : Dialect} {c : Cursor} {err : ParseError} :
    outcome (literalRun g c) = .error err ↔ Dangles g g.isReserved c err := by
  unfold literalRun
  rw [bind_error_iff, literalsUntil_error_iff]
  refine ⟨?_, Or.inl⟩
  rintro (h | ⟨run, d, -, h⟩)
  · exact h
  · exact absurd h (pure_not_error _)

/-! ### Productions -/

section Productions

variable {g : Dialect} {c : Cursor} {ch : Char} {before : Pattern} {err : ParseError}

/-- Where a part is read, there is one value of it and one place after it. -/
theorem exists_ok_iff {α : Type} {a : α} {d : Cursor} {P : α → Cursor → Prop} :
    (∃ a' d', (.ok (a, d) : Except ParseError (α × Cursor)) = .ok (a', d') ∧ P a' d') ↔ P a d := by
  constructor
  · rintro ⟨a', d', h, h'⟩
    cases h
    exact h'
  · exact fun h => ⟨a, d, rfl, h⟩

theorem regex_error_iff : plain (regex g c) = .error err ↔
    plain (term g c .blank) = .error err ∨
      ∃ left d, plain (term g c .blank) = .ok (left, d) ∧ d.peek = some '|' ∧
        (left = .blank ∧ ParseError.emptyAlternative c.pos = err ∨
          left ≠ .blank ∧ (plain (regex g d.advance) = .error err ∨
            ∃ right e, plain (regex g d.advance) = .ok (right, e) ∧ right = .blank ∧
              ParseError.emptyAlternative d.advance.pos = err)) := by
  rw [plain_regex]
  cases plain (term g c .blank) with
  | error err' => simp
  | ok r =>
    obtain ⟨left, d⟩ := r
    simp only [exists_ok_iff, reduceCtorEq, false_or]
    by_cases hbar : d.peek = some '|'
    · by_cases hl : left = .blank
      · simp [hbar, hl]
      · cases plain (regex g d.advance) with
        | error err' => simp [hbar, hl]
        | ok r =>
          obtain ⟨right, e⟩ := r
          simp only [exists_ok_iff, reduceCtorEq, false_or]
          by_cases hr : right = .blank <;> simp [hbar, hl, hr]
    · simp [hbar]

theorem term_error_iff : plain (term g c before) = .error err ↔
    ∃ ch, c.peek = some ch ∧ endsTerm ch = false ∧
      (plain (item g c ch before) = .error err ∨
        ∃ p d, plain (item g c ch before) = .ok (p, d) ∧ plain (term g d p) = .error err) := by
  rw [plain_term]
  cases c.peek with
  | none => simp
  | some ch =>
    simp only [Option.some.injEq, exists_eq_left']
    by_cases hs : ch = ')' ∨ ch = '|'
    · have hs' : endsTerm ch = true := by simpa [endsTerm] using hs
      simp [hs, hs']
    · have hs' : endsTerm ch = false := by simpa [endsTerm] using hs
      cases plain (item g c ch before) with
      | error err' => simp [hs, hs']
      | ok r =>
        obtain ⟨p, d⟩ := r
        simp only [exists_ok_iff]
        simp [hs, hs']

theorem item_gap_error_iff : plain (item g c g.sentinel before) = .error err ↔
    plain (factor g c.advance) = .error err ∨
      ∃ after d, plain (factor g c.advance) = .ok (after, d) ∧
        (before = .blank ∨ after = .blank) ∧ ParseError.blankGap c.pos = err := by
  rw [plain_item, if_pos rfl]
  cases plain (factor g c.advance) with
  | error err' => simp
  | ok r =>
    obtain ⟨after, d⟩ := r
    simp only [exists_ok_iff, reduceCtorEq, false_or, ← Pattern.gap?_eq_none]
    cases before.gap? after <;> simp

theorem item_class_error_iff (hg : '[' ≠ g.sentinel) : plain (item g c '[' before) = .error err ↔
    ClassFault g c.advance err ∨
      ∃ r d, bracketed g c.advance = .ok r d ∧ plain (factor g d) = .error err := by
  rw [plain_item, if_neg hg, if_pos rfl, ← bracketed_error_iff]
  simp only [← outcome_ok_iff]
  cases outcome (bracketed g c.advance) with
  | error err' => simp
  | ok r =>
    obtain ⟨⟨members, repeated⟩, d⟩ := r
    simp only [exists_ok_iff, reduceCtorEq, false_or]
    cases plain (factor g d) <;> simp

theorem item_join_error_iff (hg : ch ≠ g.sentinel) (hb : ch ≠ '[') :
    plain (item g c ch before) = .error err ↔
      plain (factor g c) = .error err ∨
        ∃ p d, plain (factor g c) = .ok (p, d) ∧ ¬ d.unread < c.unread ∧
          ParseError.unexpectedChar c.pos ch = err := by
  rw [plain_item, if_neg hg, if_neg hb]
  cases plain (factor g c) with
  | error err' => simp
  | ok r =>
    obtain ⟨p, d⟩ := r
    simp only [exists_ok_iff, reduceCtorEq, false_or]
    by_cases hlt : d.unread < c.unread <;> simp [hlt]

theorem factor_error_iff : plain (factor g c) = .error err ↔
    plain (base g c) = .error err ∨
      ∃ p d, plain (base g c) = .ok (p, d) ∧ ∃ lit, d.peek = some lit ∧
        startsRepetition lit = true ∧
        (p = .blank ∧ ParseError.nothingToRepeat d.pos lit = err ∨
          p ≠ .blank ∧ MarkFault d err) := by
  rw [plain_factor]
  cases plain (base g c) with
  | error err' => simp
  | ok r =>
    obtain ⟨p, d⟩ := r
    simp only [exists_ok_iff, reduceCtorEq, false_or]
    cases hp : d.peek with
    | none => simp
    | some lit =>
      by_cases hl : startsRepetition lit = true
      · by_cases hb : p = .blank
        · simp [hl, hb]
        · have hb' : p.isBlank = false := Bool.eq_false_iff.mpr (mt Pattern.isBlank_iff.mp hb)
          simp only [Option.some.injEq, exists_eq_left', hl, hb, hb', ne_eq, not_false_eq_true,
            false_and, false_or, true_and, if_true, Bool.false_eq_true, if_false,
            ← repetitionMark_error_iff hp hl]
          cases outcome (repetitionMark lit d) <;> simp
      · simp [hl]

theorem base_error_iff : plain (base g c) = .error err ↔
    c.peek = some '(' ∧ (plain (regex g c.advance) = .error err ∨
      ∃ p d, plain (regex g c.advance) = .ok (p, d) ∧ d.peek ≠ some ')' ∧
        ParseError.expectedChar d.pos ')' d.peek = err) ∨
      c.peek ≠ some '(' ∧ Dangles g g.isReserved c err := by
  rw [plain_base]
  by_cases hp : c.peek = some '('
  · cases plain (regex g c.advance) with
    | error err' => simp [hp]
    | ok r =>
      obtain ⟨p, d⟩ := r
      simp only [hp, exists_ok_iff, reduceCtorEq, false_or, ← expect_error_iff]
      cases outcome (expect ')' d) <;> simp
  · simp [hp, literalRun_error_iff]

end Productions

end Parser

end GapRegex
