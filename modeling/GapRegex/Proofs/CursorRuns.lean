import Mathlib.Algebra.Ring.Nat
import GapRegex.Proofs.Reports

/-!
# CursorRuns — what a run of operations leaves behind

A cursor is asked one thing after another, and a failure does not end the run: what was consumed
before it stays consumed.  `Moves` says what each operation answers and where it leaves the cursor,
for a whole text and a position in it, with one rule for each outcome.
* `perform_of_moves`, `exists_moves`: each rule is obeyed, and some rule applies everywhere;
* `perform_iff_moves`: so the rules are all that there is;
* `within_after`: no run leaves the text;
* `run_iff_moves`: wherever a run leads to, the rules hold there.
-/

namespace GapRegex

open GapRegex.Scan GapRegex.Parser

namespace Cursor

/-! ### Operations -/

/-- What can be asked of a cursor. -/
inductive Operation where
  | peek
  | more
  | tell
  | isAt (ch : Char)
  | consume (ch : Char)
  | expect (ch : Char)
  | next
  | nextLiteral
  | nextNumber

/-- What comes back where nothing is wrong. -/
inductive Answer where
  | done
  | flag (b : Bool)
  | place (pos : Nat)
  | lookahead (ch : Option Char)
  | char (ch : Char)
  | literal (x : Literal)
  | number (n : Nat)

/-- An answer, or what is wrong. -/
abbrev Reply := Except ParseError Answer

/-- What comes back from a reading step, and the place after it, also where the step fails. -/
def settle {α : Type} (f : α → Answer) : EStateM.Result ParseError Cursor α → Reply × Cursor
  | .ok a d => (.ok (f a), d)
  | .error err d => (.error err, d)

/-- What an operation answers, and where it leaves the cursor. -/
def perform (g : Dialect) (c : Cursor) : Operation → Reply × Cursor
  | .peek => (.ok (.lookahead c.peek), c)
  | .more => (.ok (.flag c.more), c)
  | .tell => (.ok (.place c.pos), c)
  | .isAt ch => (.ok (.flag (c.isAt ch)), c)
  | .consume ch => settle .flag (Scan.consume ch c)
  | .expect ch => settle (fun _ => .done) (Scan.expect ch c)
  | .next => settle .char (Scan.next c)
  | .nextLiteral => settle .literal (Scan.nextLiteral g c)
  | .nextNumber => settle .number (Scan.nextNumber c)

/-- The place after some operations, of which any may fail. -/
def after (g : Dialect) (c : Cursor) (ops : List Operation) : Cursor :=
  ops.foldl (fun d op => (perform g d op).2) c

/-! ### Rules -/

/-- All the digits that stand at a position. -/
def digitsAt (text : List Char) (p : Nat) : List Char := (text.drop p).takeWhile Char.isDigit

/-- The number that digits denote. -/
def value (ds : List Char) : Nat := Nat.ofDigitChars 10 ds 0

theorem value_le_append (ds es : List Char) : value ds ≤ value (ds ++ es) := by
  rw [value, value, Nat.ofDigitChars_append]
  exact le_ofDigitChars es _

/-- What an operation answers at a position of the text, and the position after it. -/
inductive Moves (g : Dialect) (text : List Char) : Operation → Nat → Reply → Nat → Prop
  | peek (p : Nat) : Moves g text .peek p (.ok (.lookahead text[p]?)) p
  | more (p : Nat) : Moves g text .more p (.ok (.flag (decide (p < text.length)))) p
  | tell (p : Nat) : Moves g text .tell p (.ok (.place p)) p
  | isAt (ch : Char) (p : Nat) :
      Moves g text (.isAt ch) p (.ok (.flag (decide (text[p]? = some ch)))) p
  | consumed {ch : Char} {p : Nat} (h : text[p]? = some ch) :
      Moves g text (.consume ch) p (.ok (.flag true)) (p + 1)
  | notConsumed {ch : Char} {p : Nat} (h : text[p]? ≠ some ch) :
      Moves g text (.consume ch) p (.ok (.flag false)) p
  | expected {ch : Char} {p : Nat} (h : text[p]? = some ch) :
      Moves g text (.expect ch) p (.ok .done) (p + 1)
  | notExpected {ch : Char} {p : Nat} (h : text[p]? ≠ some ch) :
      Moves g text (.expect ch) p (.error (.expectedChar p ch text[p]?)) p
  | next {ch : Char} {p : Nat} (h : text[p]? = some ch) :
      Moves g text .next p (.ok (.char ch)) (p + 1)
  | noNext {p : Nat} (h : text[p]? = none) :
      Moves g text .next p (.error (.unexpectedEnd p)) p
  | bare {ch : Char} {p : Nat} (h : text[p]? = some ch) (hne : ch ≠ g.escape) :
      Moves g text .nextLiteral p (.ok (.literal ⟨ch, false⟩)) (p + 1)
  | escaped {ch : Char} {p : Nat} (h : text[p]? = some g.escape) (hch : text[p + 1]? = some ch) :
      Moves g text .nextLiteral p (.ok (.literal ⟨ch, true⟩)) (p + 2)
  | noLiteral :
      Moves g text .nextLiteral text.length (.error (.unexpectedEnd text.length)) text.length
  /-- The escape that ends the text is consumed all the same. -/
  | loneEscape {p : Nat} (h : text[p]? = some g.escape) (hend : p + 1 = text.length) :
      Moves g text .nextLiteral p (.error (.unexpectedEnd text.length)) text.length
  | number {p : Nat} (hne : digitsAt text p ≠ []) (hlt : value (digitsAt text p) < boundLimit) :
      Moves g text .nextNumber p (.ok (.number (value (digitsAt text p))))
        (p + (digitsAt text p).length)
  | noDigit {p : Nat} (h : digitsAt text p = []) :
      Moves g text .nextNumber p (.error (.expectedChar p '0' text[p]?)) p
  /-- The digits before the one that passes the limit are consumed. -/
  | tooLarge {front back : List Char} {x : Char} {p : Nat}
      (hds : digitsAt text p = front ++ x :: back) (hlt : value front < boundLimit)
      (hle : boundLimit ≤ value (front ++ [x])) :
      Moves g text .nextNumber p (.error (.boundTooLarge p)) (p + front.length)

/-! ### Steps that fail -/

section Steps

variable {c : Cursor} {ch : Char}

theorem expect_of_peek_ne (h : c.peek ≠ some ch) :
    Scan.expect ch c = .error (.expectedChar c.pos ch c.peek) c :=
  if_neg (by simpa [isAt] using h)

theorem next_of_peek_eq_none (h : c.peek = none) :
    Scan.next c = .error (.unexpectedEnd c.pos) c := by
  unfold Scan.next
  rw [h]

theorem isAt_eq : c.isAt ch = decide (c.peek = some ch) := by
  rw [Bool.eq_iff_iff]
  simp [isAt]

theorem more_eq {text : List Char} (h : Within text c) :
    c.more = decide (c.pos < text.length) := by
  have hlen := h.length_eq
  cases hr : c.rest with
  | nil => simp_all [more]
  | cons ch rest => simp_all [more]

end Steps

/-! ### Each rule is obeyed -/

section Rules

variable {g : Dialect} {text : List Char} {c : Cursor} {op : Operation} {reply : Reply} {p q : Nat}

theorem perform_of_moves (hc : Within text c) (hp : c.pos = p) (h : Moves g text op p reply q) :
    ∃ u d, perform g c op = (reply, d) ∧ Takes c u d ∧ d.pos = q := by
  have hpeek : text[p]? = c.peek := hp ▸ hc.getElem?_eq
  have hdigits : digitsAt text p = c.rest.takeWhile Char.isDigit := by
    rw [digitsAt, ← hp, hc.drop_eq]
  cases h with
  | peek => exact ⟨[], c, by rw [hpeek]; rfl, Takes.refl c, hp⟩
  | more =>
    refine ⟨[], c, ?_, Takes.refl c, hp⟩
    rw [perform, more_eq hc, hp]
  | tell => exact ⟨[], c, by rw [← hp]; rfl, Takes.refl c, hp⟩
  | isAt ch =>
    refine ⟨[], c, ?_, Takes.refl c, hp⟩
    rw [perform, isAt_eq, hpeek]
  | consumed h =>
    have hch := hpeek ▸ h
    exact ⟨_, _, congrArg (settle .flag) (consume_of_peek hch), Takes.advance hch, hp ▸ rfl⟩
  | notConsumed h =>
    exact ⟨[], c, congrArg (settle .flag) (consume_of_peek_ne (hpeek ▸ h)), Takes.refl c, hp⟩
  | expected h =>
    have ht := Takes.advance (hpeek ▸ h)
    have hok : Scan.expect _ c = .ok () c.advance := expect_iff.mpr ht
    exact ⟨_, _, congrArg (settle fun _ => .done) hok, ht, hp ▸ rfl⟩
  | notExpected h =>
    refine ⟨[], c, ?_, Takes.refl c, hp⟩
    rw [perform, expect_of_peek_ne (hpeek ▸ h), hpeek, hp]
    rfl
  | next h =>
    have ht := Takes.advance (hpeek ▸ h)
    exact ⟨_, _, congrArg (settle .char) (next_iff.mpr ht), ht, hp ▸ rfl⟩
  | noNext h =>
    refine ⟨[], c, ?_, Takes.refl c, hp⟩
    rw [perform, next_of_peek_eq_none (hpeek ▸ h), hp]
    rfl
  | @bare ch _ h hne =>
    have hch : c.peek = some ch := hpeek ▸ h
    have hesc : c.peek ≠ some g.escape := by simpa [hch] using hne
    refine ⟨_, _, ?_, Takes.advance hch, hp ▸ rfl⟩
    rw [perform, nextLiteral_of_consume (consume_of_peek_ne hesc), hch]
    rfl
  | @escaped ch _ h hch =>
    have hesc : c.peek = some g.escape := hpeek ▸ h
    have ht := Takes.advance hesc
    have hnext : c.advance.peek = some ch := by
      rw [← (hc.step ht).getElem?_eq, ht.2, hp]
      exact hch
    refine ⟨_, _, ?_, ht.trans (Takes.advance hnext), hp ▸ rfl⟩
    rw [perform, nextLiteral_of_consume (consume_of_peek hesc), hnext]
    rfl
  | noLiteral =>
    have hend : c.peek = none := by rw [← hpeek, List.getElem?_eq_none (Nat.le_refl _)]
    have hesc : c.peek ≠ some g.escape := by simp [hend]
    refine ⟨[], c, ?_, Takes.refl c, hp⟩
    rw [perform, nextLiteral_of_consume (consume_of_peek_ne hesc), hend, ← hp]
    rfl
  | loneEscape h hend =>
    have hesc : c.peek = some g.escape := hpeek ▸ h
    have ht := Takes.advance hesc
    have hpos : c.advance.pos = text.length := by rw [ht.2, hp, ← hend, List.length_singleton]
    have hnext : c.advance.peek = none := by
      rw [← (hc.step ht).getElem?_eq, hpos, List.getElem?_eq_none (Nat.le_refl _)]
    refine ⟨_, _, ?_, ht, hpos⟩
    rw [perform, nextLiteral_of_consume (consume_of_peek hesc), hnext, ← hpos]
    rfl
  | number hne hlt =>
    have hok := nextNumber_of_lt hdigits.symm hne hlt
    have ht := takes_digits (hdigits.symm.trans (List.append_nil _).symm)
    exact ⟨_, _, congrArg (settle .number) hok, ht, hp ▸ rfl⟩
  | noDigit h =>
    refine ⟨[], c, ?_, Takes.refl c, hp⟩
    rw [perform, nextNumber_of_no_digit (hdigits ▸ h), hpeek, hp]
    rfl
  | tooLarge hds hlt hle =>
    have hds' := hdigits.symm.trans hds
    refine ⟨_, _, ?_, takes_digits hds', hp ▸ rfl⟩
    rw [perform, nextNumber_of_passing hds' hlt hle, hp]
    rfl

/-- Whatever stands at a position, there is a rule for it. -/
theorem exists_moves (op : Operation) (hle : p ≤ text.length) :
    ∃ reply q, Moves g text op p reply q := by
  cases op with
  | peek => exact ⟨_, _, .peek p⟩
  | more => exact ⟨_, _, .more p⟩
  | tell => exact ⟨_, _, .tell p⟩
  | isAt ch => exact ⟨_, _, .isAt ch p⟩
  | consume ch =>
    by_cases h : text[p]? = some ch
    · exact ⟨_, _, .consumed h⟩
    · exact ⟨_, _, .notConsumed h⟩
  | expect ch =>
    by_cases h : text[p]? = some ch
    · exact ⟨_, _, .expected h⟩
    · exact ⟨_, _, .notExpected h⟩
  | next =>
    cases h : text[p]? with
    | none => exact ⟨_, _, .noNext h⟩
    | some ch => exact ⟨_, _, .next h⟩
  | nextLiteral =>
    cases h : text[p]? with
    | none =>
      obtain rfl : p = text.length := Nat.le_antisymm hle (List.getElem?_eq_none_iff.mp h)
      exact ⟨_, _, .noLiteral⟩
    | some ch =>
      by_cases hesc : ch = g.escape
      · subst hesc
        cases hnext : text[p + 1]? with
        | none =>
          have hlt := (List.getElem?_eq_some_iff.mp h).1
          have hend := List.getElem?_eq_none_iff.mp hnext
          exact ⟨_, _, .loneEscape h (Nat.le_antisymm hlt hend)⟩
        | some ch => exact ⟨_, _, .escaped h hnext⟩
      · exact ⟨_, _, .bare h hesc⟩
  | nextNumber =>
    by_cases hne : digitsAt text p = []
    · exact ⟨_, _, .noDigit hne⟩
    · by_cases hlt : value (digitsAt text p) < boundLimit
      · exact ⟨_, _, .number hne hlt⟩
      · obtain ⟨front, x, back, hds, hfront, hle⟩ :=
          exists_passing (by decide) (Nat.le_of_not_lt hlt)
        exact ⟨_, _, .tooLarge hds hfront hle⟩

/-- At a place of the text, the rules and the operations say the same. -/
theorem perform_iff_moves (hc : Within text c) :
    (perform g c op).1 = reply ∧ (perform g c op).2.pos = q ↔ Moves g text op c.pos reply q := by
  constructor
  · rintro ⟨rfl, rfl⟩
    obtain ⟨reply, q, h⟩ := exists_moves (g := g) op hc.pos_le
    obtain ⟨u, d, hd, -, rfl⟩ := perform_of_moves hc rfl h
    rw [hd]
    exact h
  · intro h
    obtain ⟨u, d, hd, -, hq⟩ := perform_of_moves hc rfl h
    rw [hd]
    exact ⟨rfl, hq⟩

/-- A number is too large exactly if all the digits together denote one that is. -/
theorem nextNumber_tooLarge_iff (hc : Within text c) :
    (perform g c .nextNumber).1 = .error (.boundTooLarge c.pos) ↔
      boundLimit ≤ value (digitsAt text c.pos) := by
  constructor
  · intro h
    have hmoves := (perform_iff_moves hc).mp ⟨h, rfl⟩
    generalize (perform g c .nextNumber).2.pos = q at hmoves
    cases hmoves with
    | tooLarge hds hlt hle =>
      rw [hds, List.append_cons]
      exact Nat.le_trans hle (value_le_append _ _)
  · intro h
    obtain ⟨front, x, back, hds, hlt, hle⟩ := exists_passing (by decide) h
    exact ((perform_iff_moves hc).mpr (.tooLarge hds hlt hle)).1

end Rules

/-! ### Runs -/

section Runs

variable {g : Dialect} {text : List Char} {c : Cursor}

/-- An operation takes a text, which is empty where nothing is consumed. -/
theorem exists_takes_perform (g : Dialect) (hc : Within text c) (op : Operation) :
    ∃ u, Takes c u (perform g c op).2 := by
  obtain ⟨reply, q, h⟩ := exists_moves (g := g) op hc.pos_le
  obtain ⟨u, d, hd, ht, -⟩ := perform_of_moves hc rfl h
  rw [hd]
  exact ⟨u, ht⟩

/-- By induction on the operations, with the place where they start general. -/
theorem exists_takes_after (hc : Within text c) (ops : List Operation) :
    ∃ u, Takes c u (after g c ops) := by
  induction ops generalizing c with
  | nil => exact ⟨[], Takes.refl c⟩
  | cons op ops ih =>
    obtain ⟨u, hu⟩ := exists_takes_perform g hc op
    exact exists_takes_trans ⟨u, hu⟩ (ih (hc.step hu))

theorem within_after (hc : Within text c) (ops : List Operation) : Within text (after g c ops) := by
  obtain ⟨u, hu⟩ := exists_takes_after hc ops
  exact hc.step hu

theorem pos_le_after (hc : Within text c) (ops : List Operation) :
    c.pos ≤ (after g c ops).pos := by
  obtain ⟨u, hu⟩ := exists_takes_after hc ops
  rw [hu.2]
  exact Nat.le_add_right _ _

/-- A run over a text leads to a place of the text, whatever failed on the way.  No operation goes
back from there.  Each operation answers what the rules say, and leaves the cursor where they say;
a number is refused exactly if all its digits denote one that is too large. -/
theorem run_iff_moves (g : Dialect) (text : List Char) (ops : List Operation) :
    ∃ c, after g (.start text) ops = c ∧ c.pos ≤ text.length ∧ c.peek = text[c.pos]? ∧
      (∀ later, c.pos ≤ (after g (.start text) (ops ++ later)).pos) ∧
      (∀ op reply p, (perform g c op).1 = reply ∧ (perform g c op).2.pos = p ↔
        Moves g text op c.pos reply p) ∧
      ((perform g c .nextNumber).1 = .error (.boundTooLarge c.pos) ↔
        2 ^ 64 ≤ value (digitsAt text c.pos)) := by
  have hc : Within text (after g (.start text) ops) := within_after (Within.start text) ops
  refine ⟨_, rfl, hc.pos_le, hc.getElem?_eq.symm, fun later => ?_,
    fun op reply p => perform_iff_moves hc, nextNumber_tooLarge_iff hc⟩
  rw [after, after, List.foldl_append]
  exact pos_le_after hc later

/-- A step that fails may have consumed something: an escape with nothing behind it, or digits in
front of the one that makes a number too large. -/
example : (after .standard (.start ['\\']) [.nextLiteral, .nextLiteral]).pos = 1 ∧
    (after .standard (.start "18446744073709551616,".toList) [.nextNumber]).pos = 19 := by
  decide +kernel

end Runs

end Cursor

end GapRegex
