import GapRegex.Parser.Basic

/-!
# Equations — the productions without their bounds

`plain` forgets that a reading does not go back and leaves the value and the place after it.  Each
production then satisfies the equation that its line of the syntax suggests, and nothing about it
has to be unfolded again.
-/

namespace GapRegex.Parser

open Scan

/-- The value of a reading, and the place after it. -/
def plain {α : Type} {c : Cursor} :
    Except ParseError (Reading α c) → Except ParseError (α × Cursor)
  | .ok r => .ok (r.value, r.next)
  | .error e => .error e

/-- The value of a step and the place after it, or the error alone. -/
def outcome {α : Type} : EStateM.Result ParseError Cursor α → Except ParseError (α × Cursor)
  | .ok a d => .ok (a, d)
  | .error e _ => .error e

@[simp] theorem plain_ok {α : Type} {c : Cursor} (r : Reading α c) :
    plain (.ok r) = .ok (r.value, r.next) := rfl

@[simp] theorem plain_error {α : Type} {c : Cursor} (e : ParseError) :
    plain (.error e : Except ParseError (Reading α c)) = .error e := rfl

theorem plain_read {α : Type} {s : Scan α} (hs : Forward s) (c : Cursor) :
    plain (read hs c) = outcome (s c) := by
  unfold read
  split <;> rename_i h <;> simp [outcome, h]

/-- A production leaves no more text than it found. -/
theorem unread_le_of_plain {α : Type} {c d : Cursor} {a : α}
    {x : Except ParseError (Reading α c)} (h : plain x = .ok (a, d)) : d.unread ≤ c.unread := by
  cases x with
  | error e => cases h
  | ok r =>
    cases h
    exact r.unread_le

/-! ### One equation for each production -/

theorem plain_regex (g : Dialect) (c : Cursor) :
    plain (regex g c) =
      match plain (term g c .blank) with
      | .error e => .error e
      | .ok (left, d) =>
        if d.peek = some '|' then
          if left.isBlank then .error (.emptyAlternative c.pos)
          else
            match plain (regex g d.advance) with
            | .error e => .error e
            | .ok (right, e) =>
              if right.isBlank then .error (.emptyAlternative d.advance.pos)
              else .ok (.union left right, e)
        else .ok (left, d) := by
  rw [regex]
  cases term g c .blank with
  | error e => rfl
  | ok r =>
    obtain ⟨left, d, hd⟩ := r
    simp only [plain_ok]
    by_cases hbar : d.peek = some '|'
    · rw [dif_pos hbar, if_pos hbar]
      by_cases hl : left.isBlank
      · rw [if_pos hl, if_pos hl, plain_error]
      · rw [if_neg hl, if_neg hl]
        cases regex g d.advance with
        | error e => rfl
        | ok r =>
          obtain ⟨right, e, he⟩ := r
          simp only [plain_ok]
          by_cases hr : right.isBlank
          · rw [if_pos hr, if_pos hr, plain_error]
          · rw [if_neg hr, if_neg hr, plain_ok]
    · rw [dif_neg hbar, if_neg hbar, plain_ok]

theorem plain_term (g : Dialect) (c : Cursor) (before : Pattern) :
    plain (term g c before) =
      match c.peek with
      | none => .ok (before, c)
      | some ch =>
        if ch = ')' ∨ ch = '|' then .ok (before, c)
        else
          match plain (item g c ch before) with
          | .error e => .error e
          | .ok (p, d) => plain (term g d p) := by
  rw [term]
  split
  · rename_i h
    simp [h]
  · rename_i ch h
    rw [h]
    by_cases hstop : ch = ')' ∨ ch = '|'
    · simp only [if_pos hstop, plain_ok]
    · simp only [if_neg hstop]
      cases item g c ch before with
      | error e => rfl
      | ok r =>
        obtain ⟨p, d, hd⟩ := r
        simp only [plain_ok]
        cases term g d p <;> rfl

theorem plain_item (g : Dialect) (c : Cursor) (ch : Char) (before : Pattern) :
    plain (item g c ch before) =
      if ch = g.sentinel then
        match plain (factor g c.advance) with
        | .error e => .error e
        | .ok (after, d) =>
          match before.gap? after with
          | none => .error (.blankGap c.pos)
          | some p => .ok (p, d)
      else if ch = '[' then
        match outcome (bracketed g c.advance) with
        | .error e => .error e
        | .ok ((members, repeated), d) =>
          match plain (factor g d) with
          | .error e => .error e
          | .ok (after, e) => .ok (.charClass before after members repeated, e)
      else
        match plain (factor g c) with
        | .error e => .error e
        | .ok (p, d) =>
          if d.unread < c.unread then .ok (before.append p, d)
          else .error (.unexpectedChar c.pos ch) := by
  rw [item]
  by_cases hs : ch = g.sentinel
  · rw [if_pos hs, if_pos hs]
    cases factor g c.advance with
    | error e => rfl
    | ok r =>
      obtain ⟨after, d, hd⟩ := r
      simp only [plain_ok]
      cases before.gap? after <;> rfl
  · rw [if_neg hs, if_neg hs]
    by_cases hb : ch = '['
    · rw [if_pos hb, if_pos hb, ← plain_read (forward_bracketed g)]
      cases read (forward_bracketed g) c.advance with
      | error e => rfl
      | ok r =>
        obtain ⟨⟨members, repeated⟩, d, hd⟩ := r
        simp only [plain_ok]
        cases factor g d <;> rfl
    · rw [if_neg hb, if_neg hb]
      cases factor g c with
      | error e => rfl
      | ok r =>
        obtain ⟨p, d, hd⟩ := r
        simp only [plain_ok]
        by_cases hlt : d.unread < c.unread
        · rw [dif_pos hlt, if_pos hlt, plain_ok]
        · rw [dif_neg hlt, if_neg hlt, plain_error]

theorem plain_factor (g : Dialect) (c : Cursor) :
    plain (factor g c) =
      match plain (base g c) with
      | .error e => .error e
      | .ok (p, d) =>
        match d.peek with
        | none => .ok (p, d)
        | some lit =>
          if startsRepetition lit then
            if p.isBlank then .error (.nothingToRepeat d.pos lit)
            else
              match outcome (repetitionMark lit d) with
              | .error e => .error e
              | .ok (times, e) => .ok (.repetition p times, e)
          else .ok (p, d) := by
  rw [factor]
  cases base g c with
  | error e => rfl
  | ok r =>
    obtain ⟨p, d, hd⟩ := r
    simp only [plain_ok]
    cases d.peek with
    | none => rfl
    | some lit =>
      simp only
      by_cases hm : startsRepetition lit
      · rw [if_pos hm, if_pos hm]
        by_cases hp : p.isBlank
        · rw [if_pos hp, if_pos hp, plain_error]
        · rw [if_neg hp, if_neg hp, ← plain_read (forward_repetitionMark lit)]
          cases read (forward_repetitionMark lit) d <;> rfl
      · rw [if_neg hm, if_neg hm, plain_ok]

theorem plain_base (g : Dialect) (c : Cursor) :
    plain (base g c) =
      if c.peek = some '(' then
        match plain (regex g c.advance) with
        | .error e => .error e
        | .ok (p, d) =>
          match outcome (expect ')' d) with
          | .error e => .error e
          | .ok (_, e) => .ok (p, e)
      else outcome (literalRun g c) := by
  rw [base]
  by_cases hp : c.peek = some '('
  · rw [dif_pos hp, if_pos hp]
    cases regex g c.advance with
    | error e => rfl
    | ok r =>
      obtain ⟨p, d, hd⟩ := r
      simp only [plain_ok]
      rw [← plain_read (forward_expect ')')]
      cases read (forward_expect ')') d <;> rfl
  · rw [dif_neg hp, if_neg hp, plain_read]

/-- A normal text has to be read as an alternation, and all of it. -/
theorem parseNormal_eq (g : Dialect) (text : List Char) :
    parseNormal g text =
      match plain (regex g (.start text)) with
      | .error e => .error e
      | .ok (p, d) =>
        match d.peek with
        | some lit => .error (.unexpectedChar d.pos lit)
        | none => if p.isBlank then .error .emptyExpression else .ok p := by
  rw [parseNormal]
  cases regex g (.start text) <;> rfl

end GapRegex.Parser
