import GapRegex.Cursor.Scan

/-!
# Runs of literals — one literal at a time

`literalsUntil` keeps the literals it has read, last one first, while it goes through the text.
The main statement is `literalsUntil_eq`: the result is as if `nextLiteral` were called again and
again.
-/

namespace GapRegex.Scan

/-! ### One equation for each case -/

section Cases

variable {g : Dialect} {stop : Char → Bool} {pos : Nat} {before : List Literal}

theorem literalsFrom_nil : literalsFrom g stop pos [] before = .ok before.reverse ⟨pos, []⟩ := by
  simp [literalsFrom]

theorem literalsFrom_stop {c : Char} {rest : List Char} (h : stop c = true) :
    literalsFrom g stop pos (c :: rest) before = .ok before.reverse ⟨pos, c :: rest⟩ := by
  unfold literalsFrom
  simp [h]

theorem literalsFrom_dangling (h : stop g.escape = false) :
    literalsFrom g stop pos [g.escape] before =
      .error (.unexpectedEnd (pos + 1)) ⟨pos + 1, []⟩ := by
  unfold literalsFrom
  simp [h]

theorem literalsFrom_escaped {x : Char} {rest : List Char} (h : stop g.escape = false) :
    literalsFrom g stop pos (g.escape :: x :: rest) before =
      literalsFrom g stop (pos + 2) rest (⟨x, true⟩ :: before) := by
  conv => lhs; unfold literalsFrom
  simp [h]

theorem literalsFrom_bare {c : Char} {rest : List Char} (h : stop c = false)
    (he : c ≠ g.escape) :
    literalsFrom g stop pos (c :: rest) before =
      literalsFrom g stop (pos + 1) rest (⟨c, false⟩ :: before) := by
  conv => lhs; unfold literalsFrom
  simp [h, he]

end Cases

/-! ### The whole run -/

/-- What was read first stands in front of what is read later. -/
theorem literalsFrom_append (g : Dialect) (stop : Char → Bool) (pos : Nat) (text : List Char)
    (before first : List Literal) :
    literalsFrom g stop pos text (before ++ first) =
      match literalsFrom g stop pos text before with
      | .ok xs d => .ok (first.reverse ++ xs) d
      | .error e d => .error e d := by
  fun_induction literalsFrom g stop pos text before with
  | case1 => simp [literalsFrom_nil]
  | case2 _ _ _ _ h => simp [literalsFrom_stop h]
  | case3 _ _ h => simp [literalsFrom_dangling (Bool.eq_false_iff.mpr h)]
  | case4 _ _ _ _ h ih =>
    rw [literalsFrom_escaped (Bool.eq_false_iff.mpr h), ← ih, List.cons_append]
  | case5 _ _ _ _ h he ih =>
    rw [literalsFrom_bare (Bool.eq_false_iff.mpr h) he, ← ih, List.cons_append]

/-- The literals are read one at a time. -/
theorem literalsUntil_eq (g : Dialect) (stop : Char → Bool) (c : Cursor) :
    literalsUntil g stop c =
      match c.peek with
      | none => .ok [] c
      | some ch =>
        if stop ch then .ok [] c
        else
          match nextLiteral g c with
          | .error e d => .error e d
          | .ok x d =>
            match literalsUntil g stop d with
            | .error e d => .error e d
            | .ok xs d => .ok (x :: xs) d := by
  obtain ⟨pos, text⟩ := c
  have key : ∀ pos text x, literalsFrom g stop pos text [x] =
      match literalsFrom g stop pos text [] with
      | .error e d => .error e d
      | .ok xs d => .ok (x :: xs) d := fun pos text x => by
    have := literalsFrom_append g stop pos text [] [x]
    cases h : literalsFrom g stop pos text [] <;> simp_all
  cases text with
  | nil => exact literalsFrom_nil
  | cons ch rest =>
    simp only [Cursor.peek, List.head?_cons]
    by_cases h : stop ch = true
    · rw [if_pos h]
      exact literalsFrom_stop h
    · rw [if_neg h]
      have h := Bool.eq_false_iff.mpr h
      by_cases he : ch = g.escape
      · subst he
        have hc : consume g.escape ⟨pos, g.escape :: rest⟩ = .ok true ⟨pos + 1, rest⟩ := by
          simp [consume, Cursor.isAt, Cursor.peek, Cursor.advance, Cursor.skip]
        cases rest with
        | nil =>
          simp only [literalsUntil, literalsFrom_dangling h, nextLiteral, Bind.bind,
            EStateM.bind, hc]
          rfl
        | cons x rest =>
          simp only [literalsUntil, literalsFrom_escaped h, nextLiteral, Bind.bind,
            EStateM.bind, hc]
          exact key _ _ _
      · have hc : consume g.escape ⟨pos, ch :: rest⟩ = .ok false ⟨pos, ch :: rest⟩ := by
          simp [consume, Cursor.isAt, Cursor.peek, he]
        simp only [literalsUntil, literalsFrom_bare h he, nextLiteral, Bind.bind, EStateM.bind, hc]
        exact key _ _ _

end GapRegex.Scan
