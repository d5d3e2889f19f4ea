import GapRegex.Proofs.Scanning

/-!
# Productions — when a production succeeds

Each production is described once by what it needs to succeed: the productions below it, the texts
that its leaves take, and its tests on blank parts and on the next character.
* `regex_ok_iff`, `term_ok_iff`, `factor_ok_iff`, `base_ok_iff`: the productions;
* `item_gap_iff`, `item_class_iff`, `item_join_iff`: the three kinds of items.
-/

namespace GapRegex.Parser

open Scan

/-- The characters that a term ends before. -/
def endsTerm (c : Char) : Bool := c == ')' || c == '|'

theorem eq_of_endsTerm {c : Char} (h : endsTerm c = true) : c = ')' ∨ c = '|' := by
  simpa [endsTerm] using h

theorem not_endsTerm {c : Char} (h : c ∉ operators) : endsTerm c = false := by
  refine Bool.eq_false_iff.mpr fun hc => h ?_
  simp only [endsTerm, Bool.or_eq_true, beq_iff_eq] at hc
  rcases hc with rfl | rfl <;> decide

theorem operators_of_startsRepetition {c : Char} (h : startsRepetition c = true) :
    c ∈ operators := by
  simp only [startsRepetition, Bool.or_eq_true, beq_iff_eq] at h
  rcases h with (rfl | rfl) | rfl <;> decide

theorem not_startsRepetition {c : Char} (h : c ∉ operators) : startsRepetition c = false :=
  Bool.eq_false_iff.mpr fun h' => h (operators_of_startsRepetition h')

theorem outcome_ok_iff {α : Type} {r : EStateM.Result ParseError Cursor α} {a : α} {d : Cursor} :
    outcome r = .ok (a, d) ↔ r = .ok a d := by
  cases r with
  | ok b e => simp [outcome]
  | error err e => simp [outcome]

section Inversion

variable {g : Dialect} {c d : Cursor} {ch : Char} {before p : Pattern}

theorem regex_ok_iff : plain (regex g c) = .ok (p, d) ↔
    ∃ left e, plain (term g c .blank) = .ok (left, e) ∧
      (e.peek ≠ some '|' ∧ p = left ∧ d = e ∨
        e.peek = some '|' ∧ left ≠ .blank ∧
          ∃ right, plain (regex g e.advance) = .ok (right, d) ∧ right ≠ .blank ∧
            p = .union left right) := by
  rw [plain_regex]
  constructor
  · intro h
    split at h
    · cases h
    · next left e hleft =>
      refine ⟨left, e, hleft, ?_⟩
      split at h
      · next hbar =>
        split at h
        · cases h
        · next hl =>
          split at h
          · cases h
          · next right e' hright =>
            split at h
            · cases h
            · next hr =>
              cases h
              exact Or.inr ⟨hbar, by simpa using hl, right, hright, by simpa using hr, rfl⟩
      · next hbar =>
        cases h
        exact Or.inl ⟨hbar, rfl, rfl⟩
  · rintro ⟨left, e, hleft, ⟨hbar, rfl, rfl⟩ | ⟨hbar, hl, right, hright, hr, rfl⟩⟩
    · rw [hleft]
      exact if_neg hbar
    · rw [hleft]
      simp [hbar, hl, hright, hr]

theorem term_ok_iff : plain (term g c before) = .ok (p, d) ↔
    Stops endsTerm c.rest ∧ p = before ∧ d = c ∨
      ∃ ch q e, c.peek = some ch ∧ endsTerm ch = false ∧ plain (item g c ch before) = .ok (q, e) ∧
        plain (term g e q) = .ok (p, d) := by
  rw [plain_term, stops_iff_peek]
  constructor
  · intro h
    split at h
    · next hp =>
      cases h
      exact Or.inl ⟨by simp [hp], rfl, rfl⟩
    · next ch hp =>
      split at h
      · next hs =>
        cases h
        exact Or.inl ⟨by simpa [hp, endsTerm] using hs, rfl, rfl⟩
      · next hs =>
        split at h
        · cases h
        · next q e hitem => exact Or.inr ⟨ch, q, e, hp, by simpa [endsTerm] using hs, hitem, h⟩
  · rintro (⟨hs, rfl, rfl⟩ | ⟨ch, q, e, hp, hs, hitem, h⟩)
    · cases hp : d.peek with
      | none => rfl
      | some ch => exact if_pos (by simpa [endsTerm] using hs ch hp)
    · have hs : ¬ (ch = ')' ∨ ch = '|') := by simpa [endsTerm] using hs
      simp only [hp, if_neg hs, hitem, h]

theorem item_gap_iff : plain (item g c g.sentinel before) = .ok (p, d) ↔
    ∃ after, plain (factor g c.advance) = .ok (after, d) ∧ before ≠ .blank ∧ after ≠ .blank ∧
      p = .gap before after := by
  rw [plain_item, if_pos rfl]
  constructor
  · intro h
    split at h
    · cases h
    · next after e hafter =>
      split at h
      · cases h
      · next q hgap =>
        cases h
        obtain ⟨hb, ha, rfl⟩ := Pattern.gap?_eq_some.mp hgap
        exact ⟨after, hafter, hb, ha, rfl⟩
  · rintro ⟨after, hafter, hb, ha, rfl⟩
    rw [hafter]
    simp only [Pattern.gap?_eq_some.mpr ⟨hb, ha, rfl⟩]

theorem item_class_iff (hg : '[' ≠ g.sentinel) : plain (item g c '[' before) = .ok (p, d) ↔
    ∃ members repeated e after, bracketed g c.advance = .ok (members, repeated) e ∧
      plain (factor g e) = .ok (after, d) ∧ p = .charClass before after members repeated := by
  rw [plain_item, if_neg hg, if_pos rfl]
  constructor
  · intro h
    split at h
    · cases h
    · next members repeated e hclass =>
      split at h
      · cases h
      · next after e' hafter =>
        cases h
        exact ⟨members, repeated, e, after, outcome_ok_iff.mp hclass, hafter, rfl⟩
  · rintro ⟨members, repeated, e, after, hclass, hafter, rfl⟩
    rw [outcome_ok_iff.mpr hclass]
    simp only [hafter]

theorem item_join_iff (hg : ch ≠ g.sentinel) (hb : ch ≠ '[') :
    plain (item g c ch before) = .ok (p, d) ↔
      ∃ q, plain (factor g c) = .ok (q, d) ∧ d.unread < c.unread ∧ p = before.append q := by
  rw [plain_item, if_neg hg, if_neg hb]
  constructor
  · intro h
    split at h
    · cases h
    · next q e hfactor =>
      split at h
      · next hlt =>
        cases h
        exact ⟨q, hfactor, hlt, rfl⟩
      · cases h
  · rintro ⟨q, hfactor, hlt, rfl⟩
    rw [hfactor]
    exact if_pos hlt

theorem factor_ok_iff : plain (factor g c) = .ok (p, d) ↔
    ∃ q e, plain (base g c) = .ok (q, e) ∧
      (Stops (fun c => !startsRepetition c) e.rest ∧ p = q ∧ d = e ∨
        ∃ mark times, Takes e mark d ∧ Mark mark times ∧ q ≠ .blank ∧
          p = .repetition q times) := by
  rw [plain_factor]
  constructor
  · intro h
    split at h
    · cases h
    · next q e hbase =>
      refine ⟨q, e, hbase, ?_⟩
      split at h
      · next hp =>
        cases h
        exact Or.inl ⟨stops_iff_peek.mpr (by simp [hp]), rfl, rfl⟩
      · next lit hp =>
        split at h
        · split at h
          · cases h
          · next hq =>
            split at h
            · cases h
            · next times e' hmark =>
              cases h
              obtain ⟨mark, ht, hm⟩ := (repetitionMark_iff hp).mp (outcome_ok_iff.mp hmark)
              exact Or.inr ⟨mark, times, ht, hm, by simpa using hq, rfl⟩
        · next hm =>
          cases h
          exact Or.inl ⟨stops_iff_peek.mpr (by simpa [hp] using hm), rfl, rfl⟩
  · rintro ⟨q, e, hbase, ⟨hs, rfl, rfl⟩ | ⟨mark, times, ht, hm, hq, rfl⟩⟩
    · rw [hbase]
      cases hp : d.peek with
      | none => simp [hp]
      | some ch =>
        have hch : startsRepetition ch = false := by simpa using stops_iff_peek.mp hs ch hp
        simp [hp, hch]
    · rw [hbase]
      obtain ⟨ch, u, rfl, hch⟩ := hm.exists_cons
      have hmark := (repetitionMark_iff ht.peek).mpr ⟨_, ht, hm⟩
      simp [ht.peek, hch, hq, hmark, outcome]

theorem base_ok_iff : plain (base g c) = .ok (p, d) ↔
    c.peek = some '(' ∧ (∃ e, plain (regex g c.advance) = .ok (p, e) ∧ Takes e [')'] d) ∨
      c.peek ≠ some '(' ∧ literalRun g c = .ok p d := by
  rw [plain_base]
  by_cases hp : c.peek = some '('
  · rw [if_pos hp]
    constructor
    · intro h
      split at h
      · cases h
      · next q e hinner =>
        split at h
        · cases h
        · next e' hclose =>
          cases h
          exact Or.inl ⟨hp, e, hinner, expect_iff.mp (outcome_ok_iff.mp hclose)⟩
    · rintro (⟨-, e, hinner, ht⟩ | ⟨hp', -⟩)
      · have hclose : expect ')' e = .ok () d := expect_iff.mpr ht
        rw [hinner]
        simp only [hclose, outcome]
      · exact absurd hp hp'
  · simp [hp, outcome_ok_iff]

end Inversion

end GapRegex.Parser
