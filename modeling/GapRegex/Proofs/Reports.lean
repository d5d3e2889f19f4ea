import Mathlib.Control.Monad.Basic
import GapRegex.Proofs.Fails

/-!
# Reports — what an error says about the text

An error is a statement about the normal text: something stands, or is missing, at its position.
`ParseError.Describes` spells this out for each cause, and `ParseError.Truthful` adds that the
position lies in the text or at its end.
* `Reads.balanced`: what is read as blank is a text of parentheses (`Balanced`);
* `Fails.truthful`: whatever a production reports within a text is true of the text;
* `truthful_of_parse_error`: so every error is, in every dialect.
-/

namespace GapRegex

/-- A text of parentheses, each with its partner. -/
inductive Balanced : List Char → Prop
  | nil : Balanced []
  | append {v w : List Char} (hv : Balanced v) (hw : Balanced w) : Balanced (v ++ w)
  | group {w : List Char} (hw : Balanced w) : Balanced ('(' :: w ++ [')'])

namespace ParseError

/-- What an error says about the normal text `n`. -/
def Describes (g : Dialect) (n : List Char) : ParseError → Prop
  | expectedChar pos expected actual =>
    n[pos]? = actual ∧ actual ≠ some expected ∧
      expected ∈ [')', ']', '0', ',', '}'] ∧
      (expected = ')' ∨ expected = ']' → actual = none) ∧
      (expected = '0' → ∀ c ∈ actual, c.isDigit = false)
  | unexpectedChar pos lit => n[pos]? = some lit
  | nothingToRepeat pos lit => n[pos]? = some lit ∧ lit ∈ ['*', '+', '{']
  | boundTooLarge pos =>
    (∃ k, pos = k + 1 ∧ (n[k]? = some '{' ∨ n[k]? = some ',')) ∧
      boundLimit ≤ Nat.ofDigitChars 10 ((n.drop pos).takeWhile Char.isDigit) 0
  | reversedBounds pos least greatest =>
    ∃ ds es rest, n.drop pos = boundsText ds es ++ rest ∧ IsNumber ds least ∧
      IsNumber es greatest ∧ greatest < least
  | blankGap pos => n[pos]? = some g.sentinel
  | emptyAlternative pos =>
    ∃ w rest, n.drop pos = w ++ rest ∧ Balanced w ∧
      (rest.head? = some '|' ∨
        (∃ k, pos = k + 1 ∧ n[k]? = some '|') ∧ Stops (· == ')') rest)
  | unexpectedEnd pos => pos = n.length ∧ n.getLast? = some g.escape
  | emptyExpression => Balanced n

/-- The position is in the text or at its end, and the text is there as described. -/
structure Truthful (g : Dialect) (n : List Char) (err : ParseError) : Prop where
  position_le : ∀ pos ∈ err.position?, pos ≤ n.length
  describes : err.Describes g n

end ParseError

namespace Parser

open Scan

/-! ### What is read as blank -/

/-- What a production leaves: a term ends before a parenthesis, a bar or the end, and an alternation
not before a bar. -/
def Part.Leaves : Part → List Char → Prop
  | regex, t => Stops (· == ')') t
  | term _, t => Stops endsTerm t
  | factor, _ | base, _ => True

theorem Reads.leaves {g : Dialect} {part : Part} {s t : List Char} {p : Pattern}
    (h : Reads g part s p t) : part.Leaves t := by
  induction h with
  | single _ ht ih =>
    intro c hc
    have hends : c = ')' ∨ c = '|' := by simpa [endsTerm] using ih c hc
    rcases hends with rfl | rfl
    · rfl
    · exact absurd hc ht
  | union _ _ _ _ _ ih => exact ih
  | stop hs => exact hs
  | gap _ _ _ _ _ _ ih => exact ih
  | charClass _ _ _ _ _ _ ih => exact ih
  | join _ _ _ _ _ _ _ ih => exact ih
  | bare _ _ _ => trivial
  | repeated _ _ _ _ => trivial
  | group _ _ => trivial
  | run _ _ _ => trivial

/-- A term is blank only if it was blank before and nothing but parentheses is added to it. -/
theorem Reads.balanced {g : Dialect} {part : Part} {s t : List Char} {p : Pattern}
    (h : Reads g part s p t) (hp : p = .blank) :
    part.before = .blank ∧ ∃ w, s = w ++ t ∧ Balanced w := by
  induction h with
  | single _ _ ih => exact ⟨rfl, (ih hp).2⟩
  | union => cases hp
  | stop _ => exact ⟨hp, [], rfl, .nil⟩
  | gap _ _ _ _ _ _ ih => cases (ih hp).1
  | charClass _ _ _ _ _ _ ih => cases (ih hp).1
  | join _ _ _ _ _ _ ih ih' =>
    obtain ⟨happend, w, rfl, hw⟩ := ih' hp
    obtain ⟨hb, hq⟩ := Pattern.append_eq_blank.mp happend
    obtain ⟨-, v, hv, hv'⟩ := ih hq
    exact ⟨hb, v ++ w, by rw [hv, List.append_assoc], hv'.append hw⟩
  | bare _ _ ih => exact ⟨rfl, (ih hp).2⟩
  | repeated => cases hp
  | group _ ih =>
    obtain ⟨-, w, rfl, hw⟩ := ih hp
    exact ⟨rfl, '(' :: w ++ [')'], by simp, hw.group⟩
  | @run xs t _ _ _ =>
    cases xs with
    | nil => exact ⟨rfl, [], rfl, .nil⟩
    | cons x xs => cases hp

/-! ### Places in the text -/

/-- The place `c` is one of the text `n`. -/
def Within (n : List Char) (c : Cursor) : Prop := ∃ u, Takes (.start n) u c

namespace Within

variable {n u : List Char} {c d : Cursor} {ch : Char}

theorem start (n : List Char) : Within n (.start n) := ⟨[], Takes.refl _⟩

theorem step (h : Within n c) (ht : Takes c u d) : Within n d := by
  obtain ⟨v, hv⟩ := h
  exact ⟨v ++ u, hv.trans ht⟩

theorem readAt {g : Dialect} {part : Part} {p : Pattern} (h : Within n c)
    (hr : ReadAt g part c p d) : Within n d := by
  obtain ⟨⟨u, hu⟩, -⟩ := hr
  exact h.step hu

theorem advance (h : Within n c) (hp : c.peek = some ch) : Within n c.advance :=
  h.step (Takes.advance hp)

theorem itemAt {g : Dialect} {before p : Pattern} (h : Within n c)
    (hi : ItemAt g c before p d) : Within n d := by
  cases hi with
  | gap hp _ _ ha => exact (h.advance hp).readAt ha
  | charClass hp _ hc ha =>
    obtain ⟨body, mark, ht, -⟩ := bracketed_iff.mp hc
    exact ((h.advance hp).step ht).readAt ha
  | join _ _ _ _ hq => exact h.readAt hq

theorem drop_eq (h : Within n c) : n.drop c.pos = c.rest := by
  obtain ⟨u, h₁, h₂⟩ := h
  have hn : n = u ++ c.rest := h₁
  have hpos : c.pos = u.length := h₂.trans (Nat.zero_add _)
  rw [hpos, hn, List.drop_left]

theorem getElem?_eq (h : Within n c) : n[c.pos]? = c.peek := by
  rw [peek_eq_head, ← h.drop_eq, List.head?_drop]

theorem length_eq (h : Within n c) : n.length = c.pos + c.rest.length := by
  obtain ⟨u, h₁, h₂⟩ := h
  have hn : n = u ++ c.rest := h₁
  have hpos : c.pos = u.length := h₂.trans (Nat.zero_add _)
  rw [hn, List.length_append, hpos]

theorem pos_le (h : Within n c) : c.pos ≤ n.length := by
  rw [h.length_eq]
  exact Nat.le_add_right _ _

/-- The character before the place after it. -/
theorem getElem?_of_takes (h : Within n c) (ht : Takes c [ch] d) :
    d.pos = c.pos + 1 ∧ n[c.pos]? = some ch :=
  ⟨ht.2, h.getElem?_eq.trans ht.peek⟩

end Within

/-! ### Reading steps -/

section Leaves

variable {g : Dialect} {n : List Char} {c d : Cursor} {err : ParseError}

theorem truthful_expectedChar {expected : Char} (h : Within n c) (hne : c.peek ≠ some expected)
    (hmem : expected ∈ [')', ']', '0', ',', '}'])
    (hclose : expected = ')' ∨ expected = ']' → c.peek = none)
    (hdigit : expected = '0' → ∀ ch ∈ c.peek, ch.isDigit = false) :
    (ParseError.expectedChar c.pos expected c.peek).Truthful g n := by
  refine ⟨?_, h.getElem?_eq, hne, hmem, hclose, hdigit⟩
  rintro pos ⟨⟩
  exact h.pos_le

theorem truthful_dangles {stop : Char → Bool} (h : Within n c) (hd : Dangles g stop c err) :
    err.Truthful g n := by
  obtain ⟨ht, -, -, hrest⟩ := hd
  rename_i d
  have hlen := (h.step ht).length_eq
  rw [hrest, List.length_singleton] at hlen
  refine ⟨?_, hlen.symm, ?_⟩
  · rintro pos ⟨⟩
    exact Nat.le_of_eq hlen.symm
  · obtain ⟨u, hu, -⟩ := h.step ht
    have hn : n = u ++ [g.escape] := hrest ▸ hu
    rw [hn, List.getLast?_append]
    rfl

theorem truthful_classFault (h : Within n c) (hc : ClassFault g c err) : err.Truthful g n := by
  cases hc with
  | dangles hd => exact truthful_dangles h hd
  | @unclosed body d ht _ hd =>
    have hp : d.peek = none := by rw [peek_eq_head, hd]; rfl
    rw [← hp]
    exact truthful_expectedChar (h.step ht) (by simp [hp]) (by simp) (fun _ => hp)
      (by simp)

/-- A number is asked for behind a brace or a comma. -/
theorem truthful_numberFault {ch : Char} (h : Within n c) (ht : Takes c [ch] d)
    (hch : ch = '{' ∨ ch = ',') (hd : NumberFault d err) : err.Truthful g n := by
  obtain ⟨hpos, hget⟩ := h.getElem?_of_takes ht
  have hwithin := h.step ht
  cases hd with
  | missing hnone =>
    have hdigit : ∀ x ∈ d.peek, x.isDigit = false := by
      intro x hx
      rw [rest_of_peek hx] at hnone
      refine Bool.eq_false_iff.mpr fun hx' => ?_
      simp [hx'] at hnone
    refine truthful_expectedChar hwithin ?_ (by simp) (by simp) fun _ => hdigit
    intro hp
    cases hdigit '0' hp
  | tooLarge hle =>
    refine ⟨?_, ⟨c.pos, hpos, ?_⟩, by rwa [hwithin.drop_eq]⟩
    · rintro pos ⟨⟩
      exact hwithin.pos_le
    · rw [hget]
      exact hch.imp (congrArg some) (congrArg some)

theorem truthful_markFault (h : Within n c) (hm : MarkFault c err) : err.Truthful g n := by
  cases hm with
  | least hopen hd => exact truthful_numberFault h hopen (Or.inl rfl) hd
  | comma hopen hm he =>
    obtain ⟨ds, hds, -⟩ := nextNumber_iff.mp hm
    exact truthful_expectedChar ((h.step hopen).step hds) he (by simp) (by simp) (by simp)
  | greatest hopen hm hcomma hd =>
    obtain ⟨ds, hds, -⟩ := nextNumber_iff.mp hm
    exact truthful_numberFault ((h.step hopen).step hds) hcomma (Or.inr rfl) hd
  | close hopen hm hcomma hn he =>
    obtain ⟨ds, hds, -⟩ := nextNumber_iff.mp hm
    obtain ⟨es, hes, -⟩ := nextNumber_iff.mp hn
    exact truthful_expectedChar ((((h.step hopen).step hds).step hcomma).step hes) he (by simp)
      (by simp) (by simp)
  | @reversed d e f e' f' m n' hopen hm hcomma hn hclose hgt =>
    obtain ⟨ds, hds, hm, -⟩ := nextNumber_iff.mp hm
    obtain ⟨es, hes, hn, -⟩ := nextNumber_iff.mp hn
    refine ⟨?_, ds, es, f'.rest, ?_, hm, hn, hgt⟩
    · rintro pos ⟨⟩
      exact h.pos_le
    · rw [h.drop_eq, hopen.1, hds.1, hcomma.1, hes.1, hclose.1, boundsText_append]
      rfl

end Leaves

/-! ### Productions -/

/-- What is read as blank starts with a text of parentheses. -/
theorem ReadAt.balanced {g : Dialect} {part : Part} {c d : Cursor}
    (h : ReadAt g part c .blank d) : ∃ w, c.rest = w ++ d.rest ∧ Balanced w :=
  (h.2.balanced rfl).2

theorem Fails.truthful {g : Dialect} {part : Part} {n : List Char} {c : Cursor} {err : ParseError}
    (h : Fails g part c err) (hc : Within n c) : err.Truthful g n := by
  -- the position is that of a place in the text
  have at_place : ∀ {err : ParseError} {d : Cursor}, Within n d → err.position? = some d.pos →
      err.Describes g n → err.Truthful g n := by
    intro err d hd hpos hdesc
    refine ⟨fun pos hp => ?_, hdesc⟩
    obtain rfl : pos = d.pos := Option.some.inj (hp.symm.trans hpos)
    exact hd.pos_le
  induction h with
  | left _ ih => exact ih hc
  | emptyLeft hp hbar =>
    obtain ⟨w, hw, hbal⟩ := hp.balanced
    exact at_place hc rfl ⟨w, _, hc.drop_eq.trans hw, hbal, Or.inl hbar⟩
  | right hp _ hbar _ ih => exact ih ((hc.readAt hp).advance hbar)
  | emptyRight hp _ hbar hq =>
    obtain ⟨w, hw, hbal⟩ := hq.balanced
    have hd := hc.readAt hp
    have hnext := hd.advance hbar
    exact at_place hnext rfl ⟨w, _, hnext.drop_eq.trans hw, hbal,
      Or.inr ⟨⟨_, hd.getElem?_of_takes (Takes.advance hbar)⟩, hq.2.leaves⟩⟩
  | gap hp _ _ ih => exact ih (hc.advance hp)
  | blankGap hp _ _ _ => exact at_place hc rfl (hc.getElem?_eq.trans hp)
  | charClass hp _ h => exact truthful_classFault (hc.advance hp) h
  | afterClass hp _ hclass _ ih =>
    obtain ⟨body, mark, ht, -⟩ := bracketed_iff.mp hclass
    exact ih ((hc.advance hp).step ht)
  | join _ _ _ _ _ ih => exact ih hc
  | unexpected hp _ _ _ _ => exact at_place hc rfl (hc.getElem?_eq.trans hp)
  | later hi _ ih => exact ih (hc.itemAt hi)
  | base _ ih => exact ih hc
  | nothing hp hlit hm =>
    have hd := hc.readAt hp
    refine at_place hd rfl ⟨hd.getElem?_eq.trans hlit, ?_⟩
    simpa [startsRepetition, or_assoc] using hm
  | mark hp _ hm => exact truthful_markFault (hc.readAt hp) hm
  | inner hp _ ih => exact ih (hc.advance hp)
  | @unclosed c d p hp hr hd =>
    have hend : d.peek = none := by
      cases hpeek : d.peek with
      | none => rfl
      | some ch =>
        obtain rfl : ch = ')' := by simpa using stops_iff_peek.mp hr.2.leaves ch hpeek
        exact absurd hpeek hd
    exact truthful_expectedChar ((hc.advance hp).readAt hr) hd (by simp) (fun _ => hend)
      (by simp)
  | run _ h => exact truthful_dangles hc h

/-- Every error of a raw text is true of its normal form.  A text without a normal form is empty. -/
theorem truthful_of_parse_error {g : Dialect} {raw : List Char} {err : ParseError}
    (h : Pattern.parseWith g raw = .error err) :
    NormalForm.normalize g raw = .error err ∧ err = .emptyExpression ∨
      ∃ n, NormalForm.normalize g raw = .ok n ∧ err.Truthful g n := by
  rcases parseWith_error_iff.mp h with h | ⟨n, hn, h⟩
  · exact Or.inl ⟨h, NormalForm.eq_emptyExpression_of_error h⟩
  · refine Or.inr ⟨n, hn, ?_⟩
    rcases parseNormal_error_iff.mp h with h | ⟨p, d, hr, ⟨lit, hlit, rfl⟩ | ⟨hd, rfl, rfl⟩⟩
    · exact h.truthful (Within.start n)
    · have hd := (Within.start n).readAt hr
      refine ⟨?_, hd.getElem?_eq.trans hlit⟩
      rintro pos ⟨⟩
      exact hd.pos_le
    · obtain ⟨w, hw, hbal⟩ := hr.balanced
      have hnil : d.rest = [] := by simpa [Cursor.peek] using hd
      rw [hnil, List.append_nil] at hw
      have hn : n = w := hw
      refine ⟨?_, hn ▸ hbal⟩
      rintro pos ⟨⟩

/-- The second alternative of a group is empty but for a pair of parentheses. -/
theorem truthful_of_parse_error_alternative :
    Pattern.parseWith .standard ['x', '(', 'a', '|', '(', ')', ')', '.', '*'] =
        .error (.emptyAlternative 4) ∧
      ∃ n, NormalForm.normalize .standard ['x', '(', 'a', '|', '(', ')', ')', '.', '*'] = .ok n ∧
        (ParseError.emptyAlternative 4).Truthful .standard n := by
  have h : Pattern.parseWith .standard ['x', '(', 'a', '|', '(', ')', ')', '.', '*'] =
      .error (.emptyAlternative 4) := by
    decide +kernel
  exact ⟨h, (truthful_of_parse_error h).resolve_left (fun h => nomatch h.2)⟩

end Parser

end GapRegex
