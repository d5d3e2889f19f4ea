import Mathlib.Control.Monad.Basic
import GapRegex.Proofs.Composition
import GapRegex.Proofs.Fails

/-!
# Finality — errors that more text cannot mend

The descent looks one character ahead and never goes back.  So an error that blames a character
was found without a look at the end of the text, and text that is put behind it changes nothing
(`Cursor.extend`).  What was read before the error was read in front of that character, and is read
there again, by `Reads.append`.
* `MarkFault.extend`: this holds of a counted repetition, where all the digits are seen that make
  a number too large;
* `Fails.extend`: and of every production;
* `parse_append_of_blames`: so such an error is reported for every longer normal text.
-/

namespace GapRegex

open NormalForm

/-- Whether an error blames a character of the text, not its end or a part that is empty. -/
def ParseError.blames : ParseError → Bool
  | unexpectedChar .. | nothingToRepeat .. | boundTooLarge .. | reversedBounds .. => true
  | expectedChar _ _ actual => actual.isSome
  | blankGap .. | emptyAlternative .. | unexpectedEnd .. | emptyExpression => false

/-- The same place when the text goes on with `u`. -/
def Cursor.extend (c : Cursor) (u : List Char) : Cursor := ⟨c.pos, c.rest ++ u⟩

open GapRegex.Parser

/-! ### Places in a longer text -/

section Places

variable {c d : Cursor} {u v : List Char} {ch : Char}

@[simp] theorem Cursor.rest_extend (c : Cursor) (u : List Char) :
    (c.extend u).rest = c.rest ++ u := rfl

theorem rest_ne_nil_of_peek (h : c.peek = some ch) : c.rest ≠ [] := by
  rw [rest_of_peek h]
  exact List.cons_ne_nil _ _

theorem rest_ne_nil_of_isSome (h : c.peek.isSome = true) : c.rest ≠ [] := by
  obtain ⟨ch, hp⟩ := Option.isSome_iff_exists.mp h
  exact rest_ne_nil_of_peek hp

theorem peek_extend (h : c.rest ≠ []) : (c.extend u).peek = c.peek := by
  obtain ⟨ch, s, hs⟩ := List.exists_cons_of_ne_nil h
  rw [peek_eq_head, peek_eq_head, Cursor.rest_extend, hs]
  rfl

theorem peek_extend_of_peek (h : c.peek = some ch) : (c.extend u).peek = some ch := by
  rw [peek_extend (rest_ne_nil_of_peek h), h]

theorem Takes.extend (h : Takes c v d) : Takes (c.extend u) v (d.extend u) := by
  refine ⟨?_, h.2⟩
  rw [Cursor.rest_extend, Cursor.rest_extend, h.1, List.append_assoc]

/-- Text is left in front of a place where text is left. -/
theorem Takes.rest_ne_nil (h : Takes c v d) (hd : d.rest ≠ []) : c.rest ≠ [] := by
  rw [h.1]
  exact List.append_ne_nil_of_right_ne_nil v hd

theorem advance_extend (h : c.peek = some ch) : (c.extend u).advance = c.advance.extend u := by
  have hadvance : Takes c [ch] c.advance := Takes.advance h
  exact (Takes.advance (peek_extend_of_peek h)).right_unique hadvance.extend

theorem Stops.extend {p : Char → Bool} {s : List Char} (hs : s ≠ []) (h : Stops p s) :
    Stops p (s ++ u) := by
  obtain ⟨ch, t, rfl⟩ := List.exists_cons_of_ne_nil hs
  exact h

end Places

/-! ### Numbers -/

namespace Scan

variable {c d : Cursor} {u : List Char} {err : ParseError}

theorem nextNumber_extend {n : Nat} (h : nextNumber c = .ok n d) (hd : d.rest ≠ []) :
    nextNumber (c.extend u) = .ok n (d.extend u) := by
  obtain ⟨ds, ht, hn, hlt, hs⟩ := nextNumber_iff.mp h
  exact nextNumber_iff.mpr ⟨ds, ht.extend, hn, hlt, hs.extend hd⟩

/-- More text can only add digits to a number. -/
theorem le_takeWhile_append (s u : List Char) :
    Nat.ofDigitChars 10 (s.takeWhile Char.isDigit) 0 ≤
      Nat.ofDigitChars 10 ((s ++ u).takeWhile Char.isDigit) 0 := by
  rw [List.takeWhile_append]
  split
  · next hall =>
    have hs : s.takeWhile Char.isDigit = s :=
      (List.takeWhile_prefix Char.isDigit).eq_of_length hall
    rw [hs, Nat.ofDigitChars_append]
    exact le_ofDigitChars _ _
  · exact Nat.le_refl _

theorem NumberFault.extend (h : NumberFault c err) (hb : err.blames = true) :
    c.rest ≠ [] ∧ NumberFault (c.extend u) err := by
  cases h with
  | missing h =>
    obtain ⟨ch, hp⟩ := Option.isSome_iff_exists.mp hb
    have hne := rest_ne_nil_of_peek hp
    have hdigit : (c.extend u).rest.takeWhile Char.isDigit = [] := by
      rw [rest_of_peek hp] at h
      rw [Cursor.rest_extend, rest_of_peek hp, List.cons_append]
      cases hch : ch.isDigit with
      | true => simp [hch] at h
      | false => simp [hch]
    have hfault := NumberFault.missing hdigit
    rw [peek_extend hne] at hfault
    exact ⟨hne, hfault⟩
  | tooLarge h =>
    refine ⟨fun hnil => ?_, .tooLarge (c := c.extend u) (Nat.le_trans h (le_takeWhile_append _ u))⟩
    rw [hnil] at h
    exact absurd h (by decide)

end Scan

namespace Parser

open Scan

variable {g : Dialect} {c d : Cursor} {u : List Char} {err : ParseError}

theorem MarkFault.extend (h : MarkFault c err) (hb : err.blames = true) :
    MarkFault (c.extend u) err := by
  cases h with
  | least hopen h => exact .least hopen.extend (h.extend hb).2
  | comma hopen hm he =>
    have hne := rest_ne_nil_of_isSome hb
    rw [← peek_extend (u := u) hne] at he ⊢
    exact .comma hopen.extend (nextNumber_extend hm hne) he
  | greatest hopen hm hcomma h =>
    obtain ⟨hne, h⟩ := h.extend (u := u) hb
    exact .greatest hopen.extend (nextNumber_extend hm (hcomma.rest_ne_nil hne)) hcomma.extend h
  | close hopen hm hcomma hn he =>
    have hne := rest_ne_nil_of_isSome hb
    have hcomma' := rest_ne_nil_of_peek hcomma.peek
    rw [← peek_extend (u := u) hne] at he ⊢
    exact .close hopen.extend (nextNumber_extend hm hcomma') hcomma.extend
      (nextNumber_extend hn hne) he
  | reversed hopen hm hcomma hn hclose hgt =>
    have hcomma' := rest_ne_nil_of_peek hcomma.peek
    have hclose' := rest_ne_nil_of_peek hclose.peek
    exact .reversed hopen.extend (nextNumber_extend hm hcomma') hcomma.extend
      (nextNumber_extend hn hclose') hclose.extend hgt

/-! ### What is read in front of more text -/

theorem ReadAt.rest_ne_nil {part : Part} {p : Pattern} (h : ReadAt g part c p d)
    (hd : d.rest ≠ []) : c.rest ≠ [] := by
  obtain ⟨⟨v, hv⟩, -⟩ := h
  exact hv.rest_ne_nil hd

theorem ReadAt.extend {part : Part} {p : Pattern} (h : ReadAt g part c p d) (hd : d.rest ≠ []) :
    ReadAt g part (c.extend u) p (d.extend u) := by
  obtain ⟨⟨v, hv⟩, hr⟩ := h
  exact ⟨⟨v, hv.extend⟩, hr.append fun h => absurd h hd⟩

theorem bracketed_extend {members : CharSet} {repeated : Bool}
    (h : bracketed g c = .ok (members, repeated) d) (hd : d.rest ≠ []) :
    bracketed g (c.extend u) = .ok (members, repeated) (d.extend u) := by
  obtain ⟨body, mark, ht, hx, hr, hm⟩ := bracketed_iff.mp h
  refine bracketed_iff.mpr ⟨body, mark, ht.extend, hx, hr, ?_⟩
  cases hm with
  | plus => exact .plus _
  | star => exact .star _
  | none hs => exact .none (hs.extend hd)

theorem ItemAt.rest_ne_nil {before p : Pattern} (h : ItemAt g c before p d) : c.rest ≠ [] := by
  obtain ⟨ch, hp, -⟩ := h.peek
  exact rest_ne_nil_of_peek hp

theorem ItemAt.extend {before p : Pattern} (h : ItemAt g c before p d) (hd : d.rest ≠ []) :
    ItemAt g (c.extend u) before p (d.extend u) := by
  cases h with
  | gap hp hs hb ha ha' =>
    have ha := ha.extend (u := u) hd
    rw [← advance_extend hp] at ha
    exact .gap (peek_extend_of_peek hp) hs hb ha ha'
  | charClass hp hg hc ha =>
    have hc := bracketed_extend (u := u) hc (ha.rest_ne_nil hd)
    rw [← advance_extend hp] at hc
    exact .charClass (peek_extend_of_peek hp) hg hc (ha.extend hd)
  | join hp hs hg hb hq hlt =>
    refine .join (peek_extend_of_peek hp) hs hg hb (hq.extend hd) ?_
    simp only [Cursor.unread, Cursor.rest_extend, List.length_append] at hlt ⊢
    omega

/-! ### Productions -/

/-- An error that blames a character is reported in front of more text too. -/
theorem Fails.extend {part : Part} (h : Fails g part c err) (hb : err.blames = true) :
    c.rest ≠ [] ∧ Fails g part (c.extend u) err := by
  induction h with
  | left _ ih => exact ⟨(ih hb).1, .left (ih hb).2⟩
  | emptyLeft => cases hb
  | right hp hp' hbar _ ih =>
    have hd := rest_ne_nil_of_peek hbar
    have h := (ih hb).2
    rw [← advance_extend hbar] at h
    exact ⟨hp.rest_ne_nil hd, .right (hp.extend hd) hp' (peek_extend_of_peek hbar) h⟩
  | emptyRight => cases hb
  | gap hp hs _ ih =>
    have h := (ih hb).2
    rw [← advance_extend hp] at h
    exact ⟨rest_ne_nil_of_peek hp, .gap (peek_extend_of_peek hp) hs h⟩
  | blankGap => cases hb
  | charClass hp hg h =>
    -- a class that is not closed is found at the end of the text only
    cases h with
    | dangles h => cases h; cases hb
    | unclosed => cases hb
  | afterClass hp hg hc _ ih =>
    have hc := bracketed_extend (u := u) hc (ih hb).1
    rw [← advance_extend hp] at hc
    exact ⟨rest_ne_nil_of_peek hp, .afterClass (peek_extend_of_peek hp) hg hc (ih hb).2⟩
  | join hp hs hg hb' _ ih =>
    exact ⟨(ih hb).1, .join (peek_extend_of_peek hp) hs hg hb' (ih hb).2⟩
  | unexpected hp hs hg hb' hq =>
    have hne := rest_ne_nil_of_peek hp
    exact ⟨hne, .unexpected (peek_extend_of_peek hp) hs hg hb' (hq.extend hne)⟩
  | later hi _ ih => exact ⟨hi.rest_ne_nil, .later (hi.extend (ih hb).1) (ih hb).2⟩
  | base _ ih => exact ⟨(ih hb).1, .base (ih hb).2⟩
  | nothing hp hlit hm =>
    have hd := rest_ne_nil_of_peek hlit
    have hfault := Fails.nothing (hp.extend (u := u) hd) (peek_extend_of_peek hlit) hm
    exact ⟨hp.rest_ne_nil hd, hfault⟩
  | mark hp hp' hm =>
    have hd := rest_ne_nil_of_peek hm.peek
    exact ⟨hp.rest_ne_nil hd, .mark (hp.extend hd) hp' (hm.extend hb)⟩
  | inner hp _ ih =>
    have h := (ih hb).2
    rw [← advance_extend hp] at h
    exact ⟨rest_ne_nil_of_peek hp, .inner (peek_extend_of_peek hp) h⟩
  | unclosed hp hr hd =>
    have hne := rest_ne_nil_of_isSome hb
    have hr := hr.extend (u := u) hne
    rw [← advance_extend hp] at hr
    rw [← peek_extend (u := u) hne] at hd ⊢
    exact ⟨rest_ne_nil_of_peek hp, .unclosed (peek_extend_of_peek hp) hr hd⟩
  | run hp h => cases h; cases hb

/-- Text behind a normal text does not mend an error that blames a character. -/
theorem parseNormal_append {s : List Char} (h : parseNormal g s = .error err)
    (hb : err.blames = true) : parseNormal g (s ++ u) = .error err := by
  have hstart : Cursor.start (s ++ u) = (Cursor.start s).extend u := rfl
  rw [parseNormal_error_iff, hstart]
  rcases parseNormal_error_iff.mp h with h | ⟨p, d, hr, ⟨lit, hlit, rfl⟩ | ⟨-, -, rfl⟩⟩
  · exact Or.inl (h.extend hb).2
  · have hd := rest_ne_nil_of_peek hlit
    exact Or.inr ⟨p, d.extend u, hr.extend hd, Or.inl ⟨lit, peek_extend_of_peek hlit, rfl⟩⟩
  · cases hb

end Parser

/-- The parser never goes back: an error that blames a character of a normal text is reported for
every normal text that the first one begins. -/
theorem parse_append_of_blames {s u : List Char} {err : ParseError}
    (hs : normalize .standard s = .ok s) (hsu : normalize .standard (s ++ u) = .ok (s ++ u))
    (h : Pattern.parse s = .error err) (hb : err.blames = true) :
    Pattern.parse (s ++ u) = .error err := by
  rw [Pattern.parse, Pattern.parseWith, hs] at h
  rw [Pattern.parse, Pattern.parseWith, hsu]
  exact parseNormal_append h hb

/-- A bound that is too large by one stays too large, whatever digits and marks follow. -/
theorem parse_append_of_blames_bound :
    normalize .standard ('a' :: '{' :: Nat.toDigits 10 boundLimit) =
        .ok ('a' :: '{' :: Nat.toDigits 10 boundLimit) ∧
      normalize .standard ('a' :: '{' :: Nat.toDigits 10 boundLimit ++ ['0', ',', '\\']) =
        .ok ('a' :: '{' :: Nat.toDigits 10 boundLimit ++ ['0', ',', '\\']) ∧
      Pattern.parse ('a' :: '{' :: Nat.toDigits 10 boundLimit) = .error (.boundTooLarge 2) ∧
      Pattern.parse ('a' :: '{' :: Nat.toDigits 10 boundLimit ++ ['0', ',', '\\']) =
        .error (.boundTooLarge 2) := by
  have hs : normalize .standard ('a' :: '{' :: Nat.toDigits 10 boundLimit) =
      .ok ('a' :: '{' :: Nat.toDigits 10 boundLimit) := by decide +kernel
  have hsu : normalize .standard ('a' :: '{' :: Nat.toDigits 10 boundLimit ++ ['0', ',', '\\']) =
      .ok ('a' :: '{' :: Nat.toDigits 10 boundLimit ++ ['0', ',', '\\']) := by decide +kernel
  have h : Pattern.parse ('a' :: '{' :: Nat.toDigits 10 boundLimit) =
      .error (.boundTooLarge 2) := by decide +kernel
  exact ⟨hs, hsu, h, parse_append_of_blames hs hsu h rfl⟩

end GapRegex
