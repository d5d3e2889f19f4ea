import Mathlib.Algebra.Ring.Nat
import GapRegex.Proofs.Composition
import GapRegex.Proofs.Fails

/-!
# Bounds — what the digits of a counted repetition come to

Two runs of digits between braces stand after an expression.  However long they are, the two
numbers they denote decide what is read: digits are refused exactly if the number of the whole run
is not below the limit, wherever in the run it is passed, and the first bound is judged before the
second one is looked at.
* `nextNumber_of_isNumber`, `NumberFault.of_isNumber`: a run of digits, by the number it denotes;
* `MarkFault.of_least`, `MarkFault.of_greatest`, `MarkFault.of_reversed`: the faults of two bounds;
* `Component.parse_mark_error`: a fault of the mark is the error of the expression;
* `parse_counted`: the pattern or the error, by the two numbers.
-/

namespace GapRegex

open NormalForm

/-- The limit of bounds is that of 64 bits. -/
theorem boundLimit_eq : boundLimit = 2 ^ 64 := rfl

/-- Zeros in front of a number do not change it. -/
theorem IsNumber.zero_cons {ds : List Char} {n : Nat} (h : IsNumber ds n) :
    IsNumber ('0' :: ds) n := by
  obtain ⟨-, hds, rfl⟩ := h
  refine ⟨List.cons_ne_nil _ _, List.forall_mem_cons.mpr ⟨rfl, hds⟩, ?_⟩
  rw [Nat.ofDigitChars_cons]
  rfl

namespace Scan

section Numbers

variable {c d e : Cursor} {ds : List Char} {n : Nat} {ch : Char}

theorem stops_of_takes (hd : Takes d [ch] e) (hch : ch.isDigit = false) :
    Stops (fun c => !c.isDigit) d.rest := by
  rw [hd.1]
  exact stops_cons.mpr (by rw [hch]; rfl)

/-- Digits up to a character that is none are read where their number is below the limit. -/
theorem nextNumber_of_isNumber (ht : Takes c ds d) (hd : Takes d [ch] e)
    (hch : ch.isDigit = false) (hn : IsNumber ds n) (hlt : n < boundLimit) :
    nextNumber c = .ok n d :=
  nextNumber_iff.mpr ⟨ds, ht, hn, hlt, stops_of_takes hd hch⟩

/-- They are refused where it is not. -/
theorem NumberFault.of_isNumber (ht : Takes c ds d) (hd : Takes d [ch] e)
    (hch : ch.isDigit = false) (hn : IsNumber ds n) (hle : boundLimit ≤ n) :
    NumberFault c (.boundTooLarge c.pos) := by
  obtain ⟨-, hds, rfl⟩ := hn
  have hdigits : c.rest.takeWhile Char.isDigit = ds := by
    rw [ht.1]
    exact (takeWhile_digits hds (stops_of_takes hd hch)).1
  exact .tooLarge (hdigits.symm ▸ hle)

end Numbers

end Scan

namespace Parser

open Scan

/-! ### Faults of two bounds -/

section Faults

variable {c d : Cursor} {ds es : List Char} {m n : Nat}

theorem MarkFault.of_least (ht : Takes c (boundsText ds es) d) (hm : IsNumber ds m)
    (hle : boundLimit ≤ m) : MarkFault c (.boundTooLarge (c.pos + 1)) := by
  obtain ⟨c₁, c₂, c₃, c₄, hopen, hleast, hcomma, -, -⟩ := ht.bounds
  have hfault := NumberFault.of_isNumber hleast hcomma rfl hm hle
  rw [hopen.2] at hfault
  exact .least hopen hfault

theorem MarkFault.of_greatest (ht : Takes c (boundsText ds es) d) (hm : IsNumber ds m)
    (hn : IsNumber es n) (hlt : m < boundLimit) (hle : boundLimit ≤ n) :
    MarkFault c (.boundTooLarge (c.pos + ds.length + 2)) := by
  obtain ⟨c₁, c₂, c₃, c₄, hopen, hleast, hcomma, hgreatest, hclose⟩ := ht.bounds
  have hm' := nextNumber_of_isNumber hleast hcomma rfl hm hlt
  have hfault := NumberFault.of_isNumber hgreatest hclose rfl hn hle
  have hpos : c₃.pos = c.pos + ds.length + 2 := by
    rw [hcomma.2, hleast.2, hopen.2]
    simp only [List.length_singleton]
    omega
  rw [hpos] at hfault
  exact .greatest hopen hm' hcomma hfault

theorem MarkFault.of_reversed (ht : Takes c (boundsText ds es) d) (hm : IsNumber ds m)
    (hn : IsNumber es n) (hgt : n < m) (hlt : m < boundLimit) :
    MarkFault c (.reversedBounds c.pos m n) := by
  obtain ⟨c₁, c₂, c₃, c₄, hopen, hleast, hcomma, hgreatest, hclose⟩ := ht.bounds
  have hm' := nextNumber_of_isNumber hleast hcomma rfl hm hlt
  have hn' := nextNumber_of_isNumber hgreatest hclose rfl hn (Nat.lt_trans hgt hlt)
  exact .reversed hopen hm' hcomma hn' hclose hgt

end Faults

end Parser

open GapRegex.Parser

namespace Pattern

/-! ### Counted repetitions -/

section Counted

variable {e ds es : List Char} {t : Pattern} {m n : Nat}

/-- What is wrong with a mark is wrong with an expression in parentheses and that mark. -/
theorem Component.parse_mark_error (h : Component e t) {mark : List Char} {err : ParseError}
    (hplain : ∀ c ∈ mark, isPlain c = true) (hm : MarkFault ⟨e.length + 2, mark⟩ err) :
    parse (parenthesized e ++ mark) = .error err := by
  have hnormal : normalize .standard (parenthesized e ++ mark) = .ok (parenthesized e ++ mark) :=
    (h.renders.append (.plains hplain)).normalize_eq (by simp [parenthesized])
  have hbase : ReadAt .standard .base (.start (parenthesized e ++ mark)) t
      ⟨e.length + 2, mark⟩ :=
    ⟨⟨parenthesized e, rfl, by simp [parenthesized, Cursor.start]⟩, h.base⟩
  have hterm : Fails .standard (.term .blank) (.start (parenthesized e ++ mark)) err :=
    .join rfl rfl (by decide) (by decide) (.mark hbase h.ne_blank hm)
  exact parseWith_error_iff.mpr
    (Or.inr ⟨_, hnormal, parseNormal_error_iff.mpr (Or.inl (.left hterm))⟩)

/-- Two bounds after an expression in parentheses are read exactly below `2 ^ 64`.  Beyond that
the first one that is too large is reported, and otherwise bounds that are reversed.  What is
written for two numbers is read back. -/
theorem parse_counted (hnormal : normalize .standard e = .ok e) (he : parse e = .ok t)
    (hm : IsNumber ds m) (hn : IsNumber es n) :
    (m ≤ n → n < 2 ^ 64 →
      parse (parenthesized e ++ boundsText ds es) = .ok (repetition t (.between m n))) ∧
    (n < m → m < 2 ^ 64 →
      parse (parenthesized e ++ boundsText ds es) = .error (.reversedBounds (e.length + 2) m n)) ∧
    (2 ^ 64 ≤ m →
      parse (parenthesized e ++ boundsText ds es) = .error (.boundTooLarge (e.length + 3))) ∧
    (m < 2 ^ 64 → 2 ^ 64 ≤ n →
      parse (parenthesized e ++ boundsText ds es) =
        .error (.boundTooLarge (e.length + ds.length + 4))) ∧
    ∀ k l, k ≤ l → l < 2 ^ 64 →
      parse (parenthesized e ++ (Repetition.between k l).text) =
        .ok (repetition t (.between k l)) := by
  have h := component hnormal he
  have hplain : ∀ c ∈ boundsText ds es, isPlain c = true := isPlain_of_mem_bounds hm hn
  have ht : Takes ⟨e.length + 2, boundsText ds es⟩ (boundsText ds es)
      ⟨e.length + 2 + (boundsText ds es).length, []⟩ := ⟨(List.append_nil _).symm, rfl⟩
  simp only [← boundLimit_eq]
  refine ⟨fun hle hlt => ?_, fun hgt hlt => ?_, fun hle => ?_, fun hlt hle => ?_,
    fun k l hle hlt => ?_⟩
  · exact parse_repeated h (.between hm hn hle hlt)
  · exact h.parse_mark_error hplain (.of_reversed ht hm hn hgt hlt)
  · exact h.parse_mark_error hplain (.of_least ht hm hle)
  · have hfault := MarkFault.of_greatest ht hm hn hlt hle
    have hpos : e.length + 2 + ds.length + 2 = e.length + ds.length + 4 := by omega
    rw [hpos] at hfault
    exact h.parse_mark_error hplain hfault
  · exact parse_repeated h (.between (isNumber_toDigits k) (isNumber_toDigits l) hle hlt)

/-- After alternatives, the largest bound with zeros in front of it, and then the limit. -/
theorem parse_counted_limit :
    normalize .standard ['a', '|', 'b'] = .ok ['a', '|', 'b'] ∧
      parse ['a', '|', 'b'] = .ok (union (literal ['a']) (literal ['b'])) ∧
      IsNumber ('0' :: '0' :: Nat.toDigits 10 (2 ^ 64 - 1)) (2 ^ 64 - 1) ∧
      IsNumber (Nat.toDigits 10 (2 ^ 64)) (2 ^ 64) ∧
      parse (parenthesized ['a', '|', 'b'] ++
          boundsText ('0' :: '0' :: Nat.toDigits 10 (2 ^ 64 - 1)) (Nat.toDigits 10 (2 ^ 64))) =
        .error (.boundTooLarge 29) := by
  have hnormal : normalize .standard ['a', '|', 'b'] = .ok ['a', '|', 'b'] := by decide +kernel
  have he : parse ['a', '|', 'b'] = .ok (union (literal ['a']) (literal ['b'])) := by
    decide +kernel
  have hm : IsNumber ('0' :: '0' :: Nat.toDigits 10 (2 ^ 64 - 1)) (2 ^ 64 - 1) :=
    (isNumber_toDigits _).zero_cons.zero_cons
  have hn : IsNumber (Nat.toDigits 10 (2 ^ 64)) (2 ^ 64) := isNumber_toDigits _
  obtain ⟨-, -, -, hgreatest, -⟩ := parse_counted hnormal he hm hn
  have hpos : ['a', '|', 'b'].length + ('0' :: '0' :: Nat.toDigits 10 (2 ^ 64 - 1)).length + 4 =
      29 := by decide +kernel
  rw [hpos] at hgreatest
  exact ⟨hnormal, he, hm, hn, hgreatest (by decide) (by decide)⟩

end Counted

end Pattern

end GapRegex
