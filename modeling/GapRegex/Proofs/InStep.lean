import GapRegex.Proofs.Faults
import GapRegex.Proofs.NormalText

/-!
# InStep — reading one text with two sentinels

Two dialects that differ in the sentinel write the same pieces, each with its own mark for a gap.
`Twins` relates two places that have the same pieces before them, and `InStep` two steps of reading
from there: both succeed, at such places again, or both fail with the error that names the other
mark.  On the way the same classes are passed, if any.
* `InStep.bind`: steps that go in step can be put one after the other;
* `literalsUntil_inStep`, `nextNumber_inStep`: runs of literals, and numbers;
* `bracketed_inStep`, `repetitionMark_inStep`, `literalRun_inStep`: the leaves of the descent.
-/

namespace GapRegex

open NormalForm
open GapRegex.Parser Scan

/-- A sentinel without another role in the standard dialect. -/
structure IsMarker (s : Char) : Prop where
  not_operator : s ∉ operators
  not_special : s ∉ ['\\', '.', ',', '-']
  not_digit : s.isDigit = false

/-- The character with `s₂` in place of `s₁`. -/
def replace (s₁ s₂ c : Char) : Char := if c = s₁ then s₂ else c

@[simp] theorem replace_self (s₁ s₂ : Char) : replace s₁ s₂ s₁ = s₂ := if_pos rfl

theorem replace_of_ne {s₁ s₂ c : Char} (h : c ≠ s₁) : replace s₁ s₂ c = c := if_neg h

/-- The error with `s₂` in place of `s₁` where it tells which character was found. -/
def ParseError.rename (s₁ s₂ : Char) : ParseError → ParseError
  | expectedChar pos expected actual => expectedChar pos expected (actual.map (replace s₁ s₂))
  | unexpectedChar pos lit => unexpectedChar pos (replace s₁ s₂ lit)
  | nothingToRepeat pos lit => nothingToRepeat pos (replace s₁ s₂ lit)
  | err => err

/-- The standard dialect with another sentinel. -/
abbrev marked (s : Char) : Dialect := Dialect.standard.withSentinel s

/-- Two sentinels without another role, and a cut text that has neither of them bare. -/
structure Unmarked (s₁ s₂ : Char) (whole : List Piece) : Prop where
  left : IsMarker s₁
  right : IsMarker s₂
  plain : ∀ c, Piece.plain c ∈ whole → c ≠ '\\' ∧ c ≠ s₁ ∧ c ≠ s₂
  last : ∀ p ps, ¬ Piece.dangling :: p :: ps <:+: whole

/-- Two places in the text, each with its sentinel for the gaps, before the same pieces. -/
structure Twins (s₁ s₂ : Char) (whole ps : List Piece) (c₁ c₂ : Cursor) : Prop where
  left : c₁.rest = write (marked s₁) ps
  right : c₂.rest = write (marked s₂) ps
  pos : c₂.pos = c₁.pos
  within : ps <:+: whole

/-- Both steps succeed, at twin places, or both fail with the same error but for the sentinel. -/
inductive InStep (s₁ s₂ : Char) (whole : List Piece) {α : Type} (R : α → α → List Piece → Prop) :
    Except ParseError (α × Cursor) → Except ParseError (α × Cursor) → Prop
  | ok {a b : α} {qs : List Piece} {d₁ d₂ : Cursor} (hd : Twins s₁ s₂ whole qs d₁ d₂)
      (hr : R a b qs) : InStep s₁ s₂ whole R (.ok (a, d₁)) (.ok (b, d₂))
  | error (err : ParseError) : InStep s₁ s₂ whole R (.error err) (.error (err.rename s₁ s₂))

theorem IsMarker.ne_escape {s : Char} (h : IsMarker s) : '\\' ≠ s := by
  rintro rfl
  exact h.not_special (by decide)

theorem IsMarker.ne {s c : Char} (h : IsMarker s) (hc : c ∈ ',' :: operators) : c ≠ s := by
  rintro rfl
  rcases List.mem_cons.mp hc with rfl | hc
  · exact h.not_special (by decide)
  · exact h.not_operator hc

variable {s₁ s₂ : Char} {whole ps : List Piece} {c₁ c₂ : Cursor} {ch : Char}

/-! ### Places -/

/-- The first character of a piece in normal text. -/
def NormalForm.Piece.head (g : Dialect) : Piece → Char
  | pair _ | dangling => g.escape
  | gap => g.sentinel
  | plain c => c

theorem peek_of_rest {c : Cursor} {g : Dialect} {p : Piece} (h : c.rest = write g (p :: ps)) :
    c.peek = some (p.head g) := by
  rw [peek_eq_head, h]
  cases p <;> rfl

theorem length_write_marked (s₁ s₂ : Char) (ps : List Piece) :
    (write (marked s₂) ps).length = (write (marked s₁) ps).length := by
  induction ps with
  | nil => rfl
  | cons p ps ih =>
    rw [write_cons, write_cons, List.length_append, List.length_append, ih]
    cases p <;> rfl

namespace Twins

variable {bs qs : List Piece} {p : Piece}

theorem unread (h : Twins s₁ s₂ whole ps c₁ c₂) : c₂.unread = c₁.unread := by
  rw [Cursor.unread, Cursor.unread, h.left, h.right, length_write_marked]

theorem more (h : Twins s₁ s₂ whole ps c₁ c₂) : c₂.more = c₁.more := by
  rw [Cursor.more, Cursor.more, h.left, h.right]
  cases ps with
  | nil => rfl
  | cons p ps => cases p <;> rfl

/-- The places after the same pieces. -/
theorem skip (h : Twins s₁ s₂ whole (bs ++ qs) c₁ c₂) :
    Twins s₁ s₂ whole qs (c₁.skip (write (marked s₁) bs).length)
      (c₂.skip (write (marked s₁) bs).length) := by
  refine ⟨?_, ?_, ?_, (List.suffix_append bs qs).isInfix.trans h.within⟩
  · rw [Cursor.skip, h.left, write_append, List.drop_left]
  · rw [Cursor.skip, h.right, write_append, ← length_write_marked s₁ s₂, List.drop_left]
  · rw [Cursor.skip, Cursor.skip, h.pos]

theorem advance (h : Twins s₁ s₂ whole (p :: qs) c₁ c₂)
    (hp : (p.text (marked s₁)).length = 1) :
    Twins s₁ s₂ whole qs c₁.advance c₂.advance := by
  have hskip := @skip s₁ s₂ whole c₁ c₂ [p] qs h
  rwa [write_cons, write_nil, List.append_nil, hp] at hskip

theorem exists_head (h : Twins s₁ s₂ whole ps c₁ c₂) (hp : c₁.peek = some ch) :
    ∃ p qs, ps = p :: qs ∧ p.head (marked s₁) = ch := by
  cases ps with
  | nil =>
    rw [peek_eq_head, h.left] at hp
    cases hp
  | cons p ps => exact ⟨p, ps, rfl, Option.some.inj ((peek_of_rest h.left).symm.trans hp)⟩

/-- A character that is neither an escape nor a sentinel is a piece of its own. -/
theorem advance_plain (h : Twins s₁ s₂ whole ps c₁ c₂) (hp : c₁.peek = some ch)
    (hesc : ch ≠ '\\') (hmark : ch ≠ s₁) :
    ∃ qs, ps = .plain ch :: qs ∧ Twins s₁ s₂ whole qs c₁.advance c₂.advance := by
  obtain ⟨p, qs, rfl, rfl⟩ := h.exists_head hp
  cases p with
  | pair c => exact absurd rfl hesc
  | dangling => exact absurd rfl hesc
  | gap => exact absurd rfl hmark
  | plain c => exact ⟨qs, rfl, h.advance rfl⟩

end Twins

namespace Unmarked

variable (hw : Unmarked s₁ s₂ whole)

include hw

theorem head_eq {p : Piece} (hp : p ∈ whole) :
    p.head (marked s₂) = replace s₁ s₂ (p.head (marked s₁)) := by
  have hesc : '\\' ≠ s₁ := hw.left.ne_escape
  cases p with
  | pair c => exact (replace_of_ne hesc).symm
  | dangling => exact (replace_of_ne hesc).symm
  | gap => exact (replace_self s₁ s₂).symm
  | plain c => exact (replace_of_ne (hw.plain c hp).2.1).symm

/-- What comes next differs in the sentinel only. -/
theorem peek_eq (h : Twins s₁ s₂ whole ps c₁ c₂) : c₂.peek = c₁.peek.map (replace s₁ s₂) := by
  cases ps with
  | nil => rw [peek_eq_head, peek_eq_head, h.left, h.right]; rfl
  | cons p ps =>
    rw [peek_of_rest h.left, peek_of_rest h.right, hw.head_eq (h.within.subset (by simp))]
    rfl

theorem replace_eq_iff (hc : ch ∈ ',' :: operators) {d : Char} :
    replace s₁ s₂ d = ch ↔ d = ch := by
  have hne₁ : ch ≠ s₁ := hw.left.ne hc
  have hne₂ : ch ≠ s₂ := hw.right.ne hc
  by_cases hd : d = s₁
  · subst hd
    simp [hne₁.symm, hne₂.symm]
  · rw [replace_of_ne hd]

theorem startsRepetition_replace (c : Char) :
    startsRepetition (replace s₁ s₂ c) = startsRepetition c := by
  by_cases hc : c = s₁
  · subst hc
    rw [replace_self, not_startsRepetition hw.left.not_operator,
      not_startsRepetition hw.right.not_operator]
  · rw [replace_of_ne hc]

/-- The same character of the syntax comes next at both places. -/
theorem peek_iff (h : Twins s₁ s₂ whole ps c₁ c₂) (hc : ch ∈ ',' :: operators) :
    c₂.peek = some ch ↔ c₁.peek = some ch := by
  rw [hw.peek_eq h]
  simp [hw.replace_eq_iff hc]

/-- The second sentinel does not come next where the first one is in use. -/
theorem peek_ne (h : Twins s₁ s₂ whole ps c₁ c₂) (hp : c₁.peek = some ch) (hmark : ch ≠ s₁) :
    ch ≠ s₂ := by
  obtain ⟨p, qs, rfl, rfl⟩ := h.exists_head hp
  cases p with
  | pair c => exact hw.right.ne_escape
  | dangling => exact hw.right.ne_escape
  | gap => exact absurd rfl hmark
  | plain c => exact (hw.plain c (h.within.subset (by simp))).2.2

/-- Where the sentinel comes next, the piece is a gap. -/
theorem advance_gap (h : Twins s₁ s₂ whole ps c₁ c₂) (hp : c₁.peek = some s₁) :
    ∃ qs, ps = .gap :: qs ∧ Twins s₁ s₂ whole qs c₁.advance c₂.advance := by
  have hesc : '\\' ≠ s₁ := hw.left.ne_escape
  obtain ⟨p, qs, rfl, hhead⟩ := h.exists_head hp
  cases p with
  | pair c => exact absurd hhead hesc
  | dangling => exact absurd hhead hesc
  | gap => exact ⟨qs, rfl, h.advance rfl⟩
  | plain c => exact absurd hhead (hw.plain c (h.within.subset (by simp))).2.1

/-- The same operator comes next at both places, as a piece. -/
theorem advance_operator (h : Twins s₁ s₂ whole ps c₁ c₂) (hp : c₁.peek = some ch)
    (hc : ch ∈ ',' :: operators) :
    c₂.peek = some ch ∧
      ∃ qs, ps = .plain ch :: qs ∧ Twins s₁ s₂ whole qs c₁.advance c₂.advance := by
  refine ⟨(hw.peek_iff h hc).mpr hp, h.advance_plain hp ?_ (hw.left.ne hc)⟩
  rintro rfl
  exact absurd hc (by decide)

/-- An operator comes next at both places or at neither. -/
theorem isAt_cases (h : Twins s₁ s₂ whole ps c₁ c₂) (hc : ch ∈ ',' :: operators) :
    (c₁.isAt ch = true ∧ c₂.isAt ch = true ∧
      ∃ qs, ps = .plain ch :: qs ∧ Twins s₁ s₂ whole qs c₁.advance c₂.advance) ∨
    ¬ c₁.isAt ch = true ∧ ¬ c₂.isAt ch = true := by
  simp only [Cursor.isAt, beq_iff_eq, hw.peek_iff h hc]
  by_cases hp : c₁.peek = some ch
  · exact Or.inl ⟨hp, hp, (hw.advance_operator h hp hc).2⟩
  · exact Or.inr ⟨hp, hp⟩

end Unmarked

/-! ### Steps one after the other -/

section Steps

variable {α β : Type} {R R' : α → α → List Piece → Prop} {Q : β → β → List Piece → Prop}

theorem InStep.mono {x₁ x₂ : Except ParseError (α × Cursor)} (h : InStep s₁ s₂ whole R x₁ x₂)
    (hR : ∀ a b qs, R a b qs → R' a b qs) : InStep s₁ s₂ whole R' x₁ x₂ := by
  cases h with
  | ok hd hr => exact .ok hd (hR _ _ _ hr)
  | error err => exact .error err

theorem InStep.error_of_eq {err err' : ParseError} (h : err.rename s₁ s₂ = err') :
    InStep s₁ s₂ whole R (.error err) (.error err') :=
  h ▸ .error err

theorem InStep.outcomes {x₁ x₂ : Except ParseError (α × Cursor)}
    (h : InStep s₁ s₂ whole R x₁ x₂) :
    (∃ err, x₁ = .error err ∧ x₂ = .error (err.rename s₁ s₂)) ∨
      ∃ a b qs d₁ d₂, x₁ = .ok (a, d₁) ∧ x₂ = .ok (b, d₂) ∧ Twins s₁ s₂ whole qs d₁ d₂ ∧
        R a b qs := by
  cases h with
  | error err => exact Or.inl ⟨err, rfl, rfl⟩
  | ok hd hr => exact Or.inr ⟨_, _, _, _, _, rfl, rfl, hd, hr⟩

/-- Steps one after the other go in step if the later ones do from all places that are reached. -/
theorem InStep.bind {s s' : Scan α} {f f' : α → Scan β}
    (h : InStep s₁ s₂ whole R (outcome (s c₁)) (outcome (s' c₂)))
    (hf : ∀ {a b qs d₁ d₂}, Twins s₁ s₂ whole qs d₁ d₂ → R a b qs →
      InStep s₁ s₂ whole Q (outcome (f a d₁)) (outcome (f' b d₂))) :
    InStep s₁ s₂ whole Q (outcome ((s >>= f) c₁)) (outcome ((s' >>= f') c₂)) := by
  rw [outcome_bind, outcome_bind]
  obtain ⟨err, hx, hx'⟩ | ⟨a, b, qs, d₁, d₂, hx, hx', hd, hr⟩ := h.outcomes
  · rw [hx, hx']
    exact .error err
  · rw [hx, hx']
    exact hf hd hr

theorem InStep.pure {a b : α} (h : Twins s₁ s₂ whole ps c₁ c₂) (hr : R a b ps) :
    InStep s₁ s₂ whole R (outcome ((Pure.pure a : Scan α) c₁))
      (outcome ((Pure.pure b : Scan α) c₂)) :=
  .ok h hr

end Steps

/-! ### Literals one at a time -/

theorem outcome_nextLiteral {g : Dialect} {c d : Cursor} {escaped : Bool}
    (h : consume g.escape c = .ok escaped d) : outcome (nextLiteral g c) =
      match d.peek with
      | some ch => .ok (⟨ch, escaped⟩, d.advance)
      | none => .error (.unexpectedEnd d.pos) := by
  rw [nextLiteral_of_consume h]
  cases d.peek <;> rfl

/-- A piece of a text is read as one literal, unless it is an escape that is left alone. -/
theorem nextLiteral_of_rest {g : Dialect} {p : Piece} {c : Cursor}
    (hc : c.rest = write g (p :: ps)) (hg : g.sentinel ≠ g.escape)
    (hplain : ∀ ch, p = .plain ch → ch ≠ g.escape) (hlast : p = .dangling → ps = []) :
    outcome (nextLiteral g c) =
      match p.literal? g with
      | some x => .ok (x, c.skip (p.text g).length)
      | none => .error (.unexpectedEnd (c.pos + 1)) := by
  have hp := peek_of_rest hc
  have bare : ∀ {ch : Char}, c.peek = some ch → ch ≠ g.escape →
      outcome (nextLiteral g c) = .ok (⟨ch, false⟩, c.skip 1) := by
    intro ch h hch
    have hesc : c.peek ≠ some g.escape := by simpa [h] using hch
    rw [outcome_nextLiteral (consume_of_peek_ne hesc), h]
    rfl
  cases p with
  | pair ch =>
    have hd : c.advance.peek = some ch := by rw [peek_eq_head, Cursor.advance, Cursor.skip, hc]; rfl
    have hadvance : c.advance.advance = c.skip 2 := by simp [Cursor.advance, Cursor.skip]
    rw [outcome_nextLiteral (consume_of_peek hp), hd, hadvance]
    rfl
  | dangling =>
    obtain rfl := hlast rfl
    have hd : c.advance.peek = none := by rw [peek_eq_head, Cursor.advance, Cursor.skip, hc]; rfl
    rw [outcome_nextLiteral (consume_of_peek hp), hd]
    rfl
  | gap => exact bare hp hg
  | plain ch => exact bare hp (hplain ch rfl)

theorem literals_eq_of_no_gap {bs : List Piece} (h : Piece.gap ∉ bs) :
    literals (marked s₂) bs = literals (marked s₁) bs := by
  induction bs with
  | nil => rfl
  | cons p bs ih =>
    simp only [List.mem_cons, not_or] at h
    rw [literals, literals, List.filterMap_cons, List.filterMap_cons]
    cases p with
    | gap => exact absurd rfl h.1
    | dangling => exact ih h.2
    | _ => exact congrArg _ (ih h.2)

theorem isReserved_of_ne {s c : Char} (h : c ≠ s) :
    (marked s).isReserved c = operators.contains c := by
  have hs : (c == (marked s).sentinel) = false := beq_eq_false_iff_ne.mpr h
  rw [Dialect.isReserved, hs, Bool.false_or]

/-! ### Reading steps -/

/-- The same value comes back from both steps, and no class is passed. -/
def Same {α : Type} (ps : List Piece) (a b : α) (qs : List Piece) : Prop :=
  a = b ∧ Passes ps [] qs

section Leaves

variable (hw : Unmarked s₁ s₂ whole)

include hw

theorem consume_inStep (h : Twins s₁ s₂ whole ps c₁ c₂) (hc : ch ∈ ',' :: operators)
    (hopen : ch ≠ '[') :
    InStep s₁ s₂ whole (Same ps) (outcome (consume ch c₁)) (outcome (consume ch c₂)) := by
  unfold consume
  obtain ⟨hp, hp', qs, rfl, hd⟩ | ⟨hp, hp'⟩ := hw.isAt_cases h hc
  · rw [if_pos hp, if_pos hp']
    exact .ok hd ⟨rfl, .piece (by simpa using hopen)⟩
  · rw [if_neg hp, if_neg hp']
    exact .ok h ⟨rfl, .refl ps⟩

theorem expect_inStep (h : Twins s₁ s₂ whole ps c₁ c₂) (hc : ch ∈ ',' :: operators) :
    InStep s₁ s₂ whole (fun _ _ qs => ps = .plain ch :: qs) (outcome (expect ch c₁))
      (outcome (expect ch c₂)) := by
  unfold expect
  obtain ⟨hp, hp', qs, hps, hd⟩ | ⟨hp, hp'⟩ := hw.isAt_cases h hc
  · rw [if_pos hp, if_pos hp']
    exact .ok hd hps
  · rw [if_neg hp, if_neg hp', h.pos, hw.peek_eq h]
    exact .error (.expectedChar c₁.pos ch c₁.peek)

/-- The same digits are read, of the same pieces. -/
theorem readDigits_marked (hps : ps <:+: whole) (v : Nat) : ∃ bs qs, ps = bs ++ qs ∧
    Piece.plain '[' ∉ bs ∧
    (readDigits v (write (marked s₁) ps)).2 = (write (marked s₁) bs).length ∧
    readDigits v (write (marked s₂) ps) = readDigits v (write (marked s₁) ps) := by
  have stop : ∀ {v : Nat} {c : Char} {rest : List Char}, c.isDigit = false →
      readDigits v (c :: rest) = (some v, 0) := by
    intro v c rest hc
    simp [readDigits, hc]
  induction ps generalizing v with
  | nil => exact ⟨[], [], rfl, List.not_mem_nil, rfl, rfl⟩
  | cons p ps ih =>
    have hwrite : ∀ s c, write (marked s) (.plain c :: ps) = c :: write (marked s) ps :=
      fun _ _ => rfl
    cases p with
    | pair c => exact ⟨[], _, rfl, List.not_mem_nil, rfl, rfl⟩
    | dangling => exact ⟨[], _, rfl, List.not_mem_nil, rfl, rfl⟩
    | gap =>
      have hleft : readDigits v (s₁ :: write (marked s₁) ps) = (some v, 0) :=
        stop hw.left.not_digit
      have hright : readDigits v (s₂ :: write (marked s₂) ps) = (some v, 0) :=
        stop hw.right.not_digit
      exact ⟨[], _, rfl, List.not_mem_nil, congrArg Prod.snd hleft, hright.trans hleft.symm⟩
    | plain c =>
      simp only [hwrite]
      by_cases hc : c.isDigit = true
      · obtain ⟨n, hn⟩ : ∃ n, 10 * v + (c.toNat - '0'.toNat) = n := ⟨_, rfl⟩
        have digit : ∀ rest, readDigits v (c :: rest) = if n < boundLimit then
            ((readDigits n rest).1, (readDigits n rest).2 + 1) else (none, 0) := by
          intro rest
          rw [readDigits, if_pos hc, hn]
        rw [digit, digit]
        by_cases hlt : n < boundLimit
        · obtain ⟨bs, qs, rfl, hbs, hcount, heq⟩ :=
            ih ((List.suffix_cons _ _).isInfix.trans hps) n
          have hopen : '[' ≠ c := by
            rintro rfl
            exact absurd hc (by decide)
          refine ⟨.plain c :: bs, qs, rfl, by simp [hopen, hbs], ?_, by rw [heq]⟩
          rw [if_pos hlt]
          exact congrArg (· + 1) hcount
        · rw [if_neg hlt, if_neg hlt]
          exact ⟨[], _, rfl, List.not_mem_nil, rfl, rfl⟩
      · have hc := Bool.eq_false_iff.mpr hc
        rw [stop hc, stop hc]
        exact ⟨[], _, rfl, List.not_mem_nil, rfl, rfl⟩

theorem nextNumber_inStep (h : Twins s₁ s₂ whole ps c₁ c₂) :
    InStep s₁ s₂ whole (Same ps) (outcome (nextNumber c₁)) (outcome (nextNumber c₂)) := by
  obtain ⟨bs, qs, rfl, hbs, hcount, heq⟩ := readDigits_marked hw h.within 0
  have hskip := h.skip
  have hpeek := hw.peek_eq h
  unfold nextNumber
  rw [h.left, h.right, heq, h.pos, hpeek]
  rw [← hcount] at hskip
  generalize readDigits 0 (write (marked s₁) (bs ++ qs)) = r at hskip ⊢
  obtain ⟨value, count⟩ := r
  cases value with
  | none => exact .error (.boundTooLarge c₁.pos)
  | some value =>
    cases count with
    | zero => exact .error (.expectedChar c₁.pos '0' c₁.peek)
    | succ count => exact .ok hskip ⟨rfl, .run hbs⟩

/-! ### Runs of literals -/

/-- Both runs take the same pieces, which neither stops at. -/
def SameRun (s₁ s₂ : Char) (stop : Char → Bool) (ps : List Piece) (xs ys : List Literal)
    (qs : List Piece) : Prop :=
  ∃ bs, ps = bs ++ qs ∧ xs = literals (marked s₁) bs ∧ ys = literals (marked s₂) bs ∧
    ∀ p ∈ bs, stop (p.head (marked s₁)) = false

/-- A piece of the text is one literal, unless it is an escape that is left alone. -/
theorem nextLiteral_inStep {p : Piece} (h : Twins s₁ s₂ whole (p :: ps) c₁ c₂) :
    InStep s₁ s₂ whole
      (fun x y qs => qs = ps ∧ p.literal? (marked s₁) = some x ∧ p.literal? (marked s₂) = some y)
      (outcome (nextLiteral (marked s₁) c₁)) (outcome (nextLiteral (marked s₂) c₂)) := by
  have hplain : ∀ ch, p = .plain ch → ch ≠ '\\' := by
    rintro ch rfl
    exact (hw.plain ch (h.within.subset (by simp))).1
  have hlast : p = .dangling → ps = [] := by
    rintro rfl
    cases ps with
    | nil => rfl
    | cons q ps => exact absurd h.within (hw.last q ps)
  have hskip := @Twins.skip s₁ s₂ whole c₁ c₂ [p] ps h
  rw [write_cons, write_nil, List.append_nil] at hskip
  rw [nextLiteral_of_rest h.left hw.left.ne_escape.symm hplain hlast,
    nextLiteral_of_rest h.right hw.right.ne_escape.symm hplain hlast, h.pos]
  cases p with
  | dangling => exact .error (.unexpectedEnd (c₁.pos + 1))
  | pair c => exact .ok hskip ⟨rfl, rfl, rfl⟩
  | gap => exact .ok hskip ⟨rfl, rfl, rfl⟩
  | plain c => exact .ok hskip ⟨rfl, rfl, rfl⟩

theorem literalsUntil_inStep {stop₁ stop₂ : Char → Bool}
    (hstop : ∀ p ∈ whole, stop₂ (p.head (marked s₂)) = stop₁ (p.head (marked s₁)))
    (h : Twins s₁ s₂ whole ps c₁ c₂) :
    InStep s₁ s₂ whole (SameRun s₁ s₂ stop₁ ps) (outcome (literalsUntil (marked s₁) stop₁ c₁))
      (outcome (literalsUntil (marked s₂) stop₂ c₂)) := by
  induction ps generalizing c₁ c₂ with
  | nil =>
    have hp₁ : c₁.peek = none := by rw [peek_eq_head, h.left]; rfl
    have hp₂ : c₂.peek = none := by rw [peek_eq_head, h.right]; rfl
    rw [outcome_literalsUntil, outcome_literalsUntil, hp₁, hp₂]
    exact .ok h ⟨[], by simp⟩
  | cons p ps ih =>
    have hp := hstop p (h.within.subset (by simp))
    rw [outcome_literalsUntil, outcome_literalsUntil, peek_of_rest h.left, peek_of_rest h.right]
    simp only [hp]
    by_cases hs : stop₁ (p.head (marked s₁)) = true
    · rw [if_pos hs, if_pos hs]
      exact .ok h ⟨[], by simp⟩
    · rw [if_neg hs, if_neg hs]
      obtain ⟨err, hx, hx'⟩ | ⟨x, y, qs, d₁, d₂, hx, hx', hd, rfl, hlit, hlit'⟩ :=
        (nextLiteral_inStep hw h).outcomes
      · rw [hx, hx']
        exact .error err
      · simp only [hx, hx']
        obtain ⟨err, hxs, hxs'⟩ | ⟨xs, ys, rs, e₁, e₂, hxs, hxs', he, bs, rfl, rfl, rfl, hbs⟩ :=
          (ih hd).outcomes
        · rw [hxs, hxs']
          exact .error err
        · rw [hxs, hxs']
          refine .ok he ⟨p :: bs, rfl, ?_, ?_, ?_⟩
          · simp [literals, hlit]
          · simp [literals, hlit']
          · exact List.forall_mem_cons.mpr ⟨Bool.eq_false_iff.mpr hs, hbs⟩

/-! ### Leaves of the descent -/

/-- Both classes have the body that is passed, of which each reads the gaps as its sentinel. -/
def SameClass (s₁ s₂ : Char) (ps : List Piece) (r r' : CharSet × Bool) (qs : List Piece) : Prop :=
  ∃ body repeated, Passes (.plain '[' :: ps) [body] qs ∧
    r = (.ofClass (literals (marked s₁) body), repeated) ∧
    r' = (.ofClass (literals (marked s₂) body), repeated)

theorem classBody_inStep (h : Twins s₁ s₂ whole ps c₁ c₂) :
    InStep s₁ s₂ whole (SameRun s₁ s₂ (· == ']') ps) (outcome (classBody (marked s₁) c₁))
      (outcome (classBody (marked s₂) c₂)) := by
  have hstop : ∀ p ∈ whole, (p.head (marked s₂) == ']') = (p.head (marked s₁) == ']') := by
    intro p hp
    rw [Bool.eq_iff_iff, beq_iff_eq, beq_iff_eq, hw.head_eq hp]
    exact hw.replace_eq_iff (by decide)
  refine (literalsUntil_inStep hw hstop h).bind ?_
  intro xs ys qs d₁ d₂ hd hr
  rw [get_bind, get_bind, hd.more]
  by_cases hm : d₁.more = true
  · rw [if_pos hm, if_pos hm]
    exact .pure hd hr
  · rw [if_neg hm, if_neg hm, hd.pos]
    exact .error (.expectedChar d₁.pos ']' none)

theorem bracketed_inStep (h : Twins s₁ s₂ whole ps c₁ c₂) :
    InStep s₁ s₂ whole (SameClass s₁ s₂ ps) (outcome (bracketed (marked s₁) c₁))
      (outcome (bracketed (marked s₂) c₂)) := by
  refine (classBody_inStep hw h).bind ?_
  rintro xs ys qs d₁ d₂ hd ⟨body, rfl, rfl, rfl, hbody⟩
  have hbracket : Piece.plain ']' ∉ body := fun hmem => by cases hbody _ hmem
  refine (expect_inStep hw hd (by decide)).bind ?_
  rintro - - rs e₁ e₂ he rfl
  have hclass : Passes (.plain '[' :: (body ++ .plain ']' :: rs)) [body] rs := .charClass hbracket
  refine (consume_inStep hw he (by decide) (by decide)).bind ?_
  rintro plus _ qs f₁ f₂ hf ⟨rfl, hplus⟩
  cases plus with
  | true => exact .pure hf ⟨body, true, hclass.trans hplus, rfl, rfl⟩
  | false =>
    refine (consume_inStep hw hf (by decide) (by decide)).bind ?_
    rintro star _ qs k₁ k₂ hk ⟨rfl, hstar⟩
    exact .pure hk ⟨body, star, (hclass.trans hplus).trans hstar, rfl, rfl⟩

theorem counted_inStep (h : Twins s₁ s₂ whole ps c₁ c₂) :
    InStep s₁ s₂ whole (Same ps) (outcome (counted c₁)) (outcome (counted c₂)) := by
  unfold counted
  rw [get_bind, get_bind, h.pos]
  refine (expect_inStep hw h (by decide)).bind ?_
  rintro - - _ _ _ hopen rfl
  refine (nextNumber_inStep hw hopen).bind ?_
  rintro least _ _ _ _ hd ⟨rfl, hleast⟩
  refine (expect_inStep hw hd (by decide)).bind ?_
  rintro - - _ _ _ hcomma rfl
  refine (nextNumber_inStep hw hcomma).bind ?_
  rintro greatest _ _ _ _ he ⟨rfl, hgreatest⟩
  refine (expect_inStep hw he (by decide)).bind ?_
  rintro - - _ _ _ hclose rfl
  by_cases hgt : least > greatest
  · rw [if_pos hgt]
    exact .error (.reversedBounds c₁.pos least greatest)
  · rw [if_neg hgt]
    refine .pure hclose ⟨rfl, .cons (by decide) (hleast.trans ?_)⟩
    exact .cons (by decide) (hgreatest.trans (.piece (by decide)))

theorem repetitionMark_inStep (h : Twins s₁ s₂ whole ps c₁ c₂) (lit : Char) :
    InStep s₁ s₂ whole (Same ps) (outcome (repetitionMark lit c₁))
      (outcome (repetitionMark lit c₂)) := by
  have single : ∀ {c : Char} {times : Repetition}, c ∈ ',' :: operators → c ≠ '[' →
      InStep s₁ s₂ whole (Same ps) (outcome ((expect c >>= fun _ => Pure.pure times) c₁))
        (outcome ((expect c >>= fun _ => Pure.pure times) c₂)) := by
    intro c times hc hopen
    refine (expect_inStep hw h hc).bind ?_
    rintro - - _ _ _ hd rfl
    exact .pure hd ⟨rfl, .piece (by simpa using hopen)⟩
  unfold repetitionMark
  split
  · exact single (by decide) (by decide)
  · split
    · exact single (by decide) (by decide)
    · exact counted_inStep hw h

/-- A run of literals ends before a gap, so that it does not depend on the sentinel. -/
theorem literalRun_inStep (h : Twins s₁ s₂ whole ps c₁ c₂) :
    InStep s₁ s₂ whole (fun p q qs => (∃ text, p = .ofText text) ∧ Same ps p q qs)
      (outcome (literalRun (marked s₁) c₁)) (outcome (literalRun (marked s₂) c₂)) := by
  have hstop : ∀ p ∈ whole, (marked s₂).isReserved (p.head (marked s₂)) =
      (marked s₁).isReserved (p.head (marked s₁)) := by
    intro p hp
    have bare : ∀ {c : Char}, c ≠ s₁ → c ≠ s₂ →
        (marked s₂).isReserved c = (marked s₁).isReserved c := fun h₁ h₂ =>
      (isReserved_of_ne h₂).trans (isReserved_of_ne h₁).symm
    cases p with
    | pair c => exact bare hw.left.ne_escape hw.right.ne_escape
    | dangling => exact bare hw.left.ne_escape hw.right.ne_escape
    | gap => simp [Dialect.isReserved, Piece.head]
    | plain c => exact bare (hw.plain c hp).2.1 (hw.plain c hp).2.2
  refine (literalsUntil_inStep hw hstop h).bind ?_
  rintro xs ys qs d₁ d₂ hd ⟨bs, rfl, rfl, rfl, hbs⟩
  have hgap : Piece.gap ∉ bs := fun hmem => by
    have := hbs _ hmem
    simp [Dialect.isReserved, Piece.head] at this
  have hopen : Piece.plain '[' ∉ bs := fun hmem => by
    have := hbs _ hmem
    simp [Dialect.isReserved, Piece.head, operators] at this
  rw [literals_eq_of_no_gap hgap]
  exact .pure hd ⟨⟨_, rfl⟩, rfl, .run hopen⟩

end Leaves

end GapRegex
