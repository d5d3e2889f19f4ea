import GapRegex.Cursor.Lemmas
import GapRegex.Parser.Lemmas

/-!
# Scanning — the text that each leaf takes

`Takes c u d` says that the text `u` lies between the places `c` and `d`.  Each reading step that
has no recursion in it is described by the texts it takes:
* `literalsUntil_iff`: literals up to the first bare character that stops them (`Readable`);
* `nextNumber_iff`: all the digits, of a number below the limit of bounds;
* `bracketed_iff`, `repetitionMark_iff`: the rest of a class, and the mark of a repetition.

A run goes as far as it can.  `Stops p rest` is how it ends: no character is left, or one that `p`
accepts.
-/

namespace GapRegex

/-- The text is empty, or its first character is one that `p` accepts. -/
def Stops (p : Char → Bool) (text : List Char) : Prop := ∀ c ∈ text.head?, p c = true

@[simp] theorem stops_nil (p : Char → Bool) : Stops p [] := by simp [Stops]

@[simp] theorem stops_cons {p : Char → Bool} {c : Char} {text : List Char} :
    Stops p (c :: text) ↔ p c = true := by simp [Stops]

theorem Stops.mono {p q : Char → Bool} {text : List Char} (h : Stops p text)
    (hpq : ∀ c, p c = true → q c = true) : Stops q text :=
  fun c hc => hpq c (h c hc)

/-- The text `u` lies between the two places. -/
def Takes (c : Cursor) (u : List Char) (d : Cursor) : Prop :=
  c.rest = u ++ d.rest ∧ d.pos = c.pos + u.length

namespace Takes

variable {c d e : Cursor} {u v : List Char} {ch : Char}

theorem refl (c : Cursor) : Takes c [] c := ⟨rfl, rfl⟩

theorem trans (h : Takes c u d) (h' : Takes d v e) : Takes c (u ++ v) e := by
  refine ⟨?_, ?_⟩
  · rw [h.1, h'.1, List.append_assoc]
  · rw [h'.2, h.2, List.length_append, Nat.add_assoc]

theorem nil_iff : Takes c [] d ↔ d = c := by
  constructor
  · rintro ⟨h₁, h₂⟩
    obtain ⟨pos, rest⟩ := c
    obtain ⟨pos', rest'⟩ := d
    simp_all
  · rintro rfl
    exact refl d

/-- The place after a text is determined by where the text starts. -/
theorem right_unique (h : Takes c u d) (h' : Takes c u e) : d = e := by
  have h₁ : d.rest = e.rest := List.append_cancel_left (h.1.symm.trans h'.1)
  have h₂ : d.pos = e.pos := h.2.trans h'.2.symm
  obtain ⟨pos, rest⟩ := d
  obtain ⟨pos', rest'⟩ := e
  simp_all

theorem advance (h : c.peek = some ch) : Takes c [ch] c.advance := by
  obtain ⟨pos, rest⟩ := c
  cases rest with
  | nil => cases h
  | cons x rest =>
    cases h
    exact ⟨rfl, rfl⟩

/-- A text that is there can be taken. -/
theorem skip (h : c.rest = u ++ v) : Takes c u (c.skip u.length) :=
  ⟨by simp [Cursor.skip, h], rfl⟩

theorem unread (h : Takes c u d) : c.unread = u.length + d.unread := by
  rw [Cursor.unread, h.1, List.length_append, Cursor.unread]

theorem pos_lt (h : Takes c u d) (hu : u ≠ []) : c.pos < d.pos := by
  have hlen := List.length_pos_iff.mpr hu
  rw [h.2]
  omega

/-- Nothing was taken where no less text is left. -/
theorem eq_of_not_lt (h : Takes c u d) (hlt : ¬ d.unread < c.unread) : d = c := by
  have hu := h.unread
  have hlen : u = [] := List.length_eq_zero_iff.mp (by omega)
  exact nil_iff.mp (hlen ▸ h)

theorem peek (h : Takes c (ch :: u) d) : c.peek = some ch := by
  rw [Cursor.peek, h.1]
  rfl

theorem append_iff : Takes c (u ++ v) d ↔ ∃ e, Takes c u e ∧ Takes e v d := by
  constructor
  · rintro ⟨h₁, h₂⟩
    refine ⟨⟨c.pos + u.length, v ++ d.rest⟩, ⟨?_, rfl⟩, rfl, ?_⟩
    · rw [h₁, List.append_assoc]
    · rw [h₂, List.length_append, Nat.add_assoc]
  · rintro ⟨e, h, h'⟩
    exact h.trans h'

/-- The places between two bounds and the signs around them. -/
theorem bounds {ds es : List Char} (h : Takes c (boundsText ds es) d) :
    ∃ c₁ c₂ c₃ c₄, Takes c ['{'] c₁ ∧ Takes c₁ ds c₂ ∧ Takes c₂ [','] c₃ ∧ Takes c₃ es c₄ ∧
      Takes c₄ ['}'] d := by
  have h : Takes c (['{'] ++ (ds ++ ([','] ++ (es ++ ['}'])))) d := by
    simpa [boundsText] using h
  obtain ⟨c₁, h₁, h⟩ := append_iff.mp h
  obtain ⟨c₂, h₂, h⟩ := append_iff.mp h
  obtain ⟨c₃, h₃, h⟩ := append_iff.mp h
  obtain ⟨c₄, h₄, h₅⟩ := append_iff.mp h
  exact ⟨c₁, c₂, c₃, c₄, h₁, h₂, h₃, h₄, h₅⟩

end Takes

theorem stops_iff_peek {p : Char → Bool} {c : Cursor} :
    Stops p c.rest ↔ ∀ ch, c.peek = some ch → p ch = true := by
  simp [Stops, Cursor.peek]

/-! ### Steps one after the other -/

namespace Scan

section Steps

variable {α β : Type} {s : Scan α} {f : α → Scan β} {c d e : Cursor}

theorem bind_iff {b : β} :
    (s >>= f) c = .ok b e ↔ ∃ a d, s c = .ok a d ∧ f a d = .ok b e := by
  simp only [Bind.bind, EStateM.bind]
  cases s c with
  | ok a d =>
    refine ⟨fun h => ⟨a, d, rfl, h⟩, ?_⟩
    rintro ⟨a', d', h, h'⟩
    cases h
    exact h'
  | error err d => simp

theorem pure_iff {a b : α} : (pure a : Scan α) c = .ok b d ↔ b = a ∧ d = c := by
  constructor
  · intro h
    cases h
    exact ⟨rfl, rfl⟩
  · rintro ⟨rfl, rfl⟩
    rfl

theorem expect_iff {ch : Char} {u : Unit} : expect ch c = .ok u d ↔ Takes c [ch] d := by
  unfold expect
  by_cases h : c.isAt ch = true
  · have hp : c.peek = some ch := by simpa [Cursor.isAt] using h
    rw [if_pos h]
    constructor
    · intro h'
      cases h'
      exact Takes.advance hp
    · intro h'
      rw [h'.right_unique (Takes.advance hp)]
  · rw [if_neg h]
    constructor
    · intro h'
      cases h'
    · intro h'
      exact absurd (by simpa [Cursor.isAt] using h'.peek) h

theorem consume_iff {ch : Char} {b : Bool} :
    consume ch c = .ok b d ↔
      b = true ∧ Takes c [ch] d ∨ b = false ∧ c.peek ≠ some ch ∧ d = c := by
  unfold consume
  by_cases h : c.peek = some ch
  · rw [if_pos (by simpa [Cursor.isAt] using h)]
    constructor
    · intro h'
      cases h'
      exact Or.inl ⟨rfl, Takes.advance h⟩
    · rintro (⟨rfl, h'⟩ | ⟨-, h', -⟩)
      · rw [h'.right_unique (Takes.advance h)]
      · exact absurd h h'
  · rw [if_neg (by simpa [Cursor.isAt] using h)]
    constructor
    · intro h'
      cases h'
      exact Or.inr ⟨rfl, h, rfl⟩
    · rintro (⟨-, h'⟩ | ⟨rfl, -, rfl⟩)
      · exact absurd h'.peek h
      · rfl

theorem consume_of_peek {ch : Char} (h : c.peek = some ch) : consume ch c = .ok true c.advance :=
  consume_iff.mpr (Or.inl ⟨rfl, Takes.advance h⟩)

theorem consume_of_peek_ne {ch : Char} (h : c.peek ≠ some ch) : consume ch c = .ok false c :=
  consume_iff.mpr (Or.inr ⟨rfl, h, rfl⟩)

theorem next_iff {ch : Char} : next c = .ok ch d ↔ Takes c [ch] d := by
  unfold next
  constructor
  · intro h
    split at h
    · next hp =>
      cases h
      exact Takes.advance hp
    · cases h
  · intro h
    rw [h.peek, h.right_unique (Takes.advance h.peek)]

end Steps

end Scan

/-! ### Runs of literals -/

namespace Literal

/-- A run of literals that bare characters of `stop` end can hold the literal. -/
def Readable (g : Dialect) (stop : Char → Bool) (x : Literal) : Prop :=
  if x.escaped then stop g.escape = false else stop x.char = false ∧ x.char ≠ g.escape

/-- Literals as they stand one after the other. -/
def run (g : Dialect) (xs : List Literal) : List Char := xs.flatMap (text g)

@[simp] theorem run_nil (g : Dialect) : run g [] = [] := rfl

@[simp] theorem run_cons (g : Dialect) (x : Literal) (xs : List Literal) :
    run g (x :: xs) = x.text g ++ run g xs := rfl

/-- A literal that a run can hold does not end the run. -/
theorem Readable.exists_cons {g : Dialect} {stop : Char → Bool} {x : Literal}
    (h : x.Readable g stop) : ∃ c u, x.text g = c :: u ∧ stop c = false := by
  obtain ⟨ch, escaped⟩ := x
  cases escaped with
  | true => exact ⟨g.escape, [ch], rfl, h⟩
  | false => exact ⟨ch, [], rfl, h.1⟩

end Literal

namespace Scan

section Runs

variable {g : Dialect} {stop : Char → Bool}

theorem literalsFrom_run {xs : List Literal} (hx : ∀ x ∈ xs, x.Readable g stop)
    {rest : List Char} (hr : Stops stop rest) (pos : Nat) (before : List Literal) :
    literalsFrom g stop pos (Literal.run g xs ++ rest) before =
      .ok (before.reverse ++ xs) ⟨pos + (Literal.run g xs).length, rest⟩ := by
  induction xs generalizing pos before with
  | nil =>
    cases rest with
    | nil => simp [literalsFrom_nil]
    | cons c rest => simp [literalsFrom_stop (stops_cons.mp hr)]
  | cons x xs ih =>
    obtain ⟨hx, hxs⟩ := List.forall_mem_cons.mp hx
    obtain ⟨ch, escaped⟩ := x
    cases escaped with
    | true =>
      have h : stop g.escape = false := by simpa [Literal.Readable] using hx
      simp only [Literal.run_cons, Literal.text, if_true, List.cons_append, List.nil_append]
      rw [literalsFrom_escaped h, ih hxs]
      simp [Nat.add_assoc, Nat.add_comm 2]
    | false =>
      have h : stop ch = false ∧ ch ≠ g.escape := by simpa [Literal.Readable] using hx
      simp only [Literal.run_cons, Literal.text, Bool.false_eq_true, if_false, List.cons_append,
        List.nil_append]
      rw [literalsFrom_bare h.1 h.2, ih hxs]
      simp [Nat.add_assoc, Nat.add_comm 1]

theorem literalsFrom_sound {pos : Nat} {text : List Char} {before ys : List Literal} {d : Cursor}
    (h : literalsFrom g stop pos text before = .ok ys d) :
    ∃ xs, ys = before.reverse ++ xs ∧ Takes ⟨pos, text⟩ (Literal.run g xs) d ∧
      (∀ x ∈ xs, x.Readable g stop) ∧ Stops stop d.rest := by
  fun_induction literalsFrom g stop pos text before with
  | case1 => cases h; exact ⟨[], by simp, Takes.refl _, by simp, by simp⟩
  | case2 _ _ _ _ hs => cases h; exact ⟨[], by simp, Takes.refl _, by simp, by simpa using hs⟩
  | case3 => cases h
  | case4 pos before x rest hs ih =>
    obtain ⟨xs, rfl, ht, hx, hd⟩ := ih h
    refine ⟨⟨x, true⟩ :: xs, by simp, ?_, ?_, hd⟩
    · exact Takes.trans (u := [g.escape, x]) ⟨rfl, rfl⟩ ht
    · refine List.forall_mem_cons.mpr ⟨?_, hx⟩
      simpa [Literal.Readable] using hs
  | case5 pos before c rest hs he ih =>
    obtain ⟨xs, rfl, ht, hx, hd⟩ := ih h
    refine ⟨⟨c, false⟩ :: xs, by simp, ?_, ?_, hd⟩
    · exact Takes.trans (u := [c]) ⟨rfl, rfl⟩ ht
    · refine List.forall_mem_cons.mpr ⟨?_, hx⟩
      simpa [Literal.Readable] using ⟨Bool.eq_false_iff.mpr hs, he⟩

/-- After its escape, if there is one, a literal is the next character. -/
theorem nextLiteral_of_consume {c d : Cursor} {escaped : Bool}
    (h : consume g.escape c = .ok escaped d) :
    nextLiteral g c =
      match d.peek with
      | some ch => .ok ⟨ch, escaped⟩ d.advance
      | none => .error (.unexpectedEnd d.pos) d := by
  simp only [nextLiteral, Bind.bind, EStateM.bind, h, next]
  cases d.peek <;> rfl

/-- A literal is taken as it stands in the text. -/
theorem nextLiteral_takes {c d : Cursor} {x : Literal} (h : nextLiteral g c = .ok x d) :
    Takes c (x.text g) d := by
  obtain ⟨escaped, e, hescape, h⟩ := bind_iff.mp h
  obtain ⟨ch, e', hnext, h⟩ := bind_iff.mp h
  obtain ⟨rfl, rfl⟩ := pure_iff.mp h
  have hch := next_iff.mp hnext
  rcases consume_iff.mp hescape with ⟨rfl, ht⟩ | ⟨rfl, -, rfl⟩
  · exact ht.trans hch
  · exact hch

/-- A run takes literals as long as there are some that it can hold. -/
theorem literalsUntil_iff {c d : Cursor} {xs : List Literal} :
    literalsUntil g stop c = .ok xs d ↔
      Takes c (Literal.run g xs) d ∧ (∀ x ∈ xs, x.Readable g stop) ∧ Stops stop d.rest := by
  obtain ⟨pos, text⟩ := c
  constructor
  · intro h
    obtain ⟨ys, rfl, ht, hx, hd⟩ := literalsFrom_sound h
    exact ⟨ht, hx, hd⟩
  · rintro ⟨⟨h₁, h₂⟩, hx, hd⟩
    obtain ⟨pos', rest⟩ := d
    dsimp only at h₁ h₂ hd
    subst h₁ h₂
    exact literalsFrom_run hx hd pos []

end Runs

end Scan

/-! ### Numbers and marks of repetition -/

/-- Digits that denote a number. -/
def IsNumber (ds : List Char) (n : Nat) : Prop :=
  ds ≠ [] ∧ (∀ c ∈ ds, c.isDigit = true) ∧ Nat.ofDigitChars 10 ds 0 = n

theorem isNumber_toDigits (n : Nat) : IsNumber (Nat.toDigits 10 n) n :=
  ⟨Nat.toDigits_ne_nil, fun _ hc => Nat.isDigit_of_mem_toDigits (by decide) (by decide) hc,
    Nat.ofDigitChars_ten_toDigits⟩

/-- More digits never make a number smaller. -/
theorem le_ofDigitChars (ds : List Char) (v : Nat) : v ≤ Nat.ofDigitChars 10 ds v := by
  rw [Nat.ofDigitChars_eq_ofDigitChars_zero]
  have : 1 * v ≤ 10 ^ ds.length * v := Nat.mul_le_mul_right v (Nat.pow_pos (by decide))
  omega

/-- The text of a mark of repetition, and what it asks for. -/
inductive Mark : List Char → Repetition → Prop
  | zeroOrMore : Mark ['*'] .zeroOrMore
  | oneOrMore : Mark ['+'] .oneOrMore
  | between {ds es : List Char} {m n : Nat} (hm : IsNumber ds m) (hn : IsNumber es n)
      (hle : m ≤ n) (hlt : n < boundLimit) :
      Mark (boundsText ds es) (.between m n)

theorem Mark.exists_cons {mark : List Char} {times : Repetition} (h : Mark mark times) :
    ∃ ch u, mark = ch :: u ∧ Parser.startsRepetition ch = true := by
  cases h with
  | zeroOrMore => exact ⟨_, _, rfl, rfl⟩
  | oneOrMore => exact ⟨_, _, rfl, rfl⟩
  | between => exact ⟨_, _, rfl, rfl⟩

namespace Scan

theorem readDigits_of_lt {ds rest : List Char} {v : Nat} (hd : ∀ c ∈ ds, c.isDigit = true)
    (hr : Stops (fun c => !c.isDigit) rest) (hlt : Nat.ofDigitChars 10 ds v < boundLimit) :
    readDigits v (ds ++ rest) = (some (Nat.ofDigitChars 10 ds v), ds.length) := by
  induction ds generalizing v with
  | nil =>
    cases rest with
    | nil => simp [readDigits]
    | cons c rest =>
      have hc : c.isDigit = false := by simpa using hr
      simp [readDigits, hc]
  | cons c ds ih =>
    obtain ⟨hc, hds⟩ := List.forall_mem_cons.mp hd
    rw [Nat.ofDigitChars_cons] at hlt ⊢
    have hv := Nat.lt_of_le_of_lt (le_ofDigitChars ds _) hlt
    rw [List.cons_append, readDigits]
    simp only [hc, if_true, hv, ih hds hlt, List.length_cons]

/-- Digits that denote too large a number pass the limit at one of them. -/
theorem exists_passing {ds : List Char} {v : Nat} (hv : v < boundLimit)
    (hle : boundLimit ≤ Nat.ofDigitChars 10 ds v) :
    ∃ front x back, ds = front ++ x :: back ∧ Nat.ofDigitChars 10 front v < boundLimit ∧
      boundLimit ≤ Nat.ofDigitChars 10 (front ++ [x]) v := by
  induction ds generalizing v with
  | nil => exact absurd hle (Nat.not_le.mpr hv)
  | cons c ds ih =>
    rw [Nat.ofDigitChars_cons] at hle
    by_cases h : 10 * v + (c.toNat - '0'.toNat) < boundLimit
    · obtain ⟨front, x, back, rfl, hlt, hge⟩ := ih h hle
      refine ⟨c :: front, x, back, rfl, ?_, ?_⟩
      · rw [Nat.ofDigitChars_cons]
        exact hlt
      · rw [List.cons_append, Nat.ofDigitChars_cons]
        exact hge
    · refine ⟨[], c, ds, rfl, hv, ?_⟩
      rw [List.nil_append, Nat.ofDigitChars_cons, Nat.ofDigitChars_nil]
      exact Nat.le_of_not_lt h

/-- The digit that passes the limit is not read. -/
theorem readDigits_of_passing {front : List Char} {x : Char} (rest : List Char) {v : Nat}
    (hd : ∀ c ∈ front ++ [x], c.isDigit = true) (hlt : Nat.ofDigitChars 10 front v < boundLimit)
    (hle : boundLimit ≤ Nat.ofDigitChars 10 (front ++ [x]) v) :
    readDigits v (front ++ x :: rest) = (none, front.length) := by
  induction front generalizing v with
  | nil =>
    rw [List.nil_append, Nat.ofDigitChars_cons, Nat.ofDigitChars_nil] at hle
    rw [List.nil_append, readDigits]
    simp only [hd x (by simp), if_true, if_neg (Nat.not_lt.mpr hle), List.length_nil]
  | cons c front ih =>
    obtain ⟨hc, hfront⟩ := List.forall_mem_cons.mp hd
    rw [List.cons_append, Nat.ofDigitChars_cons] at hle
    rw [Nat.ofDigitChars_cons] at hlt
    have hv := Nat.lt_of_le_of_lt (le_ofDigitChars front _) hlt
    rw [List.cons_append, readDigits]
    simp only [hc, if_true, hv, ih hfront hlt hle, List.length_cons]

theorem isDigit_of_mem_takeWhile (text : List Char) :
    ∀ c ∈ text.takeWhile Char.isDigit, c.isDigit = true :=
  List.all_eq_true.mp List.all_takeWhile

theorem stops_dropWhile_isDigit (text : List Char) :
    Stops (fun c => !c.isDigit) (text.dropWhile Char.isDigit) := by
  intro c hc
  have := List.head?_dropWhile_not Char.isDigit text
  rw [Option.mem_def.mp hc] at this
  simpa using this

/-- The digits at the front of a text, where something else follows them or nothing. -/
theorem takeWhile_digits {ds rest : List Char} (hd : ∀ c ∈ ds, c.isDigit = true)
    (hr : Stops (fun c => !c.isDigit) rest) :
    (ds ++ rest).takeWhile Char.isDigit = ds ∧ (ds ++ rest).dropWhile Char.isDigit = rest := by
  rw [List.takeWhile_append_of_pos hd, List.dropWhile_append_of_pos hd]
  cases rest with
  | nil => simp
  | cons c rest =>
    have hc : c.isDigit = false := by simpa using hr
    simp [hc]

theorem readDigits_takeWhile {text : List Char} {v : Nat}
    (hlt : Nat.ofDigitChars 10 (text.takeWhile Char.isDigit) v < boundLimit) :
    readDigits v text =
      (some (Nat.ofDigitChars 10 (text.takeWhile Char.isDigit) v),
        (text.takeWhile Char.isDigit).length) := by
  have hstop := stops_dropWhile_isDigit text
  have hread := readDigits_of_lt (isDigit_of_mem_takeWhile text) hstop hlt
  rwa [List.takeWhile_append_dropWhile] at hread

section Numbers

variable {c d : Cursor} {n : Nat}

/-- Digits at the front can be taken, all of them or some. -/
theorem takes_digits {front back : List Char}
    (h : c.rest.takeWhile Char.isDigit = front ++ back) : Takes c front (c.skip front.length) := by
  have hrest : c.rest = front ++ (back ++ c.rest.dropWhile Char.isDigit) := by
    rw [← List.append_assoc, ← h, List.takeWhile_append_dropWhile]
  exact Takes.skip hrest

theorem nextNumber_of_no_digit (h : c.rest.takeWhile Char.isDigit = []) :
    nextNumber c = .error (.expectedChar c.pos '0' c.peek) c := by
  have hlt : Nat.ofDigitChars 10 (c.rest.takeWhile Char.isDigit) 0 < boundLimit := by
    rw [h]
    decide
  unfold nextNumber
  rw [readDigits_takeWhile hlt, h]
  rfl

theorem nextNumber_of_lt {ds : List Char} (h : c.rest.takeWhile Char.isDigit = ds) (hne : ds ≠ [])
    (hlt : Nat.ofDigitChars 10 ds 0 < boundLimit) :
    nextNumber c = .ok (Nat.ofDigitChars 10 ds 0) (c.skip ds.length) := by
  subst h
  obtain ⟨x, u, hds⟩ := List.exists_cons_of_ne_nil hne
  unfold nextNumber
  rw [readDigits_takeWhile hlt, hds]
  rfl

/-- The digits in front of the one that passes the limit are consumed. -/
theorem nextNumber_of_passing {front back : List Char} {x : Char}
    (h : c.rest.takeWhile Char.isDigit = front ++ x :: back)
    (hlt : Nat.ofDigitChars 10 front 0 < boundLimit)
    (hle : boundLimit ≤ Nat.ofDigitChars 10 (front ++ [x]) 0) :
    nextNumber c = .error (.boundTooLarge c.pos) (c.skip front.length) := by
  have hrest : c.rest = front ++ x :: (back ++ c.rest.dropWhile Char.isDigit) := by
    rw [← List.cons_append, ← List.append_assoc, ← h, List.takeWhile_append_dropWhile]
  have hdigit : ∀ y ∈ front ++ [x], y.isDigit = true := fun y hy =>
    isDigit_of_mem_takeWhile c.rest y (by rw [h]; grind)
  have hread := readDigits_of_passing (back ++ c.rest.dropWhile Char.isDigit) hdigit hlt hle
  rw [← hrest] at hread
  unfold nextNumber
  rw [hread]

theorem nextNumber_iff :
    nextNumber c = .ok n d ↔
      ∃ ds, Takes c ds d ∧ IsNumber ds n ∧ n < boundLimit ∧
        Stops (fun c => !c.isDigit) d.rest := by
  constructor
  · intro h
    have hdigit := isDigit_of_mem_takeWhile c.rest
    have hstop := stops_dropWhile_isDigit c.rest
    generalize hds : c.rest.takeWhile Char.isDigit = ds at hdigit
    by_cases hne : ds = []
    · rw [nextNumber_of_no_digit (hds.trans hne)] at h
      cases h
    · by_cases hlt : Nat.ofDigitChars 10 ds 0 < boundLimit
      · rw [nextNumber_of_lt hds hne hlt] at h
        cases h
        have ht := takes_digits (hds.trans (List.append_nil ds).symm)
        have hrest : ds ++ c.rest.dropWhile Char.isDigit = c.rest := by
          rw [← hds, List.takeWhile_append_dropWhile]
        rw [List.append_cancel_left (hrest.trans ht.1)] at hstop
        exact ⟨ds, ht, ⟨hne, hdigit, rfl⟩, hlt, hstop⟩
      · obtain ⟨front, x, back, rfl, hfront, hle⟩ :=
          exists_passing (by decide) (Nat.le_of_not_lt hlt)
        rw [nextNumber_of_passing hds hfront hle] at h
        cases h
  · rintro ⟨ds, ht, ⟨hne, hd, rfl⟩, hlt, hr⟩
    have hds : c.rest.takeWhile Char.isDigit = ds := by
      rw [ht.1]
      exact (takeWhile_digits hd hr).1
    rw [nextNumber_of_lt hds hne hlt, ht.right_unique (Takes.skip ht.1)]

end Numbers

end Scan

/-! ### Leaves of the descent -/

/-- The mark after a bracketed class, whether it asks for several members, and what follows.  No
mark is taken only where none stands. -/
inductive ClassMark : List Char → Bool → List Char → Prop
  | plus (rest : List Char) : ClassMark ['+'] true rest
  | star (rest : List Char) : ClassMark ['*'] true rest
  | none {rest : List Char} (h : Stops (fun c => c != '+' && c != '*') rest) :
      ClassMark [] false rest

/-- Where nothing is repeated, a class has no mark. -/
theorem ClassMark.of_stops {rest : List Char}
    (h : Stops (fun c => !Parser.startsRepetition c) rest) : ClassMark [] false rest := by
  refine .none (h.mono fun c hc => ?_)
  simp only [Parser.startsRepetition, Bool.not_eq_true', Bool.or_eq_false_iff,
    beq_eq_false_iff_ne] at hc
  simp [hc]

namespace Parser

open Scan

variable {g : Dialect} {c d : Cursor}

theorem get_bind {α : Type} (f : Cursor → Scan α) : ((get : Scan Cursor) >>= f) c = f c c := rfl

theorem classBody_iff {body : List Literal} :
    classBody g c = .ok body d ↔
      Takes c (Literal.run g body) d ∧ (∀ x ∈ body, x.Readable g (· == ']')) ∧
        d.peek = some ']' := by
  have stop : ∀ e : Cursor, e.peek = some ']' ↔ e.more = true ∧ Stops (· == ']') e.rest := by
    intro e
    cases hr : e.rest <;> simp [Cursor.peek, Cursor.more, hr]
  unfold classBody
  rw [bind_iff]
  constructor
  · rintro ⟨xs, e, h, h'⟩
    obtain ⟨ht, hx, hs⟩ := literalsUntil_iff.mp h
    rw [get_bind] at h'
    split at h'
    · obtain ⟨rfl, rfl⟩ := pure_iff.mp h'
      exact ⟨ht, hx, (stop d).mpr ⟨‹_›, hs⟩⟩
    · cases h'
  · rintro ⟨ht, hx, hp⟩
    obtain ⟨hm, hs⟩ := (stop d).mp hp
    refine ⟨body, d, literalsUntil_iff.mpr ⟨ht, hx, hs⟩, ?_⟩
    rw [get_bind, if_pos hm]
    rfl

theorem bracketed_iff {members : CharSet} {repeated : Bool} :
    bracketed g c = .ok (members, repeated) d ↔
      ∃ body mark, Takes c (Literal.run g body ++ ']' :: mark) d ∧
        (∀ x ∈ body, x.Readable g (· == ']')) ∧ members = .ofClass body ∧
        ClassMark mark repeated d.rest := by
  unfold bracketed
  simp only [bind_iff, classBody_iff, expect_iff, consume_iff]
  constructor
  · rintro ⟨body, e₁, ⟨h₁, hx, -⟩, -, e₂, h₂, b, e₃, h₃, h₄⟩
    rcases h₃ with ⟨rfl, h₃⟩ | ⟨rfl, hplus, rfl⟩
    · obtain ⟨he, rfl⟩ := pure_iff.mp h₄
      cases he
      exact ⟨body, ['+'], h₁.trans (h₂.trans h₃), hx, rfl, .plus _⟩
    · simp only [Bool.false_eq_true, if_false, bind_iff, consume_iff] at h₄
      obtain ⟨b, e₄, h₄, h₅⟩ := h₄
      obtain ⟨he, rfl⟩ := pure_iff.mp h₅
      cases he
      rcases h₄ with ⟨rfl, h₄⟩ | ⟨rfl, hstar, rfl⟩
      · exact ⟨body, ['*'], h₁.trans (h₂.trans h₄), hx, rfl, .star _⟩
      · refine ⟨body, [], h₁.trans h₂, hx, rfl, .none (stops_iff_peek.mpr ?_)⟩
        intro ch hch
        rw [hch] at hplus hstar
        simp_all
  · rintro ⟨body, mark, ht, hx, rfl, hm⟩
    rw [← List.singleton_append, Takes.append_iff] at ht
    obtain ⟨e₁, h₁, h₂⟩ := ht
    obtain ⟨e₂, h₂, h₃⟩ := Takes.append_iff.mp h₂
    refine ⟨body, e₁, ⟨h₁, hx, h₂.peek⟩, (), e₂, h₂, ?_⟩
    cases hm with
    | plus => exact ⟨true, d, Or.inl ⟨rfl, h₃⟩, rfl⟩
    | star =>
      have hne : e₂.peek ≠ some '+' := by rw [h₃.peek]; decide
      refine ⟨false, e₂, Or.inr ⟨rfl, hne, rfl⟩, ?_⟩
      exact bind_iff.mpr ⟨true, d, consume_iff.mpr (Or.inl ⟨rfl, h₃⟩), rfl⟩
    | none h =>
      obtain rfl := Takes.nil_iff.mp h₃
      have hs := stops_iff_peek.mp h
      have hne : ∀ ch, (ch = '+' ∨ ch = '*') → d.peek ≠ some ch := by
        rintro ch hch hp
        have := hs ch hp
        rcases hch with rfl | rfl <;> cases this
      refine ⟨false, d, Or.inr ⟨rfl, hne '+' (Or.inl rfl), rfl⟩, ?_⟩
      exact bind_iff.mpr
        ⟨false, d, consume_iff.mpr (Or.inr ⟨rfl, hne '*' (Or.inr rfl), rfl⟩), rfl⟩

theorem counted_iff {times : Repetition} :
    counted c = .ok times d ↔
      ∃ ds es m n, Takes c (boundsText ds es) d ∧ IsNumber ds m ∧ IsNumber es n ∧
        m ≤ n ∧ n < boundLimit ∧ times = .between m n := by
  unfold counted
  rw [get_bind]
  simp only [bind_iff, expect_iff, nextNumber_iff]
  constructor
  · rintro ⟨-, e₁, h₁, m, e₂, ⟨ds, h₂, hm, -, -⟩, -, e₃, h₃, n, e₄, ⟨es, h₄, hn, hlt, -⟩, -, e₅,
      h₅, h₆⟩
    split at h₆
    · cases h₆
    · rename_i hle
      obtain ⟨rfl, rfl⟩ := pure_iff.mp h₆
      refine ⟨ds, es, m, n, ?_, hm, hn, Nat.le_of_not_lt hle, hlt, rfl⟩
      simpa [boundsText] using (h₁.trans h₂).trans (h₃.trans (h₄.trans h₅))
  · rintro ⟨ds, es, m, n, ht, hm, hn, hle, hlt, rfl⟩
    obtain ⟨e₁, e₂, e₃, e₄, h₁, h₂, h₃, h₄, h₅⟩ := ht.bounds
    have hcomma : Stops (fun c => !c.isDigit) e₂.rest := by rw [h₃.1]; simp
    have hbrace : Stops (fun c => !c.isDigit) e₄.rest := by rw [h₅.1]; simp
    refine ⟨(), e₁, h₁, m, e₂, ⟨ds, h₂, hm, Nat.lt_of_le_of_lt hle hlt, hcomma⟩, (), e₃, h₃, n,
      e₄, ⟨es, h₄, hn, hlt, hbrace⟩, (), d, h₅, ?_⟩
    rw [if_neg (Nat.not_lt.mpr hle)]
    rfl

theorem repetitionMark_iff {lit : Char} {times : Repetition} (hp : c.peek = some lit) :
    repetitionMark lit c = .ok times d ↔ ∃ mark, Takes c mark d ∧ Mark mark times := by
  have first : ∀ {ch : Char} {u : List Char}, Takes c (ch :: u) d → lit = ch := by
    intro ch u h
    exact Option.some.inj (hp.symm.trans h.peek)
  unfold repetitionMark
  by_cases hstar : lit = '*'
  · subst hstar
    rw [if_pos rfl, bind_iff]
    constructor
    · rintro ⟨u, e, h, h'⟩
      obtain ⟨rfl, rfl⟩ := pure_iff.mp h'
      exact ⟨_, expect_iff.mp h, .zeroOrMore⟩
    · rintro ⟨mark, h, hm⟩
      cases hm with
      | zeroOrMore => exact ⟨(), d, expect_iff.mpr h, rfl⟩
      | oneOrMore => exact absurd (first h) (by decide)
      | between => exact absurd (first h) (by decide)
  · rw [if_neg hstar]
    by_cases hplus : lit = '+'
    · subst hplus
      rw [if_pos rfl, bind_iff]
      constructor
      · rintro ⟨u, e, h, h'⟩
        obtain ⟨rfl, rfl⟩ := pure_iff.mp h'
        exact ⟨_, expect_iff.mp h, .oneOrMore⟩
      · rintro ⟨mark, h, hm⟩
        cases hm with
        | zeroOrMore => exact absurd (first h) (by decide)
        | oneOrMore => exact ⟨(), d, expect_iff.mpr h, rfl⟩
        | between => exact absurd (first h) (by decide)
    · rw [if_neg hplus]
      constructor
      · intro h
        obtain ⟨ds, es, m, n, ht, hm, hn, hle, hlt, rfl⟩ := counted_iff.mp h
        exact ⟨_, ht, .between hm hn hle hlt⟩
      · rintro ⟨mark, h, hm⟩
        cases hm with
        | zeroOrMore => exact absurd (first h) hstar
        | oneOrMore => exact absurd (first h) hplus
        | between hm hn hle hlt => exact counted_iff.mpr ⟨_, _, _, _, h, hm, hn, hle, hlt, rfl⟩

theorem literalRun_iff {p : Pattern} :
    literalRun g c = .ok p d ↔
      ∃ xs, Takes c (Literal.run g xs) d ∧ (∀ x ∈ xs, x.Readable g g.isReserved) ∧
        Stops g.isReserved d.rest ∧ p = .ofText (xs.map Literal.char) := by
  unfold literalRun
  rw [bind_iff]
  constructor
  · rintro ⟨xs, e, h, h'⟩
    obtain ⟨rfl, rfl⟩ := pure_iff.mp h'
    obtain ⟨ht, hx, hs⟩ := literalsUntil_iff.mp h
    exact ⟨xs, ht, hx, hs, rfl⟩
  · rintro ⟨xs, ht, hx, hs, rfl⟩
    exact ⟨xs, d, literalsUntil_iff.mpr ⟨ht, hx, hs⟩, rfl⟩

end Parser

end GapRegex
