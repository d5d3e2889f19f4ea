import Mathlib.Logic.Relation
import Mathlib.Control.Monad.Basic
import GapRegex.Proofs.Reports

/-!
# Progress — why the descent ends

The productions end because of a measure that is written into them.  Here they are run without it:
`work` is what a production does itself, with every call that it makes answered from outside, and
`descend` answers these calls by more of the same, down to a given depth.
* `Calls.below`: a call starts where its caller does, or further on; and it is of a lower rank
  where it does not start further on;
* `work_eq`: the answers to its calls are all that a production needs;
* `descend_eq`: so a depth that is linear in what is left of the text is enough for every answer,
  and the answers are those of the productions;
* `calls_regex_lt`: an alternation inside another one starts further on;
* `descent_progress`: all of this, for every text and every dialect.
-/

namespace GapRegex.Parser

open Scan

/-! ### Productions without their bounds -/

/-- What the descent enters: the productions, and the loop that a class body and a run of literals
share. -/
inductive Entry where
  | regex
  | term (before : Pattern)
  | factor
  | base
  | classBody
  | literalRun
  | literals (stop : Char → Bool)

/-- What an entry reads. -/
@[reducible] def Entry.Value : Entry → Type
  | regex | term _ | factor | base | literalRun => Pattern
  | classBody | literals _ => List Literal

/-- What an entry reads and the place after it, or an error. -/
def enter (g : Dialect) : (e : Entry) → Cursor → Except ParseError (e.Value × Cursor)
  | .regex, c => plain (regex g c)
  | .term before, c => plain (term g c before)
  | .factor, c => plain (factor g c)
  | .base, c => plain (base g c)
  | .classBody, c => outcome (classBody g c)
  | .literalRun, c => outcome (literalRun g c)
  | .literals stop, c => outcome (literalsUntil g stop c)

/-- An outcome that may still be missing. -/
abbrev Attempt := ExceptT ParseError Option

/-- An outcome that is known. -/
def answer {α : Type} (x : Except ParseError α) : Attempt α := ExceptT.mk (some x)

/-- What is left of a bracketed class behind its body. -/
def closing (body : List Literal) : Scan (CharSet × Bool) := do
  expect ']'
  if ← consume '+' then return (.ofClass body, true)
  return (.ofClass body, ← consume '*')

theorem bracketed_eq (g : Dialect) : bracketed g = classBody g >>= closing := rfl

section Work

variable (g : Dialect) (ask : (e : Entry) → Cursor → Attempt (e.Value × Cursor))

/-- One item of a term. -/
def workItem (c : Cursor) (ch : Char) (before : Pattern) : Attempt (Pattern × Cursor) :=
  if ch = g.sentinel then do
    let (after, d) ← ask .factor c.advance
    match before.gap? after with
    | none => throw (.blankGap c.pos)
    | some p => return (p, d)
  else if ch = '[' then do
    let (body, d) ← ask .classBody c.advance
    let ((members, repeated), e) ← answer (outcome (closing body d))
    let (after, e) ← ask .factor e
    return (.charClass before after members repeated, e)
  else do
    let (p, d) ← ask .factor c
    if d.unread < c.unread then return (before.append p, d)
    else throw (.unexpectedChar c.pos ch)

/-- What an entry does itself.  What it calls is answered by `ask`. -/
def work : (e : Entry) → Cursor → Attempt (e.Value × Cursor)
  | .regex, c => do
    let (left, d) ← ask (.term .blank) c
    if d.peek = some '|' then
      if left.isBlank then throw (.emptyAlternative c.pos)
      else
        let (right, e) ← ask .regex d.advance
        if right.isBlank then throw (.emptyAlternative d.advance.pos)
        else return (.union left right, e)
    else return (left, d)
  | .term before, c =>
    match c.peek with
    | none => return (before, c)
    | some ch =>
      if ch = ')' ∨ ch = '|' then return (before, c)
      else do
        let (p, d) ← workItem g ask c ch before
        ask (.term p) d
  | .factor, c => do
    let (p, d) ← ask .base c
    match d.peek with
    | none => return (p, d)
    | some lit =>
      if startsRepetition lit then
        if p.isBlank then throw (.nothingToRepeat d.pos lit)
        else
          let (times, e) ← answer (outcome (repetitionMark lit d))
          return (.repetition p times, e)
      else return (p, d)
  | .base, c =>
    if c.peek = some '(' then do
      let (p, d) ← ask .regex c.advance
      let (_, e) ← answer (outcome (expect ')' d))
      return (p, e)
    else ask .literalRun c
  | .classBody, c => do
    let (body, d) ← ask (.literals (· == ']')) c
    if d.more then return (body, d) else throw (.expectedChar d.pos ']' none)
  | .literalRun, c => do
    let (run, d) ← ask (.literals g.isReserved) c
    return (.ofText (run.map Literal.char), d)
  | .literals stop, c =>
    match c.peek with
    | none => return ([], c)
    | some ch =>
      if stop ch then return ([], c)
      else do
        let (x, d) ← answer (outcome (nextLiteral g c))
        let (xs, e) ← ask (.literals stop) d
        return (x :: xs, e)

/-- The descent down to a depth.  It has no measure, and no outcome where the depth is too
small. -/
def descend : Nat → (e : Entry) → Cursor → Attempt (e.Value × Cursor)
  | 0, _, _ => ExceptT.mk none
  | n + 1, e, c => work g (descend n) e c

end Work

/-! ### Which calls there are -/

/-- An entry calls another one: the first asks for the outcome of the second when it comes to its
own outcome. -/
inductive Calls (g : Dialect) : Entry × Cursor → Entry × Cursor → Prop
  | firstTerm (c : Cursor) : Calls g (.regex, c) (.term .blank, c)
  | alternative {c d : Cursor} {left : Pattern} (h : plain (term g c .blank) = .ok (left, d))
      (hbar : d.peek = some '|') (hl : left ≠ .blank) : Calls g (.regex, c) (.regex, d.advance)
  | afterGap {c : Cursor} {before : Pattern} (hp : c.peek = some g.sentinel)
      (hs : endsTerm g.sentinel = false) : Calls g (.term before, c) (.factor, c.advance)
  | body {c : Cursor} {before : Pattern} (hp : c.peek = some '[') (hg : '[' ≠ g.sentinel) :
      Calls g (.term before, c) (.classBody, c.advance)
  | afterClass {c d : Cursor} {before : Pattern} {r : CharSet × Bool} (hp : c.peek = some '[')
      (hg : '[' ≠ g.sentinel) (hc : bracketed g c.advance = .ok r d) :
      Calls g (.term before, c) (.factor, d)
  | join {c : Cursor} {ch : Char} {before : Pattern} (hp : c.peek = some ch)
      (hs : endsTerm ch = false) (hg : ch ≠ g.sentinel) (hb : ch ≠ '[') :
      Calls g (.term before, c) (.factor, c)
  | nextItem {c d : Cursor} {ch : Char} {before p : Pattern} (hp : c.peek = some ch)
      (hs : endsTerm ch = false) (h : plain (item g c ch before) = .ok (p, d)) :
      Calls g (.term before, c) (.term p, d)
  | base (c : Cursor) : Calls g (.factor, c) (.base, c)
  | group {c : Cursor} (hp : c.peek = some '(') : Calls g (.base, c) (.regex, c.advance)
  | run {c : Cursor} (hp : c.peek ≠ some '(') : Calls g (.base, c) (.literalRun, c)
  | members (c : Cursor) : Calls g (.classBody, c) (.literals (· == ']'), c)
  | unreserved (c : Cursor) : Calls g (.literalRun, c) (.literals g.isReserved, c)
  | nextLiteral {c d : Cursor} {ch : Char} {stop : Char → Bool} {x : Literal}
      (hp : c.peek = some ch) (hs : stop ch = false) (h : nextLiteral g c = .ok x d) :
      Calls g (.literals stop, c) (.literals stop, d)

section Answers

variable {g : Dialect} {ask : (e : Entry) → Cursor → Attempt (e.Value × Cursor)} {c : Cursor}

theorem answer_bind {α β : Type} (x : Except ParseError α) (f : α → Attempt β) :
    (answer x >>= f) =
      match x with
      | .ok a => f a
      | .error e => answer (.error e) := by
  cases x <;> rfl

theorem workItem_eq {ch : Char} {before : Pattern} (hp : c.peek = some ch)
    (hs : endsTerm ch = false)
    (h : ∀ e' c', Calls g (.term before, c) (e', c') → ask e' c' = answer (enter g e' c')) :
    workItem g ask c ch before = answer (plain (item g c ch before)) := by
  rw [plain_item, workItem]
  by_cases hg : ch = g.sentinel
  · subst hg
    rw [if_pos rfl, if_pos rfl, h _ _ (.afterGap hp hs), answer_bind, enter]
    cases plain (factor g c.advance) with
    | error err => rfl
    | ok r =>
      obtain ⟨after, d⟩ := r
      dsimp only
      cases before.gap? after <;> rfl
  · rw [if_neg hg, if_neg hg]
    by_cases hb : ch = '['
    · subst hb
      rw [if_pos rfl, if_pos rfl, h _ _ (.body hp hg), answer_bind, enter, bracketed_eq,
        outcome_bind]
      cases hbody : outcome (classBody g c.advance) with
      | error err => rfl
      | ok r =>
        obtain ⟨body, d⟩ := r
        dsimp only
        rw [answer_bind]
        cases hclose : outcome (closing body d) with
        | error err => rfl
        | ok r =>
          obtain ⟨⟨members, repeated⟩, e⟩ := r
          have hc : bracketed g c.advance = .ok (members, repeated) e := by
            rw [← outcome_ok_iff, bracketed_eq, outcome_bind, hbody]
            exact hclose
          dsimp only
          rw [h _ _ (.afterClass hp hg hc), answer_bind, enter]
          cases plain (factor g e) <;> rfl
    · rw [if_neg hb, if_neg hb, h _ _ (.join hp hs hg hb), answer_bind, enter]
      cases plain (factor g c) with
      | error err => rfl
      | ok r =>
        obtain ⟨p, d⟩ := r
        dsimp only
        split <;> rfl

/-- The outcome of an entry follows from the outcomes of its calls. -/
theorem work_eq {e : Entry}
    (h : ∀ e' c', Calls g (e, c) (e', c') → ask e' c' = answer (enter g e' c')) :
    work g ask e c = answer (enter g e c) := by
  cases e with
  | regex =>
    rw [work, h _ _ (.firstTerm c), answer_bind, enter, enter, plain_regex]
    cases hleft : plain (term g c .blank) with
    | error err => rfl
    | ok r =>
      obtain ⟨left, d⟩ := r
      dsimp only
      by_cases hbar : d.peek = some '|'
      · rw [if_pos hbar, if_pos hbar]
        by_cases hl : left.isBlank
        · rw [if_pos hl, if_pos hl]
          rfl
        · have hl' : left ≠ .blank := by simpa using hl
          rw [if_neg hl, if_neg hl, h _ _ (.alternative hleft hbar hl'), answer_bind, enter]
          cases plain (regex g d.advance) with
          | error err => rfl
          | ok r =>
            obtain ⟨right, e⟩ := r
            dsimp only
            split <;> rfl
      · rw [if_neg hbar, if_neg hbar]
        rfl
  | term before =>
    rw [work, enter, plain_term]
    cases hp : c.peek with
    | none => rfl
    | some ch =>
      dsimp only
      by_cases hstop : ch = ')' ∨ ch = '|'
      · rw [if_pos hstop, if_pos hstop]
        rfl
      · have hs : endsTerm ch = false := by simpa [endsTerm] using hstop
        rw [if_neg hstop, if_neg hstop, workItem_eq hp hs h, answer_bind]
        cases hitem : plain (item g c ch before) with
        | error err => rfl
        | ok r =>
          obtain ⟨p, d⟩ := r
          exact h _ _ (.nextItem hp hs hitem)
  | factor =>
    rw [work, h _ _ (.base c), answer_bind, enter, enter, plain_factor]
    cases plain (base g c) with
    | error err => rfl
    | ok r =>
      obtain ⟨p, d⟩ := r
      dsimp only
      cases d.peek with
      | none => rfl
      | some lit =>
        dsimp only
        split
        · split
          · rfl
          · rw [answer_bind]
            cases outcome (repetitionMark lit d) <;> rfl
        · rfl
  | base =>
    rw [work, enter, plain_base]
    by_cases hp : c.peek = some '('
    · rw [if_pos hp, if_pos hp, h _ _ (.group hp), answer_bind, enter]
      cases plain (regex g c.advance) with
      | error err => rfl
      | ok r =>
        obtain ⟨p, d⟩ := r
        dsimp only
        rw [answer_bind]
        cases outcome (expect ')' d) <;> rfl
    · rw [if_neg hp, if_neg hp]
      exact h _ _ (.run hp)
  | classBody =>
    rw [work, h _ _ (.members c), answer_bind, enter, enter, classBody, outcome_bind]
    cases outcome (literalsUntil g (· == ']') c) with
    | error err => rfl
    | ok r =>
      obtain ⟨body, d⟩ := r
      dsimp only
      rw [get_bind]
      split <;> rfl
  | literalRun =>
    rw [work, h _ _ (.unreserved c), answer_bind, enter, enter, literalRun, outcome_bind]
    cases outcome (literalsUntil g g.isReserved c) <;> rfl
  | literals stop =>
    rw [work, enter, outcome_literalsUntil]
    cases hp : c.peek with
    | none => rfl
    | some ch =>
      dsimp only
      by_cases hs : stop ch = true
      · rw [if_pos hs, if_pos hs]
        rfl
      · rw [if_neg hs, if_neg hs, answer_bind]
        cases hx : outcome (nextLiteral g c) with
        | error err => rfl
        | ok r =>
          obtain ⟨x, d⟩ := r
          have hnext := h _ _ (.nextLiteral hp (Bool.eq_false_iff.mpr hs) (outcome_ok_iff.mp hx))
          dsimp only
          rw [hnext, answer_bind, enter]
          cases outcome (literalsUntil g stop d) <;> rfl

end Answers

/-! ### Every call goes forward -/

section Forward

variable {g : Dialect} {c d : Cursor}

/-- A round of the loop over literals takes text. -/
theorem nextLiteral_forward {x : Literal} (h : nextLiteral g c = .ok x d) :
    ∃ u, Takes c u d ∧ u ≠ [] := by
  refine ⟨_, nextLiteral_takes h, ?_⟩
  unfold Literal.text
  split <;> exact List.cons_ne_nil _ _

/-- A round of the loop over items takes text. -/
theorem item_forward {ch : Char} {before p : Pattern} (hp : c.peek = some ch)
    (hs : endsTerm ch = false) (h : plain (item g c ch before) = .ok (p, d)) :
    ∃ u, Takes c u d ∧ u ≠ [] := by
  obtain ⟨⟨u, hu⟩, -⟩ := read_item hp hs h
  refine ⟨u, hu, ?_⟩
  rintro rfl
  have hlt : d.unread ≤ c.advance.unread := unread_le_of_plain h
  have hsame := hu.unread
  have hpos := Cursor.unread_pos hp
  rw [Cursor.unread_advance] at hlt
  rw [List.length_nil] at hsame
  omega

/-- An entry leaves the place where it was entered behind, or stays there. -/
theorem exists_takes_of_enter {e : Entry} {v : e.Value} (h : enter g e c = .ok (v, d)) :
    ∃ u, Takes c u d := by
  cases e with
  | regex => exact (read_regex h).1
  | term before => exact (read_term h).1
  | factor => exact (read_factor h).1
  | base => exact (read_base h).1
  | classBody =>
    obtain ⟨ht, -⟩ := classBody_iff.mp (outcome_ok_iff.mp h)
    exact ⟨_, ht⟩
  | literalRun =>
    obtain ⟨xs, ht, -⟩ := literalRun_iff.mp (outcome_ok_iff.mp h)
    exact ⟨_, ht⟩
  | literals stop =>
    obtain ⟨ht, -⟩ := literalsUntil_iff.mp (outcome_ok_iff.mp h)
    exact ⟨_, ht⟩

/-- The order of the entries that stand at one place: a call is of a lower rank. -/
def Entry.rank : Entry → Nat
  | regex => 5
  | term _ => 4
  | factor => 3
  | base => 2
  | classBody | literalRun => 1
  | literals _ => 0

/-- The second is entered further on than the first, or at the same place with a lower rank. -/
def Below (a b : Entry × Cursor) : Prop :=
  ∃ u, Takes a.2 u b.2 ∧ (u = [] → b.1.rank < a.1.rank)

variable {a b : Entry × Cursor}

theorem Below.trans {b' : Entry × Cursor} (h : Below a b) (h' : Below b b') : Below a b' := by
  obtain ⟨u, hu, hrank⟩ := h
  obtain ⟨v, hv, hrank'⟩ := h'
  refine ⟨u ++ v, hu.trans hv, fun hnil => ?_⟩
  obtain ⟨hu', hv'⟩ := List.append_eq_nil_iff.mp hnil
  exact Nat.lt_trans (hrank' hv') (hrank hu')

theorem Below.of_rank {e e' : Entry} (h : e'.rank < e.rank) : Below (e, c) (e', c) :=
  ⟨[], Takes.refl c, fun _ => h⟩

theorem Below.of_takes {e e' : Entry} (h : ∃ u, Takes c u d ∧ u ≠ []) :
    Below (e, c) (e', d) := by
  obtain ⟨u, hu, hne⟩ := h
  exact ⟨u, hu, fun hnil => absurd hnil hne⟩

theorem Below.of_advance {e e' : Entry} {ch : Char} (hp : c.peek = some ch)
    (h : ∃ u, Takes c.advance u d) : Below (e, c) (e', d) := by
  obtain ⟨u, hu⟩ := h
  exact .of_takes ⟨ch :: u, (Takes.advance hp).trans hu, List.cons_ne_nil _ _⟩

theorem Calls.below (h : Calls g a b) : Below a b := by
  have here : ∀ e : Cursor, ∃ u, Takes e u e := fun e => ⟨[], Takes.refl e⟩
  cases h with
  | firstTerm c => exact .of_rank (by simp [Entry.rank])
  | @alternative c d left h hbar hl =>
    obtain ⟨u, hu⟩ := (read_term h).1
    refine .of_takes ⟨u ++ ['|'], hu.trans (Takes.advance hbar), ?_⟩
    exact List.append_ne_nil_of_right_ne_nil u (List.cons_ne_nil _ _)
  | afterGap hp hs => exact .of_advance hp (here _)
  | body hp hg => exact .of_advance hp (here _)
  | @afterClass c d before r hp hg hc =>
    obtain ⟨members, repeated⟩ := r
    obtain ⟨body, mark, ht, -⟩ := bracketed_iff.mp hc
    exact .of_advance hp ⟨_, ht⟩
  | join => exact .of_rank (by simp [Entry.rank])
  | nextItem hp hs h => exact .of_takes (item_forward hp hs h)
  | base c => exact .of_rank (by simp [Entry.rank])
  | group hp => exact .of_advance hp (here _)
  | run hp => exact .of_rank (by simp [Entry.rank])
  | members c => exact .of_rank (by simp [Entry.rank])
  | unreserved c => exact .of_rank (by simp [Entry.rank])
  | nextLiteral hp hs h => exact .of_takes (nextLiteral_forward h)

/-! ### The depth of the descent -/

/-- A bound on the depth of the calls that start here. -/
def weight (a : Entry × Cursor) : Nat := 6 * a.2.unread + a.1.rank

theorem Entry.rank_le (e : Entry) : e.rank ≤ 5 := by
  cases e <;> simp [Entry.rank]

theorem Below.weight_lt (h : Below a b) : weight b < weight a := by
  obtain ⟨u, hu, hrank⟩ := h
  have hunread := hu.unread
  have hle := b.1.rank_le
  unfold weight
  cases u with
  | nil =>
    have := hrank rfl
    rw [List.length_nil] at hunread
    omega
  | cons ch u =>
    rw [List.length_cons] at hunread
    omega

/-- Deep enough, the descent has the outcome of the production. -/
theorem descend_eq {n : Nat} {e : Entry} (h : weight (e, c) < n) :
    descend g n e c = answer (enter g e c) := by
  induction n generalizing e c with
  | zero => exact absurd h (Nat.not_lt_zero _)
  | succ n ih =>
    refine work_eq fun e' c' hcall => ih ?_
    have hlt : weight (e', c') < weight (e, c) := hcall.below.weight_lt
    omega

theorem below_of_transGen (h : Relation.TransGen (Calls g) a b) : Below a b := by
  induction h with
  | single h => exact h.below
  | tail _ h ih => exact ih.trans h.below

/-- An alternation that is entered while another one is read starts further on. -/
theorem calls_regex_lt (h : Relation.TransGen (Calls g) (.regex, c) (.regex, d)) :
    c.pos < d.pos := by
  obtain ⟨u, hu, hrank⟩ := below_of_transGen h
  exact hu.pos_lt fun hnil => absurd (hrank hnil) (Nat.lt_irrefl _)

/-- A text that has a pattern is read to its end. -/
theorem exists_end_of_parseNormal {text : List Char} {p : Pattern}
    (h : parseNormal g text = .ok p) :
    ∃ d, enter g .regex (.start text) = .ok (p, d) ∧ Within text d ∧ d.pos = text.length := by
  obtain ⟨hr, -⟩ := parseNormal_iff.mp h
  have ht := Takes.start text
  exact ⟨_, regex_iff_reads.mpr ⟨⟨text, ht⟩, hr⟩, ⟨text, ht⟩, rfl⟩

end Forward

/-- The descent ends, in every dialect and wherever in a text it is entered.
· Down to a depth that is linear in what is left of the text, it has the outcome of the production;
  where that is a success, the place after it lies further on in the text, or is the same.
· A round of the loops over items and over literals that succeeds goes forward.
· Each outcome follows from those of the calls, and an alternation that is called, directly or not,
  by another one starts further on.
· An expression that has a pattern has been read to its end. -/
theorem descent_progress (g : Dialect) :
    (∀ text e c, Within text c →
      (∀ n, 6 * (text.length - c.pos) + 6 ≤ n → descend g n e c = answer (enter g e c)) ∧
        ∀ v d, enter g e c = .ok (v, d) → Within text d ∧ c.pos ≤ d.pos ∧ d.pos ≤ text.length) ∧
      (∀ c d ch before p, c.peek = some ch → endsTerm ch = false →
        plain (item g c ch before) = .ok (p, d) → c.pos < d.pos) ∧
      (∀ c d x, nextLiteral g c = .ok x d → c.pos < d.pos) ∧
      (∀ e c ask, (∀ e' c', Calls g (e, c) (e', c') → ask e' c' = answer (enter g e' c')) →
        work g ask e c = answer (enter g e c)) ∧
      (∀ c d, Relation.TransGen (Calls g) (.regex, c) (.regex, d) → c.pos < d.pos) ∧
      ∀ raw p, Pattern.parseWith g raw = .ok p → ∃ text d, NormalForm.normalize g raw = .ok text ∧
        enter g .regex (.start text) = .ok (p, d) ∧ Within text d ∧ d.pos = text.length := by
  refine ⟨fun text e c hc => ⟨fun n hn => descend_eq ?_, fun v d h => ?_⟩,
    fun c d ch before p hp hs h => ?_, fun c d x h => ?_, fun e c ask h => work_eq h,
    fun c d h => calls_regex_lt h, fun raw p h => ?_⟩
  · have hlen := hc.length_eq
    have hrank := e.rank_le
    show 6 * c.rest.length + e.rank < n
    omega
  · obtain ⟨u, hu⟩ := exists_takes_of_enter h
    have hd := hc.step hu
    exact ⟨hd, by rw [hu.2]; exact Nat.le_add_right _ _, hd.pos_le⟩
  · obtain ⟨u, hu, hne⟩ := item_forward hp hs h
    exact hu.pos_lt hne
  · obtain ⟨u, hu, hne⟩ := nextLiteral_forward h
    exact hu.pos_lt hne
  · rw [Pattern.parseWith] at h
    split at h
    · cases h
    · next text hn =>
      obtain ⟨d, hd⟩ := exists_end_of_parseNormal h
      exact ⟨text, d, hn, hd⟩

/-- A dialect whose sentinel is an operator too: behind a base it is the mark of a repetition, and
behind such a mark it is a gap. -/
def overlapping : Dialect := Dialect.standard.withSentinel '+'

/-- The descent through `(a*+b)`, from where its group is entered. -/
theorem descent_progress_overlapping :
    Pattern.parseWith overlapping ['(', 'a', '*', '.', '*', 'b', ')'] =
        .ok (.gap (.repetition (.literal ['a']) .zeroOrMore) (.literal ['b'])) ∧
      (∃ text d, NormalForm.normalize overlapping ['(', 'a', '*', '.', '*', 'b', ')'] = .ok text ∧
        Within text d ∧ d.pos = text.length) ∧
      Within ['(', 'a', '*', '+', 'b', ')'] ⟨1, ['a', '*', '+', 'b', ')']⟩ ∧
      descend overlapping 36 .regex ⟨1, ['a', '*', '+', 'b', ')']⟩ =
        answer (enter overlapping .regex ⟨1, ['a', '*', '+', 'b', ')']⟩) ∧
      enter overlapping .regex ⟨1, ['a', '*', '+', 'b', ')']⟩ =
        .ok (.gap (.repetition (.literal ['a']) .zeroOrMore) (.literal ['b']), ⟨5, [')']⟩) ∧
      Within ['(', 'a', '*', '+', 'b', ')'] ⟨5, [')']⟩ ∧
      plain (item overlapping ⟨3, ['+', 'b', ')']⟩ '+' (.literal ['a'])) =
        .ok (.gap (.literal ['a']) (.literal ['b']), ⟨5, [')']⟩) ∧ 3 < 5 ∧
      nextLiteral overlapping ⟨4, ['b', ')']⟩ = .ok ⟨'b', false⟩ ⟨5, [')']⟩ ∧ 4 < 5 ∧
      work overlapping (fun e c => answer (enter overlapping e c)) .factor ⟨4, ['b', ')']⟩ =
        answer (enter overlapping .factor ⟨4, ['b', ')']⟩) ∧
      Relation.TransGen (Calls overlapping) (.regex, ⟨0, ['(', 'a', '*', '+', 'b', ')']⟩)
        (.regex, ⟨1, ['a', '*', '+', 'b', ')']⟩) ∧ 0 < 1 := by
  obtain ⟨hdepth, hitem, hliteral, hwork, hnested, hend⟩ := descent_progress overlapping
  have hparse : Pattern.parseWith overlapping ['(', 'a', '*', '.', '*', 'b', ')'] =
      .ok (.gap (.repetition (.literal ['a']) .zeroOrMore) (.literal ['b'])) := by decide +kernel
  have hin : Within ['(', 'a', '*', '+', 'b', ')'] ⟨1, ['a', '*', '+', 'b', ')']⟩ :=
    ⟨['('], rfl, rfl⟩
  have hgroup : plain (regex overlapping ⟨1, ['a', '*', '+', 'b', ')']⟩) =
      .ok (.gap (.repetition (.literal ['a']) .zeroOrMore) (.literal ['b']), ⟨5, [')']⟩) := by
    decide +kernel
  have hgap : plain (item overlapping ⟨3, ['+', 'b', ')']⟩ '+' (.literal ['a'])) =
      .ok (.gap (.literal ['a']) (.literal ['b']), ⟨5, [')']⟩) := by decide +kernel
  have hb : nextLiteral overlapping ⟨4, ['b', ')']⟩ = .ok ⟨'b', false⟩ ⟨5, [')']⟩ := rfl
  have hcalls : Relation.TransGen (Calls overlapping)
      (.regex, ⟨0, ['(', 'a', '*', '+', 'b', ')']⟩) (.regex, ⟨1, ['a', '*', '+', 'b', ')']⟩) :=
    .tail (.tail (.tail (.single (.firstTerm _)) (.join rfl (by decide) (by decide) (by decide)))
      (.base _)) (.group rfl)
  obtain ⟨hsame, hplace⟩ := hdepth _ .regex _ hin
  obtain ⟨text, d, hn, -, hd, hpos⟩ := hend _ _ hparse
  exact ⟨hparse, ⟨text, d, hn, hd, hpos⟩, hin, hsame 36 (by decide), hgroup,
    (hplace _ _ hgroup).1, hgap, hitem _ _ _ _ _ rfl (by decide) hgap, hb, hliteral _ _ _ hb,
    hwork _ _ _ fun _ _ _ => rfl, hcalls, hnested _ _ hcalls⟩

end GapRegex.Parser
