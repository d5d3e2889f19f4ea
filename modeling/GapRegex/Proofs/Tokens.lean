import Mathlib.Control.Monad.Basic
import GapRegex.Proofs.Reads

/-!
# Tokens — nothing is lost, doubled or moved

The text of an expression and the tree that is read from it are compared as lists of tokens.  `lex`
cuts a normal text of the standard dialect into tokens from left to right and knows nothing of its
structure; parentheses are no tokens.  `Pattern.tokens` lists those of a tree in order.
* `Reads.tokens_eq`: a production turns the text it takes into a tree with the same tokens;
* `tokens_of_parse`: so the tokens of a tree are those of the text it was read from.
-/

namespace GapRegex

inductive Token where
  | lit (c : Char)
  | gap
  | alt
  | charClass (members : CharSet) (repeated : Bool)
  | rep (times : Repetition)
  deriving DecidableEq

/-- The tokens of a tree in order. -/
def Pattern.tokens : Pattern → List Token
  | blank => []
  | literal text => text.map .lit
  | concat left right => left.tokens ++ right.tokens
  | union left right => left.tokens ++ .alt :: right.tokens
  | repetition inner times => inner.tokens ++ [.rep times]
  | gap before after => before.tokens ++ .gap :: after.tokens
  | charClass before after members repeated =>
    before.tokens ++ .charClass members repeated :: after.tokens

theorem Pattern.tokens_ofText (text : List Char) : (ofText text).tokens = text.map .lit := by
  cases text <;> rfl

theorem Pattern.tokens_append (p q : Pattern) : (p.append q).tokens = p.tokens ++ q.tokens := by
  rcases append_cases p q with ⟨rfl, h⟩ | ⟨rfl, h⟩ | ⟨s, t, rfl, rfl, h⟩ | ⟨-, -, -, h⟩
  · rw [h]
    rfl
  · rw [h]
    exact (List.append_nil _).symm
  · rw [h]
    exact List.map_append
  · rw [h]
    rfl

namespace Token

/-! ### Cutting a text into tokens -/

/-- The body of a class up to the first bracket that no escape stands before, and what follows the
bracket. -/
def closing : List Char → Option (List Literal × List Char)
  | [] => none
  | [c] => if c = ']' then some ([], []) else none
  | c :: d :: s =>
    if c = ']' then some ([], d :: s)
    else if c = '\\' then (closing s).map fun r => (⟨d, true⟩ :: r.1, r.2)
    else (closing (d :: s)).map fun r => (⟨c, false⟩ :: r.1, r.2)

/-- Whether a mark for several members comes next, and what follows it. -/
def classMark : List Char → Bool × List Char
  | [] => (false, [])
  | c :: s => if c = '+' ∨ c = '*' then (true, s) else (false, c :: s)

/-- The bounds of a counted repetition up to the closing brace, and what follows it. -/
def bounds (s : List Char) : Option (Repetition × List Char) :=
  let least := s.takeWhile Char.isDigit
  match s.dropWhile Char.isDigit with
  | ',' :: t =>
    let greatest := t.takeWhile Char.isDigit
    match t.dropWhile Char.isDigit with
    | '}' :: u =>
      if least = [] ∨ greatest = [] then none
      else some (.between (Nat.ofDigitChars 10 least 0) (Nat.ofDigitChars 10 greatest 0), u)
    | _ => none
  | _ => none

/-- The token that begins with `c`, if `c` begins one, and what follows it. -/
def first (c : Char) (s : List Char) : Option Token × List Char :=
  if c = '\\' then
    match s with
    | [] => (some (.lit c), [])
    | d :: s => (some (.lit d), s)
  else if c = '@' then (some .gap, s)
  else if c = '|' then (some .alt, s)
  else if c = '[' then
    match closing s with
    | none => (some (.lit c), s)
    | some (body, t) => (some (.charClass (.ofClass body) (classMark t).1), (classMark t).2)
  else if c = '*' then (some (.rep .zeroOrMore), s)
  else if c = '+' then (some (.rep .oneOrMore), s)
  else if c = '{' then
    match bounds s with
    | none => (some (.lit c), s)
    | some (times, t) => (some (.rep times), t)
  else if c = '(' ∨ c = ')' then (none, s)
  else (some (.lit c), s)

theorem closing_length {s : List Char} {body : List Literal} {t : List Char}
    (h : closing s = some (body, t)) : t.length ≤ s.length := by
  fun_induction closing s generalizing body t with
  | case1 => cases h
  | case2 => cases h; simp
  | case3 => cases h
  | case4 => cases h; simp
  | case5 d s hc ih =>
    obtain ⟨⟨body', t'⟩, hs, heq⟩ := Option.map_eq_some_iff.mp h
    cases heq
    have := ih hs
    simp only [List.length_cons]
    omega
  | case6 c d s hc he ih =>
    obtain ⟨⟨body', t'⟩, hs, heq⟩ := Option.map_eq_some_iff.mp h
    cases heq
    have := ih hs
    simp only [List.length_cons] at this ⊢
    omega

theorem classMark_length (s : List Char) : (classMark s).2.length ≤ s.length := by
  unfold classMark
  split
  · simp
  · split <;> simp

theorem bounds_length {s : List Char} {times : Repetition} {t : List Char}
    (h : bounds s = some (times, t)) : t.length ≤ s.length := by
  unfold bounds at h
  dsimp only at h
  split at h
  · rename_i u hu
    split at h
    · rename_i v hv
      split at h
      · cases h
      · cases h
        have h₁ := (List.dropWhile_suffix (l := s) Char.isDigit).length_le
        have h₂ := (List.dropWhile_suffix (l := u) Char.isDigit).length_le
        rw [hu, List.length_cons] at h₁
        rw [hv, List.length_cons] at h₂
        omega
    · cases h
  · cases h

theorem first_length (c : Char) (s : List Char) : (first c s).2.length ≤ s.length := by
  unfold first
  split
  · cases s <;> simp
  iterate 2
    split
    · exact Nat.le_refl _
  split
  · split
    · exact Nat.le_refl _
    · rename_i h
      exact Nat.le_trans (classMark_length _) (closing_length h)
  iterate 2
    split
    · exact Nat.le_refl _
  split
  · split
    · exact Nat.le_refl _
    · exact bounds_length ‹_›
  · split
    · exact Nat.le_refl _
    · exact Nat.le_refl _

/-- The tokens of a normal text. -/
def lex : List Char → List Token
  | [] => []
  | c :: s => (first c s).1.toList ++ lex (first c s).2
termination_by s => s.length
decreasing_by
  have := first_length c s
  simp only [List.length_cons]
  omega

/-! ### One equation for each kind of token -/

theorem lex_nil : lex [] = [] := by rw [lex]

theorem lex_cons (c : Char) (s : List Char) :
    lex (c :: s) = (first c s).1.toList ++ lex (first c s).2 := by rw [lex]

theorem lex_gap (s : List Char) : lex ('@' :: s) = .gap :: lex s := by
  rw [lex_cons]
  rfl

theorem lex_alt (s : List Char) : lex ('|' :: s) = .alt :: lex s := by
  rw [lex_cons]
  rfl

theorem lex_open (s : List Char) : lex ('(' :: s) = lex s := by
  rw [lex_cons]
  rfl

theorem lex_close (s : List Char) : lex (')' :: s) = lex s := by
  rw [lex_cons]
  rfl

theorem lex_literal {x : Literal} (h : x.Readable .standard Dialect.standard.isReserved)
    (s : List Char) : lex (x.text .standard ++ s) = .lit x.char :: lex s := by
  obtain ⟨c, escaped⟩ := x
  cases escaped with
  | true =>
    show lex ('\\' :: c :: s) = _
    rw [lex_cons]
    rfl
  | false =>
    obtain ⟨hr, he⟩ : Dialect.standard.isReserved c = false ∧ c ≠ '\\' := h
    show lex (c :: s) = _
    have hfirst : first c s = (some (.lit c), s) := by
      obtain ⟨hs, ho⟩ := Dialect.isReserved_eq_false.mp hr
      have hs : c ≠ '@' := hs
      simp only [operators, List.mem_cons, List.not_mem_nil, or_false, not_or] at ho
      obtain ⟨h₁, h₂, h₃, -, h₅, -, h₇, h₈, h₉⟩ := ho
      simp [first, he, hs, h₁, h₂, h₃, h₅, h₇, h₈, h₉]
    rw [lex_cons, hfirst]
    rfl

theorem lex_run {xs : List Literal}
    (h : ∀ x ∈ xs, x.Readable .standard Dialect.standard.isReserved) (s : List Char) :
    lex (Literal.run .standard xs ++ s) = xs.map (fun x => .lit x.char) ++ lex s := by
  induction xs with
  | nil => rfl
  | cons x xs ih =>
    obtain ⟨hx, hxs⟩ := List.forall_mem_cons.mp h
    rw [Literal.run_cons, List.append_assoc, lex_literal hx, ih hxs]
    rfl

theorem closing_run {body : List Literal} (h : ∀ x ∈ body, x.Readable .standard (· == ']'))
    (s : List Char) : closing (Literal.run .standard body ++ ']' :: s) = some (body, s) := by
  induction body with
  | nil => cases s <;> simp [closing]
  | cons x body ih =>
    obtain ⟨hx, hbody⟩ := List.forall_mem_cons.mp h
    obtain ⟨c, escaped⟩ := x
    cases escaped with
    | true =>
      show closing ('\\' :: c :: (Literal.run .standard body ++ ']' :: s)) = _
      rw [closing, ih hbody]
      rfl
    | false =>
      obtain ⟨hc, he⟩ : (c == ']') = false ∧ c ≠ '\\' := hx
      obtain ⟨d, u, hu⟩ := List.exists_cons_of_ne_nil
        (List.append_ne_nil_of_right_ne_nil (Literal.run .standard body)
          (List.cons_ne_nil ']' s))
      show closing (c :: (Literal.run .standard body ++ ']' :: s)) = _
      rw [hu, closing, if_neg (by simpa using hc), if_neg he, ← hu, ih hbody]
      rfl

theorem classMark_eq {mark s : List Char} {repeated : Bool} (h : ClassMark mark repeated s) :
    classMark (mark ++ s) = (repeated, s) := by
  cases h with
  | plus => rfl
  | star => rfl
  | none h =>
    cases s with
    | nil => rfl
    | cons c s =>
      have hc : ¬ (c = '+' ∨ c = '*') := by simpa using h
      simp [classMark, hc]

theorem lex_class {body : List Literal} {mark s : List Char} {repeated : Bool}
    (hb : ∀ x ∈ body, x.Readable .standard (· == ']')) (hm : ClassMark mark repeated s) :
    lex ('[' :: (Literal.run .standard body ++ ']' :: mark ++ s)) =
      .charClass (.ofClass body) repeated :: lex s := by
  have hfirst : first '[' (Literal.run .standard body ++ ']' :: (mark ++ s)) =
      (some (.charClass (.ofClass body) repeated), s) := by
    simp [first, closing_run hb, classMark_eq hm]
  rw [List.append_assoc, List.cons_append, lex_cons, hfirst]
  rfl

theorem bounds_eq {ds es : List Char} {m n : Nat} (hm : IsNumber ds m) (hn : IsNumber es n)
    (s : List Char) :
    bounds (ds ++ ',' :: (es ++ '}' :: s)) = some (.between m n, s) := by
  obtain ⟨hd, hds, rfl⟩ := hm
  obtain ⟨he, hes, rfl⟩ := hn
  have hcomma : Stops (fun c => !c.isDigit) (',' :: (es ++ '}' :: s)) := stops_cons.mpr rfl
  have hbrace : Stops (fun c => !c.isDigit) ('}' :: s) := stops_cons.mpr rfl
  obtain ⟨h₁, h₂⟩ := Scan.takeWhile_digits hds hcomma
  obtain ⟨h₃, h₄⟩ := Scan.takeWhile_digits hes hbrace
  simp [bounds, h₁, h₂, h₃, h₄, hd, he]

theorem lex_mark {mark : List Char} {times : Repetition} (h : Mark mark times) (s : List Char) :
    lex (mark ++ s) = .rep times :: lex s := by
  cases h with
  | zeroOrMore =>
    show lex ('*' :: s) = _
    rw [lex_cons]
    rfl
  | oneOrMore =>
    show lex ('+' :: s) = _
    rw [lex_cons]
    rfl
  | @between ds es m n hm hn hle hlt =>
    have hfirst : first '{' (ds ++ ',' :: (es ++ '}' :: s)) =
        (some (.rep (.between m n)), s) := by
      simp [first, bounds_eq hm hn]
    rw [boundsText_append, lex_cons, hfirst]
    rfl

end Token

/-! ### Every production keeps the tokens -/

namespace Parser

open Token

/-- The term so far and the text that is read have the tokens of the tree and of the text that is
left. -/
theorem Reads.tokens_eq {part : Part} {s t : List Char} {p : Pattern}
    (h : Reads .standard part s p t) : part.before.tokens ++ lex s = p.tokens ++ lex t := by
  induction h with
  | single _ _ ih => exact ih
  | @union s t u p q _ _ _ _ ih ih' =>
    have hs : lex s = p.tokens ++ .alt :: lex t := by rw [← lex_alt]; exact ih
    have ht : lex t = q.tokens ++ lex u := ih'
    show lex s = (p.tokens ++ .alt :: q.tokens) ++ lex u
    rw [hs, ht, List.append_assoc, List.cons_append]
  | stop _ => rfl
  | @gap s t u before after p _ _ _ _ _ ih ih' =>
    have hs : lex s = after.tokens ++ lex t := ih
    rw [← ih']
    show before.tokens ++ lex ('@' :: s) = (before.tokens ++ .gap :: after.tokens) ++ lex t
    rw [lex_gap, hs, List.append_assoc, List.cons_append]
  | @charClass body mark s t u repeated before after p _ hb hm _ _ ih ih' =>
    have hs : lex s = after.tokens ++ lex t := ih
    rw [← ih', lex_class hb hm, hs]
    show _ = (before.tokens ++ .charClass (.ofClass body) repeated :: after.tokens) ++ lex t
    rw [List.append_assoc, List.cons_append]
    rfl
  | @join c s t u before q p _ _ _ _ _ _ ih ih' =>
    have hs : lex (c :: s) = q.tokens ++ lex t := ih
    rw [← ih', hs]
    show _ = (before.append q).tokens ++ lex t
    rw [Pattern.tokens_append, List.append_assoc]
    rfl
  | bare _ _ ih => exact ih
  | @repeated s mark t p times _ _ hm ih =>
    have hs : lex s = p.tokens ++ .rep times :: lex t := by rw [← lex_mark hm]; exact ih
    show lex s = (p.tokens ++ [.rep times]) ++ lex t
    rw [hs, List.append_assoc]
    rfl
  | @group s t p _ ih =>
    have hs : lex s = p.tokens ++ lex t := by rw [← lex_close t]; exact ih
    show lex ('(' :: s) = p.tokens ++ lex t
    rw [lex_open, hs]
  | @run xs t _ hx _ =>
    show lex (Literal.run .standard xs ++ t) =
      (Pattern.ofText (xs.map Literal.char)).tokens ++ lex t
    rw [lex_run hx, Pattern.tokens_ofText, List.map_map]
    rfl

/-- The tree of an expression has the tokens of its normal text, in the same order. -/
theorem tokens_of_parse {raw : List Char} {t : Pattern} (h : Pattern.parse raw = .ok t) :
    ∃ text, NormalForm.normalize .standard raw = .ok text ∧ t.tokens = lex text := by
  obtain ⟨text, htext, hr, -⟩ := parseWith_iff.mp h
  refine ⟨text, htext, ?_⟩
  have := hr.tokens_eq
  rw [lex_nil, List.append_nil] at this
  exact this.symm

/-- Gaps at both ends, a group in which a class is repeated, and an escaped gap marker. -/
theorem tokens_of_parse_outer_gaps :
    ∃ t text, Pattern.parse ['.', '*', 'a', '(', '[', 'x', '-', 'z', ']', '+', ')', '*', '|', '\\',
        '@', '.', '*'] = .ok t ∧
      NormalForm.normalize .standard ['.', '*', 'a', '(', '[', 'x', '-', 'z', ']', '+', ')', '*',
        '|', '\\', '@', '.', '*'] = .ok text ∧ t.tokens = lex text := by
  have h : Pattern.parse ['.', '*', 'a', '(', '[', 'x', '-', 'z', ']', '+', ')', '*', '|', '\\',
      '@', '.', '*'] = .ok (.union (.concat (.literal ['a']) (.repetition (.charClass .blank .blank
        (.ofList ['x', 'y', 'z']) true) .zeroOrMore)) (.literal ['@'])) := by
    decide +kernel
  obtain ⟨text, htext, ht⟩ := tokens_of_parse h
  exact ⟨_, text, h, htext, ht⟩

end Parser

end GapRegex
