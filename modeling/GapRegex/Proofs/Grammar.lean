import Mathlib.Control.Monad.Basic
import GapRegex.Proofs.Reads

/-!
# Grammar — the syntax of normal text, and that the reader accepts just it

`Derives g sym s rest p`: where `rest` follows, the syntax derives the text `s` from the symbol
`sym` with the value `p`.  A rule says nothing about the order in which a reader tries things; what
follows matters in one place only, the end of a run of literals, which is as long as it can be.
* `derives_of_reads`: what the reader takes is derived;
* `Derives.agrees`: what is derived, the reader takes, if what follows does not go on with it;
* `parse_iff_derives`: so a text has the tree that the syntax gives it, and no other.

Both need a dialect whose sentinel and escape are different from each other and from the operators
(`Dialect.Apart`).
-/

namespace GapRegex

/-- No character has two roles. -/
structure Dialect.Apart (g : Dialect) : Prop where
  sentinel_ne_escape : g.sentinel ≠ g.escape
  sentinel_notMem : g.sentinel ∉ operators
  escape_notMem : g.escape ∉ operators

theorem Dialect.apart_standard : Dialect.standard.Apart := ⟨by decide, by decide, by decide⟩

namespace Grammar

open GapRegex.Parser

/-- What the syntax has a name for.  A term and an item of it stand after the term `before`. -/
inductive Symbol where
  | regex
  | term (before : Pattern)
  | item (before : Pattern)
  | factor
  | base

/-- A character that is neither reserved nor the escape, or any character after the escape. -/
def IsLiteral (g : Dialect) (x : Literal) : Prop :=
  x.escaped = true ∨ g.isReserved x.char = false ∧ x.char ≠ g.escape

/-- In a class only the closing bracket and the escape are not free. -/
def IsMember (g : Dialect) (x : Literal) : Prop :=
  x.escaped = true ∨ x.char ≠ ']' ∧ x.char ≠ g.escape

/-- The syntax.  A base takes all that it can: no literal follows a run, and no parenthesis an
empty one. -/
inductive Derives (g : Dialect) : Symbol → List Char → List Char → Pattern → Prop
  | single {s rest : List Char} {p : Pattern} (hp : Derives g (.term .blank) s rest p) :
      Derives g .regex s rest p
  | union {s t rest : List Char} {p q : Pattern}
      (hp : Derives g (.term .blank) s ('|' :: t ++ rest) p) (hq : Derives g .regex t rest q)
      (hp' : p ≠ .blank) (hq' : q ≠ .blank) :
      Derives g .regex (s ++ '|' :: t) rest (.union p q)
  | nil {rest : List Char} {p : Pattern} : Derives g (.term p) [] rest p
  | cons {s t rest : List Char} {before p q : Pattern}
      (hi : Derives g (.item before) s (t ++ rest) p) (ht : Derives g (.term p) t rest q) :
      Derives g (.term before) (s ++ t) rest q
  | gap {s rest : List Char} {before after : Pattern} (hf : Derives g .factor s rest after)
      (hb : before ≠ .blank) (ha : after ≠ .blank) :
      Derives g (.item before) (g.sentinel :: s) rest (.gap before after)
  | charClass {body : List Literal} {mark s rest : List Char} {before after : Pattern}
      (hb : ∀ x ∈ body, IsMember g x) (hm : mark = [] ∨ mark = ['+'] ∨ mark = ['*'])
      (hf : Derives g .factor s rest after) :
      Derives g (.item before) ('[' :: Literal.run g body ++ ']' :: mark ++ s) rest
        (.charClass before after (.ofClass body) !mark.isEmpty)
  | join {s rest : List Char} {before p : Pattern} (hf : Derives g .factor s rest p)
      (hs : s ≠ []) : Derives g (.item before) s rest (before.append p)
  | bare {s rest : List Char} {p : Pattern} (hp : Derives g .base s rest p) :
      Derives g .factor s rest p
  | repeated {s mark rest : List Char} {p : Pattern} {times : Repetition}
      (hp : Derives g .base s (mark ++ rest) p) (hp' : p ≠ .blank) (hm : Mark mark times) :
      Derives g .factor (s ++ mark) rest (.repetition p times)
  | group {s rest : List Char} {p : Pattern} (hp : Derives g .regex s (')' :: rest) p) :
      Derives g .base ('(' :: s ++ [')']) rest p
  | literals {xs : List Literal} {rest : List Char} (hx : ∀ x ∈ xs, IsLiteral g x)
      (hmax : ∀ x, IsLiteral g x → ¬ x.text g <+: rest)
      (hopen : xs = [] → rest.head? ≠ some '(') :
      Derives g .base (Literal.run g xs) rest (.ofText (xs.map Literal.char))

/-! ### What the reader takes is derived -/

section Sound

variable {g : Dialect}

theorem isLiteral_of_readable {x : Literal} (h : x.Readable g g.isReserved) : IsLiteral g x := by
  obtain ⟨ch, escaped⟩ := x
  cases escaped with
  | true => exact Or.inl rfl
  | false => exact Or.inr (by simpa [Literal.Readable] using h)

theorem isMember_of_readable {x : Literal} (h : x.Readable g (· == ']')) : IsMember g x := by
  obtain ⟨ch, escaped⟩ := x
  cases escaped with
  | true => exact Or.inl rfl
  | false => exact Or.inr (by simpa [Literal.Readable] using h)

theorem not_reserved_escape (hg : g.Apart) : g.isReserved g.escape = false :=
  Dialect.isReserved_eq_false.mpr ⟨hg.sentinel_ne_escape.symm, hg.escape_notMem⟩

/-- No literal starts with a reserved character. -/
theorem not_literal_of_stops (hg : g.Apart) {rest : List Char} (h : Stops g.isReserved rest)
    (x : Literal) (hx : IsLiteral g x) : ¬ x.text g <+: rest := by
  rintro ⟨u, rfl⟩
  obtain ⟨ch, escaped⟩ := x
  cases escaped with
  | true =>
    have := not_reserved_escape hg
    simp_all [Literal.text]
  | false =>
    rcases hx with hx | hx
    · cases hx
    · simp_all [Literal.text]

/-- The symbol that a production reads. -/
def symbolOf : Part → Symbol
  | .regex => .regex
  | .term before => .term before
  | .factor => .factor
  | .base => .base

theorem derives_of_reads (hg : g.Apart) {part : Part} {s t : List Char} {p : Pattern}
    (h : Reads g part s p t) : ∃ u, s = u ++ t ∧ Derives g (symbolOf part) u t p := by
  induction h with
  | single hp ht ih =>
    obtain ⟨u, rfl, hu⟩ := ih
    exact ⟨u, rfl, .single hu⟩
  | union hp hp' hq hq' ih ih' =>
    obtain ⟨u, rfl, hu⟩ := ih
    obtain ⟨v, rfl, hv⟩ := ih'
    exact ⟨u ++ '|' :: v, by simp, .union hu hv hp' hq'⟩
  | stop hs => exact ⟨[], rfl, .nil⟩
  | gap hs hb ha ha' hp ih ih' =>
    obtain ⟨u, rfl, hu⟩ := ih
    obtain ⟨v, rfl, hv⟩ := ih'
    exact ⟨g.sentinel :: u ++ v, by simp, .cons (.gap hu hb ha') hv⟩
  | @charClass body mark s t w repeated before after p hs hb hm ha hp ih ih' =>
    obtain ⟨u, rfl, hu⟩ := ih
    obtain ⟨v, rfl, hv⟩ := ih'
    have hm' : (mark = [] ∨ mark = ['+'] ∨ mark = ['*']) ∧ repeated = !mark.isEmpty := by
      cases hm <;> simp
    obtain ⟨hm', rfl⟩ := hm'
    have hb' : ∀ x ∈ body, IsMember g x := fun x hx => isMember_of_readable (hb x hx)
    exact ⟨('[' :: Literal.run g body ++ ']' :: mark ++ u) ++ v, by simp,
      .cons (.charClass hb' hm' hu) hv⟩
  | join hs hg' hb hq ht hp ih ih' =>
    obtain ⟨u, hu, hu'⟩ := ih
    obtain ⟨v, rfl, hv⟩ := ih'
    have hne : u ≠ [] := by
      rintro rfl
      exact ht hu.symm
    exact ⟨u ++ v, by rw [hu, List.append_assoc], .cons (.join hu' hne) hv⟩
  | bare hp ht ih =>
    obtain ⟨u, rfl, hu⟩ := ih
    exact ⟨u, rfl, .bare hu⟩
  | @repeated s mark t p times hp hp' hm ih =>
    obtain ⟨u, rfl, hu⟩ := ih
    exact ⟨u ++ mark, by simp, .repeated hu hp' hm⟩
  | group hp ih =>
    obtain ⟨u, rfl, hu⟩ := ih
    exact ⟨'(' :: u ++ [')'], by simp, .group hu⟩
  | @run xs t hs hx ht =>
    refine ⟨Literal.run g xs, rfl, .literals (fun x hx' => isLiteral_of_readable (hx x hx'))
      (not_literal_of_stops hg ht) ?_⟩
    rintro rfl
    exact hs

end Sound

/-! ### How a derived text begins -/

section Begin

variable {g : Dialect} {s rest : List Char} {p before : Pattern}

/-- The text begins as a base does that is not empty. -/
def Opens (g : Dialect) (s : List Char) : Prop :=
  (∃ u, s = '(' :: u) ∨ ∃ x, IsLiteral g x ∧ x.text g <+: s

theorem Opens.append (h : Opens g s) (rest : List Char) : Opens g (s ++ rest) := by
  rcases h with ⟨u, rfl⟩ | ⟨x, hx, hs⟩
  · exact Or.inl ⟨u ++ rest, rfl⟩
  · exact Or.inr ⟨x, hx, hs.trans (List.prefix_append _ _)⟩

theorem base_opens (h : Derives g .base s rest p) : s = [] ∧ p = .blank ∨ Opens g s := by
  cases h with
  | group hp => exact Or.inr (Or.inl ⟨_, rfl⟩)
  | @literals xs _ hx hmax hopen =>
    cases xs with
    | nil => exact Or.inl ⟨rfl, rfl⟩
    | cons x xs => exact Or.inr (Or.inr ⟨x, hx x (by simp), List.prefix_append _ _⟩)

theorem factor_opens (h : Derives g .factor s rest p) : s = [] ∨ Opens g s := by
  cases h with
  | bare hp => exact (base_opens hp).imp And.left id
  | repeated hp hp' hm =>
    rcases base_opens hp with ⟨-, hb⟩ | hs
    · exact absurd hb hp'
    · exact Or.inr (hs.append _)

/-- An item begins with its sentinel, its bracket or the base that it starts with. -/
theorem item_begins (h : Derives g (.item before) s rest p) :
    (∃ u, s = g.sentinel :: u) ∨ (∃ u, s = '[' :: u) ∨ Opens g s := by
  cases h with
  | gap hf hb ha => exact Or.inl ⟨_, rfl⟩
  | charClass hb hm hf => exact Or.inr (Or.inl ⟨_, rfl⟩)
  | join hf hs =>
    rcases factor_opens hf with h | h
    · exact absurd h hs
    · exact Or.inr (Or.inr h)

end Begin

/-! ### What is derived the reader takes -/

section Complete

variable {g : Dialect} {s rest : List Char} {p before : Pattern}

/-- What can stand after an item: no mark of a repetition, and no escape that is left alone. -/
def Follows (g : Dialect) (rest : List Char) : Prop :=
  Stops (fun c => !startsRepetition c) rest ∧ rest ≠ [g.escape]

theorem follows_cons {c : Char} {u : List Char} (hc : startsRepetition c = false)
    (h : c = g.escape → u ≠ []) : Follows g (c :: u) := by
  refine ⟨by simpa using hc, fun heq => ?_⟩
  cases heq
  exact h rfl rfl

theorem follows_operator (hg : g.Apart) {c : Char} {u : List Char} (hc : c ∈ operators)
    (h : startsRepetition c = false) : Follows g (c :: u) :=
  follows_cons h fun heq => absurd (heq ▸ hc) hg.escape_notMem

/-- A literal begins with a character that is free, or with the escape and one more. -/
theorem literal_begins (hg : g.Apart) {x : Literal} (hx : IsLiteral g x) :
    ∃ c u, x.text g = c :: u ∧ c ∉ operators ∧ c ≠ g.sentinel ∧ (c = g.escape → u ≠ []) := by
  obtain ⟨ch, escaped⟩ := x
  cases escaped with
  | true => exact ⟨g.escape, [ch], rfl, hg.escape_notMem, hg.sentinel_ne_escape.symm, nofun⟩
  | false =>
    rcases hx with hx | ⟨hr, hne⟩
    · cases hx
    · obtain ⟨hs, ho⟩ := Dialect.isReserved_eq_false.mp hr
      exact ⟨ch, [], rfl, ho, hs, fun h => absurd h hne⟩

theorem follows_of_opens (hg : g.Apart) (h : Opens g s) : Follows g s := by
  rcases h with ⟨u, rfl⟩ | ⟨x, hx, u, rfl⟩
  · exact follows_operator hg (by decide) rfl
  · obtain ⟨c, v, hv, hc, -, he⟩ := literal_begins hg hx
    rw [hv]
    exact follows_cons (not_startsRepetition hc) fun heq => by simp [he heq]

/-- A base that is not empty is read as one. -/
theorem head_of_opens (hg : g.Apart) (h : Opens g s) :
    ∃ c u, s = c :: u ∧ endsTerm c = false ∧ c ≠ g.sentinel ∧ c ≠ '[' := by
  rcases h with ⟨u, rfl⟩ | ⟨x, hx, u, rfl⟩
  · refine ⟨'(', u, rfl, rfl, fun h => ?_, by decide⟩
    exact absurd (h ▸ by decide) hg.sentinel_notMem
  · obtain ⟨c, v, hv, hc, hs, -⟩ := literal_begins hg hx
    refine ⟨c, v ++ u, by rw [hv]; rfl, not_endsTerm hc, hs, ?_⟩
    rintro rfl
    exact hc (by decide)

theorem follows_item (hg : g.Apart) (h : Derives g (.item before) s rest p) (t : List Char) :
    Follows g (s ++ t) := by
  rcases item_begins h with ⟨u, rfl⟩ | ⟨u, rfl⟩ | h
  · exact follows_cons (not_startsRepetition hg.sentinel_notMem)
      fun heq => absurd heq hg.sentinel_ne_escape
  · exact follows_operator hg (by decide) rfl
  · exact follows_of_opens hg (h.append t)

/-- After an item comes another one, or what ends the term. -/
theorem follows_term (hg : g.Apart) (h : Derives g (.term before) s rest p)
    (hr : Stops endsTerm rest) : Follows g (s ++ rest) := by
  cases h with
  | nil =>
    cases rest with
    | nil => exact ⟨stops_nil _, nofun⟩
    | cons c u =>
      have hc : c = ')' ∨ c = '|' := by simpa [endsTerm] using hr
      rcases hc with rfl | rfl
      · exact follows_operator hg (by decide) rfl
      · exact follows_operator hg (by decide) rfl
  | cons hi ht =>
    rw [List.append_assoc]
    exact follows_item hg hi _

theorem readable_of_isLiteral (hg : g.Apart) {x : Literal} (h : IsLiteral g x) :
    x.Readable g g.isReserved := by
  obtain ⟨ch, escaped⟩ := x
  cases escaped with
  | true => exact not_reserved_escape hg
  | false =>
    rcases h with h | h
    · cases h
    · exact h

theorem readable_of_isMember (he : g.escape ≠ ']') {x : Literal} (h : IsMember g x) :
    x.Readable g (· == ']') := by
  obtain ⟨ch, escaped⟩ := x
  cases escaped with
  | true => simpa [Literal.Readable] using he
  | false =>
    rcases h with h | h
    · cases h
    · simpa [Literal.Readable] using h

/-- Where no literal goes on, there is nothing left or a reserved character. -/
theorem stops_of_maximal (hmax : ∀ x, IsLiteral g x → ¬ x.text g <+: rest)
    (hr : rest ≠ [g.escape]) : Stops g.isReserved rest := by
  cases rest with
  | nil => exact stops_nil _
  | cons c u =>
    rw [stops_cons]
    by_cases hc : g.isReserved c = true
    · exact hc
    · exfalso
      by_cases he : c = g.escape
      · subst he
        cases u with
        | nil => exact hr rfl
        | cons d u => exact hmax ⟨d, true⟩ (Or.inl rfl) ⟨u, rfl⟩
      · exact hmax ⟨c, false⟩ (Or.inr ⟨Bool.eq_false_iff.mpr hc, he⟩) ⟨u, rfl⟩

/-- What it takes for the reader to agree with the syntax on a text: nothing that follows goes on
with it. -/
def Agrees (g : Dialect) : Symbol → List Char → List Char → Pattern → Prop
  | .regex, s, rest, p => Stops (· == ')') rest → Reads g .regex (s ++ rest) p rest
  | .term before, s, rest, p => Stops endsTerm rest → Reads g (.term before) (s ++ rest) p rest
  | .item before, s, rest, p => Follows g rest → ∀ q t, Reads g (.term p) rest q t →
      Reads g (.term before) (s ++ rest) q t
  | .factor, s, rest, p => Follows g rest → Reads g .factor (s ++ rest) p rest
  | .base, s, rest, p => rest ≠ [g.escape] → Reads g .base (s ++ rest) p rest

theorem Derives.agrees (hg : g.Apart) {sym : Symbol} (h : Derives g sym s rest p) :
    Agrees g sym s rest p := by
  induction h with
  | @single s rest p hp ih =>
    intro hr
    refine .single (ih (hr.mono fun c hc => by simp_all [endsTerm])) ?_
    intro hbar
    have := hr '|' hbar
    cases this
  | union hp hq hp' hq' ih ih' =>
    intro hr
    rw [List.append_assoc]
    exact .union (ih (by simp [endsTerm])) hp' (ih' hr) hq'
  | nil => exact fun hr => .stop hr
  | cons hi ht ih ih' =>
    intro hr
    rw [List.append_assoc]
    exact ih (follows_term hg ht hr) _ _ (ih' hr)
  | gap hf hb ha ih =>
    intro hr q t hq
    exact .gap (not_endsTerm hg.sentinel_notMem) hb (ih hr) ha hq
  | @charClass body mark s rest before after hb hm hf ih =>
    intro hr q t hq
    have hs : '[' ≠ g.sentinel := fun h => hg.sentinel_notMem (h ▸ by decide)
    have hfollow : Follows g (s ++ rest) := by
      rcases factor_opens hf with rfl | h
      · exact hr
      · exact follows_of_opens hg (h.append rest)
    have hmark : ClassMark mark (!mark.isEmpty) (s ++ rest) := by
      rcases hm with rfl | rfl | rfl
      · exact .of_stops hfollow.1
      · exact .plus _
      · exact .star _
    have hesc : g.escape ≠ ']' := fun h => hg.escape_notMem (h ▸ by decide)
    have h := Reads.charClass hs (fun x hx => readable_of_isMember hesc (hb x hx)) hmark (ih hr) hq
    simpa using h
  | @join s rest before p hf hs ih =>
    intro hr q t hq
    have hopens : Opens g s := (factor_opens hf).resolve_left hs
    obtain ⟨c, u, rfl, hc, hc', hc''⟩ := head_of_opens hg hopens
    refine .join hc hc' hc'' (ih hr) ?_ hq
    intro heq
    have hlen := congrArg List.length (show rest = (c :: u) ++ rest from heq)
    rw [List.length_append, List.length_cons] at hlen
    omega
  | bare hp ih => exact fun hr => .bare (ih hr.2) hr.1
  | @repeated s mark rest p times hp hp' hm ih =>
    intro hr
    rw [List.append_assoc]
    refine .repeated (ih ?_) hp' hm
    obtain ⟨c, u, rfl, hc⟩ := hm.exists_cons
    intro heq
    exact hg.escape_notMem ((List.cons.inj heq).1 ▸ operators_of_startsRepetition hc)
  | group hp ih =>
    intro hr
    simpa using Reads.group (ih (by simp))
  | @literals xs rest hx hmax hopen =>
    intro hr
    refine .run ?_ (fun x hx' => readable_of_isLiteral hg (hx x hx')) (stops_of_maximal hmax hr)
    cases xs with
    | nil => exact hopen rfl
    | cons x xs =>
      obtain ⟨c, u, hu, hc, -⟩ := literal_begins hg (hx x (by simp))
      rw [Literal.run_cons, hu]
      intro h
      exact hc (Option.some.inj h ▸ by decide)

end Complete

/-- A normal text has the tree that the syntax gives it, and the reader accepts no other text. -/
theorem parse_iff_derives {g : Dialect} (hg : g.Apart) {s : List Char}
    (hs : NormalForm.normalize g s = .ok s) {t : Pattern} :
    Pattern.parseWith g s = .ok t ↔ Derives g .regex s [] t ∧ t ≠ .blank := by
  rw [parseWith_iff]
  constructor
  · rintro ⟨text, htext, hr, hne⟩
    rw [hs] at htext
    cases htext
    obtain ⟨u, hu, hd⟩ := derives_of_reads hg hr
    rw [List.append_nil] at hu
    exact ⟨hu ▸ hd, hne⟩
  · rintro ⟨hd, hne⟩
    have hr := hd.agrees hg (stops_nil _)
    rw [List.append_nil] at hr
    exact ⟨s, hs, hr, hne⟩

/-- The group belongs to the class before it, and the mark to the class. -/
theorem parse_iff_derives_class :
    Dialect.standard.Apart ∧
      NormalForm.normalize .standard ['[', 'a', ']', '+', '(', 'b', ')', 'c'] =
        .ok ['[', 'a', ']', '+', '(', 'b', ')', 'c'] ∧
      Derives .standard .regex ['[', 'a', ']', '+', '(', 'b', ')', 'c'] []
        (.concat (.charClass .blank (.literal ['b']) (.ofList ['a']) true) (.literal ['c'])) := by
  have hs : NormalForm.normalize .standard ['[', 'a', ']', '+', '(', 'b', ')', 'c'] =
      .ok ['[', 'a', ']', '+', '(', 'b', ')', 'c'] := by
    decide +kernel
  have hp : Pattern.parseWith .standard ['[', 'a', ']', '+', '(', 'b', ')', 'c'] =
      .ok (.concat (.charClass .blank (.literal ['b']) (.ofList ['a']) true)
        (.literal ['c'])) := by
    decide +kernel
  exact ⟨Dialect.apart_standard, hs, ((parse_iff_derives Dialect.apart_standard hs).mp hp).1⟩

end Grammar

end GapRegex
