import GapRegex.Proofs.Faults

/-!
# Fails — how the descent refuses a text, as rules

`Fails g part c err` says that the production `part` reports `err` when it is entered at `c`.  It
has one rule for each way in which a production fails: a part of it fails, or a test of its own
does.  What was read before that is described by `ReadAt`, one item of a term by `ItemAt`.
* `fails_regex`, `fails_term`, `fails_factor`, `fails_base`: what a production reports, the rules
  allow;
* `Fails.produce_error`: what the rules allow, the production reports;
* `parseNormal_error_iff`: so they say which error a normal text has.
-/

namespace GapRegex.Parser

open Scan

/-- One item is read between the two places, and makes the term `before` it the term `p`. -/
inductive ItemAt (g : Dialect) (c : Cursor) (before : Pattern) : Pattern → Cursor → Prop
  | gap {d : Cursor} {after : Pattern} (hp : c.peek = some g.sentinel)
      (hs : endsTerm g.sentinel = false) (hb : before ≠ .blank)
      (ha : ReadAt g .factor c.advance after d) (ha' : after ≠ .blank) :
      ItemAt g c before (.gap before after) d
  | charClass {d e : Cursor} {after : Pattern} {members : CharSet} {repeated : Bool}
      (hp : c.peek = some '[') (hg : '[' ≠ g.sentinel)
      (hc : bracketed g c.advance = .ok (members, repeated) d) (ha : ReadAt g .factor d after e) :
      ItemAt g c before (.charClass before after members repeated) e
  | join {d : Cursor} {ch : Char} {p : Pattern} (hp : c.peek = some ch)
      (hs : endsTerm ch = false) (hg : ch ≠ g.sentinel) (hb : ch ≠ '[')
      (hq : ReadAt g .factor c p d) (hlt : d.unread < c.unread) :
      ItemAt g c before (before.append p) d

theorem item_ok_iff {g : Dialect} {c d : Cursor} {ch : Char} {before p : Pattern}
    (hp : c.peek = some ch) (hs : endsTerm ch = false) :
    plain (item g c ch before) = .ok (p, d) ↔ ItemAt g c before p d := by
  have hch : ∀ {ch' : Char}, c.peek = some ch' → ch' = ch :=
    fun hp' => Option.some.inj (hp'.symm.trans hp)
  have hfactor : ∀ {c d : Cursor} {p : Pattern},
      plain (factor g c) = .ok (p, d) ↔ ReadAt g .factor c p d := @produce_ok_iff g .factor
  constructor
  · intro h
    by_cases hg : ch = g.sentinel
    · subst hg
      obtain ⟨after, ha, hb, ha', rfl⟩ := item_gap_iff.mp h
      exact .gap hp hs hb (hfactor.mp ha) ha'
    · by_cases hb : ch = '['
      · subst hb
        obtain ⟨members, repeated, e, after, hc, ha, rfl⟩ := (item_class_iff hg).mp h
        exact .charClass hp hg hc (hfactor.mp ha)
      · obtain ⟨q, hq, hlt, rfl⟩ := (item_join_iff hg hb).mp h
        exact .join hp hs hg hb (hfactor.mp hq) hlt
  · intro h
    cases h with
    | gap hp' _ hb ha ha' =>
      obtain rfl := hch hp'
      exact item_gap_iff.mpr ⟨_, hfactor.mpr ha, hb, ha', rfl⟩
    | charClass hp' hg hc ha =>
      obtain rfl := hch hp'
      exact (item_class_iff hg).mpr ⟨_, _, _, _, hc, hfactor.mpr ha, rfl⟩
    | join hp' _ hg hb hq hlt =>
      obtain rfl := hch hp'
      exact (item_join_iff hg hb).mpr ⟨_, hfactor.mpr hq, hlt, rfl⟩

/-- What the productions report. -/
inductive Fails (g : Dialect) : Part → Cursor → ParseError → Prop
  | left {c : Cursor} {err : ParseError} (h : Fails g (.term .blank) c err) : Fails g .regex c err
  | emptyLeft {c d : Cursor} (hp : ReadAt g (.term .blank) c .blank d)
      (hbar : d.peek = some '|') : Fails g .regex c (.emptyAlternative c.pos)
  | right {c d : Cursor} {p : Pattern} {err : ParseError} (hp : ReadAt g (.term .blank) c p d)
      (hp' : p ≠ .blank) (hbar : d.peek = some '|') (h : Fails g .regex d.advance err) :
      Fails g .regex c err
  | emptyRight {c d e : Cursor} {p : Pattern} (hp : ReadAt g (.term .blank) c p d)
      (hp' : p ≠ .blank) (hbar : d.peek = some '|') (hq : ReadAt g .regex d.advance .blank e) :
      Fails g .regex c (.emptyAlternative d.advance.pos)
  | gap {c : Cursor} {before : Pattern} {err : ParseError} (hp : c.peek = some g.sentinel)
      (hs : endsTerm g.sentinel = false) (h : Fails g .factor c.advance err) :
      Fails g (.term before) c err
  | blankGap {c d : Cursor} {before after : Pattern} (hp : c.peek = some g.sentinel)
      (hs : endsTerm g.sentinel = false) (ha : ReadAt g .factor c.advance after d)
      (hb : before = .blank ∨ after = .blank) : Fails g (.term before) c (.blankGap c.pos)
  | charClass {c : Cursor} {before : Pattern} {err : ParseError} (hp : c.peek = some '[')
      (hg : '[' ≠ g.sentinel) (h : ClassFault g c.advance err) : Fails g (.term before) c err
  | afterClass {c d : Cursor} {before : Pattern} {r : CharSet × Bool} {err : ParseError}
      (hp : c.peek = some '[') (hg : '[' ≠ g.sentinel) (hc : bracketed g c.advance = .ok r d)
      (h : Fails g .factor d err) : Fails g (.term before) c err
  | join {c : Cursor} {ch : Char} {before : Pattern} {err : ParseError} (hp : c.peek = some ch)
      (hs : endsTerm ch = false) (hg : ch ≠ g.sentinel) (hb : ch ≠ '[')
      (h : Fails g .factor c err) : Fails g (.term before) c err
  | unexpected {c : Cursor} {ch : Char} {before p : Pattern} (hp : c.peek = some ch)
      (hs : endsTerm ch = false) (hg : ch ≠ g.sentinel) (hb : ch ≠ '[')
      (hq : ReadAt g .factor c p c) : Fails g (.term before) c (.unexpectedChar c.pos ch)
  | later {c d : Cursor} {before p : Pattern} {err : ParseError} (hi : ItemAt g c before p d)
      (h : Fails g (.term p) d err) : Fails g (.term before) c err
  | base {c : Cursor} {err : ParseError} (h : Fails g .base c err) : Fails g .factor c err
  | nothing {c d : Cursor} {lit : Char} (hp : ReadAt g .base c .blank d)
      (hlit : d.peek = some lit) (hm : startsRepetition lit = true) :
      Fails g .factor c (.nothingToRepeat d.pos lit)
  | mark {c d : Cursor} {p : Pattern} {err : ParseError} (hp : ReadAt g .base c p d)
      (hp' : p ≠ .blank) (hm : MarkFault d err) : Fails g .factor c err
  | inner {c : Cursor} {err : ParseError} (hp : c.peek = some '(')
      (h : Fails g .regex c.advance err) : Fails g .base c err
  | unclosed {c d : Cursor} {p : Pattern} (hp : c.peek = some '(')
      (hr : ReadAt g .regex c.advance p d) (hd : d.peek ≠ some ')') :
      Fails g .base c (.expectedChar d.pos ')' d.peek)
  | run {c : Cursor} {err : ParseError} (hp : c.peek ≠ some '(')
      (h : Dangles g g.isReserved c err) : Fails g .base c err

/-! ### What a production reports -/

section Sound

variable {g : Dialect}

theorem ItemAt.peek {c d : Cursor} {before p : Pattern} (h : ItemAt g c before p d) :
    ∃ ch, c.peek = some ch ∧ endsTerm ch = false := by
  cases h with
  | gap hp hs => exact ⟨_, hp, hs⟩
  | charClass hp => exact ⟨_, hp, rfl⟩
  | join hp hs => exact ⟨_, hp, hs⟩

mutual

theorem fails_regex {c : Cursor} {err : ParseError} (h : plain (regex g c) = .error err) :
    Fails g .regex c err := by
  rcases regex_error_iff.mp h with h | ⟨left, d, hleft, hbar, hrest⟩
  · exact .left (fails_term h)
  · have hl := read_term hleft
    rcases hrest with ⟨rfl, rfl⟩ | ⟨hne, h | ⟨right, e, hright, rfl, rfl⟩⟩
    · exact .emptyLeft hl hbar
    · have hle := unread_le hl.1
      have hpos := Cursor.unread_pos hbar
      exact .right hl hne hbar (fails_regex h)
    · exact .emptyRight hl hne hbar (read_regex hright)
termination_by 5 * c.unread + 4
decreasing_by
  · omega
  · have := d.unread_advance
    omega

theorem fails_term {c : Cursor} {before : Pattern} {err : ParseError}
    (h : plain (term g c before) = .error err) : Fails g (.term before) c err := by
  obtain ⟨ch, hp, hs, h | ⟨p, d, hitem, h⟩⟩ := term_error_iff.mp h
  · exact fails_item hp hs h
  · have hpos := Cursor.unread_pos hp
    have hle : d.unread ≤ c.advance.unread := unread_le_of_plain hitem
    exact .later ((item_ok_iff hp hs).mp hitem) (fails_term h)
termination_by 5 * c.unread + 3
decreasing_by
  · omega
  · have := c.unread_advance
    omega

theorem fails_item {c : Cursor} {ch : Char} {before : Pattern} {err : ParseError}
    (hp : c.peek = some ch) (hs : endsTerm ch = false)
    (h : plain (item g c ch before) = .error err) : Fails g (.term before) c err := by
  have hpos := Cursor.unread_pos hp
  by_cases hg : ch = g.sentinel
  · subst hg
    rcases item_gap_error_iff.mp h with h | ⟨after, d, hafter, hb, rfl⟩
    · exact .gap hp hs (fails_factor h)
    · exact .blankGap hp hs (read_factor hafter) hb
  · by_cases hb : ch = '['
    · subst hb
      rcases (item_class_error_iff hg).mp h with h | ⟨r, d, hclass, h⟩
      · exact .charClass hp hg h
      · have hle := forward_bracketed g hclass
        exact .afterClass hp hg hclass (fails_factor h)
    · rcases (item_join_error_iff hg hb).mp h with h | ⟨p, d, hfactor, hlt, rfl⟩
      · exact .join hp hs hg hb (fails_factor h)
      · have hq := read_factor hfactor
        obtain ⟨u, hu⟩ := hq.1
        obtain rfl := hu.eq_of_not_lt hlt
        exact .unexpected hp hs hg hb hq
termination_by 5 * c.unread + 2
decreasing_by
  · have := c.unread_advance
    omega
  · have := c.unread_advance
    omega
  · omega

theorem fails_factor {c : Cursor} {err : ParseError} (h : plain (factor g c) = .error err) :
    Fails g .factor c err := by
  rcases factor_error_iff.mp h with h | ⟨p, d, hbase, lit, hlit, hm, ⟨rfl, rfl⟩ | ⟨hne, h⟩⟩
  · exact .base (fails_base h)
  · exact .nothing (read_base hbase) hlit hm
  · exact .mark (read_base hbase) hne h
termination_by 5 * c.unread + 1
decreasing_by omega

theorem fails_base {c : Cursor} {err : ParseError} (h : plain (base g c) = .error err) :
    Fails g .base c err := by
  rcases base_error_iff.mp h with ⟨hp, h | ⟨p, d, hinner, hd, rfl⟩⟩ | ⟨hp, h⟩
  · have hpos := Cursor.unread_pos hp
    exact .inner hp (fails_regex h)
  · exact .unclosed hp (read_regex hinner) hd
  · exact .run hp h
termination_by 5 * c.unread
decreasing_by
  have := c.unread_advance
  omega

end

end Sound

/-! ### What the rules allow is reported -/

theorem Fails.produce_error {g : Dialect} {part : Part} {c : Cursor} {err : ParseError}
    (h : Fails g part c err) : produce g part c = .error err := by
  induction h with
  | left _ ih => exact regex_error_iff.mpr (Or.inl ih)
  | emptyLeft hp hbar =>
    have hleft := produce_ok_iff.mpr hp
    exact regex_error_iff.mpr (Or.inr ⟨_, _, hleft, hbar, Or.inl ⟨rfl, rfl⟩⟩)
  | right hp hp' hbar _ ih =>
    have hleft := produce_ok_iff.mpr hp
    exact regex_error_iff.mpr (Or.inr ⟨_, _, hleft, hbar, Or.inr ⟨hp', Or.inl ih⟩⟩)
  | emptyRight hp hp' hbar hq =>
    have hleft := produce_ok_iff.mpr hp
    have hright := produce_ok_iff.mpr hq
    exact regex_error_iff.mpr
      (Or.inr ⟨_, _, hleft, hbar, Or.inr ⟨hp', Or.inr ⟨_, _, hright, rfl, rfl⟩⟩⟩)
  | gap hp hs _ ih =>
    exact term_error_iff.mpr ⟨_, hp, hs, Or.inl (item_gap_error_iff.mpr (Or.inl ih))⟩
  | blankGap hp hs ha hb =>
    have hafter := produce_ok_iff.mpr ha
    exact term_error_iff.mpr
      ⟨_, hp, hs, Or.inl (item_gap_error_iff.mpr (Or.inr ⟨_, _, hafter, hb, rfl⟩))⟩
  | charClass hp hg h =>
    exact term_error_iff.mpr ⟨_, hp, rfl, Or.inl ((item_class_error_iff hg).mpr (Or.inl h))⟩
  | afterClass hp hg hc _ ih =>
    exact term_error_iff.mpr
      ⟨_, hp, rfl, Or.inl ((item_class_error_iff hg).mpr (Or.inr ⟨_, _, hc, ih⟩))⟩
  | join hp hs hg hb _ ih =>
    exact term_error_iff.mpr ⟨_, hp, hs, Or.inl ((item_join_error_iff hg hb).mpr (Or.inl ih))⟩
  | unexpected hp hs hg hb hq =>
    have hfactor := produce_ok_iff.mpr hq
    exact term_error_iff.mpr ⟨_, hp, hs, Or.inl ((item_join_error_iff hg hb).mpr
      (Or.inr ⟨_, _, hfactor, Nat.lt_irrefl _, rfl⟩))⟩
  | later hi _ ih =>
    obtain ⟨ch, hp, hs⟩ := hi.peek
    exact term_error_iff.mpr ⟨ch, hp, hs, Or.inr ⟨_, _, (item_ok_iff hp hs).mpr hi, ih⟩⟩
  | base _ ih => exact factor_error_iff.mpr (Or.inl ih)
  | nothing hp hlit hm =>
    have hbase := produce_ok_iff.mpr hp
    exact factor_error_iff.mpr (Or.inr ⟨_, _, hbase, _, hlit, hm, Or.inl ⟨rfl, rfl⟩⟩)
  | mark hp hp' hm =>
    have hbase := produce_ok_iff.mpr hp
    exact factor_error_iff.mpr
      (Or.inr ⟨_, _, hbase, _, hm.peek, rfl, Or.inr ⟨hp', hm⟩⟩)
  | inner hp _ ih => exact base_error_iff.mpr (Or.inl ⟨hp, Or.inl ih⟩)
  | unclosed hp hr hd =>
    have hinner := produce_ok_iff.mpr hr
    exact base_error_iff.mpr (Or.inl ⟨hp, Or.inr ⟨_, _, hinner, hd, rfl⟩⟩)
  | run hp h => exact base_error_iff.mpr (Or.inr ⟨hp, h⟩)

theorem produce_error_iff {g : Dialect} {part : Part} {c : Cursor} {err : ParseError} :
    produce g part c = .error err ↔ Fails g part c err := by
  refine ⟨fun h => ?_, Fails.produce_error⟩
  cases part with
  | regex => exact fails_regex h
  | term before => exact fails_term h
  | factor => exact fails_factor h
  | base => exact fails_base h

/-! ### Whole expressions -/

/-- The descent fails, or it leaves text over, or there is nothing but parentheses. -/
theorem parseNormal_error_iff {g : Dialect} {text : List Char} {err : ParseError} :
    parseNormal g text = .error err ↔
      Fails g .regex (.start text) err ∨
        ∃ p d, ReadAt g .regex (.start text) p d ∧
          ((∃ lit, d.peek = some lit ∧ ParseError.unexpectedChar d.pos lit = err) ∨
            d.peek = none ∧ p = .blank ∧ ParseError.emptyExpression = err) := by
  have hproduce : plain (regex g (.start text)) = produce g .regex (.start text) := rfl
  rw [parseNormal_eq, hproduce, ← produce_error_iff]
  simp only [← produce_ok_iff]
  cases produce g .regex (.start text) with
  | error err' => simp
  | ok r =>
    obtain ⟨p, d⟩ := r
    simp only [exists_ok_iff, reduceCtorEq, false_or]
    cases d.peek with
    | some lit => simp
    | none => by_cases hp : p = .blank <;> simp [hp]

theorem parseWith_error_iff {g : Dialect} {raw : List Char} {err : ParseError} :
    Pattern.parseWith g raw = .error err ↔
      NormalForm.normalize g raw = .error err ∨
        ∃ text, NormalForm.normalize g raw = .ok text ∧ parseNormal g text = .error err := by
  unfold Pattern.parseWith
  cases NormalForm.normalize g raw <;> simp

end GapRegex.Parser
