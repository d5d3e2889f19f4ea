import GapRegex.Proofs.Productions

/-!
# Reads — what the descent accepts, as rules

`Reads g part s p t` says that the production `part` reads the pattern `p` from the text `s` and
leaves `t`.  It has one rule for each way in which a production succeeds, in the order of the
reader's tests, so it speaks about every dialect, also one whose characters collide.
* `read_regex`, `read_term`, `read_factor`, `read_base`: what a production reads, the rules allow;
* `Reads.exists_produce`: what the rules allow, the production reads, wherever the text stands;
* `parseWith_iff`: so an expression has the pattern that the rules give to its normal form.

Laws about the trees that are read go by induction on the rules; the productions are not opened
again.
-/

namespace GapRegex.Parser

open Scan

/-- The productions.  A term is the rest of one that begins with `before`. -/
inductive Part where
  | regex
  | term (before : Pattern)
  | factor
  | base

/-- The term that a production goes on with; only the rest of a term has one. -/
def Part.before : Part → Pattern
  | term before => before
  | regex | factor | base => .blank

/-- What the productions read, and what they leave. -/
inductive Reads (g : Dialect) : Part → List Char → Pattern → List Char → Prop
  | single {s t : List Char} {p : Pattern} (hp : Reads g (.term .blank) s p t)
      (ht : t.head? ≠ some '|') : Reads g .regex s p t
  | union {s t u : List Char} {p q : Pattern} (hp : Reads g (.term .blank) s p ('|' :: t))
      (hp' : p ≠ .blank) (hq : Reads g .regex t q u) (hq' : q ≠ .blank) :
      Reads g .regex s (.union p q) u
  | stop {s : List Char} {p : Pattern} (hs : Stops endsTerm s) : Reads g (.term p) s p s
  | gap {s t u : List Char} {before after p : Pattern} (hg : endsTerm g.sentinel = false)
      (hb : before ≠ .blank) (ha : Reads g .factor s after t) (ha' : after ≠ .blank)
      (hp : Reads g (.term (.gap before after)) t p u) :
      Reads g (.term before) (g.sentinel :: s) p u
  | charClass {body : List Literal} {mark s t u : List Char} {repeated : Bool}
      {before after p : Pattern} (hg : '[' ≠ g.sentinel)
      (hb : ∀ x ∈ body, x.Readable g (· == ']')) (hm : ClassMark mark repeated s)
      (ha : Reads g .factor s after t)
      (hp : Reads g (.term (.charClass before after (.ofClass body) repeated)) t p u) :
      Reads g (.term before) ('[' :: (Literal.run g body ++ ']' :: mark ++ s)) p u
  | join {c : Char} {s t u : List Char} {before q p : Pattern} (hc : endsTerm c = false)
      (hg : c ≠ g.sentinel) (hb : c ≠ '[') (hq : Reads g .factor (c :: s) q t)
      (ht : t ≠ c :: s) (hp : Reads g (.term (before.append q)) t p u) :
      Reads g (.term before) (c :: s) p u
  | bare {s t : List Char} {p : Pattern} (hp : Reads g .base s p t)
      (ht : Stops (fun c => !startsRepetition c) t) : Reads g .factor s p t
  | repeated {s mark t : List Char} {p : Pattern} {times : Repetition}
      (hp : Reads g .base s p (mark ++ t)) (hp' : p ≠ .blank) (hm : Mark mark times) :
      Reads g .factor s (.repetition p times) t
  | group {s t : List Char} {p : Pattern} (hp : Reads g .regex s p (')' :: t)) :
      Reads g .base ('(' :: s) p t
  | run {xs : List Literal} {t : List Char} (hs : (Literal.run g xs ++ t).head? ≠ some '(')
      (hx : ∀ x ∈ xs, x.Readable g g.isReserved) (ht : Stops g.isReserved t) :
      Reads g .base (Literal.run g xs ++ t) (.ofText (xs.map Literal.char)) t

/-- The rules only drop text from the front. -/
theorem Reads.suffix {g : Dialect} {part : Part} {s t : List Char} {p : Pattern}
    (h : Reads g part s p t) : t <:+ s := by
  induction h with
  | single _ _ ih => exact ih
  | union _ _ _ _ ih ih' => exact ih'.trans ((List.suffix_cons _ _).trans ih)
  | stop _ => exact List.suffix_rfl
  | gap _ _ _ _ _ ih ih' => exact (ih'.trans ih).trans (List.suffix_cons _ _)
  | charClass _ _ _ _ _ ih ih' =>
    exact (ih'.trans ih).trans ((List.suffix_append _ _).trans (List.suffix_cons _ _))
  | join _ _ _ _ _ _ ih ih' => exact ih'.trans ih
  | bare _ _ ih => exact ih
  | repeated _ _ _ ih => exact (List.suffix_append _ _).trans ih
  | group _ ih => exact ((List.suffix_cons _ _).trans ih).trans (List.suffix_cons _ _)
  | run _ _ _ => exact List.suffix_append _ _

/-! ### What a production reads -/

/-- The production reads `p` between the two places. -/
def ReadAt (g : Dialect) (part : Part) (c : Cursor) (p : Pattern) (d : Cursor) : Prop :=
  (∃ u, Takes c u d) ∧ Reads g part c.rest p d.rest

theorem rest_of_peek {c : Cursor} {ch : Char} (h : c.peek = some ch) :
    c.rest = ch :: c.advance.rest :=
  (Takes.advance h).1

theorem unread_le {c d : Cursor} (h : ∃ u, Takes c u d) : d.unread ≤ c.unread := by
  obtain ⟨u, hu⟩ := h
  have := hu.unread
  omega

theorem exists_takes_trans {c d e : Cursor} (h : ∃ u, Takes c u d) (h' : ∃ v, Takes d v e) :
    ∃ w, Takes c w e := by
  obtain ⟨u, hu⟩ := h
  obtain ⟨v, hv⟩ := h'
  exact ⟨u ++ v, hu.trans hv⟩

theorem exists_takes_advance {c d : Cursor} {ch : Char} (h : c.peek = some ch)
    (h' : ∃ u, Takes c.advance u d) : ∃ u, Takes c u d :=
  exists_takes_trans ⟨_, Takes.advance h⟩ h'

section Sound

variable {g : Dialect}

mutual

theorem read_regex {c d : Cursor} {p : Pattern} (h : plain (regex g c) = .ok (p, d)) :
    ReadAt g .regex c p d := by
  obtain ⟨left, e, hleft, hrest⟩ := regex_ok_iff.mp h
  obtain ⟨ht, hr⟩ := read_term hleft
  rcases hrest with ⟨hbar, rfl, rfl⟩ | ⟨hbar, hl, right, hright, hr', rfl⟩
  · exact ⟨ht, .single hr hbar⟩
  · have hle := unread_le ht
    have hpos := Cursor.unread_pos hbar
    obtain ⟨ht', hr''⟩ := read_regex hright
    rw [rest_of_peek hbar] at hr
    exact ⟨exists_takes_trans ht (exists_takes_advance hbar ht'), .union hr hl hr'' hr'⟩
termination_by 5 * c.unread + 4
decreasing_by
  · omega
  · have := e.unread_advance
    omega

theorem read_term {c d : Cursor} {before p : Pattern}
    (h : plain (term g c before) = .ok (p, d)) : ReadAt g (.term before) c p d := by
  rcases term_ok_iff.mp h with ⟨hs, rfl, rfl⟩ | ⟨ch, q, e, hp, hs, hitem, hterm⟩
  · exact ⟨⟨_, Takes.refl d⟩, .stop hs⟩
  · have hpos := Cursor.unread_pos hp
    have hle : e.unread ≤ c.advance.unread := unread_le_of_plain hitem
    obtain ⟨ht, hr⟩ := read_item hp hs hitem
    obtain ⟨ht', hr'⟩ := read_term hterm
    exact ⟨exists_takes_trans ht ht', hr hr'⟩
termination_by 5 * c.unread + 3
decreasing_by
  · omega
  · have := c.unread_advance
    omega

/-- What follows an item is read as the rest of a term that begins with the item. -/
theorem read_item {c e : Cursor} {ch : Char} {before q : Pattern} (hp : c.peek = some ch)
    (hs : endsTerm ch = false) (h : plain (item g c ch before) = .ok (q, e)) :
    (∃ u, Takes c u e) ∧ ∀ {p : Pattern} {t : List Char}, Reads g (.term q) e.rest p t →
      Reads g (.term before) c.rest p t := by
  have hpos := Cursor.unread_pos hp
  by_cases hg : ch = g.sentinel
  · subst hg
    obtain ⟨after, hafter, hb, ha, rfl⟩ := item_gap_iff.mp h
    obtain ⟨ht, hr⟩ := read_factor hafter
    rw [rest_of_peek hp]
    exact ⟨exists_takes_advance hp ht, fun hr' => .gap hs hb hr ha hr'⟩
  · by_cases hb : ch = '['
    · subst hb
      obtain ⟨members, repeated, d, after, hclass, hafter, rfl⟩ := (item_class_iff hg).mp h
      obtain ⟨body, mark, ht, hx, rfl, hm⟩ := bracketed_iff.mp hclass
      have hle := ht.unread
      obtain ⟨ht', hr⟩ := read_factor hafter
      refine ⟨exists_takes_advance hp (exists_takes_trans ⟨_, ht⟩ ht'), fun hr' => ?_⟩
      rw [rest_of_peek hp, ht.1]
      exact .charClass hg hx hm hr hr'
    · obtain ⟨p, hfactor, hlt, rfl⟩ := (item_join_iff hg hb).mp h
      obtain ⟨ht, hr⟩ := read_factor hfactor
      refine ⟨ht, fun hr' => ?_⟩
      have hne : e.rest ≠ c.rest := by
        intro heq
        rw [Cursor.unread, Cursor.unread, heq] at hlt
        exact absurd hlt (Nat.lt_irrefl _)
      rw [rest_of_peek hp] at hr hne ⊢
      exact .join hs hg hb hr hne hr'
termination_by 5 * c.unread + 2
decreasing_by
  · have := c.unread_advance
    omega
  · have := c.unread_advance
    omega
  · omega

theorem read_factor {c d : Cursor} {p : Pattern} (h : plain (factor g c) = .ok (p, d)) :
    ReadAt g .factor c p d := by
  obtain ⟨q, e, hbase, hrest⟩ := factor_ok_iff.mp h
  obtain ⟨ht, hr⟩ := read_base hbase
  rcases hrest with ⟨hs, rfl, rfl⟩ | ⟨mark, times, ht', hm, hq, rfl⟩
  · exact ⟨ht, .bare hr hs⟩
  · rw [ht'.1] at hr
    exact ⟨exists_takes_trans ht ⟨mark, ht'⟩, .repeated hr hq hm⟩
termination_by 5 * c.unread + 1
decreasing_by omega

theorem read_base {c d : Cursor} {p : Pattern} (h : plain (base g c) = .ok (p, d)) :
    ReadAt g .base c p d := by
  rcases base_ok_iff.mp h with ⟨hp, e, hinner, ht'⟩ | ⟨hp, hrun⟩
  · have hpos := Cursor.unread_pos hp
    obtain ⟨ht, hr⟩ := read_regex hinner
    rw [ht'.1] at hr
    refine ⟨exists_takes_advance hp (exists_takes_trans ht ⟨_, ht'⟩), ?_⟩
    rw [rest_of_peek hp]
    exact .group hr
  · obtain ⟨xs, ht, hx, hs, rfl⟩ := literalRun_iff.mp hrun
    refine ⟨⟨_, ht⟩, ?_⟩
    have hp' : c.rest.head? ≠ some '(' := hp
    rw [ht.1] at hp' ⊢
    exact .run hp' hx hs
termination_by 5 * c.unread
decreasing_by
  have := c.unread_advance
  omega

end

end Sound

/-! ### What the rules allow is read -/

/-- The outcome of a production: the pattern and the place after it, or an error. -/
def produce (g : Dialect) : Part → Cursor → Except ParseError (Pattern × Cursor)
  | .regex, c => plain (regex g c)
  | .term before, c => plain (term g c before)
  | .factor, c => plain (factor g c)
  | .base, c => plain (base g c)

theorem Takes.left_eq {c d : Cursor} {u v : List Char} (h : Takes c u d)
    (h' : c.rest = v ++ d.rest) : u = v :=
  List.append_cancel_right (h.1.symm.trans h')

theorem peek_eq_head (c : Cursor) : c.peek = c.rest.head? := rfl

theorem advance_rest {c : Cursor} {ch : Char} {s : List Char} (h : c.rest = ch :: s) :
    c.peek = some ch ∧ c.advance.rest = s := by
  have hp : c.peek = some ch := by rw [peek_eq_head, h]; rfl
  exact ⟨hp, (List.cons.inj ((rest_of_peek hp).symm.trans h)).2⟩

/-- Whatever text stands at a place can be taken. -/
theorem exists_takes (c : Cursor) {u t : List Char} (h : c.rest = u ++ t) :
    ∃ d, Takes c u d ∧ d.rest = t :=
  ⟨⟨c.pos + u.length, t⟩, ⟨h, rfl⟩, rfl⟩

/-- What the rules allow, a production reads wherever the text stands. -/
theorem Reads.exists_produce {g : Dialect} {part : Part} {s t : List Char} {p : Pattern}
    (h : Reads g part s p t) {c : Cursor} (hc : c.rest = s) :
    ∃ d, d.rest = t ∧ produce g part c = .ok (p, d) := by
  induction h generalizing c with
  | single hp ht ih =>
    obtain ⟨d, rfl, hterm⟩ := ih hc
    exact ⟨d, rfl, regex_ok_iff.mpr ⟨_, d, hterm, Or.inl ⟨ht, rfl, rfl⟩⟩⟩
  | union hp hp' hq hq' ih ih' =>
    obtain ⟨d, hd, hleft⟩ := ih hc
    obtain ⟨hbar, hd⟩ := advance_rest hd
    obtain ⟨e, rfl, hright⟩ := ih' hd
    exact ⟨e, rfl,
      regex_ok_iff.mpr ⟨_, d, hleft, Or.inr ⟨hbar, hp', _, hright, hq', rfl⟩⟩⟩
  | stop hs => exact ⟨c, hc, term_ok_iff.mpr (Or.inl ⟨hc ▸ hs, rfl, rfl⟩)⟩
  | @gap s t u before after p hg hb ha ha' hp ih ih' =>
    obtain ⟨hpeek, hc⟩ := advance_rest hc
    obtain ⟨d, hd, hafter⟩ := ih hc
    obtain ⟨e, rfl, hrest⟩ := ih' hd
    have hitem : plain (item g c g.sentinel before) = .ok (.gap before after, d) :=
      item_gap_iff.mpr ⟨after, hafter, hb, ha', rfl⟩
    exact ⟨e, rfl, term_ok_iff.mpr (Or.inr ⟨_, _, d, hpeek, hg, hitem, hrest⟩)⟩
  | @charClass body mark s t u repeated before after p hg hb hm ha hp ih ih' =>
    obtain ⟨hpeek, hc⟩ := advance_rest hc
    obtain ⟨d, htakes, hd⟩ := exists_takes c.advance hc
    have hclass : bracketed g c.advance = .ok (.ofClass body, repeated) d :=
      bracketed_iff.mpr ⟨body, mark, htakes, hb, rfl, hd ▸ hm⟩
    obtain ⟨e, he, hafter⟩ := ih hd
    obtain ⟨e', rfl, hrest⟩ := ih' he
    have hitem : plain (item g c '[' before) =
        .ok (.charClass before after (.ofClass body) repeated, e) :=
      (item_class_iff hg).mpr ⟨_, _, d, after, hclass, hafter, rfl⟩
    exact ⟨e', rfl, term_ok_iff.mpr (Or.inr ⟨_, _, e, hpeek, by decide, hitem, hrest⟩)⟩
  | @join ch s t u before q p hs hg hb hq ht hp ih ih' =>
    obtain ⟨hpeek, -⟩ := advance_rest hc
    obtain ⟨d, hd, hfactor⟩ := ih hc
    obtain ⟨e, rfl, hrest⟩ := ih' hd
    have hlt : d.unread < c.unread := by
      obtain ⟨u, hu⟩ := hq.suffix
      rw [Cursor.unread, Cursor.unread, hc, hd, ← hu]
      cases u with
      | nil => exact absurd hu ht
      | cons x u => simp only [List.cons_append, List.length_cons, List.length_append]; omega
    have hitem : plain (item g c ch before) = .ok (before.append q, d) :=
      (item_join_iff hg hb).mpr ⟨q, hfactor, hlt, rfl⟩
    exact ⟨e, rfl, term_ok_iff.mpr (Or.inr ⟨ch, _, d, hpeek, hs, hitem, hrest⟩)⟩
  | bare hp ht ih =>
    obtain ⟨d, rfl, hbase⟩ := ih hc
    exact ⟨d, rfl, factor_ok_iff.mpr ⟨_, d, hbase, Or.inl ⟨ht, rfl, rfl⟩⟩⟩
  | @repeated s mark t p times hp hp' hm ih =>
    obtain ⟨d, hd, hbase⟩ := ih hc
    obtain ⟨e, htakes, he⟩ := exists_takes d hd
    exact ⟨e, he,
      factor_ok_iff.mpr ⟨p, d, hbase, Or.inr ⟨mark, times, htakes, hm, hp', rfl⟩⟩⟩
  | @group s t p hp ih =>
    obtain ⟨hpeek, hc⟩ := advance_rest hc
    obtain ⟨d, hd, hinner⟩ := ih hc
    have hd' : d.rest = [')'] ++ t := hd
    obtain ⟨e, htakes, he⟩ := exists_takes d hd'
    exact ⟨e, he, base_ok_iff.mpr (Or.inl ⟨hpeek, d, hinner, htakes⟩)⟩
  | @run xs t hs hx ht =>
    obtain ⟨d, htakes, hd⟩ := exists_takes c hc
    have hpeek : c.peek ≠ some '(' := by rw [peek_eq_head, hc]; exact hs
    have hrun := literalRun_iff.mpr ⟨xs, htakes, hx, by rw [hd]; exact ht, rfl⟩
    exact ⟨d, hd, base_ok_iff.mpr (Or.inr ⟨hpeek, hrun⟩)⟩

theorem readAt_of_produce {g : Dialect} {part : Part} {c d : Cursor} {p : Pattern}
    (h : produce g part c = .ok (p, d)) : ReadAt g part c p d := by
  cases part with
  | regex => exact read_regex h
  | term before => exact read_term h
  | factor => exact read_factor h
  | base => exact read_base h

/-- The descent succeeds exactly as the rules say. -/
theorem produce_ok_iff {g : Dialect} {part : Part} {c d : Cursor} {p : Pattern} :
    produce g part c = .ok (p, d) ↔ ReadAt g part c p d := by
  refine ⟨readAt_of_produce, ?_⟩
  rintro ⟨⟨u, hu⟩, h⟩
  obtain ⟨e, he, hp⟩ := h.exists_produce rfl
  obtain ⟨⟨v, hv⟩, -⟩ := readAt_of_produce hp
  have huv := Takes.left_eq hv (hu.1.trans (by rw [he]))
  rw [hv.right_unique (huv ▸ hu)] at hp
  exact hp

theorem regex_iff_reads {g : Dialect} {c d : Cursor} {p : Pattern} :
    plain (regex g c) = .ok (p, d) ↔ ReadAt g .regex c p d :=
  @produce_ok_iff g .regex c d p

/-- All of a text lies before its end. -/
theorem Takes.start (text : List Char) : Takes (.start text) text ⟨text.length, []⟩ :=
  ⟨(List.append_nil text).symm, (Nat.zero_add _).symm⟩

/-- A normal text is parsed to what the rules read from all of it. -/
theorem parseNormal_iff {g : Dialect} {text : List Char} {p : Pattern} :
    parseNormal g text = .ok p ↔ Reads g .regex text p [] ∧ p ≠ .blank := by
  rw [parseNormal_eq]
  constructor
  · intro h
    split at h
    · cases h
    · next q d hregex =>
      split at h
      · cases h
      · next hd =>
        split at h
        · cases h
        · next hq =>
          cases h
          have hnil : d.rest = [] := by simpa [Cursor.peek] using hd
          obtain ⟨-, hr⟩ := regex_iff_reads.mp hregex
          exact ⟨hnil ▸ hr, by simpa using hq⟩
  · rintro ⟨hr, hp⟩
    have hregex : plain (regex g (.start text)) = .ok (p, ⟨text.length, []⟩) :=
      regex_iff_reads.mpr ⟨⟨text, Takes.start text⟩, hr⟩
    rw [hregex]
    exact if_neg (mt Pattern.isBlank_iff.mp hp)

theorem parseWith_iff {g : Dialect} {raw : List Char} {p : Pattern} :
    Pattern.parseWith g raw = .ok p ↔
      ∃ text, NormalForm.normalize g raw = .ok text ∧ Reads g .regex text p [] ∧ p ≠ .blank := by
  unfold Pattern.parseWith
  cases NormalForm.normalize g raw with
  | error err => simp
  | ok text => simp [parseNormal_iff]

end GapRegex.Parser
