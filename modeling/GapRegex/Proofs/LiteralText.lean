import GapRegex.Proofs.Meaning
import GapRegex.Proofs.Reports
import GapRegex.Proofs.RoundTrip

/-!
# LiteralText — expressions without operators

A text of literals and parentheses is read as one literal, however it is grouped, and no other text
is.  Where it has no literals, it is no expression.
* `Spells`: such a text, and the characters that it stands for;
* `Reads.spells`: where a production reads a literal or nothing at all, it takes such a text, in
  every dialect;
* `Spells.reads_term`: such a text is read as what it spells;
* `parse_eq_literal_iff`: so both are the same, and a text that spells nothing is one of balanced
  parentheses.
-/

namespace GapRegex

open GapRegex.Parser GapRegex.Pattern

/-- The text `s` consists of literals and of parentheses, each with its partner, and its literals
stand for the characters `w`. -/
inductive Spells (g : Dialect) : List Char → List Char → Prop
  | nil : Spells g [] []
  | bare {c : Char} {s w : List Char} (hr : g.isReserved c = false) (he : c ≠ g.escape)
      (h : Spells g s w) : Spells g (c :: s) (c :: w)
  | escaped {c : Char} {s w : List Char} (h : Spells g s w) :
      Spells g (g.escape :: c :: s) (c :: w)
  | group {s t v w : List Char} (hs : Spells g s v) (ht : Spells g t w) :
      Spells g ('(' :: s ++ ')' :: t) (v ++ w)

namespace Spells

variable {g : Dialect} {s t v w : List Char}

theorem append (hs : Spells g s v) (ht : Spells g t w) : Spells g (s ++ t) (v ++ w) := by
  induction hs with
  | nil => exact ht
  | bare hr he _ ih => exact .bare hr he ih
  | escaped _ ih => exact .escaped ih
  | group hs _ _ ih =>
    have h := hs.group ih
    simpa using h

theorem literal {x : Literal} (hx : x.Readable g g.isReserved) (h : Spells g s w) :
    Spells g (x.text g ++ s) (x.char :: w) := by
  obtain ⟨c, escaped⟩ := x
  cases escaped with
  | true => exact .escaped h
  | false => exact .bare hx.1 hx.2 h

theorem run {xs : List Literal} (hx : ∀ x ∈ xs, x.Readable g g.isReserved) :
    Spells g (Literal.run g xs) (xs.map Literal.char) := by
  induction xs with
  | nil => exact .nil
  | cons x xs ih =>
    obtain ⟨hx, hxs⟩ := List.forall_mem_cons.mp hx
    exact (ih hxs).literal hx

theorem enclosed (h : Spells g s w) : Spells g ('(' :: s ++ [')']) w := by
  have h := h.group .nil
  rwa [List.append_nil] at h

end Spells

/-- Balanced parentheses alone spell nothing. -/
theorem Balanced.spells {s : List Char} (g : Dialect) (h : Balanced s) : Spells g s [] := by
  induction h with
  | nil => exact .nil
  | append _ _ ih ih' => exact ih.append ih'
  | group _ ih => exact ih.enclosed

/-! ### What is read as a literal -/

namespace Parser

/-- A production that reads a literal, or nothing, goes on with a literal, or nothing, and takes a
text that spells what is added to it. -/
theorem Reads.spells {g : Dialect} {part : Part} {s t : List Char} {p : Pattern}
    (h : Reads g part s p t) (hp : p.IsText) : part.before.IsText ∧
      ∃ u w, s = u ++ t ∧ Spells g u w ∧ spelling [p] = spelling [part.before] ++ w := by
  -- the other nodes are neither blank nor literals
  have other : ∀ {q : Pattern}, q ≠ .blank → q.isLiteral = false → ¬ q.IsText := by
    intro q hq hl ht
    exact absurd (isLiteral_iff.mpr (ht hq)) (Bool.eq_false_iff.mp hl)
  induction h with
  | single _ _ ih => exact ih hp
  | union => exact absurd hp (other nofun rfl)
  | stop _ => exact ⟨hp, [], [], rfl, .nil, (List.append_nil _).symm⟩
  | gap _ _ _ _ _ _ ih => exact absurd (ih hp).1 (other nofun rfl)
  | charClass _ _ _ _ _ _ ih => exact absurd (ih hp).1 (other nofun rfl)
  | @join c s t u before q p _ _ _ _ _ _ ih ih' =>
    obtain ⟨happend, v, w, rfl, hv, hw⟩ := ih' hp
    have happend : (before.append q).IsText := happend
    obtain ⟨hb, hq⟩ := append_isText.mp happend
    obtain ⟨-, v', w', hs, hv', hw'⟩ := ih hq
    have hw : spelling [p] = spelling [before.append q] ++ w := hw
    have hw' : spelling [q] = w' := hw'
    refine ⟨hb, v' ++ v, w' ++ w, ?_, hv'.append hv, ?_⟩
    · rw [hs, List.append_assoc]
    · rw [hw, spelling_of_append happend, hw', List.append_assoc]
      rfl
  | bare _ _ ih => exact ih hp
  | repeated => exact absurd hp (other nofun rfl)
  | group _ ih =>
    obtain ⟨hb, u, w, rfl, hu, hw⟩ := ih hp
    exact ⟨hb, '(' :: u ++ [')'], w, by simp, hu.enclosed, hw⟩
  | @run xs t _ hx _ =>
    refine ⟨fun h => absurd rfl h, _, _, rfl, Spells.run hx, ?_⟩
    exact spelling_ofText _

end Parser

/-! ### What is spelled is read -/

section Complete

variable {s t u v w rest : List Char} {q : Pattern}

theorem Pattern.ofText_append (v w : List Char) :
    (ofText v).append (ofText w) = ofText (v ++ w) := by
  cases v with
  | nil => exact blank_append _
  | cons c v =>
    cases w with
    | nil => rw [List.append_nil]; rfl
    | cons d w => rfl

theorem Pattern.startsNext_of_endsTerm {c : Char} (h : endsTerm c = true) :
    startsNext c = true := by
  rcases eq_of_endsTerm h with rfl | rfl <;> rfl

/-- No repetition follows a text of literals and parentheses. -/
theorem Spells.stops (h : Spells .standard s w) (hr : Stops endsTerm rest) :
    Stops (fun c => !startsRepetition c) (s ++ rest) := by
  cases h with
  | nil => exact stops_repetition (hr.mono fun _ hc => startsNext_of_endsTerm hc)
  | bare hc _ _ =>
    have ho := (Dialect.isReserved_eq_false.mp hc).2
    exact stops_cons.mpr (by rw [not_startsRepetition ho]; rfl)
  | escaped _ => exact stops_cons.mpr rfl
  | group _ _ => exact stops_cons.mpr rfl

/-- A run of literals joins the text before it. -/
theorem Pattern.reads_run {xs : List Literal}
    (hx : ∀ x ∈ xs, x.Readable .standard Dialect.standard.isReserved) (ht : Stops startsNext t)
    (hq : Reads .standard (.term (ofText (v ++ xs.map Literal.char))) t q u) :
    Reads .standard (.term (ofText v)) (Literal.run .standard xs ++ t) q u := by
  cases xs with
  | nil =>
    rw [List.map_nil, List.append_nil] at hq
    exact hq
  | cons x xs =>
    obtain ⟨c, a, ha, hc⟩ := (hx x List.mem_cons_self).exists_cons
    have hrun : Literal.run .standard (x :: xs) = c :: (a ++ Literal.run .standard xs) := by
      rw [Literal.run_cons, ha]
      rfl
    have hparen : (Literal.run .standard (x :: xs) ++ t).head? ≠ some '(' := by
      rw [hrun]
      rintro ⟨⟩
      cases hc
    have hfactor := Reads.bare (.run hparen hx (stops_reserved ht)) (stops_repetition ht)
    rw [← ofText_append] at hq
    rw [hrun] at hfactor ⊢
    exact reads_join (by simp [startsFactor, hc]) hfactor hq

/-- What is spelled joins the text before it, and the literals that are still to be read. -/
theorem Spells.reads_term (h : Spells .standard s w) {xs : List Literal}
    (hx : ∀ x ∈ xs, x.Readable .standard Dialect.standard.isReserved) (v : List Char)
    (hr : Stops endsTerm rest) :
    Reads .standard (.term (ofText v)) (Literal.run .standard xs ++ (s ++ rest))
      (ofText (v ++ (xs.map Literal.char ++ w))) rest := by
  induction h generalizing xs v rest with
  | nil =>
    rw [List.append_nil]
    exact reads_run hx (hr.mono fun _ hc => startsNext_of_endsTerm hc) (.stop hr)
  | @bare c s w hc he _ ih =>
    have hlit : Literal.Readable .standard Dialect.standard.isReserved ⟨c, false⟩ := ⟨hc, he⟩
    have := ih (List.forall_mem_append.mpr ⟨hx, List.forall_mem_singleton.mpr hlit⟩) v hr
    simpa [Literal.run, Literal.text] using this
  | @escaped c s w _ ih =>
    have hlit : Literal.Readable .standard Dialect.standard.isReserved ⟨c, true⟩ := rfl
    have := ih (List.forall_mem_append.mpr ⟨hx, List.forall_mem_singleton.mpr hlit⟩) v hr
    simpa [Literal.run, Literal.text] using this
  | @group s t v' w hs ht ih ih' =>
    -- the literals before the parenthesis end there; what the group holds is read on its own
    have hinner : Reads .standard (.term .blank) (s ++ ')' :: (t ++ rest)) (ofText v')
        (')' :: (t ++ rest)) := ih (List.forall_mem_nil _) [] (stops_cons.mpr rfl)
    have hgroup : Reads .standard .factor (parenthesized s ++ (t ++ rest)) (ofText v')
        (t ++ rest) := reads_group (.single hinner (by simp)) (ht.stops hr)
    have hrest : Reads .standard (.term (ofText (v ++ xs.map Literal.char ++ v'))) (t ++ rest)
        (ofText (v ++ xs.map Literal.char ++ v' ++ w)) rest :=
      ih' (List.forall_mem_nil _) _ hr
    rw [← ofText_append _ v'] at hrest
    have hjoin := reads_join rfl hgroup hrest
    have htext : '(' :: s ++ ')' :: t ++ rest = parenthesized s ++ (t ++ rest) := by
      simp [parenthesized]
    rw [htext, ← List.append_assoc v, ← List.append_assoc _ v']
    exact reads_run hx (stops_cons.mpr rfl) hjoin

theorem Spells.reads_regex (h : Spells .standard s w) :
    Reads .standard .regex s (ofText w) [] := by
  have hterm : Reads .standard (.term .blank) (s ++ []) (ofText w) [] :=
    h.reads_term (List.forall_mem_nil _) [] (stops_nil endsTerm)
  rw [List.append_nil] at hterm
  exact .single hterm (by simp)

end Complete

/-! ### Whole expressions -/

theorem parseNormal_literal_iff {n w : List Char} :
    parseNormal .standard n = .ok (literal w) ↔ w ≠ [] ∧ Spells .standard n w := by
  rw [parseNormal_iff]
  constructor
  · rintro ⟨hr, -⟩
    have hw : w ≠ [] := wellFormed_literal.mp (hr.wellFormed wellFormed_blank)
    obtain ⟨-, u, v, rfl, hu, hv⟩ := hr.spells fun _ => ⟨w, rfl⟩
    have hv : w ++ [] = v := hv
    rw [List.append_nil] at hv ⊢
    exact ⟨hw, hv ▸ hu⟩
  · rintro ⟨hw, hs⟩
    obtain ⟨c, w, rfl⟩ := List.exists_cons_of_ne_nil hw
    exact ⟨hs.reads_regex, nofun⟩

theorem parseNormal_empty_iff {n : List Char} :
    parseNormal .standard n = .error .emptyExpression ↔ Balanced n := by
  constructor
  · intro h
    rcases parseNormal_error_iff.mp h with h | ⟨p, d, hr, ⟨lit, -, h⟩ | ⟨hd, rfl, -⟩⟩
    · exact (h.truthful (Within.start n)).describes
    · cases h
    · obtain ⟨u, hu, hbal⟩ := hr.balanced
      have hnil : d.rest = [] := by simpa [Cursor.peek] using hd
      have hu : n = u ++ d.rest := hu
      rw [hnil, List.append_nil] at hu
      exact hu ▸ hbal
  · intro h
    have hr : ReadAt .standard .regex (.start n) .blank ⟨n.length, []⟩ :=
      ⟨⟨n, Takes.start n⟩, (h.spells .standard).reads_regex⟩
    exact parseNormal_error_iff.mpr (Or.inr ⟨_, _, hr, Or.inr ⟨rfl, rfl, rfl⟩⟩)

/-- A raw text is read as a literal exactly if its normal form is made of literals and of
parentheses, and its literals spell that one.  It is empty exactly if it has no normal form, or one
of parentheses only. -/
theorem parse_eq_literal_iff (raw : List Char) :
    (∀ w, parse raw = .ok (literal w) ↔
      w ≠ [] ∧ ∃ n, NormalForm.normalize .standard raw = .ok n ∧ Spells .standard n w) ∧
    (parse raw = .error .emptyExpression ↔
      (∃ err, NormalForm.normalize .standard raw = .error err) ∨
        ∃ n, NormalForm.normalize .standard raw = .ok n ∧ Balanced n) := by
  refine ⟨fun w => ⟨fun h => ?_, ?_⟩, fun h => ?_, ?_⟩
  · obtain ⟨n, hn, hr⟩ := parseWith_iff.mp h
    obtain ⟨hw, hs⟩ := parseNormal_literal_iff.mp (parseNormal_iff.mpr hr)
    exact ⟨hw, n, hn, hs⟩
  · rintro ⟨hw, n, hn, hs⟩
    have hr := parseNormal_iff.mp (parseNormal_literal_iff.mpr ⟨hw, hs⟩)
    exact parseWith_iff.mpr ⟨n, hn, hr⟩
  · rcases parseWith_error_iff.mp h with h | ⟨n, hn, h⟩
    · exact Or.inl ⟨_, h⟩
    · exact Or.inr ⟨n, hn, parseNormal_empty_iff.mp h⟩
  · rintro (⟨err, h⟩ | ⟨n, hn, h⟩)
    · obtain rfl := NormalForm.eq_emptyExpression_of_error h
      exact parseWith_error_iff.mpr (Or.inl h)
    · exact parseWith_error_iff.mpr (Or.inr ⟨n, hn, parseNormal_empty_iff.mpr h⟩)

end GapRegex
